import Mathlib.Data.List.Nodup

/-! The directory of a user's connections on one node. -/
namespace WuKongIM.Users
open List Option

structure Conn where
  uid : List UInt8
  nodeId : Nat
  connId : Int
  sessionId : List UInt8 := []
  authTokenHash : List UInt8 := []
  authTokenVersion : Nat := 0
  authTokenVersionKnown : Bool := false
  deviceId : List UInt8 := []
  deviceFlag : UInt8 := 0
  deviceLevel : UInt8 := 0
  auth : Bool := false
  internal : Bool := false
  aesIV : List UInt8 := []
  aesKey : List UInt8 := []
  protoVersion : UInt8 := 0
  uptime : Nat := 0
  lastActive : Nat := 0
  revoked : Bool := false
  isJsonRpc : Bool := false
  deriving DecidableEq

def Conn.key (c : Conn) : Nat × Int := (c.nodeId, c.connId)

/-- The identity of a session. What it was authenticated with is not part of it. -/
def Conn.sameSession (c other : Conn) : Bool :=
  c.sessionId = other.sessionId && c.uid = other.uid && c.nodeId = other.nodeId && c.connId = other.connId &&
    c.uptime = other.uptime && c.deviceId = other.deviceId && c.deviceFlag = other.deviceFlag &&
    c.isJsonRpc = other.isJsonRpc && c.protoVersion = other.protoVersion && c.aesIV = other.aesIV && c.aesKey = other.aesKey

/-- Each change of the directory, which is in memory, adds one to `revision`, a counter too wide to
come round. -/
structure Conns where
  conns : List Conn := []
  revision : Nat := 0
  recoveredVersion : Nat := 0
  hasRecovered : Bool := false

namespace Conns

def replace (conn : Conn) : List Conn → Option (List Conn)
  | [] => none
  | c :: rest => if c.key = conn.key then some (conn :: rest) else (replace conn rest).map (c :: ·)

def addOrUpdateConn (c : Conns) (conn : Conn) : Conns :=
  { c with conns := (replace conn c.conns).getD (c.conns ++ [conn]), revision := c.revision + 1 }

def remove (c : Conns) (conn : Conn) : Conns :=
  { c with
    conns := c.conns.eraseP fun other => other.connId = conn.connId && other.nodeId = conn.nodeId && other.sameSession conn
    revision := c.revision + 1 }

/-- A session is marked where it stands, by whoever has it. -/
def revoke (c : Conns) (key : Nat × Int) : Conns :=
  { c with conns := c.conns.map fun other => if other.key = key then { other with revoked := true } else other }

/-- No two sessions have the same key. -/
def Distinct (c : Conns) : Prop := (c.conns.map Conn.key).Nodup

theorem map_key_replace {conn : Conn} {l l' : List Conn} (h : replace conn l = some l') :
    l'.map Conn.key = l.map Conn.key := by
  induction l generalizing l' with
  | nil => cases h
  | cons c rest ih =>
    rw [replace] at h
    split at h
    · next hkey =>
      cases h
      rw [map_cons, map_cons, hkey]
    · obtain ⟨rest', hrest, rfl⟩ := map_eq_some_iff.mp h
      rw [map_cons, map_cons, ih hrest]

theorem not_mem_of_replace {conn : Conn} {l : List Conn} (h : replace conn l = none) : conn.key ∉ l.map Conn.key := by
  induction l with
  | nil => exact not_mem_nil
  | cons c rest ih =>
    rw [replace] at h
    split at h
    · cases h
    rename_i hkey
    rw [map_cons, mem_cons]
    rintro (hsame | hmem)
    · exact hkey hsame.symm
    · exact ih (map_eq_none_iff.mp h) hmem

variable {c : Conns}

variable (h : c.Distinct)
include h

theorem Distinct.addOrUpdateConn (conn : Conn) : (c.addOrUpdateConn conn).Distinct := by
  rw [Distinct, Conns.addOrUpdateConn]
  cases hreplace : replace conn c.conns with
  | none =>
    rw [getD_none, map_append]
    refine Nodup.append h (nodup_singleton _) fun key hkey hsame => ?_
    rw [map_singleton, mem_singleton] at hsame
    exact not_mem_of_replace hreplace (hsame ▸ hkey)
  | some l =>
    rw [getD_some, map_key_replace hreplace]
    exact h

theorem Distinct.remove (conn : Conn) : (c.remove conn).Distinct :=
  Nodup.sublist (eraseP_sublist.map Conn.key) h

theorem Distinct.revoke (key : Nat × Int) : (c.revoke key).Distinct := by
  have hkeys : (c.revoke key).conns.map Conn.key = c.conns.map Conn.key := by
    rw [Conns.revoke, List.map_map]
    refine map_congr_left fun other _ => ?_
    rw [Function.comp_apply]
    split <;> rfl
  rw [Distinct, hkeys]
  exact h

end Conns
end WuKongIM.Users
