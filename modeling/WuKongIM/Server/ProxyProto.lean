import WuKongIM.WKDB.Message

/-! The header of the PROXY protocol before the first frame of a connection, from package server. -/
namespace WuKongIM.Server
open WKDB Lib List

def sigV1 : Bytes := [0x50, 0x52, 0x4F, 0x58, 0x59]

def sigV2 : Bytes := [0x0D, 0x0A, 0x0D, 0x0A, 0x00, 0x0D, 0x0A, 0x51, 0x55, 0x49, 0x54, 0x0A]

inductive ProxyError
  | noProxyProtocol | version1HeaderTooLong | lineMustEndWithCrlf | cantReadAddressFamilyAndProtocol
  | invalidAddress | invalidPortNumber | cantReadLength | invalidLength | cantReadPayload

inductive Addr
  | tcp (ip : Bytes) (port : Int)
  | unix (datagram : Bool) (name : Bytes)

/-- The parsers of packages netip, whose addresses have 4 or 16 bytes, and strconv. -/
structure AddrTexts where
  parseAddr : Bytes → Option Bytes
  atoi : Bytes → Option Int

variable (t : AddrTexts)

def parseV1IPAddress (length : Nat) (addrStr : Bytes) : Except ProxyError Bytes :=
  match t.parseAddr addrStr with
  | some addr => if addr.length = length then .ok addr else .error .invalidAddress
  | none => .error .invalidAddress

def parseV1PortNumber (portStr : Bytes) : Except ProxyError Int :=
  match t.atoi portStr with
  | some port => if port < 0 ∨ port > 65535 then .error .invalidPortNumber else .ok port
  | none => .error .invalidPortNumber

/-- The address of a first line that still has its carriage return. -/
def parseV1Line (buf : Bytes) : Except ProxyError (Option Addr) :=
  if buf.length ≥ 107 then .error .version1HeaderTooLong
  else if buf.getLast? ≠ some 0x0D then .error .lineMustEndWithCrlf
  else
    match buf.dropLast.splitOn 0x20 with
    | _ :: family :: addrs =>
      -- UNKNOWN, TCP4 and TCP6
      if family = [0x55, 0x4E, 0x4B, 0x4E, 0x4F, 0x57, 0x4E] then .ok none
      else if family ≠ [0x54, 0x43, 0x50, 0x34] ∧ family ≠ [0x54, 0x43, 0x50, 0x36]
        then .error .cantReadAddressFamilyAndProtocol
      else
        match addrs with
        | source :: _ :: port :: _ :: _ => do
          let ip ← parseV1IPAddress t (if family = [0x54, 0x43, 0x50, 0x34] then 4 else 16) source
          return some (.tcp ip (← parseV1PortNumber t port))
        | _ => .error .cantReadAddressFamilyAndProtocol
    | _ => .error .cantReadAddressFamilyAndProtocol

def parseProxyProtoV1 (data : Bytes) : Except ProxyError (Option Addr × Nat) :=
  let buf := data.takeWhile (· ≠ 0x0A)
  (parseV1Line t buf).map fun addr => (addr, buf.length + 1)

def validateProxyProtoLength (ap : UInt8) (length : Nat) : Bool :=
  if ap &&& 0xF0 = 0x10 then length ≥ 12
  else if ap &&& 0xF0 = 0x20 then length ≥ 36
  else if ap &&& 0xF0 = 0x30 then length ≥ 216
  else ap &&& 0xF0 = 0 ∨ ap &&& 0x0F = 0

/-- The source in a payload of a valid length. -/
def v2Addr (ap : UInt8) (payload : Bytes) : Option Addr :=
  if ap &&& 0xF0 = 0x10 then some (.tcp (payload.take 4) (ofBigEndian ((payload.drop 8).take 2)))
  else if ap &&& 0xF0 = 0x20 then some (.tcp (payload.take 16) (ofBigEndian ((payload.drop 32).take 2)))
  else if ap &&& 0xF0 = 0x30 then some (.unix (ap &&& 0x0F = 2) ((payload.take 108).takeWhile (· ≠ 0)))
  else none

def parseProxyProtoV2 (buff : Bytes) : Except ProxyError (Option Addr × Nat) :=
  match buff.drop 13 with
  | [] => .error .cantReadAddressFamilyAndProtocol
  | ap :: hi :: lo :: rest =>
    let length := ofBigEndian [hi, lo]
    if !validateProxyProtoLength ap length ∨ length = 0 then .error .invalidLength
    else if rest.length < length then .error .cantReadPayload
    else .ok (v2Addr ap (rest.take length), 16 + length)
  | _ => .error .cantReadLength

variable (buff : Bytes)

def parseProxyProto : Except ProxyError (Option Addr × Nat) :=
  if buff.length < 5 then .error .noProxyProtocol
  else if sigV1 <+: buff then parseProxyProtoV1 t buff
  else if buff.length < 12 then .error .noProxyProtocol
  else if sigV2 <+: buff then parseProxyProtoV2 buff
  else .error .noProxyProtocol

def headerSize : Nat :=
  match parseProxyProto t buff with
  | .ok (_, size) => size
  | .error _ => 0

def isProxyProto : Bool := buff.head? = sigV1.head? ∨ buff.head? = sigV2.head?

/-- The data that is left for the first frame; there is none after a panic. -/
def skipHeader : Option Bytes :=
  let size := headerSize t buff
  if isProxyProto buff ∧ size > 0 then if size ≤ buff.length then some (buff.drop size) else none
  else some buff

/-- A header that does not depend on what follows. -/
structure Complete : Prop where
  inside : headerSize t buff ≤ buff.length
  whole : 0 < headerSize t buff → parseProxyProto t (buff.take (headerSize t buff)) = parseProxyProto t buff
  kept : 0 < headerSize t buff → ∀ more, parseProxyProto t (buff ++ more) = parseProxyProto t buff

/-- A line of version 1 has its line feed. -/
def Ended : Prop := sigV1 <+: buff → (parseV1Line t buff).isOk = true → 0x0A ∈ buff

variable {t : AddrTexts} {buff : Bytes}

theorem parseProxyProto_v1 (h : sigV1 <+: buff) : parseProxyProto t buff = parseProxyProtoV1 t buff := by
  have hlength : 5 ≤ buff.length := h.length_le
  rw [parseProxyProto, if_neg (by omega), if_pos h]

theorem parseProxyProto_v2 (h : sigV2 <+: buff) : parseProxyProto t buff = parseProxyProtoV2 buff := by
  have hlength : 12 ≤ buff.length := h.length_le
  have hother : ¬sigV1 <+: buff := fun h' => absurd (prefix_of_prefix_length_le h' h (by decide)) (by decide)
  rw [parseProxyProto, if_neg (by omega), if_neg hother, if_neg (by omega), if_pos h]

theorem Complete.of_zero (h : headerSize t buff = 0) : Complete t buff where
  inside := h ▸ Nat.zero_le _
  whole hpos := absurd h (Nat.ne_of_gt hpos)
  kept hpos := absurd h (Nat.ne_of_gt hpos)

theorem Complete.of_header {header : Bytes} {a : Option Addr}
    (h : ∀ rest, parseProxyProto t (header ++ rest) = .ok (a, header.length)) (rest : Bytes) :
      Complete t (header ++ rest) := by
  have hsize : headerSize t (header ++ rest) = header.length := by rw [headerSize, h]
  refine ⟨?_, fun _ => ?_, fun _ more => ?_⟩
  · rw [hsize, length_append]
    exact Nat.le_add_right ..
  · have halone := h []
    rw [append_nil] at halone
    rw [hsize, take_left, h, halone]
  · rw [append_assoc, h, h]

theorem takeWhile_line (h : 0x0A ∉ buff) (rest : Bytes) :
    (buff ++ rest).takeWhile (· ≠ 0x0A) = buff ++ rest.takeWhile (· ≠ 0x0A) :=
  takeWhile_append_of_pos fun _ hb => decide_eq_true fun heq => h (heq ▸ hb)

theorem complete_v1 (hsig : sigV1 <+: buff) (hline : 0x0A ∉ buff) (rest : Bytes) : Complete t (buff ++ 0x0A :: rest) := by
  have hparse (rest : Bytes) : parseProxyProto t (buff ++ 0x0A :: rest) =
      (parseV1Line t buff).map fun addr => (addr, buff.length + 1) := by
    rw [parseProxyProto_v1 (hsig.trans (prefix_append ..)), parseProxyProtoV1, takeWhile_line hline]
    simp
  cases haddr : parseV1Line t buff with
  | error e =>
    apply Complete.of_zero
    rw [headerSize, hparse, haddr]
    rfl
  | ok addr =>
    rw [append_cons]
    refine .of_header (a := addr) (fun rest => ?_) rest
    rw [← append_cons, hparse, haddr, length_append]
    rfl

theorem parseProxyProtoV2_ok {addr : Option Addr} {n : Nat} (h : parseProxyProtoV2 buff = .ok (addr, n)) :
    (16 ≤ n ∧ n ≤ buff.length) ∧ ∀ more, parseProxyProtoV2 (buff.take n ++ more) = .ok (addr, n) := by
  rw [parseProxyProtoV2] at h
  split at h
  · cases h
  · next ap hi lo rest hdrop =>
    have hlength := congrArg length hdrop
    rw [length_drop, length_cons, length_cons, length_cons] at hlength
    dsimp only at h
    generalize hn : ofBigEndian [hi, lo] = length at h
    split at h
    · cases h
    split at h
    · cases h
    next hvalid hrest =>
    cases h
    refine ⟨by omega, fun more => ?_⟩
    have htake : (buff.take (16 + length) ++ more).drop 13 = ap :: hi :: lo :: (rest.take length ++ more) := by
      rw [drop_append_of_le_length (by rw [length_take]; omega), drop_take, hdrop,
        show 16 + length - 13 = length + 3 by omega]
      rfl
    have hpayload : (rest.take length).length = length := length_take_of_le (by omega)
    rw [parseProxyProtoV2, htake]
    dsimp only
    rw [hn, if_neg hvalid, if_neg (by rw [length_append]; omega), take_left' hpayload]
  · cases h

theorem complete_v2 (hsig : sigV2 <+: buff) : Complete t buff := by
  cases hparse : parseProxyProtoV2 buff with
  | error e =>
    apply Complete.of_zero
    rw [headerSize, parseProxyProto_v2 hsig, hparse]
  | ok header =>
    obtain ⟨addr, n⟩ := header
    obtain ⟨⟨hmin, hmax⟩, hkept⟩ := parseProxyProtoV2_ok hparse
    rw [← take_append_drop n buff]
    apply Complete.of_header
    intro rest
    have hfront : sigV2 <+: buff.take n := prefix_take_iff.mpr ⟨hsig, le_trans (by decide) hmin⟩
    rw [parseProxyProto_v2 (hfront.trans (prefix_append ..)), hkept, length_take_of_le hmax]

/-- A line that stands alone counts the line feed that it does not have. -/
theorem headerSize_of_not_mem (hsig : sigV1 <+: buff) (hmem : 0x0A ∉ buff) :
    headerSize t buff = if (parseV1Line t buff).isOk then buff.length + 1 else 0 := by
  have hline := takeWhile_line hmem []
  rw [takeWhile_nil, append_nil] at hline
  rw [headerSize, parseProxyProto_v1 hsig, parseProxyProtoV1, hline]
  cases parseV1Line t buff <;> rfl

theorem complete_of_ended (h : Ended t buff) : Complete t buff := by
  by_cases hsig : sigV1 <+: buff
  · by_cases hmem : 0x0A ∈ buff
    · obtain ⟨after, rfl⟩ := hsig
      obtain ⟨front, rest, rfl, hfront⟩ := eq_append_cons_of_mem ((mem_append.mp hmem).resolve_left (by decide))
      exact complete_v1 (prefix_append ..) (fun h => (mem_append.mp h).elim (by decide) hfront) rest
    · apply Complete.of_zero
      rw [headerSize_of_not_mem hsig hmem, if_neg fun hok => hmem (h hsig hok)]
  · by_cases hsig2 : sigV2 <+: buff
    · exact complete_v2 hsig2
    · apply Complete.of_zero
      rw [headerSize, parseProxyProto, if_neg hsig, if_neg hsig2]
      simp only [ite_self]

/-- What is found of a header stays inside the data and does not depend on what follows, and cutting
it off does not panic, exactly if a line of version 1 has its line feed. -/
theorem proxy_header_complete (t : AddrTexts) (buff : Bytes) :
    (Complete t buff ↔ Ended t buff) ∧ ((skipHeader t buff).isSome = true ↔ Ended t buff) := by
  by_cases h : Ended t buff
  · have hcomplete := complete_of_ended h
    refine ⟨iff_of_true hcomplete h, iff_of_true ?_ h⟩
    rw [skipHeader]
    simp only [hcomplete.inside, if_true]
    split <;> rfl
  · simp only [Ended, Classical.not_imp] at h
    obtain ⟨hsig, hok, hmem⟩ := h
    have hsize : headerSize t buff = buff.length + 1 := by rw [headerSize_of_not_mem hsig hmem, if_pos hok]
    have hnot : ¬Ended t buff := fun h => hmem (h hsig hok)
    refine ⟨iff_of_false (fun hcomplete => ?_) hnot, iff_of_false ?_ hnot⟩
    · have hinside := hcomplete.inside
      omega
    · have hfirst : isProxyProto buff := by
        obtain ⟨rest, rfl⟩ := hsig
        simp [isProxyProto, sigV1]
      simp [skipHeader, hsize, hfirst]

/-- `PROXY UNKNOWN` and a carriage return: the data is cut one byte behind its end. -/
theorem proxy_header_complete_fails : ∃ t buff, headerSize t buff = buff.length + 1 ∧ skipHeader t buff = none :=
  ⟨⟨fun _ => none, fun _ => none⟩, sigV1 ++ [0x20, 0x55, 0x4E, 0x4B, 0x4E, 0x4F, 0x57, 0x4E, 0x0D], by decide +kernel, by decide +kernel⟩

end WuKongIM.Server
