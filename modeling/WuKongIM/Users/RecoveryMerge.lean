import WuKongIM.Users.ConnRecovery

/-! What a recovery makes of the directory and a snapshot. -/
namespace WuKongIM.Users
open List Option Conn Function
variable {o : RecoveryOptions} {l rest prepared next left : List Conn} {current incoming : Conn}

/-- `e` is the session `incoming` of the snapshot, or the entry that the directory had for it. -/
def ComesFrom (l : List Conn) (incoming e : Conn) : Prop :=
  incoming.revoked = false ∧ (e = incoming ∨ ∃ current ∈ l, current.sameSession incoming = true ∧
    e.deviceFlag = current.deviceFlag ∧ e.authTokenHash = current.authTokenHash ∧ e.deviceLevel = current.deviceLevel)

theorem ComesFrom.mono {l' : List Conn} {e : Conn} (h : ComesFrom l incoming e) (hl : l ⊆ l') : ComesFrom l' incoming e := by
  obtain ⟨hrevoked, hfrom⟩ := h
  refine ⟨hrevoked, hfrom.imp_right ?_⟩
  rintro ⟨current, hcurrent, hrest⟩
  exact ⟨current, hl hcurrent, hrest⟩

theorem key_takeOver (current incoming : Conn) : (takeOver current incoming).key = current.key := by
  rw [takeOver]
  split <;> rfl

theorem takeOver_cases (current incoming : Conn) : takeOver current incoming = current ∨
    takeOver current incoming = { current with revoked := true } := by
  rw [takeOver]
  split
  · exact .inr rfl
  · exact .inl rfl

theorem comesFrom_takeOver (hcurrent : current ∈ l) (hsame : current.sameSession incoming)
    (lastActive : Nat) (h : (takeOver current incoming).revoked = false) :
    ComesFrom l incoming { takeOver current incoming with lastActive := lastActive } := by
  rw [takeOver] at h ⊢
  split at h
  · cases h
  rename_i hrevoked
  rw [if_neg hrevoked]
  exact ⟨Bool.eq_false_iff.mpr hrevoked, .inr ⟨current, hcurrent, hsame, rfl, rfl, rfl⟩⟩

/-- What the loop over the directory leaves when it comes to its end. -/
structure Merged (o : RecoveryOptions) (l prepared next left : List Conn) : Prop where
  keys : (next.map Conn.key).Sublist (l.map Conn.key)
  remaining : left.Sublist prepared
  fresh : ∀ x ∈ left, x.key ∉ l.map Conn.key
  origin : ∀ e ∈ next, ∀ incoming ∈ prepared, incoming.key = e.key → e.revoked = false → ComesFrom l incoming e
  kept : ∀ c ∈ l, isProtected o c = true → c ∈ next ∨ { c with revoked := true } ∈ next

theorem Merged.cons {prepared' : List Conn} (added : List Conn) (h : Merged o rest prepared' next left)
    (hnodup : ((current :: rest).map key).Nodup) (hprepared : prepared'.Sublist prepared)
    (hother : ∀ x ∈ prepared, x.key ≠ current.key → x ∈ prepared') (hgone : ∀ x ∈ prepared', x.key ≠ current.key)
    (hkeys : added.map key = [] ∨ added.map key = [current.key])
    (horigin : ∀ e ∈ added, ∀ incoming ∈ prepared, incoming.key = e.key → e.revoked = false →
      ComesFrom (current :: rest) incoming e)
    (hkept : isProtected o current → current ∈ added ∨ { current with revoked := true } ∈ added) :
    Merged o (current :: rest) prepared (added ++ next) left where
  keys := by
    rw [map_append]
    rcases hkeys with hnone | hone
    · rw [hnone]
      exact h.keys.cons _
    · rw [hone]
      exact h.keys.cons_cons _
  remaining := h.remaining.trans hprepared
  fresh x hx hmem := by
    rcases mem_cons.mp hmem with hsame | hmem
    · exact hgone x (h.remaining.subset hx) hsame
    · exact h.fresh x hx hmem
  origin e he incoming hincoming hkey hrevoked := by
    rcases mem_append.mp he with he | he
    · exact horigin e he incoming hincoming hkey hrevoked
    have hrest : e.key ∈ rest.map key := h.keys.subset (mem_map_of_mem he)
    have hne : incoming.key ≠ current.key := by
      rw [hkey]
      rintro hsame
      exact (nodup_cons.mp hnodup).1 (hsame ▸ hrest)
    exact (h.origin e he incoming (hother incoming hincoming hne) hkey hrevoked).mono (subset_cons_self _ _)
  kept c hc hprotected := by
    simp only [mem_append]
    rcases mem_cons.mp hc with rfl | hc
    · exact (hkept hprotected).imp .inl .inl
    · exact (h.kept c hc hprotected).imp .inr .inr

/-- The session of a connection of the directory was among the prepared ones, and is no longer among
those that are left. -/
theorem Merged.take (added : List Conn) (h : Merged o rest (prepared.filter fun incoming => incoming.key ≠ current.key) next left)
    (hnodup : ((current :: rest).map key).Nodup) (hprepared : (prepared.map key).Nodup)
    (hfound : prepared.find? (fun incoming => incoming.key = current.key) = some incoming)
    (hadded : added = [] ∨ ∃ e, added = [e] ∧ e.key = current.key ∧
      (e.revoked = false → ComesFrom (current :: rest) incoming e))
    (hkept : isProtected o current → current ∈ added ∨ { current with revoked := true } ∈ added) :
    Merged o (current :: rest) prepared (added ++ next) left := by
  have hkey := find?_some hfound
  have hkey : incoming.key = current.key := of_decide_eq_true hkey
  refine h.cons added hnodup filter_sublist (fun x hx hne => mem_filter.mpr ⟨hx, decide_eq_true hne⟩)
    (fun x hx => of_decide_eq_true (mem_filter.mp hx).2) ?_ (fun e he x hx hxkey hrevoked => ?_) hkept
  · rcases hadded with rfl | ⟨e, rfl, hsame, -⟩
    · exact .inl rfl
    · exact .inr (congrArg (fun key => [key]) hsame)
  rcases hadded with rfl | ⟨e', rfl, hsame, hfrom⟩
  · cases he
  obtain rfl := mem_singleton.mp he
  obtain rfl : x = incoming :=
    inj_on_of_nodup_map hprepared hx (mem_of_find?_eq_some hfound) (hxkey.trans (hsame.trans hkey.symm))
  exact hfrom hrevoked

theorem merged_mergeConns (hnodup : (l.map key).Nodup)
    (h : (mergeConns o l prepared).2 = some (next, left)) (hprepared : (prepared.map key).Nodup) :
      Merged o l prepared next left := by
  induction l generalizing prepared next left with
  | nil =>
    cases h
    exact ⟨Sublist.refl _, Sublist.refl _, nofun, nofun, nofun⟩
  | cons current rest ih =>
    have hrest := (nodup_cons.mp hnodup).2
    rw [mergeConns] at h
    split at h
    · next incoming hfound =>
      have hmerged {next left : List Conn}
          (h : (mergeConns o rest (prepared.filter fun incoming => incoming.key ≠ current.key)).2 = some (next, left)) :=
        ih hrest h (hprepared.sublist (filter_sublist.map _))
      split at h
      · split at h
        · cases h
        rename_i hkeeps
        obtain ⟨⟨next', left'⟩, hrec, h⟩ := map_eq_some_iff.mp h
        cases h
        simp only [Bool.or_eq_true, Bool.not_eq_true', not_or, Bool.not_eq_false] at hkeeps
        refine (hmerged hrec).take [takeOver current incoming] hnodup hprepared hfound
          (.inr ⟨_, rfl, key_takeOver _ _, ?_⟩) ?_
        · exact comesFrom_takeOver mem_cons_self hkeeps.2 (takeOver current incoming).lastActive
        · intro _
          simp only [mem_singleton]
          exact (takeOver_cases current incoming).imp Eq.symm Eq.symm
      · next hunprotected =>
        split at h
        · next hsame =>
          obtain ⟨⟨next', left'⟩, hrec, h⟩ := map_eq_some_iff.mp h
          cases h
          refine (hmerged hrec).take [{ takeOver current incoming with lastActive := incoming.lastActive }] hnodup hprepared hfound
            (.inr ⟨_, rfl, key_takeOver current incoming, ?_⟩) fun hprotected => absurd hprotected hunprotected
          exact comesFrom_takeOver mem_cons_self hsame incoming.lastActive
        · obtain ⟨⟨next', left'⟩, hrec, h⟩ := map_eq_some_iff.mp h
          cases h
          have hadded : (if incoming.revoked then next' else incoming :: next') = (if incoming.revoked then [] else [incoming]) ++ next' := by
            split <;> rfl
          rw [hadded]
          refine (hmerged hrec).take _ hnodup hprepared hfound ?_ fun hprotected => absurd hprotected hunprotected
          split
          · exact .inl rfl
          · have hkey := find?_some hfound
            exact .inr ⟨_, rfl, of_decide_eq_true hkey, fun hrevoked => ⟨hrevoked, .inl rfl⟩⟩
    · next hfound =>
      have hne (x : Conn) (hx : x ∈ prepared) : x.key ≠ current.key := by
        have hx := find?_eq_none.mp hfound x hx
        exact fun hkey => hx (decide_eq_true hkey)
      obtain ⟨⟨next', left'⟩, hrec, h⟩ := map_eq_some_iff.mp h
      cases h
      have hadded : (if isProtected o current then current :: next' else next') = (if isProtected o current then [current] else []) ++ next' := by
        split <;> rfl
      rw [hadded]
      refine (ih hrest hrec hprepared).cons _ hnodup (Sublist.refl _) (fun x hx _ => hx) hne ?_ ?_ ?_
      · split
        · exact .inr rfl
        · exact .inl rfl
      · intro e he x hx hxkey _
        split at he
        · rw [mem_singleton.mp he] at hxkey
          exact absurd hxkey (hne x hx)
        · cases he
      · intro hprotected
        rw [if_pos hprotected]
        exact .inl mem_cons_self

theorem Merged.distinct (h : Merged o l prepared next left) (hnodup : (l.map key).Nodup)
    (hprepared : (prepared.map key).Nodup) (p : Conn → Bool) : ((next ++ left.filter p).map key).Nodup := by
  have hleft : (left.filter p).Sublist left := filter_sublist
  rw [map_append]
  refine Nodup.append (hnodup.sublist h.keys) (hprepared.sublist ((hleft.trans h.remaining).map _)) fun key hkey hkey' => ?_
  obtain ⟨x, hx, rfl⟩ := mem_map.mp hkey'
  exact h.fresh x (hleft.subset hx) (h.keys.subset hkey)

theorem map_key_mergeConns (l prepared : List Conn) : (mergeConns o l prepared).1.map key = l.map key := by
  induction l generalizing prepared with
  | nil => rfl
  | cons current rest ih =>
    rw [mergeConns]
    split
    · next incoming _ =>
      have hkey : { takeOver current incoming with lastActive := incoming.lastActive }.key =
        current.key := key_takeOver current incoming
      split
      · split
        · rfl
        · rw [map_cons, map_cons, key_takeOver, ih]
      · split
        · rw [map_cons, map_cons, hkey, ih]
        · rw [map_cons, map_cons, ih]
    · rw [map_cons, map_cons, ih]

/-- A connection without the time of its last activity. -/
def Conn.session (c : Conn) : Conn := { c with lastActive := 0 }

/-- The connections of the directory for which the snapshot has a session, each with that
session. -/
def met : List Conn → List Conn → List (Conn × Conn)
  | [], _ => []
  | current :: rest, prepared => ((prepared.find? fun incoming => incoming.key = current.key).map (current, ·)).toList ++
      met rest (prepared.filter fun incoming => incoming.key ≠ current.key)

/-- The snapshot has another session for a connection that only its node or the server itself may
change. -/
def contradicts (o : RecoveryOptions) (p : Conn × Conn) : Bool :=
  isProtected o p.1 && (!p.1.auth || p.1.internal || !p.1.sameSession p.2)

/-- The snapshot revokes a session that the directory has. -/
def revokes (p : Conn × Conn) : Bool := p.1.sameSession p.2 && p.2.revoked && !p.1.revoked

theorem session_takeOver (current incoming : Conn) :
    (takeOver current incoming).session = current.session ↔ (incoming.revoked → current.revoked) := by
  rw [takeOver]
  split
  · next hrevoked => simp [session, hrevoked]
  · next hrevoked => simp [hrevoked]

theorem map_session_mergeConns (l prepared : List Conn) : (mergeConns o l prepared).1.map session = l.map session ↔
    ∀ p ∈ (met l prepared).takeWhile fun p => !contradicts o p, revokes p = false := by
  induction l generalizing prepared with
  | nil => simp [mergeConns, met]
  | cons current rest ih =>
    rw [mergeConns, met]
    cases hfound : prepared.find? fun incoming => incoming.key = current.key with
    | none =>
      have hall : prepared.filter (fun incoming => incoming.key ≠ current.key) = prepared :=
        filter_eq_self.mpr fun x hx => by simpa using find?_eq_none.mp hfound x hx
      rw [map_none, toList_none, nil_append, hall, ← ih]
      simp
    | some incoming =>
      have hcontra : contradicts o (current, incoming) =
        (isProtected o current && (!current.auth || current.internal || !current.sameSession incoming)) := rfl
      have hrevokes : revokes (current, incoming) =
        (current.sameSession incoming && incoming.revoked && !current.revoked) := rfl
      have hkept : { takeOver current incoming with lastActive := incoming.lastActive }.session =
        (takeOver current incoming).session := rfl
      rw [map_some, toList_some, singleton_append, takeWhile_cons, hcontra]
      by_cases hsame : current.sameSession incoming
      · by_cases hprotected : isProtected o current
        · by_cases hleft : !current.auth || current.internal
          · simp [hprotected, hleft]
          · simp [hrevokes, hprotected, hleft, hsame, ih, session_takeOver]
        · simp [hrevokes, hprotected, hsame, ih, hkept, session_takeOver]
      · by_cases hprotected : isProtected o current
        · simp [hprotected, hsame]
        · simp [hrevokes, hprotected, hsame, ih]

/-- The directory without the times of the last activities. -/
def Conns.sessions (c : Conns) : Conns := { c with conns := c.conns.map session }

namespace UserState
variable {s : UserState} {a : Application}

/-- What keeps the end of a recovery from coming to the directory. -/
def outdated (s : UserState) (c : Capture) : Bool :=
  let h := s.handlers c.handler
  s.current ≠ some c.handler || h.connRevision ≠ c.pendingRevision || h.connEvents ≠
    0 || h.conns.revision ≠ c.directoryRevision ||
    h.conns.recoveredVersion > c.version || (h.conns.hasRecovered && h.conns.recoveredVersion = c.version)

/-- The call of the function changes no directory as long as it prepares and verifies its snapshot.
A snapshot that is rejected at the end leaves the directory as it was exactly if it comes too late
or revokes no session ahead of the first one that it contradicts. -/
theorem rejected_snapshot_unchanged (o : RecoveryOptions) (s : UserState) :
    (∀ k snapshot now s', s.step o (.apply k snapshot now) = some s' → s'.handlers = s.handlers) ∧
    (∀ k reachable s', s.step o (.verify k reachable) = some s' → s'.handlers = s.handlers) ∧
    ∀ a, (commit o s a).1 = false →
      ((∀ i, ((commit o s a).2.handlers i).conns.sessions = (s.handlers i).conns.sessions) ↔ s.outdated a.capture ∨
        ∀ p ∈ (met (s.handlers a.capture.handler).conns.conns a.verified).takeWhile fun p => !contradicts o p,
          revokes p = false) := by
  refine ⟨fun k snapshot now s' h => ?_, fun k reachable s' h => ?_, fun a h => ?_⟩
  · obtain ⟨capture, -, rfl⟩ := map_eq_some_iff.mp h
    split <;> rfl
  · obtain ⟨a, -, rfl⟩ := map_eq_some_iff.mp h
    split <;> rfl
  by_cases hout : s.outdated a.capture
  · have hcommit : commit o s a = (false, s) := by
      grind [commit, outdated]
    simp [hcommit, hout]
  · have hmarked : (commit o s a).2.handlers = update s.handlers a.capture.handler { s.handlers a.capture.handler with
        conns.conns := (mergeConns o (s.handlers a.capture.handler).conns.conns a.verified).1 } := by
      grind [commit, outdated, modify]
    rw [hmarked, forall_update_iff s.handlers fun i h =>
      h.conns.sessions = (s.handlers i).conns.sessions, and_iff_left fun i _ => rfl,
      or_iff_right hout, ← map_session_mergeConns]
    exact ⟨fun hsame => congrArg Conns.conns hsame, fun hsame => by simp only [Conns.sessions, hsame]⟩

private def ownConn : Conn := { uid := [117], nodeId := 1, connId := 1, sessionId := [1], auth := true }

private def awayConn : Conn := { ownConn with nodeId := 2 }

private def home : RecoveryOptions := { uid := [117], nodeId := 1, verifies := false, tokenFingerprint := id }

private def directory (conns : List Conn) : UserState :=
  { handlers := fun _ => { conns := { conns := conns } }, current := some 0 }

/-- The snapshot has another session for the connection of node 1, and the session of the other node
is revoked in it. -/
private def contradiction : Application :=
  { capture := ⟨0, 1, 0, 0⟩, unverified := [], verified := [{ awayConn with revoked := true }, { ownConn with sessionId := [2] }] }

private def contradicted (conns : List Conn) : Bool × UserState := commit home (directory conns) contradiction

theorem rejected_snapshot_unchanged_first : (contradicted [ownConn, awayConn]).1 = false ∧
    ∀ i, ((contradicted [ownConn, awayConn]).2.handlers i).conns.sessions.conns = [ownConn, awayConn] := by
  have hiff := (rejected_snapshot_unchanged home (directory [ownConn, awayConn])).2.2 contradiction rfl
  exact ⟨rfl, fun i => congrArg Conns.conns (hiff.mpr (.inr (by decide)) i)⟩

theorem rejected_snapshot_revokes : (contradicted [awayConn, ownConn]).1 = false ∧
    ((contradicted [awayConn, ownConn]).2.handlers 0).conns.conns = [{ awayConn with revoked := true }, ownConn] :=
  ⟨rfl, rfl⟩

end UserState

end WuKongIM.Users
