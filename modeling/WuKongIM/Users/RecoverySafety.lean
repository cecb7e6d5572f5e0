import WuKongIM.Lib.Entries
import WuKongIM.Users.RecoveryMerge

/-! A recovery does not bring back a session whose credential is no longer valid. What it reads of
the stored credentials is still stored when it is applied, because every change is made by a task of
the user's queue: a task that waits or is processed is counted, and one that has come in the
meantime has raised the revision of the queue. -/
namespace WuKongIM.Users
open Lib List Option Function UserHandler
open UserState (Start step)

namespace UserHandler
variable {u u' : UserHandler}

/-- The events that wait or are processed are counted, and the directory has each session once. -/
structure Sound (u : UserHandler) : Prop where
  counted : u.connEvents = u.queue.countP affectsConnDirectory + (u.processing.getD []).countP affectsConnDirectory
  distinct : u.conns.Distinct

/-- The count of events falls only without a new event, and a new event raises the revision. -/
structure Next (u u' : UserHandler) : Prop where
  revision : u.connRevision ≤ u'.connRevision
  events : u'.connRevision = u.connRevision → u'.connEvents ≤ u.connEvents
  sound : u.Sound → u'.Sound

theorem sound_empty : Sound {} := ⟨rfl, nodup_nil⟩

theorem next_addEvent (u : UserHandler) (event : UserEventType) : u.Next (u.addEvent event) := by
  rw [addEvent]
  split
  · next haffects =>
    refine ⟨Nat.le_succ _, fun hsame => absurd hsame (Nat.succ_ne_self _), fun h => ⟨?_, h.distinct⟩⟩
    dsimp only
    rw [countP_append, countP_singleton, if_pos haffects, h.counted]
    omega
  · next haffects =>
    refine ⟨Nat.le_refl _, fun _ => Nat.le_refl _, fun h => ⟨?_, h.distinct⟩⟩
    dsimp only
    rw [countP_append, countP_singleton, if_neg haffects, h.counted]
    omega

theorem next_events {count : Nat} (h : u.events count = some u') : u.Next u' := by
  rw [events] at h
  split at h
  · next hidle =>
    cases h
    refine ⟨Nat.le_refl _, fun _ => Nat.le_refl _, fun h => ⟨?_, h.distinct⟩⟩
    have hcounted := h.counted
    rw [hidle.1, ← take_append_drop count u.queue, countP_append] at hcounted
    simp only [getD_none, getD_some, countP_nil] at hcounted ⊢
    omega
  · cases h

theorem next_advanceEvents (h : u.advanceEvents = some u') : u.Next u' := by
  obtain ⟨events, hevents, rfl⟩ := map_eq_some_iff.mp h
  refine ⟨Nat.le_refl _, fun _ => Nat.sub_le _ _, fun h => ⟨?_, h.distinct⟩⟩
  have hcounted := h.counted
  rw [hevents] at hcounted
  simp only [getD_none, getD_some, countP_nil] at hcounted ⊢
  omega

theorem next_conns (u : UserHandler) {conns : Conns} (h : u.conns.Distinct → conns.Distinct) :
    u.Next { u with conns := conns } :=
  ⟨Nat.le_refl _, fun _ => Nat.le_refl _, fun hsound => ⟨hsound.counted, h hsound.distinct⟩⟩

end UserHandler

/-- The session was authenticated with what is stored for its device. -/
def Conn.Valid (o : RecoveryOptions) (devices : UInt8 → Option Device) (c : Conn) : Prop :=
  ∃ device, devices c.deviceFlag = some device ∧ c.authTokenHash = o.tokenFingerprint device.token ∧
    c.deviceLevel = device.deviceLevel

instance (o : RecoveryOptions) (devices : UInt8 → Option Device) (c : Conn) : Decidable (c.Valid o devices) :=
  decidable_of_iff ((devices c.deviceFlag).any (fun device =>
      c.authTokenHash = o.tokenFingerprint device.token && c.deviceLevel = device.deviceLevel) = true) <| by
    simp only [Option.any_eq_true, Bool.and_eq_true, decide_eq_true_eq, Conn.Valid]

variable {o : RecoveryOptions}

namespace Application
variable {devices : UInt8 → Option Device} {a a' : Application} {credential : Credential} {conn : Conn}

def Current (o : RecoveryOptions) (devices : UInt8 → Option Device) (a : Application) : Prop :=
  ∀ x ∈ a.credentials, ∃ device, devices x.1 = some device ∧ x.2 = credentialOf o device

/-- A session that has been checked and is not revoked has the credential that was read. -/
structure Judged (o : RecoveryOptions) (a : Application) : Prop where
  keys : ((a.verified ++ a.unverified).map Conn.key).Nodup
  judged : o.verifies = true → ∀ c ∈ a.verified, c.revoked = false →
    ∃ credential, (c.deviceFlag, credential) ∈ a.credentials ∧
    credential.hash ≠ [] ∧ c.authTokenHash = credential.hash ∧ c.deviceLevel = credential.level

theorem key_judge (credential : Credential) (conn : Conn) : (judge credential conn).key = conn.key := by
  rw [judge]
  split <;> rfl

theorem deviceFlag_judge (credential : Credential) (conn : Conn) : (judge credential conn).deviceFlag = conn.deviceFlag := by
  rw [judge]
  split <;> rfl

theorem judge_not_revoked (h : (judge credential conn).revoked = false) :
    credential.hash ≠ [] ∧ (judge credential conn).authTokenHash = credential.hash ∧
      (judge credential conn).deviceLevel = credential.level := by
  rw [judge] at h ⊢
  split at h
  · cases h
  rename_i hvalid
  rw [if_neg hvalid]
  simpa only [Bool.or_eq_true, decide_eq_true_eq, not_or, not_not, and_assoc] using hvalid

theorem Judged.next (h : a.Judged o) {rest : List Conn} (hnext : a.unverified = conn :: rest)
    {credentials : List (UInt8 × Credential)} (hold : a.credentials ⊆ credentials)
    (hread : (conn.deviceFlag, credential) ∈ credentials) :
    Judged o { a with unverified := rest, verified := a.verified ++ [judge credential conn], credentials := credentials } where
  keys := by
    have hkeys := h.keys
    rw [hnext] at hkeys
    simpa only [append_assoc, singleton_append, map_append, map_cons, key_judge] using hkeys
  judged hverifies c hc hrevoked := by
    rcases mem_append.mp hc with hc | hc
    · obtain ⟨credential', hmem, hrest⟩ := h.judged hverifies c hc hrevoked
      exact ⟨credential', hold hmem, hrest⟩
    · rw [mem_singleton.mp hc] at hrevoked ⊢
      exact ⟨credential, (deviceFlag_judge credential conn).symm ▸ hread, judge_not_revoked hrevoked⟩

theorem Judged.verify (h : a.Judged o) (hverify : a.verify o devices = some a') : a'.Judged o := by
  rw [Application.verify] at hverify
  split at hverify
  · cases hverify
  rename_i conn rest hnext
  split at hverify
  · next credential hlookup =>
    cases hverify
    exact h.next hnext (Subset.refl _) (mem_of_lookup hlookup)
  · obtain ⟨device, -, rfl⟩ := map_eq_some_iff.mp hverify
    exact h.next hnext (subset_cons_self _ _) mem_cons_self

theorem Current.verify {devices' : UInt8 → Option Device} (h : a.Current o devices)
    (hsome : ∀ flag device, devices' flag = some device → devices flag = some device)
    (hverify : a.verify o devices' = some a') : a'.Current o devices := by
  rw [Application.verify] at hverify
  split at hverify
  · cases hverify
  split at hverify
  · cases hverify
    exact h
  obtain ⟨device, hdevice, rfl⟩ := map_eq_some_iff.mp hverify
  exact forall_mem_cons.mpr ⟨⟨device, hsome _ _ hdevice, rfl⟩, h⟩

theorem capture_verify (hverify : a.verify o devices = some a') : a'.capture = a.capture := by
  rw [verify] at hverify
  split at hverify
  · cases hverify
  split at hverify
  · cases hverify
    rfl
  · obtain ⟨device, -, rfl⟩ := map_eq_some_iff.mp hverify
    rfl

theorem Judged.valid (h : a.Judged o) (hcurrent : a.Current o devices) (hverifies : o.verifies)
    {c : Conn} (hc : c ∈ a.verified) (hrevoked : c.revoked = false) : c.Valid o devices := by
  obtain ⟨credential, hread, hhash, htoken, hlevel⟩ := h.judged hverifies c hc hrevoked
  obtain ⟨device, hdevice, rfl⟩ := hcurrent _ hread
  refine ⟨device, hdevice, ?_, hlevel⟩
  rw [credentialOf] at hhash htoken
  split at hhash
  · next hnonempty => rwa [if_pos hnonempty] at htoken
  · exact absurd rfl hhash

end Application

namespace UserState
variable {s t : UserState} {f : UserHandler → UserHandler} {snapshot : List (Option Conn)} {i : Nat} {c : Capture} {k : Nat}

/-- No event that may change the directory has come since. -/
def Untouched (s : UserState) (c : Capture) : Prop :=
  s.current = some c.handler ∧ (s.handlers c.handler).connRevision = c.pendingRevision

structure Holds (s : UserState) (c : Capture) : Prop where
  allocated : c.handler < s.allocated
  revision : c.pendingRevision ≤ (s.handlers c.handler).connRevision
  events : s.Untouched c → (s.handlers c.handler).connEvents = 0

/-- How the handlers that there are go on. A handler that has been dropped does not come back. -/
structure Follows (s t : UserState) : Prop where
  allocated : s.allocated ≤ t.allocated
  handlers : ∀ i < s.allocated, (s.handlers i).Next (t.handlers i)
  current : ∀ i < s.allocated, t.current = some i → s.current = some i

theorem Follows.untouched (h : Follows s t) (hholds : s.Holds c) (ht : t.Untouched c) : s.Untouched c := by
  have hnext := h.handlers c.handler hholds.allocated
  exact ⟨h.current _ hholds.allocated ht.1, Nat.le_antisymm (ht.2 ▸ hnext.revision) hholds.revision⟩

theorem Follows.holds (h : Follows s t) (hholds : s.Holds c) : t.Holds c := by
  have hnext := h.handlers c.handler hholds.allocated
  refine ⟨Nat.lt_of_lt_of_le hholds.allocated h.allocated, Nat.le_trans hholds.revision hnext.revision, fun ht => ?_⟩
  have hs := h.untouched hholds ht
  have hevents := hnext.events (ht.2.trans hs.2.symm)
  rw [hholds.events hs] at hevents
  exact Nat.le_zero.mp hevents

structure Inv (o : RecoveryOptions) (s : UserState) : Prop where
  sound : ∀ i, (s.handlers i).Sound
  processing : ∀ i, (s.handlers i).processing ≠ none → s.current = some i
  current : ∀ i, s.current = some i → i < s.allocated
  captures : ∀ c ∈ s.captures, s.Holds c
  applications : ∀ a ∈ s.applications, s.Holds a.capture ∧ a.Judged o ∧ (s.Untouched a.capture → a.Current o s.devices)

theorem Start.inv (h : s.Start) : s.Inv o := by
  obtain ⟨devices, rfl⟩ := h
  exact ⟨fun _ => sound_empty, fun _ h => absurd rfl h, nofun, nofun, nofun⟩

/-- The handlers go on, and what is stored changes only while an event is counted. -/
theorem Inv.next (h : s.Inv o) (hfollows : Follows s t) (hsound : ∀ i, (t.handlers i).Sound)
    (hprocessing : ∀ i, (t.handlers i).processing ≠ none → t.current = some i)
    (hcurrent : ∀ i, t.current = some i → i < t.allocated)
    (hdevices : t.devices = s.devices ∨ ∃ i, s.current = some i ∧ (s.handlers i).connEvents ≠ 0)
    (hcaptures : t.captures = s.captures)
    (happlications : t.applications = s.applications) : t.Inv o where
  sound := hsound
  processing := hprocessing
  current := hcurrent
  captures c hc := hfollows.holds (h.captures c (hcaptures ▸ hc))
  applications a ha := by
    rw [happlications] at ha
    obtain ⟨hholds, hjudged, hread⟩ := h.applications a ha
    refine ⟨hfollows.holds hholds, hjudged, fun ht => ?_⟩
    have hs := hfollows.untouched hholds ht
    rcases hdevices with hsame | ⟨i, hi, hbusy⟩
    · rw [hsame]
      exact hread hs
    · -- the task would be counted, and nothing is
      have hsame := hs.1.symm.trans hi
      rw [← some.inj hsame] at hbusy
      exact absurd (hholds.events hs) hbusy

theorem modify_of_ne {i j : Nat} (h : j ≠ i) : (s.modify i f).handlers j = s.handlers j :=
  update_of_ne h _ _

theorem modify_self : (s.modify i f).handlers i = f (s.handlers i) :=
  update_self _ _ _

section
variable (h : s.Inv o)
include h

theorem Inv.modify (hnext : (s.handlers i).Next (f (s.handlers i)))
    (hprocessing : (f (s.handlers i)).processing ≠ none → s.current = some i) : (s.modify i f).Inv o := by
  have hhandlers (j : Nat) : (s.handlers j).Next ((s.modify i f).handlers j) := by
    by_cases hj : j = i
    · subst hj
      rw [modify_self]
      exact hnext
    · rw [modify_of_ne hj]
      exact ⟨Nat.le_refl _, fun _ => Nat.le_refl _, id⟩
  refine h.next ⟨Nat.le_refl _, fun j _ => hhandlers j, fun _ _ hj => hj⟩
    (fun j => (hhandlers j).sound (h.sound j)) (fun j hj => ?_) h.current
    (.inl rfl) rfl rfl
  by_cases hji : j = i
  · subst hji
    rw [modify_self] at hj
    exact hprocessing hj
  · rw [modify_of_ne hji] at hj
    exact h.processing j hj

theorem Inv.handler : s.handler.1.Inv o ∧ s.handler.1.current = some s.handler.2 := by
  rw [UserState.handler]
  split
  · next i hi => exact ⟨h, hi⟩
  rename_i hnone
  refine ⟨h.next ⟨Nat.le_succ _, fun i hi => ?_, fun i hi hsame => ?_⟩ (fun i => ?_) (fun i hi => ?_) (fun i hi => ?_) (.inl rfl) rfl rfl, rfl⟩
  · dsimp only
    rw [update_of_ne (Nat.ne_of_lt hi)]
    exact ⟨Nat.le_refl _, fun _ => Nat.le_refl _, id⟩
  · exact absurd (some.inj hsame).symm (Nat.ne_of_lt hi)
  · by_cases hi : i = s.allocated
    · subst hi
      dsimp only
      rw [update_self]
      exact sound_empty
    · dsimp only
      rw [update_of_ne hi]
      exact h.sound i
  · by_cases hsame : i = s.allocated
    · rw [hsame]
    dsimp only at hi
    rw [update_of_ne hsame] at hi
    have hcurrent := h.processing i hi
    rw [hnone] at hcurrent
    cases hcurrent
  · rw [← some.inj hi]
    exact Nat.lt_succ_self _

theorem Inv.store {flag : UInt8} {device : Option Device}
    (hstep : s.step o (.store i flag device) = some t) : t.Inv o := by
  rw [step] at hstep
  split at hstep
  · next events hevents =>
    split at hstep
    · next htask =>
      cases hstep
      have hcurrent := h.processing i (by rw [hevents]; nofun)
      have hbusy : (s.handlers i).connEvents ≠ 0 := by
        have hcounted := (h.sound i).counted
        have htask' : 0 < events.countP affectsConnDirectory := countP_pos_iff.mpr ⟨_, htask, rfl⟩
        rw [hevents, getD_some] at hcounted
        omega
      exact h.next ⟨Nat.le_refl _, fun _ _ => ⟨Nat.le_refl _, fun _ => Nat.le_refl _, id⟩,
        fun _ _ hi => hi⟩ h.sound h.processing h.current
        (.inr ⟨i, hcurrent, hbusy⟩) rfl rfl
    · cases hstep
  · cases hstep

theorem Inv.calls {captures : List Capture} {applications : List Application} (hcaptures : ∀ c ∈ captures, s.Holds c)
    (happlications : ∀ a ∈ applications, s.Holds a.capture ∧ a.Judged o ∧ (s.Untouched a.capture → a.Current o s.devices)) :
    Inv o { s with captures := captures, applications := applications } where
  sound := h.sound
  processing := h.processing
  current := h.current
  captures c hc := ⟨(hcaptures c hc).allocated, (hcaptures c hc).revision, (hcaptures c hc).events⟩
  applications a ha := by
    obtain ⟨hholds, hjudged, hread⟩ := happlications a ha
    exact ⟨{ hholds with }, hjudged, hread⟩

theorem Inv.begin (version : Nat) : (s.beginConnRecovery version).Inv o := by
  obtain ⟨hinv, hcurrent⟩ := h.handler
  rw [beginConnRecovery]
  split
  · exact hinv
  split
  · exact hinv
  rename_i hquiet
  have hquiet : (s.handler.1.handlers s.handler.2).connEvents = 0 := by
    simp only [Bool.or_eq_true, not_or, decide_eq_true_eq, not_not] at hquiet
    exact hquiet.1
  exact hinv.calls (forall_mem_cons.mpr ⟨⟨hinv.current _ hcurrent, Nat.le_refl _, fun _ => hquiet⟩, hinv.captures⟩)
    hinv.applications

end

theorem nodup_prepare {now : Nat} {prepared prepared' : List Conn}
    (h : prepare o now snapshot prepared = some prepared')
    (hnodup : (prepared.map Conn.key).Nodup) : (prepared'.map Conn.key).Nodup := by
  induction snapshot generalizing prepared with
  | nil =>
    cases h
    exact hnodup
  | cons entry snapshot ih =>
    cases entry with
    | none => cases h
    | some conn =>
      rw [prepare] at h
      split at h
      · cases h
      split at h
      · cases h
      rename_i hnew
      refine ih h ?_
      rw [map_append]
      refine Nodup.append hnodup (nodup_singleton _) fun key hkey hsame => hnew ?_
      rw [map_singleton, mem_singleton] at hsame
      obtain ⟨other, hother, rfl⟩ := mem_map.mp hkey
      exact any_eq_true.mpr ⟨other, hother, decide_eq_true hsame⟩

theorem Inv.apply (h : s.Inv o) {k now : Nat} (hstep : s.step o (.apply k snapshot now) = some t) :
    t.Inv o := by
  obtain ⟨capture, hcapture, rfl⟩ := map_eq_some_iff.mp hstep
  have hholds := h.captures capture (mem_of_getElem? hcapture)
  split
  · exact h
  rename_i prepared hprepared
  have hnodup := nodup_prepare hprepared nodup_nil
  refine h.calls h.captures fun a ha => ?_
  rcases mem_cons.mp ha with rfl | ha
  · split
    · exact ⟨hholds, ⟨hnodup, nofun⟩, fun _ => nofun⟩
    · next hunverified =>
      refine ⟨hholds, ⟨?_, fun hverifies => absurd hverifies hunverified⟩, fun _ => nofun⟩
      rwa [append_nil]
  · exact h.applications a ha

theorem Inv.verify (h : s.Inv o) {reachable : Bool} (hstep : s.step o (.verify k reachable) = some t) : t.Inv o := by
  obtain ⟨a, ha, rfl⟩ := map_eq_some_iff.mp hstep
  split
  · exact h.calls h.captures fun b hb => h.applications b ((eraseIdx_sublist _ _).subset hb)
  rename_i a' hverify
  refine h.calls h.captures fun b hb => ?_
  rcases mem_or_eq_of_mem_set hb with hb | rfl
  · exact h.applications b hb
  obtain ⟨hholds, hjudged, hread⟩ := h.applications a (mem_of_getElem? ha)
  rw [Application.capture_verify hverify]
  refine ⟨hholds, hjudged.verify hverify, fun hs => (hread hs).verify (fun flag device hdevice => ?_) hverify⟩
  split at hdevice
  · exact hdevice
  · cases hdevice

structure Applied (o : RecoveryOptions) (s t : UserState) (a : Application) : Prop where
  untouched : s.Untouched a.capture
  version : (s.handlers a.capture.handler).conns.recoveredVersion ≤ a.capture.version
  merged : ∃ next left, (mergeConns o (s.handlers a.capture.handler).conns.conns a.verified).2 = some (next, left) ∧
    t = s.modify a.capture.handler fun h => { h with conns :=
      { conns := next ++ left.filter fun incoming => !incoming.revoked
        revision := (s.handlers a.capture.handler).conns.revision + 1
        hasRecovered := true
        recoveredVersion := a.capture.version } }

theorem commit_cases (s : UserState) (a : Application) : commit o s a = (false, s) ∨ commit o s a =
      (false, s.modify a.capture.handler fun h => { h with conns := { h.conns with conns :=
        (mergeConns o (s.handlers a.capture.handler).conns.conns a.verified).1 } }) ∨
      ∃ t, commit o s a = (true, t) ∧ Applied o s t a := by
  rw [commit]
  split
  · exact .inl rfl
  rename_i hcurrent
  split
  · exact .inl rfl
  rename_i hquiet
  split
  · exact .inl rfl
  rename_i hversion
  have hrevision : (s.handlers a.capture.handler).connRevision = a.capture.pendingRevision := by
    simp only [Bool.or_eq_true, not_or, decide_eq_true_eq, not_not] at hquiet
    exact hquiet.1
  have hversion : (s.handlers a.capture.handler).conns.recoveredVersion ≤ a.capture.version := by
    simp only [Bool.or_eq_true, not_or, decide_eq_true_eq, Nat.not_lt] at hversion
    exact hversion.1.2
  split
  · next marked hmerge =>
    refine .inr (.inl ?_)
    rw [hmerge]
  · next next left hmerge =>
    exact .inr (.inr ⟨_, rfl, ⟨not_not.mp hcurrent, hrevision⟩, hversion, next, left, congrArg Prod.snd hmerge, rfl⟩)

theorem Inv.applied (h : s.Inv o) {a : Application} (ha : a.Judged o)
    (hunverified : a.unverified = []) (happlied : Applied o s t a) : t.Inv o := by
  obtain ⟨next, left, hmerge, rfl⟩ := happlied.merged
  have hkeys := ha.keys
  rw [hunverified, append_nil] at hkeys
  refine h.modify (next_conns _ fun hdistinct => ?_) (h.processing _)
  exact (merged_mergeConns hdistinct hmerge hkeys).distinct hdistinct hkeys _

theorem Inv.commit (h : s.Inv o) (hstep : s.step o (.commit k) = some t) : t.Inv o := by
  obtain ⟨a, ha, hstep⟩ := bind_eq_some_iff.mp hstep
  split at hstep
  · next hunverified =>
    cases hstep
    have hcalls := h.calls h.captures fun b hb => h.applications b ((eraseIdx_sublist s.applications k).subset hb)
    have hjudged := (h.applications a (mem_of_getElem? ha)).2.1
    rcases commit_cases { s with applications := s.applications.eraseIdx k } a with hcommit | hcommit | ⟨t, hcommit, happlied⟩
    · rw [hcommit]
      exact hcalls
    · rw [hcommit]
      dsimp only
      refine hcalls.modify (next_conns _ fun hdistinct => ?_) fun hprocessing => h.processing a.capture.handler hprocessing
      rw [Conns.Distinct, map_key_mergeConns]
      exact hdistinct
    · rw [hcommit]
      exact hcalls.applied hjudged hunverified happlied
  · cases hstep

theorem Inv.step (h : s.Inv o) {x : UserStep} (hstep : s.step o x = some t) : t.Inv o := by
  cases x with
  | addEvent event =>
    cases hstep
    obtain ⟨hinv, hcurrent⟩ := h.handler
    exact hinv.modify (next_addEvent _ event) fun _ => hcurrent
  | events count =>
    obtain ⟨i, hi, hstep⟩ := bind_eq_some_iff.mp hstep
    obtain ⟨u, hu, rfl⟩ := map_eq_some_iff.mp hstep
    exact h.modify (next_events hu) fun _ => hi
  | advanceEvents i =>
    obtain ⟨u, hu, rfl⟩ := map_eq_some_iff.mp hstep
    refine h.modify (next_advanceEvents hu) fun hprocessing => ?_
    obtain ⟨events, -, rfl⟩ := map_eq_some_iff.mp hu
    exact absurd rfl hprocessing
  | store i flag device => exact h.store hstep
  | addConn i conn =>
    cases hstep
    exact h.modify (next_conns _ fun hdistinct => hdistinct.addOrUpdateConn conn) (h.processing i)
  | removeConn i conn =>
    cases hstep
    exact h.modify (next_conns _ fun hdistinct => hdistinct.remove conn) (h.processing i)
  | revoke i key =>
    cases hstep
    exact h.modify (next_conns _ fun hdistinct => hdistinct.revoke key) (h.processing i)
  | invalidate conn =>
    cases hstep
    rw [invalidateConnRecovery]
    split
    · exact h
    rename_i i _
    split
    · exact h
    · split
      · exact h
      · exact h.modify (next_conns _ id) (h.processing i)
  | expire =>
    obtain ⟨i, hi, hstep⟩ := bind_eq_some_iff.mp hstep
    split at hstep
    · next hidle =>
      cases hstep
      refine h.next ⟨Nat.le_refl _, fun _ _ => ⟨Nat.le_refl _, fun _ => Nat.le_refl _, id⟩,
        nofun⟩ h.sound (fun j hj => ?_) nofun (.inl rfl) rfl rfl
      have hj' := h.processing j hj
      rw [hi] at hj'
      rw [← some.inj hj'] at hj
      exact absurd (of_decide_eq_true (Bool.and_eq_true_iff.mp hidle).1) hj
    · cases hstep
  | begin version =>
    cases hstep
    exact h.begin version
  | apply k snapshot now => exact h.apply hstep
  | verify k reachable => exact h.verify hstep
  | commit k => exact h.commit hstep

end UserState

theorem Conn.sameSession_deviceFlag {c other : Conn} (h : c.sameSession other) : c.deviceFlag = other.deviceFlag := by
  simp only [sameSession, Bool.and_eq_true, decide_eq_true_eq] at h
  exact h.1.1.1.1.2

/-- Of two sessions of one device, one of which is valid, the other is valid if it was authenticated
with the same. -/
theorem Conn.Valid.iff {o : RecoveryOptions} {devices : UInt8 → Option Device} {c e : Conn}
    (h : c.Valid o devices) (hflag : e.deviceFlag = c.deviceFlag) :
    e.Valid o devices ↔ e.authTokenHash = c.authTokenHash ∧ e.deviceLevel = c.deviceLevel := by
  obtain ⟨device, hdevice, htoken, hlevel⟩ := h
  constructor
  · rintro ⟨device', hdevice', htoken', hlevel'⟩
    rw [hflag, hdevice] at hdevice'
    cases hdevice'
    exact ⟨htoken'.trans htoken.symm, hlevel'.trans hlevel.symm⟩
  · rintro ⟨htoken', hlevel'⟩
    exact ⟨device, hflag ▸ hdevice, htoken'.trans htoken, hlevel'.trans hlevel⟩

/-- When a recovery is applied, each session of the snapshot that comes into the directory, or is
already there, and is not revoked, is valid as the snapshot has it. It is so in the directory if it
is new there, or was there with the same credential. The directory has each session once, the
version does not go back, and what is local, internal or not authenticated is kept. -/
theorem recovery_restores_valid_sessions {o : RecoveryOptions} {s : UserState}
    (h : Reach Start (step o) (fun _ _ => True) s) {a : Application} (ha : a ∈ s.applications)
    (hunverified : a.unverified = []) (hverifies : o.verifies = true) {t : UserState} (hcommit : s.commit o a = (true, t)) :
    (∀ e ∈ (t.handlers a.capture.handler).conns.conns, ∀ incoming ∈ a.verified, incoming.key = e.key → e.revoked = false →
        incoming.Valid o t.devices ∧
          (e.Valid o t.devices ↔ e.authTokenHash = incoming.authTokenHash ∧ e.deviceLevel = incoming.deviceLevel) ∧
          (e = incoming ∨ ∃ current ∈ (s.handlers a.capture.handler).conns.conns, current.sameSession incoming = true ∧
            e.authTokenHash = current.authTokenHash ∧ e.deviceLevel = current.deviceLevel)) ∧
      (t.handlers a.capture.handler).conns.Distinct ∧
      (s.handlers a.capture.handler).conns.recoveredVersion ≤ (t.handlers a.capture.handler).conns.recoveredVersion ∧
      ∀ c ∈ (s.handlers a.capture.handler).conns.conns, isProtected o c = true →
        c ∈ (t.handlers a.capture.handler).conns.conns ∨
          { c with revoked := true } ∈ (t.handlers a.capture.handler).conns.conns := by
  have hinv : s.Inv o := h.invariant (UserState.Inv o) (fun s hs => hs.inv) fun s x t hs _ hstep => hs.step hstep
  obtain ⟨-, hjudged, hread⟩ := hinv.applications a ha
  have happlied : s.Applied o t a := by
    rcases UserState.commit_cases s a with hfailed | hfailed | ⟨t', hcommit', happlied⟩
    · rw [hfailed] at hcommit
      cases hcommit
    · rw [hfailed] at hcommit
      cases hcommit
    · rw [hcommit'] at hcommit
      cases hcommit
      exact happlied
  have hdistinct := ((hinv.applied hjudged hunverified happlied).sound a.capture.handler).distinct
  have hcurrent := hread happlied.untouched
  have hversion := happlied.version
  have hkeys := hjudged.keys
  rw [hunverified, append_nil] at hkeys
  obtain ⟨next, left, hmerge, rfl⟩ := happlied.merged
  have hmerged := merged_mergeConns (hinv.sound a.capture.handler).distinct hmerge hkeys
  rw [UserState.modify_self] at hdistinct ⊢
  refine ⟨fun e he incoming hincoming hkey hrevoked => ?_, hdistinct, hversion, fun c hc hprotected => ?_⟩
  · have hfrom : ComesFrom (s.handlers a.capture.handler).conns.conns incoming e := by
      rcases mem_append.mp he with he | he
      · exact hmerged.origin e he incoming hincoming hkey hrevoked
      · have he := hmerged.remaining.subset (mem_filter.mp he).1
        rw [inj_on_of_nodup_map hkeys he hincoming hkey.symm] at hrevoked ⊢
        exact ⟨hrevoked, .inl rfl⟩
    obtain ⟨hvalid, horigin⟩ := hfrom
    have hvalid : incoming.Valid o s.devices := hjudged.valid hcurrent hverifies hincoming hvalid
    have hflag : e.deviceFlag = incoming.deviceFlag := by
      rcases horigin with rfl | ⟨current, -, hsame, hflag, -, -⟩
      · rfl
      · exact hflag.trans (Conn.sameSession_deviceFlag hsame)
    refine ⟨hvalid, hvalid.iff hflag, horigin.imp_right ?_⟩
    rintro ⟨current, hmem, hsame, -, hrest⟩
    exact ⟨current, hmem, hsame, hrest⟩
  · exact (hmerged.kept c hc hprotected).imp (mem_append_left _) (mem_append_left _)

private def secured : RecoveryOptions where
  uid := [1]
  nodeId := 1
  verifies := true
  tokenFingerprint := fun token => 0 :: token

private def withToken : UserState where
  devices := fun flag => if flag = 0 then some { token := [5], deviceLevel := 1 } else none

private theorem withToken_start : withToken.Start := ⟨_, rfl⟩

private def remote : Conn where
  uid := [1]
  nodeId := 2
  connId := 7
  sessionId := [3]
  authTokenHash := [0, 5]
  deviceLevel := 1
  auth := true

private def recovers : List UserStep := [.begin 4, .apply 0 [some remote] 0, .verify 0 true]

theorem recovery_restores_valid_sessions_of_one : ∃ s a t, Reach Start (step secured) (fun _ _ => True) s ∧
    a ∈ s.applications ∧ s.commit secured a = (true, t) ∧ (t.handlers a.capture.handler).conns.conns ≠ [] ∧
    ∀ e ∈ (t.handlers a.capture.handler).conns.conns, ∀ incoming ∈ a.verified, incoming.key = e.key → e.revoked = false →
      incoming.Valid secured t.devices := by
  have hstart : Reach Start (step secured) (fun _ _ => True) withToken := .init withToken_start
  obtain ⟨s, hreach, hs⟩ := hstart.exists_of_run recovers
    (fun s => ∃ a ∈ s.applications, a.unverified = [] ∧ (s.commit secured a).1 ∧
      ((s.commit secured a).2.handlers a.capture.handler).conns.conns ≠ []) (by decide +kernel)
  obtain ⟨a, ha, hunverified, hcommit, hrestored⟩ := hs
  have hcommit : s.commit secured a = (true, (s.commit secured a).2) := Prod.ext hcommit rfl
  have hvalid := recovery_restores_valid_sessions hreach ha hunverified rfl hcommit
  refine ⟨s, a, _, hreach, ha, hcommit, hrestored, ?_⟩
  intro e he incoming hincoming hkey hrevoked
  exact (hvalid.1 e he incoming hincoming hkey hrevoked).1

/-- A session that the directory has with another credential is kept with it: whether two sessions
are the same does not depend on what they were authenticated with. -/
theorem recovery_restores_valid_sessions_fails : ∃ s a t, Reach Start (step secured) (fun _ _ => True) s ∧
    a ∈ s.applications ∧ a.unverified = [] ∧ s.commit secured a = (true, t) ∧
    ∃ e ∈ (t.handlers a.capture.handler).conns.conns, (∃ incoming ∈ a.verified, incoming.key = e.key) ∧ e.revoked = false ∧
      ¬e.Valid secured t.devices := by
  have hstart : Reach Start (step secured) (fun _ _ => True) withToken := .init withToken_start
  obtain ⟨s, hreach, hs⟩ := hstart.exists_of_run
    ([.addEvent .connect, .events 1, .addConn 0 { remote with authTokenHash := [0, 4] }, .advanceEvents 0] ++ recovers)
    (fun s => ∃ a ∈ s.applications, a.unverified = [] ∧ (s.commit secured a).1 ∧
      ∃ e ∈ ((s.commit secured a).2.handlers a.capture.handler).conns.conns, (∃ incoming ∈ a.verified, incoming.key = e.key) ∧
        e.revoked = false ∧ ¬e.Valid secured (s.commit secured a).2.devices) (by decide +kernel)
  obtain ⟨a, ha, hunverified, hcommit, hrestored⟩ := hs
  exact ⟨s, a, _, hreach, ha, hunverified, Prod.ext hcommit rfl, hrestored⟩

end WuKongIM.Users
