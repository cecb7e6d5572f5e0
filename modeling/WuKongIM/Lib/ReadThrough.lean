import WuKongIM.Lib.Run

/-! A cached entry in front of a database. Readers look the entry up, load from the database on a
miss and fill the entry with what they have loaded; one writer commits to the database, then brings
the cache up to date step by step, and returns. All of these are steps of their own, in any
order. -/
namespace WuKongIM.Lib
open Function List
variable {σ ν κ ι : Type}

/-- An entry and a database within a state, and what the parties do to them. The writer goes through
`updates` once it has committed; to carry one out may bring up more, which come next. Updates that
do not settle the entry leave it. -/
structure ReadThrough (σ ν κ : Type) where
  entry : σ → Option ν
  load : σ → ν
  keeps : σ → Bool
  fill : ν → σ → σ
  evict : σ → σ
  commit : σ → σ
  updates : List κ
  perform : κ → σ → σ × List κ
  settles : κ → Bool
  entry_fill : ∀ v s, entry (fill v s) = some v
  load_fill : ∀ v s, load (fill v s) = load s
  entry_evict : ∀ s, entry (evict s) = none
  load_evict : ∀ s, load (evict s) = load s
  entry_commit : ∀ s, entry (commit s) = entry s
  load_perform : ∀ k s, load (perform k s).1 = load s
  entry_perform : ∀ k s, settles k = false → entry (perform k s).1 = entry s

inductive Stage (κ : Type)
  | writing
  | updating (rest : List κ)
  | returned
  deriving DecidableEq

/-- How far a reader is: whether it started after the return of the writer, and whether it loaded
before the commit. -/
inductive Phase (ν : Type)
  | idle
  | missed (late : Bool)
  | loaded (late early kept : Bool) (value : ν)

structure Session (σ ν κ ι : Type) where
  db : σ
  stage : Stage κ := .writing
  phase : ι → Phase ν := fun _ => .idle

inductive Move (ι : Type)
  | lookup (i : ι)
  | load (i : ι)
  | fill (i : ι)
  | evict
  | commit
  | update
  | finish

def Stage.isWriting : Stage κ → Bool
  | writing => true
  | _ => false

def Stage.isReturned : Stage κ → Bool
  | returned => true
  | _ => false

namespace ReadThrough
variable (rt : ReadThrough σ ν κ)

def step [DecidableEq ι] (s : Session σ ν κ ι) : Move ι → Option (Session σ ν κ ι)
  | .lookup i =>
    match s.phase i, rt.entry s.db with
    | .idle, some _ => some s
    | .idle, none => some { s with phase := update s.phase i (.missed s.stage.isReturned) }
    | _, _ => none
  | .load i =>
    match s.phase i with
    | .missed late => some { s with
        phase := update s.phase i (.loaded late s.stage.isWriting (rt.keeps s.db) (rt.load s.db)) }
    | _ => none
  | .fill i =>
    match s.phase i with
    | .loaded _ _ kept value => some { s with
        db := if kept then rt.fill value s.db else s.db
        phase := update s.phase i .idle }
    | _ => none
  | .evict => some { s with db := rt.evict s.db }
  | .commit =>
    match s.stage with
    | .writing => some { s with db := rt.commit s.db, stage := .updating rt.updates }
    | _ => none
  | .update =>
    match s.stage with
    | .updating (k :: rest) => some { s with
        db := (rt.perform k s.db).1
        stage := .updating ((rt.perform k s.db).2 ++ rest) }
    | _ => none
  | .finish =>
    match s.stage with
    | .updating [] => some { s with stage := .returned }
    | _ => none

/-- What a move hands out, and whether that query started after the return of the writer. -/
def answer (s : Session σ ν κ ι) : Move ι → Option (Bool × ν)
  | .lookup i =>
    match s.phase i with
    | .idle => (rt.entry s.db).map fun value => (s.stage.isReturned, value)
    | _ => none
  | .fill i =>
    match s.phase i with
    | .loaded late _ _ value => some (late, value)
    | _ => none
  | _ => none

/-- Whoever starts after the return of the writer hears what the database says. -/
def LateRight (s : Session σ ν κ ι) : Prop := ∀ m v, rt.answer s m = some (true, v) → v = rt.load s.db

/-- The entry, where there is one, is what the database says. -/
def Coherent (db : σ) : Prop := ∀ v, rt.entry db = some v → v = rt.load db

/-- The writer will still settle the entry. -/
def pending : Stage κ → Bool
  | .updating rest => rest.any rt.settles
  | _ => false

/-- Once the writer is done with the entry, what was loaded before the commit does not fill it,
unless the database still says it; and an entry that the writer does not settle is right when the
writer commits. -/
def Careful (s : Session σ ν κ ι) : Move ι → Prop
  | .fill i => ∀ late value, s.phase i = .loaded late true true value → s.stage ≠ .writing →
      rt.pending s.stage = false → value = rt.load s.db
  | .commit => rt.updates.any rt.settles = false → rt.Coherent (rt.commit s.db)
  | _ => True

/-- The writer on databases that satisfy `good`, with `done` of those it has committed to and `own`
of its updates: an update that settles the entry makes it right or brings up another one that
does. -/
structure Writes (good done : σ → Prop) (own : κ → Prop) : Prop where
  good_fill : ∀ v s, good s → good (rt.fill v s)
  good_evict : ∀ s, good s → good (rt.evict s)
  done_fill : ∀ v s, done s → done (rt.fill v s)
  done_evict : ∀ s, done s → done (rt.evict s)
  done_commit : ∀ s, good s → done (rt.commit s)
  done_perform : ∀ k s, done s → done (rt.perform k s).1
  own_updates : ∀ k ∈ rt.updates, own k
  own_perform : ∀ k s, own k → ∀ k' ∈ (rt.perform k s).2, own k'
  perform : ∀ k s, done s → own k → rt.settles k = true →
    (rt.perform k s).2.any rt.settles = true ∨ rt.Coherent (rt.perform k s).1

structure Start (good : σ → Prop) (s : Session σ ν κ ι) : Prop where
  good : good s.db
  coherent : rt.Coherent s.db
  stage : s.stage = .writing
  idle : ∀ i, s.phase i = .idle

/-- What a reader has loaded since the commit is what the database says. -/
def Tracks (stage : Stage κ) (db : σ) : Phase ν → Prop
  | .idle => True
  | .missed late => late = true → stage = .returned
  | .loaded late early _ v => (early = false ∨ stage = .writing → v = rt.load db) ∧
      (stage = .writing → early = true) ∧ (late = true → early = false)

/-- The entry is right whenever the writer is not about to settle it. -/
structure Tracked (good done : σ → Prop) (own : κ → Prop) (s : Session σ ν κ ι) : Prop where
  writing : s.stage = .writing → good s.db
  updating : ∀ rest, s.stage = .updating rest → done s.db ∧ ∀ k ∈ rest, own k
  right : rt.pending s.stage = false → rt.Coherent s.db
  phases : ∀ i, rt.Tracks s.stage s.db (s.phase i)

variable {rt} {good done : σ → Prop} {own : κ → Prop} {s s' : Session σ ν κ ι} {p : Phase ν}

theorem coherent_evict (db : σ) : rt.Coherent (rt.evict db) := by
  intro v hv
  rw [rt.entry_evict] at hv
  cases hv

theorem coherent_fill {db : σ} {v : ν} (h : v = rt.load db) : rt.Coherent (rt.fill v db) := by
  intro v' hv
  rw [rt.entry_fill] at hv
  cases hv
  rw [rt.load_fill, h]

theorem coherent_congr {db db' : σ} (hentry : rt.entry db' = rt.entry db)
    (hload : rt.load db' = rt.load db) (h : rt.Coherent db) : rt.Coherent db' := by
  intro v hv
  rw [hload]
  exact h v (hentry ▸ hv)

theorem tracks_congr {db db' : σ} (hl : rt.load db' = rt.load db) {stage : Stage κ}
    (h : rt.Tracks stage db p) : rt.Tracks stage db' p := by
  cases p with
  | idle => trivial
  | missed late => exact h
  | loaded late early kept v =>
    rw [Tracks, hl]
    exact h

/-- The writer goes on, past its commit: what the readers hold stays as right as it was. -/
theorem tracks_later {db : σ} {stage stage' : Stage κ} (hw : stage' ≠ .writing)
    (hr : stage = .returned → stage' = .returned) (h : rt.Tracks stage db p) : rt.Tracks stage' db p := by
  cases p with
  | idle => trivial
  | missed late => exact fun hlate => hr (h hlate)
  | loaded late early kept v =>
    refine ⟨fun hor => ?_, fun hstage => absurd hstage hw, h.2.2⟩
    rcases hor with hfalse | hstage
    · exact h.1 (.inl hfalse)
    · exact absurd hstage hw

namespace Tracked

theorem proceed [DecidableEq ι] (h : rt.Tracked good done own s) (i : ι) (hp : rt.Tracks s.stage s.db p) :
    rt.Tracked good done own { s with phase := update s.phase i p } := by
  refine { h with phases := ?_ }
  apply (forall_update_iff s.phase fun _ => rt.Tracks s.stage s.db).mpr
  exact ⟨hp, fun j _ => h.phases j⟩

variable (h : rt.Tracked good done own s) (hw : rt.Writes good done own)
include h hw

theorem evict : rt.Tracked good done own { s with db := rt.evict s.db } := by
  refine ⟨fun hs => hw.good_evict _ (h.writing hs), fun rest hs => ?_, fun _ => coherent_evict _, fun i => ?_⟩
  · obtain ⟨hdone, hown⟩ := h.updating rest hs
    exact ⟨hw.done_evict _ hdone, hown⟩
  · exact tracks_congr (rt.load_evict s.db) (h.phases i)

theorem fill {v : ν} (hv : rt.pending s.stage = false → v = rt.load s.db) :
    rt.Tracked good done own { s with db := rt.fill v s.db } := by
  refine ⟨fun hs => hw.good_fill _ _ (h.writing hs), fun rest hs => ?_, fun hp => coherent_fill (hv hp), fun i => ?_⟩
  · obtain ⟨hdone, hown⟩ := h.updating rest hs
    exact ⟨hw.done_fill _ _ hdone, hown⟩
  · exact tracks_congr (rt.load_fill v s.db) (h.phases i)

theorem commit (hs : s.stage = .writing) (hm : rt.updates.any rt.settles = false → rt.Coherent (rt.commit s.db)) :
    rt.Tracked good done own { s with db := rt.commit s.db, stage := .updating rt.updates } := by
  refine ⟨nofun, ?_, hm, fun i => ?_⟩
  · rintro _ ⟨⟩
    exact ⟨hw.done_commit _ (h.writing hs), hw.own_updates⟩
  have hi := h.phases i
  rw [hs] at hi
  cases hp : s.phase i with
  | idle => trivial
  | missed late =>
    rw [hp] at hi
    exact fun hlate => nomatch hi hlate
  | loaded late early kept v =>
    rw [hp] at hi
    obtain ⟨-, hearly, hlate⟩ := hi
    refine ⟨fun hor => ?_, nofun, hlate⟩
    rcases hor with hfalse | hstage
    · exact absurd (hearly rfl) (by simp [hfalse])
    · cases hstage

theorem update {k : κ} {rest : List κ} (hs : s.stage = .updating (k :: rest)) : rt.Tracked good done own
    { s with db := (rt.perform k s.db).1, stage := .updating ((rt.perform k s.db).2 ++ rest) } := by
  obtain ⟨hdone, hown⟩ := h.updating _ hs
  obtain ⟨hk, hrest⟩ := forall_mem_cons.mp hown
  refine ⟨nofun, ?_, fun hp => ?_, fun i => ?_⟩
  · rintro _ ⟨⟩
    exact ⟨hw.done_perform k _ hdone, forall_mem_append.mpr ⟨hw.own_perform k s.db hk, hrest⟩⟩
  · have hp : (rt.perform k s.db).2.any rt.settles = false ∧ rest.any rt.settles = false := by
      simpa only [pending, any_append, Bool.or_eq_false_iff] using hp
    cases hsettles : rt.settles k with
    | true =>
      rcases hw.perform k s.db hdone hk hsettles with hmore | hright
      · exact absurd hmore (by simp [hp.1])
      · exact hright
    | false =>
      refine coherent_congr (rt.entry_perform k s.db hsettles) (rt.load_perform k s.db) (h.right ?_)
      rw [hs, pending, any_cons, hsettles, hp.2]
      rfl
  · exact tracks_congr (rt.load_perform k s.db) (tracks_later nofun (fun hr => nomatch hs.symm.trans hr) (h.phases i))

omit hw in
theorem finish (hs : s.stage = .updating []) : rt.Tracked good done own { s with stage := .returned } :=
  ⟨nofun, nofun, fun _ => h.right (by rw [hs]; rfl), fun i => tracks_later nofun (fun _ => rfl) (h.phases i)⟩

theorem step [DecidableEq ι] {m : Move ι} (hm : rt.Careful s m) (hs : rt.step s m = some s') :
    rt.Tracked good done own s' := by
  cases m with
    simp only [ReadThrough.step] at hs
  | lookup i =>
    split at hs <;> cases hs
    · exact h
    · refine h.proceed i fun hlate => ?_
      cases hstage : s.stage with
      | returned => rfl
      | _ => simp [hstage, Stage.isReturned] at hlate
  | load i =>
    split at hs <;> cases hs
    next late hi =>
    have htracks := h.phases i
    rw [hi] at htracks
    refine h.proceed i ⟨fun _ => rfl, fun hstage => by rw [hstage]; rfl, fun hlate => ?_⟩
    rw [htracks hlate]
    rfl
  | fill i =>
    split at hs <;> cases hs
    next late early kept value hi =>
    have htracks := h.phases i
    rw [hi] at htracks
    cases kept with
    | false => exact h.proceed i trivial
    | true =>
      refine (h.fill hw fun hpending => ?_).proceed i trivial
      cases early with
      | false => exact htracks.1 (.inl rfl)
      | true =>
        by_cases hstage : s.stage = .writing
        · exact htracks.1 (.inr hstage)
        · exact hm late value hi hstage hpending
  | evict =>
    cases hs
    exact h.evict hw
  | commit =>
    split at hs <;> cases hs
    next hstage => exact h.commit hw hstage hm
  | update =>
    split at hs <;> cases hs
    next hstage => exact h.update hw hstage
  | finish =>
    split at hs <;> cases hs
    next hstage => exact h.finish hstage

end Tracked

theorem Start.tracked (h : rt.Start good s) : rt.Tracked good done own s := by
  refine ⟨fun _ => h.good, fun rest hs => ?_, fun _ => h.coherent, fun i => ?_⟩
  · exact nomatch h.stage.symm.trans hs
  · rw [h.idle]
    trivial

theorem Tracked.lateRight (h : rt.Tracked good done own s) : rt.LateRight s := by
  intro m v ha
  cases m with
  | lookup i =>
    simp only [answer] at ha
    split at ha
    · obtain ⟨value, hvalue, heq⟩ := Option.map_eq_some_iff.mp ha
      obtain ⟨hstage, rfl⟩ := Prod.mk.inj heq
      refine h.right ?_ value hvalue
      cases hs : s.stage with
      | returned => rfl
      | _ => simp [hs, Stage.isReturned] at hstage
    · cases ha
  | fill i =>
    simp only [answer] at ha
    split at ha
    · next late early kept value hi =>
      cases ha
      have htracks := h.phases i
      rw [hi] at htracks
      exact htracks.1 (.inl (htracks.2.2 rfl))
    · cases ha
  | load i | evict | commit | update | finish => cases ha

theorem late_right [DecidableEq ι] (hw : rt.Writes good done own)
    (h : Reach (rt.Start good) rt.step rt.Careful s) : rt.LateRight s := by
  apply Tracked.lateRight
  exact h.invariant (rt.Tracked good done own) (fun _ => Start.tracked) fun s m s' h hm hs => h.step hw hm hs

end ReadThrough
end WuKongIM.Lib
