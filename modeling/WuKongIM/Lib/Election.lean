import WuKongIM.Lib.Quorum

/-! Elections by majority in numbered terms. -/
namespace WuKongIM.Lib.Election
open Function
variable {ι : Type} [DecidableEq ι]

inductive Rank where
  | follower | candidate | leader
  deriving DecidableEq

structure Ballot (ι : Type) where
  term : Nat
  rank : Rank
  heard : Bool
  vote : Option ι

/-- The ballots of all members, and every vote ever granted: voter, candidate, term. -/
structure State (ι : Type) where
  ballot : ι → Ballot ι
  granted : ι → ι → Nat → Prop

namespace State

variable (s : State ι) {i j : ι}

def put (i : ι) (b : Ballot ι) : State ι := { s with ballot := update s.ballot i b }

/-- The grant is recorded for good. -/
def grant (i c : ι) : State ι :=
  { ballot := update s.ballot i { s.ballot i with vote := some c }
    granted := fun v d T => s.granted v d T ∨ v = i ∧ d = c ∧ T = (s.ballot i).term }

@[simp] theorem put_self (i : ι) (b : Ballot ι) : (s.put i b).ballot i = b := update_self ..

theorem put_of_ne (b : Ballot ι) (h : j ≠ i) : (s.put i b).ballot j = s.ballot j :=
  update_of_ne h ..

variable {s} in
/-- What holds of each member's ballot holds when one member has a new ballot that meets it. -/
theorem forall_put {b : Ballot ι} (p : ι → Ballot ι → Prop) (hi : p i b)
    (h : ∀ j, p j (s.ballot j)) : ∀ j, p j ((s.put i b).ballot j) :=
  (forall_update_iff s.ballot p).mpr ⟨hi, fun j _ => h j⟩

@[simp] theorem grant_self (i c : ι) : (s.grant i c).ballot i = { s.ballot i with vote := some c } := update_self ..

theorem grant_of_ne (c : ι) (h : j ≠ i) : (s.grant i c).ballot j = s.ballot j :=
  update_of_ne h ..

/-- Member `c` can still win, or has won, term `T`. -/
def Alive (c : ι) (T : Nat) : Prop := (s.ballot c).term = T ∧ (s.ballot c).rank ≠ .follower

end State

inductive Move (members : List ι) (s : State ι) : State ι → Prop
  /-- A higher term is entered freely. Within a term a follower may only hear of a leader. -/
  | follow (i : ι) (T : Nat) (heard : Bool)
      (h : (s.ballot i).term < T ∨ (s.ballot i).term = T ∧ ((s.ballot i).rank ≠ .follower ∨ heard = true)) :
      Move members s (s.put i ⟨T, .follower, heard, none⟩)
  | stand (i : ι) : Move members s (s.put i ⟨(s.ballot i).term + 1, .candidate, false, some i⟩)
  | grant (i c : ι) (hh : (s.ballot i).heard = false)
      (hv : (s.ballot i).vote = none ∨ (s.ballot i).vote = some c) (hc : (s.ballot i).term ≤ (s.ballot c).term) :
      Move members s (s.grant i c)
  | win (i : ι) (q : Finset ι) (hr : (s.ballot i).rank = .candidate) (hq : Majority members q)
      (hg : ∀ u ∈ q, s.granted u i (s.ballot i).term) :
      Move members s (s.put i ⟨(s.ballot i).term, .leader, true, none⟩)

structure Inv (members : List ι) (s : State ι) : Prop where
  bound : ∀ v c T, s.granted v c T → T ≤ (s.ballot v).term ∧ T ≤ (s.ballot c).term
  held : ∀ v c T, s.granted v c T → T = (s.ballot v).term →
    (s.ballot v).vote = some c ∨ (s.ballot v).heard = true ∨ c = v ∧ (s.ballot v).rank = .follower
  own : ∀ v c, (s.ballot v).rank = .leader → s.granted v c (s.ballot v).term → c = v
  candidate : ∀ i, (s.ballot i).rank = .candidate → (s.ballot i).vote = some i ∧ (s.ballot i).heard = false
  leader : ∀ i, (s.ballot i).rank = .leader → (s.ballot i).heard = true
  elected : ∀ i, (s.ballot i).rank = .leader →
    ∃ q, Majority members q ∧ ∀ u ∈ q, s.granted u i (s.ballot i).term
  once : ∀ v c d T, s.granted v c T → s.granted v d T → c ≠ d → ¬(s.Alive c T ∧ s.Alive d T)

variable {members : List ι} {s t : State ι} {i c : ι} {b : Ballot ι}

private theorem alive_put {T : Nat} (hT : T ≤ (s.ballot c).term)
    (hb : (s.ballot i).term < b.term ∨ b.rank = .follower ∨ b.term = (s.ballot i).term ∧ (s.ballot i).rank ≠ .follower)
    (h : (s.put i b).Alive c T) : s.Alive c T := by
  obtain ⟨ht, hr⟩ := h
  by_cases hc : c = i
  · subst hc
    rw [State.put_self] at ht hr
    rcases hb with hb | hb | ⟨hb, hn⟩
    · omega
    · exact absurd hb hr
    · exact ⟨by omega, hn⟩
  · rw [State.put_of_ne s b hc] at ht hr
    exact ⟨ht, hr⟩

private theorem Inv.put {i : ι} (h : Inv members s) (hm : (s.ballot i).term < b.term ∨ b.term = (s.ballot i).term ∧
      (b.rank = .follower ∨ (s.ballot i).rank ≠ .follower)) (hheld : ∀ c, s.granted i c b.term → b.term = (s.ballot i).term →
      b.vote = some c ∨ b.heard ∨ c = i ∧
        b.rank = .follower) (hcand : b.rank = .candidate → b.vote = some i ∧ b.heard = false)
    (hlead : b.rank = .leader → b.heard ∧ (∀ c, s.granted i c b.term → c = i) ∧
      ∃ q, Majority members q ∧ ∀ u ∈ q, s.granted u i b.term) : Inv members (s.put i b) := by
  have hle : (s.ballot i).term ≤ b.term := by
    rcases hm with hm | ⟨hm, _⟩ <;> omega
  have hterm := State.forall_put (fun j x => (s.ballot j).term ≤ x.term) hle fun _ => le_rfl
  refine ⟨?_, ?_, ?_, ?_, ?_, ?_, ?_⟩
  · intro v c T hg
    obtain ⟨hv, hc⟩ := h.bound v c T hg
    exact ⟨hv.trans (hterm v), hc.trans (hterm c)⟩
  · refine State.forall_put (fun v x => ∀ c T, s.granted v c T → T = x.term →
      x.vote = some c ∨ x.heard ∨ c = v ∧ x.rank = .follower) (fun c T hg hT => ?_) h.held
    have hb := (h.bound i c T hg).1
    exact hheld c (hT ▸ hg) (by omega)
  · exact State.forall_put (fun v x => ∀ c, x.rank = .leader → s.granted v c x.term → c = v)
      (fun c hr => (hlead hr).2.1 c) h.own
  · exact State.forall_put (fun j x => x.rank = .candidate → x.vote = some j ∧ x.heard = false) hcand h.candidate
  · exact State.forall_put (fun _ x => x.rank = .leader → x.heard) (fun hr => (hlead hr).1) h.leader
  · exact State.forall_put (fun j x => x.rank = .leader → ∃ q, Majority members q ∧ ∀ u ∈ q, s.granted u j x.term)
      (fun hr => (hlead hr).2.2) h.elected
  · rintro v c d T hc hd hne ⟨hac, had⟩
    have hb : (s.ballot i).term < b.term ∨ b.rank = .follower ∨
        b.term = (s.ballot i).term ∧ (s.ballot i).rank ≠ .follower := by
      rcases hm with hm | ⟨he, hm | hm⟩
      · exact .inl hm
      · exact .inr (.inl hm)
      · exact .inr (.inr ⟨he, hm⟩)
    exact h.once v c d T hc hd hne
      ⟨alive_put (h.bound v c T hc).2 hb hac, alive_put (h.bound v d T hd).2 hb had⟩

omit [DecidableEq ι] in
private theorem Inv.granted_self (h : Inv members s) (hr : (s.ballot i).rank ≠ .follower)
    (hg : s.granted i c (s.ballot i).term) : c = i := by
  cases hk : (s.ballot i).rank with
  | follower => exact absurd hk hr
  | leader => exact h.own i c hk hg
  | candidate =>
    obtain ⟨hv, hn⟩ := h.candidate i hk
    rcases h.held i c _ hg rfl with hc | hc | ⟨hc, _⟩
    · rw [hv] at hc
      exact (Option.some.inj hc).symm
    · rw [hn] at hc
      cases hc
    · exact hc

private theorem Inv.grant (h : Inv members s) (hh : (s.ballot i).heard = false)
    (hv : (s.ballot i).vote = none ∨ (s.ballot i).vote = some c)
    (hc : (s.ballot i).term ≤ (s.ballot c).term) : Inv members (s.grant i c) := by
  have hkept (j) : ((s.grant i c).ballot j).term = (s.ballot j).term ∧ ((s.grant i c).ballot j).rank = (s.ballot j).rank ∧
      ((s.grant i c).ballot j).heard = (s.ballot j).heard := by
    by_cases hj : j = i
    · rw [hj, State.grant_self]
      exact ⟨rfl, rfl, rfl⟩
    · rw [State.grant_of_ne s c hj]
      exact ⟨rfl, rfl, rfl⟩
  simp only [forall_and] at hkept
  obtain ⟨hterm, hrank, hheard⟩ := hkept
  have hvote : ((s.grant i c).ballot i).vote = some c := by rw [State.grant_self]
  have hvote' : ∀ j, j ≠ i → ((s.grant i c).ballot j).vote = (s.ballot j).vote := by
    intro j hj
    rw [State.grant_of_ne s c hj]
  have halive (d T) : (s.grant i c).Alive d T ↔ s.Alive d T := by
    rw [State.Alive, State.Alive, hterm, hrank]
  -- whoever else holds a vote of this member has given up the term
  have hdead : ∀ d, s.granted i d (s.ballot i).term → d ≠ c → d = i ∧ (s.ballot i).rank = .follower := by
    intro d hg hne
    rcases h.held i d _ hg rfl with hd | hd | hd
    · rcases hv with hv | hv <;> rw [hv] at hd
      · cases hd
      · exact absurd (Option.some.inj hd).symm hne
    · rw [hh] at hd
      cases hd
    · exact hd
  have honce : ∀ d T, s.granted i d T → T = (s.ballot i).term → d ≠ c → ¬s.Alive d T := by
    rintro d T hg rfl hne ⟨_, hr⟩
    obtain ⟨rfl, hf⟩ := hdead d hg hne
    exact hr hf
  refine ⟨?_, ?_, ?_, ?_, ?_, ?_, ?_⟩
  · rintro v d T (hg | ⟨rfl, rfl, rfl⟩)
    · rw [hterm, hterm]
      exact h.bound v d T hg
    · rw [hterm, hterm]
      exact ⟨le_rfl, hc⟩
  · rintro v d T (hg | ⟨rfl, rfl, rfl⟩) hT
    · rw [hterm] at hT
      by_cases hvi : v = i
      · subst hvi
        by_cases hd : d = c
        · exact .inl (by rw [hvote, hd])
        · rw [hrank]
          exact .inr (.inr (hdead d (hT ▸ hg) hd))
      · rw [hvote' v hvi, hheard, hrank]
        exact h.held v d T hg hT
    · exact .inl hvote
  · intro v d hr hg
    rw [hrank] at hr
    rw [hterm] at hg
    rcases hg with hg | ⟨rfl, _, _⟩
    · exact h.own v d hr hg
    · have := h.leader v hr
      rw [hh] at this
      cases this
  · intro j hr
    rw [hrank] at hr
    rw [hheard]
    obtain ⟨hj, hn⟩ := h.candidate j hr
    refine ⟨?_, hn⟩
    by_cases hji : j = i
    · subst hji
      rcases hv with hv | hv <;> rw [hv] at hj
      · cases hj
      · rw [hvote, hj]
    · rw [hvote' j hji, hj]
  · intro j hr
    rw [hrank] at hr
    rw [hheard]
    exact h.leader j hr
  · intro j hr
    rw [hrank] at hr
    rw [hterm]
    obtain ⟨q, hq, hg⟩ := h.elected j hr
    exact ⟨q, hq, fun u hu => .inl (hg u hu)⟩
  · rintro v d e T hd he hne ⟨had, hae⟩
    rw [halive] at had hae
    rcases hd with hd | ⟨rfl, rfl, rfl⟩ <;> rcases he with he | ⟨hvi, rfl, hT⟩
    · exact h.once v d e T hd he hne ⟨had, hae⟩
    · subst hvi
      exact honce d T hd hT hne had
    · exact honce e _ he rfl hne.symm hae
    · exact hne rfl

theorem Inv.move (h : Inv members s) (hm : Move members s t) : Inv members t := by
  cases hm with
  | follow i T heard hT =>
    refine h.put ?_ ?_ nofun nofun
    · rcases hT with hT | ⟨hT, _⟩
      · exact .inl hT
      · exact .inr ⟨hT.symm, .inl rfl⟩
    intro c hg he
    rcases hT with hT | ⟨_, hT | hT⟩
    · exact absurd he (by dsimp only; omega)
    · exact .inr (.inr ⟨h.granted_self hT (he ▸ hg), rfl⟩)
    · exact .inr (.inl hT)
  | stand i =>
    refine h.put (.inl (Nat.lt_succ_self _)) ?_ (fun _ => ⟨rfl, rfl⟩) nofun
    intro c _ he
    exact absurd he (Nat.succ_ne_self _)
  | grant i c hh hv hc => exact h.grant hh hv hc
  | win i q hr hq hg =>
    have hne : (s.ballot i).rank ≠ .follower := by rw [hr]; exact nofun
    refine h.put (.inr ⟨rfl, .inr hne⟩) (fun _ _ _ => .inr (.inl rfl)) nofun ?_
    intro _
    exact ⟨rfl, fun c hc => h.granted_self hne hc, q, hq, hg⟩

theorem Inv.moves (h : Inv members s) (hm : Relation.ReflTransGen (Move members) s t) : Inv members t := by
  induction hm with
  | refl => exact h
  | tail _ hm ih => exact ih.move hm

omit [DecidableEq ι] in
theorem Inv.start (hf : ∀ i, (s.ballot i).rank = .follower) (hg : ∀ v c T, ¬s.granted v c T) : Inv members s where
  bound := fun v c T h => absurd h (hg v c T)
  held := fun v c T h => absurd h (hg v c T)
  own := fun v c _ h => absurd h (hg v c _)
  candidate := fun i h => by rw [hf i] at h; cases h
  leader := fun i h => by rw [hf i] at h; cases h
  elected := fun i h => by rw [hf i] at h; cases h
  once := fun v c d T h => absurd h (hg v c T)

theorem Inv.leader_unique (h : Inv members s) {a b : ι} (ha : (s.ballot a).rank = .leader)
    (hb : (s.ballot b).rank = .leader) (ht : (s.ballot a).term = (s.ballot b).term) : a = b := by
  obtain ⟨p, hp, hpg⟩ := h.elected a ha
  obtain ⟨q, hq, hqg⟩ := h.elected b hb
  obtain ⟨v, hvp, hvq⟩ := hp.meet hq
  by_contra hne
  have hga := hpg v hvp
  have hgb := hqg v hvq
  rw [← ht] at hgb
  refine h.once v a b _ hga hgb hne ⟨⟨rfl, ?_⟩, ⟨ht.symm, ?_⟩⟩
  · rw [ha]
    exact nofun
  · rw [hb]
    exact nofun

end WuKongIM.Lib.Election
