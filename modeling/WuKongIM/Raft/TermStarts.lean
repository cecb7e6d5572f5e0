import WuKongIM.Raft.StorageSpec
import WuKongIM.Raft.Tick

/-! The starts of the terms in a log, and what a batch with at most one new term adds to them. -/
namespace WuKongIM.Raft
open Lib List Option

/-- The term occurs in the log, first at this index. -/
def IsTermStart (logs : List Log) (x : TermStartIndexInfo) : Prop :=
  (∃ l ∈ logs, l.term = x.term ∧ l.index = x.index) ∧ ∀ l ∈ logs, l.term = x.term → x.index ≤ l.index

/-- Later logs have no lower terms. -/
def TermsGrow (logs : List Log) : Prop := ∀ l ∈ logs, ∀ l' ∈ logs, l.index ≤ l'.index → l.term ≤ l'.term

/-- The start of the last term, if there is a log. -/
def Tracks (logs : List Log) (x : TermStartIndexInfo) : Prop :=
  logs ≠ [] → IsTermStart logs x ∧ ∀ l ∈ logs, l.term ≤ x.term

variable {logs batch : List Log} {x y : TermStartIndexInfo} {l : Log} {i : Nat}

theorem IsTermStart.mem_term (h : IsTermStart logs y) : ∃ l ∈ logs, l.term = y.term :=
  let ⟨l, hl, ht, _⟩ := h.1
  ⟨l, hl, ht⟩

theorem isTermStart_append (hord : ∀ l ∈ logs, ∀ l' ∈ batch, l.index ≤ l'.index) :
    IsTermStart (logs ++ batch) y ↔ IsTermStart logs y ∨ (∀ l ∈ logs, l.term ≠ y.term) ∧ IsTermStart batch y := by
  constructor
  · rintro ⟨⟨l, hl, ht, hi⟩, hmin⟩
    by_cases hin : ∃ l' ∈ logs, l'.term = y.term
    · left
      obtain ⟨l', hl', ht'⟩ := hin
      refine ⟨?_, fun a ha => hmin a (mem_append_left _ ha)⟩
      rcases mem_append.mp hl with hl | hl
      · exact ⟨l, hl, ht, hi⟩
      · have h1 := hmin l' (mem_append_left _ hl') ht'
        have h2 := hord l' hl' l hl
        exact ⟨l', hl', ht', by omega⟩
    · right
      have hnot : ∀ a ∈ logs, a.term ≠ y.term := fun a ha hx => hin ⟨a, ha, hx⟩
      have hb : l ∈ batch := (mem_append.mp hl).resolve_left fun ha => hnot l ha ht
      exact ⟨hnot, ⟨l, hb, ht, hi⟩, fun a ha => hmin a (mem_append_right _ ha)⟩
  · rintro (⟨⟨l, hl, ht, hi⟩, hmin⟩ | ⟨hnot, ⟨l, hl, ht, hi⟩, hmin⟩)
    · refine ⟨⟨l, mem_append_left _ hl, ht, hi⟩, fun a ha hx => ?_⟩
      rcases mem_append.mp ha with ha | ha
      · exact hmin a ha hx
      · rw [← hi]
        exact hord l hl a ha
    · refine ⟨⟨l, mem_append_right _ hl, ht, hi⟩, fun a ha hx => ?_⟩
      rcases mem_append.mp ha with ha | ha
      · exact absurd hx (hnot a ha)
      · exact hmin a ha hx

/-- A batch that goes on with the last term, or starts one new term at `x` after it. -/
structure Continues (term : Nat) (batch : List Log) (start : Option TermStartIndexInfo) : Prop where
  before : ∀ l ∈ batch, (∀ x ∈ start, l.index < x.index) → l.term = term ∧ l.index ≠ 1
  after : ∀ x ∈ start, ∀ l ∈ batch, x.index ≤ l.index → l.term = x.term
  mem : ∀ x ∈ start, ∃ l ∈ batch, l.index = x.index
  grows : ∀ x ∈ start, x.index = 1 ∨ term < x.term

namespace Continues
variable {start : Option TermStartIndexInfo}

private theorem start_of_nil (hc : Continues x.term batch start) (hb : Numbered 1 batch)
    (hne : batch ≠ []) : ∃ z ∈ start, z.index = 1 := by
  cases batch with
  | nil => exact absurd rfl hne
  | cons first rest =>
    have h1 := hb.1
    by_contra hno
    refine (hc.before first mem_cons_self fun z hz => ?_).2 h1
    obtain ⟨l, hl, hi⟩ := hc.mem z hz
    have := hb.mem_index hl
    have hz1 : z.index ≠ 1 := fun hx => hno ⟨z, hz, hx⟩
    omega

variable (hc : Continues x.term batch start) (ht : Tracks logs x) (hb : Numbered (logs.length + 1) batch)
include hc ht hb

theorem lt_start {z : TermStartIndexInfo} (hz : z ∈ start) : ∀ l ∈ logs, l.term < z.term := by
  intro l hl
  have hne : logs ≠ [] := ne_nil_of_mem hl
  obtain ⟨a, ha, hi⟩ := hc.mem z hz
  have hin := hb.mem_index ha
  have hpos := length_pos_iff.mpr hne
  have hT := (hc.grows z hz).resolve_left (by omega)
  exact lt_of_le_of_lt ((ht hne).2 l hl) hT

private theorem mem_before (hl : l ∈ batch) (hlt : ∀ z ∈ start, l.index < z.index) :
    l.term = x.term ∧ ∃ a ∈ logs, a.term = x.term := by
  obtain ⟨hterm, hone⟩ := hc.before l hl hlt
  refine ⟨hterm, ?_⟩
  have hne : logs ≠ [] := by
    rintro rfl
    obtain ⟨z, hz, hi⟩ := hc.start_of_nil hb (ne_nil_of_mem hl)
    have := hlt z hz
    have := (hb.mem_index hl).1
    omega
  exact (ht hne).1.mem_term

theorem isTermStart_iff (hn : Numbered 1 logs) : IsTermStart (logs ++ batch) y ↔ IsTermStart logs y ∨ y ∈ start := by
  have hord : ∀ l ∈ logs, ∀ l' ∈ batch, l.index ≤ l'.index := by
    intro l hl l' hl'
    have h1 := hn.mem_index hl
    have h2 := hb.mem_index hl'
    omega
  rw [isTermStart_append hord]
  refine or_congr_right ⟨?_, fun hy => ⟨?_, ?_, ?_⟩⟩
  · rintro ⟨hnot, ⟨l, hl, hterm, hidx⟩, hmin⟩
    have hnb : ¬∀ z ∈ start, l.index < z.index := by
      intro hlt
      obtain ⟨hx, a, ha, hax⟩ := mem_before hc ht hb hl hlt
      exact hnot a ha (hax.trans (hx.symm.trans hterm))
    simp only [not_forall, not_lt] at hnb
    obtain ⟨z, hz, hle⟩ := hnb
    obtain ⟨b, hbm, hbi⟩ := hc.mem z hz
    have hzt : y.term = z.term := hterm.symm.trans (hc.after z hz l hl hle)
    have hmin := hmin b hbm ((hc.after z hz b hbm (le_of_eq hbi.symm)).trans hzt.symm)
    have hzi : y.index = z.index := by omega
    have hyz : y = z := by
      cases y
      cases hzt
      cases hzi
      rfl
    exact hyz ▸ hz
  · intro l hl hx
    have := lt_start hc ht hb hy l hl
    omega
  · obtain ⟨b, hbm, hbi⟩ := hc.mem y hy
    exact ⟨b, hbm, hc.after y hy b hbm (le_of_eq hbi.symm), hbi⟩
  · intro l hl hx
    by_contra hlt
    have hbef : ∀ z ∈ start, l.index < z.index := by
      intro z hz
      rw [mem_unique hz hy]
      omega
    obtain ⟨hterm, a, ha, hax⟩ := mem_before hc ht hb hl hbef
    have := lt_start hc ht hb hy a ha
    omega

private theorem before_or_after (hl : l ∈ batch) :
    (l.term = x.term ∧ (∃ a ∈ logs, a.term = x.term) ∧ ∀ z ∈ start, l.index < z.index) ∨
      ∃ z ∈ start, z.index ≤ l.index ∧ l.term = z.term := by
  by_cases hlt : ∀ z ∈ start, l.index < z.index
  · obtain ⟨hterm, ha⟩ := mem_before hc ht hb hl hlt
    exact .inl ⟨hterm, ha, hlt⟩
  · simp only [not_forall, not_lt] at hlt
    obtain ⟨z, hz, hle⟩ := hlt
    exact .inr ⟨z, hz, hle, hc.after z hz l hl hle⟩

theorem termsGrow (hn : Numbered 1 logs) (hg : TermsGrow logs) : TermsGrow (logs ++ batch) := by
  intro l hl l' hl' hle
  rcases mem_append.mp hl with hl | hl <;> rcases mem_append.mp hl' with hl' | hl'
  · exact hg l hl l' hl' hle
  · have hx := (ht (ne_nil_of_mem hl)).2 l hl
    rcases before_or_after hc ht hb hl' with ⟨hterm, -⟩ | ⟨z, hz, -, hterm⟩
    · omega
    · have := lt_start hc ht hb hz l hl
      omega
  · have h1 := hn.mem_index hl'
    have h2 := hb.mem_index hl
    omega
  · rcases before_or_after hc ht hb hl with ⟨hterm, ⟨a, ha, hax⟩, -⟩ | ⟨z, hz, hzl, hterm⟩
    · rcases before_or_after hc ht hb hl' with ⟨hterm', -⟩ | ⟨z, hz, -, hterm'⟩
      · omega
      · have := lt_start hc ht hb hz a ha
        omega
    · rw [hterm, hc.after z hz l' hl' (le_trans hzl hle)]

theorem tracks (hn : Numbered 1 logs) : Tracks (logs ++ batch) (start.getD x) := by
  intro hne
  have hstart := fun y => isTermStart_iff (y := y) hc ht hb hn
  cases hs : start with
  | none =>
    have hne' : logs ≠ [] := by
      rintro rfl
      obtain ⟨z, hz, -⟩ := hc.start_of_nil hb hne
      rw [hs] at hz
      cases hz
    refine ⟨(hstart x).mpr (.inl (ht hne').1), fun l hl => ?_⟩
    rcases mem_append.mp hl with hl | hl
    · exact (ht hne').2 l hl
    rcases before_or_after hc ht hb hl with ⟨hterm, -⟩ | ⟨z, hz, -⟩
    · exact le_of_eq hterm
    · rw [hs] at hz
      cases hz
  | some z =>
    have hz : z ∈ start := hs
    refine ⟨(hstart z).mpr (.inr hz), fun l hl => ?_⟩
    change l.term ≤ z.term
    rcases mem_append.mp hl with hl | hl
    · exact le_of_lt (lt_start hc ht hb hz l hl)
    rcases before_or_after hc ht hb hl with ⟨hterm, ⟨a, ha, hax⟩, -⟩ | ⟨w, hw, -, hterm⟩
    · have := lt_start hc ht hb hz a ha
      omega
    · rw [hterm, mem_unique hw hz]

end Continues

theorem mem_take_iff (hn : Numbered 1 logs) : l ∈ logs.take i ↔ l ∈ logs ∧ l.index ≤ i := by
  have h := hn.filter_le i
  rw [Nat.add_sub_cancel] at h
  rw [← h, mem_filter, decide_eq_true_iff]

theorem isTermStart_take (hn : Numbered 1 logs) (hi : ∀ z, IsTermStart logs z → z.index ≤ i) :
    IsTermStart (logs.take i) y ↔ IsTermStart logs y := by
  constructor
  · rintro ⟨⟨l, hl, hterm, hidx⟩, hmin⟩
    have hl := (mem_take_iff hn).mp hl
    refine ⟨⟨l, hl.1, hterm, hidx⟩, fun a ha hx => ?_⟩
    by_cases hai : a.index ≤ i
    · exact hmin a ((mem_take_iff hn).mpr ⟨ha, hai⟩) hx
    · omega
  · intro hy
    have hle := hi y hy
    obtain ⟨⟨l, hl, hterm, hidx⟩, hmin⟩ := hy
    exact ⟨⟨l, (mem_take_iff hn).mpr ⟨hl, by omega⟩, hterm, hidx⟩, fun a ha => hmin a (mem_of_mem_take ha)⟩

theorem Tracks.take (ht : Tracks logs x) (hn : Numbered 1 logs)
    (hi : ∀ z, IsTermStart logs z → z.index ≤ i) : Tracks (logs.take i) x := by
  intro hne
  have hl : logs ≠ [] := by
    rintro rfl
    exact hne take_nil
  exact ⟨(isTermStart_take hn hi).mpr (ht hl).1, fun l hm => (ht hl).2 l (mem_of_mem_take hm)⟩

theorem TermsGrow.take (hg : TermsGrow logs) (i : Nat) : TermsGrow (logs.take i) :=
  fun l hl l' hl' => hg l (mem_of_mem_take hl) l' (mem_of_mem_take hl')

theorem exists_isTermStart (hn : Numbered 1 logs) {a : Log} (ha : a ∈ logs) : ∃ y, y.term = a.term ∧ IsTermStart logs y := by
  cases hf : logs.find? fun l => l.term = a.term with
  | none => exact absurd (decide_eq_true rfl) (find?_eq_none.mp hf a ha)
  | some l =>
    obtain ⟨hl, as, bs, rfl, has⟩ := find?_eq_some_iff_append.mp hf
    have hterm : l.term = a.term := of_decide_eq_true hl
    refine ⟨⟨l.term, l.index⟩, hterm, ⟨l, mem_append_right _ mem_cons_self, rfl, rfl⟩, fun b hb hx => ?_⟩
    rcases mem_append.mp hb with hb | hb
    · have := has b hb
      rw [Bool.not_eq_true', decide_eq_false_iff_not] at this
      exact absurd (hx.trans hterm) this
    have hr := hn.right
    rcases mem_cons.mp hb with rfl | hb
    · exact le_refl _
    have h1 := hr.1
    have h2 := hr.2.mem_index hb
    change l.index ≤ b.index
    omega

variable {d : LogStorage}

theorem le_lastTerm (hn : Numbered 1 d.logs) (hg : TermsGrow d.logs) (hl : l ∈ d.logs) : l.term ≤ d.lastTerm := by
  unfold LogStorage.lastTerm
  cases hlast : d.logs.getLast? with
  | none =>
    rw [getLast?_eq_none_iff] at hlast
    rw [hlast] at hl
    cases hl
  | some a =>
    have h1 := hn.index_of_getLast hlast
    have h2 := hn.mem_index hl
    exact hg l hl a (mem_of_getLast? hlast) (by omega)

theorem exists_lastTerm (hne : d.logs ≠ []) : ∃ l ∈ d.logs, l.term = d.lastTerm := by
  unfold LogStorage.lastTerm
  rw [getLast?_eq_some_getLast hne]
  exact ⟨_, getLast_mem hne, rfl⟩

theorem Tracks.term_eq (ht : Tracks d.logs x) (hn : Numbered 1 d.logs) (hg : TermsGrow d.logs)
    (hne : d.logs ≠ []) : x.term = d.lastTerm := by
  obtain ⟨l, hl, hterm⟩ := (ht hne).1.mem_term
  obtain ⟨a, ha, hlast⟩ := exists_lastTerm hne
  have h1 := le_lastTerm hn hg hl
  have h2 := (ht hne).2 a ha
  omega

/-- At most one log of the batch starts a term, and the term is a new one. -/
def OneNewTerm (term : Nat) (batch : List Log) (start : Option TermStartIndexInfo) : Prop :=
  ∀ x ∈ start, (x.index = 1 ∨ term < x.term) ∧ ∀ l ∈ batch, x.index ≤ l.index → l.term = x.term
  deriving Decidable

theorem continues_termStartOf {n : Node} {k : Nat} (hb : Numbered k batch)
    (h : OneNewTerm n.lastTermStartIndex.term batch (n.termStartOf batch)) :
    Continues n.lastTermStartIndex.term batch (n.termStartOf batch) := by
  refine ⟨?_, fun z hz => (h z hz).2, ?_, fun z hz => (h z hz).1⟩
  · intro l hl hlt
    unfold Node.termStartOf at hlt
    cases hf : batch.find? fun log => n.lastTermStartIndex.term ≠ log.term ∨ log.index = 1 with
    | none =>
      have := find?_eq_none.mp hf l hl
      simp only [decide_eq_true_eq, not_or, not_not] at this
      exact ⟨this.1.symm, this.2⟩
    | some a =>
      rw [hf] at hlt
      have hla : l.index < a.index := hlt _ rfl
      obtain ⟨-, as, bs, rfl, has⟩ := find?_eq_some_iff_append.mp hf
      have hpre : l ∈ as := by
        rcases mem_append.mp hl with hl | hl
        · exact hl
        have hr := hb.right
        rcases mem_cons.mp hl with rfl | hl
        · omega
        · have h1 := hr.1
          have h2 := hr.2.mem_index hl
          omega
      have := has l hpre
      simp only [not_or, not_not, Bool.not_eq_true', decide_eq_false_iff_not] at this
      exact ⟨this.1.symm, this.2⟩
  · intro z hz
    obtain ⟨a, ha, rfl⟩ := map_eq_some_iff.mp hz
    exact ⟨a, mem_of_find?_eq_some ha, rfl⟩

end WuKongIM.Raft
