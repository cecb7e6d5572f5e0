import WuKongIM.WKDB.MessageStore

/-! How the two readers regroup the columns of stored messages. -/
namespace WuKongIM.WKDB
open Lib List Message

def Message.block (num : UInt64) (m : Message) : List Row := m.ordered.map (Row.mk num m.messageSeq.toUInt64)

def layout (num : UInt64) (msgs : List Message) : List Row := msgs.flatMap (Message.block num)

structure Ordered (msgs : List Message) : Prop where
  ascending : Ascending (fun m : Message => m.messageSeq.toNat) msgs
  pos : ∀ m ∈ msgs, 0 < m.messageSeq.toNat

variable {m pre : Message} {msgs : List Message} {preSeq : UInt64}

theorem Ordered.tail (h : Ordered (m :: msgs)) : Ordered msgs :=
  ⟨(pairwise_cons.mp h.ascending).2, fun x hx => h.pos x (mem_cons_of_mem m hx)⟩

theorem Ordered.seq_ne_zero (h : Ordered (m :: msgs)) : m.messageSeq.toUInt64 ≠ 0 := by
  intro h0
  have hpos := h.pos m mem_cons_self
  have hz : m.messageSeq.toUInt64.toNat = 0 := congrArg UInt64.toNat h0
  rw [UInt32.toNat_toUInt64] at hz
  omega

theorem Ordered.seq_ne {m' : Message} (h : Ordered (m :: m' :: msgs)) : m.messageSeq.toUInt64 ≠ m'.messageSeq.toUInt64 := by
  intro he
  have hlt : m.messageSeq.toNat < m'.messageSeq.toNat := (pairwise_cons.mp h.ascending).1 m' mem_cons_self
  have hz := congrArg UInt64.toNat he
  rw [UInt32.toNat_toUInt64, UInt32.toNat_toUInt64] at hz
  omega

theorem Ordered.head_ne (h : Ordered (m :: msgs)) : ∀ m' ∈ msgs.head?, m.messageSeq.toUInt64 ≠ m'.messageSeq.toUInt64 := by
  intro m' hm'
  cases msgs with
  | nil => cases hm'
  | cons x xs =>
    cases hm'
    exact h.seq_ne

theorem Ordered.filter (h : Ordered msgs) (p : Message → Bool) : Ordered (msgs.filter p) :=
  ⟨h.ascending.filter p, fun m hm => h.pos m (mem_filter.mp hm).1⟩

theorem Message.block_eq (num : UInt64) (m : Message) : m.block num = ⟨num, m.messageSeq.toUInt64,
    (.header, [m.header])⟩ :: m.ordered.tail.map (Row.mk num m.messageSeq.toUInt64) := by
  rw [block, ordered_eq]
  rfl

theorem layout_cons (num : UInt64) (m : Message) (msgs : List Message) :
    layout num (m :: msgs) = m.block num ++ layout num msgs := flatMap_cons

theorem Message.tail_eq_cons (m : Message) : ∃ c cs, m.ordered.tail = c :: cs := by
  rw [ordered_eq]
  exact ⟨_, _, rfl⟩

theorem Message.readHeader (m : Message) : (ofSeq m.messageSeq.toUInt64).readColumn (.header, [m.header]) =
    .ok { ofSeq m.messageSeq.toUInt64 with header := m.header } := rfl

variable (limit : Nat) (iterFnc : Message → Bool) (size : Message → UInt64) (limitSize num : UInt64)

theorem scan_columns (cs : List (Column × Bytes)) (seq : UInt64) (rows : List Row) (size : Nat)
    (h : cs.foldlM readColumn pre = .ok m) : scan limit iterFnc (cs.map (Row.mk num seq) ++ rows) size seq pre true =
      scan limit iterFnc rows size seq m true := by
  induction cs generalizing pre with
  | nil =>
    cases h
    rfl
  | cons c cs ih =>
    rw [foldlM_cons] at h
    cases hc : pre.readColumn c with
    | error e =>
      rw [hc] at h
      cases h
    | ok m' =>
      rw [hc] at h
      rw [map_cons, cons_append, scan, if_neg (by simp), hc]
      exact ih h

theorem scan_start (r : Row) (rows : List Row) (hr : r.seq ≠ 0) : scan limit iterFnc (r :: rows) 0 0 {} false =
      scan limit iterFnc (r :: rows) 0 r.seq (.ofSeq r.seq) true := by
  rw [scan, if_pos hr.symm, if_neg (by simp), scan, if_neg (by simp)]

/-- A new message is begun once the one before has been handed over. -/
theorem scan_block (m : Message) (rows : List Row) (size : Nat) (pre : Message)
    (h0 : preSeq ≠ 0) (hne : preSeq ≠ m.messageSeq.toUInt64) (hf : iterFnc pre) (hl : ¬ (limit ≠ 0 ∧ size + 1 ≥ limit)) :
    scan limit iterFnc (m.block num ++ rows) size preSeq pre true =
      (scan limit iterFnc rows (size + 1) m.messageSeq.toUInt64 m true).map (pre :: ·) := by
  rw [block_eq, cons_append, scan, if_pos hne, if_pos h0, if_neg (by simp [hf]), if_neg hl, m.readHeader]
  have hcols := scan_columns limit iterFnc num m.ordered.tail m.messageSeq.toUInt64 rows (size + 1) (m.readColumns m.header)
  simp only [bind, Except.bind, hcols]
  cases scan limit iterFnc rows (size + 1) m.messageSeq.toUInt64 m true <;> rfl

def takeLimit (msgs : List Message) : List Message := if limit = 0 then msgs else msgs.take limit

theorem scan_layout (num : UInt64) (msgs : List Message) (size : Nat)
    (h : Ordered msgs) (h0 : preSeq ≠ 0) (hne : ∀ m ∈ msgs.head?, preSeq ≠ m.messageSeq.toUInt64)
    (hs : limit ≠ 0 → size < limit) : scan limit (fun _ => true) (layout num msgs) size preSeq pre true =
      .ok (if limit = 0 then pre :: msgs else (pre :: msgs).take (limit - size)) := by
  induction msgs generalizing pre preSeq size with
  | nil =>
    rw [layout, flatMap_nil, scan, if_pos rfl]
    by_cases hl : limit = 0
    · rw [if_pos hl]
    · rw [if_neg hl, take_of_length_le (by rw [length_singleton]; omega)]
  | cons m msgs ih =>
    have hne' := hne m rfl
    by_cases hl : limit ≠ 0 ∧ size + 1 ≥ limit
    · have hone : limit - size = 1 := by omega
      rw [layout_cons, block_eq, cons_append, scan, if_pos hne', if_pos h0, if_pos hl,
        if_neg hl.1, hone]
      rfl
    · rw [layout_cons, scan_block limit _ num m _ size pre h0 hne' rfl hl,
        ih (size + 1) h.tail h.seq_ne_zero h.head_ne (by omega)]
      by_cases hz : limit = 0
      · rw [if_pos hz, if_pos hz]
        rfl
      · obtain ⟨k, hk⟩ : ∃ k, limit - size = k + 1 := ⟨limit - size - 1, by omega⟩
        rw [if_neg hz, if_neg hz, hk, show limit - (size + 1) = k by omega]
        rfl

def Message.withoutHeader (m : Message) : Message := { m with header := 0 }

def forgetFirstHeader : List Message → List Message
  | [] => []
  | m :: msgs => m.withoutHeader :: msgs

theorem map_forgetFirstHeader (msgs : List Message) :
    (forgetFirstHeader msgs).map withoutHeader = msgs.map withoutHeader := by
  cases msgs <;> rfl

/-- The first row, which the iterator passes without reading it, is the header of the first
message. -/
theorem iterator_start (iterFnc : Message → Bool) (num : UInt64) (m : Message) (msgs : List Message)
    (h : Ordered (m :: msgs)) : iteratorChannelMessages (layout num (m :: msgs)) limit iterFnc =
      scan limit iterFnc (layout num msgs) 0 m.messageSeq.toUInt64 m.withoutHeader true := by
  obtain ⟨c, cs, hcs⟩ := m.tail_eq_cons
  rw [layout_cons, block_eq]
  change scan limit iterFnc (m.ordered.tail.map _ ++ layout num msgs) 0 0 {} false = _
  have hcols := scan_columns limit iterFnc num m.ordered.tail m.messageSeq.toUInt64 (layout num msgs) 0
    (m := m.withoutHeader) (m.readColumns 0)
  rw [← hcols, hcs, map_cons, cons_append, scan_start limit iterFnc _ _ h.seq_ne_zero]
  rfl

theorem iterator_all (num : UInt64) (msgs : List Message) (h : Ordered msgs) :
    iteratorChannelMessages (layout num msgs) limit (fun _ => true) = .ok (takeLimit limit (forgetFirstHeader msgs)) := by
  cases msgs with
  | nil =>
    cases limit with
    | zero | succ n => rfl
  | cons m msgs =>
    rw [iterator_start limit _ num m msgs h,
      scan_layout limit num msgs 0 h.tail h.seq_ne_zero h.head_ne (by omega), takeLimit]
    rfl

theorem iterator_one (num : UInt64) (msgs : List Message) (h : Ordered msgs) :
    iteratorChannelMessages (layout num msgs) limit (fun _ => false) = .ok ((forgetFirstHeader msgs).take 1) := by
  cases msgs with
  | nil => rfl
  | cons m msgs =>
    rw [iterator_start limit _ num m msgs h]
    cases msgs with
    | nil => rfl
    | cons x xs =>
      rw [layout_cons, block_eq, cons_append, scan, if_pos h.seq_ne, if_pos h.seq_ne_zero]
      rfl

/-- What a limit on the size leaves: the messages up to the first one that reaches it. -/
def takeSize (size : Message → UInt64) (limitSize : UInt64) : List Message → UInt64 → List Message
  | [], _ => []
  | m :: msgs, total =>
    m :: if limitSize ≠ 0 ∧ total + size m ≥ limitSize then [] else takeSize size limitSize msgs (total + size m)

theorem scanSize_columns (cs : List (Column × Bytes)) {seq : UInt64} (hseq : seq ≠ 0)
    (rows : List Row) (total : UInt64) (h : cs.foldlM readColumn pre = .ok m) :
    scanSize size limitSize (cs.map (Row.mk num seq) ++ rows) total seq pre true =
      scanSize size limitSize rows total seq m true := by
  induction cs generalizing pre with
  | nil =>
    cases h
    rfl
  | cons c cs ih =>
    rw [foldlM_cons] at h
    cases hc : pre.readColumn c with
    | error e =>
      rw [hc] at h
      cases h
    | ok m' =>
      rw [hc] at h
      rw [map_cons, cons_append, scanSize, if_neg hseq, if_neg (by simp), hc]
      exact ih h

theorem scanSize_tail (m : Message) (hseq : m.messageSeq.toUInt64 ≠ 0) (rows : List Row) (total : UInt64) :
    scanSize size limitSize (m.ordered.tail.map (Row.mk num m.messageSeq.toUInt64) ++ rows) total m.messageSeq.toUInt64
      { ofSeq m.messageSeq.toUInt64 with header := m.header } true =
      scanSize size limitSize rows total m.messageSeq.toUInt64 m true :=
  scanSize_columns size limitSize num m.ordered.tail hseq rows total (m.readColumns m.header)

theorem scanSize_layout (msgs : List Message) (total : UInt64)
    (h : Ordered msgs) (h0 : preSeq ≠ 0) (hne : ∀ m ∈ msgs.head?, preSeq ≠ m.messageSeq.toUInt64) :
    scanSize size limitSize (layout num msgs) total preSeq pre true = .ok (takeSize size limitSize (pre :: msgs) total) := by
  induction msgs generalizing pre preSeq total with
  | nil =>
    rw [layout, flatMap_nil, scanSize, if_pos rfl, takeSize]
    split <;> rfl
  | cons m msgs ih =>
    have hm := h.seq_ne_zero
    rw [layout_cons, block_eq, cons_append, scanSize, if_neg hm, if_pos (hne m rfl), if_pos h0,
      m.readHeader, takeSize]
    split
    · rfl
    · simp only [bind, Except.bind, scanSize_tail size limitSize num m hm, ih (total + size pre) h.tail hm h.head_ne]
      rfl

theorem parseMessages_layout (msgs : List Message) (h : Ordered msgs) :
    parseChannelMessagesWithLimitSize size (layout num msgs) limitSize = .ok (takeSize size limitSize msgs 0) := by
  cases msgs with
  | nil => rfl
  | cons m msgs =>
    have hm := h.seq_ne_zero
    rw [parseChannelMessagesWithLimitSize, layout_cons, block_eq, cons_append, scanSize, if_neg hm,
      if_pos hm.symm, if_neg (by simp)]
    change scanSize size limitSize (m.ordered.tail.map _ ++ layout num msgs) 0 _ _ true = _
    rw [scanSize_tail size limitSize num m hm, scanSize_layout size limitSize num msgs 0 h.tail hm h.head_ne]

end WuKongIM.WKDB
