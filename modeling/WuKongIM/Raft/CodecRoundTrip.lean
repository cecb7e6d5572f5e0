import WuKongIM.Raft.Codec

/-! An event is read back from its bytes exactly when its configuration is not empty but for the
leader, which `IsEmpty` does not look at, and when its lengths fit into 32 bits. -/
namespace WuKongIM.Raft.Wire
open Lib List Event Reads

variable {p : WKProto}

private theorem reads_length {n : Nat} (h : n < 2 ^ 32) :
    Reads p.uint32 (p.putUint32 (UInt32.ofNat n)) (UInt32.ofNat n) ∧ (UInt32.ofNat n).toNat = n :=
  ⟨p.reads_uint32 _, UInt32.toNat_ofNat_of_lt h⟩

private theorem reads_list {α : Type} {d : Decoder α} {put : α → List UInt8} {xs : List α}
    (h : xs.length < 2 ^ 32) (hx : ∀ x ∈ xs, Reads d (put x) x) :
    Reads (p.uint32 >>= fun n => many d n.toNat) (p.putUint32 (UInt32.ofNat xs.length) ++ xs.flatMap put) xs := by
  obtain ⟨hn, hlen⟩ := reads_length h
  refine hn.bind ?_
  rw [hlen]
  exact many xs hx

theorem Log.length_marshal (l : Log) : l.marshal.length = 20 + l.data.length := by
  simp only [Log.marshal, length_append, length_bigEndian]

theorem Log.unmarshal_marshal (l : Log) : Log.unmarshal l.marshal = some l := by
  have hid : l.marshal.take 8 = bigEndian 8 l.id.toNat := take_left' (length_bigEndian 8 _)
  have hindex : (l.marshal.drop 8).take 8 = bigEndian 8 l.index.toNat := take_left' (length_bigEndian 8 _)
  have hterm : (l.marshal.drop 16).take 4 = bigEndian 4 l.term.toNat := take_left' (length_bigEndian 4 _)
  have hdata : l.marshal.drop 20 = l.data := by
    rw [Log.marshal, drop_left' (by simp)]
  rw [Log.unmarshal, if_neg (by rw [l.length_marshal]; omega), hid, hindex, hterm, hdata,
    ofBigEndian_uint64, ofBigEndian_uint64, ofBigEndian_uint32]

theorem yields_readLog : Yields (readLog p) fun l => 20 + l.data.length < 2 ^ 32 := by
  refine (Yields.any p.uint32).bind fun n _ => (p.yields_bytes n.toNat).bind fun bytes hlen => .lift fun l hl => ?_
  unfold Log.unmarshal at hl
  split at hl
  · cases hl
  cases hl
  have := n.toNat_lt
  rw [length_drop]
  omega

theorem reads_readLog {l : Log} (h : 20 + l.data.length < 2 ^ 32) : Reads (readLog p) (putLog p l) l := by
  obtain ⟨hn, hlen⟩ := reads_length (l.length_marshal ▸ h)
  refine hn.bind ?_
  rw [hlen]
  intro rest
  rw [StateT.run_bind, p.reads_bytes l.marshal]
  change (StateT.lift (Log.unmarshal l.marshal)).run rest = some (l, rest)
  rw [l.unmarshal_marshal]
  rfl

def Config.Fits (c : Config) : Prop := c.replicas.length < 2 ^ 32 ∧ c.learners.length < 2 ^ 32

theorem Config.reads_unmarshal {c : Config} (h : c.Fits) : Reads (Config.unmarshal p) (c.marshal p) c := by
  obtain ⟨hr, hrn⟩ := reads_length h.1
  obtain ⟨hl, hln⟩ := reads_length h.2
  have hrs := many c.replicas fun x _ => p.reads_uint64 x
  have hls := many c.learners fun x _ => p.reads_uint64 x
  rw [← hrn] at hrs
  rw [← hln] at hls
  simp only [Config.marshal, append_assoc]
  exact (p.reads_uint64 _).bind <| (p.reads_uint64 _).bind <| hr.bind <| hrs.bind <| hl.bind <| hls.bind <|
    (p.reads_uint8 _).bind <| (p.reads_uint32 _).bind <| (p.reads_uint64 _).bind <| (p.reads_uint64 c.leader).result _

theorem Config.yields_unmarshal : Yields (Config.unmarshal p) Config.Fits := by
  refine (Yields.any _).bind fun _ _ => (Yields.any _).bind fun _ _ => (Yields.any _).bind fun n _ =>
    ((Yields.any p.uint64).many n.toNat).bind fun rs hrs => (Yields.any _).bind fun k _ =>
    ((Yields.any p.uint64).many k.toNat).bind fun ls hls => (Yields.any _).bind fun _ _ => (Yields.any _).bind fun _ _ =>
    (Yields.any _).bind fun _ _ => (Yields.any _).bind fun _ _ => .pure ⟨?_, ?_⟩
  · rw [hrs.1]
    exact n.toNat_lt
  · rw [hls.1]
    exact k.toNat_lt

theorem has_or (a b bit : Nat) : has (a ||| b) bit = (has a bit || has b bit) := by
  rw [has, has, has, Nat.and_or_distrib_right]
  cases ha : a &&& bit with
  | zero => simp
  | succ k =>
    have hne : (k + 1 ||| b &&& bit) ≠ 0 := fun hx => absurd (Nat.or_eq_zero_iff.mp hx).1 (Nat.succ_ne_zero _)
    simp [hne]

theorem has_getFlag (e : Event) (bit : Nat) : has e.getFlag bit = e.parts.any fun part => part.2 && has part.1 bit := by
  have hgen (parts : List (Nat × Bool)) (flag : Nat) :
      has (parts.foldl (fun flag part => if part.2 then flag ||| part.1 else flag) flag) bit =
        (has flag bit || parts.any fun part => part.2 && has part.1 bit) := by
    induction parts generalizing flag with
    | nil => simp
    | cons part parts ih =>
      rw [foldl_cons, ih, any_cons]
      cases part.2 with
      | false => simp
      | true => simp [has_or, Bool.or_assoc]
  rw [getFlag, hgen]
  simp [has]

variable {e : Event} {bit : Nat}

/-- The flags differ, so each one tells whether its own part is present. -/
theorem has_part {present : Bool} (h : (bit, present) ∈ e.parts) : has e.getFlag bit = present := by
  rw [has_getFlag]
  simp only [parts, mem_cons, not_mem_nil, or_false] at h
  rcases h with ⟨rfl, rfl⟩ | ⟨rfl, rfl⟩ | ⟨rfl, rfl⟩ | ⟨rfl, rfl⟩ | ⟨rfl, rfl⟩ | ⟨rfl, rfl⟩ | ⟨rfl, rfl⟩ | ⟨rfl, rfl⟩ |
      ⟨rfl, rfl⟩ | ⟨rfl, rfl⟩ | ⟨rfl, rfl⟩ | ⟨rfl, rfl⟩ | ⟨rfl, rfl⟩ <;>
    simp [parts, has, typeFlag, fromFlag, toFlag, termFlag, indexFlag, committedIndexFlag, storedIndexFlag,
      lastLogTermFlag, configVersionFlag, configFlag, logsFlag, reasonFlag, speedFlag]

theorem getFlag_lt (e : Event) : e.getFlag < 256 ^ 4 := by
  have hgen (parts : List (Nat × Bool)) (flag : Nat) (hf : flag < 2 ^ 32) (hp : ∀ part ∈ parts, part.1 < 2 ^ 32) :
      parts.foldl (fun flag part => if part.2 then flag ||| part.1 else flag) flag < 2 ^ 32 := by
    induction parts generalizing flag with
    | nil => exact hf
    | cons part parts ih =>
      refine ih _ ?_ fun x hx => hp x (mem_cons_of_mem _ hx)
      dsimp only
      split
      · exact Nat.or_lt_two_pow hf (hp part mem_cons_self)
      · exact hf
  refine hgen e.parts 0 (by decide) ?_
  simp [parts, typeFlag, fromFlag, toFlag, termFlag, indexFlag, committedIndexFlag, storedIndexFlag,
      lastLogTermFlag, configVersionFlag, configFlag, logsFlag, reasonFlag, speedFlag]

private theorem reads_nonzero {α : Type} [BEq α] [LawfulBEq α] {x zero : α} {d : Decoder α}
    {bytes : List UInt8} (h : (bit, x != zero) ∈ e.parts) (hx : Reads d bytes x) :
    Reads (optional (has e.getFlag bit) d zero) (if has e.getFlag bit then bytes else []) x := by
  rw [has_part h]
  exact .optional (fun _ => hx) fun h0 => by simpa using h0

/-- What the format keeps: a configuration with a leader has something else, and every length fits
into 32 bits. -/
structure Event.Encodable (e : Event) : Prop where
  leader : e.config.leader ≠ 0 → e.config.isEmpty = false
  config : e.config.Fits
  logs : e.logs.length < 2 ^ 32 ∧ ∀ l ∈ e.logs, 20 + l.data.length < 2 ^ 32

theorem Config.eq_of_isEmpty {c : Config} (h : c.isEmpty) (hl : c.leader = 0) : c = {} := by
  obtain ⟨mf, mt, rs, ls, role, term, version, leader⟩ := c
  simp only [Config.isEmpty, Bool.and_eq_true, beq_iff_eq, List.isEmpty_iff] at h
  obtain ⟨⟨⟨⟨⟨⟨rfl, rfl⟩, rfl⟩, rfl⟩, rfl⟩, rfl⟩, rfl⟩ := h
  cases hl
  rfl

/-- An empty configuration is not written, and its leader is read as none. -/
private theorem reads_config (h : e.Encodable) : Reads (optional (has e.getFlag configFlag) (Config.unmarshal p) {})
      (if has e.getFlag configFlag then e.config.marshal p else []) e.config := by
  have hpart : (configFlag, !e.config.isEmpty) ∈ e.parts := by simp [parts]
  rw [has_part hpart]
  refine .optional (fun _ => Config.reads_unmarshal h.config) fun h0 => ?_
  have hempty : e.config.isEmpty := by simpa using h0
  refine Config.eq_of_isEmpty hempty ?_
  by_contra hl
  exact Bool.false_ne_true ((h.leader hl).symm.trans hempty)

private theorem reads_logs (h : e.Encodable) :
    Reads (optional (has e.getFlag logsFlag) (p.uint32 >>= fun n => many (readLog p) n.toNat) [])
      (if has e.getFlag logsFlag then p.putUint32 (UInt32.ofNat e.logs.length) ++ e.logs.flatMap (putLog p) else []) e.logs := by
  have hpart : (logsFlag, decide (e.logs.length > 0)) ∈ e.parts := by simp [parts]
  rw [has_part hpart]
  refine .optional (fun _ => reads_list h.logs.1 fun l hl => reads_readLog (h.logs.2 l hl)) fun h0 => ?_
  exact eq_nil_of_length_eq_zero (by simpa using h0)

theorem Event.reads_unmarshal (h : e.Encodable) : Reads (unmarshal p) (e.marshal p) e := by
  simp only [marshal, append_assoc]
  refine (p.reads_uint32 _).bind ?_
  rw [UInt32.toNat_ofNat_of_lt' (getFlag_lt e)]
  exact
    (reads_nonzero (by simp [parts]) (p.reads_uint16 e.type)).bind <|
    (reads_nonzero (by simp [parts]) (p.reads_uint64 e.fromNode)).bind <|
    (reads_nonzero (by simp [parts]) (p.reads_uint64 e.toNode)).bind <|
    (reads_nonzero (by simp [parts]) (p.reads_uint32 e.term)).bind <|
    (reads_nonzero (by simp [parts]) (p.reads_uint64 e.index)).bind <|
    (reads_nonzero (by simp [parts]) (p.reads_uint64 e.committedIndex)).bind <|
    (reads_nonzero (by simp [parts]) (p.reads_uint64 e.storedIndex)).bind <|
    (reads_nonzero (by simp [parts]) (p.reads_uint32 e.lastLogTerm)).bind <|
    (reads_nonzero (by simp [parts]) (p.reads_uint64 e.configVersion)).bind <|
    (reads_config h).bind <| (reads_logs h).bind <|
    (reads_nonzero (by simp [parts]) (p.reads_uint8 e.reason)).bind <|
    (reads_nonzero (by simp [parts]) (p.reads_uint8 e.speed)).result _

theorem Event.yields_unmarshalParts (flag : Nat) : Yields (unmarshalParts p flag) fun e =>
    (e.config.Fits ∧ (has flag configFlag = false → e.config = {})) ∧
      e.logs.length < 2 ^ 32 ∧ ∀ l ∈ e.logs, 20 + l.data.length < 2 ^ 32 := by
  have hconfig : Yields (optional (has flag configFlag) (Config.unmarshal p) {}) fun c =>
      c.Fits ∧ (has flag configFlag = false → c = {}) := by
    cases has flag configFlag with
    | true =>
      intro bytes c rest hx
      exact ⟨Config.yields_unmarshal bytes c rest hx, nofun⟩
    | false => exact .pure ⟨⟨by decide, by decide⟩, fun _ => rfl⟩
  have hlogs : Yields (p.uint32 >>= fun n => many (readLog p) n.toNat) fun logs =>
      logs.length < 2 ^ 32 ∧ ∀ l ∈ logs, 20 + l.data.length < 2 ^ 32 := by
    refine (Yields.any _).bind fun n _ bytes logs rest hx => ?_
    obtain ⟨hlen, hl⟩ := yields_readLog.many n.toNat bytes logs rest hx
    exact ⟨hlen ▸ n.toNat_lt, hl⟩
  exact (Yields.any _).bind fun _ _ => (Yields.any _).bind fun _ _ => (Yields.any _).bind fun _ _ =>
    (Yields.any _).bind fun _ _ => (Yields.any _).bind fun _ _ => (Yields.any _).bind fun _ _ =>
    (Yields.any _).bind fun _ _ => (Yields.any _).bind fun _ _ => (Yields.any _).bind fun _ _ =>
    hconfig.bind fun c hc => (hlogs.optional ⟨by decide, fun l hl => absurd hl not_mem_nil⟩).bind fun logs hl =>
    (Yields.any _).bind fun _ _ => (Yields.any _).bind fun _ _ => .pure ⟨hc, hl⟩

def Event.decoded (p : WKProto) (bytes : List UInt8) : Option Event := ((Event.unmarshal p).run bytes).map (·.1)

/-- An event is read back from its bytes exactly when the format keeps it. -/
theorem event_round_trip (p : WKProto) (e : Event) : Event.decoded p (e.marshal p) = some e ↔ e.Encodable := by
  constructor
  · intro h
    obtain ⟨⟨e', rest⟩, hrun, he⟩ := Option.map_eq_some_iff.mp h
    obtain rfl : e' = e := he
    rw [unmarshal, StateT.run_bind] at hrun
    obtain ⟨⟨flag, mid⟩, hflag, hparts⟩ := Option.bind_eq_some_iff.mp hrun
    have hget : flag.toNat = e'.getFlag := by
      simp only [marshal, append_assoc] at hflag
      rw [p.reads_uint32] at hflag
      have hread : UInt32.ofNat e'.getFlag = flag := congrArg Prod.fst (Option.some.inj hflag)
      rw [← hread]
      exact UInt32.toNat_ofNat_of_lt' (getFlag_lt e')
    dsimp only at hparts
    rw [hget] at hparts
    obtain ⟨⟨hfits, hempty⟩, hlogs⟩ := yields_unmarshalParts _ _ _ _ hparts
    refine ⟨fun hl => ?_, hfits, hlogs⟩
    have hpart : (configFlag, !e'.config.isEmpty) ∈ e'.parts := by simp [parts]
    rw [has_part hpart] at hempty
    by_contra hx
    refine hl (congrArg Config.leader (hempty ?_))
    simpa using hx
  · intro h
    have hread := reads_unmarshal (p := p) h []
    rw [append_nil] at hread
    rw [decoded, hread]
    rfl

/-- A configuration that only names the leader is lost. -/
theorem event_round_trip_fails : ¬∀ e : Event, Event.decoded .twoByte (e.marshal .twoByte) = some e := by
  intro hall
  exact absurd (hall { config := { leader := 1 } }) (by decide +kernel)

end WuKongIM.Raft.Wire
