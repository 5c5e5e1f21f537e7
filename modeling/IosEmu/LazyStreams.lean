import IosEmu.BindCodes

/-!
# Two readers of one lazy stream

The loader binds the slots of the lazy stream as `parseBindInfo` lists them, and the binder patches
them as `parseLazyBindInfo` does. On plain opcodes the readers agree on where each opcode ends
(`items_toLazy`) and on segments and symbols. They do not agree on offsets : `DO_BIND` goes on by
eight bytes for the first reader and stays for the second. So they list the same slots exactly if no
slot is bound at an offset that a `DO_BIND` has left behind (`lazy_slots_eq_iff`).
-/

open SysLib

namespace IosEmu

variable {p : Profile}

/-- The slot that a record is about, and its symbol. -/
def BindRecord.slot (rec : BindRecord) : U8 × U64 × String :=
  (rec.segIndex, rec.segOffset, rec.symbol)

/-- The slot that an entry is about, and its symbol. -/
def LazyBind.slot (lb : LazyBind) : U8 × U64 × String :=
  (lb.segIndex, lb.segOffset, lb.symbol)

/-- Whether the current slot is bound after an opcode, `bound` before it. -/
def BindOp.boundAfter (bound : Bool) : BindOp → Bool
  | .setSegment _ _ => false
  | .doBind => true
  | _ => bound

/-- A segment and an offset are set between any two `DO_BIND`. `bound` says that one was met since
they were last set. -/
def BindOp.SetBetween : Bool → List BindOp → Prop
  | _, [] => True
  | bound, op :: ops => (op = .doBind → bound = false) ∧ SetBetween (op.boundAfter bound) ops

instance BindOp.decidableSetBetween : ∀ (bound : Bool) (ops : List BindOp),
    Decidable (SetBetween bound ops)
  | _, [] => .isTrue trivial
  | bound, op :: ops =>
    have := decidableSetBetween (op.boundAfter bound) ops
    inferInstanceAs (Decidable (_ ∧ _))

instance : DecidablePred BindOp.IsPlain
  | .doBindAddAddr _ => .isFalse id
  | .doBindScaled _ => .isFalse id
  | .doBindTimes _ _ => .isFalse id
  | .done => .isTrue trivial
  | .setOrdinal _ => .isTrue trivial
  | .setSymbol _ _ => .isTrue trivial
  | .setType _ => .isTrue trivial
  | .setAddend _ => .isTrue trivial
  | .setSegment _ _ => .isTrue trivial
  | .addAddr _ => .isTrue trivial
  | .doBind => .isTrue trivial

/-! ## What the readers list -/

/-- What a row of opcodes emits for the lazy reader. Each comes with what is left behind it. -/
def LazyBind.emitted (total : ℕ) : LazyBind → List (LazyOp × ℕ) → List LazyBind
  | _, [] => []
  | cur, (op, left) :: ops =>
    (LazyBind.step (BitVec.ofNat 64 (total - left)) cur op).1 ++
      emitted total (LazyBind.step (BitVec.ofNat 64 (total - left)) cur op).2 ops

theorem LazyBind.foldl_emitted (total : ℕ) : ∀ (ops : List (LazyOp × ℕ)) (cur : LazyBind)
    (entries : List LazyBind),
    (ops.foldl (fun t x => ((step (BitVec.ofNat 64 (total - x.2)) t.1 x.1).2,
      t.2 ++ (step (BitVec.ofNat 64 (total - x.2)) t.1 x.1).1)) (cur, entries)).2 =
      entries ++ emitted total cur ops
  | [], cur, entries => (List.append_nil entries).symm
  | x :: ops, cur, entries => by
    rw [List.foldl_cons, foldl_emitted total ops, emitted, List.append_assoc]

theorem parseLazyBindInfo_eq_ok_iff {stream rest : List U8} {entries : List LazyBind} :
    parseLazyBindInfo p stream = .ok entries rest ↔ rest = [] ∧ ∃ ops,
      Items (LazyBind.readOp p) stream ops ∧
        entries = LazyBind.emitted stream.length ⟨0, 0, 0, ""⟩ ops := by
  have hiff := @loop_eq_ok_iff _ _ _ _ (LazyBind.readOp p) _ _
    (fun n (t : LazyBind × List LazyBind) => LazyBind.loop p stream.length n t.1 t.2)
    (fun t op left => ((LazyBind.step (BitVec.ofNat 64 (stream.length - left)) t.1 op).2,
      t.2 ++ (LazyBind.step (BitVec.ofNat 64 (stream.length - left)) t.1 op).1))
    (fun _ _ => True) Prod.snd (fun byte _ _ _ h => (LazyBind.shrinks_readOp p byte).ok h)
    (by rintro (_ | n) t <;> rfl)
    (fun n t byte front out rest => by simpa only [true_and] using LazyBind.loop_cons)
    stream.length (⟨0, 0, 0, ""⟩, []) stream rest entries le_rfl
  refine hiff.trans (and_congr_right fun _ => ?_)
  simp only [LazyBind.foldl_emitted, List.nil_append, allPass_true, true_and]

/-- The lazy reader reads plain opcodes as the bind reader does. -/
theorem items_toLazy {stream : List U8} {ops : List (BindOp × ℕ)}
    (h : Items (Bind.readOp p) stream ops) (hplain : ∀ x ∈ ops, x.1.IsPlain) :
    Items (LazyBind.readOp p) stream (ops.map (Prod.map BindOp.toLazy id)) := by
  induction h with
  | nil => exact .nil
  | cons hread _ ih =>
    exact .cons (readOp_lazy hread (hplain _ List.mem_cons_self))
      (ih fun x hx => hplain x (List.mem_cons_of_mem _ hx))

/-! ## Where they agree -/

/-- The running values of the two readers : the offsets are the same, or the lazy reader has stayed
at a slot that the other one has left. -/
def InStep (bound : Bool) (cur : BindRecord) (lcur : LazyBind) : Prop :=
  cur.place = lcur.place ∧ cur.segOffset = lcur.segOffset + if bound then 8 else 0

/-- An opcode keeps the readers in step, and emits the same slots unless the current one is bound
again. -/
theorem inStep_step {bound : Bool} {cur : BindRecord} {lcur : LazyBind}
    (h : InStep bound cur lcur) (pos : U64) {op : BindOp} (hop : op.IsPlain)
    (hfree : op = .doBind → bound = false) :
    InStep (op.boundAfter bound) (Bind.step cur op).2 (LazyBind.step pos lcur op.toLazy).2 ∧
      (LazyBind.step pos lcur op.toLazy).1.map LazyBind.slot =
        (Bind.step cur op).1.map BindRecord.slot := by
  obtain ⟨hplace', -⟩ := step_place h.1 pos hop
  obtain ⟨hplace, hoff⟩ := h
  have hseg : cur.segIndex = lcur.segIndex := congrArg Prod.fst hplace
  have hsym : cur.symbol = lcur.symbol := congrArg Prod.snd hplace
  refine ⟨⟨hplace', ?_⟩, ?_⟩
  · rcases op with _ | _ | _ | _ | _ | _ | _ | _ | _ | _ | _
    case setSegment segIndex segOffset => exact (BitVec.add_zero _).symm
    case addAddr delta =>
      change cur.segOffset + delta = lcur.segOffset + delta + _
      rw [hoff, BitVec.add_assoc, BitVec.add_assoc, BitVec.add_comm delta]
      rfl
    case doBind =>
      obtain rfl := hfree rfl
      change cur.segOffset + 8 = lcur.segOffset + 8
      rw [hoff]
      exact congrArg (· + 8) (BitVec.add_zero _)
    case doBindAddAddr => exact hop.elim
    case doBindScaled => exact hop.elim
    case doBindTimes => exact hop.elim
    all_goals exact hoff
  · rcases op with _ | _ | _ | _ | _ | _ | _ | _ | _ | _ | _
    case doBind =>
      obtain rfl := hfree rfl
      have hoff' : cur.segOffset = lcur.segOffset := hoff.trans (BitVec.add_zero _)
      change [(lcur.segIndex, lcur.segOffset, lcur.symbol)] =
        [(cur.segIndex, cur.segOffset, cur.symbol)]
      rw [hseg, hsym, hoff']
    case doBindAddAddr => exact hop.elim
    case doBindScaled => exact hop.elim
    case doBindTimes => exact hop.elim
    all_goals rfl

theorem emitted_slots_eq_iff (total : ℕ) : ∀ {ops : List (BindOp × ℕ)} {bound : Bool}
    {cur : BindRecord} {lcur : LazyBind}, (∀ x ∈ ops, x.1.IsPlain) → InStep bound cur lcur →
      ((LazyBind.emitted total lcur (ops.map (Prod.map BindOp.toLazy id))).map LazyBind.slot =
        (emitted Bind.step cur (ops.map Prod.fst)).map BindRecord.slot ↔
      BindOp.SetBetween bound (ops.map Prod.fst))
  | [], _, _, _, _, _ => iff_of_true rfl trivial
  | (op, left) :: ops, bound, cur, lcur, hplain, hstep => by
    have hops : ∀ x ∈ ops, x.1.IsPlain := fun x hx => hplain x (List.mem_cons_of_mem _ hx)
    simp only [List.map_cons, Prod.map_apply, id_eq, LazyBind.emitted, emitted,
      BindOp.SetBetween, List.map_append]
    by_cases hfree : op = .doBind → bound = false
    · obtain ⟨hstep', hslots⟩ := inStep_step hstep (BitVec.ofNat 64 (total - left))
        (hplain _ List.mem_cons_self) hfree
      rw [hslots, List.append_right_inj, emitted_slots_eq_iff total hops hstep', and_iff_right hfree]
    · -- The bind reader is eight bytes ahead of the lazy one.
      obtain ⟨rfl, hbound⟩ := Classical.not_imp.1 hfree
      rw [Bool.not_eq_false] at hbound
      subst hbound
      refine iff_of_false (fun h => ?_) fun h => hfree h.1
      have hoff : lcur.segOffset = cur.segOffset :=
        congrArg (fun x : U8 × U64 × String => x.2.1) (List.cons.inj h).1
      have height : lcur.segOffset = lcur.segOffset + 8 := hoff.trans hstep.2
      exact absurd (BitVec.self_eq_add_right.1 height) (by decide)

/-- The readers list the same slots of a lazy stream exactly if the offset is set between any two
`DO_BIND`. -/
theorem lazy_slots_eq_iff (p : Profile) (stream rest : List U8) (recs : List BindRecord)
    (ops : List (BindOp × ℕ)) (haccepted : parseBindInfo p stream = .ok recs rest)
    (hops : Items (Bind.readOp p) stream ops) (hplain : ∀ x ∈ ops, x.1.IsPlain) :
    (∃ entries rest', parseLazyBindInfo p stream = .ok entries rest' ∧
      entries.map LazyBind.slot = recs.map BindRecord.slot) ↔
      BindOp.SetBetween false (ops.map Prod.fst) := by
  obtain ⟨-, ops', hops', -, rfl⟩ := parseBindInfo_eq_ok_iff.1 haccepted
  obtain rfl := hops.unique hops'
  have hlazy := items_toLazy hops hplain
  have hiff := @emitted_slots_eq_iff stream.length ops false Bind.start ⟨0, 0, 0, ""⟩ hplain
    ⟨rfl, rfl⟩
  rw [← hiff]
  constructor
  · rintro ⟨entries, rest', hentries, hslots⟩
    obtain ⟨-, lops, hlops, rfl⟩ := parseLazyBindInfo_eq_ok_iff.1 hentries
    rwa [hlazy.unique hlops]
  · intro hslots
    exact ⟨_, [], parseLazyBindInfo_eq_ok_iff.2 ⟨rfl, _, hlazy, rfl⟩, hslots⟩

/-- Two symbols, with the offset set before each `DO_BIND`. -/
theorem lazy_slots_eq_pair :
    ∃ entries rest, parseLazyBindInfo .debug
        [0x72, 0x10, 0x40, 0x61, 0x00, 0x90, 0x72, 0x20, 0x40, 0x62, 0x00, 0x90, 0x00] =
      .ok entries rest ∧ entries.map LazyBind.slot = [(2, 16, "a"), (2, 32, "b")] := by
  let codes : List BindCode := [.setSegment 2 (.last 0x10), .setSymbol 0 ⟨[0x61], by decide⟩,
    .doBind 0, .setSegment 2 (.last 0x20), .setSymbol 0 ⟨[0x62], by decide⟩, .doBind 0, .done 0]
  have hwithin : ∀ c ∈ codes, c.Within 10 := by
    unfold BindCode.Within
    decide
  have hops := items_codes (@Bind.complete_readOp .debug) hwithin
  exact (lazy_slots_eq_iff .debug _ [] [⟨2, 16, "a", 0, 0, .pointer, false⟩,
    ⟨2, 32, "b", 0, 0, .pointer, false⟩] _ rfl hops (by decide)).2 (by decide)

/-- Two binds in a row : the bind reader lists the slots at 16 and at 24, the lazy one lists the slot
at 16 twice. -/
theorem lazy_slots_two_binds : ∃ stream recs ops,
    parseBindInfo .release stream = .ok recs [] ∧ Items (Bind.readOp .release) stream ops ∧
      (∀ x ∈ ops, x.1.IsPlain) ∧ ¬ ∃ entries rest,
        parseLazyBindInfo .release stream = .ok entries rest ∧
          entries.map LazyBind.slot = recs.map BindRecord.slot := by
  let codes : List BindCode := [.setSegment 2 (.last 0x10), .setSymbol 0 ⟨[0x61], by decide⟩,
    .doBind 0, .doBind 0]
  have hops := items_codes (@Bind.complete_readOp .release)
    (@BindCode.operands_of_length 10 _ (by decide) codes rfl)
  have hlazy : parseLazyBindInfo .release (codes.flatMap BindCode.encode) =
    .ok [⟨0, 2, 16, "a"⟩, ⟨0, 2, 16, "a"⟩] [] := rfl
  refine ⟨codes.flatMap BindCode.encode, [⟨2, 16, "a", 0, 0, .pointer, false⟩,
    ⟨2, 24, "a", 0, 0, .pointer, false⟩], _, rfl, hops, by decide, ?_⟩
  rintro ⟨entries, rest, hentries, hslots⟩
  obtain ⟨rfl, -⟩ := Outcome.ok.inj (hlazy.symm.trans hentries)
  exact absurd hslots (by decide)

end IosEmu
