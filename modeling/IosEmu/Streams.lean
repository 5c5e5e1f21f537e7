import IosEmu.Dyld

/-!
# Bind streams

A bind stream is read twice : by `parseBindInfo` to bind its records, and, if it is the lazy
one, by `parseLazyBindInfo` to find its sequences by their offsets. The second reader knows
fewer opcodes. On a stream whose only opcode that emits is `DO_BIND` the two read the same
opcodes (`readOp_lazy`), and emit for the same segments and symbols
(`parseLazyBindInfo_of_plain`).

A stream sets a symbol at most once for each of its bytes, so however many records it
emits, few symbols occur in them (`parseBindInfo_symbols`).
-/

open SysLib

namespace IosEmu

variable {p : Profile}

/-! ## One turn of the loops -/

section Turn

variable {α β : Type} {elementSize len first : ℕ} {readOp : StreamM α} {count : α → ℕ}
  {f : α → StreamM β} {buf buf' rest : List U8} {op : α} {out : β}

theorem vecRoom_bind_apply {x : Unit → StreamM β} :
    (Prog.ofChecked (vecRoom elementSize len first) >>= x) buf =
      if len + first ≤ vecLimit elementSize then x () buf else .panic .capacityOverflow := by
  unfold vecRoom
  split_ifs <;> rfl

/-- A turn of a loop that makes room before and after it reads the operands. It goes on if there is
room for all that the opcode emits. -/
theorem turn_of_read (hop : readOp buf = .ok op buf') (hfirst : first ≤ count op) :
    (Prog.ofChecked (vecRoom elementSize len first) >>= fun _ => readOp >>= fun op =>
        Prog.ofChecked (vecRoom elementSize len (count op)) >>= fun _ => f op) buf =
      if len + count op ≤ vecLimit elementSize then f op buf' else .panic .capacityOverflow := by
  rw [vecRoom_bind_apply, Prog.bind_apply, hop]
  dsimp only
  rw [vecRoom_bind_apply]
  by_cases hroom : len + count op ≤ vecLimit elementSize
  · rw [if_pos ((Nat.add_le_add_left hfirst len).trans hroom)]
  · rw [if_neg hroom, ite_self]

theorem turn_eq_ok (hfirst : ∀ op buf', readOp buf = .ok op buf' → first ≤ count op) :
    (Prog.ofChecked (vecRoom elementSize len first) >>= fun _ => readOp >>= fun op =>
        Prog.ofChecked (vecRoom elementSize len (count op)) >>= fun _ => f op) buf = .ok out rest ↔
      ∃ op buf', readOp buf = .ok op buf' ∧ len + count op ≤ vecLimit elementSize ∧
        f op buf' = .ok out rest := by
  constructor
  · intro h
    rw [vecRoom_bind_apply] at h
    split_ifs at h
    obtain ⟨op, buf', hop, h⟩ := Prog.bind_eq_ok.1 h
    rw [vecRoom_bind_apply] at h
    split_ifs at h with hroom
    exact ⟨op, buf', hop, hroom, h⟩
  · rintro ⟨op, buf', hop, hroom, h⟩
    rw [turn_of_read hop (hfirst op buf' hop), if_pos hroom, h]

end Turn

namespace Bind

/-- What is pushed first is counted. -/
theorem pushedFirst_le {byte : U8} {buf rest : List U8} {op : BindOp}
    (h : readOp p byte buf = .ok op rest) : pushedFirst byte ≤ op.count := by
  unfold pushedFirst
  split_ifs with hbyte
  · have hread : (readUleb p >>= fun delta => pure (.doBindAddAddr delta)) buf = .ok op rest := by
      rw [← h, readOp, hbyte]
      rfl
    obtain ⟨delta, buf', -, hop⟩ := Prog.bind_eq_ok.1 hread
    obtain ⟨rfl, -⟩ := Outcome.ok.inj hop
    exact le_rfl
  · exact Nat.zero_le _

theorem loop_cons {turns : ℕ} {cur : BindRecord} {recs out : List BindRecord} {byte : U8}
    {buf rest : List U8} :
    loop p (turns + 1) cur recs (byte :: buf) = .ok out rest ↔
      ∃ op buf', readOp p byte buf = .ok op buf' ∧
        recs.length + op.count ≤ vecLimit recordSize ∧
        loop p turns (step cur op).2 (recs ++ (step cur op).1) buf' = .ok out rest :=
  turn_eq_ok fun _ _ => pushedFirst_le

/-- The loop goes on behind an opcode that there is room for. -/
theorem loop_of_read {turns : ℕ} {cur : BindRecord} {recs : List BindRecord} {byte : U8}
    {buf buf' : List U8} {op : BindOp} (hop : readOp p byte buf = .ok op buf') :
    loop p (turns + 1) cur recs (byte :: buf) =
      if recs.length + op.count ≤ vecLimit recordSize then
        loop p turns (step cur op).2 (recs ++ (step cur op).1) buf'
      else .panic .capacityOverflow :=
  turn_of_read hop (pushedFirst_le hop)

theorem emitTimes_symbol (skip : U64) : ∀ (n : ℕ) (cur : BindRecord),
    (emitTimes skip n cur).2.symbol = cur.symbol ∧
      ∀ rec ∈ (emitTimes skip n cur).1, rec.symbol = cur.symbol
  | 0, cur => ⟨rfl, fun rec hrec => absurd hrec List.not_mem_nil⟩
  | n + 1, cur => by
    obtain ⟨hlast, hout⟩ :=
      emitTimes_symbol skip n { cur with segOffset := cur.segOffset + 8 + skip }
    refine ⟨hlast, fun rec hrec => ?_⟩
    rcases List.mem_cons.1 hrec with rfl | hrec
    · rfl
    · exact hout rec hrec

/-- An opcode emits records with the current symbol only. -/
theorem step_symbol (cur : BindRecord) (op : BindOp) :
    ∀ rec ∈ (step cur op).1, rec.symbol = cur.symbol := by
  intro rec hrec
  rcases op with _ | _ | _ | _ | _ | _ | _ | _ | _ | _ | ⟨count, skip⟩
  case doBindTimes => exact (emitTimes_symbol skip count.toNat cur).2 rec hrec
  all_goals simp_all [step]

/-- The records of a stream hold the symbol at its start and at most one more for each
turn. -/
theorem loop_symbols : ∀ {turns : ℕ} {cur : BindRecord} {recs out : List BindRecord}
    {buf rest : List U8}, loop p turns cur recs buf = .ok out rest →
      ∃ syms : List String, syms.length ≤ turns + 1 ∧
        ∀ rec ∈ out, rec ∈ recs ∨ rec.symbol ∈ syms
  | 0, cur, recs, out, buf, rest, h => by
    obtain ⟨rfl, -⟩ : recs = out ∧ buf = rest := by simpa [loop] using h
    exact ⟨[], Nat.zero_le _, fun rec hrec => Or.inl hrec⟩
  | turns + 1, cur, recs, out, [], rest, h => by
    obtain ⟨rfl, -⟩ : recs = out ∧ [] = rest := by
      simpa [loop, nextByte, Prog.bind_apply] using h
    exact ⟨[], Nat.zero_le _, fun rec hrec => Or.inl hrec⟩
  | turns + 1, cur, recs, out, byte :: buf, rest, h => by
    obtain ⟨op, buf', -, -, hloop⟩ := loop_cons.1 h
    obtain ⟨syms, hlen, hsyms⟩ := loop_symbols hloop
    refine ⟨cur.symbol :: syms, Nat.succ_le_succ hlen, fun rec hrec => ?_⟩
    rcases hsyms rec hrec with hrec | hrec
    · rcases List.mem_append.1 hrec with hrec | hrec
      · exact Or.inl hrec
      · rw [step_symbol cur op rec hrec]
        exact Or.inr List.mem_cons_self
    · exact Or.inr (List.mem_cons_of_mem _ hrec)

end Bind

/-- Few symbols occur in the records of a stream. -/
theorem parseBindInfo_symbols {stream rest : List U8} {recs : List BindRecord}
    (h : parseBindInfo p stream = .ok recs rest) :
    ∃ syms : List String, syms.length ≤ stream.length + 1 ∧ ∀ rec ∈ recs, rec.symbol ∈ syms := by
  obtain ⟨syms, hlen, hsyms⟩ := Bind.loop_symbols h
  exact ⟨syms, hlen, fun rec hrec => (hsyms rec hrec).resolve_left List.not_mem_nil⟩

/-! ## Lazy streams -/

/-- An opcode that may stand in a lazy stream : of those that emit, only `DO_BIND`. -/
def BindOp.IsPlain : BindOp → Prop
  | .doBindAddAddr _ => False
  | .doBindScaled _ => False
  | .doBindTimes _ _ => False
  | _ => True

/-- What the lazy reader makes of an opcode. -/
def BindOp.toLazy : BindOp → LazyOp
  | .done => .done
  | .setSymbol _ symbol => .setSymbol symbol
  | .setSegment segIndex segOffset => .setSegment segIndex segOffset
  | .addAddr delta => .addAddr delta
  | .doBind => .doBind
  | _ => .pass

/-- Every opcode that the bind reader meets in a stream is plain. -/
def IsPlainStream (p : Profile) : ℕ → List U8 → Prop
  | 0, _ => True
  | _ + 1, [] => True
  | turns + 1, byte :: buf =>
    ∀ op buf', Bind.readOp p byte buf = .ok op buf' → op.IsPlain ∧ IsPlainStream p turns buf'

/-- The two readers agree on a plain opcode and on where it ends. -/
theorem readOp_lazy {byte : U8} {buf buf' : List U8} {op : BindOp}
    (h : Bind.readOp p byte buf = .ok op buf') (hop : op.IsPlain) :
    LazyBind.readOp p byte buf = .ok op.toLazy buf' := by
  unfold Bind.readOp at h
  unfold LazyBind.readOp
  generalize (byte &&& 0xf0).toNat = code at h ⊢
  split at h
  all_goals simp only [Prog.bind_eq_ok, Prog.pure_apply, Prog.fail_apply, Outcome.ok.injEq,
    reduceCtorEq] at h
  all_goals first
    | (obtain ⟨rfl, rfl⟩ := h; rfl)
    | (obtain ⟨v, buf₁, hv, rfl, rfl⟩ := h
       first
         | exact hop.elim
         | exact Prog.bind_eq_ok.2 ⟨v, _, hv, rfl⟩)
    | (obtain ⟨v, buf₁, hv, w, buf₂, hw, rfl, rfl⟩ := h; exact hop.elim)

theorem LazyBind.loop_cons {total turns : ℕ} {cur : LazyBind} {entries out : List LazyBind}
    {byte : U8} {buf rest : List U8} :
    LazyBind.loop p total (turns + 1) cur entries (byte :: buf) = .ok out rest ↔
      ∃ op buf', LazyBind.readOp p byte buf = .ok op buf' ∧
        LazyBind.loop p total turns
          (LazyBind.step (BitVec.ofNat 64 (total - buf'.length)) cur op).2
          (entries ++ (LazyBind.step (BitVec.ofNat 64 (total - buf'.length)) cur op).1) buf' =
            .ok out rest := by
  change (LazyBind.readOp p byte >>= fun op => Prog.get >>= fun rest' =>
    LazyBind.loop p total turns
      (LazyBind.step (BitVec.ofNat 64 (total - rest'.length)) cur op).2
      (entries ++ (LazyBind.step (BitVec.ofNat 64 (total - rest'.length)) cur op).1)) buf = _ ↔ _
  rw [Prog.bind_eq_ok]
  rfl

/-- The segment and the symbol of a record. -/
def BindRecord.place (rec : BindRecord) : U8 × String :=
  (rec.segIndex, rec.symbol)

/-- The segment and the symbol of an entry. -/
def LazyBind.place (lb : LazyBind) : U8 × String :=
  (lb.segIndex, lb.symbol)

/-- A plain opcode keeps the running values of the readers at one place, and emits there. -/
theorem step_place {cur : BindRecord} {lcur : LazyBind} (h : cur.place = lcur.place) (pos : U64)
    {op : BindOp} (hop : op.IsPlain) :
    (Bind.step cur op).2.place = (LazyBind.step pos lcur op.toLazy).2.place ∧
      (Bind.step cur op).1.map BindRecord.place =
        (LazyBind.step pos lcur op.toLazy).1.map LazyBind.place := by
  have hseg : cur.segIndex = lcur.segIndex := congrArg Prod.fst h
  have hsym : cur.symbol = lcur.symbol := congrArg Prod.snd h
  have hplace : ∀ (o o' : U64), BindRecord.place { cur with segOffset := o } =
      LazyBind.place { lcur with segOffset := o' } := fun _ _ => h
  rcases op with _ | _ | _ | _ | _ | _ | _ | _ | _ | _ | _
  case setSymbol weak symbol => exact ⟨Prod.ext hseg rfl, rfl⟩
  case setSegment segIndex segOffset => exact ⟨Prod.ext rfl hsym, rfl⟩
  case addAddr delta => exact ⟨hplace _ _, rfl⟩
  case doBind => exact ⟨h, congrArg (fun x => [x]) h⟩
  case doBindAddAddr => exact hop.elim
  case doBindScaled => exact hop.elim
  case doBindTimes => exact hop.elim
  all_goals exact ⟨h, rfl⟩

/-- On a plain stream the two readers run in step. -/
theorem lazyLoop_of_plain (total : ℕ) : ∀ {turns : ℕ} {cur : BindRecord} {lcur : LazyBind}
    {recs out : List BindRecord} {entries : List LazyBind} {buf rest : List U8},
    cur.place = lcur.place → recs.map BindRecord.place = entries.map LazyBind.place →
      IsPlainStream p turns buf → Bind.loop p turns cur recs buf = .ok out rest →
      ∃ lout, LazyBind.loop p total turns lcur entries buf = .ok lout rest ∧
        out.map BindRecord.place = lout.map LazyBind.place
  | 0, cur, lcur, recs, out, entries, buf, rest, _, hplaces, _, h => by
    obtain ⟨rfl, rfl⟩ : recs = out ∧ buf = rest := by simpa [Bind.loop] using h
    exact ⟨entries, rfl, hplaces⟩
  | turns + 1, cur, lcur, recs, out, entries, [], rest, _, hplaces, _, h => by
    obtain ⟨rfl, rfl⟩ : recs = out ∧ [] = rest := by
      simpa [Bind.loop, nextByte, Prog.bind_apply] using h
    exact ⟨entries, rfl, hplaces⟩
  | turns + 1, cur, lcur, recs, out, entries, byte :: buf, rest, hcur, hplaces, hplain, h => by
    obtain ⟨op, buf', hop, -, hloop⟩ := Bind.loop_cons.1 h
    obtain ⟨hpop, hpbuf⟩ := hplain op buf' hop
    obtain ⟨hcur', hout⟩ := step_place hcur (BitVec.ofNat 64 (total - buf'.length)) hpop
    obtain ⟨lout, hlout, hsame⟩ := lazyLoop_of_plain total hcur'
      (by rw [List.map_append, List.map_append, hplaces, hout]) hpbuf hloop
    exact ⟨lout, LazyBind.loop_cons.2 ⟨op.toLazy, buf', readOp_lazy hop hpop, hlout⟩, hsame⟩

/-- A plain stream that the bind reader accepts is accepted by the lazy one, which finds the
same segments and symbols in the same order. -/
theorem parseLazyBindInfo_of_plain {stream rest : List U8} {recs : List BindRecord}
    (hplain : IsPlainStream p stream.length stream)
    (h : parseBindInfo p stream = .ok recs rest) :
    ∃ entries, parseLazyBindInfo p stream = .ok entries rest ∧
      recs.map BindRecord.place = entries.map LazyBind.place :=
  lazyLoop_of_plain stream.length rfl rfl hplain h

end IosEmu
