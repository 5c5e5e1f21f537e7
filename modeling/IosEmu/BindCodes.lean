import IosEmu.StreamOperands

/-!
# The language of bind streams

A bind stream is a row of opcodes with their operands (`BindCode`). Each one emits some records and
changes the running values, and the records of a stream are those of its opcodes in turn
(`bindRecords`). The repeated form is given at once : record `i` stands `i * (8 + skip)` bytes after
the first one.

The parser reads this language and nothing else (`sound_readOp`, `complete_readOp`), as long as no
number is longer than ten groups.
-/

open SysLib

namespace IosEmu

variable {p : Profile}

/-- An opcode of a bind stream, with its immediate and the operands behind it. -/
inductive BindCode
  | done (imm : BitVec 4)
  | ordinalImm (ordinal : BitVec 4)
  | ordinalUleb (imm : BitVec 4) (ordinal : Leb)
  | ordinalSpecial (ordinal : BitVec 4)
  | setSymbol (flags : BitVec 4) (symbol : SymbolBytes)
  | setType (kind : BitVec 4)
  | setAddend (imm : BitVec 4) (addend : Leb)
  | setSegment (segIndex : BitVec 4) (segOffset : Leb)
  | addAddr (imm : BitVec 4) (delta : Leb)
  | doBind (imm : BitVec 4)
  | doBindAddAddr (imm : BitVec 4) (delta : Leb)
  | doBindScaled (scale : BitVec 4)
  | doBindTimes (imm : BitVec 4) (count skip : Leb)
  deriving DecidableEq

namespace BindCode

def encode : BindCode → List U8
  | done imm => [opcodeByte 0x0 imm]
  | ordinalImm ordinal => [opcodeByte 0x1 ordinal]
  | ordinalUleb imm ordinal => opcodeByte 0x2 imm :: ordinal.bytes
  | ordinalSpecial ordinal => [opcodeByte 0x3 ordinal]
  | setSymbol flags symbol => opcodeByte 0x4 flags :: (symbol.bytes ++ [0])
  | setType kind => [opcodeByte 0x5 kind]
  | setAddend imm addend => opcodeByte 0x6 imm :: addend.bytes
  | setSegment segIndex segOffset => opcodeByte 0x7 segIndex :: segOffset.bytes
  | addAddr imm delta => opcodeByte 0x8 imm :: delta.bytes
  | doBind imm => [opcodeByte 0x9 imm]
  | doBindAddAddr imm delta => opcodeByte 0xa imm :: delta.bytes
  | doBindScaled scale => [opcodeByte 0xb scale]
  | doBindTimes imm count skip => opcodeByte 0xc imm :: (count.bytes ++ skip.bytes)

/-- The numbers behind an opcode. -/
def operands : BindCode → List Leb
  | ordinalUleb _ ordinal => [ordinal]
  | setAddend _ addend => [addend]
  | setSegment _ segOffset => [segOffset]
  | addAddr _ delta => [delta]
  | doBindAddAddr _ delta => [delta]
  | doBindTimes _ count skip => [count, skip]
  | _ => []

/-- The records that an opcode emits. -/
def emits (cur : BindRecord) : BindCode → List BindRecord
  | doBind _ => [cur]
  | doBindAddAddr _ _ => [cur]
  | doBindScaled _ => [cur]
  | doBindTimes _ count skip => (List.range (uleb count).toNat).map fun i =>
      { cur with segOffset := cur.segOffset + BitVec.ofNat 64 i * (8 + uleb skip) }
  | _ => []

/-- The running values after an opcode. A special ordinal is negative, unless it is zero. -/
def next (cur : BindRecord) : BindCode → BindRecord
  | done _ => cur
  | ordinalImm ordinal => { cur with libOrdinal := BitVec.ofNat 64 ordinal.toNat }
  | ordinalUleb _ ordinal => { cur with libOrdinal := uleb ordinal }
  | ordinalSpecial ordinal =>
    { cur with libOrdinal := if ordinal = 0 then 0 else BitVec.ofInt 64 (ordinal.toNat - 16) }
  | setSymbol flags symbol => { cur with symbol := symbol.text, weak := flags.getLsbD 0 }
  | setType kind => { cur with kind := if kind = 1 then .pointer else .other (kind.setWidth 8) }
  | setAddend _ addend => { cur with addend := sleb addend }
  | setSegment segIndex segOffset =>
    { cur with segIndex := segIndex.setWidth 8, segOffset := uleb segOffset }
  | addAddr _ delta => { cur with segOffset := cur.segOffset + uleb delta }
  | doBind _ => { cur with segOffset := cur.segOffset + 8 }
  | doBindAddAddr _ delta => { cur with segOffset := cur.segOffset + (8 + uleb delta) }
  | doBindScaled scale =>
    { cur with segOffset := cur.segOffset + BitVec.ofNat 64 (8 * (scale.toNat + 1)) }
  | doBindTimes _ count skip =>
    { cur with segOffset := cur.segOffset + uleb count * (8 + uleb skip) }

theorem length_operand_le {c : BindCode} {l : Leb} (h : l ∈ c.operands) :
    l.length ≤ c.encode.length := by
  rw [← l.length_bytes]
  cases c <;> simp only [operands, List.mem_cons, List.not_mem_nil, or_false] at h
  case doBindTimes imm count skip =>
    rw [encode, List.length_cons, List.length_append]
    rcases h with rfl | rfl <;> omega
  all_goals exact h ▸ Nat.le_succ _

/-- In a short stream no number is long. -/
theorem operands_of_length {n : ℕ} {stream : List U8} (hlen : stream.length ≤ n)
    {codes : List BindCode} (hstream : stream = codes.flatMap encode) :
    ∀ c ∈ codes, ∀ l ∈ c.operands, l.length ≤ n := by
  intro c hc l hl
  rw [hstream] at hlen
  exact ((length_operand_le hl).trans (length_enc_le hc)).trans hlen

end BindCode

/-- The records of a row of opcodes. -/
def bindRecords : BindRecord → List BindCode → List BindRecord
  | _, [] => []
  | cur, c :: codes => c.emits cur ++ bindRecords (c.next cur) codes

/-! ## The reader -/

namespace BindCode

/-- What the reader makes of an opcode. -/
def op : BindCode → BindOp
  | done _ => .done
  | ordinalImm ordinal => .setOrdinal ((ordinal.setWidth 8).setWidth 64)
  | ordinalUleb _ ordinal => .setOrdinal (uleb ordinal)
  | ordinalSpecial ordinal => .setOrdinal
      (if ordinal.setWidth 8 = 0 then 0 else (ordinal.setWidth 8 ||| 0xf0 : U8).signExtend 64)
  | setSymbol flags symbol => .setSymbol (flags.setWidth 8 &&& 1 ≠ (0 : U8)) symbol.text
  | setType kind => .setType (BindKind.ofImm (kind.setWidth 8))
  | setAddend _ addend => .setAddend (sleb addend)
  | setSegment segIndex segOffset => .setSegment (segIndex.setWidth 8) (uleb segOffset)
  | addAddr _ delta => .addAddr (uleb delta)
  | doBind _ => .doBind
  | doBindAddAddr _ delta => .doBindAddAddr (uleb delta)
  | doBindScaled scale => .doBindScaled (scale.setWidth 8)
  | doBindTimes _ count skip => .doBindTimes (uleb count) (uleb skip)

/-- No number of an opcode is longer than `n` groups. -/
def Within (n : ℕ) (c : BindCode) : Prop :=
  ∀ l ∈ c.operands, l.length ≤ n

end BindCode

namespace Bind

open BindCode

theorem readUleb_bytes {l : Leb} (hlen : 7 * l.length < 2 ^ 32) (rest : List U8) :
    readUleb p (l.bytes ++ rest) = .ok (uleb l) rest :=
  ulebFrom_zero hlen rest

theorem sound_readOp : Sound (readOp p) encode := by
  intro byte front op rest h
  have huleb : ∀ {f : U64 → BindOp}, (readUleb p >>= fun v => pure (f v)) front = .ok op rest →
      ∃ l : Leb, front = l.bytes ++ rest := by
    intro f hf
    obtain ⟨v, rest', hv, hpure⟩ := Prog.bind_eq_ok.1 hf
    obtain ⟨-, rfl⟩ := Outcome.ok.inj hpure
    exact front_of_ulebFrom hv
  have hpure : ∀ {op' : BindOp}, (pure op' : StreamM BindOp) front = .ok op rest →
      front = rest := fun h' => (Outcome.ok.inj h').2
  obtain ⟨⟨code⟩, imm, rfl⟩ := exists_opcodeByte byte
  unfold readOp at h
  rw [opcodeByte_code, opcodeByte_imm] at h
  fin_cases code
  · exact ⟨.done imm, congrArg _ (hpure h)⟩
  · exact ⟨.ordinalImm imm, congrArg _ (hpure h)⟩
  · obtain ⟨l, hl⟩ := huleb h
    exact ⟨.ordinalUleb imm l, congrArg _ hl⟩
  · exact ⟨.ordinalSpecial imm, congrArg _ (hpure h)⟩
  · obtain ⟨symbol, rest', hsymbol, h⟩ := Prog.bind_eq_ok.1 h
    obtain ⟨-, rfl⟩ := Outcome.ok.inj h
    obtain ⟨bytes, hbytes⟩ := front_of_readSymbol hsymbol
    refine ⟨.setSymbol imm bytes, congrArg _ (hbytes.trans ?_)⟩
    exact (List.append_assoc _ [0] _).symm
  · exact ⟨.setType imm, congrArg _ (hpure h)⟩
  · obtain ⟨addend, rest', haddend, h⟩ := Prog.bind_eq_ok.1 h
    obtain ⟨-, rfl⟩ := Outcome.ok.inj h
    obtain ⟨l, hl⟩ := front_of_slebFrom haddend
    exact ⟨.setAddend imm l, congrArg _ hl⟩
  · obtain ⟨l, hl⟩ := huleb h
    exact ⟨.setSegment imm l, congrArg _ hl⟩
  · obtain ⟨l, hl⟩ := huleb h
    exact ⟨.addAddr imm l, congrArg _ hl⟩
  · exact ⟨.doBind imm, congrArg _ (hpure h)⟩
  · obtain ⟨l, hl⟩ := huleb h
    exact ⟨.doBindAddAddr imm l, congrArg _ hl⟩
  · exact ⟨.doBindScaled imm, congrArg _ (hpure h)⟩
  · obtain ⟨count, middle, hcount, h⟩ := Prog.bind_eq_ok.1 h
    obtain ⟨skip, rest', hskip, h⟩ := Prog.bind_eq_ok.1 h
    obtain ⟨-, rfl⟩ := Outcome.ok.inj h
    obtain ⟨l, hl⟩ := front_of_ulebFrom hcount
    obtain ⟨l', hl'⟩ := front_of_ulebFrom hskip
    rw [hl'] at hl
    refine ⟨.doBindTimes imm l l', congrArg _ (hl.trans ?_)⟩
    exact (List.append_assoc _ _ _).symm
  all_goals cases h

theorem complete_readOp : Complete (readOp p) encode op (Within 10) := by
  intro c rest hwithin
  have hfits : ∀ {l : Leb}, l.length ≤ 10 → 7 * l.length < 2 ^ 32 := fun hl => by omega
  have huleb : ∀ {f : U64 → BindOp} {l : Leb}, l.length ≤ 10 →
      (readUleb p >>= fun v => pure (f v)) (l.bytes ++ rest) = .ok (f (uleb l)) rest :=
    fun hl => Prog.bind_eq_ok.2 ⟨_, _, readUleb_bytes (hfits hl) rest, rfl⟩
  cases c
  all_goals
    refine ⟨_, _, rfl, ?_⟩
    unfold readOp
    rw [opcodeByte_code, opcodeByte_imm]
  case ordinalUleb imm l => exact huleb (hwithin l List.mem_cons_self)
  case setSymbol flags symbol =>
    rw [List.append_assoc]
    exact Prog.bind_eq_ok.2 ⟨_, _, readSymbol_bytes symbol rest, rfl⟩
  case setAddend imm l =>
    exact Prog.bind_eq_ok.2 ⟨_, _, readSleb_bytes (hwithin l List.mem_cons_self) rest, rfl⟩
  case setSegment segIndex l => exact huleb (hwithin l List.mem_cons_self)
  case addAddr imm l => exact huleb (hwithin l List.mem_cons_self)
  case doBindAddAddr imm l => exact huleb (hwithin l List.mem_cons_self)
  case doBindTimes imm l l' =>
    have hcount := hfits (hwithin l List.mem_cons_self)
    have hskip := hwithin l' (List.mem_cons_of_mem l List.mem_cons_self)
    rw [List.append_assoc]
    exact Prog.bind_eq_ok.2 ⟨_, _, readUleb_bytes hcount _, huleb hskip⟩
  all_goals rfl

/-! ## The records -/

theorem emitTimes_eq (skip : U64) : ∀ (n : ℕ) (cur : BindRecord), emitTimes skip n cur =
    ((List.range n).map fun i =>
      { cur with segOffset := cur.segOffset + BitVec.ofNat 64 i * (8 + skip) },
    { cur with segOffset := cur.segOffset + BitVec.ofNat 64 n * (8 + skip) })
  | 0, cur => by simp [emitTimes]
  | n + 1, cur => by
    have hshift : ∀ i, cur.segOffset + 8 + skip + BitVec.ofNat 64 i * (8 + skip) =
        cur.segOffset + BitVec.ofNat 64 (i + 1) * (8 + skip) := by
      intro i
      rw [BitVec.ofNat_add, BitVec.add_mul, BitVec.one_mul]
      ac_rfl
    rw [emitTimes, emitTimes_eq skip n, List.range_succ_eq_map, List.map_cons, List.map_map]
    simp only [hshift]
    simp [Function.comp_def]

/-- The immediate of an opcode, as the reader sees it. -/
theorem imm_cases : ∀ imm : BitVec 4,
    (imm.setWidth 8).setWidth 64 = BitVec.ofNat 64 imm.toNat ∧
    (if imm.setWidth 8 = (0 : U8) then 0 else (imm.setWidth 8 ||| 0xf0 : U8).signExtend 64) =
      (if imm = 0 then 0 else BitVec.ofInt 64 (imm.toNat - 16)) ∧
    decide (imm.setWidth 8 &&& 1 ≠ (0 : U8)) = imm.getLsbD 0 ∧
    BindKind.ofImm (imm.setWidth 8) = (if imm = 1 then .pointer else .other (imm.setWidth 8)) ∧
    (8 : U64) + (imm.setWidth 8).setWidth 64 * 8 = BitVec.ofNat 64 (8 * (imm.toNat + 1)) := by
  decide

theorem step_op (cur : BindRecord) (c : BindCode) : step cur c.op = (c.emits cur, c.next cur) := by
  cases c with
  | ordinalImm imm => simp only [step, op, emits, next, (imm_cases imm).1]
  | ordinalSpecial imm => simp only [step, op, emits, next, (imm_cases imm).2.1]
  | setSymbol imm symbol => simp only [step, op, emits, next, (imm_cases imm).2.2.1]
  | setType imm => simp only [step, op, emits, next, (imm_cases imm).2.2.2.1]
  | doBindAddAddr imm delta => simp only [step, op, emits, next, BitVec.add_assoc]
  | doBindScaled imm =>
    simp only [step, op, emits, next, BitVec.add_assoc, (imm_cases imm).2.2.2.2]
  | doBindTimes imm count skip =>
    simp only [step, op, emits, next, emitTimes_eq, BitVec.ofNat_toNat, BitVec.setWidth_eq]
  | _ => rfl

theorem emitted_op : ∀ (codes : List BindCode) (cur : BindRecord),
    emitted step cur (codes.map op) = bindRecords cur codes
  | [], _ => rfl
  | c :: codes, cur => by
    rw [List.map_cons, emitted, step_op, emitted_op codes, bindRecords]

end Bind

theorem parseBindInfo_eq_ok_iff {stream rest : List U8} {recs : List BindRecord} :
    parseBindInfo p stream = .ok recs rest ↔ rest = [] ∧ ∃ ops, Items (Bind.readOp p) stream ops ∧
      recs.length ≤ vecLimit Bind.recordSize ∧
      recs = emitted Bind.step Bind.start (ops.map Prod.fst) :=
  collect_eq_ok_iff Bind.length_step (fun byte _ _ _ h => (Bind.shrinks_readOp p byte).ok h)
    (by rintro (_ | n) cur recs <;> rfl) (fun _ _ _ _ _ _ _ => Bind.loop_cons) le_rfl

/-- A stream that is a row of opcodes is decoded to their records, if a vector can hold them. -/
theorem parseBindInfo_codes {codes : List BindCode} (hwithin : ∀ c ∈ codes, c.Within 10) :
    parseBindInfo p (codes.flatMap BindCode.encode) =
      if (bindRecords Bind.start codes).length ≤ vecLimit Bind.recordSize then
        .ok (bindRecords Bind.start codes) []
      else .panic .capacityOverflow := by
  have hitems := items_codes (@Bind.complete_readOp p) hwithin
  have hrecs : emitted Bind.step Bind.start
      ((marks BindCode.encode BindCode.op codes).map Prod.fst) = bindRecords Bind.start codes := by
    rw [map_fst_marks, Bind.emitted_op]
  split_ifs with hroom
  · exact parseBindInfo_eq_ok_iff.2 ⟨rfl, _, hitems, hroom, hrecs.symm⟩
  · refine collect_eq_panic Bind.length_step
      (fun byte _ _ _ h => (Bind.shrinks_readOp p byte).ok h)
      (fun _ _ _ _ _ _ _ => Bind.loop_of_read) le_rfl hitems ?_
    rwa [hrecs]

/-- A stream that is decoded is a row of opcodes. -/
theorem exists_codes_of_parseBindInfo {stream rest : List U8} {recs : List BindRecord}
    (h : parseBindInfo p stream = .ok recs rest) :
    ∃ codes : List BindCode, stream = codes.flatMap BindCode.encode := by
  obtain ⟨-, ops, hops, -⟩ := parseBindInfo_eq_ok_iff.1 h
  exact exists_codes_of_items Bind.sound_readOp hops

/-- The decoder accepts the rows of opcodes whose records fit into a vector, and emits the records
that they mean. -/
theorem bind_stream_decoding (p : Profile) (stream : List U8)
    (hwithin : ∀ codes : List BindCode, stream = codes.flatMap BindCode.encode →
      ∀ c ∈ codes, ∀ l ∈ c.operands, l.length ≤ 10) :
    ((parseBindInfo p stream).isOk = true ↔
      ∃ codes : List BindCode, stream = codes.flatMap BindCode.encode ∧
        (bindRecords Bind.start codes).length ≤ vecLimit Bind.recordSize) ∧
    ∀ codes : List BindCode, stream = codes.flatMap BindCode.encode →
      (bindRecords Bind.start codes).length ≤ vecLimit Bind.recordSize →
        parseBindInfo p stream = .ok (bindRecords Bind.start codes) [] := by
  have hcodes : ∀ codes : List BindCode, stream = codes.flatMap BindCode.encode →
      parseBindInfo p stream =
        if (bindRecords Bind.start codes).length ≤ vecLimit Bind.recordSize then
          .ok (bindRecords Bind.start codes) []
        else .panic .capacityOverflow := by
    intro codes hstream
    have h := hwithin codes hstream
    rw [hstream]
    exact parseBindInfo_codes h
  refine ⟨⟨fun h => ?_, fun ⟨codes, hstream, hroom⟩ => ?_⟩, fun codes hstream hroom => ?_⟩
  · obtain ⟨recs, rest, hok⟩ := Outcome.isOk_iff.1 h
    obtain ⟨codes, hstream⟩ := exists_codes_of_parseBindInfo hok
    refine ⟨codes, hstream, ?_⟩
    by_contra hroom
    rw [hcodes codes hstream, if_neg hroom] at hok
    cases hok
  · rw [hcodes codes hstream, if_pos hroom]
    rfl
  · rw [hcodes codes hstream, if_pos hroom]

/-- Two records of one symbol. -/
theorem bind_stream_decoding_symbol :
    parseBindInfo .debug [0x41, 0x61, 0x00, 0x73, 0x90, 0x01, 0x90, 0xc0, 1, 8] =
      .ok [⟨3, 144, "a", 0, 0, .pointer, true⟩, ⟨3, 152, "a", 0, 0, .pointer, true⟩] [] := by
  let codes : List BindCode := [.setSymbol 1 ⟨[0x61], by decide⟩,
    .setSegment 3 (.more 0x10 (.last 1)), .doBind 0, .doBindTimes 0 (.last 1) (.last 8)]
  have h := (bind_stream_decoding .debug (codes.flatMap BindCode.encode) ?_).2 codes rfl (by decide)
  · exact h.trans (by decide)
  · intro codes' hstream
    exact BindCode.operands_of_length (by decide) hstream

/-- One opcode, with a number of ten bytes and one of one byte, that asks for `2 ^ 64 - 1` records :
a row of opcodes that is not decoded. -/
theorem bind_stream_decoding_repeat : ∃ (stream : List U8) (codes : List BindCode),
    stream = codes.flatMap BindCode.encode ∧ stream.length = 12 ∧
      (∀ c ∈ codes, ∀ l ∈ c.operands, l.length ≤ 10) ∧
      ∀ p, parseBindInfo p stream = .panic .capacityOverflow := by
  let most : Leb := .more 0x7f (.more 0x7f (.more 0x7f (.more 0x7f (.more 0x7f (.more 0x7f
    (.more 0x7f (.more 0x7f (.more 0x7f (.last 1)))))))))
  refine ⟨_, [.doBindTimes 0 most (.last 0)], rfl, rfl, by decide, ?_⟩
  rintro (_ | _) <;> rfl

end IosEmu
