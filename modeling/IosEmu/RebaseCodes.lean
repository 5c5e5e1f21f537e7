import IosEmu.StreamOperands

/-!
# The language of rebase streams

A rebase stream is a row of opcodes with their operands (`RebaseCode`), and lists the locations of
its opcodes in turn (`rebaseLocations`). Four of the opcodes only abbreviate others : `expand` spells
them out with the rebase of one pointer and `ADD_ADDR`, and a stream lists the same locations with an
opcode in it spelled out (`rebaseLocations_expand`).
-/

open SysLib

namespace IosEmu

variable {p : Profile}

/-- An opcode of a rebase stream, with its immediate and the operands behind it. -/
inductive RebaseCode
  | done (imm : BitVec 4)
  | setType (rtype : BitVec 4)
  | setSegment (segIndex : BitVec 4) (segOffset : Leb)
  | addAddr (imm : BitVec 4) (delta : Leb)
  | addAddrScaled (scale : BitVec 4)
  | rebaseTimesImm (count : BitVec 4)
  | rebaseTimesUleb (imm : BitVec 4) (count : Leb)
  | rebaseAddAddr (imm : BitVec 4) (delta : Leb)
  | rebaseTimesSkipping (imm : BitVec 4) (count skip : Leb)
  deriving DecidableEq

namespace RebaseCode

def encode : RebaseCode → List U8
  | done imm => [opcodeByte 0x0 imm]
  | setType rtype => [opcodeByte 0x1 rtype]
  | setSegment segIndex segOffset => opcodeByte 0x2 segIndex :: segOffset.bytes
  | addAddr imm delta => opcodeByte 0x3 imm :: delta.bytes
  | addAddrScaled scale => [opcodeByte 0x4 scale]
  | rebaseTimesImm count => [opcodeByte 0x5 count]
  | rebaseTimesUleb imm count => opcodeByte 0x6 imm :: count.bytes
  | rebaseAddAddr imm delta => opcodeByte 0x7 imm :: delta.bytes
  | rebaseTimesSkipping imm count skip => opcodeByte 0x8 imm :: (count.bytes ++ skip.bytes)

/-- The numbers behind an opcode. -/
def operands : RebaseCode → List Leb
  | setSegment _ segOffset => [segOffset]
  | addAddr _ delta => [delta]
  | rebaseTimesUleb _ count => [count]
  | rebaseAddAddr _ delta => [delta]
  | rebaseTimesSkipping _ count skip => [count, skip]
  | _ => []

end RebaseCode

/-- The location `i` pointers further on, with `skip` bytes behind each. -/
def RebaseLocation.advance (loc : RebaseLocation) (i : ℕ) (skip : U64) : RebaseLocation :=
  { loc with segOffset := loc.segOffset + BitVec.ofNat 64 i * (8 + skip) }

namespace RebaseCode

/-- The locations that an opcode lists. -/
def emits (cur : RebaseLocation) : RebaseCode → List RebaseLocation
  | rebaseTimesImm count => (List.range count.toNat).map fun i => cur.advance i 0
  | rebaseTimesUleb _ count => (List.range (uleb count).toNat).map fun i => cur.advance i 0
  | rebaseAddAddr _ _ => [cur]
  | rebaseTimesSkipping _ count skip =>
    (List.range (uleb count).toNat).map fun i => cur.advance i (uleb skip)
  | _ => []

/-- The running values after an opcode. -/
def next (cur : RebaseLocation) : RebaseCode → RebaseLocation
  | done _ => cur
  | setType rtype => { cur with rtype := rtype.setWidth 8 }
  | setSegment segIndex segOffset =>
    { cur with segIndex := segIndex.setWidth 8, segOffset := uleb segOffset }
  | addAddr _ delta => { cur with segOffset := cur.segOffset + uleb delta }
  | addAddrScaled scale => { cur with segOffset := cur.segOffset + BitVec.ofNat 64 (8 * scale.toNat) }
  | rebaseTimesImm count => cur.advance count.toNat 0
  | rebaseTimesUleb _ count => cur.advance (uleb count).toNat 0
  | rebaseAddAddr _ delta => cur.advance 1 (uleb delta)
  | rebaseTimesSkipping _ count skip => cur.advance (uleb count).toNat (uleb skip)

/-- An opcode spelled out : pointers are rebased one at a time, and `ADD_ADDR` goes on. -/
def expand : RebaseCode → List RebaseCode
  | rebaseTimesImm count => List.replicate count.toNat (rebaseTimesImm 1)
  | rebaseTimesUleb _ count => List.replicate (uleb count).toNat (rebaseTimesImm 1)
  | rebaseAddAddr _ delta => [rebaseTimesImm 1, addAddr 0 delta]
  | rebaseTimesSkipping _ count skip =>
    (List.replicate (uleb count).toNat [rebaseTimesImm 1, addAddr 0 skip]).flatten
  | c => [c]

theorem length_operand_le {c : RebaseCode} {l : Leb} (h : l ∈ c.operands) :
    l.length ≤ c.encode.length := by
  rw [← l.length_bytes]
  cases c <;> simp only [operands, List.mem_cons, List.not_mem_nil, or_false] at h
  case rebaseTimesSkipping imm count skip =>
    rw [encode, List.length_cons, List.length_append]
    rcases h with rfl | rfl <;> omega
  all_goals exact h ▸ Nat.le_succ _

/-- The numbers behind an opcode are short enough to be counted in 32 bits. -/
def Fits (c : RebaseCode) : Prop :=
  ∀ l ∈ c.operands, 7 * l.length < 2 ^ 32

theorem fits_of_length {codes : List RebaseCode} (hlen : (codes.flatMap encode).length < 2 ^ 29) :
    ∀ c ∈ codes, c.Fits := by
  intro c hc l hl
  have := (length_operand_le hl).trans (length_enc_le hc)
  omega

end RebaseCode

/-- The locations of a row of opcodes. -/
def rebaseLocations : RebaseLocation → List RebaseCode → List RebaseLocation
  | _, [] => []
  | cur, c :: codes => c.emits cur ++ rebaseLocations (c.next cur) codes

/-! ## The reader -/

namespace RebaseCode

/-- What the reader makes of an opcode. -/
def op : RebaseCode → RebaseOp
  | done _ => .done
  | setType rtype => .setType (rtype.setWidth 8)
  | setSegment segIndex segOffset => .setSegment (segIndex.setWidth 8) (uleb segOffset)
  | addAddr _ delta => .addAddr (uleb delta)
  | addAddrScaled scale => .addAddr ((scale.setWidth 8).setWidth 64 * 8)
  | rebaseTimesImm count => .rebaseTimes ((count.setWidth 8).setWidth 64) 0
  | rebaseTimesUleb _ count => .rebaseTimes (uleb count) 0
  | rebaseAddAddr _ delta => .rebaseAddAddr (uleb delta)
  | rebaseTimesSkipping _ count skip => .rebaseTimes (uleb count) (uleb skip)

end RebaseCode

namespace Rebase

open RebaseCode

theorem readUleb_bytes {l : Leb} (hlen : 7 * l.length < 2 ^ 32) (rest : List U8) :
    readUleb p (l.bytes ++ rest) = .ok (uleb l) rest :=
  ulebFrom_zero hlen rest

theorem sound_readOp : Sound (readOp p) encode := by
  intro byte front op rest h
  have huleb : ∀ {f : U64 → RebaseOp}, (readUleb p >>= fun v => pure (f v)) front = .ok op rest →
      ∃ l : Leb, front = l.bytes ++ rest := by
    intro f hf
    obtain ⟨v, rest', hv, hpure⟩ := Prog.bind_eq_ok.1 hf
    obtain ⟨-, rfl⟩ := Outcome.ok.inj hpure
    exact front_of_ulebFrom hv
  have hpure : ∀ {op' : RebaseOp}, (pure op' : StreamM RebaseOp) front = .ok op rest →
      front = rest := fun h' => (Outcome.ok.inj h').2
  obtain ⟨⟨code⟩, imm, rfl⟩ := exists_opcodeByte byte
  unfold readOp at h
  rw [opcodeByte_code, opcodeByte_imm] at h
  fin_cases code
  · exact ⟨.done imm, congrArg _ (hpure h)⟩
  · exact ⟨.setType imm, congrArg _ (hpure h)⟩
  · obtain ⟨l, hl⟩ := huleb h
    exact ⟨.setSegment imm l, congrArg _ hl⟩
  · obtain ⟨l, hl⟩ := huleb h
    exact ⟨.addAddr imm l, congrArg _ hl⟩
  · exact ⟨.addAddrScaled imm, congrArg _ (hpure h)⟩
  · exact ⟨.rebaseTimesImm imm, congrArg _ (hpure h)⟩
  · obtain ⟨l, hl⟩ := huleb h
    exact ⟨.rebaseTimesUleb imm l, congrArg _ hl⟩
  · obtain ⟨l, hl⟩ := huleb h
    exact ⟨.rebaseAddAddr imm l, congrArg _ hl⟩
  · obtain ⟨count, middle, hcount, h⟩ := Prog.bind_eq_ok.1 h
    obtain ⟨skip, rest', hskip, h⟩ := Prog.bind_eq_ok.1 h
    obtain ⟨-, rfl⟩ := Outcome.ok.inj h
    obtain ⟨l, hl⟩ := front_of_ulebFrom hcount
    obtain ⟨l', hl'⟩ := front_of_ulebFrom hskip
    rw [hl'] at hl
    refine ⟨.rebaseTimesSkipping imm l l', congrArg _ (hl.trans ?_)⟩
    exact (List.append_assoc _ _ _).symm
  all_goals cases h

theorem complete_readOp : Complete (readOp p) encode op RebaseCode.Fits := by
  intro c rest hfits
  have huleb : ∀ {f : U64 → RebaseOp} {l : Leb}, 7 * l.length < 2 ^ 32 →
      (readUleb p >>= fun v => pure (f v)) (l.bytes ++ rest) = .ok (f (uleb l)) rest :=
    fun hl => Prog.bind_eq_ok.2 ⟨_, _, readUleb_bytes hl rest, rfl⟩
  cases c
  all_goals
    refine ⟨_, _, rfl, ?_⟩
    unfold readOp
    rw [opcodeByte_code, opcodeByte_imm]
  case setSegment segIndex l => exact huleb (hfits l List.mem_cons_self)
  case addAddr imm l => exact huleb (hfits l List.mem_cons_self)
  case rebaseTimesUleb imm l => exact huleb (hfits l List.mem_cons_self)
  case rebaseAddAddr imm l => exact huleb (hfits l List.mem_cons_self)
  case rebaseTimesSkipping imm l l' =>
    have hskip := hfits l' (List.mem_cons_of_mem l List.mem_cons_self)
    rw [List.append_assoc]
    exact Prog.bind_eq_ok.2 ⟨_, _, readUleb_bytes (hfits l List.mem_cons_self) _, huleb hskip⟩
  all_goals rfl

/-! ## The locations -/

theorem advance_zero (cur : RebaseLocation) (skip : U64) : cur.advance 0 skip = cur := by
  simp [RebaseLocation.advance]

theorem advance_succ (cur : RebaseLocation) (i : ℕ) (skip : U64) :
    (cur.advance 1 skip).advance i skip = cur.advance (i + 1) skip := by
  simp only [RebaseLocation.advance, BitVec.ofNat_add, BitVec.add_mul]
  congr 1
  ac_rfl

theorem advance_one (cur : RebaseLocation) (skip : U64) :
    cur.advance 1 skip = { cur with segOffset := cur.segOffset + 8 + skip } := by
  rw [RebaseLocation.advance, BitVec.one_mul, BitVec.add_assoc]

theorem emitTimes_eq (skip : U64) : ∀ (n : ℕ) (cur : RebaseLocation), emitTimes skip n cur =
    ((List.range n).map fun i => cur.advance i skip, cur.advance n skip)
  | 0, cur => by
    rw [advance_zero]
    rfl
  | n + 1, cur => by
    rw [emitTimes, ← advance_one, emitTimes_eq skip n, List.range_succ_eq_map, List.map_cons,
      List.map_map, advance_zero]
    simp only [advance_succ, Function.comp_def]

theorem imm_widths : ∀ imm : BitVec 4,
    ((imm.setWidth 8).setWidth 64 : U64).toNat = imm.toNat ∧
    ((imm.setWidth 8).setWidth 64 * 8 : U64) = BitVec.ofNat 64 (8 * imm.toNat) := by
  decide

theorem step_op (cur : RebaseLocation) (c : RebaseCode) :
    step cur c.op = (c.emits cur, c.next cur) := by
  cases c with
  | addAddrScaled scale => simp only [step, op, emits, next, (imm_widths scale).2]
  | rebaseTimesImm count => simp only [step, op, emits, next, emitTimes_eq, (imm_widths count).1]
  | rebaseTimesUleb imm count => simp only [step, op, emits, next, emitTimes_eq]
  | rebaseAddAddr imm delta => simp only [step, op, emits, next, advance_one]
  | rebaseTimesSkipping imm count skip => simp only [step, op, emits, next, emitTimes_eq]
  | _ => rfl

theorem emitted_op : ∀ (codes : List RebaseCode) (cur : RebaseLocation),
    emitted step cur (codes.map op) = rebaseLocations cur codes
  | [], _ => rfl
  | c :: codes, cur => by
    rw [List.map_cons, emitted, step_op, emitted_op codes, rebaseLocations]

/-- What is pushed first is counted. -/
theorem pushedFirst_le {byte : U8} {buf rest : List U8} {op : RebaseOp}
    (h : readOp p byte buf = .ok op rest) : pushedFirst byte ≤ op.count := by
  unfold pushedFirst
  split_ifs with hbyte
  · have hread : (readUleb p >>= fun delta => pure (.rebaseAddAddr delta)) buf = .ok op rest := by
      rw [← h, readOp, hbyte]
      rfl
    obtain ⟨delta, buf', -, hop⟩ := Prog.bind_eq_ok.1 hread
    obtain ⟨rfl, -⟩ := Outcome.ok.inj hop
    exact le_rfl
  · exact Nat.zero_le _

theorem loop_cons {turns : ℕ} {cur : RebaseLocation} {locs out : List RebaseLocation} {byte : U8}
    {buf rest : List U8} :
    loop p (turns + 1) cur locs (byte :: buf) = .ok out rest ↔
      ∃ op buf', readOp p byte buf = .ok op buf' ∧
        locs.length + op.count ≤ vecLimit locationSize ∧
        loop p turns (step cur op).2 (locs ++ (step cur op).1) buf' = .ok out rest :=
  turn_eq_ok fun _ _ => pushedFirst_le

/-- The loop goes on behind an opcode that there is room for. -/
theorem loop_of_read {turns : ℕ} {cur : RebaseLocation} {locs : List RebaseLocation} {byte : U8}
    {buf buf' : List U8} {op : RebaseOp} (hop : readOp p byte buf = .ok op buf') :
    loop p (turns + 1) cur locs (byte :: buf) =
      if locs.length + op.count ≤ vecLimit locationSize then
        loop p turns (step cur op).2 (locs ++ (step cur op).1) buf'
      else .panic .capacityOverflow :=
  turn_of_read hop (pushedFirst_le hop)

end Rebase

theorem parseRebaseInfo_eq_ok_iff {stream rest : List U8} {locs : List RebaseLocation} :
    parseRebaseInfo p stream = .ok locs rest ↔ rest = [] ∧ ∃ ops,
      Items (Rebase.readOp p) stream ops ∧ locs.length ≤ vecLimit Rebase.locationSize ∧
      locs = emitted Rebase.step ⟨0, 0, 1⟩ (ops.map Prod.fst) :=
  collect_eq_ok_iff Rebase.length_step (fun byte _ _ _ h => (Rebase.shrinks_readOp p byte).ok h)
    (by rintro (_ | n) cur locs <;> rfl) (fun _ _ _ _ _ _ _ => Rebase.loop_cons) le_rfl

/-- A stream that is a row of opcodes is decoded to their locations, if a vector can hold them. -/
theorem parseRebaseInfo_codes {codes : List RebaseCode} (hfits : ∀ c ∈ codes, c.Fits) :
    parseRebaseInfo p (codes.flatMap RebaseCode.encode) =
      if (rebaseLocations ⟨0, 0, 1⟩ codes).length ≤ vecLimit Rebase.locationSize then
        .ok (rebaseLocations ⟨0, 0, 1⟩ codes) []
      else .panic .capacityOverflow := by
  have hitems := items_codes (@Rebase.complete_readOp p) hfits
  have hlocs : emitted Rebase.step ⟨0, 0, 1⟩
      ((marks RebaseCode.encode RebaseCode.op codes).map Prod.fst) =
        rebaseLocations ⟨0, 0, 1⟩ codes := by
    rw [map_fst_marks, Rebase.emitted_op]
  split_ifs with hroom
  · exact parseRebaseInfo_eq_ok_iff.2 ⟨rfl, _, hitems, hroom, hlocs.symm⟩
  · refine collect_eq_panic Rebase.length_step
      (fun byte _ _ _ h => (Rebase.shrinks_readOp p byte).ok h)
      (fun _ _ _ _ _ _ _ => Rebase.loop_of_read) le_rfl hitems ?_
    rwa [hlocs]

/-- A stream that is decoded is a row of opcodes. -/
theorem exists_codes_of_parseRebaseInfo {stream rest : List U8} {locs : List RebaseLocation}
    (h : parseRebaseInfo p stream = .ok locs rest) :
    ∃ codes : List RebaseCode, stream = codes.flatMap RebaseCode.encode := by
  obtain ⟨-, ops, hops, -⟩ := parseRebaseInfo_eq_ok_iff.1 h
  exact exists_codes_of_items Rebase.sound_readOp hops

/-! ## Opcodes spelled out -/

theorem rebaseLocations_append : ∀ (cs ds : List RebaseCode) (cur : RebaseLocation),
    rebaseLocations cur (cs ++ ds) =
      rebaseLocations cur cs ++ rebaseLocations (cs.foldl RebaseCode.next cur) ds
  | [], _, _ => rfl
  | c :: cs, ds, cur => by
    rw [List.cons_append, rebaseLocations, rebaseLocations, rebaseLocations_append cs,
      List.foldl_cons, List.append_assoc]

namespace RebaseCode

/-- The opcodes list `locs` and leave the running values `last` behind. -/
def Runs (codes : List RebaseCode) (cur : RebaseLocation) (locs : List RebaseLocation)
    (last : RebaseLocation) : Prop :=
  rebaseLocations cur codes = locs ∧ codes.foldl next cur = last

/-- Opcodes that rebase one pointer and go on to the next, repeated. -/
theorem runs_replicate {block : List RebaseCode} {skip : U64}
    (hblock : ∀ cur, Runs block cur [cur] (cur.advance 1 skip)) :
    ∀ (n : ℕ) (cur : RebaseLocation), Runs (List.replicate n block).flatten cur
      ((List.range n).map fun i => cur.advance i skip) (cur.advance n skip)
  | 0, cur => ⟨rfl, (Rebase.advance_zero cur skip).symm⟩
  | n + 1, cur => by
    obtain ⟨hlocs, hlast⟩ := hblock cur
    obtain ⟨hlocs', hlast'⟩ := runs_replicate hblock n (cur.advance 1 skip)
    unfold Runs
    rw [List.replicate_succ, List.flatten_cons, rebaseLocations_append, List.foldl_append, hlast,
      hlast', hlocs, hlocs', List.range_succ_eq_map, List.map_cons, List.map_map,
      Rebase.advance_zero]
    simp only [Rebase.advance_succ, Function.comp_def]
    exact ⟨rfl, trivial⟩

/-- The rebase of one pointer. -/
theorem runs_one (cur : RebaseLocation) :
    Runs [rebaseTimesImm 1] cur [cur] (cur.advance 1 0) := by
  refine ⟨?_, rfl⟩
  change [cur.advance 0 0] = [cur]
  rw [Rebase.advance_zero]

/-- The rebase of one pointer, and some bytes to go on. -/
theorem runs_one_addAddr (delta : Leb) (cur : RebaseLocation) :
    Runs [rebaseTimesImm 1, addAddr 0 delta] cur [cur] (cur.advance 1 (uleb delta)) := by
  refine ⟨(runs_one cur).1, ?_⟩
  have hone : (1 : BitVec 4).toNat = 1 := rfl
  have hzero : cur.segOffset + 8 + 0 = cur.segOffset + 8 := BitVec.add_zero _
  simp only [List.foldl_cons, List.foldl_nil, next, hone, Rebase.advance_one, hzero]

theorem runs_expand (c : RebaseCode) (cur : RebaseLocation) :
    Runs c.expand cur (c.emits cur) (c.next cur) := by
  have himm := runs_replicate runs_one
  simp only [List.flatten_replicate_singleton] at himm
  cases c with
  | rebaseTimesImm count => exact himm count.toNat cur
  | rebaseTimesUleb imm count => exact himm (uleb count).toNat cur
  | rebaseAddAddr imm delta => exact runs_one_addAddr delta cur
  | rebaseTimesSkipping imm count skip =>
    exact runs_replicate (runs_one_addAddr skip) (uleb count).toNat cur
  | _ => exact ⟨rfl, rfl⟩

/-- No number is longer in an opcode spelled out. -/
theorem fits_expand {c : RebaseCode} (h : c.Fits) : ∀ c' ∈ c.expand, c'.Fits := by
  intro c' hc'
  have hnone : ∀ count, (rebaseTimesImm count).Fits := fun count l hl => absurd hl List.not_mem_nil
  cases c with
  | rebaseTimesImm count =>
    rw [List.eq_of_mem_replicate hc']
    exact hnone 1
  | rebaseTimesUleb imm count =>
    rw [List.eq_of_mem_replicate hc']
    exact hnone 1
  | rebaseAddAddr imm delta =>
    rcases List.mem_cons.1 hc' with rfl | hc'
    · exact hnone 1
    · rw [List.mem_singleton.1 hc']
      exact h
  | rebaseTimesSkipping imm count skip =>
    obtain ⟨block, hblock, hc'⟩ := List.mem_flatten.1 hc'
    rw [List.eq_of_mem_replicate hblock] at hc'
    rcases List.mem_cons.1 hc' with rfl | hc'
    · exact hnone 1
    · rw [List.mem_singleton.1 hc']
      exact fun l hl => h l (List.mem_cons_of_mem count hl)
  | _ =>
    rw [List.mem_singleton.1 hc']
    exact h

end RebaseCode

/-- A row of opcodes lists the same locations with one of them spelled out. -/
theorem rebaseLocations_expand (cur : RebaseLocation) (before : List RebaseCode) (c : RebaseCode)
    (after : List RebaseCode) :
    rebaseLocations cur (before ++ (c.expand ++ after)) =
      rebaseLocations cur (before ++ c :: after) := by
  obtain ⟨hlocs, hlast⟩ := c.runs_expand (before.foldl RebaseCode.next cur)
  rw [rebaseLocations_append, rebaseLocations_append, rebaseLocations_append, hlocs, hlast,
    rebaseLocations]

/-- The decoder accepts the rows of opcodes whose locations fit into a vector, and lists the
locations that they mean. An opcode may be spelled out anywhere. -/
theorem rebase_stream_decoding (p : Profile) (stream : List U8) (hlen : stream.length < 2 ^ 29) :
    ((parseRebaseInfo p stream).isOk = true ↔
      ∃ codes : List RebaseCode, stream = codes.flatMap RebaseCode.encode ∧
        (rebaseLocations ⟨0, 0, 1⟩ codes).length ≤ vecLimit Rebase.locationSize) ∧
    (∀ codes : List RebaseCode, stream = codes.flatMap RebaseCode.encode →
      (rebaseLocations ⟨0, 0, 1⟩ codes).length ≤ vecLimit Rebase.locationSize →
        parseRebaseInfo p stream = .ok (rebaseLocations ⟨0, 0, 1⟩ codes) []) ∧
    ∀ (before : List RebaseCode) (c : RebaseCode) (after : List RebaseCode),
      stream = (before ++ c :: after).flatMap RebaseCode.encode →
      parseRebaseInfo p ((before ++ (c.expand ++ after)).flatMap RebaseCode.encode) =
        parseRebaseInfo p stream := by
  have hcodes : ∀ codes : List RebaseCode, stream = codes.flatMap RebaseCode.encode →
      parseRebaseInfo p stream =
        if (rebaseLocations ⟨0, 0, 1⟩ codes).length ≤ vecLimit Rebase.locationSize then
          .ok (rebaseLocations ⟨0, 0, 1⟩ codes) []
        else .panic .capacityOverflow := by
    rintro codes rfl
    exact parseRebaseInfo_codes (RebaseCode.fits_of_length hlen)
  refine ⟨⟨fun h => ?_, fun ⟨codes, hstream, hroom⟩ => ?_⟩, fun codes hstream hroom => ?_,
    fun before c after hstream => ?_⟩
  · obtain ⟨locs, rest, hok⟩ := Outcome.isOk_iff.1 h
    obtain ⟨codes, hstream⟩ := exists_codes_of_parseRebaseInfo hok
    refine ⟨codes, hstream, ?_⟩
    by_contra hroom
    rw [hcodes codes hstream, if_neg hroom] at hok
    cases hok
  · rw [hcodes codes hstream, if_pos hroom]
    rfl
  · rw [hcodes codes hstream, if_pos hroom]
  · rw [hcodes _ hstream, ← rebaseLocations_expand]
    rw [hstream] at hlen
    have hfits := RebaseCode.fits_of_length hlen
    refine parseRebaseInfo_codes fun c' hc' => ?_
    rcases List.mem_append.1 hc' with hbefore | hc'
    · exact hfits c' (List.mem_append_left _ hbefore)
    rcases List.mem_append.1 hc' with hexpand | hafter
    · exact RebaseCode.fits_expand
        (hfits c (List.mem_append_right _ List.mem_cons_self)) c' hexpand
    · exact hfits c' (List.mem_append_right _ (List.mem_cons_of_mem c hafter))

/-- Two pointers with eight bytes between them. -/
theorem rebase_stream_decoding_skipping :
    parseRebaseInfo .debug [0x21, 0x00, 0x51, 0x30, 0x08, 0x51, 0x30, 0x08] =
      parseRebaseInfo .debug [0x21, 0x00, 0x80, 0x02, 0x08] ∧
    parseRebaseInfo .debug [0x21, 0x00, 0x80, 0x02, 0x08] = .ok [⟨1, 0, 1⟩, ⟨1, 16, 1⟩] [] := by
  have h := rebase_stream_decoding .debug [0x21, 0x00, 0x80, 0x02, 0x08] (by decide)
  exact ⟨h.2.2 [.setSegment 1 (.last 0)] (.rebaseTimesSkipping 0 (.last 2) (.last 8)) [] rfl,
    h.2.1 [.setSegment 1 (.last 0), .rebaseTimesSkipping 0 (.last 2) (.last 8)] rfl (by decide)⟩

/-- One opcode with a number of ten bytes, that asks for `2 ^ 64 - 1` locations : a row of opcodes
that is not decoded. -/
theorem rebase_stream_decoding_repeat : ∃ (stream : List U8) (codes : List RebaseCode),
    stream = codes.flatMap RebaseCode.encode ∧ stream.length = 11 ∧
      ∀ p, parseRebaseInfo p stream = .panic .capacityOverflow := by
  let most : Leb := .more 0x7f (.more 0x7f (.more 0x7f (.more 0x7f (.more 0x7f (.more 0x7f
    (.more 0x7f (.more 0x7f (.more 0x7f (.last 1)))))))))
  refine ⟨_, [.rebaseTimesUleb 0 most], rfl, rfl, ?_⟩
  rintro (_ | _) <;> rfl

end IosEmu
