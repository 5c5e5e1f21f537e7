import IosEmu.DyldInfo
import IosEmu.LazyStreams

/-!
# Streams of lazy entries

A linker writes one sequence for each lazy pointer : the segment and the offset, the ordinal and the
symbol are set in some order, `DO_BIND` ends the setting and `DONE` the sequence (`LazyEntry`). The
lazy reader finds one entry for each sequence, at the offset where it starts (`emitted_codes`), since
`DONE` is met exactly at the end of a sequence and nothing else moves the offset. Offsets of
different sequences are different, so the table that is made from the entries has all of them
(`lazy_entries_table`).
-/

open SysLib

namespace IosEmu

open Process

variable {p : Profile}

/-- The three forms of an ordinal. -/
inductive LazyOrdinal
  | imm (ordinal : BitVec 4)
  | uleb (ordinal : Leb)
  | special (ordinal : BitVec 4)

def LazyOrdinal.code : LazyOrdinal → BindCode
  | imm ordinal => .ordinalImm ordinal
  | uleb ordinal => .ordinalUleb 0 ordinal
  | special ordinal => .ordinalSpecial ordinal

/-- The sequence of a lazy pointer. Its opcodes stand in any order before `DO_BIND`, and a number is
encoded in any way in up to ten groups. -/
structure LazyEntry where
  segIndex : BitVec 4
  segOffset : Leb
  ordinal : LazyOrdinal
  flags : BitVec 4
  symbol : SymbolBytes
  kind : Option (BitVec 4)
  addend : Option Leb
  setters : List BindCode
  perm : setters.Perm ([.setSegment segIndex segOffset, ordinal.code, .setSymbol flags symbol] ++
    (kind.map BindCode.setType).toList ++ (addend.map (BindCode.setAddend 0)).toList)
  within : ∀ c ∈ setters, c.Within 10

namespace LazyEntry

def codes (e : LazyEntry) : List BindCode :=
  e.setters ++ [.doBind 0, .done 0]

def encode (e : LazyEntry) : List U8 :=
  e.codes.flatMap BindCode.encode

/-- The sequence of a slot and a symbol of the first library. -/
def ofSlot (segIndex : BitVec 4) (segOffset : Leb) (hlen : segOffset.length ≤ 10)
    (symbol : SymbolBytes) : LazyEntry where
  segIndex
  segOffset
  ordinal := .imm 1
  flags := 0
  symbol
  kind := none
  addend := none
  setters := [.setSegment segIndex segOffset, .ordinalImm 1, .setSymbol 0 symbol]
  perm := .refl _
  within := by
    intro c hc l hl
    simp only [List.mem_cons, List.not_mem_nil, or_false] at hc
    rcases hc with rfl | rfl | rfl
    · rw [List.mem_singleton.1 hl]
      exact hlen
    · exact absurd hl List.not_mem_nil
    · exact absurd hl List.not_mem_nil

/-- Every slot and symbol has a sequence. -/
theorem exists_of_slot (segIndex : BitVec 4) (segOffset : U64) (symbol : SymbolBytes) :
    ∃ e : LazyEntry, e.segIndex = segIndex ∧ uleb e.segOffset = segOffset ∧ e.symbol = symbol := by
  obtain ⟨l, hlen, hl⟩ := exists_uleb segOffset
  exact ⟨ofSlot segIndex l hlen symbol, rfl, hl, rfl⟩

/-- The entry of a sequence that starts at `pos`. -/
def bind (pos : ℕ) (e : LazyEntry) : LazyBind :=
  ⟨BitVec.ofNat 64 pos, e.segIndex.setWidth 8, uleb e.segOffset, e.symbol.text⟩

end LazyEntry

/-- Sequences one behind the other, and zeros at the end. -/
def lazyStream (entries : List LazyEntry) (zeros : ℕ) : List U8 :=
  entries.flatMap LazyEntry.encode ++ List.replicate zeros 0

/-- The entries of sequences that stand one behind the other from `pos` on. -/
def lazyBinds : ℕ → List LazyEntry → List LazyBind
  | _, [] => []
  | pos, e :: entries => e.bind pos :: lazyBinds (pos + e.encode.length) entries

/-! ## Opcodes of a sequence -/

/-- What the lazy reader makes of an opcode. -/
def BindCode.lazyOp (c : BindCode) : LazyOp :=
  c.op.toLazy

/-- Plain opcodes with short operands are read by the lazy reader. -/
theorem LazyBind.complete_readOp : Complete (readOp p) BindCode.encode BindCode.lazyOp
    fun c => c.Within 10 ∧ c.op.IsPlain := by
  rintro c rest ⟨hwithin, hplain⟩
  obtain ⟨byte, front, hencode, hread⟩ := @Bind.complete_readOp p c rest hwithin
  exact ⟨byte, front, hencode, readOp_lazy hread hplain⟩

namespace LazyEntry

variable {e : LazyEntry}

/-- An opcode that stands before `DO_BIND` sets the slot, or the symbol, or is passed over. -/
theorem setter_cases {c : BindCode} (hc : c ∈ e.setters) :
    c = .setSegment e.segIndex e.segOffset ∨ c = .setSymbol e.flags e.symbol ∨
      c.lazyOp = .pass ∧ c.op.IsPlain := by
  have hordinal : e.ordinal.code.lazyOp = .pass ∧ e.ordinal.code.op.IsPlain := by
    cases e.ordinal <;> exact ⟨rfl, trivial⟩
  have hmem := e.perm.mem_iff.1 hc
  simp only [List.cons_append, List.nil_append, List.mem_cons, List.mem_append, Option.mem_toList,
    Option.map_eq_some_iff] at hmem
  rcases hmem with rfl | rfl | rfl | ⟨kind, -, rfl⟩ | ⟨addend, -, rfl⟩
  · exact Or.inl rfl
  · exact Or.inr (Or.inr hordinal)
  · exact Or.inr (Or.inl rfl)
  · exact Or.inr (Or.inr ⟨rfl, trivial⟩)
  · exact Or.inr (Or.inr ⟨rfl, trivial⟩)

theorem setSegment_mem : BindCode.setSegment e.segIndex e.segOffset ∈ e.setters :=
  e.perm.mem_iff.2 (by simp)

theorem setSymbol_mem : BindCode.setSymbol e.flags e.symbol ∈ e.setters :=
  e.perm.mem_iff.2 (by simp)

theorem codes_ok : ∀ c ∈ e.codes, c.Within 10 ∧ c.op.IsPlain := by
  intro c hc
  rcases List.mem_append.1 hc with hc | hc
  · refine ⟨e.within c hc, ?_⟩
    rcases setter_cases hc with rfl | rfl | hpass
    · trivial
    · trivial
    · exact hpass.2
  · simp only [List.mem_cons, List.not_mem_nil, or_false] at hc
    rcases hc with rfl | rfl <;> exact ⟨fun l hl => absurd hl List.not_mem_nil, trivial⟩

/-- Opcodes before `DO_BIND` emit nothing and leave the start of the sequence alone. Behind them the
slot and the symbol are those of the sequence, if they were set or were so before. -/
theorem emitted_setters (total : ℕ) (tail : List BindCode) : ∀ {cs : List BindCode},
    (∀ c ∈ cs, c ∈ e.setters) → ∀ cur : LazyBind, ∃ last : LazyBind,
      LazyBind.emitted total cur (marks BindCode.encode BindCode.lazyOp (cs ++ tail)) =
        LazyBind.emitted total last (marks BindCode.encode BindCode.lazyOp tail) ∧
      last.offset = cur.offset ∧
      ((BindCode.setSegment e.segIndex e.segOffset ∈ cs ∨
          cur.segIndex = e.segIndex.setWidth 8 ∧ cur.segOffset = uleb e.segOffset) →
        last.segIndex = e.segIndex.setWidth 8 ∧ last.segOffset = uleb e.segOffset) ∧
      ((BindCode.setSymbol e.flags e.symbol ∈ cs ∨ cur.symbol = e.symbol.text) →
        last.symbol = e.symbol.text)
  | [], _, cur => ⟨cur, rfl, rfl, fun h => h.resolve_left List.not_mem_nil,
      fun h => h.resolve_left List.not_mem_nil⟩
  | c :: cs, hcs, cur => by
    have hrest := fun c' hc' => hcs c' (List.mem_cons_of_mem c hc')
    rcases setter_cases (hcs c List.mem_cons_self) with rfl | rfl | ⟨hpass, -⟩
    · obtain ⟨last, hlast, hoffset, hslot, hsymbol⟩ := emitted_setters total tail hrest
        { cur with segIndex := e.segIndex.setWidth 8, segOffset := uleb e.segOffset }
      refine ⟨last, hlast, hoffset, fun _ => hslot (Or.inr ⟨rfl, rfl⟩), fun h => hsymbol ?_⟩
      simpa using h
    · obtain ⟨last, hlast, hoffset, hslot, hsymbol⟩ := emitted_setters total tail hrest
        { cur with symbol := e.symbol.text }
      refine ⟨last, hlast, hoffset, fun h => hslot ?_, fun _ => hsymbol (Or.inr rfl)⟩
      simpa using h
    · obtain ⟨last, hlast, hoffset, hslot, hsymbol⟩ := emitted_setters total tail hrest cur
      have hne : ∀ c', c'.lazyOp ≠ .pass → c ≠ c' := by
        rintro c' hc' rfl
        exact hc' hpass
      refine ⟨last, ?_, hoffset, fun h => hslot ?_, fun h => hsymbol ?_⟩
      · rw [List.cons_append, marks, LazyBind.emitted, hpass]
        exact hlast
      · exact h.imp_left fun hmem => (List.mem_cons.1 hmem).resolve_left
          (hne _ (by rintro ⟨⟩)).symm
      · exact h.imp_left fun hmem => (List.mem_cons.1 hmem).resolve_left
          (hne _ (by rintro ⟨⟩)).symm

/-- A sequence emits its entry, and leaves the start of the next one behind. -/
theorem emitted_codes_append (total pos : ℕ) (tail : List BindCode) (cur : LazyBind)
    (hcur : cur.offset = BitVec.ofNat 64 pos)
    (htotal : pos + e.encode.length + (tail.flatMap BindCode.encode).length = total) :
    ∃ last : LazyBind, last.offset = BitVec.ofNat 64 (pos + e.encode.length) ∧
      LazyBind.emitted total cur (marks BindCode.encode BindCode.lazyOp (e.codes ++ tail)) =
        e.bind pos :: LazyBind.emitted total last (marks BindCode.encode BindCode.lazyOp tail) := by
  obtain ⟨last, hlast, hoffset, hslot, hsymbol⟩ := emitted_setters (e := e) total
    (.doBind 0 :: .done 0 :: tail) (fun c hc => hc) cur
  obtain ⟨hseg, hoff⟩ := hslot (Or.inl setSegment_mem)
  have hlast' : last = e.bind pos := by
    change LazyBind.mk last.offset last.segIndex last.segOffset last.symbol = _
    rw [hoffset, hseg, hoff, hsymbol (Or.inl setSymbol_mem), hcur, LazyEntry.bind]
  have hnext : total - (tail.flatMap BindCode.encode).length = pos + e.encode.length := by
    omega
  refine ⟨{ last with offset := BitVec.ofNat 64 (pos + e.encode.length) }, rfl, ?_⟩
  rw [codes, List.append_assoc, ← hnext, ← hlast']
  exact hlast

end LazyEntry

theorem emitted_replicate (total : ℕ) : ∀ (zeros : ℕ) (cur : LazyBind),
    LazyBind.emitted total cur
      (marks BindCode.encode BindCode.lazyOp (List.replicate zeros (.done 0))) = []
  | 0, _ => rfl
  | zeros + 1, _ => emitted_replicate total zeros _

/-- The opcodes of a stream of sequences. -/
def lazyCodes (entries : List LazyEntry) (zeros : ℕ) : List BindCode :=
  entries.flatMap LazyEntry.codes ++ List.replicate zeros (.done 0)

theorem flatMap_lazyCodes (entries : List LazyEntry) (zeros : ℕ) :
    (lazyCodes entries zeros).flatMap BindCode.encode = lazyStream entries zeros := by
  have hzeros : (List.replicate zeros (BindCode.done 0)).flatMap BindCode.encode =
      List.replicate zeros 0 := by
    rw [List.flatMap_replicate]
    exact List.flatten_replicate_singleton
  rw [lazyCodes, List.flatMap_append, List.flatMap_assoc, hzeros]
  rfl

/-- The lazy reader emits one entry for each sequence. -/
theorem emitted_codes (total zeros : ℕ) : ∀ {entries : List LazyEntry} {pos : ℕ} {cur : LazyBind},
    cur.offset = BitVec.ofNat 64 pos → pos + (lazyStream entries zeros).length = total →
      LazyBind.emitted total cur
        (marks BindCode.encode BindCode.lazyOp (lazyCodes entries zeros)) = lazyBinds pos entries
  | [], _, cur, _, _ => emitted_replicate total zeros cur
  | e :: entries, pos, cur, hcur, htotal => by
    have htotal' : pos + e.encode.length + (lazyStream entries zeros).length = total := by
      simp only [lazyStream, List.flatMap_cons, List.length_append] at htotal ⊢
      omega
    obtain ⟨last, hlast, hemitted⟩ := LazyEntry.emitted_codes_append total pos
      (lazyCodes entries zeros) cur hcur (by rw [flatMap_lazyCodes]; exact htotal')
    have hcodes : lazyCodes (e :: entries) zeros = e.codes ++ lazyCodes entries zeros := by
      rw [lazyCodes, List.flatMap_cons, List.append_assoc]
      rfl
    rw [hcodes, hemitted, emitted_codes total zeros hlast htotal']
    rfl

theorem parseLazyBindInfo_lazyStream (entries : List LazyEntry) (zeros : ℕ) :
    parseLazyBindInfo p (lazyStream entries zeros) = .ok (lazyBinds 0 entries) [] := by
  have hok : ∀ c ∈ lazyCodes entries zeros, c.Within 10 ∧ c.op.IsPlain := by
    intro c hc
    rcases List.mem_append.1 hc with hc | hc
    · obtain ⟨e, -, hc⟩ := List.mem_flatMap.1 hc
      exact LazyEntry.codes_ok c hc
    · rw [List.eq_of_mem_replicate hc]
      exact ⟨fun l hl => absurd hl List.not_mem_nil, trivial⟩
  have hitems := items_codes (@LazyBind.complete_readOp p) hok
  rw [flatMap_lazyCodes] at hitems
  refine parseLazyBindInfo_eq_ok_iff.2 ⟨rfl, _, hitems, ?_⟩
  exact (emitted_codes _ zeros rfl (Nat.zero_add _)).symm

/-! ## The table -/

theorem le_offset_lazyBinds : ∀ {entries : List LazyEntry} {pos : ℕ},
    pos + (entries.flatMap LazyEntry.encode).length < 2 ^ 64 →
      ∀ lb ∈ lazyBinds pos entries, pos ≤ lb.offset.toNat
  | e :: entries, pos, hlen, lb, hlb => by
    rw [List.flatMap_cons, List.length_append] at hlen
    rcases List.mem_cons.1 hlb with rfl | hlb
    · exact (Nat.mod_eq_of_lt (by omega)).ge
    · have hrest := le_offset_lazyBinds (by omega) lb hlb
      omega

theorem encode_length_pos (e : LazyEntry) : 0 < e.encode.length := by
  rw [LazyEntry.encode, LazyEntry.codes, List.flatMap_append, List.length_append]
  exact Nat.add_pos_right _ (by decide)

theorem nodup_offset_lazyBinds : ∀ {entries : List LazyEntry} {pos : ℕ},
    pos + (entries.flatMap LazyEntry.encode).length < 2 ^ 64 →
      ((lazyBinds pos entries).map LazyBind.offset).Nodup
  | [], _, _ => List.nodup_nil
  | e :: entries, pos, hlen => by
    rw [List.flatMap_cons, List.length_append] at hlen
    have hrest : pos + e.encode.length + (entries.flatMap LazyEntry.encode).length < 2 ^ 64 := by
      omega
    refine List.nodup_cons.2 ⟨fun hmem => ?_, nodup_offset_lazyBinds hrest⟩
    obtain ⟨lb, hlb, hoffset⟩ := List.mem_map.1 hmem
    have hpos : lb.offset.toNat = pos := by
      rw [hoffset]
      exact Nat.mod_eq_of_lt (by omega)
    have hle := le_offset_lazyBinds hrest lb hlb
    have := encode_length_pos e
    omega

/-- Each sequence of a lazy stream has one entry, at the offset where it starts, and the table has
all entries of mapped segments. -/
theorem lazy_entries_table (p : Profile) (entries : List LazyEntry) (zeros : ℕ)
    (bases : List (Option U64)) (hlen : (lazyStream entries zeros).length < 2 ^ 64) :
    parseLazyBindInfo p (lazyStream entries zeros) = .ok (lazyBinds 0 entries) [] ∧
    ((lazyBinds 0 entries).map LazyBind.offset).Nodup ∧
    ∀ lb ∈ lazyBinds 0 entries, ∀ base, segBase bases lb.segIndex = some base →
      ((lazyBinds 0 entries).foldl (addLazyBind bases) .empty).get? lb.offset =
        some (lb.symbol, base + lb.segOffset) := by
  have hnodup : ((lazyBinds 0 entries).map LazyBind.offset).Nodup := by
    rw [lazyStream, List.length_append] at hlen
    exact nodup_offset_lazyBinds (by omega)
  refine ⟨parseLazyBindInfo_lazyStream entries zeros, hnodup, fun lb hlb base hbase => ?_⟩
  rcases foldl_addLazyBind bases lb.offset (lazyBinds 0 entries) .empty with
    ⟨lb', hlb', hoffset, base', hbase', hget⟩ | ⟨hnone, -⟩
  · obtain rfl := List.inj_on_of_nodup_map hnodup hlb' hlb hoffset
    obtain rfl := Option.some.inj (hbase.symm.trans hbase')
    exact hget
  · rw [hnone lb hlb rfl] at hbase
    cases hbase

/-- Two sequences, and two zeros behind them. -/
theorem lazy_entries_table_two :
    parseLazyBindInfo .debug [0x72, 0x10, 0x11, 0x40, 0x61, 0, 0x90, 0, 0x73, 0x18, 0x11, 0x40, 0x62,
      0, 0x90, 0, 0, 0] = .ok [⟨0, 2, 16, "a"⟩, ⟨8, 3, 24, "b"⟩] [] ∧
    (([⟨0, 2, 16, "a"⟩, ⟨8, 3, 24, "b"⟩] : List LazyBind).foldl
      (addLazyBind [none, none, none, some 0x8000]) .empty).get? 8 = some ("b", 0x8018) := by
  have h := lazy_entries_table .debug [.ofSlot 2 (.last 0x10) (by decide) ⟨[0x61], by decide⟩,
    .ofSlot 3 (.last 0x18) (by decide) ⟨[0x62], by decide⟩] 2 [none, none, none, some 0x8000]
    (by decide)
  exact ⟨h.1, h.2.2 ⟨8, 3, 24, "b"⟩ (by decide) 0x8000 rfl⟩

end IosEmu
