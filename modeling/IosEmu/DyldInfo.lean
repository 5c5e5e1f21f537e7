import IosEmu.Binding
import IosEmu.LoadCommands

/-!
# The stream table of a file

`dyld_info_command` of `<mach-o/loader.h>` is a run of five pairs : rebase, bind, weak bind,
lazy bind and export. The parser has no field for the third pair and reads on without it, so
the weak pair is taken for the lazy one and the lazy pair for the export one
(`parse_dyldInfo`). The image is right exactly when the three pairs are equal; then every
sequence of the lazy stream is found by its offset, and its symbol has a trampoline
(`dyldInfo_iff_pairs_eq`).
-/

open SysLib

namespace IosEmu

open MachOImage Process Reader

/-! ## The command -/

/-- `dyld_info_command` after its first two words. -/
structure DyldInfoCommand where
  rebaseOff : U32
  rebaseSize : U32
  bindOff : U32
  bindSize : U32
  weakBindOff : U32
  weakBindSize : U32
  lazyBindOff : U32
  lazyBindSize : U32
  exportOff : U32
  exportSize : U32
  deriving DecidableEq

namespace DyldInfoCommand

/-- The command at an offset of a file. -/
def ofBytes (bytes : List U8) (off : ℕ) : DyldInfoCommand where
  rebaseOff := wordAt bytes (off + 8)
  rebaseSize := wordAt bytes (off + 12)
  bindOff := wordAt bytes (off + 16)
  bindSize := wordAt bytes (off + 20)
  weakBindOff := wordAt bytes (off + 24)
  weakBindSize := wordAt bytes (off + 28)
  lazyBindOff := wordAt bytes (off + 32)
  lazyBindSize := wordAt bytes (off + 36)
  exportOff := wordAt bytes (off + 40)
  exportSize := wordAt bytes (off + 44)

/-- The streams the command gives. -/
def streams (c : DyldInfoCommand) : DyldInfo :=
  ⟨c.rebaseOff, c.rebaseSize, c.bindOff, c.bindSize, c.lazyBindOff, c.lazyBindSize,
    c.exportOff, c.exportSize⟩

/-- The weak, the lazy and the export pair are equal. -/
def PairsEq (c : DyldInfoCommand) : Prop :=
  c.weakBindOff = c.lazyBindOff ∧ c.weakBindSize = c.lazyBindSize ∧
    c.lazyBindOff = c.exportOff ∧ c.lazyBindSize = c.exportSize

instance (c : DyldInfoCommand) : Decidable c.PairsEq :=
  inferInstanceAs (Decidable (_ ∧ _ ∧ _ ∧ _))

end DyldInfoCommand

/-- `cmd` is `LC_DYLD_INFO` or `LC_DYLD_INFO_ONLY`. -/
def IsDyldInfo (cmd : U32) : Prop :=
  cmd = 0x22 ∨ cmd = 0x80000022

instance (cmd : U32) : Decidable (IsDyldInfo cmd) :=
  inferInstanceAs (Decidable (_ ∨ _))

/-- A thin file whose last `dyld_info_command` is `c`. -/
structure HasDyldInfo (bytes : List U8) (c : DyldInfoCommand) : Prop where
  thin : wordAt bytes 0 = 0xfeedfacf
  command : ∃ i < (wordAt bytes 16).toNat,
    IsDyldInfo (wordAt bytes (commandOffset bytes 32 i)) ∧
    (∀ j, i < j → j < (wordAt bytes 16).toNat →
      ¬IsDyldInfo (wordAt bytes (commandOffset bytes 32 j))) ∧
    commandOffset bytes 32 i + 48 ≤ bytes.length ∧
    c = .ofBytes bytes (commandOffset bytes 32 i)

/-! ## What the parser reads -/

theorem ofWord_eq_dyldInfo_iff (cmd : U32) :
    LoadCommand.ofWord cmd = .dyldInfo ↔ IsDyldInfo cmd := by
  unfold LoadCommand.ofWord IsDyldInfo
  rw [← BitVec.toNat_inj, ← BitVec.toNat_inj]
  change _ ↔ cmd.toNat = 0x22 ∨ cmd.toNat = 0x80000022
  generalize cmd.toNat = n
  split <;> simp_all

variable {bytes : List U8} {img img' : MachOImage}

/-- Only one command touches the stream table. -/
theorem parseCommand_dyldInfo_of_ne {off : ℕ} {cmd : LoadCommand} (hne : cmd ≠ .dyldInfo)
    (h : parseCommand bytes off img cmd = .ok img') : img'.dyldInfo = img.dyldInfo := by
  have hdylib : ∀ weak reexport, parseDylib bytes off weak reexport img = .ok img' →
      img'.dyldInfo = img.dyldInfo := by
    intro weak reexport h
    obtain ⟨_, -, h⟩ := except_bind_eq_ok.1 h
    obtain ⟨_, -, h⟩ := except_bind_eq_ok.1 h
    obtain rfl := Except.ok.inj h
    rfl
  rcases cmd with _ | _ | _ | _ | _ | _ | _ | _ | _ | _ | _ | _ | _ | _
  case loadDylib => exact hdylib _ _ h
  case loadWeakDylib => exact hdylib _ _ h
  case reexportDylib => exact hdylib _ _ h
  case dyldInfo => exact absurd rfl hne
  case other =>
    obtain rfl := Except.ok.inj h
    rfl
  case loadDylinker =>
    obtain ⟨_, -, h⟩ := except_bind_eq_ok.1 h
    obtain ⟨_, -, h⟩ := except_bind_eq_ok.1 h
    obtain rfl := Except.ok.inj h
    rfl
  case unixThread =>
    obtain ⟨pc?, -, h⟩ := except_bind_eq_ok.1 h
    rcases pc? with _ | pc
    · obtain rfl := Except.ok.inj h
      rfl
    · dsimp only at h
      split_ifs at h
      · obtain rfl := Except.ok.inj h
        rfl
      · obtain rfl := Except.ok.inj h
        rfl
  all_goals
    obtain ⟨_, -, h⟩ := except_bind_eq_ok.1 h
    obtain rfl := Except.ok.inj h
    rfl

/-- The stream table as the parser reads it : the first four pairs, the third of them as the
lazy one. -/
def misread (c : DyldInfoCommand) : DyldInfo :=
  ⟨c.rebaseOff, c.rebaseSize, c.bindOff, c.bindSize, c.weakBindOff, c.weakBindSize,
    c.lazyBindOff, c.lazyBindSize⟩

theorem parseCommand_dyldInfo {off : ℕ}
    (h : parseCommand bytes off img .dyldInfo = .ok img') :
    img'.dyldInfo = some (misread (.ofBytes bytes off)) := by
  obtain ⟨info, hread, h⟩ := except_bind_eq_ok.1 h
  obtain ⟨-, _, hread⟩ := runAt_eq_ok.1 hread
  obtain rfl := Except.ok.inj h
  rw [readDyldInfo_eq_ok hread]
  rfl

/-- Commands that are not about streams keep the stream table. -/
theorem parseCommands_keeps : ∀ {left i start : ℕ} {img : MachOImage},
    parseCommands bytes left i start img = .ok img' →
    (∀ j < left, commandAt bytes (commandOffset bytes start j) ≠ .dyldInfo) →
      img'.dyldInfo = img.dyldInfo
  | 0, i, start, img, h, _ => by rw [Except.ok.inj h]
  | left + 1, i, start, img, h, hne => by
    obtain ⟨img₁, hcmd, h⟩ := parseCommands_succ h
    rw [parseCommands_keeps h fun j hj => ?_]
    · exact parseCommand_dyldInfo_of_ne (hne 0 (Nat.succ_pos _)) hcmd
    · rw [commandOffset_succ]
      exact hne (j + 1) (Nat.succ_lt_succ hj)

/-- The last command about streams decides. -/
theorem parseCommands_last : ∀ {left i start k : ℕ} {img : MachOImage},
    parseCommands bytes left i start img = .ok img' → k < left →
    commandAt bytes (commandOffset bytes start k) = .dyldInfo →
    (∀ j, k < j → j < left → commandAt bytes (commandOffset bytes start j) ≠ .dyldInfo) →
      img'.dyldInfo = some (misread (.ofBytes bytes (commandOffset bytes start k)))
  | 0, i, start, k, img, _, hk, _, _ => absurd hk (Nat.not_lt_zero k)
  | left + 1, i, start, k, img, h, hk, hcmd, hlater => by
    obtain ⟨img₁, hone, h⟩ := parseCommands_succ h
    rcases k with _ | k
    · rw [parseCommands_keeps h fun j hj => ?_]
      · rw [show commandAt bytes start = .dyldInfo from hcmd] at hone
        exact parseCommand_dyldInfo hone
      · rw [commandOffset_succ]
        exact hlater (j + 1) (Nat.succ_pos j) (Nat.succ_lt_succ hj)
    · rw [← commandOffset_succ] at hcmd ⊢
      refine parseCommands_last h (Nat.lt_of_succ_lt_succ hk) hcmd fun j hj hj' => ?_
      rw [commandOffset_succ]
      exact hlater (j + 1) (Nat.succ_lt_succ hj) (Nat.succ_lt_succ hj')

/-- The image of a file has its streams one pair too early from the weak ones on. -/
theorem parse_dyldInfo {c : DyldInfoCommand} (hparse : parse bytes = .ok img)
    (hc : HasDyldInfo bytes c) : img.dyldInfo = some (misread c) := by
  obtain ⟨hthin, i, hi, hcmd, hlater, -, rfl⟩ := hc
  obtain ⟨subtype, filetype, flags, hcmds⟩ := parseThin_eq_ok (parse_thin hthin hparse)
  exact parseCommands_last hcmds hi ((ofWord_eq_dyldInfo_iff _).2 hcmd) fun j hj hj' h =>
    hlater j hj hj' ((ofWord_eq_dyldInfo_iff _).1 h)

theorem misread_eq_streams_iff (c : DyldInfoCommand) : misread c = c.streams ↔ c.PairsEq := by
  simp [misread, DyldInfoCommand.streams, DyldInfoCommand.PairsEq]

/-! ## What the builder makes of it -/

/-- The entry of `lb` in the table of lazy binds. -/
def IsEntryOf (bases : List (Option U64)) (table : SortedMap U64 (String × U64))
    (lb : LazyBind) : Prop :=
  ∃ base, segBase bases lb.segIndex = some base ∧
    table.get? lb.offset = some (lb.symbol, base + lb.segOffset)

/-- The table has an entry of the last bind with an offset and a mapped segment. -/
theorem foldl_addLazyBind (bases : List (Option U64)) (off : U64) :
    ∀ (entries : List LazyBind) (table : SortedMap U64 (String × U64)),
      (∃ lb ∈ entries, lb.offset = off ∧
        IsEntryOf bases (entries.foldl (addLazyBind bases) table) lb) ∨
      (∀ lb ∈ entries, lb.offset = off → segBase bases lb.segIndex = none) ∧
        (entries.foldl (addLazyBind bases) table).get? off = table.get? off
  | [], table => Or.inr ⟨fun _ h => absurd h List.not_mem_nil, rfl⟩
  | lb :: entries, table => by
    rcases foldl_addLazyBind bases off entries (addLazyBind bases table lb) with
      ⟨lb', hmem, hoff, hentry⟩ | ⟨hnone, hget⟩
    · exact Or.inl ⟨lb', List.mem_cons_of_mem _ hmem, hoff, hentry⟩
    · rw [List.foldl_cons]
      rcases hseg : segBase bases lb.segIndex with _ | base
      · have hlb : addLazyBind bases table lb = table := by rw [addLazyBind, hseg]
        rw [hlb] at hget ⊢
        refine Or.inr ⟨fun lb' hlb' hoff => ?_, hget⟩
        rcases List.mem_cons.1 hlb' with rfl | hlb'
        · exact hseg
        · exact hnone lb' hlb' hoff
      · have hlb : addLazyBind bases table lb =
            table.insert lb.offset (lb.symbol, base + lb.segOffset) := by
          rw [addLazyBind, hseg]
        rw [hlb, SortedMap.get?_insert] at hget
        by_cases hoff : lb.offset = off
        · refine Or.inl ⟨lb, List.mem_cons_self, hoff, base, hseg, ?_⟩
          rw [if_pos hoff.symm] at hget
          rw [hoff, hlb]
          exact hget
        · rw [if_neg (Ne.symm hoff)] at hget
          rw [hlb]
          refine Or.inr ⟨fun lb' hlb' hoff' => ?_, hget⟩
          rcases List.mem_cons.1 hlb' with rfl | hlb'
          · exact absurd hoff' hoff
          · exact hnone lb' hlb' hoff'

/-- In every process built from the file, each bind of the lazy stream of `c` for a mapped
segment has an entry at the offset of its sequence, and its symbol has a trampoline. A lazy
stream is one in which only `DO_BIND` emits. -/
def ServesLazyStream (bytes : List U8) (img : MachOImage) (c : DyldInfoCommand) : Prop :=
  ∀ (b : Build) (cfg : LayoutConfig) (m m' : GuestMemory) (p : ProcessImage),
    buildProcess b img bytes cfg m = .ok p m' → c.lazyBindSize ≠ 0 →
    ∀ stream, streamAt b.profile bytes c.lazyBindOff c.lazyBindSize = .ok (some stream) →
      IsPlainStream b.profile stream.length stream →
      ∃ entries rest, parseLazyBindInfo b.profile stream = .ok entries rest ∧
        ∀ lb ∈ entries, (segBase (runtimeBases cfg.slide img.segments) lb.segIndex).isSome →
          (∃ lb' ∈ entries, lb'.offset = lb.offset ∧
            IsEntryOf (runtimeBases cfg.slide img.segments) p.lazyBinds lb') ∧
          ∃ stub, p.symbolStubs.get? lb.symbol = some stub

/-- An image with the right lazy pair serves the lazy stream. -/
theorem servesLazyStream_of_streams {c : DyldInfoCommand} (h : img.dyldInfo = some c.streams) :
    ServesLazyStream bytes img c := by
  intro b cfg m m' p hok hsize stream hstream hplain
  obtain ⟨s⟩ := buildProcess_eq_ok.1 hok
  have hbases := s.segRuntime_eq
  obtain ⟨recs, hrecs, hfold⟩ := bindImports_eq_ok.1 s.bind_eq
  obtain ⟨-, entries, hentries, htable⟩ := lazyTable_eq_ok.1 s.lazy_eq
  simp only [ImageRecords, LazyEntries, h, DyldInfoCommand.streams] at hrecs hentries
  obtain ⟨eager, lazy, -, hlazy, rfl⟩ := hrecs
  rw [if_neg hsize] at hentries
  obtain ⟨stream₁, rest, hs₁, hparse⟩ := hentries
  rw [StreamRecords, if_neg hsize] at hlazy
  obtain ⟨stream₂, rest₂, hs₂, hbind⟩ := hlazy
  obtain rfl : stream = stream₁ := by simpa [hstream] using hs₁
  obtain rfl : stream = stream₂ := by simpa [hstream] using hs₂
  obtain ⟨entries', hparse', hplaces⟩ := parseLazyBindInfo_of_plain hplain hbind
  obtain ⟨rfl, rfl⟩ : entries' = entries ∧ rest₂ = rest := by simpa [hparse] using hparse'.symm
  refine ⟨entries', rest₂, hparse', fun lb hlb hseg => ⟨?_, ?_⟩⟩
  · rw [hbases] at htable
    rw [htable]
    rcases foldl_addLazyBind (runtimeBases cfg.slide img.segments) lb.offset entries' .empty with
      hentry | ⟨hnone, -⟩
    · exact hentry
    · rw [hnone lb hlb rfl] at hseg
      cases hseg
  · -- The bind reader has emitted a record for the same segment and symbol.
    have hplace : lb.place ∈ lazy.map BindRecord.place := hplaces ▸ List.mem_map_of_mem hlb
    obtain ⟨rec, hrec, hrecplace⟩ := List.mem_map.1 hplace
    have hrecseg : rec.segIndex = lb.segIndex := congrArg Prod.fst hrecplace
    have hrecsym : rec.symbol = lb.symbol := congrArg Prod.snd hrecplace
    rw [s.stubs_eq, ← hrecsym]
    refine fold_resolves hfold (List.mem_append_right _ hrec) ?_
    rw [target, Option.isSome_map, hbases, hrecseg]
    exact hseg

/-- The image has the streams of the command, and the lazy one is served, exactly when the
weak, the lazy and the export pair are equal. -/
theorem dyldInfo_iff_pairs_eq (bytes : List U8) (img : MachOImage) (c : DyldInfoCommand)
    (hparse : parse bytes = .ok img) (hc : HasDyldInfo bytes c) :
    img.dyldInfo = some c.streams ∧ ServesLazyStream bytes img c ↔ c.PairsEq := by
  have hinfo := parse_dyldInfo hparse hc
  rw [← misread_eq_streams_iff, hinfo, Option.some.injEq]
  refine ⟨And.left, fun h => ⟨h, ?_⟩⟩
  exact servesLazyStream_of_streams (hinfo.trans (congrArg some h))

/-- A thin file with one segment, the given words after the bind pair of its stream table,
and a lazy stream with one sequence at offset 152. -/
def lazyFile (words : List ℕ) : List U8 :=
  leBytes 4 0xfeedfacf ++ leBytes 4 0x0100000c ++ leBytes 4 0 ++ leBytes 4 2 ++ leBytes 4 2 ++
    leBytes 4 120 ++ leBytes 4 0x200000 ++ leBytes 4 0 ++
    (leBytes 4 0x19 ++ leBytes 4 72 ++ leBytes 16 0x415441445f5f ++ leBytes 8 0x100000000 ++
      leBytes 8 0x4000 ++ leBytes 8 0 ++ leBytes 8 0 ++ leBytes 4 3 ++ leBytes 4 3 ++
      leBytes 4 0 ++ leBytes 4 0) ++
    (leBytes 4 0x80000022 ++ leBytes 4 48 ++ leBytes 16 0 ++ words.flatMap (leBytes 4)) ++
    [0x70, 0x00, 0x40, 0x5f, 0x66, 0x00, 0x90, 0x00]

theorem hasDyldInfo_lazyFile {words : List ℕ} {c : DyldInfoCommand}
    (hthin : wordAt (lazyFile words) 0 = 0xfeedfacf) (hn : wordAt (lazyFile words) 16 = 2)
    (hcmd : wordAt (lazyFile words) (commandOffset (lazyFile words) 32 1) = 0x80000022)
    (hlen : commandOffset (lazyFile words) 32 1 + 48 ≤ (lazyFile words).length)
    (hc : c = .ofBytes (lazyFile words) (commandOffset (lazyFile words) 32 1)) :
    HasDyldInfo (lazyFile words) c := by
  refine ⟨hthin, 1, by rw [hn]; decide, Or.inr hcmd, fun j hj hj' => ?_, hlen, hc⟩
  rw [hn] at hj'
  exact absurd (show j < 2 from hj') (not_lt.2 hj)

/-- With the three pairs equal, the image has the streams of the command. -/
theorem dyldInfo_iff_pairs_eq_lazyFile :
    ∃ img, parse (lazyFile [152, 8, 152, 8, 152, 8]) = .ok img ∧
      HasDyldInfo (lazyFile [152, 8, 152, 8, 152, 8])
        ⟨0, 0, 0, 0, 152, 8, 152, 8, 152, 8⟩ ∧
      img.dyldInfo = some ⟨0, 0, 0, 0, 152, 8, 152, 8⟩ ∧
      ServesLazyStream (lazyFile [152, 8, 152, 8, 152, 8]) img
        ⟨0, 0, 0, 0, 152, 8, 152, 8, 152, 8⟩ := by
  have hok : (parse (lazyFile [152, 8, 152, 8, 152, 8])).toOption.isSome = true := by
    decide +kernel
  have hc : HasDyldInfo (lazyFile [152, 8, 152, 8, 152, 8])
      ⟨0, 0, 0, 0, 152, 8, 152, 8, 152, 8⟩ :=
    hasDyldInfo_lazyFile (by decide) (by decide) (by decide)
      (by decide +kernel) (by decide +kernel)
  rcases hparse : parse (lazyFile [152, 8, 152, 8, 152, 8]) with e | img
  · rw [hparse] at hok
    cases hok
  · exact ⟨img, rfl, hc, (dyldInfo_iff_pairs_eq _ img _ hparse hc).2 (by decide)⟩

/-- A file without weak binds and exports : its lazy stream is taken for the exports, and
the image has no lazy stream. -/
theorem parse_lazyFile_shifted :
    ∃ img, parse (lazyFile [0, 0, 152, 8, 0, 0]) = .ok img ∧
      HasDyldInfo (lazyFile [0, 0, 152, 8, 0, 0]) ⟨0, 0, 0, 0, 0, 0, 152, 8, 0, 0⟩ ∧
      img.dyldInfo = some ⟨0, 0, 0, 0, 0, 0, 152, 8⟩ ∧
      ¬img.dyldInfo = some (DyldInfoCommand.streams ⟨0, 0, 0, 0, 0, 0, 152, 8, 0, 0⟩) := by
  have hok : (parse (lazyFile [0, 0, 152, 8, 0, 0])).toOption.isSome = true := by
    decide +kernel
  have hc : HasDyldInfo (lazyFile [0, 0, 152, 8, 0, 0]) ⟨0, 0, 0, 0, 0, 0, 152, 8, 0, 0⟩ :=
    hasDyldInfo_lazyFile (by decide) (by decide) (by decide)
      (by decide +kernel) (by decide +kernel)
  rcases hparse : parse (lazyFile [0, 0, 152, 8, 0, 0]) with e | img
  · rw [hparse] at hok
    cases hok
  · have hinfo := parse_dyldInfo hparse hc
    refine ⟨img, rfl, hc, hinfo, ?_⟩
    rw [hinfo]
    decide

end IosEmu
