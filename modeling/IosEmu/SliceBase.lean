import IosEmu.ImportBinding
import IosEmu.LoadCommands

/-!
# A slice inside a larger file

The parser can be handed a slice at any offset of the file. It reads the load commands
relative to the slice, so it finds the same image as in the slice alone (`parseThin_drop`).
The offset is not kept in the image, and the builder takes the file offsets of the image from
the start of the file. It builds the same process exactly as far as the ranges that it gets
to read hold the same bytes in the file and in the slice (`SameReads`, `buildProcess_slice`).
-/

open SysLib

namespace IosEmu

open Process MachOImage Reader GuestMemory

/-! ## Readers that look ahead only -/

/-- What `x` reads from `base + pos` on, it reads in the file without the first `base` bytes
from `pos` on. -/
def Relative {α : Type} (x : Reader α) : Prop :=
  ∀ (data : List U8) (base pos pos' : ℕ) (a : α), x data (base + pos) = .ok (a, pos') →
    ∃ q, pos' = base + q ∧ x (data.drop base) pos = .ok (a, q)

section Relative

variable {α β : Type}

theorem relative_pure (a : α) : Relative (pure a : Reader α) := by
  intro data base pos pos' b h
  obtain ⟨rfl, rfl⟩ := pure_eq_ok.1 h
  exact ⟨pos, rfl, rfl⟩

theorem Relative.bind {x : Reader α} {f : α → Reader β} (hx : Relative x)
    (hf : ∀ a, Relative (f a)) : Relative (x >>= f) := by
  intro data base pos pos' b h
  obtain ⟨a, pos₁, hxa, hfb⟩ := bind_eq_ok.1 h
  obtain ⟨q, rfl, hxa'⟩ := hx _ _ _ _ _ hxa
  obtain ⟨q', rfl, hfb'⟩ := hf a _ _ _ _ _ hfb
  exact ⟨q', rfl, bind_eq_ok.2 ⟨a, q, hxa', hfb'⟩⟩

theorem relative_take (n : ℕ) : Relative (take n) := by
  intro data base pos pos' l h
  obtain ⟨hword, hlen, rfl, rfl⟩ := take_eq_ok.1 h
  refine ⟨pos + n, Nat.add_assoc _ _ _, take_eq_ok.2 ⟨by omega, ?_, ?_, rfl⟩⟩
  · rw [List.length_drop]
    omega
  · rw [List.drop_drop]

theorem relative_skip (n : ℕ) : Relative (skip n) := by
  intro data base pos pos' a h
  unfold skip at h ⊢
  split_ifs at h with hword hlen
  obtain ⟨⟩ := Except.ok.inj h
  refine ⟨pos + n, Nat.add_assoc _ _ _, ?_⟩
  rw [if_neg (by omega), if_neg (by rw [List.length_drop]; omega)]

theorem relative_u32Le : Relative u32Le :=
  (relative_take 4).bind fun _ => relative_pure _

theorem relative_u64Le : Relative u64Le :=
  (relative_take 8).bind fun _ => relative_pure _

theorem relative_fixedStr (n : ℕ) : Relative (fixedStr n) :=
  (relative_take n).bind fun _ => relative_pure _

theorem relative_readSections : ∀ n, Relative (readSections n)
  | 0 => relative_pure _
  | n + 1 => by
    iterate 2 refine (relative_fixedStr 16).bind fun _ => ?_
    iterate 2 refine relative_u64Le.bind fun _ => ?_
    iterate 8 refine relative_u32Le.bind fun _ => ?_
    exact (relative_readSections n).bind fun _ => relative_pure _

theorem relative_readSegment : Relative readSegment := by
  refine (relative_fixedStr 16).bind fun _ => ?_
  iterate 4 refine relative_u64Le.bind fun _ => ?_
  iterate 4 refine relative_u32Le.bind fun _ => ?_
  exact (relative_readSections _).bind fun _ => relative_pure _

theorem relative_readArm64ThreadPc : Relative readArm64ThreadPc := by
  refine relative_u32Le.bind fun flavor => relative_u32Le.bind fun count => ?_
  split_ifs
  · exact relative_pure _
  · exact (relative_skip _).bind fun _ => relative_u64Le.bind fun _ => relative_pure _

theorem relative_readDyldInfo : Relative readDyldInfo := by
  iterate 8 refine relative_u32Le.bind fun _ => ?_
  exact relative_pure _

theorem relative_readSymtab : Relative readSymtab := by
  iterate 4 refine relative_u32Le.bind fun _ => ?_
  exact relative_pure _

theorem relative_readEncryption : Relative readEncryption := by
  iterate 3 refine relative_u32Le.bind fun _ => ?_
  exact relative_pure _

theorem relative_readCommand : Relative readCommand := by
  iterate 2 refine relative_u32Le.bind fun _ => ?_
  exact relative_pure _

theorem relative_readHeader : Relative readHeader := by
  refine relative_u32Le.bind fun magic => ?_
  split_ifs
  · exact fun _ _ _ _ _ h => nomatch h
  · refine relative_u32Le.bind fun cputype => ?_
    split_ifs
    · exact fun _ _ _ _ _ h => nomatch h
    · iterate 6 refine relative_u32Le.bind fun _ => ?_
      exact relative_pure _

theorem Relative.runAt_drop {x : Reader α} (hx : Relative x) {data : List U8} {base off : ℕ}
    {a : α} (h : runAt data (base + off) x = .ok a) : runAt (data.drop base) off x = .ok a := by
  obtain ⟨hlen, pos', h⟩ := runAt_eq_ok.1 h
  obtain ⟨q, -, h⟩ := hx _ _ _ _ _ h
  refine runAt_eq_ok.2 ⟨?_, q, h⟩
  rw [List.length_drop]
  omega

end Relative

/-! ## The parser -/

variable {bytes : List U8} {base : ℕ} {img img' : MachOImage}

theorem readLcStr_drop {cmdOff nameOff : ℕ} {path : String}
    (h : readLcStr bytes (base + cmdOff) nameOff = .ok path) :
    readLcStr (bytes.drop base) cmdOff nameOff = .ok path := by
  unfold readLcStr at h ⊢
  split_ifs at h with hword hlen
  rw [if_neg (by omega), if_neg (by rw [List.length_drop]; omega), List.drop_drop,
    ← Nat.add_assoc]
  exact h

/-- A part of a command that is read first, before the rest of it is. -/
theorem Relative.parse_drop {α : Type} {x : Reader α} (hx : Relative x) {off : ℕ}
    {f g : α → EmuResult MachOImage} (hfg : ∀ a, f a = .ok img' → g a = .ok img')
    (h : (runAt bytes (base + off + 8) x >>= f) = .ok img') :
    (runAt (bytes.drop base) (off + 8) x >>= g) = .ok img' := by
  obtain ⟨a, hread, h⟩ := except_bind_eq_ok.1 h
  rw [Nat.add_assoc] at hread
  exact except_bind_eq_ok.2 ⟨a, hx.runAt_drop hread, hfg a h⟩

theorem parseDylib_drop {off : ℕ} {weak reexport : Bool}
    (h : parseDylib bytes (base + off) weak reexport img = .ok img') :
    parseDylib (bytes.drop base) off weak reexport img = .ok img' := by
  refine relative_u32Le.parse_drop (fun nameOff h => ?_) h
  obtain ⟨path, hpath, h⟩ := except_bind_eq_ok.1 h
  exact except_bind_eq_ok.2 ⟨path, readLcStr_drop hpath, h⟩

theorem parseCommand_drop {off : ℕ} {cmd : LoadCommand}
    (h : parseCommand bytes (base + off) img cmd = .ok img') :
    parseCommand (bytes.drop base) off img cmd = .ok img' := by
  rcases cmd with _ | _ | _ | _ | _ | _ | _ | _ | _ | _ | _ | _ | _ | _
  case segment64 => exact relative_readSegment.parse_drop (fun _ h => h) h
  case loadDylib => exact parseDylib_drop h
  case loadWeakDylib => exact parseDylib_drop h
  case reexportDylib => exact parseDylib_drop h
  case loadDylinker =>
    refine relative_u32Le.parse_drop (fun nameOff h => ?_) h
    obtain ⟨path, hpath, h⟩ := except_bind_eq_ok.1 h
    exact except_bind_eq_ok.2 ⟨path, readLcStr_drop hpath, h⟩
  case main =>
    refine Relative.parse_drop ?_ (fun _ h => h) h
    exact relative_u64Le.bind fun _ => relative_u64Le.bind fun _ => relative_pure _
  case unixThread => exact relative_readArm64ThreadPc.parse_drop (fun _ h => h) h
  case symtab => exact relative_readSymtab.parse_drop (fun _ h => h) h
  case dyldInfo => exact relative_readDyldInfo.parse_drop (fun _ h => h) h
  case encryptionInfo64 => exact relative_readEncryption.parse_drop (fun _ h => h) h
  case uuid => exact (relative_take 16).parse_drop (fun _ h => h) h
  case functionStarts =>
    refine Relative.parse_drop ?_ (fun _ h => h) h
    exact relative_u32Le.bind fun _ => relative_u32Le.bind fun _ => relative_pure _
  case versionMinIphoneos => exact relative_u32Le.parse_drop (fun _ h => h) h
  case other => exact h

theorem parseCommands_drop : ∀ {left i off : ℕ} {img : MachOImage},
    parseCommands bytes left i (base + off) img = .ok img' →
      parseCommands (bytes.drop base) left i off img = .ok img'
  | 0, _, _, _, h => h
  | left + 1, i, off, img, h => by
    obtain ⟨⟨cmd, cmdsize⟩, hread, h⟩ := except_bind_eq_ok.1 h
    refine except_bind_eq_ok.2 ⟨(cmd, cmdsize), relative_readCommand.runAt_drop hread, ?_⟩
    dsimp only at h ⊢
    by_cases hsmall : cmdsize.toNat < 8
    · rw [if_pos hsmall] at h
      cases h
    · rw [if_neg hsmall] at h ⊢
      obtain ⟨img₁, hcmd, h⟩ := except_bind_eq_ok.1 h
      refine except_bind_eq_ok.2 ⟨img₁, parseCommand_drop hcmd, ?_⟩
      split_ifs at h with hover
      rw [Nat.add_assoc] at h
      rw [if_neg (by omega)]
      exact parseCommands_drop h

/-- The image of a slice is that of the slice alone. -/
theorem parseThin_drop (h : parseThin bytes base = .ok img) :
    parseThin (bytes.drop base) 0 = .ok img := by
  obtain ⟨⟨subtype, filetype, ncmds, flags⟩, hread, h⟩ := except_bind_eq_ok.1 h
  refine except_bind_eq_ok.2 ⟨(subtype, filetype, ncmds, flags),
    relative_readHeader.runAt_drop hread, ?_⟩
  obtain ⟨img₁, hcmds, h⟩ := except_bind_eq_ok.1 h
  exact except_bind_eq_ok.2 ⟨img₁, parseCommands_drop hcmds, h⟩

/-! ## What the builder reads -/

/-- Mapping gets the same bytes from two files for every segment that it comes to. -/
def SameSegments (p : Profile) (bytes bytes' : List U8) (slide : U64) :
    List Segment → GuestMemory → Prop
  | [], _ => True
  | seg :: segs, m =>
    (seg.name ≠ "__PAGEZERO" → segmentData p bytes seg = segmentData p bytes' seg) ∧
      ∀ base m', mapSegment p bytes slide seg m = .ok base m' →
        SameSegments p bytes bytes' slide segs m'

/-- A stream that is looked for is the same in two files. -/
def SameStream (p : Profile) (bytes bytes' : List U8) (off size : U32) : Prop :=
  size ≠ 0 → streamAt p bytes off size = streamAt p bytes' off size

/-- Every range that the builder gets to read holds the same bytes in two files : the segments
that are mapped, then the rebase stream if there is a slide, the bind stream and the lazy
stream. -/
structure SameReads (b : Build) (image : MachOImage) (bytes bytes' : List U8)
    (cfg : LayoutConfig) (m : GuestMemory) : Prop where
  segments : SameSegments b.profile bytes bytes' cfg.slide image.segments m
  rebase : ∀ bases m₁, mapSegments b.profile bytes cfg.slide image.segments m = .ok bases m₁ →
    cfg.slide ≠ 0 → ∀ info, image.dyldInfo = some info →
      SameStream b.profile bytes bytes' info.rebaseOff info.rebaseSize
  bind : ∀ m₁, BindState b image bytes cfg m m₁ → ∀ info, image.dyldInfo = some info →
    SameStream b.profile bytes bytes' info.bindOff info.bindSize
  lazy : ∀ m₁, BindState b image bytes cfg m m₁ → ∀ info, image.dyldInfo = some info →
    ∀ r m₂, bindStream b.profile bytes (runtimeBases cfg.slide image.segments) info.bindOff
        info.bindSize (.new cfg.trampolineBase cfg.trampolineStride) m₁ = .ok r m₂ →
      SameStream b.profile bytes bytes' info.lazyBindOff info.lazyBindSize

variable {b : Build} {p : Profile} {image : MachOImage} {bytes' : List U8}
  {cfg : LayoutConfig} {m : GuestMemory}

theorem mapSegment_congr {slide : U64} {seg : Segment}
    (h : seg.name ≠ "__PAGEZERO" → segmentData p bytes seg = segmentData p bytes' seg) :
    mapSegment p bytes slide seg = mapSegment p bytes' slide seg := by
  unfold mapSegment
  split_ifs with hzero
  · rfl
  · rw [h hzero]

theorem mapSegments_congr {slide : U64} : ∀ {segs : List Segment} {m : GuestMemory},
    SameSegments p bytes bytes' slide segs m →
      mapSegments p bytes slide segs m = mapSegments p bytes' slide segs m
  | [], _, _ => rfl
  | seg :: segs, m, ⟨hseg, hsegs⟩ => by
    refine Prog.bind_congr_at (by rw [mapSegment_congr hseg]) fun base m₁ hbase => ?_
    exact Prog.bind_congr_at (mapSegments_congr (hsegs base m₁ hbase)) fun _ _ _ => rfl

theorem rebase_congr {slide : U64} {bases : List (Option U64)}
    (h : slide ≠ 0 → ∀ info, image.dyldInfo = some info →
      SameStream p bytes bytes' info.rebaseOff info.rebaseSize) :
    rebase p image bytes slide bases = rebase p image bytes' slide bases := by
  unfold rebase
  split_ifs with hslide
  · rfl
  · rcases hinfo : image.dyldInfo with _ | info
    · rfl
    · dsimp only
      split_ifs with hsize
      · rfl
      · unfold readStream
        rw [h hslide info hinfo hsize]

theorem streamRecords_congr {off size : U32} (h : SameStream p bytes bytes' off size) :
    streamRecords p bytes off size = streamRecords p bytes' off size := by
  unfold streamRecords
  split_ifs with hsize
  · rfl
  · unfold readStream
    rw [h hsize]

theorem bindStream_congr {bases : List (Option U64)} {off size : U32} {r : StubResolver}
    (h : SameStream p bytes bytes' off size) :
    bindStream p bytes bases off size r = bindStream p bytes' bases off size r := by
  unfold bindStream
  rw [streamRecords_congr h]

theorem lazyTable_congr {bases : List (Option U64)}
    (h : ∀ info, image.dyldInfo = some info →
      SameStream p bytes bytes' info.lazyBindOff info.lazyBindSize) :
    lazyTable p image bytes bases = lazyTable p image bytes' bases := by
  unfold lazyTable
  rcases hinfo : image.dyldInfo with _ | info
  · rfl
  · dsimp only
    split_ifs with hsize
    · rfl
    · unfold readStream
      rw [h info hinfo hsize]

/-- The imports are bound alike. -/
theorem SameReads.bindImports_eq (h : SameReads b image bytes bytes' cfg m)
    {m₁ : GuestMemory} (hm₁ : BindState b image bytes cfg m m₁) :
    bindImports b.profile image bytes (runtimeBases cfg.slide image.segments)
        (.new cfg.trampolineBase cfg.trampolineStride) m₁ =
      bindImports b.profile image bytes' (runtimeBases cfg.slide image.segments)
        (.new cfg.trampolineBase cfg.trampolineStride) m₁ := by
  unfold bindImports
  rcases hinfo : image.dyldInfo with _ | info
  · rfl
  · refine Prog.bind_congr_at ?_ fun r m₂ hr => ?_
    · rw [bindStream_congr (h.bind m₁ hm₁ info hinfo)]
    · rw [bindStream_congr (h.lazy m₁ hm₁ info hinfo r m₂ hr)]

/-- A bound image has a lazy stream that was looked for. -/
theorem SameReads.lazyTable_eq (h : SameReads b image bytes bytes' cfg m) {m₁ m₂ : GuestMemory}
    (hm₁ : BindState b image bytes cfg m m₁) {r : StubResolver}
    (hr : bindImports b.profile image bytes (runtimeBases cfg.slide image.segments)
      (.new cfg.trampolineBase cfg.trampolineStride) m₁ = .ok r m₂)
    (bases : List (Option U64)) :
    lazyTable b.profile image bytes bases = lazyTable b.profile image bytes' bases := by
  refine lazyTable_congr fun info hinfo => ?_
  unfold bindImports at hr
  simp only [hinfo] at hr
  obtain ⟨r₁, m₃, heager, -⟩ := Prog.bind_eq_ok.1 hr
  exact h.lazy m₁ hm₁ info hinfo r₁ m₃ heager

/-- Files with the same reads are built alike. -/
theorem SameReads.buildProcess_eq (h : SameReads b image bytes bytes' cfg m) :
    buildProcess b image bytes cfg m = buildProcess b image bytes' cfg m := by
  unfold buildProcess
  split_ifs with henc
  · rfl
  · have hbind : bindImage b.profile image bytes cfg m =
        bindImage b.profile image bytes' cfg m := by
      refine Prog.bind_congr_at (mapSegments_congr h.segments) fun bases m₀ hmap => ?_
      refine Prog.bind_congr_at ?_ fun _ m₁ hrebase => ?_
      · rw [rebase_congr (h.rebase bases m₀ hmap)]
      · obtain rfl := mapSegments_bases hmap
        exact Prog.bind_congr_at (h.bindImports_eq ⟨_, m₀, hmap, hrebase⟩) fun _ _ _ => rfl
    refine Prog.bind_congr_at hbind fun ⟨bases, r⟩ m₂ hok => ?_
    refine Prog.bind_congr_at rfl fun stop m₃ _ => ?_
    simp only [bindImage, Prog.bind_eq_ok, Prog.pure_apply, Outcome.ok.injEq, Prod.mk.injEq] at hok
    obtain ⟨bases', m₀, hmap, _, m₁, hrebase, r', _, himports, ⟨rfl, rfl⟩, rfl⟩ := hok
    obtain rfl := mapSegments_bases hmap
    unfold finish
    rw [h.lazyTable_eq ⟨_, m₀, hmap, hrebase⟩ himports]

/-! ## The slice and the file -/

/-- A slice is parsed as if it were alone. It is loaded so too if it is encrypted, and refused,
or if every range that the builder gets to read holds the same bytes in the file and in the
slice. -/
theorem buildProcess_slice (b : Build) (bytes : List U8) (base : ℕ) (img : MachOImage)
    (cfg : LayoutConfig) (m : GuestMemory) (hparse : parseThin bytes base = .ok img)
    (h : img.isEncrypted = true ∨ SameReads b img bytes (bytes.drop base) cfg m) :
    parseThin (bytes.drop base) 0 = .ok img ∧
      buildProcess b img bytes cfg m = buildProcess b img (bytes.drop base) cfg m := by
  refine ⟨parseThin_drop hparse, ?_⟩
  rcases h with henc | hsame
  · unfold buildProcess
    rw [if_pos henc, if_pos henc]
  · exact hsame.buildProcess_eq

/-- A file that holds the same slice twice : the second one is loaded like the first. -/
theorem buildProcess_slice_twice :
    parseThin (importFile ++ importFile) 190 = .ok importImage ∧
      parseThin importFile 0 = .ok importImage ∧
      buildProcess ⟨.release, .host⟩ importImage (importFile ++ importFile) importConfig
          importMemory =
        buildProcess ⟨.release, .host⟩ importImage importFile importConfig importMemory := by
  have hparse : parseThin (importFile ++ importFile) 190 = .ok importImage := by decide +kernel
  have hdrop : (importFile ++ importFile).drop 190 = importFile := by decide +kernel
  have hempty : SameStream .release (importFile ++ importFile) importFile 0 0 :=
    fun h => absurd rfl h
  have hsame : SameReads ⟨.release, .host⟩ importImage (importFile ++ importFile)
      ((importFile ++ importFile).drop 190) importConfig importMemory := by
    have hinfo : ∀ info, importImage.dyldInfo = some info → ⟨0, 0, 176, 14, 0, 0, 0, 0⟩ = info :=
      fun _ h => Option.some.inj h
    rw [hdrop]
    refine ⟨⟨fun _ => by decide, fun _ _ _ => trivial⟩, ?_, ?_, ?_⟩
    · intro _ _ _ _ info h
      obtain rfl := hinfo info h
      exact hempty
    · intro _ _ info h _
      obtain rfl := hinfo info h
      decide +kernel
    · intro _ _ info h _ _ _
      obtain rfl := hinfo info h
      exact hempty
  have h := buildProcess_slice ⟨.release, .host⟩ (importFile ++ importFile) 190 importImage
    importConfig importMemory hparse (Or.inr hsame)
  rw [hdrop] at h
  exact ⟨hparse, h⟩

/-- A table of one slice, at offset 256, and the slice there. -/
def slicedFile : List U8 :=
  [0xbe, 0xba, 0xfe, 0xca, 0, 0, 0, 1, 0x01, 0, 0, 0x0c, 0, 0, 0, 0, 0, 0, 1, 0, 0, 0, 0, 190,
    0, 0, 0, 0] ++ List.replicate 228 0 ++ importFile

/-- The bytes at the file offset of the bind stream are zeros before the slice. -/
theorem imageRecords_slicedFile : ImageRecords .release importImage slicedFile [] := by
  refine ⟨[], [], ?_, rfl, rfl⟩
  rw [StreamRecords, if_neg (by decide)]
  exact ⟨List.replicate 14 0, [], by decide +kernel, by decide +kernel⟩

set_option maxRecDepth 100000 in
theorem bindImage_slicedFile :
    ((bindImage .release importImage slicedFile importConfig >>= fun x =>
      publishPage ⟨.release, .host⟩ importConfig x.2 >>= fun stop =>
        finish ⟨.release, .host⟩ importImage slicedFile importConfig x.1 x.2 stop)
      importMemory).isOk = true := by
  decide +kernel

/-- Both are loaded, but the process of the file has no import, and that of the slice has. -/
theorem buildProcess_slicedFile_ne :
    parse slicedFile = .ok importImage ∧ parseThin slicedFile 256 = .ok importImage ∧
      parseThin (slicedFile.drop 256) 0 = .ok importImage ∧
      ∃ p m₁ q m₂,
        buildProcess ⟨.release, .host⟩ importImage slicedFile importConfig importMemory =
          .ok p m₁ ∧
        buildProcess ⟨.release, .host⟩ importImage (slicedFile.drop 256) importConfig
          importMemory = .ok q m₂ ∧
        p.symbolStubs.get? "_malloc" = none ∧ q.symbolStubs.get? "_malloc" ≠ none := by
  have hparse : parseThin slicedFile 256 = .ok importImage := by decide +kernel
  have hdrop : slicedFile.drop 256 = importFile := by decide +kernel
  obtain ⟨p, m₁, hrun⟩ := Outcome.isOk_iff.1 bindImage_slicedFile
  have hp : buildProcess ⟨.release, .host⟩ importImage slicedFile importConfig importMemory =
      .ok p m₁ :=
    buildProcess_of_page reachable_importMemory.inv isDefault_importConfig.stride_eq rfl hrun
  obtain ⟨q, m₂, hq⟩ := buildProcess_importFile
  refine ⟨by decide +kernel, hparse, parseThin_drop hparse, p, m₁, q, m₂, hp, ?_, ?_, ?_⟩
  · rw [hdrop]
    exact hq
  · obtain ⟨syms, -, -, hmem, hstubs⟩ := stubs_numbered rfl hp
    by_contra hstub
    obtain ⟨a, ha⟩ := Option.ne_none_iff_exists'.1 hstub
    obtain ⟨k, hk, -⟩ := (hstubs _ a).1 ha
    obtain ⟨rec, hrec, -⟩ := (hmem [] imageRecords_slicedFile _).1 (List.mem_of_getElem? hk)
    cases hrec
  · obtain ⟨syms, -, -, hmem, hstubs⟩ := stubs_numbered rfl hq
    have hsym : "_malloc" ∈ syms :=
      (hmem _ imageRecords_importFile _).2 ⟨importRecord, List.mem_cons_self, by decide, rfl⟩
    obtain ⟨k, hk⟩ := List.getElem?_of_mem hsym
    rw [(hstubs _ _).2 ⟨k, hk, rfl⟩]
    exact Option.some_ne_none _

end IosEmu
