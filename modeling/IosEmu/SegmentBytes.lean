import IosEmu.ImportBinding
import IosEmu.Segments

/-!
# The bytes of a loaded segment

A segment should hold its bytes of the file, and zeros after them, in every byte that no
location or record stores in. The builder takes no bytes at all for a segment whose range
ends past the end of the file, and goes on : such a segment is loaded as zeros. Where every
range passes that test, and no segment is replaced, the segments hold what they should
(`holdsFile_of_takesFile`).
-/

open SysLib

namespace IosEmu

open Process GuestMemory

/-- The byte of the file that belongs at an index of a segment, and zero after the last. -/
def fileByte (bytes : List U8) (seg : Segment) (i : ℕ) : Option U8 :=
  if i < seg.filesize.toNat then bytes[seg.fileoff.toNat + i]? else some 0

/-- The range of a segment lies in the file, and the segment holds the bytes of the file and
zeros after them wherever no location or record stores. -/
structure HoldsFile (p : Profile) (image : MachOImage) (bytes : List U8) (slide : U64)
    (m : GuestMemory) (seg : Segment) : Prop where
  range_le : 0 < seg.filesize → seg.fileoff.toNat + seg.filesize.toNat ≤ bytes.length
  byte_eq : ∀ i < (mappedSize bytes seg).toNat,
    (seg.vmaddr + slide).toNat + i ∉ touched p image bytes slide →
      m.flat.byte ((seg.vmaddr + slide).toNat + i) = fileByte bytes seg i

/-- The test by which the builder takes the bytes of a segment. -/
def TakesFile (bytes : List U8) (seg : Segment) : Prop :=
  0 < seg.filesize → (seg.fileoff + seg.filesize).toNat ≤ bytes.length

instance decidableTakesFile (bytes : List U8) (seg : Segment) : Decidable (TakesFile bytes seg) :=
  inferInstanceAs (Decidable (_ → _))

variable {b : Build} {image : MachOImage} {bytes : List U8} {cfg : LayoutConfig}
  {m m' : GuestMemory} {p : ProcessImage}

/-- Mapping only goes on over ranges that can be sliced. -/
theorem dataFits_of_mapSegments {p : Profile} {slide : U64} :
    ∀ {segs : List Segment} {m m' : GuestMemory} {bases : List (Option U64)},
      mapSegments p bytes slide segs m = .ok bases m' →
      ∀ seg ∈ segs, seg.name ≠ "__PAGEZERO" → DataFits p bytes seg
  | s :: segs, m, m', bases, h, seg, hseg, hname => by
    obtain ⟨base?, m₁, hs, h⟩ := Prog.bind_eq_ok.1 h
    obtain ⟨rest, m₂, hrest, -⟩ := Prog.bind_eq_ok.1 h
    rcases List.mem_cons.1 hseg with rfl | hseg
    · rcases mapSegment_cases hs with ⟨hguard, -⟩ | ⟨-, -, hfits, -⟩
      · exact absurd hguard hname
      · exact hfits
    · exact dataFits_of_mapSegments hrest seg hseg hname

/-- A range that passes the test lies in the file, as its end has not wrapped. -/
theorem range_le_of_takesFile {p : Profile} {seg : Segment} (hfits : DataFits p bytes seg)
    (htakes : TakesFile bytes seg) (hpos : 0 < seg.filesize) :
    seg.fileoff.toNat + seg.filesize.toNat ≤ bytes.length := by
  have hle := htakes hpos
  have hnowrap := BitVec.le_def.1 (hfits.2 hpos hle)
  have hoff := seg.fileoff.isLt
  have hsize := seg.filesize.isLt
  have hpos' : 0 < seg.filesize.toNat := BitVec.lt_def.1 hpos
  rw [BitVec.toNat_add] at hle hnowrap
  omega

/-- The bytes a segment is mapped with are its bytes of the file. -/
theorem fileData_getD {p : Profile} {seg : Segment} (hfits : DataFits p bytes seg)
    (htakes : TakesFile bytes seg) (i : ℕ) :
    some ((fileData bytes seg).getD i 0) = fileByte bytes seg i := by
  unfold fileByte
  by_cases hpos : 0 < seg.filesize
  · have hrange := range_le_of_takesFile hfits htakes hpos
    have hend : (seg.fileoff + seg.filesize).toNat = seg.fileoff.toNat + seg.filesize.toNat := by
      have := BitVec.le_def.1 (hfits.2 hpos (htakes hpos))
      have hpos' : 0 < seg.filesize.toNat := BitVec.lt_def.1 hpos
      rw [BitVec.toNat_add] at this ⊢
      omega
    have hdata : fileData bytes seg = (bytes.drop seg.fileoff.toNat).take seg.filesize.toNat := by
      rw [fileData, if_pos ⟨hpos, htakes hpos⟩, hend, Nat.add_sub_cancel_left]
    have hlen : (fileData bytes seg).length = seg.filesize.toNat := by
      rw [hdata, List.length_take, List.length_drop]
      omega
    split_ifs with hi
    · rw [List.getD_eq_getElem _ _ (by omega), ← List.getElem?_eq_getElem, hdata,
        List.getElem?_take_of_lt hi, List.getElem?_drop]
    · rw [List.getD_eq_default _ _ (by omega)]
  · have hzero : ¬0 < seg.filesize.toNat := hpos
    rw [if_neg (by omega), fileData, if_neg fun h => hpos h.1]
    rfl

/-- A build loads every segment with its bytes of the file only if every range passes the
test; and it does so if, further, no segment is replaced and the arguments fit into the
stack. -/
theorem holdsFile_of_takesFile (b : Build) (image : MachOImage) (bytes : List U8)
    (cfg : LayoutConfig) (m m' : GuestMemory) (p : ProcessImage) (hm : Reachable b.profile m)
    (hok : buildProcess b image bytes cfg m = .ok p m') :
    ((∀ seg ∈ image.segments, seg.name ≠ "__PAGEZERO" →
        HoldsFile b.profile image bytes cfg.slide m' seg) →
      ∀ seg ∈ image.segments, seg.name ≠ "__PAGEZERO" → TakesFile bytes seg) ∧
    ((∀ seg ∈ image.segments, seg.name ≠ "__PAGEZERO" → TakesFile bytes seg) →
      Unreplaced bytes image.segments → StackFits cfg →
      ∀ seg ∈ image.segments, seg.name ≠ "__PAGEZERO" →
        HoldsFile b.profile image bytes cfg.slide m' seg) := by
  obtain ⟨st⟩ := buildProcess_eq_ok.1 hok
  refine ⟨fun h seg hseg hname hpos => ?_, fun htakes hkept hstack seg hseg hname => ?_⟩
  · have hrange := (h seg hseg hname).range_le hpos
    rw [BitVec.toNat_add]
    exact (Nat.mod_le _ _).trans hrange
  · have hfits := dataFits_of_mapSegments st.map_eq seg hseg hname
    have htake := htakes seg hseg hname
    refine ⟨range_le_of_takesFile hfits htake, fun i hi hfree => ?_⟩
    have hsize : mappedSize bytes seg ≠ 0 := by
      intro hzero
      rw [hzero] at hi
      exact absurd hi (Nat.not_lt_zero i)
    rw [st.byte_segment hstack hm.inv (hkept.lastAt_eq hname hsize hseg) hi hfree,
      fileData_getD hfits htake]

/-! ## A whole and a truncated file -/

/-- A thin file of 190 bytes, whose only segment takes `filesize` bytes from the start. -/
def sizedFile (filesize : ℕ) : List U8 :=
  leBytes 4 0xfeedfacf ++ leBytes 4 0x0100000c ++ leBytes 4 0 ++ leBytes 4 2 ++ leBytes 4 3 ++
    leBytes 4 144 ++ leBytes 4 0x200000 ++ leBytes 4 0 ++
    (leBytes 4 0x19 ++ leBytes 4 72 ++ leBytes 16 0x415441445f5f ++ leBytes 8 0x100000000 ++
      leBytes 8 0x4000 ++ leBytes 8 0 ++ leBytes 8 filesize ++ leBytes 4 3 ++ leBytes 4 3 ++
      leBytes 4 0 ++ leBytes 4 0) ++
    (leBytes 4 0x80000022 ++ leBytes 4 48 ++ leBytes 8 0 ++ leBytes 4 176 ++ leBytes 4 14 ++
      leBytes 24 0) ++
    (leBytes 4 0x80000028 ++ leBytes 4 24 ++ leBytes 16 0) ++
    [0x40, 0x5f, 0x6d, 0x61, 0x6c, 0x6c, 0x6f, 0x63, 0x00, 0x70, 0x80, 0x02, 0x90, 0x00]

/-- Its segment. -/
def sizedSegment (filesize : U64) : Segment :=
  ⟨"__DATA", 0x100000000, 0x4000, 0, filesize, .rw, .rw, []⟩

/-- Its image. -/
def sizedImage (filesize : U64) : MachOImage :=
  { importImage with segments := [sizedSegment filesize] }

set_option maxRecDepth 100000 in
theorem build_sizedFile {filesize : ℕ} (h : filesize = 190 ∨ filesize = 0x1000) :
    MachOImage.parse (sizedFile filesize) = .ok (sizedImage (BitVec.ofNat 64 filesize)) ∧
      ∃ p m', buildProcess ⟨.release, .host⟩ (sizedImage (BitVec.ofNat 64 filesize))
        (sizedFile filesize) importConfig importMemory = .ok p m' := by
  have hrun : MachOImage.parse (sizedFile filesize) =
      .ok (sizedImage (BitVec.ofNat 64 filesize)) ∧
      ((bindImage .release (sizedImage (BitVec.ofNat 64 filesize)) (sizedFile filesize)
        importConfig >>= fun x => publishPage ⟨.release, .host⟩ importConfig x.2 >>= fun stop =>
          finish ⟨.release, .host⟩ (sizedImage (BitVec.ofNat 64 filesize)) (sizedFile filesize)
            importConfig x.1 x.2 stop) importMemory).isOk = true := by
    rcases h with rfl | rfl <;> decide +kernel
  obtain ⟨hparse, hok⟩ := hrun
  obtain ⟨p, m', h⟩ := Outcome.isOk_iff.1 hok
  exact ⟨hparse, p, m',
    buildProcess_of_page reachable_importMemory.inv isDefault_importConfig.stride_eq rfl h⟩

/-- The only record of the file stores at offset 256, and nothing is relocated. -/
theorem not_mem_touched_sizedFile {filesize : ℕ} (h : filesize = 190 ∨ filesize = 0x1000) :
    0x100000000 ∉ touched .release (sizedImage (BitVec.ofNat 64 filesize)) (sizedFile filesize)
      0 := by
  have hrecs : ImageRecords .release (sizedImage (BitVec.ofNat 64 filesize)) (sizedFile filesize)
      [importRecord] := by
    refine ⟨[importRecord], [], ?_, rfl, rfl⟩
    rw [StreamRecords, if_neg (by decide)]
    refine ⟨(sizedFile filesize).drop 176, [], ?_⟩
    rcases h with rfl | rfl <;> decide +kernel
  rintro (⟨locs, hlocs, loc, hloc, -⟩ | ⟨recs, hrecs', rec, hrec, a, ha, hx⟩)
  · rw [ImageLocations, if_pos rfl] at hlocs
    rw [hlocs] at hloc
    cases hloc
  · obtain rfl := hrecs.unique hrecs'
    obtain rfl := List.mem_singleton.1 hrec
    obtain rfl : (0x100000100 : U64) = a := Option.some.inj ha
    exact absurd hx.1 (by decide)

theorem stackFits_importConfig : StackFits importConfig :=
  isDefault_importConfig.stackFits (by decide)

/-- A segment that takes the whole file starts with the magic number. -/
theorem holdsFile_of_takesFile_wholeFile :
    Reachable .release importMemory ∧
      ∃ p m', buildProcess ⟨.release, .host⟩ (sizedImage 190) (sizedFile 190) importConfig
        importMemory = .ok p m' ∧ m'.flat.byte 0x100000000 = some 0xcf := by
  obtain ⟨-, p, m', hok⟩ := build_sizedFile (Or.inl rfl)
  refine ⟨reachable_importMemory, p, m', hok, ?_⟩
  have hholds := (holdsFile_of_takesFile _ _ _ _ _ _ _ reachable_importMemory hok).2
    (by decide +kernel) (by decide) stackFits_importConfig _ List.mem_cons_self (by decide)
  exact hholds.byte_eq 0 (by decide +kernel) (not_mem_touched_sizedFile (Or.inl rfl))

/-- A segment whose range ends past the end of the file is loaded, and its first byte is zero
where the file has the magic number. -/
theorem truncatedFile_not_holdsFile :
    Reachable .release importMemory ∧
      MachOImage.parse (sizedFile 0x1000) = .ok (sizedImage 0x1000) ∧
      ∃ p m', buildProcess ⟨.release, .host⟩ (sizedImage 0x1000) (sizedFile 0x1000) importConfig
          importMemory = .ok p m' ∧
        m'.flat.byte 0x100000000 = some 0 ∧ (sizedFile 0x1000)[0]? = some 0xcf ∧
        ¬∀ seg ∈ (sizedImage 0x1000).segments, seg.name ≠ "__PAGEZERO" →
          HoldsFile .release (sizedImage 0x1000) (sizedFile 0x1000) 0 m' seg := by
  obtain ⟨hparse, p, m', hok⟩ := build_sizedFile (Or.inr rfl)
  obtain ⟨st⟩ := buildProcess_eq_ok.1 hok
  refine ⟨reachable_importMemory, hparse, p, m', hok, ?_, by decide, fun h => ?_⟩
  · have hlast : lastAt (sizedSegment 0x1000).vmaddr (sizedImage 0x1000).segments =
        some (sizedSegment 0x1000) := by
      decide
    have hzero := st.byte_segment (i := 0) stackFits_importConfig reachable_importMemory.inv hlast
      (by decide +kernel) (not_mem_touched_sizedFile (Or.inr rfl))
    exact hzero.trans (by decide +kernel)
  · have hrange := (h _ List.mem_cons_self (by decide)).range_le (by decide)
    exact absurd hrange (by decide +kernel)

end IosEmu
