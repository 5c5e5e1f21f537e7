import IosEmu.Machine
import IosEmu.RecordBounds
import Mathlib.Data.List.Dedup

/-!
# Reservations on device

On device the image and the page of trampolines are laid over two reservations of the kernel.
The one for the image spans from the preferred base to the highest end of a segment; but a
segment may start below that base, and is mapped with whole pages and with all its bytes of
the file, so its region may lie outside. The one for the trampolines has a fixed size. Where
every segment and the trampolines fit, so does every span that `protect` copies and protects
natively (`native_inside_iff`).
-/

open SysLib

namespace IosEmu

open Process

/-! ## Spans -/

namespace GuestMemory

variable {m m' : GuestMemory}

/-- The sizes of the regions by their keys. -/
def spans (m : GuestMemory) (k : U64) : Option ℕ :=
  (m.regions.get? k).map fun r => r.data.size

theorem spans_eq_some {k : U64} {n : ℕ} :
    m.spans k = some n ↔ ∃ r, m.regions.get? k = some r ∧ r.data.size = n :=
  Option.map_eq_some_iff

/-- No region moves or changes its size. -/
def KeepsSpans (m m' : GuestMemory) : Prop :=
  m'.spans = m.spans

instance keepsSpansPreorder : IsPreorder GuestMemory KeepsSpans where
  refl _ := rfl
  trans _ _ _ h₁ h₂ := h₂.trans h₁

theorem keepsSpans_insert {key : U64} {r r' : Region} (hr : m.regions.get? key = some r)
    (hsize : r'.data.size = r.data.size) :
    KeepsSpans m { m with regions := m.regions.insert key r' } := by
  funext k
  dsimp only [spans]
  rw [SortedMap.get?_insert]
  split_ifs with hk
  · rw [hk, hr, Option.map_some, Option.map_some, hsize]
  · rfl

theorem keepsSpans_write (a : U64) (d : List U8) : (write a d).Steps KeepsSpans := by
  refine (write_failsClean a d).steps (refl_of KeepsSpans) fun m u m' hw => ?_
  obtain ⟨key, r, hl, -, -, -, rfl⟩ := write_eq_ok.1 hw
  exact keepsSpans_insert (get?_of_lastLE hl) rfl

theorem keepsSpans_protect (target : Target) (a : U64) (prot : Protection) :
    (protect target a prot).Steps KeepsSpans := by
  intro m m' h
  rcases protect_cases h with rfl | ⟨key, r, hr, rfl⟩
  · exact refl_of KeepsSpans m'
  · exact keepsSpans_insert hr rfl

/-- The span that `protect` copies and protects natively : the region that holds the
address. -/
def nativeSpan (m : GuestMemory) (a : U64) : Option (U64 × ℕ) :=
  match m.regionBase a with
  | .ok base => (m.regions.get? base).map fun r => (base, r.data.size)
  | .error _ => none

theorem Inv.nativeSpan_eq_some (h : m.Inv) {a k : U64} {n : ℕ} :
    m.nativeSpan a = some (k, n) ↔
      m.spans k = some n ∧ k.toNat ≤ a.toNat ∧ a.toNat < k.toNat + n := by
  unfold nativeSpan
  rcases hb : m.regionBase a with e | base
  · simp only [reduceCtorEq, false_iff]
    rintro ⟨hspan, hle, hlt⟩
    obtain ⟨r, hr, rfl⟩ := spans_eq_some.1 hspan
    rw [(regionBase_eq_ok m h a k).2 ⟨r, hr, ?_⟩] at hb
    · cases hb
    · rw [h.base_eq k r hr]
      exact ⟨BitVec.le_def.2 hle, hlt⟩
  · obtain ⟨r, hr, hle, hlt⟩ := (regionBase_eq_ok m h a base).1 hb
    rw [h.base_eq base r hr] at hle hlt
    simp only [hr, Option.map_some, Option.some.injEq, Prod.mk.injEq]
    constructor
    · rintro ⟨rfl, rfl⟩
      exact ⟨spans_eq_some.2 ⟨r, hr, rfl⟩, BitVec.le_def.1 hle, hlt⟩
    · rintro ⟨hspan, hle', hlt'⟩
      obtain ⟨r', hr', rfl⟩ := spans_eq_some.1 hspan
      have hkey : k = base := by
        refine h.holds_unique ⟨r', hr', ?_⟩ ((regionBase_eq_ok m h a base).1 hb)
        rw [h.base_eq k r' hr']
        exact ⟨BitVec.le_def.2 hle', hlt'⟩
      subst hkey
      obtain rfl : r = r' := Option.some.inj (hr.symm.trans hr')
      exact ⟨rfl, rfl⟩

end GuestMemory

open GuestMemory

/-! ## The spans of a build -/

namespace Process

variable {p : Profile} {bytes : List U8} {slide : U64} {m m' : GuestMemory}

/-- A span that holds the base of a segment is the one of a segment, as the regions of before
do not reach into it. -/
theorem span_of_mapSegments {segs : List Segment} {bases : List (Option U64)} {seg : Segment}
    {k : U64} {n : ℕ} (hinv : m.Inv) (h : mapSegments p bytes slide segs m = .ok bases m')
    (hseg : seg ∈ segs) (hname : seg.name ≠ "__PAGEZERO") (hspan : m'.spans k = some n)
    (hle : k.toNat ≤ (seg.vmaddr + slide).toNat) (hlt : (seg.vmaddr + slide).toNat < k.toNat + n) :
    ∃ seg' ∈ segs, seg'.name ≠ "__PAGEZERO" ∧ k = seg'.vmaddr + slide ∧
      n = (mappedSize bytes seg').toNat := by
  have hinv' : m'.Inv := (keepsInv_mapSegments _ _ _ _).ok h hinv
  obtain ⟨r, hr, rfl⟩ := spans_eq_some.1 hspan
  have hget := get?_mapSegments h (k - slide)
  rw [BitVec.sub_add_cancel] at hget
  rcases hlast : lastAt (k - slide) segs with _ | seg'
  · exfalso
    rcases hlast' : lastAt seg.vmaddr segs with _ | seg''
    · exact lastAt_eq_none_iff.1 hlast' seg hseg hname rfl
    obtain ⟨r', hr', -⟩ := (get?_mapSegments h seg.vmaddr).1 seg'' hlast'
    have hne : k ≠ seg.vmaddr + slide := by
      rintro rfl
      rw [BitVec.add_sub_cancel, hlast'] at hlast
      cases hlast
    have hend := hinv'.end_le hr hr' (lt_of_le_of_ne (BitVec.le_def.2 hle) hne)
    omega
  · obtain ⟨r', hr', hreg⟩ := hget.1 seg' hlast
    obtain rfl : r = r' := Option.some.inj (hr.symm.trans hr')
    obtain ⟨hmem, hname', hvm⟩ := lastAt_eq_some hlast
    refine ⟨seg', hmem, hname', ?_, hreg.size_eq⟩
    rw [hvm, BitVec.sub_add_cancel]

/-- A new region is one more span. -/
theorem spans_of_map {base size : U64} {prot : Protection} {kind : RegionKind} {name : String}
    (h : map p base size prot kind name m = .ok () m') :
    m'.spans = Function.update m.spans base (some (pageRound (max size 1)).toNat) := by
  obtain ⟨s, hs, -, hcap, rfl⟩ := map_eq_ok.1 h
  obtain rfl := alignUp_eq_ok hs
  funext k
  rw [Function.update_apply]
  dsimp only [spans]
  rw [SortedMap.get?_insert]
  split_ifs
  · rfl
  · rfl

variable {image : MachOImage} {cfg : LayoutConfig} {bases : List (Option U64)} {r : StubResolver}

/-- Relocation and binding keep the spans of the segments. -/
theorem spans_of_bindImage (hinv : m.Inv)
    (h : bindImage p image bytes cfg m = .ok (bases, r) m') :
    bases = runtimeBases cfg.slide image.segments ∧ m'.Inv ∧
      (∃ m₀, mapSegments p bytes cfg.slide image.segments m = .ok bases m₀ ∧
        m'.spans = m₀.spans) ∧
      ∃ m₁, bindImports p image bytes bases (.new cfg.trampolineBase cfg.trampolineStride) m₁ =
        .ok r m' := by
  obtain ⟨bases, m₀, hmap, h⟩ := Prog.bind_eq_ok.1 h
  obtain ⟨⟨⟩, m₁, hrebase, h⟩ := Prog.bind_eq_ok.1 h
  obtain ⟨r', m₂, hbind, h⟩ := Prog.bind_eq_ok.1 h
  obtain ⟨⟨rfl, rfl⟩, rfl⟩ : (bases = _ ∧ r' = r) ∧ m₂ = m' := by simpa using h
  obtain ⟨recs, -, hfold⟩ := bindImports_eq_ok.1 hbind
  have hinv₀ := (keepsInv_mapSegments _ _ _ _).ok hmap hinv
  have hinv₁ := (keepsInv_rebase _ _ _ _ _).ok hrebase hinv₀
  have hspans₁ : KeepsSpans m₀ m₁ := (steps_rebase keepsSpans_write).ok hrebase
  have hspans₂ : KeepsSpans m₁ m₂ :=
    (Prog.Steps.foldlM fun r rec _ => steps_bindOne keepsSpans_write r rec).ok hfold
  exact ⟨mapSegments_bases hmap, keepsInv_bindImports hinv₁ hbind,
    ⟨m₀, hmap, trans_of KeepsSpans hspans₁ hspans₂⟩, m₁, hbind⟩

/-- The symbols that the records of mapped segments import. -/
def importNames (bases : List (Option U64)) (recs : List BindRecord) : List String :=
  (recs.filter fun rec => (target bases rec).isSome).map BindRecord.symbol

/-- The trampolines take 16 bytes for every symbol. -/
theorem used_of_bindImports {base : U64} {recs : List BindRecord}
    (h : bindImports p image bytes bases (.new base 16) m = .ok r m')
    (hrecs : ImageRecords p image bytes recs) :
    (r.next - r.base).toNat = 16 * (importNames bases recs).dedup.length ∧
      (importNames bases recs).dedup.length ≤ 2 ^ 33 := by
  obtain ⟨-, syms, hs, hlen, hmem⟩ := serves_of_bindImports h
  have hperm : syms.Perm (importNames bases recs).dedup := by
    refine (List.perm_ext_iff_of_nodup hs.nodup (List.nodup_dedup _)).2 fun t => ?_
    rw [hmem recs hrecs, List.mem_dedup, importNames]
    simp only [List.mem_map, List.mem_filter, and_assoc]
  rw [← hperm.length_eq]
  exact ⟨hs.toNat_used hlen, hlen⟩

/-- The span of the page of trampolines. -/
theorem spans_of_stubs {b : Build} {used size : U64} {m₁ m₂ : GuestMemory}
    (hbound : (r.next - r.base).toNat ≤ 2 ^ 62) (hused : r.used b.profile = .ok used)
    (hsize : alignUp b.profile (max used pageSize) pageSize = .ok size)
    (hmap : map b.profile cfg.trampolineBase size .rw .segment "__stubs" m = .ok () m₁)
    (hfill : Prog.forEach (List.range (size.toNat / 4)) (fun i =>
      writeU32 (cfg.trampolineBase + BitVec.ofNat 64 (4 * i)) brk0) m₁ = .ok () m₂) :
    m₂.spans = Function.update m.spans cfg.trampolineBase
      (some (pageRound (max (r.next - r.base) pageSize)).toNat) := by
  obtain rfl := Profile.sub_eq_ok hused
  obtain rfl := alignUp_eq_ok hsize
  obtain ⟨-, -, -, hround⟩ := stubSize hbound
  have hspans : KeepsSpans m₁ m₂ :=
    (Prog.Steps.forEach fun i _ => keepsSpans_write _ _).ok hfill
  rw [hspans, spans_of_map hmap, hround]

theorem spans_of_publishStubs {b : Build} {stop : U64}
    (hbound : (r.next - r.base).toNat ≤ 2 ^ 62) (h : publishStubs b cfg r m = .ok stop m') :
    m'.spans = Function.update m.spans cfg.trampolineBase
      (some (pageRound (max (r.next - r.base) pageSize)).toNat) := by
  obtain ⟨used, hused, h⟩ := Prog.ofChecked_bind_eq_ok.1 h
  obtain ⟨size, hsize, h⟩ := Prog.ofChecked_bind_eq_ok.1 h
  obtain ⟨⟨⟩, m₁, hmap, h⟩ := Prog.bind_eq_ok.1 h
  obtain ⟨⟨⟩, m₂, hfill, h⟩ := Prog.bind_eq_ok.1 h
  obtain ⟨⟨⟩, m₃, hprot, h⟩ := Prog.bind_eq_ok.1 h
  obtain ⟨-, rfl⟩ : cfg.trampolineBase + size = stop ∧ m₃ = m' := by simpa using h
  rw [(keepsSpans_protect _ _ _).ok hprot, spans_of_stubs hbound hused hsize hmap hfill]

/-- One mebibyte holds the trampolines of 65536 symbols. -/
theorem stubs_le_iff {used : U64} {n : ℕ} (hused : used.toNat = 16 * n) (hn : n ≤ 2 ^ 33) :
    (pageRound (max used pageSize)).toNat ≤ 0x100000 ↔ n ≤ 65536 := by
  have hmax : (max used pageSize).toNat = max used.toNat 0x4000 := toNat_max _ _
  rw [toNat_pageRound, hmax]
  omega

end Process

/-! ## The regions and the native spans of a build -/

/-- The capacity that is reserved for the trampolines. -/
def Machine.trampolineReserve : ℕ := 0x100000

section

variable (b : Build) (image : MachOImage) (bytes : List U8) (cfg : LayoutConfig) (m : GuestMemory)

/-- The builder maps the region `r` for the segment, when those before it are mapped. -/
def MapsRegion (seg : Segment) (r : Region) : Prop :=
  ∃ before after bases base m₀ m₁, image.segments = before ++ seg :: after ∧
    mapSegments b.profile bytes cfg.slide before m = .ok bases m₀ ∧
    mapSegment b.profile bytes cfg.slide seg m₀ = .ok (some base) m₁ ∧
    m₁.regions.get? base = some r

/-- The builder maps the region `r` for the trampolines, when the imports are bound. -/
def StubRegion (r : Region) : Prop :=
  ∃ bases resolver stop m₁ m₂, bindImage b.profile image bytes cfg m = .ok (bases, resolver) m₁ ∧
    publishStubs b cfg resolver m₁ = .ok stop m₂ ∧
    m₂.regions.get? cfg.trampolineBase = some r

/-- The builder protects the region at an address : the page of trampolines when it is filled,
and a segment when those before it have their protections. -/
inductive Protects : U64 → GuestMemory → Prop
  | stubs {bases resolver used size m₁ m₂ m₃} :
      bindImage b.profile image bytes cfg m = .ok (bases, resolver) m₁ →
      resolver.used b.profile = .ok used →
      alignUp b.profile (max used pageSize) pageSize = .ok size →
      map b.profile cfg.trampolineBase size .rw .segment "__stubs" m₁ = .ok () m₂ →
      Prog.forEach (List.range (size.toNat / 4)) (fun i =>
        writeU32 (cfg.trampolineBase + BitVec.ofNat 64 (4 * i)) brk0) m₂ = .ok () m₃ →
      Protects cfg.trampolineBase m₃
  | segment {bases resolver stop before seg after m₁ m₂ m₃} :
      bindImage b.profile image bytes cfg m = .ok (bases, resolver) m₁ →
      publishStubs b cfg resolver m₁ = .ok stop m₂ →
      image.segments = before ++ seg :: after → seg.name ≠ "__PAGEZERO" →
      restoreProtections b.target { image with segments := before } bases m₂ = .ok () m₃ →
      Protects (seg.vmaddr + cfg.slide) m₃

/-- The regions of the segments lie in the reservation `[base, base + len)`, the region of the
trampolines in its own, and no native copy or protection leaves them. -/
structure NativeInside (base len : U64) : Prop where
  segments_in : ∀ seg r, MapsRegion b image bytes cfg m seg r → ∀ i < r.data.size,
    base.toNat ≤ r.base.toNat + i ∧ r.base.toNat + i < base.toNat + len.toNat
  stubs_in : ∀ r, StubRegion b image bytes cfg m r →
    r.base = cfg.trampolineBase ∧ r.data.size ≤ Machine.trampolineReserve
  native_in : ∀ a m₁, Protects b image bytes cfg m a m₁ → ∀ k n, m₁.nativeSpan a = some (k, n) →
    ∀ i < n, (base.toNat ≤ k.toNat + i ∧ k.toNat + i < base.toNat + len.toNat) ∨
      (cfg.trampolineBase.toNat ≤ k.toNat + i ∧
        k.toNat + i < cfg.trampolineBase.toNat + Machine.trampolineReserve)

end

section

variable {b : Build} {image : MachOImage} {bytes : List U8} {cfg : LayoutConfig}
  {m m' : GuestMemory} {p : ProcessImage}

theorem MapsRegion.span {seg : Segment} {r : Region} (h : MapsRegion b image bytes cfg m seg r) :
    seg ∈ image.segments ∧ seg.name ≠ "__PAGEZERO" ∧ r.base = seg.vmaddr + cfg.slide ∧
      r.data.size = (mappedSize bytes seg).toNat := by
  obtain ⟨before, after, bases, base, m₀, m₁, hsplit, -, hseg, hr⟩ := h
  rcases mapSegment_cases hseg with ⟨-, hbase, -⟩ | ⟨hname, hbase, -, -, -, r', hreg, rfl⟩
  · cases hbase
  · obtain rfl := Option.some.inj hbase
    rw [SortedMap.get?_insert_self] at hr
    obtain rfl := Option.some.inj hr
    exact ⟨hsplit ▸ List.mem_append_right _ List.mem_cons_self, hname, hreg.base_eq, hreg.size_eq⟩

/-- In a build that succeeds every segment gets its region. -/
theorem Stages.mapsRegion (s : Stages b image bytes cfg m p m') {seg : Segment}
    (hseg : seg ∈ image.segments) (hname : seg.name ≠ "__PAGEZERO") :
    ∃ r, MapsRegion b image bytes cfg m seg r := by
  obtain ⟨before, after, hsplit⟩ := List.append_of_mem hseg
  have hmap := s.map_eq
  rw [hsplit] at hmap
  obtain ⟨bases₁, bases₂, m₀, hbefore, h⟩ := mapSegments_append hmap
  obtain ⟨base?, m₁, hone, -⟩ := Prog.bind_eq_ok.1 h
  rcases mapSegment_cases hone with ⟨hguard, -⟩ | ⟨-, rfl, -, -, -, r, -, rfl⟩
  · exact absurd hguard hname
  · exact ⟨r, before, after, bases₁, _, m₀, _, hsplit, hbefore, hone,
      SortedMap.get?_insert_self _ _ _⟩

/-- A segment lies in the reservation exactly if its offset and its size do. The sum of the
base and the offset wraps for no reservation that ends in the address space. -/
theorem inside_iff {base pb len slide vmaddr : U64} {size : ℕ} (hslide : slide = base - pb)
    (hsize : size ≠ 0) :
    (∀ i < size, base.toNat ≤ (vmaddr + slide).toNat + i ∧
        (vmaddr + slide).toNat + i < base.toNat + len.toNat) ↔
      base.toNat + (vmaddr - pb).toNat < 2 ^ 64 ∧ (vmaddr - pb).toNat + size ≤ len.toNat := by
  have hadd : vmaddr + slide = base + (vmaddr - pb) := by
    rw [hslide, BitVec.sub_eq_add_neg, BitVec.sub_eq_add_neg, ← BitVec.add_assoc,
      BitVec.add_comm vmaddr, BitVec.add_assoc]
  rw [hadd, BitVec.toNat_add]
  have hbase := base.isLt
  have hoff := (vmaddr - pb).isLt
  constructor
  · intro h
    have hfirst := h 0 (Nat.pos_of_ne_zero hsize)
    have hlast := h (size - 1) (by omega)
    omega
  · rintro ⟨hnowrap, hle⟩ i hi
    rw [Nat.mod_eq_of_lt hnowrap]
    omega

/-- Where the builder protects, the regions are those of the segments and of the
trampolines. -/
theorem Protects.spans_eq {a : U64} {m₁ : GuestMemory} {recs : List BindRecord} (hinv : m.Inv)
    (hstride : cfg.trampolineStride = 16) (hrecs : ImageRecords b.profile image bytes recs)
    (h : Protects b image bytes cfg m a m₁) :
    m₁.Inv ∧ (a = cfg.trampolineBase ∨
      ∃ seg ∈ image.segments, seg.name ≠ "__PAGEZERO" ∧ a = seg.vmaddr + cfg.slide) ∧
    ∃ m₀ bases used, mapSegments b.profile bytes cfg.slide image.segments m = .ok bases m₀ ∧
      used.toNat = 16 * (importNames (runtimeBases cfg.slide image.segments) recs).dedup.length ∧
      m₁.spans = Function.update m₀.spans cfg.trampolineBase
        (some (pageRound (max used pageSize)).toNat) := by
  cases h with
  | stubs hbind hused hsize hmap hfill =>
    obtain ⟨rfl, hinv₁, ⟨m₀, hmaps, hspans⟩, _, himports⟩ := spans_of_bindImage hinv hbind
    rw [hstride] at himports
    obtain ⟨hu, hn⟩ := used_of_bindImports himports hrecs
    have hinv₂ := hinv₁.change ((change_map _ _ _ _ _ _).ok hmap)
    have hfilled : KeepsInv _ m₁ :=
      (Prog.Steps.forEach fun i _ => keepsInv_of_change (change_write _ _)).ok hfill
    refine ⟨hfilled hinv₂, Or.inl rfl, m₀, _, _, hmaps, hu, ?_⟩
    rw [spans_of_stubs (by omega) hused hsize hmap hfill, hspans]
  | @segment bases resolver stop before seg after m₂ m₃ _ hbind hpublish hsplit hname hrestore =>
    obtain ⟨rfl, hinv₁, ⟨m₀, hmaps, hspans⟩, _, himports⟩ := spans_of_bindImage hinv hbind
    rw [hstride] at himports
    obtain ⟨hu, hn⟩ := used_of_bindImports himports hrecs
    obtain ⟨hinv₂, -⟩ := publishStubs_keepsBytes hinv₁ hpublish
    obtain ⟨hinv₃, -⟩ := restoreProtections_keeps hinv₂ hrestore
    have hkeep : KeepsSpans m₃ m₁ := by
      refine (Prog.Steps.forEach fun ⟨seg, base?⟩ _ => ?_).ok hrestore
      rcases base? with _ | base
      · exact Prog.steps_pure ()
      · exact keepsSpans_protect _ _ _
    refine ⟨hinv₃, Or.inr ⟨seg, ?_, hname, rfl⟩, m₀, _, _, hmaps, hu, ?_⟩
    · rw [hsplit]
      exact List.mem_append_right _ List.mem_cons_self
    · rw [hkeep, spans_of_publishStubs (by omega) hpublish, hspans]

theorem Stages.bindImage_eq (s : Stages b image bytes cfg m p m') :
    bindImage b.profile image bytes cfg m = .ok (s.segRuntime, s.resolver) s.bound :=
  Prog.bind_eq_ok.2 ⟨_, _, s.map_eq, Prog.bind_eq_ok.2 ⟨_, _, s.rebase_eq,
    Prog.bind_eq_ok.2 ⟨_, _, s.bind_eq, rfl⟩⟩⟩

/-- The region of the trampolines has 16 bytes for every symbol, in whole pages. -/
theorem StubRegion.size_iff {r : Region} {recs : List BindRecord} (hinv : m.Inv)
    (hstride : cfg.trampolineStride = 16) (hrecs : ImageRecords b.profile image bytes recs)
    (h : StubRegion b image bytes cfg m r) :
    r.base = cfg.trampolineBase ∧ (r.data.size ≤ Machine.trampolineReserve ↔
      (importNames (runtimeBases cfg.slide image.segments) recs).dedup.length ≤ 65536) := by
  obtain ⟨bases, resolver, stop, m₁, m₂, hbind, hpublish, hr⟩ := h
  obtain ⟨rfl, hinv₁, -, _, himports⟩ := spans_of_bindImage hinv hbind
  rw [hstride] at himports
  obtain ⟨hu, hn⟩ := used_of_bindImports himports hrecs
  have hspans := congrFun (spans_of_publishStubs (by omega) hpublish) cfg.trampolineBase
  rw [Function.update_self, spans, hr, Option.map_some, Option.some.injEq] at hspans
  refine ⟨(publishStubs_keepsBytes hinv₁ hpublish).1.base_eq _ r hr, ?_⟩
  rw [hspans]
  exact stubs_le_iff hu hn

/-- A build that succeeds stays in its reservations exactly if every segment that is not empty
starts at or above the preferred base and ends, with whole pages and all its bytes of the
file, in the span of the image, and at most 65536 symbols are imported. -/
theorem native_inside_iff (b : Build) (image : MachOImage) (bytes : List U8) (cfg : LayoutConfig)
    (m m' : GuestMemory) (p : ProcessImage) (base pb len : U64) (hm : Reachable b.profile m)
    (hspan : imageSpan b.profile image = .ok (pb, len)) (hslide : cfg.slide = base - pb)
    (hstride : cfg.trampolineStride = 16) (hok : buildProcess b image bytes cfg m = .ok p m') :
    NativeInside b image bytes cfg m base len ↔
      (∀ seg ∈ image.segments, seg.name ≠ "__PAGEZERO" → mappedSize bytes seg ≠ 0 →
        base.toNat + (seg.vmaddr - image.textVmaddr).toNat < 2 ^ 64 ∧
          (seg.vmaddr - image.textVmaddr).toNat + (mappedSize bytes seg).toNat ≤ len.toNat) ∧
      ∀ recs, ImageRecords b.profile image bytes recs →
        (importNames (runtimeBases cfg.slide image.segments) recs).dedup.length ≤ 65536 := by
  have hinv := hm.inv
  obtain ⟨st⟩ := buildProcess_eq_ok.1 hok
  obtain rfl : image.textVmaddr = pb := by
    obtain ⟨_, -, h⟩ := except_bind_eq_ok.1 hspan
    exact congrArg Prod.fst (Except.ok.inj h)
  have hzero : ∀ {seg : Segment}, mappedSize bytes seg ≠ 0 → (mappedSize bytes seg).toNat ≠ 0 :=
    fun h h' => h (BitVec.eq_of_toNat_eq h')
  constructor
  · intro h
    refine ⟨fun seg hseg hname hsize => ?_, fun recs hrecs => ?_⟩
    · obtain ⟨r, hr⟩ := st.mapsRegion hseg hname
      obtain ⟨-, -, hbase, hdata⟩ := hr.span
      have hin := h.segments_in seg r hr
      rw [hbase, hdata] at hin
      exact (inside_iff hslide (hzero hsize)).1 hin
    · have hinv₁ := (publishStubs_keepsBytes (spans_of_bindImage hinv st.bindImage_eq).2.1
        st.publish_eq).1
      obtain ⟨-, -, -, _, himports⟩ := spans_of_bindImage hinv st.bindImage_eq
      rw [hstride] at himports
      obtain ⟨hu, hn⟩ := used_of_bindImports himports hrecs
      have hspans := congrFun (spans_of_publishStubs (by omega) st.publish_eq) cfg.trampolineBase
      rw [Function.update_self] at hspans
      obtain ⟨r, hr, -⟩ := spans_eq_some.1 hspans
      have hstub : StubRegion b image bytes cfg m r :=
        ⟨_, _, _, _, _, st.bindImage_eq, st.publish_eq, hr⟩
      exact (hstub.size_iff hinv hstride hrecs).2.1 (h.stubs_in r hstub).2
  · rintro ⟨hsegs, hcount⟩
    obtain ⟨recs, hrecs, -⟩ := bindImports_eq_ok.1 st.bind_eq
    have hinside : ∀ seg ∈ image.segments, seg.name ≠ "__PAGEZERO" →
        ∀ i < (mappedSize bytes seg).toNat, base.toNat ≤ (seg.vmaddr + cfg.slide).toNat + i ∧
          (seg.vmaddr + cfg.slide).toNat + i < base.toNat + len.toNat := by
      intro seg hseg hname i hi
      have hsize : mappedSize bytes seg ≠ 0 := fun h => by
        rw [h] at hi
        exact absurd hi (Nat.not_lt_zero i)
      exact (inside_iff hslide (hzero hsize)).2 (hsegs seg hseg hname hsize) i hi
    refine ⟨fun seg r hr i hi => ?_, fun r hr => ?_, fun a m₁ hprot k n hkn i hi => ?_⟩
    · obtain ⟨hseg, hname, hbase, hdata⟩ := hr.span
      rw [hbase]
      exact hinside seg hseg hname i (hdata ▸ hi)
    · obtain ⟨hbase, hsize⟩ := hr.size_iff hinv hstride hrecs
      exact ⟨hbase, hsize.2 (hcount recs hrecs)⟩
    · obtain ⟨hinv₁, ha, m₀, bases, used, hmap, hused, hspans⟩ :=
        hprot.spans_eq hinv hstride hrecs
      obtain ⟨hk, hle, hlt⟩ := hinv₁.nativeSpan_eq_some.1 hkn
      have hstubs := congrFun hspans cfg.trampolineBase
      rw [Function.update_self] at hstubs
      have hcount' := hcount recs hrecs
      have hpage := (stubs_le_iff hused (by omega)).2 hcount'
      rw [hspans, Function.update_apply] at hk
      split_ifs at hk with hstub
      · -- The region is the one of the trampolines.
        obtain rfl := Option.some.inj hk
        rw [hstub]
        unfold Machine.trampolineReserve
        exact Or.inr (by omega)
      · rcases ha with rfl | ⟨seg, hseg, hname, rfl⟩
        · -- The page is not empty, so it holds its own base.
          have hpos := (stubSize (by omega : used.toNat ≤ 2 ^ 62)).2.1
          have hown := hinv₁.nativeSpan_eq_some.2 ⟨hstubs, le_refl _, by omega⟩
          rw [hkn] at hown
          exact absurd (Prod.mk.inj (Option.some.inj hown)).1 hstub
        · obtain ⟨seg', hseg', hname', rfl, rfl⟩ :=
            span_of_mapSegments hinv hmap hseg hname hk hle hlt
          exact Or.inl (hinside seg' hseg' hname' i hi)

end

/-! ## Two segments, in order and out of order -/

/-- A thin file with the segments `__TEXT` and `__DATA`, of one page each. -/
def pairFile (text data : ℕ) : List U8 :=
  leBytes 4 0xfeedfacf ++ leBytes 4 0x0100000c ++ leBytes 4 0 ++ leBytes 4 2 ++ leBytes 4 3 ++
    leBytes 4 168 ++ leBytes 4 0x200000 ++ leBytes 4 0 ++
    (leBytes 4 0x19 ++ leBytes 4 72 ++ leBytes 16 0x545845545f5f ++ leBytes 8 text ++
      leBytes 8 0x4000 ++ leBytes 8 0 ++ leBytes 8 0 ++ leBytes 4 5 ++ leBytes 4 5 ++
      leBytes 4 0 ++ leBytes 4 0) ++
    (leBytes 4 0x19 ++ leBytes 4 72 ++ leBytes 16 0x415441445f5f ++ leBytes 8 data ++
      leBytes 8 0x4000 ++ leBytes 8 0 ++ leBytes 8 0 ++ leBytes 4 3 ++ leBytes 4 3 ++
      leBytes 4 0 ++ leBytes 4 0) ++
    (leBytes 4 0x80000028 ++ leBytes 4 24 ++ leBytes 16 0)

/-- Its image. -/
def pairImage (text data : U64) : MachOImage :=
  { MachOImage.blank 0 2 0x200000 with
    segments := [⟨"__TEXT", text, 0x4000, 0, 0, .rx, .rx, []⟩,
      ⟨"__DATA", data, 0x4000, 0, 0, .rw, .rw, []⟩]
    entry := some (.main 0 0) }

/-- The layout for a reservation at `0x7000000000`. -/
def pairConfig (text : U64) : LayoutConfig :=
  { importConfig with slide := 0x7000000000 - text }

/-- A device whose kernel grants every protection. -/
def deviceBuild : Build :=
  ⟨.release, .android fun _ _ _ => 0⟩

theorem isDefault_pairConfig (text : U64) : (pairConfig text).IsDefault :=
  ⟨rfl, rfl, rfl, rfl⟩

set_option maxRecDepth 100000 in
theorem build_pairFile {text data : ℕ}
    (h : (text, data) = (0x100000000, 0x100004000) ∨ (text, data) = (0x100004000, 0x100000000)) :
    MachOImage.parse (pairFile text data) =
        .ok (pairImage (BitVec.ofNat 64 text) (BitVec.ofNat 64 data)) ∧
      imageSpan .release (pairImage (BitVec.ofNat 64 text) (BitVec.ofNat 64 data)) =
        .ok (BitVec.ofNat 64 text, BitVec.ofNat 64 (max text data + 0x4000 - text)) ∧
      ∃ p m', buildProcess deviceBuild (pairImage (BitVec.ofNat 64 text) (BitVec.ofNat 64 data))
        (pairFile text data) (pairConfig (BitVec.ofNat 64 text)) importMemory = .ok p m' := by
  have hrun : MachOImage.parse (pairFile text data) =
        .ok (pairImage (BitVec.ofNat 64 text) (BitVec.ofNat 64 data)) ∧
      imageSpan .release (pairImage (BitVec.ofNat 64 text) (BitVec.ofNat 64 data)) =
        .ok (BitVec.ofNat 64 text, BitVec.ofNat 64 (max text data + 0x4000 - text)) ∧
      ((bindImage .release (pairImage (BitVec.ofNat 64 text) (BitVec.ofNat 64 data))
        (pairFile text data) (pairConfig (BitVec.ofNat 64 text)) >>= fun x =>
        publishPage deviceBuild (pairConfig (BitVec.ofNat 64 text)) x.2 >>= fun stop =>
        finish deviceBuild (pairImage (BitVec.ofNat 64 text) (BitVec.ofNat 64 data))
          (pairFile text data) (pairConfig (BitVec.ofNat 64 text)) x.1 x.2 stop)
        importMemory).isOk = true := by
    rcases h with h | h <;> obtain ⟨rfl, rfl⟩ := Prod.mk.inj h <;> decide +kernel
  obtain ⟨hparse, hspan, hok⟩ := hrun
  obtain ⟨p, m', h⟩ := Outcome.isOk_iff.1 hok
  exact ⟨hparse, hspan, p, m',
    buildProcess_of_page reachable_importMemory.inv (isDefault_pairConfig _).stride_eq rfl h⟩

/-- With `__DATA` above `__TEXT`, the build stays in its reservations. -/
theorem native_inside_iff_pairFile :
    Reachable .release importMemory ∧
      imageSpan .release (pairImage 0x100000000 0x100004000) = .ok (0x100000000, 0x8000) ∧
      (∃ p m', buildProcess deviceBuild (pairImage 0x100000000 0x100004000)
        (pairFile 0x100000000 0x100004000) (pairConfig 0x100000000) importMemory = .ok p m') ∧
      NativeInside deviceBuild (pairImage 0x100000000 0x100004000)
        (pairFile 0x100000000 0x100004000) (pairConfig 0x100000000) importMemory
        0x7000000000 0x8000 := by
  obtain ⟨-, hspan, p, m', hok⟩ := build_pairFile (Or.inl rfl)
  refine ⟨reachable_importMemory, hspan, ⟨p, m', hok⟩, ?_⟩
  refine (native_inside_iff _ _ _ _ _ _ _ _ _ _ reachable_importMemory hspan rfl rfl hok).2
    ⟨by decide, fun recs hrecs => ?_⟩
  obtain rfl : recs = [] := hrecs
  decide

/-- With `__DATA` below `__TEXT`, its region lies below the reservation. -/
theorem pairFile_leaves_reservation :
    Reachable .release importMemory ∧
      MachOImage.parse (pairFile 0x100004000 0x100000000) =
        .ok (pairImage 0x100004000 0x100000000) ∧
      imageSpan .release (pairImage 0x100004000 0x100000000) = .ok (0x100004000, 0x4000) ∧
      (∃ p m', buildProcess deviceBuild (pairImage 0x100004000 0x100000000)
        (pairFile 0x100004000 0x100000000) (pairConfig 0x100004000) importMemory = .ok p m') ∧
      ¬NativeInside deviceBuild (pairImage 0x100004000 0x100000000)
        (pairFile 0x100004000 0x100000000) (pairConfig 0x100004000) importMemory
        0x7000000000 0x4000 := by
  obtain ⟨hparse, hspan, p, m', hok⟩ := build_pairFile (Or.inr rfl)
  obtain ⟨st⟩ := buildProcess_eq_ok.1 hok
  refine ⟨reachable_importMemory, hparse, hspan, ⟨p, m', hok⟩, fun h => ?_⟩
  obtain ⟨r, hr⟩ := st.mapsRegion (List.mem_cons_of_mem _ List.mem_cons_self) (by decide)
  obtain ⟨-, -, hbase, hsize⟩ := hr.span
  have hin := (h.segments_in _ r hr 0 (by rw [hsize]; decide +kernel)).1
  rw [hbase] at hin
  exact absurd hin (by decide)

end IosEmu
