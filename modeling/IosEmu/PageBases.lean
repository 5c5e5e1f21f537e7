import IosEmu.Reservation
import IosEmu.Services
import IosEmu.WriteXorExecute

/-!
# Regions of whole pages

Every mapping rounds its size up to a page. The base of an anonymous mapping is rounded down,
but the bases of the segments, of the page of trampolines and of the stack are taken as they
come. So every region starts and ends at a page exactly if the bases of the load do
(`paged_iff`) : nothing moves a region later on, and what is mapped later is aligned.
-/

open SysLib

namespace IosEmu

namespace GuestMemory

variable {m m' : GuestMemory} {p : Profile} {S S' : Set U64}

/-- The base and the size of every region are multiples of the page. -/
def Paged (m : GuestMemory) : Prop :=
  ∀ k r, m.regions.get? k = some r → r.base.toNat % 0x4000 = 0 ∧ r.size.toNat % 0x4000 = 0

/-- Only regions of whole pages at bases in `S` are new, and no region goes away. -/
structure Places (S : Set U64) (m m' : GuestMemory) : Prop where
  of_new : ∀ k n, m'.spans k = some n → m.spans k = some n ∨ k ∈ S ∧ n % 0x4000 = 0
  keeps : ∀ k n, m.spans k = some n → ∃ n', m'.spans k = some n'

instance placesPreorder (S : Set U64) : IsPreorder GuestMemory (Places S) where
  refl _ := ⟨fun _ _ h => Or.inl h, fun _ n h => ⟨n, h⟩⟩
  trans _ _ _ h₁ h₂ := by
    refine ⟨fun k n h => ?_, fun k n h => ?_⟩
    · rcases h₂.of_new k n h with h | h
      · exact h₁.of_new k n h
      · exact Or.inr h
    · obtain ⟨n', h'⟩ := h₁.keeps k n h
      exact h₂.keeps k n' h'

theorem places_of_spans (h : m'.spans = m.spans) : Places S m m' := by
  refine ⟨fun k n hk => ?_, fun k n hk => ⟨n, ?_⟩⟩
  · rw [h] at hk
    exact Or.inl hk
  · rw [h]
    exact hk

theorem places_of_update {base : U64} {n : ℕ} (h : m'.spans = Function.update m.spans base (some n))
    (hbase : base ∈ S) (hn : n % 0x4000 = 0) : Places S m m' := by
  refine ⟨fun k n' hk => ?_, fun k n' hk => ?_⟩
  · rw [h, Function.update_apply] at hk
    split_ifs at hk with heq
    · obtain rfl := Option.some.inj hk
      exact Or.inr ⟨heq ▸ hbase, hn⟩
    · exact Or.inl hk
  · rw [h, Function.update_apply]
    split_ifs
    · exact ⟨n, rfl⟩
    · exact ⟨n', hk⟩

theorem places_write (a : U64) (d : List U8) : (write a d).Steps (Places S) :=
  (keepsSpans_write a d).mono fun _ _ h => places_of_spans h

theorem places_protect (target : Target) (a : U64) (prot : Protection) :
    (protect target a prot).Steps (Places S) :=
  (keepsSpans_protect target a prot).mono fun _ _ h => places_of_spans h

theorem places_heapAlloc (p : Profile) (size align : U64) :
    (heapAlloc p size align).Steps (Places S) := by
  have hregions : (heapAlloc p size align).Steps (InvImage Eq GuestMemory.regions) :=
    Prog.steps_zoom_of_eq _ fun _ _ => rfl
  refine hregions.mono fun m m' h => places_of_spans (funext fun k => ?_)
  rw [spans, spans, show m'.regions = m.regions from h.symm]

theorem places_map {base size : U64} {prot : Protection} {kind : RegionKind} {name : String}
    (hbase : base ∈ S) : (map p base size prot kind name).Steps (Places S) := by
  refine (map_failsClean _ _ _ _ _ _).steps (refl_of (Places S)) fun m u m' h => ?_
  exact places_of_update (Process.spans_of_map h) hbase (pageRound_mod _)

theorem places_mapWithData {base size : U64} {data : List U8} {prot : Protection}
    {kind : RegionKind} {name : String} (hbase : base ∈ S) :
    (mapWithData p base size data prot kind name).Steps (Places S) := by
  refine (mapWithData_failsClean _ _ _ _ _ _ _).steps (refl_of (Places S)) fun m u m' h => ?_
  obtain ⟨s, hs, -, -, hcap, rfl⟩ := mapWithData_eq_ok.1 h
  obtain rfl := alignUp_eq_ok hs
  refine places_of_update (funext fun k => ?_) hbase
    (pageRound_mod (max size (BitVec.ofNat 64 data.length)))
  rw [Function.update_apply]
  dsimp only [spans]
  rw [SortedMap.get?_insert]
  split_ifs
  · rfl
  · rfl

/-- The multiples of the page. -/
def pageBases : Set U64 :=
  { k | k.toNat % 0x4000 = 0 }

/-- An anonymous mapping is placed at a page. -/
theorem places_mmapAnon (size : U64) (prot : Protection) :
    (mmapAnon p size prot).Steps (Places pageBases) := by
  refine (mmapAnon_failsClean _ _ _).steps (refl_of _) fun m base m' h => ?_
  obtain ⟨s, low, m₁, -, -, hbase, hmap, rfl⟩ := mmapAnon_eq_ok.1 h
  obtain rfl := alignDown_eq_ok hbase
  have hmem : low &&& ~~~0x3fff ∈ pageBases := by
    have hmask : (low &&& ~~~0x3fff).toNat = low.toNat / 0x4000 * 0x4000 :=
      toNat_and_not_mask 14 low
    change (low &&& ~~~0x3fff).toNat % 0x4000 = 0
    rw [hmask]
    exact Nat.mul_mod_left _ _
  have hplace : Places pageBases m m₁ := (places_map hmem).ok hmap
  refine trans_of (Places pageBases) hplace (places_of_spans ?_)
  rfl

/-- In an address space, the regions start and end at pages if their keys and spans do. -/
theorem Inv.paged_iff_pageKeys (h : m.Inv) :
    m.Paged ↔ ∀ k n, m.spans k = some n → k ∈ pageBases ∧ n % 0x4000 = 0 := by
  constructor
  · intro hpaged k n hk
    obtain ⟨r, hr, rfl⟩ := spans_eq_some.1 hk
    obtain ⟨hbase, hsize⟩ := hpaged k r hr
    rw [h.base_eq k r hr] at hbase
    rw [Region.toNat_size] at hsize
    exact ⟨hbase, hsize⟩
  · intro hspans k r hr
    rw [h.base_eq k r hr, Region.toNat_size]
    exact hspans k r.data.size (spans_eq_some.2 ⟨r, hr, rfl⟩)

end GuestMemory

open GuestMemory Process

/-! ## The build -/

/-- Where the build maps regions. -/
def loadBases (image : MachOImage) (cfg : LayoutConfig) : Set U64 :=
  { k | k = cfg.trampolineBase ∨ k = cfg.stackTop - cfg.stackSize ∨
    ∃ seg ∈ image.segments, seg.name ≠ "__PAGEZERO" ∧ k = seg.vmaddr + cfg.slide }

variable {b : Build} {image : MachOImage} {bytes : List U8} {cfg : LayoutConfig}
  {m m' : GuestMemory} {proc : ProcessImage}

/-- The stages after the segments are mapped. -/
theorem Stages.places_mapped (s : Stages b image bytes cfg m proc m') :
    Places (loadBases image cfg) s.mapped s.bound ∧
      Places (loadBases image cfg) s.bound s.stubbed ∧
      Places (loadBases image cfg) s.stubbed s.guarded ∧
      Places (loadBases image cfg) s.guarded m' := by
  have hwrite : ∀ a d, (write a d).Steps (Places (loadBases image cfg)) := places_write
  have hrebase := (steps_rebase hwrite).ok s.rebase_eq
  have hbind := (steps_bindImports hwrite _).ok s.bind_eq
  have hrestore := s.restore_eq
  rw [s.segRuntime_eq] at hrestore
  exact ⟨trans_of _ hrebase hbind,
    (steps_publishStubs hwrite _ (fun _ => places_map (Or.inl rfl)) (places_protect _ _ _)).ok
      s.publish_eq,
    (steps_restoreProtections fun _ _ _ => places_protect _ _ _).ok hrestore,
    (steps_initStack hwrite (places_map (Or.inr (Or.inl rfl)))).ok s.stack_eq⟩

theorem Stages.places (s : Stages b image bytes cfg m proc m') :
    Places (loadBases image cfg) m m' := by
  obtain ⟨h₁, h₂, h₃, h₄⟩ := s.places_mapped
  refine trans_of _ ((steps_mapSegments _ fun seg hseg hname _ _ => ?_).ok s.map_eq)
    (trans_of _ h₁ (trans_of _ h₂ (trans_of _ h₃ h₄)))
  exact places_mapWithData (Or.inr (Or.inr ⟨seg, hseg, hname, rfl⟩))

theorem Stages.inv (s : Stages b image bytes cfg m proc m') (hinv : m.Inv) : m'.Inv := by
  have hkeeps : KeepsInv m m' := s.steps (fun a d => keepsInv_of_change (change_write a d))
    (fun _ _ _ _ _ => keepsInv_of_change (change_mapWithData _ _ _ _ _ _ _))
    (fun _ _ _ _ => keepsInv_of_change (change_map _ _ _ _ _ _))
    fun _ _ _ => keepsInv_of_change (change_protect _ _ _)
  exact hkeeps hinv

/-- A region stands at every one of these bases. -/
theorem Stages.spans_loadBases (s : Stages b image bytes cfg m proc m') {k : U64}
    (hk : k ∈ loadBases image cfg) : ∃ n, m'.spans k = some n := by
  obtain ⟨h₁, h₂, h₃, h₄⟩ := s.places_mapped
  rcases hk with rfl | rfl | ⟨seg, hseg, hname, rfl⟩
  · have hstubs : ∃ n, s.stubbed.spans cfg.trampolineBase = some n := by
      obtain ⟨used, -, h⟩ := Prog.ofChecked_bind_eq_ok.1 s.publish_eq
      obtain ⟨size, -, h⟩ := Prog.ofChecked_bind_eq_ok.1 h
      obtain ⟨⟨⟩, m₁, hmap, h⟩ := Prog.bind_eq_ok.1 h
      have hnew : m₁.spans cfg.trampolineBase = some (pageRound (max size 1)).toNat := by
        rw [spans_of_map hmap, Function.update_self]
      have hrest : Places (loadBases image cfg) m₁ s.stubbed :=
        ((Prog.Steps.forEach fun _ _ => places_write _ _).bind fun _ =>
          (places_protect _ _ _).bind fun _ => Prog.steps_pure _).ok h
      exact hrest.keeps _ _ hnew
    obtain ⟨n, hn⟩ := hstubs
    obtain ⟨n', hn'⟩ := h₃.keeps _ n hn
    exact h₄.keeps _ n' hn'
  · obtain ⟨base, hbase, h⟩ := Prog.ofChecked_bind_eq_ok.1 s.stack_eq
    obtain rfl := Profile.sub_eq_ok hbase
    obtain ⟨⟨⟩, m₁, hmap, h⟩ := Prog.bind_eq_ok.1 h
    have hnew : m₁.spans (cfg.stackTop - cfg.stackSize) =
        some (pageRound (max cfg.stackSize 1)).toNat := by
      rw [spans_of_map hmap, Function.update_self]
    have hrest : Places (loadBases image cfg) m₁ m' :=
      ((steps_buildStack places_write).bind fun _ => (steps_commitToNative _ _).bind fun _ =>
        Prog.steps_pure _).ok h
    exact hrest.keeps _ _ hnew
  · have hmapped : ∃ n, s.mapped.spans (seg.vmaddr + cfg.slide) = some n := by
      rcases hlast : lastAt seg.vmaddr image.segments with _ | seg'
      · exact absurd rfl (lastAt_eq_none_iff.1 hlast seg hseg hname)
      · obtain ⟨r, hr, -⟩ := (get?_mapSegments s.map_eq seg.vmaddr).1 seg' hlast
        exact ⟨_, spans_eq_some.2 ⟨r, hr, rfl⟩⟩
    obtain ⟨n, hn⟩ := hmapped
    obtain ⟨n₁, hn₁⟩ := h₁.keeps _ n hn
    obtain ⟨n₂, hn₂⟩ := h₂.keeps _ n₁ hn₁
    obtain ⟨n₃, hn₃⟩ := h₃.keeps _ n₂ hn₂
    exact h₄.keeps _ n₃ hn₃

/-! ## Runs -/

/-- The slide of the layout. -/
def slideOf (b : Build) (os : Reservations) (cfg : MachineConfig) (image : MachOImage) : U64 :=
  match b.target with
  | .host => cfg.slide
  | .android _ => os.image - image.textVmaddr

/-- The segments that are mapped, and on device the reservations of the trampolines and of the
stack, are placed at pages. -/
structure BasesPaged (b : Build) (os : Reservations) (cfg : MachineConfig) (image : MachOImage) :
    Prop where
  segment : ∀ seg ∈ image.segments, seg.name ≠ "__PAGEZERO" →
    (seg.vmaddr + slideOf b os cfg image).toNat % 0x4000 = 0
  reserved : ∀ nativeProtect, b.target = .android nativeProtect →
    os.trampolines.toNat % 0x4000 = 0 ∧ os.stack.toNat % 0x4000 = 0

/-- The bases of a load with the default places. -/
theorem loadBases_subset_iff {b : Build} {os : Reservations} {slide : U64} {image : MachOImage}
    {argv0 : String} {layout : LayoutConfig} {m m' : GuestMemory}
    (h : layoutOf b os { MachineConfig.default with slide } image argv0 m = .ok layout m') :
    loadBases image layout ⊆ pageBases ↔
      BasesPaged b os { MachineConfig.default with slide } image := by
  have hbases : layout.slide = slideOf b os { MachineConfig.default with slide } image ∧
      ((b.target = .host ∧ layout.trampolineBase = 0x500000000 ∧
          layout.stackTop - layout.stackSize = 0x1bf800000) ∨
        (∃ nativeProtect, b.target = .android nativeProtect) ∧
          layout.trampolineBase = os.trampolines ∧
          layout.stackTop - layout.stackSize = os.stack) := by
    unfold layoutOf at h
    unfold slideOf
    rcases htarget : b.target with _ | nativeProtect <;> simp only [htarget] at h
    · obtain ⟨rfl, -⟩ := Outcome.ok.inj h
      have hstack : MachineConfig.default.stackTop - MachineConfig.default.stackSize =
          0x1bf800000 := by
        decide
      exact ⟨rfl, Or.inl ⟨rfl, rfl, hstack⟩⟩
    · obtain ⟨⟨preferred, len⟩, hspan, h⟩ := Prog.ofChecked_bind_eq_ok.1 h
      obtain ⟨base, hbase, h⟩ := Prog.ofResult_bind_eq_ok.1 h
      obtain ⟨tramp, htramp, h⟩ := Prog.ofResult_bind_eq_ok.1 h
      obtain ⟨stack, hstack, h⟩ := Prog.ofResult_bind_eq_ok.1 h
      obtain ⟨top, htop, h⟩ := Prog.ofChecked_bind_eq_ok.1 h
      obtain ⟨rfl, -⟩ := Outcome.ok.inj h
      obtain ⟨_, -, hspan⟩ := except_bind_eq_ok.1 hspan
      obtain ⟨rfl, -⟩ := Prod.mk.inj (Except.ok.inj hspan)
      have hreserve : ∀ {x y : U64}, reserveNativeRegion x = .ok y → y = x := by
        intro x y hxy
        unfold reserveNativeRegion at hxy
        split_ifs at hxy
        exact (Except.ok.inj hxy).symm
      obtain rfl := hreserve hbase
      obtain rfl := hreserve htramp
      obtain rfl := hreserve hstack
      obtain rfl := Profile.add_eq_ok htop
      exact ⟨rfl, Or.inr ⟨⟨nativeProtect, rfl⟩, rfl, BitVec.add_sub_cancel _ _⟩⟩
  obtain ⟨hslide, hplaces⟩ := hbases
  constructor
  · intro hsub
    refine ⟨fun seg hseg hname => ?_, fun nativeProtect htarget => ?_⟩
    · rw [← hslide]
      exact hsub (Or.inr (Or.inr ⟨seg, hseg, hname, rfl⟩))
    · rcases hplaces with ⟨hhost, -⟩ | ⟨-, htramp, hstack⟩
      · cases hhost.symm.trans htarget
      · exact ⟨hsub (Or.inl htramp.symm), hsub (Or.inr (Or.inl hstack.symm))⟩
  · rintro ⟨hsegment, hreserved⟩ k (rfl | rfl | ⟨seg, hseg, hname, rfl⟩)
    · rcases hplaces with ⟨-, htramp, -⟩ | ⟨⟨nativeProtect, htarget⟩, htramp, -⟩
      · rw [htramp]
        rfl
      · rw [htramp]
        exact (hreserved nativeProtect htarget).1
    · rcases hplaces with ⟨-, -, hstack⟩ | ⟨⟨nativeProtect, htarget⟩, -, hstack⟩
      · rw [hstack]
        rfl
      · rw [hstack]
        exact (hreserved nativeProtect htarget).2
    · rw [hslide]
      exact hsegment seg hseg hname

/-- After a load with the default places and any run of services, the regions start and end at
pages exactly if the segments, and on device the reservations, are placed at pages. -/
theorem paged_iff {b : Build} {os : Reservations} {slide : U64} {bytes : List U8} {vfs : Sandbox}
    {fs : HostFs} {world : ObjcRuntime} {loaded mach : Machine ObjcRuntime} {image : MachOImage}
    (hparse : MachOImage.parse bytes = .ok image)
    (hload : Machine.load b os { MachineConfig.default with slide } bytes vfs fs world =
      .ok loaded ())
    (l : List Service) (hrun : runServices b l loaded = some mach) :
    mach.mem.Paged ↔ BasesPaged b os { MachineConfig.default with slide } image := by
  obtain ⟨image', m₀, hparse', hnew, layout, m₁, proc, mem, hlayout, hproc, rfl⟩ :=
    Machine.load_eq_ok.1 hload
  obtain rfl : image' = image := Except.ok.inj (hparse'.symm.trans hparse)
  obtain rfl := layoutOf_const.ok hlayout
  obtain ⟨s⟩ := buildProcess_eq_ok.1 hproc
  have hservices : Places pageBases mem mach.mem :=
    Service.steps_runServices places_write (places_heapAlloc _) places_mmapAnon
      (places_protect _) hrun
  have hinv : mach.mem.Inv := by
    have hmem : mem.Inv := s.inv (inv_new hnew)
    have hkeeps : KeepsInv mem mach.mem := Service.steps_runServices
      (fun _ _ => keepsInv_of_change (change_write _ _))
      (fun _ _ => keepsInv_of_change (change_heapAlloc _ _ _))
      (fun _ _ => keepsInv_of_change (change_mmapAnon _ _ _))
      (fun _ _ => keepsInv_of_change (change_protect _ _ _)) hrun
    exact hkeeps hmem
  rw [hinv.paged_iff_pageKeys, ← loadBases_subset_iff hlayout]
  constructor
  · intro hspans k hk
    obtain ⟨n, hn⟩ := s.spans_loadBases hk
    obtain ⟨n', hn'⟩ := hservices.keeps k n hn
    exact (hspans k n' hn').1
  · intro hsub k n hn
    rcases hservices.of_new k n hn with hn | hn
    · rcases s.places.of_new k n hn with hn | hn
      · obtain ⟨size, -, hmap⟩ := Prog.ofChecked_bind_eq_ok.1 hnew
        rw [spans_of_map hmap, Function.update_apply] at hn
        split_ifs at hn with hk
        · obtain rfl := Option.some.inj hn
          have hheap : MachineConfig.default.heapBase.toNat % 0x4000 = 0 := by decide
          rw [hk]
          exact ⟨hheap, pageRound_mod _⟩
        · obtain ⟨r, hr, -⟩ := spans_eq_some.1 hn
          rw [SortedMap.get?_empty] at hr
          cases hr
      · exact ⟨hsub hn.1, hn.2⟩
    · exact hn

/-! ## A slide of less than a page -/

/-- The layout of the file at a slide. -/
def slidConfig (slide : U64) : LayoutConfig :=
  { importConfig with slide }

theorem isDefault_slidConfig (slide : U64) : (slidConfig slide).IsDefault :=
  ⟨rfl, rfl, rfl, rfl⟩

set_option maxRecDepth 100000 in
theorem bindImage_slid {slide : U64} (h : slide = 0x4000 ∨ slide = 0x1000) :
    ((bindImage .release importImage importFile (slidConfig slide) >>= fun x =>
      publishPage ⟨.release, .host⟩ (slidConfig slide) x.2 >>= fun stop =>
        finish ⟨.release, .host⟩ importImage importFile (slidConfig slide) x.1 x.2 stop)
      importMemory).isOk = true := by
  rcases h with rfl | rfl <;> decide

theorem load_slid {slide : U64} (hslide : slide = 0x4000 ∨ slide = 0x1000) :
    ∃ mach, Machine.load ⟨.release, .host⟩ ⟨0, 0, 0⟩ { MachineConfig.default with slide } importFile
      importSandbox ⟨fun _ => none⟩ ObjcRuntime.new = .ok mach () := by
  obtain ⟨proc, m', h⟩ := Outcome.isOk_iff.1 (bindImage_slid hslide)
  have hbuild : buildProcess ⟨.release, .host⟩ importImage importFile (slidConfig slide)
      importMemory = .ok proc m' :=
    buildProcess_of_page reachable_importMemory.inv (isDefault_slidConfig slide).stride_eq rfl h
  have hlayout : layoutOf ⟨.release, .host⟩ ⟨0, 0, 0⟩ { MachineConfig.default with slide } importImage
      (executablePath importSandbox) importMemory = .ok (slidConfig slide) importMemory := by
    have hargv : executablePath importSandbox = importConfig.argv0 := by
      decide
    rw [hargv]
    rfl
  have hnew : GuestMemory.new .release MachineConfig.default.heapBase MachineConfig.default.heapSize =
      .ok () importMemory := rfl
  exact ⟨_, Machine.load_eq_ok.2 ⟨importImage, importMemory, parse_importFile, hnew,
    slidConfig slide, importMemory, proc, m', hlayout, hbuild, rfl⟩⟩

/-- At a slide of a page, the regions of the process start and end at pages. -/
theorem paged_iff_importFile :
    ∃ loaded, Machine.load ⟨.release, .host⟩ ⟨0, 0, 0⟩ { MachineConfig.default with slide := 0x4000 }
        importFile importSandbox ⟨fun _ => none⟩ ObjcRuntime.new = .ok loaded () ∧
      loaded.mem.Paged := by
  obtain ⟨loaded, hload⟩ := load_slid (Or.inl rfl)
  refine ⟨loaded, hload, (paged_iff parse_importFile hload [] rfl).2 ⟨?_, ?_⟩⟩
  · intro seg hseg _
    obtain rfl := List.mem_singleton.1 hseg
    decide
  · rintro nativeProtect ⟨⟩

/-- At a slide of 4096 bytes, the segment of the process does not start at a page. -/
theorem not_paged_importFile :
    ∃ loaded, MachOImage.parse importFile = .ok importImage ∧
      Machine.load ⟨.release, .host⟩ ⟨0, 0, 0⟩ { MachineConfig.default with slide := 0x1000 }
        importFile importSandbox ⟨fun _ => none⟩ ObjcRuntime.new = .ok loaded () ∧
      ¬loaded.mem.Paged := by
  obtain ⟨loaded, hload⟩ := load_slid (Or.inr rfl)
  refine ⟨loaded, parse_importFile, hload, fun hpaged => ?_⟩
  obtain ⟨image, m₀, hparse, hnew, layout, m₁, proc, mem, hlayout, hproc, rfl⟩ :=
    Machine.load_eq_ok.1 hload
  obtain rfl : importImage = image := Except.ok.inj (parse_importFile.symm.trans hparse)
  obtain ⟨rfl, rfl⟩ := Outcome.ok.inj hlayout
  obtain ⟨s⟩ := buildProcess_eq_ok.1 hproc
  obtain ⟨n, hn⟩ := s.spans_loadBases (k := 0x100001000)
    (Or.inr (Or.inr ⟨_, List.mem_singleton_self _, by decide, by decide⟩))
  have hbase : (0x100001000 : U64).toNat % 0x4000 = 0 :=
    ((s.inv (inv_new hnew)).paged_iff_pageKeys.1 hpaged _ n hn).1
  exact absurd hbase (by decide)

end IosEmu
