import IosEmu.Binding
import IosEmu.BuildRegions
import IosEmu.DeviceLoad
import IosEmu.MemoryPanics
import IosEmu.StubPage

/-!
# Copies that do not fault

The copy of a region faults where its native pages cannot be stored. While a process is built that
does not happen if the pages of its segments, of the trampolines and of the stack are reserved, and
no segment is empty (`buildProcess_of_roomy`) : a page has the rights it was reserved with, or the
protection of the region around it (`Settled`), and every region is published while it is writable.
-/

open SysLib

namespace IosEmu

open GuestMemory Process

/-- The trampolines of an image are few. -/
theorem Stages.used_le {b : Build} {image : MachOImage} {bytes : List U8} {cfg : LayoutConfig}
    {m m' : GuestMemory} {proc : ProcessImage} (s : Stages b image bytes cfg m proc m')
    (hstride : cfg.trampolineStride = 16) :
    (s.resolver.next - s.resolver.base).toNat ≤ 2 ^ 62 := by
  have hbind := s.bind_eq
  rw [hstride] at hbind
  obtain ⟨-, syms, hs, hlen, -⟩ := serves_of_bindImports hbind
  rw [hs.toNat_used hlen]
  omega

namespace Device

variable {p : Profile} {nativeProtect : NativeProtect} {d d' : DeviceMemory} {m m' : GuestMemory}
  {pages pages₁ : Pages}

/-- Every page has the rights it was reserved with, or the protection of the region around it. -/
def Settled (pages : Pages) (d : DeviceMemory) : Prop :=
  ∀ x, d.pages.rights x = pages.rights x ∨ ∃ k s, d.mem.flat.layout k = some s ∧
    k.toNat ≤ x ∧ x < k.toNat + s.size ∧ d.pages.rights x = s.prot

theorem settled_self (m : GuestMemory) (pages : Pages) : Settled pages ⟨m, pages⟩ :=
  fun _ => Or.inl rfl

theorem Settled.of_layout (h : Settled pages ⟨m, pages₁⟩)
    (hlay : m'.flat.layout = m.flat.layout) : Settled pages ⟨m', pages₁⟩ := by
  intro x
  refine (h x).imp_right fun ⟨k, s, hs, hin⟩ => ?_
  exact ⟨k, s, (congrFun hlay k).trans hs, hin⟩

/-- The pages of a writable region can be stored, if they were reserved for that. -/
theorem Settled.writable (h : Settled pages d) (hinv : d.mem.Inv) {k : U64} {r : Region}
    (hr : d.mem.regions.get? k = some r) (hprot : r.prot.contains .write = true)
    (hpages : pages.Writable k r.data.size) : d.pages.Writable k r.data.size := by
  intro i hi
  rcases h (k.toNat + i) with heq | ⟨k', s, hs, hle, hlt, heq⟩
  · rw [heq]
    exact hpages i hi
  · obtain ⟨r', hr', rfl⟩ := layout_flat_eq_some.1 hs
    have hlt' : k.toNat + i < k'.toNat + r'.data.size := hlt
    rcases lt_trichotomy k k' with hkk | rfl | hkk
    · have := hinv.end_le hr hr' hkk
      omega
    · obtain rfl := Option.some.inj (hr.symm.trans hr')
      rw [heq]
      exact hprot
    · have := hinv.end_le hr' hr hkk
      omega

/-- A region that is mapped takes the place of no other one. -/
theorem Settled.map {base size : U64} {prot : Protection} {kind : RegionKind} {name : String}
    (h : Settled pages ⟨m, pages₁⟩) (hinv : m.Inv) (hpos : 0 < (pageRound (max size 1)).toNat)
    (hmap : GuestMemory.map p base size prot kind name m = .ok () m') :
    Settled pages ⟨m', pages₁⟩ := by
  obtain ⟨-, -, -, hfree⟩ := hinv.keepsBytes_map hpos hmap
  intro x
  refine (h x).imp_right fun ⟨k, s, hs, hle, hlt, heq⟩ => ⟨k, s, ?_, hle, hlt, heq⟩
  have hne : k ≠ base := by
    rintro rfl
    obtain ⟨r, hr, rfl⟩ := layout_flat_eq_some.1 hs
    have hlt' : x < k.toNat + r.data.size := hlt
    have hbyte := hinv.byte_flat hr (Nat.le_refl k.toNat) (by omega)
    rw [Nat.sub_self, Buffer.get?_of_lt (by omega)] at hbyte
    have := hfree _ _ hbyte
    omega
  dsimp only
  rw [layout_of_map hmap, Function.update_of_ne hne]
  exact hs

/-- Writing to a new region leaves its protection and its size. -/
theorem region_of_map {base size : U64} {prot : Protection} {kind : RegionKind} {name : String}
    {m₁ : GuestMemory} (hmap : GuestMemory.map p base size prot kind name m = .ok () m₁)
    (hlay : m'.flat.layout = m₁.flat.layout) :
    ∃ r, m'.regions.get? base = some r ∧ r.prot = prot ∧
      r.data.size = (pageRound (max size 1)).toNat := by
  obtain ⟨r, hr, hshape⟩ := layout_flat_eq_some.1 ((congrFun hlay base).trans
    ((congrFun (layout_of_map hmap) _).trans (Function.update_self _ _ _)))
  exact ⟨r, hr, congrArg Shape.prot hshape, congrArg Shape.size hshape⟩

/-! ## Calls that publish -/

theorem safe_protect {a : U64} {prot : Protection}
    (h : ∀ k r, d.mem.regionBase a = .ok k → d.mem.regions.get? k = some r →
      d.pages.Writable k r.data.size) : (protect nativeProtect a prot).Safe d := by
  refine Prog.safe_get_bind_iff.2 (Prog.safe_ofResult_bind_iff.2 fun k hk => ?_)
  obtain ⟨r, hr⟩ := unwrapRegion_of_regionBase hk
  refine Prog.safe_ofChecked_bind_iff.2 ⟨r, hr, ?_⟩
  refine Prog.safe_bind_iff.2 ⟨Prog.safe_zoom_iff.2 (Prog.total_modify _ _), fun _ d₁ _ => ?_⟩
  refine Prog.safe_ofChecked_bind_iff.2
    ⟨_, copyIn_eq_ok.2 ⟨h k r hk (unwrapRegion_eq_ok.1 hr), rfl⟩, ?_⟩
  split_ifs
  · exact (Prog.total_modify _).bind (fun _ => Prog.total_fail _) d₁
  · exact Prog.total_modify _ d₁

theorem safe_commitToNative {a : U64}
    (h : ∀ k r, d.mem.regionBase a = .ok k → d.mem.regions.get? k = some r →
      d.pages.Writable k r.data.size) : (commitToNative a).Safe d := by
  refine Prog.safe_get_bind_iff.2 (Prog.safe_ofResult_bind_iff.2 fun k hk => ?_)
  obtain ⟨r, hr⟩ := unwrapRegion_of_regionBase hk
  refine Prog.safe_ofChecked_bind_iff.2 ⟨r, hr, ?_⟩
  have hcopy := copyIn_eq_ok.2 ⟨h k r hk (unwrapRegion_eq_ok.1 hr), rfl⟩
  exact Prog.safe_ofChecked_bind_iff.2 ⟨_, hcopy, Prog.total_modify _ d⟩

/-- Publishing a writable region gives its pages its new protection. -/
theorem protect_of_settled {a : U64} {prot : Protection} {r : Region} (h : Settled pages d)
    (hinv : d.mem.Inv) (hr : d.mem.regions.get? a = some r)
    (hwrite : r.prot.contains .write = true) (hpages : pages.Writable a r.data.size)
    (hrun : GuestMemory.protect (.android nativeProtect) a prot d.mem = .ok () m') :
    ∃ pages', protect nativeProtect a prot d = .ok () ⟨m', pages'⟩ ∧
      Settled pages ⟨m', pages'⟩ := by
  have hregion : ∀ k r', d.mem.regionBase a = .ok k → d.mem.regions.get? k = some r' →
      d.pages.Writable k r'.data.size := by
    intro k r' hk hr'
    obtain rfl := hinv.eq_of_regionBase hr hk
    obtain rfl := Option.some.inj (hr.symm.trans hr')
    exact h.writable hinv hr hwrite hpages
  obtain ⟨⟨mem, pages'⟩, hdev, rfl⟩ :=
    (refines_protect a prot).of_ok (safe_protect hregion _) hrun
  refine ⟨pages', hdev, fun x => ?_⟩
  obtain ⟨k, r', hk, hr', heq⟩ := protect_eq_ok hdev
  obtain rfl := hinv.eq_of_regionBase hr hk
  obtain rfl := Option.some.inj (hr.symm.trans hr')
  obtain ⟨rfl, rfl⟩ := DeviceMemory.mk.inj heq
  have hlay := layout_setProt d.mem k r prot
  dsimp only [Pages.protect]
  split_ifs with hin
  · exact Or.inr ⟨k, { r.shape with prot }, by rw [hlay, Function.update_self], hin.1, hin.2, rfl⟩
  · refine (h x).imp_right fun ⟨k', s, hs, hle, hlt, heq⟩ => ⟨k', s, ?_, hle, hlt, heq⟩
    have hne : k' ≠ k := by
      rintro rfl
      obtain ⟨r', hr', rfl⟩ := layout_flat_eq_some.1 hs
      obtain rfl := Option.some.inj (hr.symm.trans hr')
      exact hin ⟨hle, hlt⟩
    rw [hlay, Function.update_of_ne hne]
    exact hs

/-! ## Stages -/

theorem publishStubs_of_settled {cfg : LayoutConfig} {r : StubResolver} {stop : U64}
    (h : Settled pages ⟨m, pages₁⟩) (hinv : m.Inv) (hused : (r.next - r.base).toNat ≤ 2 ^ 62)
    (hpages : pages.Writable cfg.trampolineBase (stop - cfg.trampolineBase).toNat)
    (hrun : Process.publishStubs ⟨p, .android nativeProtect⟩ cfg r m = .ok stop m') :
    ∃ pages', publishStubs p nativeProtect cfg r ⟨m, pages₁⟩ = .ok stop ⟨m', pages'⟩ ∧
      Settled pages ⟨m', pages'⟩ := by
  obtain ⟨used, hu, hrun⟩ := Prog.ofChecked_bind_eq_ok.1 hrun
  obtain ⟨size, hs, hrun⟩ := Prog.ofChecked_bind_eq_ok.1 hrun
  obtain ⟨⟨⟩, m₁, hmap, hrun⟩ := Prog.bind_eq_ok.1 hrun
  obtain ⟨⟨⟩, m₂, hfill, hrun⟩ := Prog.bind_eq_ok.1 hrun
  obtain ⟨⟨⟩, m₃, hprot, hrun⟩ := Prog.bind_eq_ok.1 hrun
  obtain ⟨rfl, rfl⟩ := Outcome.ok.inj hrun
  obtain ⟨-, hpos, -, hround⟩ := stubSize hused
  rw [← Profile.sub_eq_ok hu, ← alignUp_eq_ok hs] at hround hpos
  rw [BitVec.add_comm, BitVec.add_sub_cancel, ← hround] at hpages
  rw [← hround] at hpos
  obtain ⟨hinv₁, -, -, -⟩ := hinv.keepsBytes_map hpos hmap
  obtain ⟨hinv₂, hlay₂, -⟩ := (Prog.Steps.forEach fun i _ => patches_write _ _).ok hfill hinv₁
  obtain ⟨r', hr', hrw, hsize⟩ := region_of_map hmap hlay₂
  have hwrite : r'.prot.contains .write = true := by
    rw [hrw]
    rfl
  rw [← hsize] at hpages
  obtain ⟨pages', hdev, hsettled⟩ :=
    protect_of_settled ((h.map hinv hpos hmap).of_layout hlay₂) hinv₂ hr' hwrite hpages hprot
  refine ⟨pages', ?_, hsettled⟩
  refine Prog.ofChecked_bind_eq_ok.2 ⟨used, hu, Prog.ofChecked_bind_eq_ok.2 ⟨size, hs, ?_⟩⟩
  refine Prog.bind_eq_ok.2 ⟨(), ⟨m₁, pages₁⟩, onHost_eq_ok.2 ⟨hmap, rfl⟩, ?_⟩
  refine Prog.bind_eq_ok.2 ⟨(), ⟨m₂, pages₁⟩, onHost_eq_ok.2 ⟨hfill, rfl⟩, ?_⟩
  exact Prog.bind_eq_ok.2 ⟨(), ⟨m₃, pages'⟩, hdev, rfl⟩

/-- Every segment is published while it is writable, as no other one is at its address. -/
theorem restoreProtections_of_settled {slide : U64} :
    ∀ {segs : List Segment} {d : DeviceMemory}, Settled pages d → d.mem.Inv →
      (segs.Pairwise fun a b => a.name ≠ "__PAGEZERO" → b.name ≠ "__PAGEZERO" →
        a.vmaddr ≠ b.vmaddr) →
      (∀ seg ∈ segs, seg.name ≠ "__PAGEZERO" →
        ∃ r, d.mem.regions.get? (seg.vmaddr + slide) = some r ∧ r.prot.contains .write = true ∧
          pages.Writable (seg.vmaddr + slide) r.data.size) →
      Prog.forEach (segs.zip (runtimeBases slide segs)) (fun (seg, base?) =>
        match base? with
        | some base => GuestMemory.protect (.android nativeProtect) base (runProt seg)
        | none => pure ()) d.mem = .ok () m' →
      ∃ pages', Prog.forEach (segs.zip (runtimeBases slide segs)) (fun (seg, base?) =>
        match base? with
        | some base => protect nativeProtect base (runProt seg)
        | none => pure ()) d = .ok () ⟨m', pages'⟩ ∧ Settled pages ⟨m', pages'⟩
  | [], d, h, _, _, _, hrun => by
    obtain ⟨-, rfl⟩ := Outcome.ok.inj hrun
    exact ⟨d.pages, rfl, h⟩
  | seg :: segs, d, h, hinv, hapart, hmapped, hrun => by
    rw [runtimeBases, List.map_cons, List.zip_cons_cons, Prog.forEach_cons] at hrun ⊢
    obtain ⟨⟨⟩, m₁, hseg, hrun⟩ := Prog.bind_eq_ok.1 hrun
    obtain ⟨hhead, hapart⟩ := List.pairwise_cons.1 hapart
    have htail := fun s hs => hmapped s (List.mem_cons_of_mem _ hs)
    by_cases hname : seg.name = "__PAGEZERO"
    · rw [if_pos hname] at hseg ⊢
      obtain ⟨-, rfl⟩ := Outcome.ok.inj hseg
      exact restoreProtections_of_settled h hinv hapart htail hrun
    · rw [if_neg hname] at hseg ⊢
      obtain ⟨r, hr, hwrite, hroom⟩ := hmapped seg List.mem_cons_self hname
      obtain ⟨pages₁, hdev, hsettled⟩ := protect_of_settled h hinv hr hwrite hroom hseg
      obtain ⟨-, rfl⟩ := hinv.regions_protect hr hseg
      have htail' : ∀ s ∈ segs, s.name ≠ "__PAGEZERO" →
          ∃ r', (d.mem.regions.insert (seg.vmaddr + slide)
            { r with prot := runProt seg }).get? (s.vmaddr + slide) = some r' ∧
              r'.prot.contains .write = true ∧
              pages.Writable (s.vmaddr + slide) r'.data.size := by
        intro s hs hname'
        rw [SortedMap.get?_insert_of_ne _ _ fun hk =>
          hhead s hs hname hname' ((BitVec.add_left_inj slide).1 hk).symm]
        exact htail s hs hname'
      obtain ⟨pages', hrest, hsettled'⟩ := restoreProtections_of_settled hsettled
        (hinv.change (.setProt _ r _ hr)) hapart htail' hrun
      exact ⟨pages', Prog.bind_eq_ok.2 ⟨(), _, hdev, hrest⟩, hsettled'⟩

theorem initStack_of_settled {cfg : LayoutConfig} {frame : U64 × (Fin 4 → U64)}
    (h : Settled pages ⟨m, pages₁⟩) (hinv : m.Inv)
    (hpos : 0 < (pageRound (max cfg.stackSize 1)).toNat)
    (hpages : pages.Writable (cfg.stackTop - cfg.stackSize)
      (pageRound (max cfg.stackSize 1)).toNat)
    (hrun : Process.initStack ⟨p, .android nativeProtect⟩ cfg m = .ok frame m') :
    ∃ pages', initStack p cfg ⟨m, pages₁⟩ = .ok frame ⟨m', pages'⟩ ∧
      Settled pages ⟨m', pages'⟩ := by
  obtain ⟨base, hbase, hrun⟩ := Prog.ofChecked_bind_eq_ok.1 hrun
  obtain ⟨⟨⟩, m₁, hmap, hrun⟩ := Prog.bind_eq_ok.1 hrun
  obtain ⟨frame', m₂, hstack, hrun⟩ := Prog.bind_eq_ok.1 hrun
  obtain ⟨⟨⟩, m₃, hcommit, hrun⟩ := Prog.bind_eq_ok.1 hrun
  obtain ⟨rfl, rfl⟩ := Outcome.ok.inj hrun
  rw [← Profile.sub_eq_ok hbase] at hpages
  obtain ⟨hinv₁, -, -, -⟩ := hinv.keepsBytes_map hpos hmap
  obtain ⟨hinv₂, hlay₂, -⟩ := (steps_buildStack patches_write).ok hstack hinv₁
  obtain ⟨r, hr, hrw, hsize⟩ := region_of_map hmap hlay₂
  have hsettled : Settled pages ⟨m₂, pages₁⟩ := (h.map hinv hpos hmap).of_layout hlay₂
  have hwrite : r.prot.contains .write = true := by
    rw [hrw]
    rfl
  rw [← hsize] at hpages
  have hsafe : (commitToNative base).Safe ⟨m₂, pages₁⟩ := by
    refine safe_commitToNative fun k r' hk hr' => ?_
    obtain rfl := hinv₂.eq_of_regionBase hr hk
    obtain rfl := Option.some.inj (hr.symm.trans hr')
    exact hsettled.writable hinv₂ hr hwrite hpages
  obtain ⟨⟨mem, pages'⟩, hdev, rfl⟩ := (refines_commitToNative base).of_ok (hsafe _) hcommit
  refine ⟨pages', Prog.ofChecked_bind_eq_ok.2 ⟨base, hbase, ?_⟩, ?_⟩
  · refine Prog.bind_eq_ok.2 ⟨(), ⟨m₁, pages₁⟩, onHost_eq_ok.2 ⟨hmap, rfl⟩, ?_⟩
    refine Prog.bind_eq_ok.2 ⟨_, ⟨m₂, pages₁⟩, onHost_eq_ok.2 ⟨hstack, rfl⟩, ?_⟩
    exact Prog.bind_eq_ok.2 ⟨(), ⟨mem, pages'⟩, hdev, rfl⟩
  · obtain ⟨k, r', -, -, heq⟩ := commitToNative_eq_ok hdev
    obtain ⟨rfl, rfl⟩ := DeviceMemory.mk.inj heq
    exact hsettled

/-! ## The whole build -/

/-- The pages of the segments, of the trampolines up to `stop` and of the stack can be stored. -/
structure Roomy (pages : Pages) (image : MachOImage) (bytes : List U8) (cfg : LayoutConfig)
    (stop : U64) : Prop where
  segments : ∀ seg ∈ image.segments, seg.name ≠ "__PAGEZERO" →
    pages.Writable (seg.vmaddr + cfg.slide) (mappedSize bytes seg).toNat
  trampolines : pages.Writable cfg.trampolineBase (stop - cfg.trampolineBase).toNat
  stack : pages.Writable (cfg.stackTop - cfg.stackSize) (pageRound (max cfg.stackSize 1)).toNat

section Stages

variable {image : MachOImage} {bytes : List U8} {cfg : LayoutConfig} {proc : ProcessImage}

/-- Segments that are not empty are writable when the trampolines are there. -/
theorem writable_stubbed {b : Build} {stop : U64} (s : Stages b image bytes cfg m proc m')
    (hinv : m.Inv)
    (hfull : ∀ seg ∈ image.segments, seg.name ≠ "__PAGEZERO" → mappedSize bytes seg ≠ 0)
    (hroom : Roomy pages image bytes cfg stop) {seg : Segment} (hseg : seg ∈ image.segments)
    (hname : seg.name ≠ "__PAGEZERO") :
    ∃ r, s.stubbed.regions.get? (seg.vmaddr + cfg.slide) = some r ∧
      r.prot.contains .write = true ∧ pages.Writable (seg.vmaddr + cfg.slide) r.data.size := by
  have hpatches := s.patches (s.inv_mapped hinv)
  obtain ⟨-, -, hframe, -⟩ := publishStubs_region hpatches.1 s.publish_eq
  obtain ⟨-, hguarded, -⟩ := s.region_guarded hinv
  rcases hlast : lastAt seg.vmaddr image.segments with _ | seg'
  · exact absurd rfl (lastAt_eq_none_iff.1 hlast seg hseg hname)
  · obtain ⟨hseg', hname', haddr⟩ := lastAt_eq_some hlast
    obtain ⟨r, hr, hreg⟩ := (get?_mapSegments s.map_eq seg.vmaddr).1 seg' hlast
    obtain ⟨r', hr', hshape⟩ := layout_flat_eq_some.1
      ((congrFun hpatches.2.1 (seg.vmaddr + cfg.slide)).trans
        (layout_flat_eq_some.2 ⟨r, hr, rfl⟩))
    have hne : seg.vmaddr + cfg.slide ≠ cfg.trampolineBase := by
      obtain ⟨-, -, -, -, ⟨hzero, -⟩ | ⟨-, hne, -⟩⟩ := hguarded _ seg' hlast
      · exact absurd hzero (hfull seg' hseg' hname')
      · exact hne
    refine ⟨r', (hframe _ hne).trans hr', ?_, ?_⟩
    · rw [show r'.prot = .rw from (congrArg Shape.prot hshape).trans hreg.prot_eq]
      rfl
    · rw [show r'.data.size = _ from (congrArg Shape.size hshape).trans hreg.size_eq, ← haddr]
      exact hroom.segments seg' hseg' hname'

/-- A build without empty segments does not fault where its pages can be stored. -/
theorem buildProcess_of_roomy (hinv : m.Inv) (hstride : cfg.trampolineStride = 16)
    (hpos : 0 < (pageRound (max cfg.stackSize 1)).toNat)
    (hfull : ∀ seg ∈ image.segments, seg.name ≠ "__PAGEZERO" → mappedSize bytes seg ≠ 0)
    (hroom : Roomy pages image bytes cfg proc.trampolineEnd)
    (hrun : IosEmu.buildProcess ⟨p, .android nativeProtect⟩ image bytes cfg m = .ok proc m') :
    ∃ pages', buildProcess p nativeProtect image bytes cfg ⟨m, pages⟩ = .ok proc ⟨m', pages'⟩ ∧
      Settled pages ⟨m', pages'⟩ := by
  obtain ⟨s⟩ := buildProcess_eq_ok.1 hrun
  obtain ⟨hinv₁, -⟩ := s.patches (s.inv_mapped hinv)
  obtain ⟨pages₂, hpublish, hsettled₂⟩ := publishStubs_of_settled (settled_self s.bound pages) hinv₁
    (s.used_le hstride) hroom.trampolines s.publish_eq
  obtain ⟨hinv₂, -⟩ := publishStubs_keepsBytes hinv₁ s.publish_eq
  have hapart : image.segments.Pairwise fun a b => a.name ≠ "__PAGEZERO" →
      b.name ≠ "__PAGEZERO" → a.vmaddr ≠ b.vmaddr :=
    (unreplaced_of_mapSegments hinv s.map_eq hfull).imp_of_mem fun ha _ hne hname hname' =>
      hne hname hname' (hfull _ ha hname)
  have hrestore := s.restore_eq
  rw [s.segRuntime_eq] at hrestore
  obtain ⟨pages₃, hrestore', hsettled₃⟩ := restoreProtections_of_settled hsettled₂ hinv₂ hapart
    (fun seg => writable_stubbed s hinv hfull hroom) hrestore
  obtain ⟨hinv₃, -⟩ := restoreProtections_keeps hinv₂ s.restore_eq
  obtain ⟨pages', hstack, hsettled⟩ :=
    initStack_of_settled hsettled₃ hinv₃ hpos hroom.stack s.stack_eq
  refine ⟨pages', ?_, hsettled⟩
  unfold buildProcess
  rw [if_neg (by simp [s.encrypted_eq])]
  refine Prog.bind_eq_ok.2 ⟨(s.segRuntime, s.resolver), ⟨s.bound, pages⟩,
    onHost_eq_ok.2 ⟨s.bindImage_eq, rfl⟩, ?_⟩
  refine Prog.bind_eq_ok.2 ⟨_, _, hpublish, Prog.bind_eq_ok.2 ⟨(), ⟨s.guarded, pages₃⟩, ?_, ?_⟩⟩
  · rw [s.segRuntime_eq]
    exact hrestore'
  refine Prog.bind_eq_ok.2 ⟨_, ⟨s.guarded, pages₃⟩, onHost_eq_ok.2 ⟨s.init_eq, rfl⟩, ?_⟩
  refine Prog.bind_eq_ok.2 ⟨_, _, hstack, Prog.ofResult_bind_eq_ok.2 ⟨_, s.entry_eq, ?_⟩⟩
  refine Prog.bind_eq_ok.2 ⟨_, ⟨m', pages'⟩, onHost_eq_ok.2 ⟨s.lazy_eq, rfl⟩, ?_⟩
  rw [← s.trampolines_eq, ← s.base_eq, ← s.stubs_eq]
  rfl

end Stages

/-- A load without empty segments does not fault where its pages can be stored. -/
theorem load_of_roomy {W : Type} {os : Reservations} {cfg : MachineConfig} {bytes : List U8}
    {vfs : Sandbox} {fs : HostFs} {world : W} {image : MachOImage} {layout : LayoutConfig}
    {proc : ProcessImage} (hparse : MachOImage.parse bytes = .ok image)
    (hnew : GuestMemory.new p cfg.heapBase cfg.heapSize = .ok () m)
    (hlayout : layoutOf ⟨p, .android nativeProtect⟩ os cfg image (executablePath vfs) m =
      .ok layout m)
    (hpos : 0 < (pageRound (max layout.stackSize 1)).toNat)
    (hfull : ∀ seg ∈ image.segments, seg.name ≠ "__PAGEZERO" → mappedSize bytes seg ≠ 0)
    (hroom : Roomy pages image bytes layout proc.trampolineEnd)
    (hrun : IosEmu.buildProcess ⟨p, .android nativeProtect⟩ image bytes layout m = .ok proc m') :
    ∃ pages', load p nativeProtect os cfg bytes vfs fs world pages =
      .ok (Machine.ofProcess m' vfs fs world proc, pages') () ∧ Settled pages ⟨m', pages'⟩ := by
  obtain ⟨pages', hdev, hsettled⟩ := buildProcess_of_roomy (inv_new hnew)
    (Machine.layoutOf_stride hlayout) hpos hfull hroom hrun
  exact ⟨pages', load_eq_ok.2 ⟨image, m, hparse, hnew, layout, m, proc, m', hlayout, hdev, rfl⟩,
    hsettled⟩

end Device

end IosEmu
