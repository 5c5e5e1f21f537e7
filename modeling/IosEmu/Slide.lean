import IosEmu.BuildRegions
import IosEmu.LazySymbols

/-!
# The slide

An image is the same process at every slide. Two builds of it, without a slide and with one,
map the segments a slide apart, with the same protections and the same bytes, except that the
pointers the image says to relocate are larger by the slide. The stack, the page of trampolines
and the tables of imports are the same, and the entry, the slots of the lazy binds and the
relocated initialisers move along (`slid_of_buildProcess`).

`buildStack` does not keep to the stack : where the arguments do not fit into it, they are
stored in whatever is mapped below, which may be one segment without a slide and another one
with it (`tight_not_slid`).
-/

open SysLib

namespace IosEmu

open GuestMemory Process

/-! ## Initialisers -/

namespace GuestMemory

variable {m : GuestMemory} {a k v w : U64}

theorem Word.unique (hv : m.Word a v) (hw : m.Word a w) : v = w := by
  refine toLeBytes64_inj (List.ext_getElem? fun i => ?_)
  rcases lt_or_ge i 8 with hi | hi
  · have hsub : (a + BitVec.ofNat 64 i - a).toNat = i := by
      rw [BitVec.add_comm, BitVec.add_sub_cancel, BitVec.toNat_ofNat]
      omega
    have hcov : Covers a (a + BitVec.ofNat 64 i) := by
      rw [Covers, hsub]
      exact hi
    have heq := (hv _ hcov).symm.trans (hw _ hcov)
    rwa [hsub] at heq
  · rw [List.getElem?_eq_none (by rw [length_toLeBytes64]; exact hi),
      List.getElem?_eq_none (by rw [length_toLeBytes64]; exact hi)]

theorem KeepsBytes.word {m' : GuestMemory} (h : KeepsBytes m m') (hw : m.Word a v) :
    m'.Word a v := by
  intro c hc
  have hlt : (c - a).toNat < (toLeBytes64 v).length := by
    rw [length_toLeBytes64]
    exact hc
  rw [List.getElem?_eq_getElem hlt]
  exact h _ _ ((hw c hc).trans (List.getElem?_eq_getElem hlt))

/-- A double word of a region can be read exactly if the region can. -/
theorem Inv.readU64_isOk_iff (h : m.Inv) {r : Region} (hr : m.regions.get? k = some r)
    (ha : (a - k).toNat + 8 ≤ r.data.size) :
    (∃ v, m.readU64 a = .ok v) ↔ r.prot.contains .read = true := by
  refine ⟨fun ⟨v, hv⟩ => ?_, fun hprot => h.readU64_isOk (h.grants_region hr (by omega) ha hprot)⟩
  obtain ⟨hg, -⟩ := h.readU64_eq_ok_iff.1 hv
  obtain ⟨k', r', hlast, -, -, hprot⟩ := h.grants_flat.1 hg
  have hfits := h.fits k r hr
  unfold Region.Fits at hfits
  rw [h.base_eq k r hr] at hfits
  have hadd := toNat_eq_add_sub (show k.toNat + (a - k).toNat < 2 ^ 64 by omega)
  have hlast' := h.lastLE_of_mem (a := a) hr (BitVec.le_def.2 (by omega)) (by omega)
  obtain ⟨rfl, rfl⟩ := Prod.mk.inj (Option.some.inj (hlast.symm.trans hlast'))
  exact hprot

end GuestMemory

namespace Process

variable {p : Profile} {m m' : GuestMemory} {image : MachOImage} {bytes : List U8} {s : U64}

/-- The initialisers are the pointers that can be read. -/
theorem collectInitFuncs_eq_ok {slide : U64} : ∀ {slots : List (Section × ℕ)}
    {funcs funcs' : List U64} {m m' : GuestMemory},
      collectInitFuncs p slide funcs slots m = .ok funcs' m' → m' = m ∧
        funcs' = funcs ++ slots.filterMap fun slot => (m.readU64 (initAddr slot + slide)).toOption
  | [], funcs, funcs', m, m', h => by
    obtain ⟨rfl, rfl⟩ := Outcome.ok.inj h
    exact ⟨rfl, (List.append_nil funcs).symm⟩
  | slot :: slots, funcs, funcs', m, m', h => by
    obtain ⟨func?, m₁, hslot, h⟩ := Prog.bind_eq_ok.1 h
    obtain ⟨-, -, hslots⟩ := Prog.ofChecked_bind_eq_ok.1 h
    obtain ⟨start, hstart, hslot⟩ := Prog.ofChecked_bind_eq_ok.1 hslot
    obtain ⟨off, hoff, hslot⟩ := Prog.ofChecked_bind_eq_ok.1 hslot
    obtain ⟨addr, haddr, hslot⟩ := Prog.ofChecked_bind_eq_ok.1 hslot
    obtain rfl := Profile.add_eq_ok hstart
    obtain rfl := Profile.mul_eq_ok hoff
    obtain rfl := Profile.add_eq_ok haddr
    obtain ⟨rfl, rfl⟩ := Outcome.ok.inj hslot
    obtain ⟨rfl, rfl⟩ := collectInitFuncs_eq_ok hslots
    refine ⟨rfl, ?_⟩
    rw [List.filterMap_cons, add_right_comm slot.1.addr slide, ← initAddr, List.append_assoc]
    rcases (m'.readU64 (initAddr slot + slide)).toOption with _ | v <;> rfl

/-- A pointer to an initialiser lies in the image. -/
theorem Relocatable.slotInImage_of_init (h : Relocatable p image bytes)
    (hkept : Unreplaced bytes image.segments) {slot : Section × ℕ} (hslot : slot ∈ initSlots image) :
    SlotInImage image bytes (initAddr slot) := by
  obtain ⟨sect, hsect, hslot⟩ := List.mem_flatMap.1 hslot
  obtain ⟨i, hi, rfl⟩ := List.mem_map.1 hslot
  obtain ⟨hsect, hinit⟩ := List.mem_filter.1 hsect
  obtain ⟨seg, hseg, hsect⟩ := List.mem_flatMap.1 hsect
  obtain ⟨hname, hlo, hhi⟩ := h.initialisers seg hseg sect hsect hinit
  have hi := List.mem_range.1 hi
  have hsize := (mappedSize bytes seg).isLt
  have hsect := sect.size.isLt
  have hne : mappedSize bytes seg ≠ 0 := by
    intro hzero
    rw [hzero] at hhi
    have hzero' : (0 : U64).toNat = 0 := rfl
    omega
  refine ⟨seg, hkept.lastAt_eq hname hne hseg, ?_⟩
  have hoff : (BitVec.ofNat 64 i * 8 : U64).toNat = 8 * i := by
    rw [BitVec.toNat_mul, BitVec.toNat_ofNat]
    change i % 2 ^ 64 * 8 % 2 ^ 64 = 8 * i
    omega
  have hsub : (initAddr (sect, i) - seg.vmaddr).toNat =
      sect.addr.toNat - seg.vmaddr.toNat + 8 * i := by
    have hsum : initAddr (sect, i) - seg.vmaddr =
        (sect.addr - seg.vmaddr) + BitVec.ofNat 64 i * 8 := by
      rw [initAddr, BitVec.sub_eq_add_neg, add_right_comm, ← BitVec.sub_eq_add_neg]
    rw [hsum, BitVec.toNat_add, BitVec.toNat_sub_of_le (BitVec.le_def.2 hlo), hoff]
    omega
  rw [hsub]
  omega

end Process

/-! ## Lazy binds -/

namespace Process

/-- The slots of the lazy binds move with the segments. -/
theorem get?_foldl_addLazyBind_slide (s : U64) (segs : List Segment) (k : U64) :
    ∀ {entries : List LazyBind} {table table' : SortedMap U64 (String × U64)},
      (∀ k, table'.get? k = (table.get? k).map fun e => (e.1, e.2 + s)) →
      (entries.foldl (addLazyBind (runtimeBases s segs)) table').get? k =
        ((entries.foldl (addLazyBind (runtimeBases 0 segs)) table).get? k).map
          fun e => (e.1, e.2 + s)
  | [], _, _, h => h k
  | lb :: entries, table, table', h => by
    rw [List.foldl_cons, List.foldl_cons]
    refine get?_foldl_addLazyBind_slide s segs k fun k' => ?_
    unfold addLazyBind
    rw [segBase_runtimeBases]
    rcases segBase (runtimeBases 0 segs) lb.segIndex with _ | base
    · exact h k'
    · dsimp only [Option.map_some]
      rw [SortedMap.get?_insert, SortedMap.get?_insert]
      split_ifs
      · rw [Option.map_some, add_right_comm]
      · exact h k'

end Process

/-! ## Both builds -/

namespace GuestMemory

/-- What both memories keep stays related. -/
theorem Moved.keeps {S P : Set U64} {s : U64} {m m' m₁ m₁' : GuestMemory} (h : Moved S P s m m')
    (hS : ∀ a ∈ S, ∃ v, m.byteAt a = some v) (hkeep : KeepsBytes m m₁)
    (hkeep' : KeepsBytes m' m₁') : Moved S P s m₁ m₁' where
  byte_eq a ha hout := by
    obtain ⟨v, hv⟩ := hS a ha
    exact (hkeep' _ v ((h.byte_eq a ha hout).trans hv)).trans (hkeep _ v hv).symm
  word b hb := by
    obtain ⟨v, hv, hv'⟩ := h.word b hb
    exact ⟨v, hkeep.word hv, hkeep'.word hv'⟩

/-- A double word in the image that is apart from the slots is the same in both. -/
theorem Moved.word_of_apart {S P : Set U64} {s a v : U64} {m m' : GuestMemory}
    (h : Moved S P s m m') (hS : ∀ c, Covers a c → c ∈ S) (hP : ∀ b ∈ P, SlotsApart b a)
    (hv : m.Word a v) : m'.Word (a + s) v := by
  intro c hc
  rw [← BitVec.sub_add_cancel c s, covers_add] at hc
  have hbyte := h.byte_eq (c - s) (hS _ hc) fun b hb hcov => hP b hb _ hcov hc
  rw [BitVec.sub_add_cancel, hv _ hc] at hbyte
  rw [hbyte, ← add_sub_add (c - s) a s, BitVec.sub_add_cancel]

end GuestMemory

section Builds

variable {b : Build} {image : MachOImage} {bytes : List U8} {cfg : LayoutConfig} {s : U64}
  {m₀ m m' : GuestMemory} {proc proc' : ProcessImage}

theorem Process.StackFits.slide (h : StackFits cfg) (s : U64) : StackFits { cfg with slide := s } :=
  ⟨h.path_le, h.size_le, h.alloc⟩

/-- The pointers to relocate that are not bound. -/
def Rebased (p : Profile) (image : MachOImage) (bytes : List U8) (a : U64) : Prop :=
  RebaseSlot p image bytes a ∧ ¬BindSlot p image bytes a

theorem moved_final (hinv : m₀.Inv) (himage : Relocatable b.profile image bytes)
    (hkept : Unreplaced bytes image.segments) (hfits : StackFits cfg)
    (s₀ : Stages b image bytes { cfg with slide := 0 } m₀ proc m)
    (s₁ : Stages b image bytes { cfg with slide := s } m₀ proc' m') :
    MovedImage image bytes {a | Rebased b.profile image bytes a} s m m' := by
  obtain ⟨-, hloaded, -, hmoved⟩ := moved_bound hinv himage hkept s₀ s₁
  refine hmoved.keeps (fun a ha => ?_) (s₀.keepsBytes_of_fits (hfits.slide 0) hinv).2
    (s₁.keepsBytes_of_fits (hfits.slide s) hinv).2
  obtain ⟨seg, hlast, ha⟩ := ha
  obtain ⟨r, hr, -, hsize⟩ := hloaded.region seg hlast
  rw [show seg.vmaddr + 0 = seg.vmaddr from BitVec.add_zero _] at hr
  rw [hloaded.inv.byteAt_region hr (by omega), Buffer.get?_of_lt (by omega)]
  exact ⟨_, rfl⟩

open Classical in
/-- A pointer to an initialiser, at the slide. -/
noncomputable def slidPointer (p : Profile) (image : MachOImage) (bytes : List U8) (s a v : U64) :
    U64 :=
  if Rebased p image bytes a then v + s else v

/-- A pointer to an initialiser is read in both builds or in none. -/
theorem read_initialiser (hinv : m₀.Inv) (himage : Relocatable b.profile image bytes)
    (hkept : Unreplaced bytes image.segments) (hfits : StackFits cfg)
    (s₀ : Stages b image bytes { cfg with slide := 0 } m₀ proc m)
    (s₁ : Stages b image bytes { cfg with slide := s } m₀ proc' m') {slot : Section × ℕ}
    (hslot : slot ∈ initSlots image) :
    (s₁.guarded.readU64 (initAddr slot + s)).toOption =
        (s₀.guarded.readU64 (initAddr slot + 0)).toOption.map
          (slidPointer b.profile image bytes s (initAddr slot)) ∧
      ∀ v, (s₀.guarded.readU64 (initAddr slot + 0)).toOption = some v →
        m.Word (initAddr slot) v := by
  have hin := himage.slotInImage_of_init hkept hslot
  obtain ⟨seg, hlast, hle⟩ := hin
  obtain ⟨hinv₀, hregion₀, -⟩ := s₀.region_guarded hinv
  obtain ⟨hinv₁, hregion₁, -⟩ := s₁.region_guarded hinv
  have hpos : mappedSize bytes seg ≠ 0 := by
    intro hzero
    rw [hzero] at hle
    exact absurd hle (by simp)
  obtain ⟨r₀, hr₀, -, hprot₀, hplace₀⟩ := hregion₀ seg.vmaddr seg hlast
  obtain ⟨r₁, hr₁, -, hprot₁, hplace₁⟩ := hregion₁ seg.vmaddr seg hlast
  obtain ⟨-, -, hsize₀⟩ := hplace₀.resolve_left fun h => hpos h.1
  obtain ⟨-, -, hsize₁⟩ := hplace₁.resolve_left fun h => hpos h.1
  have hok₀ := hinv₀.readU64_isOk_iff (a := initAddr slot + 0) hr₀
    (by rw [add_sub_add, hsize₀]; exact hle)
  have hok₁ := hinv₁.readU64_isOk_iff (a := initAddr slot + s) hr₁
    (by rw [add_sub_add, hsize₁]; exact hle)
  rw [hprot₀] at hok₀
  rw [hprot₁] at hok₁
  rcases hread₀ : s₀.guarded.readU64 (initAddr slot + 0) with e | v
  · rcases hread₁ : s₁.guarded.readU64 (initAddr slot + s) with e' | v'
    · exact ⟨rfl, fun v hv => by cases hv⟩
    · obtain ⟨v, hv⟩ := hok₀.2 (hok₁.1 ⟨v', hread₁⟩)
      cases hv.symm.trans hread₀
  · obtain ⟨v', hread₁⟩ := hok₁.2 (hok₀.1 ⟨v, hread₀⟩)
    have hkeep₀ := (initStack_keeps hinv₀ (hfits.slide 0) s₀.stack_eq).2
    have hkeep₁ := (initStack_keeps hinv₁ (hfits.slide s) s₁.stack_eq).2
    have hword₀ := hkeep₀.word (hinv₀.readU64_eq_ok_iff.1 hread₀).2
    have hword₁ := hkeep₁.word (hinv₁.readU64_eq_ok_iff.1 hread₁).2
    rw [show initAddr slot + 0 = initAddr slot from BitVec.add_zero _] at hword₀
    have hmoved := moved_final hinv himage hkept hfits s₀ s₁
    rw [hread₁]
    refine ⟨congrArg some ?_, fun w hw => Option.some.inj hw ▸ hword₀⟩
    unfold slidPointer
    split_ifs with hreb
    · obtain ⟨w, hw, hw'⟩ := hmoved.word _ hreb
      rw [hword₀.unique hw]
      exact hword₁.unique hw'
    · refine hword₁.unique (hmoved.word_of_apart (fun c hc => ?_) (fun a ha => ?_) hword₀)
      · exact SlotInImage.covers ⟨seg, hlast, hle⟩ hc
      · refine (himage.init_or_apart a slot ha.1 hslot).resolve_left fun heq => hreb ?_
        exact heq ▸ ha

end Builds

/-- Two builds of an image, the second a slide away from the first. -/
structure Slid (p : Profile) (image : MachOImage) (bytes : List U8) (cfg : LayoutConfig) (s : U64)
    (proc proc' : ProcessImage) (m m' : GuestMemory) : Prop where
  segment : ∀ seg ∈ image.segments, seg.name ≠ "__PAGEZERO" → ∃ r r',
    m.regions.get? seg.vmaddr = some r ∧ m'.regions.get? (seg.vmaddr + s) = some r' ∧
      (r.prot = runProt seg ∧ r'.prot = runProt seg) ∧
      r.data.size = (mappedSize bytes seg).toNat ∧ r'.data.size = (mappedSize bytes seg).toNat
  byte : ∀ a, InImage image bytes a → (∀ b, Rebased p image bytes b → ¬Covers b a) →
    m'.byteAt (a + s) = m.byteAt a
  pointer : ∀ b, Rebased p image bytes b → ∃ v, m.Word b v ∧ m'.Word (b + s) (v + s)
  stack : m'.regions.get? (cfg.stackTop - cfg.stackSize) =
    m.regions.get? (cfg.stackTop - cfg.stackSize)
  arguments : proc'.sp = proc.sp ∧ proc'.argRegs = proc.argRegs
  stubs : m'.regions.get? cfg.trampolineBase = m.regions.get? cfg.trampolineBase ∧
    proc'.trampolineBase = proc.trampolineBase ∧ proc'.trampolineEnd = proc.trampolineEnd
  trampolines : proc'.trampolines = proc.trampolines ∧ proc'.symbolStubs = proc.symbolStubs
  entry : proc'.entry = proc.entry + s
  lazyBinds : ∀ k, proc'.lazyBinds.get? k = (proc.lazyBinds.get? k).map fun e => (e.1, e.2 + s)
  initFuncs_length : proc'.initFuncs.length = proc.initFuncs.length
  initFuncs : ∃ slots, slots.Sublist (initSlots image) ∧
    List.Forall₂ (fun slot v => m.Word (initAddr slot) v) slots proc.initFuncs ∧
    proc'.initFuncs = List.zipWith (fun slot v => slidPointer p image bytes s (initAddr slot) v)
      slots proc.initFuncs

/-- What is found for the entries of a list moves with them. -/
theorem filterMap_zipWith {α β : Type} {f g : α → Option β} {shift : α → β → β} :
    ∀ {l : List α}, (∀ x ∈ l, g x = (f x).map (shift x)) →
      l.filterMap g = List.zipWith shift (l.filter fun x => (f x).isSome) (l.filterMap f)
  | [], _ => rfl
  | x :: l, h => by
    have htail := filterMap_zipWith fun y hy => h y (List.mem_cons_of_mem x hy)
    rw [List.filterMap_cons, List.filterMap_cons, List.filter_cons, h x List.mem_cons_self]
    rcases f x with _ | v
    · exact htail
    · exact congrArg (shift x v :: ·) htail

theorem forall₂_filterMap {α β : Type} {f : α → Option β} {R : α → β → Prop} :
    ∀ {l : List α}, (∀ x ∈ l, ∀ v, f x = some v → R x v) →
      List.Forall₂ R (l.filter fun x => (f x).isSome) (l.filterMap f)
  | [], _ => List.Forall₂.nil
  | x :: l, h => by
    have htail := forall₂_filterMap fun y hy => h y (List.mem_cons_of_mem x hy)
    rw [List.filterMap_cons, List.filter_cons]
    rcases hx : f x with _ | v
    · exact htail
    · exact List.Forall₂.cons (h x List.mem_cons_self v hx) htail

section Builds

variable {b : Build} {image : MachOImage} {bytes : List U8} {cfg : LayoutConfig} {s : U64}
  {m₀ m m' : GuestMemory} {proc proc' : ProcessImage}

theorem initFuncs_of_builds (hinv : m₀.Inv) (himage : Relocatable b.profile image bytes)
    (hkept : Unreplaced bytes image.segments) (hfits : StackFits cfg)
    (s₀ : Stages b image bytes { cfg with slide := 0 } m₀ proc m)
    (s₁ : Stages b image bytes { cfg with slide := s } m₀ proc' m') :
    ∃ slots, slots.Sublist (initSlots image) ∧
      List.Forall₂ (fun slot v => m.Word (initAddr slot) v) slots proc.initFuncs ∧
      proc'.initFuncs = List.zipWith
        (fun slot v => slidPointer b.profile image bytes s (initAddr slot) v)
        slots proc.initFuncs := by
  have hfuncs₀ := (collectInitFuncs_eq_ok s₀.init_eq).2
  have hfuncs₁ := (collectInitFuncs_eq_ok s₁.init_eq).2
  simp only [List.nil_append] at hfuncs₀ hfuncs₁
  rw [hfuncs₀, hfuncs₁]
  refine ⟨_, List.filter_sublist, forall₂_filterMap fun slot hslot => ?_,
    filterMap_zipWith fun slot hslot => ?_⟩
  · exact (read_initialiser hinv himage hkept hfits s₀ s₁ hslot).2
  · exact (read_initialiser hinv himage hkept hfits s₀ s₁ hslot).1

/-- No segment that is not empty is mapped at the page of trampolines. -/
theorem Stages.lastAt_trampolineBase (t : Stages b image bytes cfg m₀ proc m) (hinv : m₀.Inv)
    (hsize : ∀ seg ∈ image.segments, seg.name ≠ "__PAGEZERO" → mappedSize bytes seg ≠ 0) :
    lastAt (cfg.trampolineBase - cfg.slide) image.segments = none := by
  rcases hlast : lastAt (cfg.trampolineBase - cfg.slide) image.segments with _ | seg
  · rfl
  · obtain ⟨hseg, hname, -⟩ := lastAt_eq_some hlast
    obtain ⟨r, -, -, -, hplace⟩ := (t.region_guarded hinv).2.1 _ seg hlast
    rcases hplace with ⟨hzero, -⟩ | ⟨-, hne, -⟩
    · exact absurd hzero (hsize seg hseg hname)
    · exact absurd (BitVec.sub_add_cancel _ _) hne

/-- The last segment at an address has its region in a finished build. -/
theorem Stages.region_segment (t : Stages b image bytes cfg m₀ proc m) (hinv : m₀.Inv)
    (hfits : StackFits cfg) {a : U64} {seg : Segment}
    (hlast : lastAt a image.segments = some seg) :
    ∃ r, m.regions.get? (a + cfg.slide) = some r ∧ r.prot = runProt seg ∧
      (mappedSize bytes seg ≠ 0 → r.data.size = (mappedSize bytes seg).toNat) := by
  obtain ⟨r, hr, hpos, hprot, hplace⟩ := (t.region_guarded hinv).2.1 a seg hlast
  refine ⟨r, t.region_final hinv hfits hr hpos, hprot, fun hne => ?_⟩
  exact (hplace.resolve_left fun h => hne h.1).2.2

/-- The page of trampolines stays as it was published, if no segment is at its base. -/
theorem Stages.region_stubs (t : Stages b image bytes cfg m₀ proc m) (hinv : m₀.Inv)
    (hfits : StackFits cfg) (hnone : lastAt (cfg.trampolineBase - cfg.slide) image.segments = none) :
    ∃ used size region, t.resolver.used b.profile = .ok used ∧
      alignUp b.profile (max used pageSize) pageSize = .ok size ∧
      Region.newZeroed cfg.trampolineBase (pageRound (max size 1)) .rw .segment "__stubs" =
        .ok region ∧ proc.trampolineEnd = cfg.trampolineBase + size ∧
      m.regions.get? cfg.trampolineBase =
        some { Region.putBlocks region (stubBlocks cfg.trampolineBase size) with prot := .rx } := by
  have hbound := (t.patches (t.inv_mapped hinv)).1
  obtain ⟨-, -, -, used, size, region, hused, hsize, hnew, hstop, hpos, hstub⟩ :=
    publishStubs_region hbound t.publish_eq
  have hkept := (t.region_guarded hinv).2.2 hnone
  rw [hstub] at hkept
  refine ⟨used, size, region, hused, hsize, hnew, hstop, t.region_final hinv hfits hkept ?_⟩
  rwa [Region.size_putBlocks]

/-- Both builds have the same stack. -/
theorem stack_of_builds (hinv : m₀.Inv) (hfits : StackFits cfg)
    (s₀ : Stages b image bytes { cfg with slide := 0 } m₀ proc m)
    (s₁ : Stages b image bytes { cfg with slide := s } m₀ proc' m') :
    m'.regions.get? (cfg.stackTop - cfg.stackSize) =
        m.regions.get? (cfg.stackTop - cfg.stackSize) ∧
      proc'.sp = proc.sp ∧ proc'.argRegs = proc.argRegs := by
  obtain ⟨-, -, -, str, region, hstr, hnew, hframe, hget⟩ :=
    initStack_region (s₀.region_guarded hinv).1 (hfits.slide 0) s₀.stack_eq
  obtain ⟨-, -, -, str', region', hstr', hnew', hframe', hget'⟩ :=
    initStack_region (s₁.region_guarded hinv).1 (hfits.slide s) s₁.stack_eq
  obtain rfl : str' = str := BitVec.eq_of_toNat_eq (hstr'.trans hstr.symm)
  obtain rfl : region' = region := Except.ok.inj (hnew'.symm.trans hnew)
  obtain ⟨hsp, hregs⟩ := Prod.mk.inj (hframe'.trans hframe.symm)
  exact ⟨hget'.trans hget.symm, hsp, hregs⟩

/-- Both builds have the same page of trampolines. -/
theorem stubs_of_builds (hinv : m₀.Inv) (hfits : StackFits cfg)
    (hmapped : ∀ seg ∈ image.segments, seg.name ≠ "__PAGEZERO" → mappedSize bytes seg ≠ 0)
    (s₀ : Stages b image bytes { cfg with slide := 0 } m₀ proc m)
    (s₁ : Stages b image bytes { cfg with slide := s } m₀ proc' m')
    (hresolver : s₁.resolver = s₀.resolver) :
    m'.regions.get? cfg.trampolineBase = m.regions.get? cfg.trampolineBase ∧
      proc'.trampolineEnd = proc.trampolineEnd := by
  obtain ⟨used, size, region, hused, hsize, hnew, hstop, hget⟩ :=
    s₀.region_stubs hinv (hfits.slide 0) (s₀.lastAt_trampolineBase hinv hmapped)
  obtain ⟨used', size', region', hused', hsize', hnew', hstop', hget'⟩ :=
    s₁.region_stubs hinv (hfits.slide s) (s₁.lastAt_trampolineBase hinv hmapped)
  rw [hresolver] at hused'
  obtain rfl := Except.ok.inj (hused'.symm.trans hused)
  obtain rfl := Except.ok.inj (hsize'.symm.trans hsize)
  obtain rfl := Except.ok.inj (hnew'.symm.trans hnew)
  exact ⟨hget'.trans hget.symm, hstop'.trans hstop.symm⟩

/-- The entry point moves with the image. -/
theorem resolveEntry_slide {entry entry' : U64} (h : resolveEntry image 0 = .ok entry)
    (h' : resolveEntry image s = .ok entry') : entry' = entry + s := by
  unfold resolveEntry at h h'
  rcases hentry : image.entry with _ | ⟨fileOffset, stackSize⟩ | vmaddr <;>
    simp only [hentry] at h h'
  · cases h
  · obtain rfl := Except.ok.inj h
    obtain rfl := Except.ok.inj h'
    rw [add_right_comm, show image.textVmaddr + 0 = image.textVmaddr from BitVec.add_zero _]
  · obtain rfl := Except.ok.inj h
    obtain rfl := Except.ok.inj h'
    rw [show vmaddr + 0 = vmaddr from BitVec.add_zero _]

/-- The lazy table moves with the image. -/
theorem lazyBinds_slide (s₀ : Stages b image bytes { cfg with slide := 0 } m₀ proc m)
    (s₁ : Stages b image bytes { cfg with slide := s } m₀ proc' m') (k : U64) :
    proc'.lazyBinds.get? k = (proc.lazyBinds.get? k).map fun e => (e.1, e.2 + s) := by
  obtain ⟨-, entries, hentries, htable⟩ := lazyTable_eq_ok.1 s₀.lazy_eq
  obtain ⟨-, entries', hentries', htable'⟩ := lazyTable_eq_ok.1 s₁.lazy_eq
  obtain rfl := lazyEntries_unique hentries hentries'
  rw [htable, htable', s₀.segRuntime_eq, s₁.segRuntime_eq]
  exact get?_foldl_addLazyBind_slide s image.segments k fun k => rfl

/-- Two builds of an image whose pointers to relocate are apart are a slide apart. -/
theorem slid_of_builds (hinv : m₀.Inv) (himage : Relocatable b.profile image bytes)
    (hsize : ∀ seg ∈ image.segments, seg.name ≠ "__PAGEZERO" → mappedSize bytes seg ≠ 0)
    (hfits : StackFits cfg) (s₀ : Stages b image bytes { cfg with slide := 0 } m₀ proc m)
    (s₁ : Stages b image bytes { cfg with slide := s } m₀ proc' m') :
    Slid b.profile image bytes cfg s proc proc' m m' := by
  have hkept := unreplaced_of_mapSegments hinv s₀.map_eq hsize
  obtain ⟨hresolver, -⟩ := moved_bound hinv himage hkept s₀ s₁
  have hmoved := moved_final hinv himage hkept hfits s₀ s₁
  obtain ⟨hstack, hargs⟩ := stack_of_builds hinv hfits s₀ s₁
  obtain ⟨hstubs, hstop⟩ := stubs_of_builds hinv hfits hsize s₀ s₁ hresolver
  have hinit := initFuncs_of_builds hinv himage hkept hfits s₀ s₁
  exact {
    segment := fun seg hseg hname => by
      have hne := hsize seg hseg hname
      have hlast := hkept.lastAt_eq hname hne hseg
      obtain ⟨r, hr, hprot, hlen⟩ := s₀.region_segment hinv (hfits.slide 0) hlast
      obtain ⟨r', hr', hprot', hlen'⟩ := s₁.region_segment hinv (hfits.slide s) hlast
      rw [show seg.vmaddr + 0 = seg.vmaddr from BitVec.add_zero _] at hr
      exact ⟨r, r', hr, hr', ⟨hprot, hprot'⟩, hlen hne, hlen' hne⟩
    byte := fun a ha hout => hmoved.byte_eq a ha fun b hb => hout b hb
    pointer := fun b hb => hmoved.word b hb
    stack := hstack
    arguments := hargs
    stubs := ⟨hstubs, s₁.base_eq.trans s₀.base_eq.symm, hstop⟩
    trampolines := ⟨by rw [s₁.trampolines_eq, s₀.trampolines_eq, hresolver],
      by rw [s₁.stubs_eq, s₀.stubs_eq, hresolver]⟩
    entry := resolveEntry_slide s₀.entry_eq s₁.entry_eq
    lazyBinds := lazyBinds_slide s₀ s₁
    initFuncs_length := by
      obtain ⟨slots, -, hread, hzip⟩ := hinit
      rw [hzip, List.length_zipWith, hread.length_eq, Nat.min_self]
    initFuncs := hinit }

/-- Relocating the image by zero, when its segments are mapped, does nothing. -/
theorem rebase_zero_of_mapSegments (hinv : m₀.Inv) (himage : Relocatable b.profile image bytes)
    (hsize : ∀ seg ∈ image.segments, seg.name ≠ "__PAGEZERO" → mappedSize bytes seg ≠ 0)
    {bases : List (Option U64)} {mapped : GuestMemory}
    (hmap : mapSegments b.profile bytes 0 image.segments m₀ = .ok bases mapped)
    {locs : List RebaseLocation} (hlocs : RebaseLocations b.profile image bytes locs) :
    Prog.forEach locs (rebaseOne 0 bases) mapped = .ok () mapped := by
  have hkept := unreplaced_of_mapSegments hinv hmap hsize
  have hloaded := (loaded_of_mapSegments hinv hmap).1
  rw [mapSegments_bases hmap]
  exact hloaded.rebase_zero fun loc hloc => himage.locInImage hkept hlocs hloc

end Builds

/-- An image that fits in the layout is the same process at every slide, and the pass that is
skipped without a slide would do nothing. -/
theorem slid_of_buildProcess (b : Build) (image : MachOImage) (bytes : List U8)
    (cfg : LayoutConfig) (s : U64) (m₀ m m' : GuestMemory) (proc proc' : ProcessImage)
    (hm : Reachable b.profile m₀) (himage : Relocatable b.profile image bytes)
    (hsize : ∀ seg ∈ image.segments, seg.name ≠ "__PAGEZERO" → mappedSize bytes seg ≠ 0)
    (hfits : StackFits cfg)
    (hok : buildProcess b image bytes { cfg with slide := 0 } m₀ = .ok proc m)
    (hok' : buildProcess b image bytes { cfg with slide := s } m₀ = .ok proc' m') :
    Slid b.profile image bytes cfg s proc proc' m m' ∧
      ∀ bases mapped, mapSegments b.profile bytes 0 image.segments m₀ = .ok bases mapped →
        ∀ locs, RebaseLocations b.profile image bytes locs →
          Prog.forEach locs (rebaseOne 0 bases) mapped = .ok () mapped := by
  obtain ⟨s₀⟩ := buildProcess_eq_ok.1 hok
  obtain ⟨s₁⟩ := buildProcess_eq_ok.1 hok'
  exact ⟨slid_of_builds hm.inv himage hsize hfits s₀ s₁, fun _ _ hmap _ hlocs =>
    rebase_zero_of_mapSegments hm.inv himage hsize hmap hlocs⟩

/-! ## A file with two segments -/

/-- A thin file with two segments, whose rebase stream names a pointer of the second. -/
def slideFile : List U8 :=
  leBytes 4 0xfeedfacf ++ leBytes 4 0x0100000c ++ leBytes 4 0 ++ leBytes 4 2 ++ leBytes 4 4 ++
    leBytes 4 216 ++ leBytes 4 0x200000 ++ leBytes 4 0 ++
    (leBytes 4 0x19 ++ leBytes 4 72 ++ leBytes 16 0x415441445f5f ++ leBytes 8 0x100000000 ++
      leBytes 8 0x4000 ++ leBytes 8 0 ++ leBytes 8 0 ++ leBytes 4 3 ++ leBytes 4 3 ++
      leBytes 4 0 ++ leBytes 4 0) ++
    (leBytes 4 0x19 ++ leBytes 4 72 ++ leBytes 16 0x434a424f5f5f ++ leBytes 8 0x100008000 ++
      leBytes 8 0x4000 ++ leBytes 8 0 ++ leBytes 8 0 ++ leBytes 4 3 ++ leBytes 4 3 ++
      leBytes 4 0 ++ leBytes 4 0) ++
    (leBytes 4 0x80000022 ++ leBytes 4 48 ++ leBytes 4 248 ++ leBytes 4 6 ++ leBytes 32 0) ++
    (leBytes 4 0x80000028 ++ leBytes 4 24 ++ leBytes 16 0) ++
    [0x11, 0x21, 0x80, 0x02, 0x51, 0x00]

/-- Its image. -/
def slideImage : MachOImage :=
  { MachOImage.blank 0 2 0x200000 with
    segments := [⟨"__DATA", 0x100000000, 0x4000, 0, 0, .rw, .rw, []⟩,
      ⟨"__OBJC", 0x100008000, 0x4000, 0, 0, .rw, .rw, []⟩]
    entry := some (.main 0 0)
    dyldInfo := some ⟨248, 6, 0, 0, 0, 0, 0, 0⟩ }

/-- The pointer that is relocated. -/
def slideLocation : RebaseLocation :=
  ⟨1, 0x100, 1⟩

theorem parse_slideFile : MachOImage.parse slideFile = .ok slideImage := by
  decide +kernel

theorem rebaseLocations_slideFile :
    RebaseLocations .release slideImage slideFile [slideLocation] :=
  ⟨slideFile.drop 248, [], by decide +kernel, by decide +kernel⟩

theorem imageRecords_slideFile : ImageRecords .release slideImage slideFile [] :=
  ⟨[], [], rfl, rfl, rfl⟩

theorem mappedSize_slideFile : ∀ seg ∈ slideImage.segments, seg.name ≠ "__PAGEZERO" →
    mappedSize slideFile seg ≠ 0 := by
  decide

/-- No section of the image holds initialisers. -/
theorem sections_slideImage : ∀ seg ∈ slideImage.segments, seg.sections = [] := by
  decide

theorem relocatable_slideFile : Relocatable .release slideImage slideFile where
  locations locs hlocs loc hloc := by
    obtain rfl := hlocs.unique rebaseLocations_slideFile
    obtain rfl := List.mem_singleton.1 hloc
    intro seg hseg _
    obtain rfl := Option.some.inj hseg
    decide +kernel
  locations_apart locs hlocs := by
    obtain rfl := hlocs.unique rebaseLocations_slideFile
    exact List.pairwise_singleton _ _
  records recs hrecs rec hrec := by
    obtain rfl := hrecs.unique imageRecords_slideFile
    cases hrec
  initialisers seg hseg sect hsect := by
    rw [sections_slideImage seg hseg] at hsect
    cases hsect
  bind_or_apart a b _ hb := by
    obtain ⟨recs, hrecs, rec, hrec, -⟩ := hb
    obtain rfl := hrecs.unique imageRecords_slideFile
    cases hrec
  init_or_apart a slot _ hslot := by
    cases hslot

/-- The process of the file in a layout, if its trampolines are written page by page. -/
def runSlideFile (cfg : LayoutConfig) : Outcome EmuError Panic GuestMemory ProcessImage :=
  (bindImage .release slideImage slideFile cfg >>= fun x =>
    publishPage ⟨.release, .host⟩ cfg x.2 >>= fun stop =>
      finish ⟨.release, .host⟩ slideImage slideFile cfg x.1 x.2 stop) importMemory

theorem build_slideFile {cfg : LayoutConfig} {proc : ProcessImage} {m : GuestMemory}
    (hstride : cfg.trampolineStride = 16) (h : runSlideFile cfg = .ok proc m) :
    buildProcess ⟨.release, .host⟩ slideImage slideFile cfg importMemory = .ok proc m :=
  buildProcess_of_page reachable_importMemory.inv hstride rfl h

set_option maxRecDepth 100000 in
theorem run_slideFile {s : U64} (hs : s = 0 ∨ s = 0x8000) :
    (runSlideFile { importConfig with slide := s }).isOk = true := by
  rcases hs with rfl | rfl <;> decide

/-- At a slide of two pages, the pointer of the file is larger by two pages. -/
theorem slid_of_buildProcess_slideFile :
    Reachable .release importMemory ∧ Relocatable .release slideImage slideFile ∧
      (∀ seg ∈ slideImage.segments, seg.name ≠ "__PAGEZERO" → mappedSize slideFile seg ≠ 0) ∧
      StackFits importConfig ∧
      ∃ proc proc' m m',
        buildProcess ⟨.release, .host⟩ slideImage slideFile { importConfig with slide := 0 }
          importMemory = .ok proc m ∧
        buildProcess ⟨.release, .host⟩ slideImage slideFile { importConfig with slide := 0x8000 }
          importMemory = .ok proc' m' ∧
        Slid .release slideImage slideFile importConfig 0x8000 proc proc' m m' := by
  have hfits : StackFits importConfig := isDefault_importConfig.stackFits (by decide)
  obtain ⟨proc, m, hrun⟩ := Outcome.isOk_iff.1 (run_slideFile (Or.inl rfl))
  obtain ⟨proc', m', hrun'⟩ := Outcome.isOk_iff.1 (run_slideFile (Or.inr rfl))
  have hok := build_slideFile rfl hrun
  have hok' := build_slideFile rfl hrun'
  exact ⟨reachable_importMemory, relocatable_slideFile, mappedSize_slideFile, hfits,
    proc, proc', m, m', hok, hok',
    (slid_of_buildProcess _ _ _ _ _ _ _ _ _ _ reachable_importMemory relocatable_slideFile
      mappedSize_slideFile hfits hok hok').1⟩

/-! ## Arguments that do not fit -/

/-- The default layout, but for a stack of 64 bytes just above the second segment. -/
def tightConfig : LayoutConfig :=
  { importConfig with stackTop := 0x10000c040, stackSize := 0x40, argv0 := "/a" }

set_option maxRecDepth 100000 in
theorem run_tight {s : U64} (hs : s = 0 ∨ s = 0x8000) :
    (runSlideFile { tightConfig with slide := s }).okAnd (fun _ m =>
      decide (m.byteAt (0x10000bff0 + s) = some (if s = 0 then 0x20 else 0))) = true := by
  rcases hs with rfl | rfl <;> decide

/-- The first argument is stored in the second segment, or at a slide of two pages in the first. -/
theorem tight_not_slid :
    Reachable .release importMemory ∧ MachOImage.parse slideFile = .ok slideImage ∧
      Relocatable .release slideImage slideFile ∧
      (∀ seg ∈ slideImage.segments, seg.name ≠ "__PAGEZERO" → mappedSize slideFile seg ≠ 0) ∧
      ∃ proc proc' m m',
        buildProcess ⟨.release, .host⟩ slideImage slideFile { tightConfig with slide := 0 }
          importMemory = .ok proc m ∧
        buildProcess ⟨.release, .host⟩ slideImage slideFile { tightConfig with slide := 0x8000 }
          importMemory = .ok proc' m' ∧
        m.byteAt 0x10000bff0 = some 0x20 ∧ m'.byteAt (0x10000bff0 + 0x8000) = some 0 ∧
        ¬ Slid .release slideImage slideFile tightConfig 0x8000 proc proc' m m' := by
  obtain ⟨proc, m, hrun, hbyte⟩ := Outcome.okAnd_iff.1 (run_tight (Or.inl rfl))
  obtain ⟨proc', m', hrun', hbyte'⟩ := Outcome.okAnd_iff.1 (run_tight (Or.inr rfl))
  have hbyte : m.byteAt 0x10000bff0 = some 0x20 := of_decide_eq_true hbyte
  have hbyte' : m'.byteAt (0x10000bff0 + 0x8000) = some 0 := of_decide_eq_true hbyte'
  refine ⟨reachable_importMemory, parse_slideFile, relocatable_slideFile,
    mappedSize_slideFile, proc, proc', m, m', build_slideFile rfl hrun, build_slideFile rfl hrun', hbyte, hbyte',
    fun h => ?_⟩
  have hin : InImage slideImage slideFile 0x10000bff0 :=
    ⟨⟨"__OBJC", 0x100008000, 0x4000, 0, 0, .rw, .rw, []⟩, by decide, by decide⟩
  have heq := h.byte 0x10000bff0 hin fun a ha hcov => ?_
  · rw [hbyte, hbyte'] at heq
    cases heq
  · obtain ⟨⟨locs, hlocs, loc, hloc, ha⟩, -⟩ := ha
    obtain rfl := hlocs.unique rebaseLocations_slideFile
    obtain rfl := List.mem_singleton.1 hloc
    obtain rfl : (0x100008100 : U64) = a := Option.some.inj ha
    have hfar : ¬(0x10000bff0 - 0x100008100 : U64).toNat < 8 := by decide
    exact hfar hcov

end IosEmu
