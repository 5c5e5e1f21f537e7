import IosEmu.Device
import IosEmu.Segments

/-!
# Loading on device

`Device.load` constructs a process with both copies of its memory. A build on device is a
build of the host whose stages also publish regions (`DeviceStages`) : the page of
trampolines when it is filled, every segment when it gets its protection, and the stack when
the arguments are on it. When the protections are restored, the pages of the segments and of
the trampolines hold what the buffers do, and what is written after that goes to the stack.
-/

open SysLib

namespace IosEmu

open GuestMemory Process

/-! ## Layouts -/

namespace GuestMemory

variable {p : Profile} {m m' : GuestMemory}

/-- A new region is one more shape. -/
theorem layout_of_map {base size : U64} {prot : Protection} {kind : RegionKind} {name : String}
    (h : map p base size prot kind name m = .ok () m') :
    m'.flat.layout = Function.update m.flat.layout base
      (some ⟨base, (pageRound (max size 1)).toNat, prot, kind, name⟩) := by
  obtain ⟨s, hs, -, hcap, rfl⟩ := map_eq_ok.1 h
  obtain rfl := alignUp_eq_ok hs
  funext k
  rw [Function.update_apply]
  dsimp only [flat]
  rw [SortedMap.get?_insert]
  split_ifs
  · rfl
  · rfl

/-- The protection of a region is a part of its shape. -/
theorem layout_setProt (m : GuestMemory) (k : U64) (r : Region) (prot : Protection) :
    (flat { m with regions := m.regions.insert k { r with prot } }).layout =
      Function.update m.flat.layout k (some { r.shape with prot }) := by
  funext k'
  rw [Function.update_apply]
  dsimp only [flat]
  rw [SortedMap.get?_insert]
  split_ifs
  · rfl
  · rfl

theorem patches_write (a : U64) (d : List U8) : (write a d).Steps (Patches Set.univ) := by
  refine (write_failsClean _ _).steps (refl_of (Patches _)) fun m u m' hw hinv => ?_
  refine ⟨hinv.of_write hw, ?_, fun x hx => absurd (Set.mem_univ x) hx⟩
  rw [(hinv.flat_of_write hw).1]
  rfl

end GuestMemory

namespace Device

variable {p : Profile} {nativeProtect : NativeProtect} {d d' : DeviceMemory}

/-! ## Stages -/

theorem onHost_eq_ok {α : Type} {x : MemM α} {a : α} :
    onHost x d = .ok a d' ↔ x d.mem = .ok a d'.mem ∧ d'.pages = d.pages := by
  rcases d' with ⟨m', pages'⟩
  unfold onHost Prog.zoom
  rcases x d.mem with ⟨a', m₁⟩ | ⟨e, m₁⟩ | e
  · simp only [Outcome.ok.injEq, DeviceMemory.mk.injEq]
    exact ⟨fun ⟨ha, hm, hp⟩ => ⟨⟨ha, hm⟩, hp.symm⟩, fun ⟨⟨ha, hm⟩, hp⟩ => ⟨ha, hm, hp.symm⟩⟩
  · simp
  · simp

theorem protect_eq_ok {a : U64} {prot : Protection}
    (h : protect nativeProtect a prot d = .ok () d') :
    ∃ k r, d.mem.regionBase a = .ok k ∧ d.mem.regions.get? k = some r ∧
      d' = ⟨{ d.mem with regions := d.mem.regions.insert k { r with prot } },
        (copied d.pages k r.data).protect k r.data.size prot⟩ := by
  obtain ⟨k, hk, h⟩ := Prog.ofResult_bind_eq_ok.1 h
  obtain ⟨r, hr, h⟩ := Prog.ofChecked_bind_eq_ok.1 h
  refine ⟨k, r, hk, unwrapRegion_eq_ok.1 hr, ?_⟩
  obtain ⟨⟨⟩, d₁, hhost, h⟩ := Prog.bind_eq_ok.1 h
  obtain ⟨hmem, -⟩ := onHost_eq_ok.1 hhost
  obtain ⟨pages, hcopy, h⟩ := Prog.ofChecked_bind_eq_ok.1 h
  obtain ⟨-, rfl⟩ := copyIn_eq_ok.1 hcopy
  split_ifs at h
  · cases h
  · obtain rfl := (Outcome.ok.inj h).2
    dsimp only
    rw [← (Outcome.ok.inj hmem).2]

theorem commitToNative_eq_ok {a : U64} (h : commitToNative a d = .ok () d') :
    ∃ k r, d.mem.regionBase a = .ok k ∧ d.mem.regions.get? k = some r ∧
      d' = { d with pages := copied d.pages k r.data } := by
  obtain ⟨k, hk, h⟩ := Prog.ofResult_bind_eq_ok.1 h
  obtain ⟨r, hr, h⟩ := Prog.ofChecked_bind_eq_ok.1 h
  obtain ⟨pages, hcopy, h⟩ := Prog.ofChecked_bind_eq_ok.1 h
  obtain ⟨-, rfl⟩ := copyIn_eq_ok.1 hcopy
  exact ⟨k, r, hk, unwrapRegion_eq_ok.1 hr, (Outcome.ok.inj h).2.symm⟩

/-- A build on device that succeeded, with both copies after the stages that publish. -/
structure DeviceStages (p : Profile) (nativeProtect : NativeProtect) (image : MachOImage)
    (bytes : List U8) (cfg : LayoutConfig) (d : DeviceMemory) (proc : ProcessImage)
    (d' : DeviceMemory) extends
    Stages ⟨p, .android nativeProtect⟩ image bytes cfg d.mem proc d'.mem where
  stubbedPages : Pages
  guardedPages : Pages
  devPublish_eq : publishStubs p nativeProtect cfg resolver ⟨bound, d.pages⟩ =
    .ok proc.trampolineEnd ⟨stubbed, stubbedPages⟩
  devRestore_eq : restoreProtections nativeProtect image segRuntime ⟨stubbed, stubbedPages⟩ =
    .ok () ⟨guarded, guardedPages⟩
  devStack_eq : initStack p cfg ⟨guarded, guardedPages⟩ = .ok (proc.sp, proc.argRegs) d'

theorem stages_of_buildProcess {image : MachOImage} {bytes : List U8} {cfg : LayoutConfig}
    {proc : ProcessImage} (h : buildProcess p nativeProtect image bytes cfg d = .ok proc d') :
    Nonempty (DeviceStages p nativeProtect image bytes cfg d proc d') := by
  unfold buildProcess at h
  split_ifs at h with henc
  · cases h
  obtain ⟨⟨bases, r⟩, ⟨m₁, pages₁⟩, hbind, h⟩ := Prog.bind_eq_ok.1 h
  obtain ⟨stop, ⟨m₂, pages₂⟩, hpub, h⟩ := Prog.bind_eq_ok.1 h
  obtain ⟨⟨⟩, ⟨m₃, pages₃⟩, hrestore, h⟩ := Prog.bind_eq_ok.1 h
  obtain ⟨initFuncs, ⟨m₄, pages₄⟩, hinit, h⟩ := Prog.bind_eq_ok.1 h
  obtain ⟨⟨sp, argRegs⟩, ⟨m₅, pages₅⟩, hstack, h⟩ := Prog.bind_eq_ok.1 h
  obtain ⟨entry, hentry, h⟩ := Prog.ofResult_bind_eq_ok.1 h
  obtain ⟨lazyBinds, ⟨m₆, pages₆⟩, hlazy, h⟩ := Prog.bind_eq_ok.1 h
  obtain ⟨rfl, rfl⟩ := Outcome.ok.inj h
  obtain ⟨hhost, hpages₁⟩ := onHost_eq_ok.1 hbind
  obtain ⟨hfuncs, hpages₄⟩ := onHost_eq_ok.1 hinit
  obtain ⟨htable, hpages₆⟩ := onHost_eq_ok.1 hlazy
  dsimp only at hhost hfuncs htable hpages₁ hpages₄ hpages₆
  obtain rfl := (collectInitFuncs_const _ _ _).ok hfuncs
  obtain ⟨rfl, -⟩ := lazyTable_eq_ok.1 htable
  subst hpages₁ hpages₄ hpages₆
  obtain ⟨bases', n₁, hmap, hhost⟩ := Prog.bind_eq_ok.1 hhost
  obtain ⟨⟨⟩, n₂, hrebase, hhost⟩ := Prog.bind_eq_ok.1 hhost
  obtain ⟨r', n₃, himports, hhost⟩ := Prog.bind_eq_ok.1 hhost
  obtain ⟨⟨rfl, rfl⟩, rfl⟩ : (bases' = bases ∧ r' = r) ∧ n₃ = m₁ := by simpa using hhost
  exact ⟨{
    segRuntime := bases', resolver := r', mapped := n₁, rebased := n₂, bound := n₃
    stubbed := m₂, guarded := m₃, encrypted_eq := by simpa using henc
    map_eq := hmap, rebase_eq := hrebase, bind_eq := himports
    publish_eq := (refines_publishStubs p nativeProtect _ _).eq_ok hpub
    restore_eq := (refines_restoreProtections nativeProtect _ _).eq_ok hrestore
    init_eq := hfuncs, stack_eq := (refines_initStack p nativeProtect _).eq_ok hstack
    entry_eq := hentry, lazy_eq := htable, trampolines_eq := rfl, base_eq := rfl, stubs_eq := rfl
    stubbedPages := pages₂, guardedPages := _, devPublish_eq := hpub
    devRestore_eq := hrestore, devStack_eq := hstack }⟩

/-! ## What is published -/

/-- In the flat memory, the pages of a region hold its bytes. -/
theorem Published.byte_eq (hinv : d.mem.Inv) {k : U64} (h : Published d k) {s : Shape}
    (hs : d.mem.flat.layout k = some s) {x : ℕ} (hle : k.toNat ≤ x) (hlt : x < k.toNat + s.size) :
    d.mem.flat.byte x = some (d.pages x) := by
  obtain ⟨r, hr, rfl⟩ := layout_flat_eq_some.1 hs
  have hlt' : x < k.toNat + r.data.size := hlt
  rw [hinv.byte_flat hr hle hlt', h r hr _ (by omega), Nat.add_sub_cancel' hle]

/-- Protecting the base of a region gives it the protection and publishes it. -/
theorem protect_shape {a : U64} {prot : Protection} {s : Shape} (hinv : d.mem.Inv)
    (hs : d.mem.flat.layout a = some s) (h : protect nativeProtect a prot d = .ok () d') :
    d'.mem.Inv ∧
      d'.mem.flat.layout = Function.update d.mem.flat.layout a (some { s with prot }) ∧
      Published d' a ∧ ∀ k, Published d k → Published d' k := by
  obtain ⟨r, hr, rfl⟩ := layout_flat_eq_some.1 hs
  obtain ⟨k, r', hk, hr', rfl⟩ := protect_eq_ok h
  obtain rfl := hinv.eq_of_regionBase hr hk
  obtain rfl : r' = r := Option.some.inj (hr'.symm.trans hr)
  obtain ⟨hself, hkeep⟩ : Published ⟨d.mem, copied d.pages k r'.data⟩ k ∧
      ∀ k', Published d k' → Published ⟨d.mem, copied d.pages k r'.data⟩ k' :=
    published_copied hinv hr'
  have hprot : ∀ k', Published ⟨{ d.mem with
      regions := d.mem.regions.insert k { r' with prot } },
      (copied d.pages k r'.data).protect k r'.data.size prot⟩ k' ↔
        Published ⟨d.mem, copied d.pages k r'.data⟩ k' := by
    intro k'
    have hset := @published_setProt prot d.mem (copied d.pages k r'.data) _ k' _ hr'
    exact (published_congr rfl rfl k').trans hset
  exact ⟨hinv.change (.setProt k r' prot hr'), layout_setProt d.mem k r' prot, (hprot k).2 hself,
    fun k' hk' => (hprot k').2 (hkeep k' hk')⟩

/-- The page of trampolines is published, and the other regions stay as they are. -/
theorem publishStubs_shape {cfg : LayoutConfig} {r : StubResolver} {stop : U64}
    (hinv : d.mem.Inv) (hused : (r.next - r.base).toNat ≤ 2 ^ 62)
    (h : publishStubs p nativeProtect cfg r d = .ok stop d') :
    d'.mem.Inv ∧ Published d' cfg.trampolineBase ∧
      ∃ size : U64, stop = cfg.trampolineBase + size ∧
        (∀ v, d.mem.flat.byte cfg.trampolineBase.toNat ≠ some v) ∧
        d'.mem.flat.layout = Function.update d.mem.flat.layout cfg.trampolineBase
          (some ⟨cfg.trampolineBase, size.toNat, .rx, .segment, "__stubs"⟩) := by
  obtain ⟨used, hu, h⟩ := Prog.ofChecked_bind_eq_ok.1 h
  obtain ⟨size, hs, h⟩ := Prog.ofChecked_bind_eq_ok.1 h
  obtain ⟨⟨⟩, d₁, hmap, h⟩ := Prog.bind_eq_ok.1 h
  obtain ⟨⟨⟩, d₂, hfill, h⟩ := Prog.bind_eq_ok.1 h
  obtain ⟨⟨⟩, d₃, hprot, h⟩ := Prog.bind_eq_ok.1 h
  obtain ⟨rfl, rfl⟩ := Outcome.ok.inj h
  obtain ⟨hmap, -⟩ := onHost_eq_ok.1 hmap
  obtain ⟨hfill, -⟩ := onHost_eq_ok.1 hfill
  obtain rfl := Profile.sub_eq_ok hu
  obtain rfl := alignUp_eq_ok hs
  obtain ⟨-, hpos, -, hround⟩ := stubSize hused
  obtain ⟨hinv₁, -, -, hfree⟩ := hinv.keepsBytes_map (by rwa [hround]) hmap
  have hlay₁ := layout_of_map hmap
  rw [hround] at hlay₁ hfree
  obtain ⟨hinv₂, hlay₂, -⟩ :=
    (Prog.Steps.forEach fun i _ => patches_write _ _).ok hfill hinv₁
  rw [hlay₁] at hlay₂
  have hself := (congrFun hlay₂ cfg.trampolineBase).trans (Function.update_self _ _ _)
  obtain ⟨hinv₃, hlay₃, hpub, -⟩ := protect_shape hinv₂ hself hprot
  refine ⟨hinv₃, hpub, _, rfl, fun v hv => ?_, ?_⟩
  · have := hfree _ v hv
    omega
  rw [hlay₃, hlay₂, Function.update_idem]

/-- When the protections are restored, the last segment at an address has its own protection
and is published. -/
theorem restoreProtections_shape {slide : U64} :
    ∀ {segs : List Segment} {d d' : DeviceMemory}, d.mem.Inv →
      (∀ seg ∈ segs, seg.name ≠ "__PAGEZERO" →
        ∃ s, d.mem.flat.layout (seg.vmaddr + slide) = some s) →
      Prog.forEach (segs.zip (runtimeBases slide segs)) (fun (seg, base?) =>
        match base? with
        | some base => protect nativeProtect base (runProt seg)
        | none => pure ()) d = .ok () d' →
      d'.mem.Inv ∧ (∀ k, Published d k → Published d' k) ∧
        ∀ a, (∀ seg, lastAt a segs = some seg → Published d' (a + slide) ∧
            ∃ s, d.mem.flat.layout (a + slide) = some s ∧
              d'.mem.flat.layout (a + slide) = some { s with prot := runProt seg }) ∧
          (lastAt a segs = none →
            d'.mem.flat.layout (a + slide) = d.mem.flat.layout (a + slide))
  | [], d, d', hinv, _, h => by
    obtain ⟨-, rfl⟩ := Outcome.ok.inj h
    exact ⟨hinv, fun _ hk => hk, fun a => ⟨fun _ hseg => (by cases hseg), fun _ => rfl⟩⟩
  | seg :: segs, d, d', hinv, hmapped, h => by
    rw [runtimeBases, List.map_cons, List.zip_cons_cons, Prog.forEach_cons] at h
    obtain ⟨⟨⟩, d₁, hseg, h⟩ := Prog.bind_eq_ok.1 h
    have htail := fun s hs => hmapped s (List.mem_cons_of_mem _ hs)
    by_cases hname : seg.name = "__PAGEZERO"
    · rw [if_pos hname] at hseg
      obtain ⟨-, rfl⟩ := Outcome.ok.inj hseg
      obtain ⟨hinv', hkeep, hlast⟩ := restoreProtections_shape hinv htail h
      refine ⟨hinv', hkeep, fun a => ?_⟩
      rw [lastAt, if_neg fun h => h.1 hname, Option.or_none]
      exact hlast a
    · rw [if_neg hname] at hseg
      obtain ⟨s, hs⟩ := hmapped seg List.mem_cons_self hname
      obtain ⟨hinv₁, hlay₁, hpub₁, hkeep₁⟩ := protect_shape hinv hs hseg
      have hsome : ∀ k s', d.mem.flat.layout k = some s' →
          ∃ s'', d₁.mem.flat.layout k = some s'' := by
        intro k s' hk
        rw [hlay₁, Function.update_apply]
        split_ifs
        · exact ⟨_, rfl⟩
        · exact ⟨s', hk⟩
      obtain ⟨hinv', hkeep, hlast⟩ := restoreProtections_shape hinv₁
        (fun s' hs' hname' => (htail s' hs' hname').elim fun _ hl => hsome _ _ hl) h
      refine ⟨hinv', fun k hk => hkeep k (hkeep₁ k hk), fun a => ?_⟩
      obtain ⟨hsome', hnone'⟩ := hlast a
      rw [lastAt]
      rcases hl : lastAt a segs with _ | seg'
      · rw [hnone' hl, Option.none_or, hlay₁, Function.update_apply]
        by_cases ha : seg.vmaddr = a
        · subst ha
          rw [if_pos ⟨hname, rfl⟩, if_pos rfl]
          refine ⟨fun seg' hseg' => ?_, fun hno => by cases hno⟩
          obtain rfl := Option.some.inj hseg'
          exact ⟨hkeep _ hpub₁, s, hs, rfl⟩
        · rw [if_neg fun h => ha h.2, if_neg fun hk => ha ((BitVec.add_left_inj slide).1 hk).symm]
          exact ⟨fun seg' hseg' => (by cases hseg'), fun _ => rfl⟩
      · rw [Option.some_or]
        refine ⟨fun seg'' hseg'' => ?_, fun hno => by cases hno⟩
        obtain ⟨hpub, s', hs', hlay⟩ := hsome' seg'' (hl.trans hseg'')
        refine ⟨hpub, ?_⟩
        -- The region may have been given another protection by an earlier segment.
        rw [hlay₁, Function.update_apply] at hs'
        split_ifs at hs' with hk
        · obtain rfl := Option.some.inj hs'
          exact ⟨s, hk ▸ hs, hlay⟩
        · exact ⟨s', hs', hlay⟩

/-- The stack is new and published, and no other page is written. -/
theorem initStack_shape {cfg : LayoutConfig} {frame : U64 × (Fin 4 → U64)} (hinv : d.mem.Inv)
    (h : initStack p cfg d = .ok frame d') :
    d'.mem.Inv ∧ Published d' (cfg.stackTop - cfg.stackSize) ∧
      (∀ v, d.mem.flat.byte (cfg.stackTop - cfg.stackSize).toNat ≠ some v) ∧
      d'.mem.flat.layout = Function.update d.mem.flat.layout (cfg.stackTop - cfg.stackSize)
        (some ⟨cfg.stackTop - cfg.stackSize, (pageRound (max cfg.stackSize 1)).toNat, .rw, .stack,
          "stack"⟩) ∧
      ∀ k s, k ≠ cfg.stackTop - cfg.stackSize → d'.mem.flat.layout k = some s →
        ∀ x, k.toNat ≤ x → x < k.toNat + s.size → d'.pages x = d.pages x := by
  obtain ⟨base, hbase, h⟩ := Prog.ofChecked_bind_eq_ok.1 h
  obtain ⟨⟨⟩, d₁, hmap, h⟩ := Prog.bind_eq_ok.1 h
  obtain ⟨frame', d₂, hstack, h⟩ := Prog.bind_eq_ok.1 h
  obtain ⟨⟨⟩, d₃, hcommit, h⟩ := Prog.bind_eq_ok.1 h
  obtain ⟨rfl, rfl⟩ := Outcome.ok.inj h
  obtain rfl := Profile.sub_eq_ok hbase
  obtain ⟨hmap, hpages₁⟩ := onHost_eq_ok.1 hmap
  obtain ⟨hstack, hpages₂⟩ := onHost_eq_ok.1 hstack
  generalize cfg.stackTop - cfg.stackSize = base at hmap hcommit ⊢
  have hinv₁ := hinv.change ((change_map _ _ _ _ _ _).ok hmap)
  have hlay₁ := layout_of_map hmap
  obtain ⟨hinv₂, hlay₂, -⟩ := (steps_buildStack patches_write).ok hstack hinv₁
  rw [hlay₁] at hlay₂
  obtain ⟨r, hr, hshape⟩ := layout_flat_eq_some.1
    ((congrFun hlay₂ base).trans (Function.update_self _ _ _))
  obtain ⟨k, r', hk, hr', rfl⟩ := commitToNative_eq_ok hcommit
  obtain rfl := hinv₂.eq_of_regionBase hr hk
  obtain rfl : r' = r := Option.some.inj (hr'.symm.trans hr)
  -- The commit found the stack, so it is not empty.
  have hpos : 0 < (pageRound (max cfg.stackSize 1)).toNat := by
    obtain ⟨r'', hr'', -, hlt⟩ := (regionBase_eq_ok _ hinv₂ _ _).1 hk
    obtain rfl : r'' = r' := Option.some.inj (hr''.symm.trans hr)
    have hsize : r''.data.size = (pageRound (max cfg.stackSize 1)).toNat :=
      congrArg Shape.size hshape
    rw [hinv₂.base_eq k r'' hr, hsize] at hlt
    omega
  refine ⟨hinv₂, (published_copied hinv₂ hr).1, fun v hv => ?_, hlay₂,
    fun k' s hne hs x hle hlt => ?_⟩
  · obtain ⟨-, -, -, hfree⟩ := hinv.keepsBytes_map hpos hmap
    have := hfree _ v hv
    omega
  · obtain ⟨r'', hr'', rfl⟩ := layout_flat_eq_some.1 hs
    rw [← hpages₁, ← hpages₂]
    have hlt' : x < k'.toNat + r''.data.size := hlt
    refine copied_of_notMem ?_
    rcases lt_or_gt_of_ne hne with hlt | hlt
    · have := hinv₂.end_le hr'' hr hlt
      omega
    · have := hinv₂.end_le hr hr'' hlt
      omega

/-! ## The regions of a build -/

section DeviceStages

variable {image : MachOImage} {bytes : List U8} {cfg : LayoutConfig} {proc : ProcessImage}

theorem DeviceStages.inv_bound (s : DeviceStages p nativeProtect image bytes cfg d proc d')
    (hinv : d.mem.Inv) : s.bound.Inv :=
  (s.patches (s.inv_mapped hinv)).1

theorem DeviceStages.layout_bound (s : DeviceStages p nativeProtect image bytes cfg d proc d')
    (hinv : d.mem.Inv) : s.bound.flat.layout = s.mapped.flat.layout :=
  (s.patches (s.inv_mapped hinv)).2.1

/-- The page of trampolines and the last segment at an address, when the protections are
restored. -/
theorem DeviceStages.guarded_shape (s : DeviceStages p nativeProtect image bytes cfg d proc d')
    (hinv : d.mem.Inv) (hused : (s.resolver.next - s.resolver.base).toNat ≤ 2 ^ 62) :
    s.guarded.Inv ∧ Published ⟨s.guarded, s.guardedPages⟩ cfg.trampolineBase ∧
      ∀ a, (∀ seg, lastAt a image.segments = some seg →
          Published ⟨s.guarded, s.guardedPages⟩ (a + cfg.slide) ∧
          ∃ sh, s.stubbed.flat.layout (a + cfg.slide) = some sh ∧
            s.guarded.flat.layout (a + cfg.slide) = some { sh with prot := runProt seg }) ∧
        (lastAt a image.segments = none →
          s.guarded.flat.layout (a + cfg.slide) = s.stubbed.flat.layout (a + cfg.slide)) := by
  obtain ⟨hinv₂, hpub₂, size, -, -, hlay₂⟩ :=
    publishStubs_shape (s.inv_bound hinv) hused s.devPublish_eq
  have hrestore := s.devRestore_eq
  rw [s.segRuntime_eq] at hrestore
  have hmapped : ∀ seg ∈ image.segments, seg.name ≠ "__PAGEZERO" →
      ∃ sh, s.stubbed.flat.layout (seg.vmaddr + cfg.slide) = some sh := by
    intro seg hseg hname
    dsimp only at hlay₂
    rw [hlay₂, Function.update_apply]
    split_ifs
    · exact ⟨_, rfl⟩
    · rcases hlast : lastAt seg.vmaddr image.segments with _ | seg'
      · exact absurd rfl (lastAt_eq_none_iff.1 hlast seg hseg hname)
      · obtain ⟨r, hr, -⟩ := (get?_mapSegments s.map_eq seg.vmaddr).1 seg' hlast
        rw [s.layout_bound hinv]
        exact ⟨_, layout_flat_eq_some.2 ⟨r, hr, rfl⟩⟩
  obtain ⟨hinv₃, hkeep, hlast⟩ := restoreProtections_shape hinv₂ hmapped hrestore
  exact ⟨hinv₃, hkeep _ hpub₂, hlast⟩

/-- A region that ends up executable is published, and is the page of trampolines or an
executable segment, if no region was executable before. -/
theorem DeviceStages.exec_shape (s : DeviceStages p nativeProtect image bytes cfg d proc d')
    (hinv : d.mem.Inv) (hused : (s.resolver.next - s.resolver.base).toNat ≤ 2 ^ 62)
    (hnone : ∀ k sh, d.mem.flat.layout k = some sh → sh.prot.contains .exec = false)
    {k : U64} {sh : Shape} (hk : d'.mem.flat.layout k = some sh)
    (hexec : sh.prot.contains .exec = true) :
    (∀ x, k.toNat ≤ x → x < k.toNat + sh.size → s.guarded.flat.byte x = some (d'.pages x)) ∧
      ∃ sh', s.stubbed.flat.layout k = some sh' ∧ sh'.size = sh.size ∧
        (k = cfg.trampolineBase ∨ ∃ seg, lastAt (k - cfg.slide) image.segments = some seg ∧
          (runProt seg).contains .exec = true) := by
  obtain ⟨hinv₃, hstubs, hlast⟩ := s.guarded_shape hinv hused
  obtain ⟨-, -, -, hlay, hpages⟩ := initStack_shape hinv₃ s.devStack_eq
  have hne : k ≠ cfg.stackTop - cfg.stackSize := by
    intro hkb
    rw [hlay, hkb, Function.update_self] at hk
    obtain rfl := Option.some.inj hk
    exact absurd (show Protection.rw.contains .exec = true from hexec) (by decide)
  have hguard : s.guarded.flat.layout k = some sh := by
    rw [← hk, hlay, Function.update_of_ne hne]
  have hbyte : Published ⟨s.guarded, s.guardedPages⟩ k →
      ∀ x, k.toNat ≤ x → x < k.toNat + sh.size → s.guarded.flat.byte x = some (d'.pages x) := by
    intro hpub x hle hlt
    rw [hpages k sh hne hk x hle hlt]
    exact hpub.byte_eq hinv₃ hguard hle hlt
  obtain ⟨hsome, hnone'⟩ := hlast (k - cfg.slide)
  rw [BitVec.sub_add_cancel] at hsome hnone'
  rcases hl : lastAt (k - cfg.slide) image.segments with _ | seg
  · have hstub : k = cfg.trampolineBase := by
      by_contra hkt
      obtain ⟨-, -, size, -, -, hlay₂⟩ :=
        publishStubs_shape (s.inv_bound hinv) hused s.devPublish_eq
      dsimp only at hlay₂
      rw [hnone' hl, hlay₂, Function.update_of_ne hkt, s.layout_bound hinv] at hguard
      obtain ⟨r, hr, rfl⟩ := layout_flat_eq_some.1 hguard
      have hold := (get?_mapSegments s.map_eq (k - cfg.slide)).2 hl
      rw [BitVec.sub_add_cancel, hr] at hold
      rw [hnone k r.shape (layout_flat_eq_some.2 ⟨r, hold.symm, rfl⟩)] at hexec
      cases hexec
    refine ⟨hbyte (hstub ▸ hstubs), sh, ?_, rfl, Or.inl hstub⟩
    rw [← hnone' hl, hguard]
  · obtain ⟨hpub, sh', hsh', hlay'⟩ := hsome seg hl
    rw [hguard] at hlay'
    obtain rfl := Option.some.inj hlay'
    exact ⟨hbyte hpub, sh', hsh', rfl, Or.inr ⟨seg, rfl, hexec⟩⟩

end DeviceStages

/-! ## The whole load -/

section Load

variable {W : Type}

/-- Construct a process from the bytes of an executable, with the pages that are reserved. -/
def load (p : Profile) (nativeProtect : NativeProtect) (os : Reservations) (cfg : MachineConfig)
    (bytes : List U8) (vfs : Sandbox) (fs : HostFs) (world : W) (pages : Pages) :
    Outcome EmuError Panic Unit (Machine W × Pages) :=
  match MachOImage.parse bytes with
  | .error e => .err e ()
  | .ok image =>
    match GuestMemory.new p cfg.heapBase cfg.heapSize with
    | .err e _ => .err e ()
    | .panic e => .panic e
    | .ok _ mem =>
      let build : DevM ProcessImage := do
        let layout ← onHost (layoutOf ⟨p, .android nativeProtect⟩ os cfg image (executablePath vfs))
        buildProcess p nativeProtect image bytes layout
      match build ⟨mem, pages⟩ with
      | .err e _ => .err e ()
      | .panic e => .panic e
      | .ok proc d => .ok (Machine.ofProcess d.mem vfs fs world proc, d.pages) ()

variable {os : Reservations} {cfg : MachineConfig} {bytes : List U8} {vfs : Sandbox} {fs : HostFs}
  {world : W} {pages pages' : Pages} {mach : Machine W}

/-- A process is loaded on device exactly if the file is parsed, the heap mapped, the layout
chosen and the process built. -/
theorem load_eq_ok :
    load p nativeProtect os cfg bytes vfs fs world pages = .ok (mach, pages') () ↔
      ∃ image m₀, MachOImage.parse bytes = .ok image ∧
        GuestMemory.new p cfg.heapBase cfg.heapSize = .ok () m₀ ∧
        ∃ layout m₁ proc mem,
          layoutOf ⟨p, .android nativeProtect⟩ os cfg image (executablePath vfs) m₀ =
            .ok layout m₁ ∧
          buildProcess p nativeProtect image bytes layout ⟨m₁, pages⟩ = .ok proc ⟨mem, pages'⟩ ∧
          mach = Machine.ofProcess mem vfs fs world proc := by
  constructor
  · intro h
    unfold load at h
    rcases hparse : MachOImage.parse bytes with e | image <;> simp only [hparse] at h
    · cases h
    rcases hnew : GuestMemory.new p cfg.heapBase cfg.heapSize with
      ⟨_, m₀⟩ | ⟨e, m₀⟩ | e <;> simp only [hnew] at h
    · rcases hbuild : (onHost (layoutOf ⟨p, .android nativeProtect⟩ os cfg image
          (executablePath vfs)) >>= fun layout => buildProcess p nativeProtect image bytes layout)
          ⟨m₀, pages⟩ with ⟨proc, d⟩ | ⟨e, d⟩ | e <;> simp only [hbuild] at h
      · obtain ⟨layout, ⟨m₁, pages₁⟩, hlayout, hproc⟩ := Prog.bind_eq_ok.1 hbuild
        obtain ⟨hlayout, hpages⟩ := onHost_eq_ok.1 hlayout
        dsimp only at hpages
        subst hpages
        obtain ⟨hpair, -⟩ := Outcome.ok.inj h
        obtain ⟨rfl, rfl⟩ := Prod.mk.inj hpair
        exact ⟨image, m₀, rfl, rfl, layout, m₁, proc, d.mem, hlayout, hproc, rfl⟩
      · cases h
      · cases h
    · cases h
    · cases h
  · rintro ⟨image, m₀, hparse, hnew, layout, m₁, proc, mem, hlayout, hproc, rfl⟩
    have hbuild : (onHost (layoutOf ⟨p, .android nativeProtect⟩ os cfg image
        (executablePath vfs)) >>= fun layout => buildProcess p nativeProtect image bytes layout)
        ⟨m₀, pages⟩ = .ok proc ⟨mem, pages'⟩ :=
      Prog.bind_eq_ok.2 ⟨layout, ⟨m₁, pages⟩, onHost_eq_ok.2 ⟨hlayout, rfl⟩, hproc⟩
    unfold load
    simp only [hparse, hnew, hbuild]

/-- Seen through the buffers, a process that is loaded on device is loaded. -/
theorem load_refines
    (h : load p nativeProtect os cfg bytes vfs fs world pages = .ok (mach, pages') ()) :
    Machine.load ⟨p, .android nativeProtect⟩ os cfg bytes vfs fs world = .ok mach () := by
  obtain ⟨image, m₀, hparse, hnew, layout, m₁, proc, mem, hlayout, hproc, rfl⟩ := load_eq_ok.1 h
  exact Machine.load_eq_ok.2 ⟨image, m₀, hparse, hnew, layout, m₁, proc, mem, hlayout,
    (refines_buildProcess p nativeProtect _ _ _).eq_ok hproc, rfl⟩

end Load

end Device

end IosEmu
