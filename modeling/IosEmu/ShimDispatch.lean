import IosEmu.Frameworks
import IosEmu.ImportBinding

/-!
# Imports and their shims

An image imports a C function under its Mach-O spelling, with an underscore before its name.
The registry has the names without it, and no layer takes the underscore away. A call of the
trampoline of such an import is therefore never answered by the shim of the function, whatever
the image, the layout and the state of the machine (`import_unhandled`).
-/

open SysLib

namespace IosEmu

open Process Frameworks ShimM

variable {p : Profile} {f : String} {shim : ShimM Dispatch}

/-! ## The registry -/

/-- A shim that returns says that it has serviced the call. -/
def Handles (shim : ShimM Dispatch) : Prop :=
  ∀ s d s', shim s = .ok d s' → d = .handled

theorem handles_bind_handled {α : Type} (x : ShimM α) :
    Handles (x >>= fun _ => return .handled) := by
  intro s d s' h
  obtain ⟨_, s₁, -, h⟩ := Prog.bind_eq_ok.1 h
  exact (Outcome.ok.inj h).1.symm

theorem handles_answer (x : ShimM U64) : Handles (answer x) := by
  intro s d s' h
  obtain ⟨v, s₁, -, h⟩ := Prog.bind_eq_ok.1 h
  exact handles_bind_handled (ret v) s₁ d s' h

theorem handles_objcAlloc (p : Profile) : Handles (ObjcRt.objcAlloc p) := by
  intro s d s' h
  obtain ⟨cls, s₁, -, h⟩ := Prog.bind_eq_ok.1 h
  exact handles_bind_handled (ObjcRuntime.allocVia p cls) s₁ d s' h

theorem handles_stubs {names : List String} : ∀ e ∈ stubs names, Handles e.2 := by
  intro e he
  obtain ⟨name, -, rfl⟩ := List.mem_map.1 he
  exact handles_answer _

/-- Every bundled shim services its calls. -/
theorem handles_bundled (p : Profile) : ∀ e ∈ bundled p, Handles e.2 := by
  simp only [bundled, ObjcRt.shims, Libsystem.shims, foundation, uikit, coregraphics, gles,
    List.forall_mem_append, List.forall_mem_cons, List.not_mem_nil, false_imp_iff,
    implies_true, and_true]
  and_intros
  all_goals first
    | exact handles_stubs
    | exact handles_objcAlloc p
    | exact handles_answer _

theorem names_bundled (p : Profile) :
    (bundled p).map Prod.fst = (bundled .release).map Prod.fst := by
  simp only [bundled, ObjcRt.shims, Libsystem.shims, List.map_append, List.map_cons]

/-- No name is another one with an underscore before it. -/
theorem underscore_ne (p : Profile) :
    ∀ f ∈ (bundled p).map Prod.fst, ∀ g ∈ (bundled p).map Prod.fst, "_" ++ f ≠ g := by
  rw [names_bundled]
  decide +kernel

theorem nodup_bundled (p : Profile) : ((bundled p).map Prod.fst).Nodup := by
  rw [names_bundled]
  decide

/-- No name is bundled twice, so the registry is the table of the bundled shims. -/
theorem get?_installAll : (installAll p).get? f = some shim ↔ (f, shim) ∈ bundled p := by
  refine ⟨fun h => ?_, SortedMap.get?_foldl_insert_of_mem _ (nodup_bundled p)⟩
  rcases SortedMap.mem_of_get?_foldl_insert h with h | h
  · exact h
  · rw [SortedMap.get?_empty] at h
    cases h

/-- The Mach-O spelling of a registered name is not registered. -/
theorem get?_underscore (h : (installAll p).get? f = some shim) :
    (installAll p).get? ("_" ++ f) = none := by
  rcases hget : (installAll p).get? ("_" ++ f) with _ | shim'
  · rfl
  · have hf := List.mem_map_of_mem (f := Prod.fst) (get?_installAll.1 h)
    have hg := List.mem_map_of_mem (f := Prod.fst) (get?_installAll.1 hget)
    exact absurd rfl (underscore_ne p f hf _ hg)

/-! ## The call -/

theorem callShim_of_none {shims : SortedMap String (ShimM Dispatch)} {symbol : String}
    (h : shims.get? symbol = none) : callShim shims symbol = return .unhandled := by
  unfold callShim
  rw [h]

/-- The environment leaves the Mach-O spelling of a registered name to the machine. -/
theorem call_underscore (h : (installAll p).get? f = some shim) (vfs : Sandbox) :
    (hleEnvironment p).call vfs ("_" ++ f) = return .unhandled := by
  simp only [hleEnvironment]
  rw [callShim_of_none (get?_underscore h)]

/-- A call of the trampoline at `addr` makes the environment run `shim`. -/
def RunsShim (env : HostEnvironment ObjcRuntime) (mach : Machine ObjcRuntime) (addr : U64)
    (shim : ShimM Dispatch) : Prop :=
  ∃ symbol, mach.trampolines.get? addr = some symbol ∧ symbol ≠ "dyld_stub_binder" ∧
    env.call mach.vfs symbol (mach.world, ⟨mach.cpu, mach.mem⟩) =
      shim (mach.world, ⟨mach.cpu, mach.mem⟩)

variable {mach : Machine ObjcRuntime} {addr : U64}

theorem not_runsShim_underscore (h : (installAll p).get? f = some shim)
    (hget : mach.trampolines.get? addr = some ("_" ++ f)) :
    ¬RunsShim (hleEnvironment p) mach addr shim := by
  rintro ⟨symbol, hsymbol, -, hcall⟩
  obtain rfl : "_" ++ f = symbol := Option.some.inj (hget.symm.trans hsymbol)
  rw [call_underscore h] at hcall
  have hhandled := handles_bundled p _ (get?_installAll.1 h) _ _ _ hcall.symm
  cases hhandled

theorem underscore_ne_binder (f : String) : "_" ++ f ≠ "dyld_stub_binder" := by
  intro h
  have hlist : '_' :: f.toList = "dyld_stub_binder".toList := by
    rw [← h, String.toList_append]
    rfl
  cases hlist

/-- Such a call is answered with zero, and nothing else. -/
theorem serviceTrampoline_underscore {target : Target} (h : (installAll p).get? f = some shim)
    (hget : mach.trampolines.get? addr = some ("_" ++ f)) :
    Machine.serviceTrampoline target (hleEnvironment p) addr mach =
      .ok () { mach with cpu := { mach.cpu.setRet 0 with pc := mach.cpu.lr } } := by
  rw [serviceTrampoline_of_get hget, if_neg (underscore_ne_binder f)]
  unfold Machine.callImport
  rw [Prog.get_bind, call_underscore h]
  rfl

/-! ## From the bind stream to the call -/

/-- The segment of a record is mapped. -/
def SegmentMapped (image : MachOImage) (rec : BindRecord) : Prop :=
  ∃ seg, image.segments[rec.segIndex.toNat]? = some seg ∧ seg.name ≠ "__PAGEZERO"

theorem isSome_target {image : MachOImage} {rec : BindRecord} (h : SegmentMapped image rec)
    (slide : U64) : (target (runtimeBases slide image.segments) rec).isSome := by
  obtain ⟨seg, hseg, hname⟩ := h
  rw [target, Option.isSome_map, segBase, runtimeBases, List.getElem?_map, hseg]
  simp [hname]

variable {b : Build} {os : Reservations} {cfg : MachineConfig} {bytes : List U8} {vfs : Sandbox}
  {fs : HostFs} {world : ObjcRuntime} {image : MachOImage}

/-- A loaded machine has a trampoline for the symbol of every record with a mapped segment,
and calls there are calls of that symbol. -/
theorem trampoline_of_load (hload : Machine.load b os cfg bytes vfs fs world = .ok mach ())
    (hparse : MachOImage.parse bytes = .ok image) {recs : List BindRecord}
    (hrecs : ImageRecords b.profile image bytes recs) {rec : BindRecord} (hrec : rec ∈ recs)
    (hseg : SegmentMapped image rec) :
    ∃ stub, mach.symbolStubs.get? rec.symbol = some stub ∧
      mach.trampolines.get? stub = some rec.symbol := by
  obtain ⟨image', m₀, hparse', -, layout, m₁, proc, mem, hlayout, hproc, rfl⟩ :=
    Machine.load_eq_ok.1 hload
  obtain rfl : image' = image := Except.ok.inj (hparse'.symm.trans hparse)
  have hstride := Machine.layoutOf_stride hlayout
  obtain ⟨syms, -, -, hmem, hstubs⟩ := stubs_numbered hstride hproc
  have hsym : rec.symbol ∈ syms := (hmem recs hrecs _).2 ⟨rec, hrec, isSome_target hseg _, rfl⟩
  obtain ⟨k, hk⟩ := List.getElem?_of_mem hsym
  have hstub := (hstubs rec.symbol _).2 ⟨k, hk, rfl⟩
  exact ⟨_, hstub, (stubs_iff_trampolines hstride hproc _ _).1 hstub⟩

/-- No import of a registered function reaches its shim : in every loaded machine the import
has a trampoline, and in every state of the machine a call there is answered with zero. -/
theorem import_unhandled (b : Build) (os : Reservations) (cfg : MachineConfig) (bytes : List U8)
    (vfs : Sandbox) (fs : HostFs) (loaded : Machine ObjcRuntime) (image : MachOImage)
    (recs : List BindRecord) (rec : BindRecord) (f : String) (shim : ShimM Dispatch)
    (hload : Machine.load b os cfg bytes vfs fs ObjcRuntime.new = .ok loaded ())
    (hparse : MachOImage.parse bytes = .ok image)
    (hrecs : ImageRecords b.profile image bytes recs) (hrec : rec ∈ recs)
    (hseg : SegmentMapped image rec) (hf : (installAll b.profile).get? f = some shim)
    (hsym : rec.symbol = "_" ++ f) :
    ∃ stub, loaded.symbolStubs.get? ("_" ++ f) = some stub ∧
      ∀ mach : Machine ObjcRuntime, mach.trampolines = loaded.trampolines →
        ¬RunsShim (hleEnvironment b.profile) mach stub shim ∧
        Machine.serviceTrampoline b.target (hleEnvironment b.profile) stub mach =
          .ok () { mach with cpu := { mach.cpu.setRet 0 with pc := mach.cpu.lr } } := by
  obtain ⟨stub, hstub, htramp⟩ := trampoline_of_load hload hparse hrecs hrec hseg
  rw [hsym] at hstub htramp
  refine ⟨stub, hstub, fun mach hmach => ?_⟩
  have hget : mach.trampolines.get? stub = some ("_" ++ f) := by rw [hmach, htramp]
  exact ⟨not_runsShim_underscore hf hget, serviceTrampoline_underscore hf hget⟩

/-- A container with the app of the file. -/
def importSandbox : Sandbox :=
  Sandbox.ofContainer "/c".toList "/s".toList "App".toList "0".toList

theorem layoutOf_importFile :
    layoutOf ⟨.release, .host⟩ ⟨0, 0, 0⟩ .default importImage (executablePath importSandbox)
      importMemory = .ok importConfig importMemory := by
  have hargv : executablePath importSandbox =
      "/var/mobile/Applications/0/App.app/Executable" := by
    decide
  rw [hargv]
  rfl

/-- The machine of the file. -/
theorem load_importFile :
    ∃ mach, Machine.load ⟨.release, .host⟩ ⟨0, 0, 0⟩ .default importFile importSandbox
      ⟨fun _ => none⟩ ObjcRuntime.new = .ok mach () := by
  obtain ⟨p, m', hok⟩ := buildProcess_importFile
  exact ⟨_, Machine.load_eq_ok.2 ⟨importImage, importMemory, parse_importFile, rfl, importConfig,
    importMemory, p, m', layoutOf_importFile, hok, rfl⟩⟩

theorem segmentMapped_importRecord : SegmentMapped importImage importRecord :=
  ⟨_, rfl, by decide⟩

theorem get?_malloc :
    (installAll .release).get? "malloc" = some (Libsystem.malloc .release) := by
  refine get?_installAll.2 ?_
  simp [bundled, Libsystem.shims]

/-- In the machine of the file, a call of `_malloc` is answered with zero. -/
theorem import_unhandled_malloc :
    ∃ mach stub, Machine.load ⟨.release, .host⟩ ⟨0, 0, 0⟩ .default importFile importSandbox
        ⟨fun _ => none⟩ ObjcRuntime.new = .ok mach () ∧
      mach.symbolStubs.get? "_malloc" = some stub ∧
      Machine.serviceTrampoline .host (hleEnvironment .release) stub mach =
        .ok () { mach with cpu := { mach.cpu.setRet 0 with pc := mach.cpu.lr } } := by
  obtain ⟨mach, hload⟩ := load_importFile
  obtain ⟨stub, hstub, hcall⟩ := import_unhandled ⟨.release, .host⟩ ⟨0, 0, 0⟩ .default importFile
    importSandbox ⟨fun _ => none⟩ mach importImage [importRecord] importRecord "malloc" _ hload
    parse_importFile imageRecords_importFile List.mem_cons_self segmentMapped_importRecord
    get?_malloc rfl
  exact ⟨mach, stub, hload, hstub, (hcall mach rfl).2⟩

/-- The trampoline of `_malloc` does not run `malloc`, which has a shim. -/
theorem malloc_not_run :
    ∃ mach stub, Machine.load ⟨.release, .host⟩ ⟨0, 0, 0⟩ .default importFile importSandbox
        ⟨fun _ => none⟩ ObjcRuntime.new = .ok mach () ∧
      (installAll .release).get? "malloc" = some (Libsystem.malloc .release) ∧
      mach.trampolines.get? stub = some "_malloc" ∧
      ¬RunsShim (hleEnvironment .release) mach stub (Libsystem.malloc .release) := by
  obtain ⟨mach, hload⟩ := load_importFile
  obtain ⟨stub, -, htramp⟩ := trampoline_of_load hload parse_importFile imageRecords_importFile
    List.mem_cons_self segmentMapped_importRecord
  exact ⟨mach, stub, hload, get?_malloc, htramp, not_runsShim_underscore get?_malloc htramp⟩

end IosEmu
