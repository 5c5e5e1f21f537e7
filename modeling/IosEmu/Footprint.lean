import IosEmu.CodeIntegrity
import IosEmu.LazyBinder
import IosEmu.Stores

/-!
# What a service may change in memory

A service stores where its system call, its shim or the lazy binder does, which patches a slot with
a stub. `Service.stores` is the set of these addresses, known before the service runs, and no other
byte that is mapped changes in a run from a load (`run_footprint`).
-/

open SysLib

namespace IosEmu

open GuestMemory

variable {W : Type}

/-! ## System calls -/

/-- Where a system call stores. -/
def syscallStores (host : Host) (mach : Machine W) : Set ℕ :=
  match decode host.build.profile (mach.cpu.x 16) with
  | .ok (.unix, number) =>
    (Unix.Call.ofNumber number).elim ∅ fun call => call.stores host mach.syscallCtx
  | .ok (.mach, number) => (Mach.Trap.ofNumber number).elim ∅ fun trap => trap.stores mach.cpu
  | _ => ∅

theorem syscallStores_unix {host : Host} {mach : Machine W} {number : U32} {call : Unix.Call}
    (hdecode : decode host.build.profile (mach.cpu.x 16) = .ok (.unix, number))
    (hcall : Unix.Call.ofNumber number = some call) :
    syscallStores host mach = call.stores host mach.syscallCtx := by
  unfold syscallStores
  simp only [hdecode, hcall, Option.elim_some]

/-- A system call touches what it stores at. -/
theorem touches_serviceSyscall {host : Host} {mach mach' : Machine W}
    (h : (Machine.serviceSyscall host mach).state? = some mach') :
    Touches (syscallStores host mach) mach.mem mach'.mem := by
  rcases mem_of_serviceSyscall h with heq | ⟨cls, number, handler, c', hdecode, hh, hrun, heq⟩
  · rw [heq]
    exact refl_of (Touches _) _
  rw [heq]
  cases cls with
  | unix =>
    obtain ⟨call, hcall, rfl⟩ := Option.map_eq_some_iff.1 hh
    rw [syscallStores_unix hdecode hcall]
    exact touches_handle hrun
  | mach =>
    obtain ⟨trap, htrap, rfl⟩ := Option.map_eq_some_iff.1 hh
    unfold syscallStores
    simp only [hdecode, htrap, Option.elim_some]
    exact touches_trap hrun
  | machDep => cases hh
  | diag => cases hh

/-! ## Trampolines -/

/-- Where the lazy binder stores : in the slot, if it finds one. -/
def binderStores (mach : Machine W) : Set ℕ :=
  { x | ∃ symbol slot stub, mach.Resolves symbol slot stub ∧ x ∈ mach.mem.storedAt slot 8 }

theorem binderStores_of_resolves {mach : Machine W} {symbol : String} {slot stub : U64}
    (h : mach.Resolves symbol slot stub) : binderStores mach = mach.mem.storedAt slot 8 := by
  ext x
  refine ⟨?_, fun hx => ⟨symbol, slot, stub, h, hx⟩⟩
  rintro ⟨symbol', slot', stub', h', hx⟩
  obtain ⟨⟨word, hword, hlazy⟩, -⟩ := h
  obtain ⟨⟨word', hword', hlazy'⟩, -⟩ := h'
  obtain rfl := Except.ok.inj (hword.symm.trans hword')
  obtain ⟨-, rfl⟩ := Prod.mk.inj (Option.some.inj (hlazy.symm.trans hlazy'))
  exact hx

theorem touches_dyldStubBinder {target : Target} {mach mach' : Machine W}
    (h : (Machine.dyldStubBinder target mach).state? = some mach') :
    Touches (binderStores mach) mach.mem mach'.mem := by
  by_cases hres : ∃ symbol slot stub, mach.Resolves symbol slot stub
  · obtain ⟨symbol, slot, stub, hres⟩ := hres
    obtain ⟨mem, hpatch, hbinder⟩ := Machine.dyldStubBinder_of_resolves target hres
    rw [hbinder] at h
    obtain rfl := Option.some.inj h
    rw [binderStores_of_resolves hres]
    rcases hpatch with hwrite | ⟨-, rfl⟩
    · have hstore := (touches_storedAt _ _).ok hwrite
      rwa [length_toLeBytes64] at hstore
    · exact refl_of (Touches _) _
  · rw [Machine.dyldStubBinder_of_not_resolves target hres] at h
    obtain rfl := Option.some.inj h
    exact refl_of (Touches _) _

theorem touches_onWorld {α : Type} {S : CallContext → Set ℕ} {x : ShimM α}
    (hx : x.Steps (TouchesFrom S)) {mach mach' : Machine ObjcRuntime}
    (h : (Machine.onWorld x mach).state? = some mach') :
    Touches (S ⟨mach.cpu, mach.mem⟩) mach.mem mach'.mem := by
  unfold Machine.onWorld Prog.mapErr Prog.zoom at h
  rcases hrun : x (mach.world, ⟨mach.cpu, mach.mem⟩) with ⟨a, s⟩ | ⟨e, s⟩ | e <;>
    simp only [hrun] at h
  · obtain rfl := Option.some.inj h
    exact hx.ok hrun
  · exact e.elim
  · cases h

/-- A shim touches what it stores at. -/
theorem touches_callImport {p : Profile} {symbol : String} {mach mach' : Machine ObjcRuntime}
    (h : (Machine.callImport (hleEnvironment p) symbol mach).state? = some mach') :
    Touches (shimStores symbol ⟨mach.cpu, mach.mem⟩) mach.mem mach'.mem := by
  have hcall : ((hleEnvironment p).call mach.vfs symbol).Steps
      (TouchesFrom (shimStores symbol)) := by
    simp only [hleEnvironment]
    exact touchesFrom_callShim symbol
  unfold Machine.callImport at h
  rw [Prog.get_bind] at h
  generalize (hleEnvironment p).call mach.vfs symbol = x at hcall h
  rcases Prog.state?_bind_eq_some h with ⟨disp, mach₁, hrun, h⟩ | ⟨e, herr⟩
  · have hmem : mach'.mem = mach₁.mem := by
      dsimp only at h
      split_ifs at h
      · rw [← Option.some.inj h]
      · rw [← Option.some.inj h]
    rw [hmem]
    exact touches_onWorld hcall (by rw [hrun]; rfl)
  · exact touches_onWorld hcall (by rw [herr]; rfl)

/-- Where a call of a trampoline stores. -/
def trampolineStores (mach : Machine W) (addr : U64) : Set ℕ :=
  match mach.trampolines.get? addr with
  | none => ∅
  | some symbol =>
    if symbol = "dyld_stub_binder" then binderStores mach
    else shimStores symbol ⟨mach.cpu, mach.mem⟩

/-- A call of a trampoline touches what it stores at. -/
theorem touches_serviceTrampoline {target : Target} {p : Profile} {addr : U64}
    {mach mach' : Machine ObjcRuntime}
    (h : (Machine.serviceTrampoline target (hleEnvironment p) addr mach).state? = some mach') :
    Touches (trampolineStores mach addr) mach.mem mach'.mem := by
  rcases hget : mach.trampolines.get? addr with _ | symbol
  · simp only [Machine.serviceTrampoline, Prog.get_bind, hget] at h
    obtain rfl := Option.some.inj h
    exact refl_of (Touches _) _
  · unfold trampolineStores
    rw [serviceTrampoline_of_get hget] at h
    simp only [hget]
    split_ifs at h ⊢
    · exact touches_dyldStubBinder h
    · exact touches_callImport h

/-! ## Services -/

namespace Service

/-- Where a service stores in guest memory. -/
def stores (b : Build) (s : Service) (mach : Machine ObjcRuntime) : Set ℕ :=
  match s.trampoline with
  | none => syscallStores (s.host b) (s.enter mach)
  | some addr => trampolineStores (s.enter mach) addr

variable {b : Build} {s : Service} {mach mach' : Machine ObjcRuntime}

/-- One service. -/
theorem touches_run (h : (s.run b mach).state? = some mach') :
    Touches (s.stores b mach) mach.mem mach'.mem := by
  unfold stores
  rcases htramp : s.trampoline with _ | addr
  · exact touches_serviceSyscall (state?_syscall htramp h)
  · exact touches_serviceTrampoline (state?_trampoline htramp h)

/-- The run stores nothing at the address. -/
def Untouched (b : Build) (x : ℕ) : List Service → Machine ObjcRuntime → Prop
  | [], _ => True
  | s :: l, mach =>
    x ∉ s.stores b mach ∧ ∀ mach', (s.run b mach).state? = some mach' → Untouched b x l mach'

/-- A run keeps the bytes at which it stores nothing. -/
theorem byte_of_untouched {x : ℕ} :
    ∀ {l : List Service} {mach mach' : Machine ObjcRuntime}, mach.mem.Inv →
      runServices b l mach = some mach' → mach.mem.flat.byte x ≠ none → Untouched b x l mach →
      mach'.mem.flat.byte x = mach.mem.flat.byte x
  | [], mach, mach', _, hrun, _, _ => by
    obtain rfl := Option.some.inj hrun
    rfl
  | s :: l, mach, mach', hinv, hrun, hmapped, hx => by
    obtain ⟨next, hnext, hrun⟩ := Option.bind_eq_some_iff.1 hrun
    obtain ⟨hout, hrest⟩ := hx
    obtain ⟨hinv', -, hbyte⟩ := touches_run hnext hinv
    have hsame := hbyte x hout hmapped
    rw [byte_of_untouched hinv' hrun (hsame ▸ hmapped) (hrest next hnext), hsame]

/-- A run leaves an address space. -/
theorem inv_of_run :
    ∀ {l : List Service} {mach mach' : Machine ObjcRuntime}, mach.mem.Inv →
      runServices b l mach = some mach' → mach'.mem.Inv
  | [], mach, mach', hinv, hrun => by
    obtain rfl := Option.some.inj hrun
    exact hinv
  | s :: l, mach, mach', hinv, hrun => by
    obtain ⟨next, hnext, hrun⟩ := Option.bind_eq_some_iff.1 hrun
    exact inv_of_run (touches_run hnext hinv).1 hrun

end Service

/-- In a run from a load, a byte at which no later service stores is as it was. -/
theorem run_footprint (b : Build) (os : Reservations) (cfg : MachineConfig) (bytes : List U8)
    (vfs : Sandbox) (fs : HostFs) (world : ObjcRuntime) (loaded mach mach' : Machine ObjcRuntime)
    (before l : List Service) (hload : Machine.load b os cfg bytes vfs fs world = .ok loaded ())
    (hbefore : runServices b before loaded = some mach) (hrun : runServices b l mach = some mach')
    (x : ℕ) (hmapped : mach.mem.flat.byte x ≠ none) (hx : Service.Untouched b x l mach) :
    mach'.mem.flat.byte x = mach.mem.flat.byte x :=
  Service.byte_of_untouched (Service.inv_of_run (inv_of_load hload) hbefore) hrun hmapped hx

/-- `gettimeofday` into the first bytes of the heap, seven seconds after the epoch. -/
def gettimeofdayService : Service where
  kernel := .willing
  clock := some ⟨7, 0⟩
  cpu :=
    { CpuContext.default with
      x := fun i => if i = 16 then 116 else if i = 0 then 0x120000000 else 0 }
  trampoline := none

/-- The call stores the time. -/
theorem run_gettimeofdayService {target : Target} {mach : Machine ObjcRuntime}
    {m₁ m₂ : GuestMemory} (hsecs : writeU64 0x120000000 7 mach.mem = .ok () m₁)
    (hmicros : writeU32 0x120000008 0 m₁ = .ok () m₂) :
    ∃ mach', runServices ⟨.release, target⟩ [gettimeofdayService] mach = some mach' ∧
      mach'.mem = m₂ := by
  have hhandler : Unix.sysGettimeofday (gettimeofdayService.host ⟨.release, target⟩)
      (gettimeofdayService.enter mach).syscallCtx =
      .ok 0 { (gettimeofdayService.enter mach).syscallCtx with mem := m₂ } := by
    have harg : ¬(gettimeofdayService.enter mach).syscallCtx.cpu.arg 0 = 0 :=
      show ¬(0x120000000 : U64) = 0 by decide
    rw [Unix.sysGettimeofday, Prog.get_bind]
    dsimp only
    rw [if_neg harg]
    have hfield : writeU32 (0x120000000 + 8) (0 / 1000) m₁ = .ok () m₂ := by
      rw [show (0x120000000 : U64) + 8 = 0x120000008 by decide,
        show (0 : U32) / 1000 = 0 by decide]
      exact hmicros
    refine Prog.bind_eq_ok.2 ⟨(), _, onMem_of_ok hsecs, ?_⟩
    exact Prog.bind_eq_ok.2 ⟨(), _, onMem_of_ok hfield, rfl⟩
  have hdecode : decode .release (gettimeofdayService.cpu.x 16) = .ok (.unix, 116) :=
    show decode .release 116 = _ by decide
  obtain ⟨mach', hrun, hmem⟩ := Service.run_of_handler rfl
    (Profile.add_release mach.dispatcher.serviced 1) hdecode rfl hhandler
  exact ⟨mach', by rw [runServices, hrun]; rfl, hmem⟩

/-- The time is stored, and the byte after it is as it was. -/
theorem run_footprint_gettimeofday :
    ∃ loaded mach, Machine.load ⟨.release, .host⟩ ⟨0, 0, 0⟩ .default importFile importSandbox
        ⟨fun _ => none⟩ ObjcRuntime.new = .ok loaded () ∧
      runServices ⟨.release, .host⟩ [gettimeofdayService] loaded = some mach ∧
      mach.mem.flat.byte 0x120000000 = some 7 ∧ mach.mem.flat.byte 0x12000000c = some 0 := by
  obtain ⟨loaded, hload, -, -, -, m₁, m₂, hsecs, hmicros, hstored, hmapped⟩ :=
    load_importFile_steps
  obtain ⟨mach, hrun, rfl⟩ := @run_gettimeofdayService .host loaded m₁ m₂ hsecs hmicros
  have hout : 0x12000000c ∉ gettimeofdayService.stores ⟨.release, .host⟩ loaded := by
    have hstores : gettimeofdayService.stores ⟨.release, .host⟩ loaded =
        loaded.mem.storedAt 0x120000000 8 ∪ loaded.mem.storedAt 0x120000008 4 := by
      have hdecode : decode .release ((gettimeofdayService.enter loaded).cpu.x 16) =
          .ok (.unix, 116) := show decode .release 116 = _ by decide
      have hcall : syscallStores (gettimeofdayService.host ⟨.release, .host⟩)
          (gettimeofdayService.enter loaded) = _ := syscallStores_unix hdecode rfl
      exact hcall
    rw [hstores]
    rintro (⟨⟨-, hlt⟩, -⟩ | ⟨⟨-, hlt⟩, -⟩)
    · exact absurd hlt (by decide)
    · exact absurd hlt (by decide)
  refine ⟨loaded, mach, hload, hrun, hstored, ?_⟩
  have hsame := run_footprint ⟨.release, .host⟩ ⟨0, 0, 0⟩ .default importFile importSandbox
    ⟨fun _ => none⟩ ObjcRuntime.new loaded loaded mach [] [gettimeofdayService] hload rfl hrun
    0x12000000c (by rw [hmapped]; exact Option.some_ne_none _) ⟨hout, fun _ _ => trivial⟩
  rw [hsame, hmapped]

end IosEmu
