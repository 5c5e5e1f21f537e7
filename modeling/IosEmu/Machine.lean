import IosEmu.Process
import IosEmu.Syscall

/-!
# The machine

A `Machine` is a loaded process : its registers, memory and descriptors, the tables that
`buildProcess` left behind, and the state of the environment that services imported calls.
The environment itself is a parameter, a `HostEnvironment` with a state of its own.

An executor runs guest code and hands back an event. `turn` is one turn of the loop that
services these events. A call of a trampoline is looked up in the table of trampolines : the
lazy binder is handled here, and every other symbol is handed to the environment, or answered
with zero if the environment does not know it.
-/

open SysLib

namespace IosEmu

/-! ## The environment -/

/-- What a shim may touch. -/
structure CallContext where
  cpu : CpuContext
  mem : GuestMemory

/-- Whether the environment serviced a call. -/
inductive Dispatch
  | handled
  | unhandled
  deriving DecidableEq

/-- An environment with state `W`. -/
structure HostEnvironment (W : Type) where
  call : Sandbox → String → Prog Empty Panic (W × CallContext) Dispatch
  onProcessStart : Sandbox → Prog Empty Panic (W × CallContext) Unit

/-- Tunables of the layout. -/
structure MachineConfig where
  heapBase : U64
  heapSize : U64
  stackTop : U64
  stackSize : U64
  trampolineBase : U64
  slide : U64
  deriving DecidableEq

namespace MachineConfig

def default : MachineConfig where
  heapBase := 0x120000000
  heapSize := 64 * 1024 * 1024
  stackTop := 0x1c0000000
  stackSize := 8 * 1024 * 1024
  trampolineBase := 0x500000000
  slide := 0

end MachineConfig

/-- A loaded process, with the host's files. -/
structure Machine (W : Type) where
  cpu : CpuContext
  mem : GuestMemory
  vfs : Sandbox
  fds : FdTable
  dispatcher : SyscallDispatcher
  fs : HostFs
  world : W
  trampolines : SortedMap U64 String
  trampRange : U64 × U64
  symbolStubs : SortedMap String U64
  lazyBinds : SortedMap U64 (String × U64)
  exit : Option (BitVec 32)
  initFuncs : List U64
  entry : U64
  argRegs : Fin 4 → U64
  sp : U64

/-- `x.saturating_add(y)`. -/
def saturatingAdd (x y : U64) : U64 :=
  (checkedAdd x y).getD (BitVec.allOnes 64)

/-- `x.saturating_sub(y)`. -/
def saturatingSub (x y : U64) : U64 :=
  (checkedSub x y).getD 0

/-- The preferred base of the image, and the bytes to reserve for its segments. -/
def imageSpan (p : Profile) (image : MachOImage) : Except Panic (U64 × U64) := do
  let mapped := image.segments.filter fun seg => seg.name ≠ "__PAGEZERO"
  let high := mapped.foldl (fun high seg => max high (saturatingAdd seg.vmaddr seg.vmsize))
    image.textVmaddr
  let len ← alignUp p (saturatingSub high image.textVmaddr) pageSize
  return (image.textVmaddr, len)

/-- The bases the kernel chose for the reservations of the device : for the image, for the
trampolines and for the stack. -/
structure Reservations where
  image : U64
  trampolines : U64
  stack : U64

/-- `reserve_native_region`. -/
def reserveNativeRegion (base : U64) : EmuResult U64 :=
  if base = 0 then .error (.memory 0 "native reservation returned null") else .ok base

/-- The layout of the process : the configured one on the host, and at reserved bases on
device. -/
def layoutOf (b : Build) (os : Reservations) (cfg : MachineConfig) (image : MachOImage)
    (argv0 : String) : MemM LayoutConfig := do
  match b.target with
  | .host =>
    return { slide := cfg.slide, stackTop := cfg.stackTop, stackSize := cfg.stackSize,
             trampolineBase := cfg.trampolineBase, trampolineStride := 16, argv0 }
  | .android _ =>
    let (preferred, _) ← Prog.ofChecked (imageSpan b.profile image)
    let base ← Prog.ofResult (reserveNativeRegion os.image)
    let trampolineBase ← Prog.ofResult (reserveNativeRegion os.trampolines)
    let stackBase ← Prog.ofResult (reserveNativeRegion os.stack)
    let stackTop ← Prog.ofChecked (b.profile.add stackBase cfg.stackSize)
    return { slide := base - preferred, stackTop, stackSize := cfg.stackSize, trampolineBase,
             trampolineStride := 16, argv0 }

/-- `argv[0]` of the process. -/
def executablePath (vfs : Sandbox) : String :=
  String.ofList (vfs.bundleIosPath ++ "/Executable".toList)

namespace Machine

variable {W : Type}

/-- The machine of a process image. -/
def ofProcess (mem : GuestMemory) (vfs : Sandbox) (fs : HostFs) (world : W)
    (proc : ProcessImage) : Machine W where
  cpu := CpuContext.entry proc.entry proc.sp proc.argRegs
  mem := mem
  vfs := vfs
  fds := FdTable.default
  dispatcher := ⟨0, 0⟩
  fs := fs
  world := world
  trampolines := proc.trampolines
  trampRange := (proc.trampolineBase, proc.trampolineEnd)
  symbolStubs := proc.symbolStubs
  lazyBinds := proc.lazyBinds
  exit := none
  initFuncs := proc.initFuncs
  entry := proc.entry
  argRegs := proc.argRegs
  sp := proc.sp

/-- Construct a process from the bytes of an executable. -/
def load (b : Build) (os : Reservations) (cfg : MachineConfig) (bytes : List U8)
    (vfs : Sandbox) (fs : HostFs) (world : W) : Outcome EmuError Panic Unit (Machine W) :=
  match MachOImage.parse bytes with
  | .error e => .err e ()
  | .ok image =>
    match GuestMemory.new b.profile cfg.heapBase cfg.heapSize with
    | .err e _ => .err e ()
    | .panic e => .panic e
    | .ok _ mem =>
      let build : MemM ProcessImage := do
        let layout ← layoutOf b os cfg image (executablePath vfs)
        buildProcess b image bytes layout
      match build mem with
      | .err e _ => .err e ()
      | .panic e => .panic e
      | .ok proc mem => .ok (ofProcess mem vfs fs world proc) ()

/-- Every layout has trampolines of 16 bytes. -/
theorem layoutOf_stride {b : Build} {os : Reservations} {cfg : MachineConfig} {image : MachOImage}
    {argv0 : String} {layout : LayoutConfig} {m m' : GuestMemory}
    (h : layoutOf b os cfg image argv0 m = .ok layout m') : layout.trampolineStride = 16 := by
  unfold layoutOf at h
  rcases htarget : b.target with _ | nativeProtect
  · simp only [htarget, Prog.pure_apply, Outcome.ok.injEq] at h
    rw [← h.1]
  · simp only [htarget] at h
    obtain ⟨⟨preferred, _⟩, -, h⟩ := Prog.ofChecked_bind_eq_ok.1 h
    obtain ⟨base, -, h⟩ := Prog.ofResult_bind_eq_ok.1 h
    obtain ⟨trampolineBase, -, h⟩ := Prog.ofResult_bind_eq_ok.1 h
    obtain ⟨stackBase, -, h⟩ := Prog.ofResult_bind_eq_ok.1 h
    obtain ⟨stackTop, -, h⟩ := Prog.ofChecked_bind_eq_ok.1 h
    simp only [Prog.pure_apply, Outcome.ok.injEq] at h
    rw [← h.1]

/-- A machine is loaded exactly if the file is parsed, the heap mapped, the layout chosen and
the process built. -/
theorem load_eq_ok {b : Build} {os : Reservations} {cfg : MachineConfig} {bytes : List U8}
    {vfs : Sandbox} {fs : HostFs} {world : W} {mach : Machine W} :
    load b os cfg bytes vfs fs world = .ok mach () ↔
      ∃ image m₀, MachOImage.parse bytes = .ok image ∧
        GuestMemory.new b.profile cfg.heapBase cfg.heapSize = .ok () m₀ ∧
        ∃ layout m₁ proc mem, layoutOf b os cfg image (executablePath vfs) m₀ = .ok layout m₁ ∧
          buildProcess b image bytes layout m₁ = .ok proc mem ∧
          mach = ofProcess mem vfs fs world proc := by
  constructor
  · intro h
    unfold load at h
    rcases hparse : MachOImage.parse bytes with e | image <;> simp only [hparse] at h
    · cases h
    rcases hnew : GuestMemory.new b.profile cfg.heapBase cfg.heapSize with
      ⟨_, m₀⟩ | ⟨e, m₀⟩ | e <;> simp only [hnew] at h
    · rcases hbuild : (layoutOf b os cfg image (executablePath vfs) >>= fun layout =>
        buildProcess b image bytes layout) m₀ with ⟨proc, mem⟩ | ⟨e, m₁⟩ | e <;>
        simp only [hbuild] at h
      · obtain ⟨layout, m₁, hlayout, hproc⟩ := Prog.bind_eq_ok.1 hbuild
        obtain ⟨rfl, -⟩ : _ = mach ∧ _ := Outcome.ok.inj h
        exact ⟨image, m₀, rfl, rfl, layout, m₁, proc, mem, hlayout, hproc, rfl⟩
      · cases h
      · cases h
    · cases h
    · cases h
  · rintro ⟨image, m₀, hparse, hnew, layout, m₁, proc, mem, hlayout, hproc, rfl⟩
    unfold load
    simp only [hparse, hnew, Prog.bind_eq_ok.2 ⟨layout, m₁, hlayout, hproc⟩]

end Machine

/-! ## Servicing events -/

/-- A method of the machine. -/
abbrev MachM (W : Type) := Prog EmuError Panic (Machine W)

namespace Machine

variable {W : Type}

/-- Run a call on the memory. -/
def onMem {α : Type} (x : MemM α) : MachM W α :=
  Prog.zoom Machine.mem (fun mem mach => { mach with mem }) x

/-- `self.cpu.pc = self.cpu.lr`. -/
def returnToCaller : MachM W Unit :=
  Prog.modify fun mach => { mach with cpu := { mach.cpu with pc := mach.cpu.lr } }

/-- Store the resolved stub in the lazy pointer, and publish it if that succeeds. -/
def patchLazyPointer (target : Target) (laPtr resolved : U64) : MachM W Unit := do
  match ← (Prog.attempt (onMem (GuestMemory.writeU64 laPtr resolved)) :
      MachM W (EmuResult Unit)) with
  | .ok _ =>
    let _published ← (Prog.attempt (onMem (GuestMemory.commitToNative target laPtr)) :
      MachM W (EmuResult Unit))
    return ()
  | .error _ => return ()

/-- `dyld_stub_binder` : find the lazy bind by the offset on the stack, patch its pointer, drop
the two words that the stub helper pushed, and jump to the stub. -/
def dyldStubBinder (target : Target) : MachM W Unit := do
  let mach ← Prog.get
  match mach.mem.readU64 mach.cpu.sp with
  | .error _ => returnToCaller
  | .ok word =>
    match mach.lazyBinds.get? (word &&& 0xffffffff) with
    | none => returnToCaller
    | some (symbol, laPtr) =>
      match mach.symbolStubs.get? symbol with
      | none => returnToCaller
      | some resolved =>
        patchLazyPointer target laPtr resolved
        Prog.modify fun m =>
          { m with cpu := { m.cpu with sp := mach.cpu.sp + 16, pc := resolved } }

/-- Run a shim of the environment. -/
def onWorld {α : Type} (x : Prog Empty Panic (W × CallContext) α) : MachM W α :=
  Prog.mapErr Empty.elim <|
    Prog.zoom (fun mach => (mach.world, ⟨mach.cpu, mach.mem⟩))
      (fun s mach => { mach with world := s.1, cpu := s.2.cpu, mem := s.2.mem }) x

/-- Hand a symbol to the environment, and answer zero if it does not know it. -/
def callImport (env : HostEnvironment W) (symbol : String) : MachM W Unit := do
  let mach ← Prog.get
  let disp ← onWorld (env.call mach.vfs symbol)
  if disp = .unhandled then
    Prog.modify fun m => { m with cpu := m.cpu.setRet 0 }
  returnToCaller

/-- Service a call of a trampoline. -/
def serviceTrampoline (target : Target) (env : HostEnvironment W) (addr : U64) :
    MachM W Unit := do
  let mach ← Prog.get
  match mach.trampolines.get? addr with
  | none => returnToCaller
  | some symbol =>
    if symbol = "dyld_stub_binder" then dyldStubBinder target else callImport env symbol

/-- Service a system call. -/
def serviceSyscall (host : Host) : MachM W Unit := do
  let mach ← Prog.get
  let dispatcher ← Prog.mapErr Empty.elim <|
    Prog.zoom (fun m : Machine W => (⟨m.cpu, m.mem, m.fds, m.exit, m.fs⟩ : SyscallCtx))
      (fun c m => { m with cpu := c.cpu, mem := c.mem, fds := c.fds, exit := c.exit, fs := c.fs })
      (dispatch host mach.vfs mach.dispatcher)
  Prog.modify fun m => { m with dispatcher }

/-- One turn of the loop : service an event, and stop with an exit code if the process is
over. -/
def turn (host : Host) (env : HostEnvironment W) : ExecEvent → MachM W (Option (BitVec 32))
  | .syscall _ => do
    serviceSyscall host
    let mach ← Prog.get
    return mach.exit
  | .trampolineCall addr => do
    serviceTrampoline host.build.target env addr
    return none
  | .exited code => return some code
  | .breakpoint _ => return some (128 + 5)
  | .fault pc reason => Prog.fail (.memory pc reason)

end Machine

end IosEmu
