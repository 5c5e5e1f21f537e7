import IosEmu.DeviceLoad
import IosEmu.Services

/-!
# Services on device

The services of the machine with both copies of its memory. Two of them publish : `mprotect`
copies the region to its pages before the kernel is asked, and the lazy binder copies the
region of the pointer it has patched. Every other service is the one of the host, and does not
touch the pages.

Seen through the buffers, a turn on device is a turn of the machine, unless a copy faults
(`refines_turn`).
-/

open SysLib

namespace IosEmu

open GuestMemory Process

/-- A loaded process with its native pages. -/
structure DeviceMachine (W : Type) where
  mach : Machine W
  pages : Pages

namespace DeviceMachine

variable {W : Type}

/-- Both copies of the memory. -/
def memory (d : DeviceMachine W) : DeviceMemory :=
  ⟨d.mach.mem, d.pages⟩

def withMemory (m : DeviceMemory) (d : DeviceMachine W) : DeviceMachine W :=
  ⟨{ d.mach with mem := m.mem }, m.pages⟩

end DeviceMachine

/-- A method of the machine on device. -/
abbrev DevMachM (W : Type) := Prog EmuError Panic (DeviceMachine W)

/-- What a handler may touch on device. -/
structure DeviceCtx where
  ctx : SyscallCtx
  pages : Pages

/-- A handler on device. -/
abbrev DevSysM := Prog U32 Panic DeviceCtx

namespace Device

variable {W α : Type}

/-! ## System calls -/

/-- A handler that does not touch the pages. -/
def onCtx (x : SysM α) : DevSysM α :=
  Prog.zoom DeviceCtx.ctx (fun ctx d => { d with ctx }) x

/-- Run a call on both copies, with `errno` for every error. -/
def onCopies (errno : U32) (x : DevM α) : DevSysM α :=
  Prog.mapErr (fun _ => errno) <|
    Prog.zoom (fun d : DeviceCtx => (⟨d.ctx.mem, d.pages⟩ : DeviceMemory))
      (fun m d => ⟨{ d.ctx with mem := m.mem }, m.pages⟩) x

def sysMprotect (nativeProtect : NativeProtect) : DevSysM U64 := do
  let d ← Prog.get
  onCopies Errno.EINVAL
    (protect nativeProtect (d.ctx.cpu.arg 0) (Unix.protOf (d.ctx.cpu.arg 2)))
  return 0

/-- The handler of a BSD call. -/
def handle (nativeProtect : NativeProtect) (host : Host) (vfs : Sandbox) (call : Unix.Call) :
    DevSysM U64 :=
  if call = .mprotect then sysMprotect nativeProtect else onCtx (Unix.handle host vfs call)

/-- The handler of a class and number. -/
def handlerOf (nativeProtect : NativeProtect) (host : Host) (vfs : Sandbox) :
    SyscallClass → U32 → Option (DevSysM U64)
  | .unix, number => (Unix.Call.ofNumber number).map (handle nativeProtect host vfs)
  | .mach, number => (Mach.Trap.ofNumber number).map fun trap => onCtx (Mach.handle host trap)
  | _, _ => none

/-- Service one system call. -/
def dispatch (nativeProtect : NativeProtect) (host : Host) (vfs : Sandbox)
    (s : SyscallDispatcher) : Prog Empty Panic DeviceCtx SyscallDispatcher := do
  let serviced ← Prog.ofChecked (host.build.profile.add s.serviced 1)
  let d ← Prog.get
  let (cls, number) ← Prog.ofChecked (decode host.build.profile (d.ctx.cpu.x 16))
  match handlerOf nativeProtect host vfs cls number with
  | some handler =>
    let result ← Prog.attempt handler
    Prog.modify fun d => { d with ctx := { d.ctx with cpu := d.ctx.cpu.setSyscallResult result } }
    return { s with serviced }
  | none =>
    let stubbed ← Prog.ofChecked (host.build.profile.add s.stubbed 1)
    Prog.modify fun d =>
      { d with ctx := { d.ctx with cpu := d.ctx.cpu.setSyscallResult (stubAnswer cls) } }
    return { serviced, stubbed }

/-- Service a system call. -/
def serviceSyscall (nativeProtect : NativeProtect) (host : Host) : DevMachM W Unit := do
  let d ← Prog.get
  let dispatcher ← Prog.mapErr Empty.elim <|
    Prog.zoom (fun d : DeviceMachine W => (⟨d.mach.syscallCtx, d.pages⟩ : DeviceCtx))
      (fun c d =>
        ⟨{ d.mach with cpu := c.ctx.cpu, mem := c.ctx.mem, fds := c.ctx.fds, exit := c.ctx.exit,
                       fs := c.ctx.fs }, c.pages⟩)
      (dispatch nativeProtect host d.mach.vfs d.mach.dispatcher)
  Prog.modify fun d => { d with mach := { d.mach with dispatcher } }

/-! ## Trampolines -/

/-- A method that does not touch the pages. -/
def onMach (x : MachM W α) : DevMachM W α :=
  Prog.zoom DeviceMachine.mach (fun mach d => { d with mach }) x

/-- Run a call on both copies. -/
def onMemory (x : DevM α) : DevMachM W α :=
  Prog.zoom DeviceMachine.memory DeviceMachine.withMemory x

/-- Store the resolved stub in the lazy pointer, and publish it if that succeeds. -/
def patchLazyPointer (laPtr resolved : U64) : DevMachM W Unit := do
  match ← (Prog.attempt (onMemory (onHost (GuestMemory.writeU64 laPtr resolved))) :
      DevMachM W (EmuResult Unit)) with
  | .ok _ =>
    let _published ← (Prog.attempt (onMemory (commitToNative laPtr)) :
      DevMachM W (EmuResult Unit))
    return ()
  | .error _ => return ()

/-- `dyld_stub_binder`. -/
def dyldStubBinder : DevMachM W Unit := do
  let d ← Prog.get
  match d.mach.mem.readU64 d.mach.cpu.sp with
  | .error _ => onMach Machine.returnToCaller
  | .ok word =>
    match d.mach.lazyBinds.get? (word &&& 0xffffffff) with
    | none => onMach Machine.returnToCaller
    | some (symbol, laPtr) =>
      match d.mach.symbolStubs.get? symbol with
      | none => onMach Machine.returnToCaller
      | some resolved =>
        patchLazyPointer laPtr resolved
        onMach <| Prog.modify fun m =>
          { m with cpu := { m.cpu with sp := d.mach.cpu.sp + 16, pc := resolved } }

/-- Service a call of a trampoline. -/
def serviceTrampoline (env : HostEnvironment W) (addr : U64) : DevMachM W Unit := do
  let d ← Prog.get
  match d.mach.trampolines.get? addr with
  | none => onMach Machine.returnToCaller
  | some symbol =>
    if symbol = "dyld_stub_binder" then dyldStubBinder else onMach (Machine.callImport env symbol)

/-- One turn of the loop. -/
def turn (nativeProtect : NativeProtect) (host : Host) (env : HostEnvironment W) :
    ExecEvent → DevMachM W (Option (BitVec 32))
  | .syscall _ => do
    serviceSyscall nativeProtect host
    let d ← Prog.get
    return d.mach.exit
  | .trampolineCall addr => do
    serviceTrampoline env addr
    return none
  | .exited code => return some code
  | .breakpoint _ => return some (128 + 5)
  | .fault pc reason => Prog.fail (.memory pc reason)

/-! ## Refinement -/

section Refines

open Prog

variable {nativeProtect : NativeProtect} {host : Host}

theorem refines_onCtx (x : SysM α) : Refines DeviceCtx.ctx (onCtx x) x :=
  refines_zoom x fun _ _ => rfl

theorem refines_onMach (x : MachM W α) : Refines DeviceMachine.mach (onMach x) x :=
  refines_zoom x fun _ _ => rfl

/-- What a handler may touch, seen through the buffers. -/
abbrev RefinesCtx {ε : Type} (x : Prog ε Panic DeviceCtx α) (y : Prog ε Panic SyscallCtx α) :
    Prop :=
  RefinesUnless .nativeFault DeviceCtx.ctx x y

/-- The machine on device, seen through the buffers. -/
abbrev RefinesMach (x : DevMachM W α) (y : MachM W α) : Prop :=
  RefinesUnless .nativeFault DeviceMachine.mach x y

theorem refines_onCopies {x : DevM α} {y : MemM α} (h : RefinesMem x y) (errno : U32) :
    RefinesCtx (onCopies errno x) (SyscallCtx.onMem errno y) := by
  refine RefinesUnless.mapErr (h.zoom ?_ ?_) _
  · exact fun _ => rfl
  · exact fun _ _ => rfl

theorem refines_onMemory {x : DevM α} {y : MemM α} (h : RefinesMem x y) :
    RefinesMach (onMemory x : DevMachM W α) (Machine.onMem y) :=
  h.zoom (fun _ => rfl) fun _ _ => rfl

variable (htarget : host.build.target = .android nativeProtect)

include htarget

theorem refines_sysMprotect :
    RefinesCtx (sysMprotect nativeProtect) (Unix.sysMprotect host) := by
  refine RefinesUnless.get_bind fun d => ?_
  rw [htarget]
  exact (refines_onCopies (refines_protect _ _) _).bind fun _ => (refines_pure _).unless

theorem refines_handle (vfs : Sandbox) (call : Unix.Call) :
    RefinesCtx (handle nativeProtect host vfs call) (Unix.handle host vfs call) := by
  unfold handle
  split_ifs with hcall
  · subst hcall
    exact refines_sysMprotect htarget
  · exact (refines_onCtx _).unless

/-- A class and number have a handler on device exactly if they have one, and it refines that
one. -/
theorem refines_handlerOf (vfs : Sandbox) (cls : SyscallClass) (number : U32) :
    (handlerOf nativeProtect host vfs cls number = none ∧
        IosEmu.handlerOf host vfs cls number = none) ∨
      ∃ x y, handlerOf nativeProtect host vfs cls number = some x ∧
        IosEmu.handlerOf host vfs cls number = some y ∧ RefinesCtx x y := by
  cases cls with
  | unix =>
    simp only [handlerOf, IosEmu.handlerOf]
    rcases Unix.Call.ofNumber number with _ | call
    · exact Or.inl ⟨rfl, rfl⟩
    · exact Or.inr ⟨_, _, rfl, rfl, refines_handle htarget vfs call⟩
  | mach =>
    simp only [handlerOf, IosEmu.handlerOf]
    rcases Mach.Trap.ofNumber number with _ | trap
    · exact Or.inl ⟨rfl, rfl⟩
    · exact Or.inr ⟨_, _, rfl, rfl, (refines_onCtx _).unless⟩
  | machDep => exact Or.inl ⟨rfl, rfl⟩
  | diag => exact Or.inl ⟨rfl, rfl⟩

theorem refines_dispatch (vfs : Sandbox) (s : SyscallDispatcher) :
    RefinesCtx (dispatch nativeProtect host vfs s) (IosEmu.dispatch host vfs s) := by
  refine (refines_ofChecked _).unless.bind fun serviced => RefinesUnless.get_bind fun d =>
    (refines_ofChecked _).unless.bind fun ⟨cls, number⟩ => ?_
  dsimp only
  rcases refines_handlerOf htarget vfs cls number with ⟨hx, hy⟩ | ⟨x, y, hx, hy, href⟩ <;>
    rw [hx, hy]
  · refine ((refines_ofChecked _).bind fun _ => Refines.bind (refines_modify ?_) fun _ =>
      refines_pure _).unless
    exact fun _ => rfl
  · refine href.attempt.bind fun _ =>
      (Refines.bind (refines_modify ?_) fun _ => refines_pure _).unless
    exact fun _ => rfl

theorem refines_serviceSyscall :
    RefinesMach (serviceSyscall nativeProtect host : DevMachM W Unit)
      (Machine.serviceSyscall host) := by
  refine RefinesUnless.get_bind fun d => RefinesUnless.bind (RefinesUnless.mapErr
    (RefinesUnless.zoom (refines_dispatch htarget _ _) ?_ ?_) _) fun _ =>
      (refines_modify ?_).unless
  · exact fun _ => rfl
  · exact fun _ _ => rfl
  · exact fun _ => rfl

omit htarget in
theorem refines_patchLazyPointer (nativeProtect : NativeProtect) (laPtr resolved : U64) :
    RefinesMach (patchLazyPointer laPtr resolved : DevMachM W Unit)
      (Machine.patchLazyPointer (.android nativeProtect) laPtr resolved) := by
  refine (refines_onMemory (refines_onHost _).unless).attempt.bind fun r => ?_
  rcases r with e | u
  · exact (refines_pure _).unless
  · exact (refines_onMemory (refines_commitToNative _)).attempt.bind fun _ =>
      (refines_pure _).unless

omit htarget in
theorem refines_dyldStubBinder (nativeProtect : NativeProtect) :
    RefinesMach (dyldStubBinder : DevMachM W Unit)
      (Machine.dyldStubBinder (.android nativeProtect)) := by
  refine RefinesUnless.get_bind fun d => ?_
  rcases d.mach.mem.readU64 d.mach.cpu.sp with e | word
  · exact (refines_onMach _).unless
  dsimp only
  rcases d.mach.lazyBinds.get? (word &&& 0xffffffff) with _ | ⟨symbol, laPtr⟩
  · exact (refines_onMach _).unless
  dsimp only
  rcases d.mach.symbolStubs.get? symbol with _ | resolved
  · exact (refines_onMach _).unless
  · exact (refines_patchLazyPointer nativeProtect laPtr resolved).bind fun _ =>
      (refines_onMach _).unless

theorem refines_serviceTrampoline (env : HostEnvironment W) (addr : U64) :
    RefinesMach (serviceTrampoline env addr)
      (Machine.serviceTrampoline host.build.target env addr) := by
  rw [htarget]
  refine RefinesUnless.get_bind fun d => ?_
  rcases d.mach.trampolines.get? addr with _ | symbol
  · exact (refines_onMach _).unless
  · dsimp only
    split_ifs
    · exact refines_dyldStubBinder nativeProtect
    · exact (refines_onMach _).unless

/-- Seen through the buffers, a turn on device is a turn of the machine, unless a copy faults. -/
theorem refines_turn (env : HostEnvironment W) (event : ExecEvent) :
    RefinesMach (turn nativeProtect host env event) (Machine.turn host env event) := by
  cases event with
  | «syscall» imm =>
    exact (refines_serviceSyscall htarget).bind fun _ => RefinesUnless.get_bind fun _ =>
      (refines_pure _).unless
  | trampolineCall addr =>
    exact (refines_serviceTrampoline htarget env addr).bind fun _ => (refines_pure _).unless
  | exited code => exact (refines_pure _).unless
  | breakpoint imm => exact (refines_pure _).unless
  | fault pc reason => exact (refines_fail _).unless

end Refines

end Device

end IosEmu
