import IosEmu.DeviceService
import IosEmu.NativeBackend

/-!
# Runs on the native backend

The loop of `run` on device : the backend runs the guest in the native pages, and a service works
with both copies of the memory. The backend loses the guest's `x18` every time it resumes it. That
is not seen : services spare it (`mapCpu_turn`), so for a guest that leaves it to the platform,
every run goes as on an executor that loads all registers (`native_run`).
-/

open SysLib

namespace IosEmu

open Prog

/-! ## Registers on device -/

/-- The context with its registers changed. -/
def DeviceCtx.mapCpu (g : CpuContext → CpuContext) (d : DeviceCtx) : DeviceCtx :=
  { d with ctx := d.ctx.mapCpu g }

/-- The machine with its registers changed. -/
def DeviceMachine.mapCpu {W : Type} (g : CpuContext → CpuContext) (d : DeviceMachine W) :
    DeviceMachine W :=
  { d with mach := d.mach.mapCpu g }

namespace Device

variable {W α : Type} {nativeProtect : NativeProtect} {host : Host} {p : Profile}
  {g : CpuContext → CpuContext}

theorem mapCpu_onCtx {x : SysM α} (h : Refines (SyscallCtx.mapCpu g) x x) :
    Refines (DeviceCtx.mapCpu g) (onCtx x) (onCtx x) :=
  h.zoom (fun _ => rfl) fun _ _ => rfl

theorem mapCpu_onMach {x : MachM W α} (h : Refines (Machine.mapCpu g) x x) :
    Refines (DeviceMachine.mapCpu g) (onMach x) (onMach x) :=
  h.zoom (fun _ => rfl) fun _ _ => rfl

theorem mapCpu_onMemory (x : DevM α) :
    Refines (DeviceMachine.mapCpu g) (onMemory x : DevMachM W α) (onMemory x) :=
  Refines.zoom (refines_id x) (by intro _; rfl) (by intro _ _; rfl)

theorem mapCpu_patchLazyPointer (laPtr resolved : U64) :
    Refines (DeviceMachine.mapCpu g) (patchLazyPointer laPtr resolved : DevMachM W Unit)
      (patchLazyPointer laPtr resolved) := by
  refine (mapCpu_onMemory _).attempt.bind fun r => ?_
  rcases r with e | u
  · exact refines_pure _
  · exact (mapCpu_onMemory _).attempt.bind fun _ => refines_pure _

variable (hg : CpuContext.Spares g)

include hg

theorem mapCpu_sysMprotect :
    Refines (DeviceCtx.mapCpu g) (sysMprotect nativeProtect) (sysMprotect nativeProtect) := by
  refine Refines.get_bind fun d => ?_
  dsimp only [DeviceCtx.mapCpu, SyscallCtx.mapCpu]
  rw [hg.arg_eq, hg.arg_eq]
  refine Refines.bind (Refines.mapErr (Refines.zoom (refines_id _) ?_ ?_) _) fun _ =>
    refines_pure _
  · exact fun _ => rfl
  · exact fun _ _ => rfl

theorem mapCpu_handlerOf {vfs : Sandbox} {cls : SyscallClass} {number : U32}
    {handler : DevSysM U64} (h : handlerOf nativeProtect host vfs cls number = some handler) :
    Refines (DeviceCtx.mapCpu g) handler handler := by
  have hrules := sysRules_refines hg
  cases cls with
  | unix =>
    obtain ⟨call, hcall, rfl⟩ := Option.map_eq_some_iff.1 h
    unfold handle
    split_ifs
    · exact mapCpu_sysMprotect hg
    · have hhost : IosEmu.handlerOf host vfs .unix number = some (Unix.handle host vfs call) :=
        Option.map_eq_some_iff.2 ⟨call, hcall, rfl⟩
      exact mapCpu_onCtx (hrules.handlerOf hhost)
  | mach =>
    obtain ⟨trap, htrap, rfl⟩ := Option.map_eq_some_iff.1 h
    have hhost : IosEmu.handlerOf host vfs .mach number = some (Mach.handle host trap) :=
      Option.map_eq_some_iff.2 ⟨trap, htrap, rfl⟩
    exact mapCpu_onCtx (hrules.handlerOf hhost)
  | machDep => cases h
  | diag => cases h

theorem mapCpu_dispatch (vfs : Sandbox) (s : SyscallDispatcher) :
    Refines (DeviceCtx.mapCpu g) (dispatch nativeProtect host vfs s)
      (dispatch nativeProtect host vfs s) := by
  refine (refines_ofChecked _).bind fun serviced => Refines.get_bind fun d => ?_
  dsimp only [DeviceCtx.mapCpu, SyscallCtx.mapCpu]
  rw [hg.x16_eq]
  refine (refines_ofChecked _).bind fun ⟨cls, number⟩ => ?_
  dsimp only
  rcases hh : handlerOf nativeProtect host vfs cls number with _ | handler
  · refine (refines_ofChecked _).bind fun _ => Refines.bind (refines_modify fun d => ?_) fun _ =>
      refines_pure _
    simp only [DeviceCtx.mapCpu, SyscallCtx.mapCpu, hg.setSyscallResult_eq]
  · refine (mapCpu_handlerOf hg hh).attempt.bind fun result =>
      Refines.bind (refines_modify fun d => ?_) fun _ => refines_pure _
    simp only [DeviceCtx.mapCpu, SyscallCtx.mapCpu, hg.setSyscallResult_eq]

theorem mapCpu_serviceSyscall :
    Refines (DeviceMachine.mapCpu g) (serviceSyscall nativeProtect host : DevMachM W Unit)
      (serviceSyscall nativeProtect host) :=
  Refines.get_bind fun _ => Refines.bind (Refines.mapErr (Refines.zoom (mapCpu_dispatch hg _ _)
    (by intro _; rfl) (by intro _ _; rfl)) _) fun _ => refines_modify (by intro _; rfl)

theorem mapCpu_dyldStubBinder :
    Refines (DeviceMachine.mapCpu g) (dyldStubBinder : DevMachM W Unit) dyldStubBinder := by
  refine Refines.get_bind fun d => ?_
  dsimp only [DeviceMachine.mapCpu, Machine.mapCpu]
  rw [hg.sp_eq]
  rcases d.mach.mem.readU64 d.mach.cpu.sp with e | word
  · exact mapCpu_onMach (Machine.refines_returnToCaller hg)
  dsimp only
  rcases d.mach.lazyBinds.get? (word &&& 0xffffffff) with _ | ⟨symbol, laPtr⟩
  · exact mapCpu_onMach (Machine.refines_returnToCaller hg)
  dsimp only
  rcases d.mach.symbolStubs.get? symbol with _ | resolved
  · exact mapCpu_onMach (Machine.refines_returnToCaller hg)
  · refine (mapCpu_patchLazyPointer _ _).bind fun _ => mapCpu_onMach (refines_modify fun m => ?_)
    rw [Machine.mapCpu, Machine.mapCpu, hg.jump_eq]

theorem mapCpu_serviceTrampoline (addr : U64) :
    Refines (DeviceMachine.mapCpu g) (serviceTrampoline (hleEnvironment p) addr)
      (serviceTrampoline (hleEnvironment p) addr) := by
  refine Refines.get_bind fun d => ?_
  dsimp only [DeviceMachine.mapCpu, Machine.mapCpu]
  rcases d.mach.trampolines.get? addr with _ | symbol
  · exact mapCpu_onMach (Machine.refines_returnToCaller hg)
  · dsimp only
    split_ifs
    · exact mapCpu_dyldStubBinder hg
    · exact mapCpu_onMach (Machine.refines_callImport hg p symbol)

/-- Other registers before a turn on device are other registers after it. -/
theorem mapCpu_turn (nativeProtect : NativeProtect) (host : Host) (p : Profile)
    (event : ExecEvent) :
    Refines (DeviceMachine.mapCpu g) (turn nativeProtect host (hleEnvironment p) event)
      (turn nativeProtect host (hleEnvironment p) event) := by
  cases event with
  | «syscall» imm =>
    exact (mapCpu_serviceSyscall hg).bind fun _ => Refines.get_bind fun _ => refines_pure _
  | trampolineCall addr => exact (mapCpu_serviceTrampoline hg addr).bind fun _ => refines_pure _
  | exited code => exact refines_pure _
  | breakpoint imm => exact refines_pure _
  | fault pc reason => exact refines_fail _

end Device

namespace Native

/-! ## Runs -/

variable {E W : Type}

/-- How far a run has come. -/
inductive Progress (E W : Type)
  | running (exec : E) (d : DeviceMachine W)
  | returned (result : EmuResult (BitVec 32)) (d : DeviceMachine W)
  | panicked

/-- The progress, with the registers of the machine changed. -/
def Progress.mapCpu (g : CpuContext → CpuContext) : Progress E W → Progress E W
  | running e d => running e (d.mapCpu g)
  | returned result d => returned result (d.mapCpu g)
  | panicked => panicked

/-- Service what the backend handed back. -/
def serve (p : Profile) (nativeProtect : NativeProtect) (env : HostEnvironment W) (r : Resumed)
    (pages : Pages) (d : DeviceMachine W) :
    Outcome EmuError Panic (DeviceMachine W) (Option (BitVec 32)) :=
  Device.turn nativeProtect ⟨⟨p, .android nativeProtect⟩, r.kernel, r.clock⟩ env r.event
    ⟨{ d.mach with cpu := r.cpu }, pages⟩

/-- The first `n` turns of `run` on device. -/
def runFor (p : Profile) (nativeProtect : NativeProtect) (env : HostEnvironment W)
    (backend : Backend E) : ℕ → E → DeviceMachine W → Progress E W
  | 0, e, d => .running e d
  | n + 1, e, d =>
    let (r, pages, e') := backend.resume e d.pages d.mach.cpu
    match serve p nativeProtect env r pages d with
    | .ok none d' => runFor p nativeProtect env backend n e' d'
    | .ok (some code) d' => .returned (.ok code) d'
    | .err error d' => .returned (.error error) d'
    | .panic _ => .panicked

theorem serve_alike (p : Profile) (nativeProtect : NativeProtect) {r r' : Resumed}
    {d d' : DeviceMachine ObjcRuntime} (hr : SameEvent r r')
    (hd : d'.mapCpu (CpuContext.setX18 0) = d.mapCpu (CpuContext.setX18 0)) (pages : Pages) :
    (serve p nativeProtect (hleEnvironment p) r' pages d').mapState
        (DeviceMachine.mapCpu (CpuContext.setX18 0)) =
      (serve p nativeProtect (hleEnvironment p) r pages d).mapState
        (DeviceMachine.mapCpu (CpuContext.setX18 0)) := by
  have hmach : d'.mach.mapCpu (CpuContext.setX18 0) = d.mach.mapCpu (CpuContext.setX18 0) :=
    congrArg DeviceMachine.mach hd
  have henter : (⟨{ d'.mach with cpu := r'.cpu }, pages⟩ : DeviceMachine ObjcRuntime).mapCpu
        (CpuContext.setX18 0) =
      (⟨{ d.mach with cpu := r.cpu }, pages⟩ : DeviceMachine ObjcRuntime).mapCpu
        (CpuContext.setX18 0) := by
    refine congrArg (fun mach => (⟨mach, pages⟩ : DeviceMachine ObjcRuntime)) ?_
    change { d'.mach.mapCpu (CpuContext.setX18 0) with cpu := r'.cpu.setX18 0 } =
      { d.mach.mapCpu (CpuContext.setX18 0) with cpu := r.cpu.setX18 0 }
    rw [hmach, hr.cpu_eq]
  have hturn := fun host => Device.mapCpu_turn (CpuContext.spares_setX18 0) nativeProtect host p
    r.event
  unfold serve
  rw [hr.event_eq, hr.kernel_eq, hr.clock_eq, hturn _ _, hturn _ _, henter]

/-- Losing `x18` is not seen : every run of a guest that leaves it to the platform goes as on an
executor that loads all registers. -/
theorem native_run (p : Profile) (nativeProtect : NativeProtect) (tramp : U64 × U64)
    (proc : Processor E) (hproc : SparesX18 proc) (n : ℕ) (e : E)
    (d d' : DeviceMachine ObjcRuntime)
    (hd : d'.mapCpu (CpuContext.setX18 0) = d.mapCpu (CpuContext.setX18 0)) :
    (runFor p nativeProtect (hleEnvironment p) (dedicated tramp proc) n e d').mapCpu
        (CpuContext.setX18 0) =
      (runFor p nativeProtect (hleEnvironment p) (native tramp proc) n e d).mapCpu
        (CpuContext.setX18 0) := by
  induction n generalizing e d d' with
  | zero => exact congrArg (Progress.running e) hd
  | succ n ih =>
    have hpages : (d'.mapCpu (CpuContext.setX18 0)).pages =
        (d.mapCpu (CpuContext.setX18 0)).pages := by rw [hd]
    change d'.pages = d.pages at hpages
    have hcpu : d'.mach.cpu.setX18 0 = d.mach.cpu.setX18 0 :=
      congrArg (fun d => d.mach.cpu) hd
    obtain ⟨hevent, hrest⟩ := resume_alike tramp hproc e d.pages hcpu
    unfold runFor
    rw [hpages]
    rcases hr : (native tramp proc).resume e d.pages d.mach.cpu with ⟨r, pages, e₁⟩
    rcases hr' : (dedicated tramp proc).resume e d.pages d'.mach.cpu with ⟨r', pages', e₁'⟩
    rw [hr, hr'] at hevent hrest
    obtain ⟨rfl, rfl⟩ := Prod.mk.inj hrest
    have hserve := serve_alike p nativeProtect hevent hd pages'
    dsimp only at hserve ⊢
    generalize serve p nativeProtect (hleEnvironment p) r pages' d = out at hserve ⊢
    generalize serve p nativeProtect (hleEnvironment p) r' pages' d' = out' at hserve ⊢
    rcases out with ⟨code, d₁⟩ | ⟨error, d₁⟩ | e
    · rcases out' with ⟨code', d₁'⟩ | ⟨error', d₁'⟩ | e'
      · obtain ⟨rfl, hd₁⟩ := Outcome.ok.inj hserve
        cases code' with
        | none => exact ih _ _ _ hd₁
        | some code => exact congrArg (Progress.returned _) hd₁
      · cases hserve
      · cases hserve
    · rcases out' with ⟨code', d₁'⟩ | ⟨error', d₁'⟩ | e'
      · cases hserve
      · obtain ⟨rfl, hd₁⟩ := Outcome.err.inj hserve
        exact congrArg (Progress.returned _) hd₁
      · cases hserve
    · rcases out' with ⟨code', d₁'⟩ | ⟨error', d₁'⟩ | e'
      · cases hserve
      · cases hserve
      · rfl

/-- A processor whose guest asks for its process id twice and then calls `exit(7)` : the marker is at
its program counter, and `x18` is what it was resumed with. -/
def exiting : Processor ℕ where
  run turn pages hw :=
    (⟨false, brkEncode syscallMarker⟩,
      { hw with
        x := fun i =>
          if i.val = 16 then if turn < 2 then 20 else 1
          else if i.val = 0 then 7
          else hw.x i },
      pages, turn + 1)
  host _ := ⟨fun _ => 0, 0, 0, 0⟩
  base _ := 0x7000
  kernel _ := .willing
  clock _ := none

theorem sparesX18_exiting : SparesX18 exiting := by
  refine fun e pages hw hw' h => ⟨rfl, ⟨fun i hi => ?_, h.sp_eq, h.pc_eq, h.pstate_eq⟩, rfl⟩
  unfold exiting
  dsimp only
  rw [h.x_eq i hi]

/-- Three turns, from machines that differ in `x18`. -/
theorem native_run_exiting :
    (∃ d, runFor .release (fun _ _ _ => 0) (hleEnvironment .release) (native (0, 0) exiting) 3 0
        ⟨plainMachine, .unreserved⟩ = .returned (.ok 7) d) ∧
      (runFor .release (fun _ _ _ => 0) (hleEnvironment .release) (dedicated (0, 0) exiting) 3 0
          ⟨plainMachine.mapCpu (CpuContext.setX18 5), .unreserved⟩).mapCpu (CpuContext.setX18 0) =
        (runFor .release (fun _ _ _ => 0) (hleEnvironment .release) (native (0, 0) exiting) 3 0
          ⟨plainMachine, .unreserved⟩).mapCpu (CpuContext.setX18 0) := by
  refine ⟨⟨_, rfl⟩, native_run _ _ _ _ sparesX18_exiting _ _ _ _ ?_⟩
  have hcpu : (plainMachine.cpu.setX18 5).setX18 0 = plainMachine.cpu.setX18 0 :=
    setX18_eq_iff.2 (by simp [CpuContext.setX18])
  exact congrArg (fun cpu => (⟨{ plainMachine with cpu }, .unreserved⟩ : DeviceMachine ObjcRuntime))
    hcpu

end Native

end IosEmu
