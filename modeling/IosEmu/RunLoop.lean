import IosEmu.Safe
import IosEmu.Services

/-!
# The run loop

`run` resumes the executor, services the event it hands back, and goes on until the process is
over. An executor is any program over a state of its own and the registers, so what it hands
back is arbitrary; it comes with the answers of the kernel and the clock to the service. The
loop need not end, and `runFor` is its first turns.

The exit code of a process is a field of the machine that the handler of `exit` sets and that
the loop looks at after every system call. Nothing clears it, and `resetToEntry` does not
either. So a run on a machine that has exited before stops at its first system call, whatever
it is (`stops_iff`).
-/

open SysLib

namespace IosEmu

/-! ## Runs -/

/-- What `resume` hands back : the event and the registers, and the answers of the kernel and
the clock while it is serviced. -/
structure Resumed where
  event : ExecEvent
  cpu : CpuContext
  kernel : Kernel
  clock : Option Clock

/-- An executor with state `E`. -/
structure Executor (E : Type) where
  resume : E → CpuContext → Resumed × E

/-- How far a run has come. A run that has returned knows what it was resumed with last. -/
inductive Progress (E W : Type)
  | running (exec : E) (mach : Machine W)
  | returned (last : Resumed) (result : EmuResult (BitVec 32)) (mach : Machine W)
  | panicked

namespace Machine

variable {E W : Type}

/-- Service what the executor handed back. -/
def serve (b : Build) (env : HostEnvironment W) (r : Resumed) (mach : Machine W) :
    Outcome EmuError Panic (Machine W) (Option (BitVec 32)) :=
  turn ⟨b, r.kernel, r.clock⟩ env r.event { mach with cpu := r.cpu }

/-- The first `n` turns of `run`. -/
def runFor (b : Build) (env : HostEnvironment W) (exec : Executor E) :
    ℕ → E → Machine W → Progress E W
  | 0, e, mach => .running e mach
  | n + 1, e, mach =>
    let (r, e') := exec.resume e mach.cpu
    match mach.serve b env r with
    | .ok none mach' => runFor b env exec n e' mach'
    | .ok (some code) mach' => .returned r (.ok code) mach'
    | .err error mach' => .returned r (.error error) mach'
    | .panic _ => .panicked

/-- Reset the registers to the entry of the process. -/
def resetToEntry (mach : Machine W) : Machine W :=
  { mach with cpu := CpuContext.entry mach.entry mach.sp mach.argRegs }

/-- The machines that a loaded one becomes by calls of `run` and `resetToEntry`, with what each
run was resumed with last. -/
inductive Session (b : Build) (env : HostEnvironment W) (loaded : Machine W) :
    List Resumed → Machine W → Prop
  | start : Session b env loaded [] loaded
  | reset {ended : List Resumed} {mach : Machine W} :
      Session b env loaded ended mach → Session b env loaded ended mach.resetToEntry
  | run {ended : List Resumed} {mach mach' : Machine W} {E : Type} (exec : Executor E) (e : E)
      (n : ℕ) {last : Resumed} {result : EmuResult (BitVec 32)} :
      Session b env loaded ended mach →
      runFor b env exec n e mach = .returned last result mach' →
      Session b env loaded (last :: ended) mach'

end Machine

/-- The selector is that of `exit`. -/
def CpuContext.CallsExit (p : Profile) (cpu : CpuContext) : Prop :=
  ∃ number, decode p (cpu.x 16) = .ok (.unix, number) ∧ Unix.Call.ofNumber number = some .exit

/-- The event is a system call of `exit`. -/
def Resumed.IsExit (p : Profile) (r : Resumed) : Prop :=
  (∃ imm, r.event = .syscall imm) ∧ r.cpu.CallsExit p

/-! ## The exit code -/

section Exit

open SyscallCtx

variable {α : Type} {host : Host} {vfs : Sandbox}

theorem keepsExit_onMem {errno : U32} (x : MemM α) :
    (onMem errno x).Steps (InvImage Eq SyscallCtx.exit) :=
  Prog.Steps.mapErr (Prog.steps_zoom_of_eq x (by intro _ _; rfl)) _

/-- Only the handler of `exit` touches the exit code. -/
theorem keepsExit_handle {call : Unix.Call} (hexit : call ≠ .exit) :
    (Unix.handle host vfs call).Steps (InvImage Eq SyscallCtx.exit) := by
  cases call with
  | exit => exact absurd rfl hexit
  | read =>
    exact Prog.steps_get.bind fun c => (Prog.steps_ofChecked _).bind fun _ =>
      (steps_readBytes _ _ _).bind fun _ => (keepsExit_onMem _).bind fun _ => Prog.steps_pure _
  | write =>
    exact Prog.steps_get.bind fun c => (Prog.steps_ofChecked _).bind fun _ =>
      steps_readMem.bind fun _ => steps_writeBytes _ _ _
  | writev => exact Prog.steps_get.bind fun c => steps_writevFrom _ _ _ _ _ _
  | openFile => exact steps_sysOpen host vfs
  | close => exact steps_sysClose
  | lseek => exact steps_sysLseek host
  | access => exact steps_sysAccess host vfs
  | mmap =>
    refine Prog.steps_get.bind fun c => ?_
    split_ifs
    · exact Prog.steps_fail _
    · exact keepsExit_onMem _
  | mprotect =>
    exact Prog.steps_get.bind fun c => (keepsExit_onMem _).bind fun _ => Prog.steps_pure _
  | gettimeofday =>
    refine Prog.steps_get.bind fun c => ?_
    dsimp only
    split_ifs
    · exact Prog.steps_pure _
    · exact (keepsExit_onMem _).bind fun _ => (keepsExit_onMem _).bind fun _ =>
        Prog.steps_pure _
  | getentropy =>
    refine Prog.steps_get.bind fun c => ?_
    dsimp only
    split_ifs
    · exact Prog.steps_fail _
    · exact (keepsExit_onMem _).bind fun _ => Prog.steps_pure _
  | munmap | madvise | getpid | getuid | getgid | issetugid | fcntl => exact Prog.steps_pure _

theorem keepsExit_trap (trap : Mach.Trap) :
    (Mach.handle host trap).Steps (InvImage Eq SyscallCtx.exit) := by
  cases trap with
  | vmAllocate =>
    refine Prog.steps_get.bind fun c => (keepsExit_onMem _).attempt.bind fun base => ?_
    rcases base with e | base
    · exact Prog.steps_pure _
    · refine (keepsExit_onMem _).attempt.bind fun r => ?_
      rcases r with e | u
      · exact Prog.steps_pure _
      · exact Prog.steps_pure _
  | taskSelf | hostSelf | threadSelf | replyPort | msg | semaphore | vmDeallocate =>
    exact Prog.steps_pure _

end Exit

namespace Machine

variable {W : Type} {host : Host} {mach mach' : Machine W}

/-- A call of `exit` sets the exit code. -/
theorem exit_of_callsExit (hexit : mach.cpu.CallsExit host.build.profile)
    (h : serviceSyscall host mach = .ok () mach') :
    mach'.exit = some ((mach.cpu.arg 0).setWidth 32) := by
  obtain ⟨number, hdecode, hcall⟩ := hexit
  obtain ⟨cls, number', d, hdecode', hrun⟩ := answer_of_serviceSyscall h
  obtain ⟨rfl, rfl⟩ := Prod.mk.inj (Except.ok.inj (hdecode.symm.trans hdecode'))
  have hhandler : handlerOf host mach.vfs .unix number = some Unix.sysExit := by
    rw [handlerOf, hcall]
    rfl
  rcases hrun with ⟨hnone, -⟩ | ⟨handler, hh, hrun⟩
  · cases hhandler.symm.trans hnone
  · obtain rfl := Option.some.inj (hhandler.symm.trans hh)
    rcases hrun with ⟨v, c, hv, rfl⟩ | ⟨e, c, he, -⟩
    · obtain ⟨-, rfl⟩ := Outcome.ok.inj hv
      rfl
    · cases he

/-- Every other call keeps it. -/
theorem exit_of_not_callsExit (hexit : ¬mach.cpu.CallsExit host.build.profile)
    (h : serviceSyscall host mach = .ok () mach') : mach'.exit = mach.exit := by
  obtain ⟨cls, number, d, hdecode, ⟨-, rfl⟩ | ⟨handler, hh, hrun⟩⟩ := answer_of_serviceSyscall h
  · rfl
  have hsteps : handler.Steps (InvImage Eq SyscallCtx.exit) := by
    cases cls with
    | unix =>
      obtain ⟨call, hcall, rfl⟩ := Option.map_eq_some_iff.1 hh
      refine keepsExit_handle ?_
      rintro rfl
      exact hexit ⟨number, hdecode, hcall⟩
    | mach =>
      obtain ⟨trap, -, rfl⟩ := Option.map_eq_some_iff.1 hh
      exact keepsExit_trap trap
    | machDep => cases hh
    | diag => cases hh
  rcases hrun with ⟨v, c, hv, rfl⟩ | ⟨e, c, he, rfl⟩
  · exact (hsteps.ok hv).symm
  · exact (hsteps.err he).symm

/-- A call of a trampoline keeps it, whatever the environment does. -/
theorem exit_of_serviceTrampoline {target : Target} {env : HostEnvironment W} {addr : U64} :
    (serviceTrampoline target env addr).Steps (InvImage Eq Machine.exit) := by
  have hreturn : (returnToCaller : MachM W Unit).Steps (InvImage Eq Machine.exit) :=
    Prog.steps_modify_of_eq fun _ => rfl
  have hmem : ∀ {α : Type} (x : MemM α),
      (onMem x : MachM W α).Steps (InvImage Eq Machine.exit) :=
    fun x => Prog.steps_zoom_of_eq x fun _ _ => rfl
  refine Prog.steps_get.bind fun mach => ?_
  split
  · exact hreturn
  split_ifs
  · refine Prog.steps_get.bind fun mach => ?_
    split
    · exact hreturn
    split
    · exact hreturn
    split
    · exact hreturn
    · refine Prog.Steps.bind ?_ fun _ => Prog.steps_modify_of_eq fun _ => rfl
      refine (hmem _).attempt.bind fun r => ?_
      rcases r with e | u
      · exact Prog.steps_pure _
      · exact (hmem _).attempt.bind fun _ => Prog.steps_pure _
  · refine Prog.steps_get.bind fun mach => Prog.Steps.bind
      (Prog.Steps.mapErr (Prog.steps_zoom_of_eq _ (by intro _ _; rfl)) _) fun disp => ?_
    split_ifs
    · exact Prog.Steps.bind (Prog.steps_modify_of_eq fun _ => rfl) fun _ => hreturn
    · exact hreturn

/-! ## Stopping -/

variable {b : Build} {env : HostEnvironment W} {r : Resumed}

theorem infallible_serviceSyscall : (serviceSyscall host : MachM W Unit).Infallible := by
  intro mach e mach' h
  rw [serviceSyscall_eq] at h
  rcases hd : dispatch host mach.vfs mach.dispatcher mach.syscallCtx with
    ⟨d, c⟩ | ⟨e', c⟩ | e' <;> simp only [hd] at h
  · cases h
  · exact e'.elim
  · cases h

/-- A system call leaves an exit code behind, and the loop stops with it. -/
theorem serve_syscall {imm : BitVec 16} {cpu : CpuContext} {kernel : Kernel}
    {clock : Option Clock} {mach' : Machine W}
    (h : (mach.serve b env ⟨.syscall imm, cpu, kernel, clock⟩).state? = some mach') :
    serviceSyscall ⟨b, kernel, clock⟩ { mach with cpu } = .ok () mach' ∧
      mach.serve b env ⟨.syscall imm, cpu, kernel, clock⟩ = .ok mach'.exit mach' := by
  change ((serviceSyscall ⟨b, kernel, clock⟩ >>= fun _ => Prog.get >>= fun mach =>
    pure mach.exit) { mach with cpu }).state? = some mach' at h
  rcases Prog.state?_bind_eq_some h with ⟨⟨⟩, mach₁, hsys, h⟩ | ⟨e, herr⟩
  · obtain rfl := Option.some.inj h
    exact ⟨hsys, Prog.bind_eq_ok.2 ⟨(), mach₁, hsys, rfl⟩⟩
  · exact absurd herr (infallible_serviceSyscall _ _ _)

/-- A turn sets the exit code if it is a call of `exit`, and keeps it otherwise. -/
theorem exit_of_serve (h : (mach.serve b env r).state? = some mach') :
    (r.IsExit b.profile → mach'.exit = some ((r.cpu.arg 0).setWidth 32)) ∧
      (¬r.IsExit b.profile → mach'.exit = mach.exit) := by
  obtain ⟨event, cpu, kernel, clock⟩ := r
  have hother : (∀ imm, event ≠ .syscall imm) →
      ¬Resumed.IsExit b.profile ⟨event, cpu, kernel, clock⟩ :=
    fun hne hexit => hexit.1.elim fun imm himm => hne imm himm
  cases event with
  | «syscall» imm =>
    have hsys := (serve_syscall h).1
    refine ⟨fun hexit => ?_, fun hexit => ?_⟩
    · exact @exit_of_callsExit W ⟨b, kernel, clock⟩ { mach with cpu } mach' hexit.2 hsys
    · exact @exit_of_not_callsExit W ⟨b, kernel, clock⟩ { mach with cpu } mach'
        (fun hcalls => hexit ⟨⟨imm, rfl⟩, hcalls⟩) hsys
  | trampolineCall addr =>
    refine ⟨fun hexit => absurd hexit (hother fun _ h => by cases h), fun _ => ?_⟩
    have hsteps := @exit_of_serviceTrampoline W b.target env addr
    exact ((hsteps.bind fun _ => Prog.steps_pure none) _ _ h).symm
  | exited code | breakpoint imm | fault pc reason =>
    obtain rfl := Option.some.inj h
    exact ⟨fun hexit => absurd hexit (hother fun _ h => by cases h), fun _ => rfl⟩

/-- A turn that lets the loop go on keeps the exit code. -/
theorem exit_of_serve_none (h : mach.serve b env r = .ok none mach') :
    mach'.exit = mach.exit := by
  have hstate : (mach.serve b env r).state? = some mach' := by
    rw [h]
    rfl
  obtain ⟨hset, hkeep⟩ := exit_of_serve hstate
  refine hkeep fun hexit => ?_
  obtain ⟨event, cpu, kernel, clock⟩ := r
  obtain ⟨⟨imm, rfl⟩, -⟩ := id hexit
  have hres := (serve_syscall hstate).2
  rw [h, hset hexit] at hres
  cases hres

variable {E : Type} {exec : Executor E}

/-- A run that is still going on has not changed the exit code. -/
theorem exit_of_running : ∀ {n : ℕ} {e e' : E} {mach mach' : Machine W},
    runFor b env exec n e mach = .running e' mach' → mach'.exit = mach.exit
  | 0, _, _, _, _, h => by
    obtain ⟨-, rfl⟩ := Progress.running.inj h
    rfl
  | n + 1, e, _, mach, _, h => by
    rw [runFor] at h
    dsimp only at h
    rcases hserve : mach.serve b env (exec.resume e mach.cpu).1 with
      ⟨code | code, mach₁⟩ | ⟨error, mach₁⟩ | error <;> simp only [hserve] at h
    · exact (exit_of_running h).trans (exit_of_serve_none hserve)
    · cases h
    · cases h
    · cases h

/-- A run that has returned has an exit code exactly if there was one before or it was resumed
last with a call of `exit`. -/
theorem exit_of_returned : ∀ {n : ℕ} {e : E} {mach mach' : Machine W} {last : Resumed}
    {result : EmuResult (BitVec 32)},
    runFor b env exec n e mach = .returned last result mach' →
      (mach'.exit = none ↔ mach.exit = none ∧ ¬last.IsExit b.profile)
  | 0, _, _, _, _, _, h => by cases h
  | n + 1, e, mach, mach', last, result, h => by
    rw [runFor] at h
    dsimp only at h
    have hlast : ∀ {r : Resumed}, (mach.serve b env r).state? = some mach' →
        (mach'.exit = none ↔ mach.exit = none ∧ ¬r.IsExit b.profile) := by
      intro r hstate
      obtain ⟨hset, hkeep⟩ := exit_of_serve hstate
      by_cases hexit : r.IsExit b.profile
      · rw [hset hexit]
        exact iff_of_false (Option.some_ne_none _) fun hno => hno.2 hexit
      · rw [hkeep hexit]
        exact ⟨fun hnone => ⟨hnone, hexit⟩, fun hnone => hnone.1⟩
    rcases hserve : mach.serve b env (exec.resume e mach.cpu).1 with
      ⟨code | code, mach₁⟩ | ⟨error, mach₁⟩ | error <;> simp only [hserve] at h
    · rw [exit_of_returned h, exit_of_serve_none hserve]
    · obtain ⟨rfl, -, rfl⟩ := Progress.returned.inj h
      exact hlast (by rw [hserve]; rfl)
    · obtain ⟨rfl, -, rfl⟩ := Progress.returned.inj h
      exact hlast (by rw [hserve]; rfl)
    · cases h

/-- In a session the machine has no exit code exactly if no run has ended with a call of
`exit`. -/
theorem Session.exit_eq_none_iff {loaded : Machine W} {ended : List Resumed}
    (hloaded : loaded.exit = none) (h : Session b env loaded ended mach) :
    mach.exit = none ↔ ∀ r ∈ ended, ¬r.IsExit b.profile := by
  induction h with
  | start => simp [hloaded]
  | reset _ ih => exact ih
  | run exec e n _ hrun ih => rw [exit_of_returned hrun, ih, List.forall_mem_cons, and_comm]

/-- A run that has come so far goes on with what the executor hands back next. -/
theorem runFor_succ : ∀ {n : ℕ} {e e' : E} {mach mach' : Machine W},
    runFor b env exec n e mach = .running e' mach' →
      runFor b env exec (n + 1) e mach = runFor b env exec 1 e' mach'
  | 0, _, _, _, _, h => by
    obtain ⟨rfl, rfl⟩ := Progress.running.inj h
    rfl
  | n + 1, e, _, mach, _, h => by
    rw [runFor] at h ⊢
    dsimp only at h ⊢
    rcases hserve : mach.serve b env (exec.resume e mach.cpu).1 with
      ⟨code | code, mach₁⟩ | ⟨error, mach₁⟩ | error <;> simp only [hserve] at h ⊢
    · exact runFor_succ h
    · cases h
    · cases h
    · cases h

/-- In every session, a run that comes to a system call returns only for `exit`, with the code
in `x0`, and goes on after every other call : exactly if no earlier run has ended with `exit`,
or the call is one of `exit` itself. -/
theorem stops_iff {os : Reservations} {cfg : MachineConfig} {bytes : List U8} {vfs : Sandbox}
    {fs : HostFs} {world : W} {loaded : Machine W}
    (hload : load b os cfg bytes vfs fs world = .ok loaded ()) {ended : List Resumed}
    (hsession : Session b env loaded ended mach) {n : ℕ} {e e' e₁ : E}
    (hrun : runFor b env exec n e mach = .running e' mach') {imm : BitVec 16}
    (hr : exec.resume e' mach'.cpu = (r, e₁)) (hevent : r.event = .syscall imm)
    (hsafe : runFor b env exec (n + 1) e mach ≠ .panicked) :
    ((∀ code mach₂, runFor b env exec (n + 1) e mach = .returned r (.ok code) mach₂ →
        r.cpu.CallsExit b.profile ∧ code = (r.cpu.arg 0).setWidth 32) ∧
      (¬r.cpu.CallsExit b.profile →
        ∃ e₂ mach₂, runFor b env exec (n + 1) e mach = .running e₂ mach₂)) ↔
      (∀ r' ∈ ended, ¬r'.IsExit b.profile) ∨ r.cpu.CallsExit b.profile := by
  obtain ⟨image, m₀, -, -, layout, m₁, proc, m₂, -, -, rfl⟩ := load_eq_ok.1 hload
  rw [← hsession.exit_eq_none_iff rfl, ← exit_of_running hrun]
  rw [runFor_succ hrun, runFor, hr] at hsafe ⊢
  dsimp only at hsafe ⊢
  obtain ⟨event, cpu, kernel, clock⟩ := r
  obtain rfl : event = .syscall imm := hevent
  rcases hserve : (mach'.serve b env ⟨.syscall imm, cpu, kernel, clock⟩).state? with _ | mach₂
  · rcases hs : mach'.serve b env ⟨.syscall imm, cpu, kernel, clock⟩ with ⟨c, m⟩ | ⟨c, m⟩ | c <;>
      simp only [hs, Outcome.state?, reduceCtorEq, ne_eq, not_true_eq_false] at hserve hsafe
  obtain ⟨hset, hkeep⟩ := exit_of_serve hserve
  rw [(serve_syscall hserve).2]
  by_cases hcalls : cpu.CallsExit b.profile
  · rw [hset ⟨⟨imm, rfl⟩, hcalls⟩]
    refine iff_of_true ⟨?_, fun hno => absurd hcalls hno⟩ (Or.inr hcalls)
    intro code mach₃ hret
    obtain ⟨-, hcode, -⟩ := Progress.returned.inj hret
    exact ⟨hcalls, (Except.ok.inj hcode).symm⟩
  · rw [hkeep fun hexit => hcalls hexit.2]
    rcases mach'.exit with _ | code
    · refine iff_of_true ⟨?_, fun _ => ⟨_, _, rfl⟩⟩ (Or.inl rfl)
      intro code mach₃ hret
      cases hret
    · refine iff_of_false ?_ ?_
      · rintro ⟨hret, -⟩
        exact hcalls (hret code mach₂ rfl).1
      · rintro (hnone | hex)
        · cases hnone
        · exact hcalls hex

/-! ## A process that is run again -/

/-- An executor that always hands back the same. -/
def always (r : Resumed) : Executor Unit :=
  ⟨fun _ _ => (r, ())⟩

/-- A system call with a selector and one argument. -/
def callOf (selector x0 : U64) : Resumed where
  event := .syscall 0x80
  cpu := { CpuContext.default with
    x := fun i => if i = 16 then selector else if i = 0 then x0 else 0 }
  kernel := .willing
  clock := none

/-- A run of such a call whose handler returns ends its first turn with the exit code that the
handler leaves. -/
theorem runFor_callOf {target : Target} {env : HostEnvironment W} {selector x0 v : U64}
    {cls : SyscallClass} {number : U32} {handler : SysM U64} {c : SyscallCtx} {code : BitVec 32}
    (hdecode : decode .release selector = .ok (cls, number))
    (hh : handlerOf ⟨⟨.release, target⟩, .willing, none⟩ mach.vfs cls number = some handler)
    (hrun : handler { mach with cpu := (callOf selector x0).cpu }.syscallCtx = .ok v c)
    (hcode : c.exit = some code) :
    ∃ mach', runFor ⟨.release, target⟩ env (always (callOf selector x0)) 1 () mach =
      .returned (callOf selector x0) (.ok code) mach' ∧ mach'.exit = some code := by
  have hselector : { mach with cpu := (callOf selector x0).cpu }.syscallCtx.cpu.x 16 = selector := by
    simp only [syscallCtx, callOf, if_pos]
  have hdispatch := @dispatch_of_handler ⟨⟨.release, target⟩, .willing, none⟩ mach.vfs
    mach.dispatcher { mach with cpu := (callOf selector x0).cpu }.syscallCtx _ cls number handler
    (Profile.add_release _ _) (by rw [hselector]; exact hdecode) hh
  simp only [hrun] at hdispatch
  have hserve : ∃ mach', mach.serve ⟨.release, target⟩ env (callOf selector x0) =
      .ok (some code) mach' ∧ mach'.exit = some code := by
    unfold serve callOf turn
    dsimp only
    rw [Prog.bind_apply, serviceSyscall_eq]
    simp only [callOf] at hdispatch
    rw [hdispatch]
    simp only [Prog.get_bind, Prog.pure_apply, hcode]
    exact ⟨_, rfl, rfl⟩
  obtain ⟨mach', hs, hexit⟩ := hserve
  refine ⟨mach', ?_, hexit⟩
  unfold runFor always
  simp only [hs]

/-- The first run of a process ends with `exit(42)`. -/
theorem stops_iff_importFile :
    ∃ loaded mach', load ⟨.release, .host⟩ ⟨0, 0, 0⟩ .default importFile importSandbox
        ⟨fun _ => none⟩ ObjcRuntime.new = .ok loaded () ∧
      runFor ⟨.release, .host⟩ (hleEnvironment .release) (always (callOf 1 42)) 1 () loaded =
        .returned (callOf 1 42) (.ok 42) mach' ∧
      (callOf 1 42).cpu.CallsExit .release ∧
      (42 : BitVec 32) = ((callOf 1 42).cpu.arg 0).setWidth 32 := by
  obtain ⟨loaded, hload⟩ := load_importFile
  obtain ⟨mach', hrun, -⟩ := @runFor_callOf _ loaded .host (hleEnvironment .release) 1 42 0 .unix
    1 Unix.sysExit { { loaded with cpu := (callOf 1 42).cpu }.syscallCtx with exit := some 42 } 42
    rfl rfl rfl rfl
  have hstart : runFor ⟨.release, .host⟩ (hleEnvironment .release) (always (callOf 1 42)) 0 ()
      loaded = .running () loaded := rfl
  have hresume : (always (callOf 1 42)).resume () loaded.cpu = (callOf 1 42, ()) := rfl
  have hevent : (callOf 1 42).event = .syscall 0x80 := rfl
  have hstops := stops_iff hload .start hstart hresume hevent (by rw [hrun]; rintro ⟨⟩)
  have hnone : ∀ r' ∈ ([] : List Resumed), ¬r'.IsExit .release := fun r' hr' => by cases hr'
  exact ⟨loaded, mach', hload, hrun, (hstops.2 (Or.inl hnone)).1 42 mach' hrun⟩

/-- After `exit(42)` and `resetToEntry`, the next run returns 42 when the process calls
`getpid`. -/
theorem getpid_stops :
    ∃ loaded ended mach mach', load ⟨.release, .host⟩ ⟨0, 0, 0⟩ .default importFile importSandbox
        ⟨fun _ => none⟩ ObjcRuntime.new = .ok loaded () ∧
      Session ⟨.release, .host⟩ (hleEnvironment .release) loaded ended mach ∧
      runFor ⟨.release, .host⟩ (hleEnvironment .release) (always (callOf 20 0)) 1 () mach =
        .returned (callOf 20 0) (.ok 42) mach' ∧
      ¬(callOf 20 0).cpu.CallsExit .release := by
  obtain ⟨loaded, hload⟩ := load_importFile
  obtain ⟨mach₁, hrun₁, hexit⟩ := @runFor_callOf _ loaded .host (hleEnvironment .release) 1 42
    0 .unix 1 Unix.sysExit
    { { loaded with cpu := (callOf 1 42).cpu }.syscallCtx with exit := some 42 } 42 rfl rfl rfl rfl
  obtain ⟨mach₂, hrun₂, -⟩ := @runFor_callOf _ mach₁.resetToEntry .host (hleEnvironment .release)
    20 0 1 .unix 20 (pure 1) { mach₁.resetToEntry with cpu := (callOf 20 0).cpu }.syscallCtx 42
    rfl rfl rfl hexit
  refine ⟨loaded, _, mach₁.resetToEntry, mach₂, hload, .reset (.run _ () 1 .start hrun₁), hrun₂, ?_⟩
  rintro ⟨number, hdecode, hcall⟩
  have hdecode' : decode .release ((callOf 20 0).cpu.x 16) = .ok (.unix, 20) := rfl
  obtain ⟨-, rfl⟩ := Prod.mk.inj (Except.ok.inj (hdecode'.symm.trans hdecode))
  cases hcall

end Machine

end IosEmu
