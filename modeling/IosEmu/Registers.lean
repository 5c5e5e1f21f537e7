import IosEmu.LazyBinder
import IosEmu.Refine
import IosEmu.Services

/-!
# The registers of a service

A service works with the registers of a call : `x0` to `x7`, the selector in `x16`, the stack
pointer, the link register, the program counter and the flags. All others, the callee-saved ones
among them, it neither looks at nor touches : it commutes with every change of them
(`CpuContext.Spares`), so runs that differ in them differ in nothing else (`services_blind`). Of
the registers of a call it changes those that answer it (`service_registers`).

Both are about all shims and all handlers. `ShimRules` and `SysRules` list the calls these are
made of, `CallRules` those the two have in common : what holds of the calls and goes through
sequences holds of every shim and handler.
-/

open SysLib

namespace IosEmu

/-! ## Registers apart -/

namespace CpuContext

/-- A change of the registers that those of a call have no part in. -/
structure Spares (g : CpuContext → CpuContext) : Prop where
  arg_eq : ∀ cpu n, (g cpu).arg n = cpu.arg n
  x16_eq : ∀ cpu, (g cpu).x 16 = cpu.x 16
  lr_eq : ∀ cpu, (g cpu).lr = cpu.lr
  sp_eq : ∀ cpu, (g cpu).sp = cpu.sp
  setRet_eq : ∀ cpu v, (g cpu).setRet v = g (cpu.setRet v)
  setSyscallResult_eq : ∀ cpu r, (g cpu).setSyscallResult r = g (cpu.setSyscallResult r)
  return_eq : ∀ cpu pc, { g cpu with pc } = g { cpu with pc }
  jump_eq : ∀ cpu sp pc, { g cpu with sp, pc } = g { cpu with sp, pc }

/-- The registers of a call from `cpu`, and all others from `rest`. -/
def withRest (cpu rest : CpuContext) : CpuContext :=
  { cpu with
    x := fun i => if i.val < 8 ∨ i.val = 16 then cpu.x i else rest.x i
    fp := rest.fp
    tpidrroEl0 := rest.tpidrroEl0 }

section WithRest

variable (cpu rest : CpuContext)

theorem withRest_withRest (cpu' : CpuContext) :
    cpu.withRest (cpu'.withRest rest) = cpu.withRest rest := by
  have hx : (cpu.withRest (cpu'.withRest rest)).x = (cpu.withRest rest).x := by
    ext1 i
    unfold withRest
    dsimp only
    split_ifs <;> rfl
  exact congrArg (fun x => { cpu.withRest rest with x }) hx

theorem update_withRest (v : U64) :
    Function.update (cpu.withRest rest).x 0 v =
      fun i : Fin 29 =>
        if i.val < 8 ∨ i.val = 16 then Function.update cpu.x 0 v i else rest.x i := by
  ext1 i
  by_cases hi : i = 0
  · subst hi
    rw [Function.update_self, Function.update_self, if_pos (Or.inl (by decide))]
  · rw [Function.update_of_ne hi, Function.update_of_ne hi]
    rfl

theorem spares_withRest : Spares fun cpu => cpu.withRest rest where
  arg_eq _ n := if_pos (Or.inl n.isLt)
  x16_eq cpu := by
    unfold withRest
    dsimp only
    rw [if_pos (Or.inr (by decide))]
  lr_eq _ := rfl
  sp_eq _ := rfl
  setRet_eq cpu v := by
    unfold setRet
    rw [update_withRest]
    rfl
  setSyscallResult_eq cpu r := by
    cases r with
    | ok v =>
      simp only [setSyscallResult, update_withRest]
      rfl
    | error errno =>
      simp only [setSyscallResult, update_withRest]
      rfl
  return_eq _ _ := rfl
  jump_eq _ _ _ := rfl

end WithRest

/-- The registers with another `x18`. -/
def setX18 (v : U64) (cpu : CpuContext) : CpuContext :=
  { cpu with x := Function.update cpu.x 18 v }

theorem spares_setX18 (v : U64) : Spares (setX18 v) where
  arg_eq cpu n := Function.update_of_ne (by revert n; decide) _ _
  x16_eq cpu := Function.update_of_ne (show (16 : Fin 29) ≠ 18 by decide) v cpu.x
  lr_eq _ := rfl
  sp_eq _ := rfl
  setRet_eq cpu w := by
    simp only [setRet, setX18, Function.update_comm (show (0 : Fin 29) ≠ 18 by decide)]
  setSyscallResult_eq cpu r := by
    cases r with
    | ok w =>
      simp only [setSyscallResult, setX18,
        Function.update_comm (show (0 : Fin 29) ≠ 18 by decide)]
    | error errno =>
      simp only [setSyscallResult, setX18,
        Function.update_comm (show (0 : Fin 29) ≠ 18 by decide)]
  return_eq _ _ := rfl
  jump_eq _ _ _ := rfl

/-- The registers after a call : only the answer may have changed. -/
def Answered (cpu cpu' : CpuContext) : Prop :=
  ∃ v, cpu' = cpu.setRet v

/-- The registers after a return to the caller with an answer. -/
def Returns (cpu cpu' : CpuContext) : Prop :=
  ∃ v, cpu' = { cpu.setRet v with pc := cpu.lr }

theorem setRet_x0 (cpu : CpuContext) : cpu.setRet (cpu.x 0) = cpu := by
  rw [setRet, Function.update_eq_self]

instance isPreorder_answered : IsPreorder CpuContext Answered where
  refl cpu := ⟨cpu.x 0, cpu.setRet_x0.symm⟩
  trans := by
    rintro cpu - - ⟨v, rfl⟩ ⟨w, rfl⟩
    exact ⟨w, by rw [setRet, setRet, Function.update_idem]; rfl⟩

end CpuContext

open Prog

/-- A call refines itself. -/
theorem refines_id {ε π σ α : Type} (x : Prog ε π σ α) : Refines id x x := by
  intro s
  change (x s).mapState id = x s
  rcases x s with ⟨a, s'⟩ | ⟨e, s'⟩ | p <;> rfl

/-! ## Shims -/

section Shims

open ShimM ObjcRuntime Frameworks

variable {p : Profile}

/-- A property of shims that the calls they are made of have, and that goes through
sequences. -/
structure ShimRules (P : {α : Type} → ShimM α → Prop) : Prop where
  pure : ∀ {α : Type} (a : α), P (Pure.pure a)
  bind : ∀ {α β : Type} {x : ShimM α} {f : α → ShimM β}, P x → (∀ a, P (f a)) → P (x >>= f)
  ofChecked : ∀ {α : Type} (r : Except Panic α), P (Prog.ofChecked r)
  arg : ∀ n, P (ShimM.arg n)
  ret : ∀ v, P (ShimM.ret v)
  onMem : ∀ {α : Type} (x : MemM α), P (ShimM.onMem x)
  readMem : ∀ {α : Type} (read : GuestMemory → EmuResult α), P (ShimM.readMem read)
  runtime : P ShimM.runtime
  modifyRuntime : ∀ f, P (ShimM.modifyRuntime f)

namespace ShimRules

variable {P : {α : Type} → ShimM α → Prop} (h : ShimRules P)

include h

theorem answer {x : ShimM U64} (hx : P x) : P (ShimM.answer x) :=
  h.bind hx fun _ => h.bind (h.ret _) fun _ => h.pure _

theorem stubs {names : List String} : ∀ e ∈ Frameworks.stubs names, P e.2 := by
  intro e he
  obtain ⟨name, -, rfl⟩ := List.mem_map.1 he
  exact h.answer (h.pure _)

/-! ### The runtime -/

theorem getOrCreateClass (name : String) : P (ObjcRuntime.getOrCreateClass p name) := by
  refine h.bind h.runtime fun rt => ?_
  rcases rt.classAddrByName.get? name with _ | addr
  · refine h.bind (h.onMem _) fun r => ?_
    rcases r with e | addr
    · exact h.pure _
    · refine h.bind (h.onMem _) fun r => ?_
      rcases r with e | u
      · exact h.pure _
      · exact h.bind (h.modifyRuntime _) fun _ => h.pure _
  · exact h.pure _

theorem allocInstance (classAddr : U64) : P (ObjcRuntime.allocInstance p classAddr) := by
  refine h.bind h.runtime fun rt => ?_
  rcases rt.classIndexByAddr.get? classAddr with _ | index
  · exact h.pure _
  · refine h.bind (h.onMem _) fun r => ?_
    rcases r with e | obj
    · exact h.pure _
    · refine h.bind (h.onMem _) fun r => ?_
      rcases r with e | u
      · exact h.pure _
      · exact h.bind (h.modifyRuntime _) fun _ => h.pure _

theorem countBy (n : BitVec 64) (obj : U64) : P (ObjcRuntime.countBy p n obj) := by
  refine h.bind h.runtime fun rt => ?_
  rcases rt.retainCounts.get? obj with _ | c
  · exact h.pure _
  · exact h.bind (h.ofChecked _) fun _ => h.modifyRuntime _

theorem classOf (obj : U64) : P (ObjcRuntime.classOf obj) := by
  refine h.bind h.runtime fun rt => ?_
  rcases rt.instanceClass.get? obj with _ | index
  · exact h.pure _
  · exact h.bind (h.ofChecked _) fun _ => h.pure _

theorem receive (recv : U64) (msg : Message) : P (ObjcRuntime.receive p recv msg) := by
  have halloc : P (do
      let rt ← ShimM.runtime
      if (rt.classIndexByAddr.get? recv).isSome then
        let obj ← ObjcRuntime.allocInstance p recv
        return obj.getD 0
      else return 0 : ShimM U64) := by
    refine h.bind h.runtime fun rt => ?_
    split_ifs
    · exact h.bind (h.allocInstance recv) fun _ => h.pure _
    · exact h.pure _
  cases msg with
  | alloc => exact halloc
  | new => exact halloc
  | retain => exact h.bind (h.countBy 1 recv) fun _ => h.pure _
  | release => exact h.bind (h.countBy (-1) recv) fun _ => h.pure _
  | retainCount => exact h.bind h.runtime fun _ => h.pure _
  | classObject => exact h.classOf recv
  | init | identity | hash | no | other => exact h.pure _

theorem msgSend : P (ObjcRuntime.msgSend p) := by
  refine h.answer (h.bind (h.arg 0) fun recv => h.bind (h.arg 1) fun selPtr => ?_)
  split_ifs
  · exact h.pure _
  · refine h.bind (h.readMem _) fun r => ?_
    rcases r with e | sel
    · exact h.pure _
    · dsimp only
      split_ifs
      · exact h.pure _
      · exact h.receive recv _

theorem objcGetClass : P (ObjcRt.objcGetClass p) :=
  h.answer <| h.bind (h.arg 0) fun _ => h.bind (h.readMem _) fun _ =>
    h.bind (h.getOrCreateClass _) fun _ => h.pure _

theorem objcAlloc : P (ObjcRt.objcAlloc p) :=
  h.bind (h.arg 0) fun _ =>
    h.bind (h.bind (h.allocInstance _) fun _ => h.ret _) fun _ => h.pure _

theorem objcShims : ∀ e ∈ ObjcRt.shims p, P e.2 := by
  have hmsg := h.msgSend (p := p)
  have hclass := h.objcGetClass (p := p)
  have halloc := h.objcAlloc (p := p)
  have harg : P (ShimM.answer (ShimM.arg 0)) := h.answer (h.arg 0)
  have hzero : P ObjcRt.objcRelease := h.answer (h.pure _)
  simp only [ObjcRt.shims, List.forall_mem_append, List.forall_mem_cons, List.not_mem_nil,
    false_imp_iff, implies_true, and_true]
  exact ⟨⟨hmsg, hmsg, hmsg, hclass, hclass, hclass, hclass, harg, harg, harg, hzero, harg, harg,
    harg, halloc, halloc⟩, h.stubs⟩

/-! ### The library -/

theorem copyBytes (dst src : U64) (n : ℕ) : P (Libsystem.copyBytes dst src n) := by
  refine h.bind (h.ofChecked _) fun _ => h.bind (h.readMem _) fun r => ?_
  rcases r with e | tmp
  · exact h.pure _
  · exact h.bind (h.onMem _) fun _ => h.pure _

theorem fillBytes (dst : U64) (byte : U8) (n : ℕ) : P (Libsystem.fillBytes dst byte n) :=
  h.bind (h.ofChecked _) fun _ => h.bind (h.onMem _) fun _ => h.pure _

theorem cstrArg (n : Fin 8) (max : ℕ) : P (Libsystem.cstrArg n max) :=
  h.bind (h.arg n) fun _ => h.bind (h.readMem _) fun _ => h.pure _

theorem readBuffer (addr : U64) (n : ℕ) : P (Libsystem.readBuffer addr n) :=
  h.bind (h.readMem _) fun _ => h.pure _

theorem memcpy : P Libsystem.memcpy :=
  h.answer <| h.bind (h.arg 0) fun _ => h.bind (h.arg 1) fun _ => h.bind (h.arg 2) fun _ =>
    h.bind (h.copyBytes _ _ _) fun _ => h.pure _

theorem memset : P Libsystem.memset :=
  h.answer <| h.bind (h.arg 0) fun _ => h.bind (h.arg 1) fun _ => h.bind (h.arg 2) fun _ =>
    h.bind (h.fillBytes _ _ _) fun _ => h.pure _

theorem bzero : P Libsystem.bzero :=
  h.answer <| h.bind (h.arg 0) fun _ => h.bind (h.arg 1) fun _ =>
    h.bind (h.fillBytes _ _ _) fun _ => h.pure _

theorem memcmp : P Libsystem.memcmp :=
  h.answer <| h.bind (h.arg 0) fun _ => h.bind (h.arg 1) fun _ => h.bind (h.arg 2) fun _ =>
    h.bind (h.ofChecked _) fun _ => h.bind (h.readBuffer _ _) fun _ =>
    h.bind (h.readBuffer _ _) fun _ => h.pure _

theorem malloc : P (Libsystem.malloc p) :=
  h.answer <| h.bind (h.arg 0) fun _ => h.bind (h.onMem _) fun _ => h.pure _

theorem calloc : P (Libsystem.calloc p) :=
  h.answer <| h.bind (h.arg 0) fun _ => h.bind (h.arg 1) fun _ => h.bind (h.onMem _) fun _ =>
    h.pure _

theorem realloc : P (Libsystem.realloc p) := by
  refine h.answer <| h.bind (h.arg 0) fun old => h.bind (h.arg 1) fun size =>
    h.bind (h.onMem _) fun r => ?_
  rcases r with e | new
  · exact h.pure _
  · dsimp only
    split_ifs
    · exact h.bind (h.copyBytes _ _ _) fun _ => h.pure _
    · exact h.bind (h.pure _) fun _ => h.pure _

theorem libsystemShims : ∀ e ∈ Libsystem.shims p, P e.2 := by
  have hmemcpy := h.memcpy
  have hzero : P stubZero := h.answer (h.pure _)
  have hstrlen : P Libsystem.strlen := h.answer (h.bind (h.cstrArg _ _) fun _ => h.pure _)
  have hstrcmp : P Libsystem.strcmp :=
    h.answer (h.bind (h.cstrArg _ _) fun _ => h.bind (h.cstrArg _ _) fun _ => h.pure _)
  simp only [Libsystem.shims, List.forall_mem_cons, List.not_mem_nil, false_imp_iff,
    implies_true, and_true]
  exact ⟨h.malloc, h.calloc, h.realloc, hzero, hmemcpy, hmemcpy, h.memset, h.bzero, hstrlen,
    hstrcmp, h.memcmp, hzero, hzero, hzero, hzero, hzero, hzero⟩

/-- Every bundled shim has the property. -/
theorem bundled : ∀ e ∈ Frameworks.bundled p, P e.2 := by
  have hzero : P stubZero := h.answer (h.pure _)
  have hone : P cgMainDisplayId := h.answer (h.pure _)
  simp only [Frameworks.bundled, foundation, uikit, coregraphics, gles, List.forall_mem_append,
    List.forall_mem_cons, List.not_mem_nil, false_imp_iff, implies_true, and_true]
  exact ⟨⟨⟨⟨⟨h.objcShims, h.libsystemShims⟩, ⟨hzero, hzero⟩, h.stubs⟩, hzero, h.stubs⟩, h.stubs,
    hone⟩, h.stubs⟩

/-- A call of the environment has the property. -/
theorem call (vfs : Sandbox) (symbol : String) : P ((hleEnvironment p).call vfs symbol) := by
  simp only [hleEnvironment, callShim]
  rcases hget : (installAll p).get? symbol with _ | shim
  · exact h.pure _
  · exact h.bundled _ (get?_installAll.1 hget)

end ShimRules

/-- A shim's state with its registers changed. -/
def shimCpu (g : CpuContext → CpuContext) (s : ObjcRuntime × CallContext) :
    ObjcRuntime × CallContext :=
  (s.1, { s.2 with cpu := g s.2.cpu })

/-- A shim neither looks at the registers apart from those of a call nor touches them. -/
theorem shimRules_refines {g : CpuContext → CpuContext} (hg : CpuContext.Spares g) :
    ShimRules fun {_} x => Refines (shimCpu g) x x where
  pure a := refines_pure a
  bind hx hf := hx.bind hf
  ofChecked r := refines_ofChecked r
  arg n := by
    refine Refines.get_bind fun s => ?_
    change Refines _ (Pure.pure (s.2.cpu.arg n)) (Pure.pure ((g s.2.cpu).arg n))
    rw [hg.arg_eq]
    exact refines_pure _
  ret v := refines_modify fun s => by simp only [shimCpu, hg.setRet_eq]
  onMem x :=
    Refines.attempt (Refines.zoom (refines_id x) (by intro _; rfl) (by intro _ _; rfl))
  readMem _ := Refines.get_bind fun _ => refines_pure _
  runtime := Refines.get_bind fun _ => refines_pure _
  modifyRuntime _ := refines_modify fun _ => rfl

/-- A shim touches no register but `x0`. -/
theorem shimRules_answered : ShimRules fun {_} x =>
    x.Steps (InvImage CpuContext.Answered fun s : ObjcRuntime × CallContext => s.2.cpu) where
  pure _ := Prog.steps_pure _
  bind hx hf := hx.bind hf
  ofChecked _ := Prog.steps_ofChecked _
  arg _ := Prog.steps_get.bind fun _ => Prog.steps_pure _
  ret v := by
    rintro s s' ⟨⟩
    exact ⟨v, rfl⟩
  onMem x := Prog.Steps.attempt (Prog.steps_zoom_of_eq x fun _ _ => rfl)
  readMem _ := Prog.steps_get.bind fun _ => Prog.steps_pure _
  runtime := Prog.steps_get.bind fun _ => Prog.steps_pure _
  modifyRuntime _ := Prog.steps_modify_of_eq fun _ => rfl

end Shims

/-! ## System calls -/

section Syscalls

open SyscallCtx

variable {α : Type} {host : Host} {vfs : Sandbox}

/-- The context with its registers changed. -/
def SyscallCtx.mapCpu (g : CpuContext → CpuContext) (c : SyscallCtx) : SyscallCtx :=
  { c with cpu := g c.cpu }

/-- A property of handlers that the calls they are made of have, and that goes through
sequences. The calls on descriptors and files are taken whole, and what else is read of the context
is read from the arguments and the memory. -/
structure CallRules (host : Host) (vfs : Sandbox) (P : {α : Type} → SysM α → Prop) : Prop where
  pure : ∀ {α : Type} (a : α), P (Pure.pure a)
  bind : ∀ {α β : Type} {x : SysM α} {f : α → SysM β}, P x → (∀ a, P (f a)) → P (x >>= f)
  fail : ∀ {α : Type} (e : U32), P (Prog.fail e : SysM α)
  ofResult : ∀ {α : Type} (r : Except U32 α), P (Prog.ofResult r)
  ofChecked : ∀ {α : Type} (r : Except Panic α), P (Prog.ofChecked r)
  attempt : ∀ {α : Type} {x : SysM α}, P x → P (Prog.attempt x : SysM (Except U32 α))
  get : ∀ {α : Type} {f : SyscallCtx → SysM α}, (∀ c, P (f c)) →
    (∀ c c', (∀ n, c'.cpu.arg n = c.cpu.arg n) → c'.mem = c.mem → f c' = f c) →
    P (Prog.get >>= f)
  onMem : ∀ {α : Type} (errno : U32) (x : MemM α), P (SyscallCtx.onMem errno x)
  readBytes : ∀ fd count, P (Unix.readBytes host fd count)
  writeBytes : ∀ fd data, P (Unix.writeBytes host fd data)
  openFile : P (Unix.sysOpen host vfs)
  close : P Unix.sysClose
  lseek : P (Unix.sysLseek host)
  access : P (Unix.sysAccess host vfs)
  exit : P Unix.sysExit

namespace CallRules

variable {P : {α : Type} → SysM α → Prop} (h : CallRules host vfs P)

include h

theorem readMem (read : GuestMemory → EmuResult α) : P (SyscallCtx.readMem read) :=
  h.get (fun _ => h.ofResult _) fun _ _ _ hmem => by simp only [hmem]

theorem writevFrom (fd : BitVec 32) (iov : U64) :
    ∀ (left : ℕ) (i total : U64), P (Unix.writevFrom host fd iov left i total)
  | 0, _, total => h.pure total
  | left + 1, _, _ =>
    h.bind (h.ofChecked _) fun _ => h.bind (h.readMem _) fun _ => h.bind (h.readMem _) fun _ =>
      h.bind (h.ofChecked _) fun _ => h.bind (h.readMem _) fun _ =>
      h.bind (h.writeBytes _ _) fun _ => h.bind (h.ofChecked _) fun _ =>
      writevFrom fd iov left _ _

theorem sysRead : P (Unix.sysRead host) :=
  h.get (fun _ => h.bind (h.ofChecked _) fun _ => h.bind (h.readBytes _ _) fun _ =>
    h.bind (h.onMem _ _) fun _ => h.pure _) fun _ _ harg _ => by simp only [harg]

theorem sysWrite : P (Unix.sysWrite host) :=
  h.get (fun _ => h.bind (h.ofChecked _) fun _ => h.bind (h.readMem _) fun _ =>
    h.writeBytes _ _) fun _ _ harg _ => by simp only [harg]

theorem sysWritev : P (Unix.sysWritev host) :=
  h.get (fun _ => h.writevFrom _ _ _ _ _) fun _ _ harg _ => by simp only [harg]

theorem sysMmap : P (Unix.sysMmap host) := by
  refine h.get (fun c => ?_) fun _ _ harg _ => by simp only [harg]
  split_ifs
  · exact h.fail _
  · exact h.onMem _ _

theorem sysMprotect : P (Unix.sysMprotect host) :=
  h.get (fun _ => h.bind (h.onMem _ _) fun _ => h.pure _) fun _ _ harg _ => by simp only [harg]

theorem sysGettimeofday : P (Unix.sysGettimeofday host) := by
  refine h.get (fun c => ?_) fun _ _ harg _ => by simp only [harg]
  dsimp only
  split_ifs
  · exact h.pure _
  · exact h.bind (h.onMem _ _) fun _ => h.bind (h.onMem _ _) fun _ => h.pure _

theorem sysGetentropy : P (Unix.sysGetentropy host) := by
  refine h.get (fun c => ?_) fun _ _ harg _ => by simp only [harg]
  dsimp only
  split_ifs
  · exact h.fail _
  · exact h.bind (h.onMem _ _) fun _ => h.pure _

theorem vmAllocate : P (Mach.vmAllocate host) := by
  refine h.get (fun c => h.bind (h.attempt (h.onMem _ _)) fun base => ?_)
    fun _ _ harg _ => by simp only [harg]
  rcases base with e | base
  · exact h.pure _
  · refine h.bind (h.attempt (h.onMem _ _)) fun r => ?_
    rcases r with e | u
    · exact h.pure _
    · exact h.pure _

/-- Every handler has the property. -/
theorem handlerOf {cls : SyscallClass} {number : U32} {handler : SysM U64}
    (hh : IosEmu.handlerOf host vfs cls number = some handler) : P handler := by
  cases cls with
  | unix =>
    obtain ⟨call, -, rfl⟩ := Option.map_eq_some_iff.1 hh
    cases call with
    | exit => exact h.exit
    | read => exact h.sysRead
    | write => exact h.sysWrite
    | writev => exact h.sysWritev
    | openFile => exact h.openFile
    | close => exact h.close
    | lseek => exact h.lseek
    | access => exact h.access
    | mmap => exact h.sysMmap
    | mprotect => exact h.sysMprotect
    | gettimeofday => exact h.sysGettimeofday
    | getentropy => exact h.sysGetentropy
    | munmap | madvise | getpid | getuid | getgid | issetugid | fcntl => exact h.pure _
  | mach =>
    obtain ⟨trap, -, rfl⟩ := Option.map_eq_some_iff.1 hh
    cases trap with
    | vmAllocate => exact h.vmAllocate
    | taskSelf | hostSelf | threadSelf | replyPort | msg | semaphore | vmDeallocate =>
      exact h.pure _
  | machDep => cases hh
  | diag => cases hh

end CallRules

/-- A property that all calls on files and changes of the descriptors have too. What is read of the
registers is read from the arguments. -/
structure SysRules (P : {α : Type} → SysM α → Prop) : Prop where
  pure : ∀ {α : Type} (a : α), P (Pure.pure a)
  bind : ∀ {α β : Type} {x : SysM α} {f : α → SysM β}, P x → (∀ a, P (f a)) → P (x >>= f)
  fail : ∀ {α : Type} (e : U32), P (Prog.fail e : SysM α)
  ofResult : ∀ {α : Type} (r : Except U32 α), P (Prog.ofResult r)
  ofChecked : ∀ {α : Type} (r : Except Panic α), P (Prog.ofChecked r)
  attempt : ∀ {α : Type} {x : SysM α}, P x → P (Prog.attempt x : SysM (Except U32 α))
  get : ∀ {α : Type} {f : SyscallCtx → SysM α}, (∀ c, P (f c)) →
    (∀ c cpu, (∀ n, cpu.arg n = c.cpu.arg n) → f { c with cpu } = f c) → P (Prog.get >>= f)
  onMem : ∀ {α : Type} (errno : U32) (x : MemM α), P (SyscallCtx.onMem errno x)
  onFs : ∀ {α : Type} (x : FsM α), P (SyscallCtx.onFs x)
  setFds : ∀ f : FdTable → FdTable, P (Prog.modify fun c => { c with fds := f c.fds })
  exit : P Unix.sysExit

namespace SysRules

variable {P : {α : Type} → SysM α → Prop} (h : SysRules P)

include h

theorem setFile (fd : BitVec 32) (f : File) : P (SyscallCtx.setFile fd f) :=
  h.setFds fun fds => { fds with slots := fds.slots.insert fd (.file f) }

theorem readMem (read : GuestMemory → EmuResult α) : P (SyscallCtx.readMem read) :=
  h.get (fun _ => h.ofResult _) fun _ _ _ => rfl

theorem readBytes (fd : BitVec 32) (count : ℕ) : P (Unix.readBytes host fd count) := by
  refine h.get (fun c => ?_) fun _ _ _ => rfl
  rcases c.fds.slots.get? fd with _ | _ | _ | _ | f | _
  case some.file =>
    exact h.bind (h.onFs _) fun _ => h.bind (h.setFile _ _) fun _ => h.pure _
  case some.stdin => exact h.pure _
  all_goals exact h.fail _

theorem writeBytes (fd : BitVec 32) (data : List U8) : P (Unix.writeBytes host fd data) := by
  refine h.get (fun c => ?_) fun _ _ _ => rfl
  rcases c.fds.slots.get? fd with _ | _ | _ | _ | f | _
  case some.file =>
    exact h.bind (h.onFs _) fun _ => h.bind (h.setFile _ _) fun _ =>
      h.bind (h.ofResult _) fun _ => h.pure _
  case some.stdout => exact h.pure _
  case some.stderr => exact h.pure _
  all_goals exact h.fail _

theorem sysOpen : P (Unix.sysOpen host vfs) := by
  refine h.get (fun c => h.bind (h.readMem _) fun _ => h.bind (h.ofResult _) fun q => ?_)
    fun _ _ harg => by simp only [harg]
  dsimp only
  split_ifs
  · exact h.fail _
  · exact h.bind (h.onFs _) fun _ => h.get (fun _ => h.bind (h.ofChecked _) fun r =>
      h.bind (h.setFds fun _ => r.2) fun _ => h.pure _) fun _ _ _ => rfl

theorem sysClose : P Unix.sysClose := by
  refine h.get (fun c => h.bind (h.setFds fun _ => _) fun _ => ?_)
    fun _ _ harg => by simp only [harg]
  split_ifs
  · exact h.pure _
  · exact h.fail _

theorem sysLseek : P (Unix.sysLseek host) := by
  refine h.get (fun c => ?_) fun _ _ harg => by simp only [harg]
  dsimp only
  rcases c.fds.slots.get? ((c.cpu.arg 0).setWidth 32) with _ | _ | _ | _ | f | _
  case some.file =>
    exact h.bind (h.ofResult _) fun _ => h.bind (h.onFs _) fun _ =>
      h.bind (h.setFile _ _) fun _ => h.pure _
  all_goals exact h.fail _

theorem sysAccess : P (Unix.sysAccess host vfs) := by
  refine h.get (fun c => h.bind (h.readMem _) fun _ => h.bind (h.ofResult _) fun q => ?_)
    fun _ _ harg => by simp only [harg]
  dsimp only
  split_ifs
  · exact h.pure _
  · exact h.fail _

theorem callRules (host : Host) (vfs : Sandbox) : CallRules host vfs P where
  pure := h.pure
  bind := h.bind
  fail := h.fail
  ofResult := h.ofResult
  ofChecked := h.ofChecked
  attempt := h.attempt
  get hf hsame := h.get hf fun c cpu harg => hsame c { c with cpu } harg rfl
  onMem := h.onMem
  readBytes := h.readBytes
  writeBytes := h.writeBytes
  openFile := h.sysOpen
  close := h.sysClose
  lseek := h.sysLseek
  access := h.sysAccess
  exit := h.exit

/-- Every handler has the property. -/
theorem handlerOf {cls : SyscallClass} {number : U32} {handler : SysM U64}
    (hh : IosEmu.handlerOf host vfs cls number = some handler) : P handler :=
  (h.callRules host vfs).handlerOf hh

end SysRules

/-- A handler neither looks at the registers apart from those of a call nor touches them. -/
theorem sysRules_refines {g : CpuContext → CpuContext} (hg : CpuContext.Spares g) :
    SysRules fun {_} x => Refines (SyscallCtx.mapCpu g) x x where
  pure a := refines_pure a
  bind hx hf := hx.bind hf
  fail e := refines_fail e
  ofResult r := refines_ofResult r
  ofChecked r := refines_ofChecked r
  attempt hx := hx.attempt
  get hf hsame := Refines.get_bind fun c => by
    rw [SyscallCtx.mapCpu, hsame c _ (hg.arg_eq c.cpu)]
    exact hf c
  onMem _ x := Refines.mapErr
    (Refines.zoom (refines_id x) (by intro _; rfl) (by intro _ _; rfl)) _
  onFs x := Refines.mapErr
    (Refines.zoom (refines_id x) (by intro _; rfl) (by intro _ _; rfl)) _
  setFds _ := refines_modify fun _ => rfl
  exit := Refines.bind
    (refines_modify fun c => by simp only [SyscallCtx.mapCpu, hg.arg_eq]) fun _ => refines_pure _

/-- A handler touches no register. -/
theorem sysRules_eq : SysRules fun {_} x => x.Steps (InvImage Eq SyscallCtx.cpu) where
  pure _ := Prog.steps_pure _
  bind hx hf := hx.bind hf
  fail _ := Prog.steps_fail _
  ofResult _ := Prog.steps_ofResult _
  ofChecked _ := Prog.steps_ofChecked _
  attempt hx := hx.attempt
  get hf _ := Prog.steps_get.bind hf
  onMem _ x := by
    refine Prog.Steps.mapErr (Prog.steps_zoom_of_eq x ?_) _
    exact fun _ _ => rfl
  onFs x := by
    refine Prog.Steps.mapErr (Prog.steps_zoom_of_eq x ?_) _
    exact fun _ _ => rfl
  setFds _ := Prog.steps_modify_of_eq fun _ => rfl
  exit := Prog.Steps.bind (Prog.steps_modify_of_eq (by intro _; rfl)) fun _ => Prog.steps_pure _

theorem refines_dispatch {g : CpuContext → CpuContext} (hg : CpuContext.Spares g)
    (d : SyscallDispatcher) :
    Refines (SyscallCtx.mapCpu g) (dispatch host vfs d) (dispatch host vfs d) := by
  refine (refines_ofChecked _).bind fun serviced => Refines.get_bind fun c => ?_
  dsimp only [SyscallCtx.mapCpu]
  rw [hg.x16_eq]
  refine (refines_ofChecked _).bind fun ⟨cls, number⟩ => ?_
  dsimp only
  rcases hh : handlerOf host vfs cls number with _ | handler
  · refine (refines_ofChecked _).bind fun _ => Refines.bind (refines_modify fun c => ?_) fun _ =>
      refines_pure _
    simp only [SyscallCtx.mapCpu, hg.setSyscallResult_eq]
  · refine ((sysRules_refines hg).handlerOf hh).attempt.bind fun result =>
      Refines.bind (refines_modify fun c => ?_) fun _ => refines_pure _
    simp only [SyscallCtx.mapCpu, hg.setSyscallResult_eq]

end Syscalls

/-! ## Services -/

namespace Machine

variable {W α : Type}

/-- The machine with its registers changed. -/
def mapCpu (g : CpuContext → CpuContext) (mach : Machine W) : Machine W :=
  { mach with cpu := g mach.cpu }

variable {g : CpuContext → CpuContext} (hg : CpuContext.Spares g)

include hg

omit hg in
theorem refines_onMem (x : MemM α) :
    Refines (mapCpu g) (onMem x : MachM W α) (onMem x) :=
  Refines.zoom (refines_id x) (by intro _; rfl) (by intro _ _; rfl)

theorem refines_returnToCaller :
    Refines (mapCpu g) (returnToCaller : MachM W Unit) returnToCaller :=
  refines_modify fun mach => by
    rw [mapCpu, mapCpu, hg.lr_eq, hg.return_eq]

omit hg in
theorem refines_patchLazyPointer (target : Target) (laPtr resolved : U64) :
    Refines (mapCpu g) (patchLazyPointer target laPtr resolved : MachM W Unit)
      (patchLazyPointer target laPtr resolved) := by
  refine (refines_onMem _).attempt.bind fun r => ?_
  rcases r with e | u
  · exact refines_pure _
  · exact (refines_onMem _).attempt.bind fun _ => refines_pure _

theorem refines_dyldStubBinder (target : Target) :
    Refines (mapCpu g) (dyldStubBinder target : MachM W Unit) (dyldStubBinder target) := by
  refine Refines.get_bind fun mach => ?_
  dsimp only [mapCpu]
  rw [hg.sp_eq]
  rcases mach.mem.readU64 mach.cpu.sp with e | word
  · exact refines_returnToCaller hg
  dsimp only
  rcases mach.lazyBinds.get? (word &&& 0xffffffff) with _ | ⟨symbol, laPtr⟩
  · exact refines_returnToCaller hg
  dsimp only
  rcases mach.symbolStubs.get? symbol with _ | resolved
  · exact refines_returnToCaller hg
  · exact (refines_patchLazyPointer target laPtr resolved).bind fun _ =>
      refines_modify fun m => by rw [mapCpu, mapCpu, hg.jump_eq]

theorem refines_callImport (p : Profile) (symbol : String) :
    Refines (mapCpu g) (callImport (hleEnvironment p) symbol)
      (callImport (hleEnvironment p) symbol) := by
  refine Refines.get_bind fun mach => Refines.bind (Refines.mapErr (Refines.zoom
    ((shimRules_refines hg).call _ symbol) (by intro _; rfl) (by intro _ _; rfl)) _)
    fun disp => ?_
  split_ifs
  · refine Refines.bind (refines_modify fun m => ?_) fun _ => refines_returnToCaller hg
    rw [mapCpu, mapCpu, hg.setRet_eq]
  · exact refines_returnToCaller hg

theorem refines_serviceTrampoline (target : Target) (p : Profile) (addr : U64) :
    Refines (mapCpu g) (serviceTrampoline target (hleEnvironment p) addr)
      (serviceTrampoline target (hleEnvironment p) addr) := by
  refine Refines.get_bind fun mach => ?_
  dsimp only [mapCpu]
  rcases mach.trampolines.get? addr with _ | symbol
  · exact refines_returnToCaller hg
  · dsimp only
    split_ifs
    · exact refines_dyldStubBinder hg target
    · exact refines_callImport hg p symbol

theorem refines_serviceSyscall (host : Host) :
    Refines (mapCpu g) (serviceSyscall host : MachM W Unit) (serviceSyscall host) :=
  Refines.get_bind fun _ => Refines.bind (Refines.mapErr (Refines.zoom (refines_dispatch hg _)
    (by intro _; rfl) (by intro _ _; rfl)) _) fun _ => refines_modify (by intro _; rfl)

/-- Other registers before a turn are other registers after it. -/
theorem refines_turn (host : Host) (p : Profile) (event : ExecEvent) :
    Refines (mapCpu g) (turn host (hleEnvironment p) event)
      (turn host (hleEnvironment p) event) := by
  cases event with
  | «syscall» imm =>
    exact (refines_serviceSyscall hg host).bind fun _ => Refines.get_bind fun _ =>
      refines_pure _
  | trampolineCall addr =>
    exact (refines_serviceTrampoline hg _ p addr).bind fun _ => refines_pure _
  | exited code => exact refines_pure _
  | breakpoint imm => exact refines_pure _
  | fault pc reason => exact refines_fail _

omit hg

/-! ### What is left -/

theorem returns_callImport {p : Profile} {symbol : String} {mach mach' : Machine ObjcRuntime}
    (h : (callImport (hleEnvironment p) symbol mach).state? = some mach') :
    mach.cpu.Returns mach'.cpu := by
  rw [callImport_eq] at h
  rcases hcall : (hleEnvironment p).call mach.vfs symbol (mach.world, ⟨mach.cpu, mach.mem⟩) with
    ⟨disp, world, ctx⟩ | ⟨e, _⟩ | e <;> simp only [hcall, answered] at h
  · obtain ⟨v, hv⟩ : ∃ v, ctx.cpu = mach.cpu.setRet v :=
      (shimRules_answered.call mach.vfs symbol).ok hcall
    obtain rfl := Option.some.inj h
    by_cases hd : disp = .unhandled
    · refine ⟨0, ?_⟩
      simp only [if_pos hd, hv, CpuContext.setRet, Function.update_idem]
    · refine ⟨v, ?_⟩
      simp only [if_neg hd, hv]
      rfl
  · exact e.elim
  · cases h

end Machine

namespace Service

variable {b : Build} {s s' : Service} {mach mach' : Machine ObjcRuntime}

theorem cpu_of_syscall (hnone : s.trampoline = none)
    (h : (s.run b mach).state? = some mach') :
    ∃ result, mach'.cpu = s.cpu.setSyscallResult result := by
  have hrun := state?_syscall hnone h
  rw [serviceSyscall_eq] at hrun
  rcases hd : dispatch (s.host b) mach.vfs mach.dispatcher (s.enter mach).syscallCtx with
    ⟨d, c⟩ | ⟨e, c⟩ | e <;> simp only [enter] at hrun hd <;> simp only [hd] at hrun
  · obtain rfl := Option.some.inj hrun
    obtain ⟨cls, number, -, ⟨-, rfl⟩ | ⟨handler, c₁, result, hh, hstep, rfl⟩⟩ :=
      dispatch_cases (by rw [hd]; rfl)
    · exact ⟨_, rfl⟩
    · have hcpu : s.cpu = c₁.cpu := sysRules_eq.handlerOf hh _ c₁ hstep
      exact ⟨result, by rw [hcpu]⟩
  · exact e.elim
  · cases hrun

theorem cpu_of_trampoline {addr : U64} (hsome : s.trampoline = some addr)
    (h : (s.run b mach).state? = some mach') :
    s.cpu.Returns mach'.cpu ∨
      ∃ symbol slot stub, mach.trampolines.get? addr = some "dyld_stub_binder" ∧
        (s.enter mach).Resolves symbol slot stub ∧
        mach'.cpu = { s.cpu with sp := s.cpu.sp + 16, pc := stub } := by
  have hrun := state?_trampoline hsome h
  have hreturn : s.cpu.Returns { s.cpu with pc := s.cpu.lr } :=
    ⟨s.cpu.x 0, by rw [CpuContext.setRet_x0]⟩
  rcases hget : mach.trampolines.get? addr with _ | symbol
  · simp only [Machine.serviceTrampoline, Prog.get_bind, enter, hget] at hrun
    obtain rfl := Option.some.inj hrun
    exact Or.inl hreturn
  · have hget' : (s.enter mach).trampolines.get? addr = some symbol := hget
    rw [serviceTrampoline_of_get hget'] at hrun
    split_ifs at hrun with hsymbol
    · subst hsymbol
      by_cases hres : ∃ symbol slot stub, (s.enter mach).Resolves symbol slot stub
      · obtain ⟨symbol, slot, stub, hres⟩ := hres
        obtain ⟨mem, -, hbinder⟩ := Machine.dyldStubBinder_of_resolves b.target hres
        rw [hbinder] at hrun
        obtain rfl := Option.some.inj hrun
        exact Or.inr ⟨symbol, slot, stub, rfl, hres, rfl⟩
      · rw [Machine.dyldStubBinder_of_not_resolves b.target hres] at hrun
        obtain rfl := Option.some.inj hrun
        exact Or.inl hreturn
    · exact Or.inl (Machine.returns_callImport hrun)

/-- The registers after a service : those of the guest, but for the answer of a system call, the
answer of a trampoline and its return to `lr`, or the jump of the lazy binder. -/
theorem service_registers (b : Build) (s : Service) (mach mach' : Machine ObjcRuntime)
    (h : (s.run b mach).state? = some mach') :
    (s.trampoline = none → ∃ result, mach'.cpu = s.cpu.setSyscallResult result) ∧
    ∀ addr, s.trampoline = some addr →
      s.cpu.Returns mach'.cpu ∨
      ∃ symbol slot stub, mach.trampolines.get? addr = some "dyld_stub_binder" ∧
        (s.enter mach).Resolves symbol slot stub ∧
        mach'.cpu = { s.cpu with sp := s.cpu.sp + 16, pc := stub } :=
  ⟨fun hnone => cpu_of_syscall hnone h, fun _ hsome => cpu_of_trampoline hsome h⟩

end Service

/-- `getpid()`. -/
def getpid : Service where
  kernel := .willing
  clock := none
  cpu := { CpuContext.default with x := fun i => if i = 16 then 20 else 0 }
  trampoline := none

/-- A process without an import, and with a heap of four pages. -/
def plainMachine : Machine ObjcRuntime :=
  .ofProcess GuestMemory.testMemory importSandbox ⟨fun _ => none⟩ .new
    { entry := 0x100000000, sp := 0, argRegs := fun _ => 0, trampolines := .empty,
      trampolineBase := 0x500000000, trampolineEnd := 0x500000000, initFuncs := [],
      symbolStubs := .empty, lazyBinds := .empty }

theorem service_registers_getpid :
    ∃ mach' result, (getpid.run ⟨.release, .host⟩ plainMachine).state? = some mach' ∧
      mach'.cpu = getpid.cpu.setSyscallResult result := by
  have hrun : ∃ mach', (getpid.run ⟨.release, .host⟩ plainMachine).state? = some mach' :=
    ⟨_, rfl⟩
  obtain ⟨mach', hrun⟩ := hrun
  obtain ⟨result, hcpu⟩ := (Service.service_registers _ _ _ _ hrun).1 rfl
  exact ⟨mach', result, hrun, hcpu⟩

/-! ### Runs -/

/-- The same call : only registers apart from those of a call may differ. -/
structure Service.Alike (s s' : Service) : Prop where
  kernel_eq : s'.kernel = s.kernel
  clock_eq : s'.clock = s.clock
  trampoline_eq : s'.trampoline = s.trampoline
  cpu_eq : s'.cpu = s.cpu.withRest s'.cpu

/-- The same machine, but for registers apart from those of a call. -/
def Machine.Alike {W : Type} (mach mach' : Machine W) : Prop :=
  mach' = { mach with cpu := mach.cpu.withRest mach'.cpu }

theorem Machine.alike_withRest {W : Type} (mach : Machine W) (rest : CpuContext) :
    mach.Alike { mach with cpu := mach.cpu.withRest rest } := by
  rw [Alike, CpuContext.withRest_withRest]

theorem run_of_alike {b : Build} {s s' : Service} {mach mach' : Machine ObjcRuntime}
    (hs : s.Alike s') (hmach : mach.Alike mach') :
    s'.run b mach' =
      (s.run b mach).mapState (Machine.mapCpu fun cpu => cpu.withRest s'.cpu) := by
  have henter : s'.enter mach' =
      (s.enter mach).mapCpu fun cpu => cpu.withRest s'.cpu := by
    rw [hmach]
    exact congrArg (fun cpu => { mach with cpu }) hs.cpu_eq
  have hhost : s'.host b = s.host b := by
    rw [Service.host, hs.kernel_eq, hs.clock_eq, Service.host]
  have hevent : s'.event = s.event := by
    rw [Service.event, hs.trampoline_eq, Service.event]
  unfold Service.run
  rw [henter, hhost, hevent]
  exact (Machine.refines_turn (CpuContext.spares_withRest s'.cpu) _ _ _ (s.enter mach)).symm

/-- Runs that differ in registers apart from those of a call differ in nothing else : they panic
alike, and leave the same memory, files, descriptors and runtime behind. -/
theorem services_blind (b : Build) (l l' : List Service) (mach mach' : Machine ObjcRuntime)
    (hl : List.Forall₂ Service.Alike l l') (hmach : mach.Alike mach') :
    Option.Rel Machine.Alike (runServices b l mach) (runServices b l' mach') := by
  induction hl generalizing mach mach' with
  | nil => exact .some hmach
  | @cons s s' l l' hs hl ih =>
    unfold runServices
    rw [run_of_alike hs hmach]
    rcases s.run b mach with ⟨v, next⟩ | ⟨e, next⟩ | e
    · exact ih next _ (next.alike_withRest s'.cpu)
    · exact ih next _ (next.alike_withRest s'.cpu)
    · exact .none

/-- `getpid()`, with other registers apart from those of a call. -/
def getpidOther : Service :=
  { getpid with cpu := getpid.cpu.withRest { CpuContext.default with x := fun _ => 7 } }

theorem services_blind_getpid :
    Option.Rel Machine.Alike (runServices ⟨.release, .host⟩ [getpid] plainMachine)
      (runServices ⟨.release, .host⟩ [getpidOther]
        { plainMachine with
          cpu := plainMachine.cpu.withRest { CpuContext.default with fp := 7 } }) := by
  have halike : getpid.Alike getpidOther :=
    ⟨rfl, rfl, rfl, (CpuContext.withRest_withRest _ _ _).symm⟩
  exact services_blind _ _ _ _ _ (.cons halike .nil) (plainMachine.alike_withRest _)

end IosEmu
