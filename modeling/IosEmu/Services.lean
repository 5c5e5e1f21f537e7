import IosEmu.ShimDispatch

/-!
# Serviced events

Between two services the guest runs, so every service finds registers of the guest's choice.
`Service` is what one service is given : the event, the registers, and the answers of the
kernel and the clock. `runServices` services one after the other, and an outcome that is not a
panic has a state to go on from.

What a service does to the memory it does through `write`, `heapAlloc`, `mmapAnon` and
`protect`. `steps_handle` and `steps_bundled` say that all handlers and shims but three only
write and allocate, for any relation that writing and allocating respect.
-/

open SysLib

namespace IosEmu

open Frameworks ObjcRuntime Process SyscallCtx

/-! ## Runs -/

/-- One serviced event : a system call or a call of a trampoline, with any registers. -/
structure Service where
  kernel : Kernel
  clock : Option Clock
  cpu : CpuContext
  /-- The address of a trampoline, or none for a system call. -/
  trampoline : Option U64

namespace Service

/-- The event that is serviced. -/
def event (s : Service) : ExecEvent :=
  match s.trampoline with
  | some addr => .trampolineCall addr
  | none => .syscall 0x80

/-- What the service does not control. -/
def host (b : Build) (s : Service) : Host :=
  ⟨b, s.kernel, s.clock⟩

/-- The machine when the event is serviced. -/
def enter (s : Service) (mach : Machine ObjcRuntime) : Machine ObjcRuntime :=
  { mach with cpu := s.cpu }

/-- Service the event. -/
def run (b : Build) (s : Service) (mach : Machine ObjcRuntime) :
    Outcome EmuError Panic (Machine ObjcRuntime) (Option (BitVec 32)) :=
  Machine.turn (s.host b) (hleEnvironment b.profile) s.event (s.enter mach)

end Service

/-- Service events one after the other. There is no machine after a panic. -/
def runServices (b : Build) : List Service → Machine ObjcRuntime → Option (Machine ObjcRuntime)
  | [], mach => some mach
  | s :: l, mach => (s.run b mach).state?.bind (runServices b l)

/-! ## What a service does to the memory -/

/-! ### Files -/

/-- A part of the context that the files and the descriptors are no part of. -/
class FilesApart {τ : Type} (view : SyscallCtx → τ) : Prop where
  keep_fs : ∀ (c : SyscallCtx) fs, view { c with fs } = view c
  keep_fds : ∀ (c : SyscallCtx) fds, view { c with fds } = view c

instance filesApart_mem : FilesApart SyscallCtx.mem :=
  ⟨fun _ _ => rfl, fun _ _ => rfl⟩

instance filesApart_exit : FilesApart SyscallCtx.exit :=
  ⟨fun _ _ => rfl, fun _ _ => rfl⟩

section Files

variable {τ : Type} {R : τ → τ → Prop} [IsPreorder τ R] {view : SyscallCtx → τ} [FilesApart view]

theorem steps_onFs {α : Type} {x : FsM α} : (onFs x).Steps (InvImage R view) :=
  Prog.Steps.mapErr (Prog.steps_zoom_of_eq x fun _ _ => FilesApart.keep_fs _ _) _

theorem steps_setFds (f : SyscallCtx → FdTable) :
    (Prog.modify fun c => { c with fds := f c } : SysM Unit).Steps (InvImage R view) :=
  Prog.steps_modify_of_eq fun _ => FilesApart.keep_fds _ _

theorem steps_setFile (fd : BitVec 32) (f : File) :
    (setFile fd f).Steps (InvImage R view) :=
  steps_setFds _

omit [FilesApart view] in
theorem steps_readMem {α : Type} {read : GuestMemory → EmuResult α} :
    (SyscallCtx.readMem read).Steps (InvImage R view) :=
  Prog.steps_get.bind fun _ => Prog.steps_ofResult _

theorem steps_readBytes (host : Host) (fd : BitVec 32) (count : ℕ) :
    (Unix.readBytes host fd count).Steps (InvImage R view) := by
  refine Prog.steps_get.bind fun c => ?_
  split
  · exact steps_onFs.bind fun _ => (steps_setFile _ _).bind fun _ => Prog.steps_pure _
  · exact Prog.steps_pure _
  · exact Prog.steps_fail _
  · exact Prog.steps_fail _

theorem steps_writeBytes (host : Host) (fd : BitVec 32) (data : List U8) :
    (Unix.writeBytes host fd data).Steps (InvImage R view) := by
  refine Prog.steps_get.bind fun c => ?_
  split
  · exact Prog.steps_pure _
  · exact Prog.steps_pure _
  · exact steps_onFs.bind fun _ => (steps_setFile _ _).bind fun _ =>
      (Prog.steps_ofResult _).bind fun _ => Prog.steps_pure _
  · exact Prog.steps_fail _
  · exact Prog.steps_fail _

theorem steps_writevFrom (host : Host) (fd : BitVec 32) (iov : U64) :
    ∀ (left : ℕ) (i total : U64),
      (Unix.writevFrom host fd iov left i total).Steps (InvImage R view)
  | 0, _, total => Prog.steps_pure total
  | left + 1, _, _ =>
    (Prog.steps_ofChecked _).bind fun _ => steps_readMem.bind fun _ => steps_readMem.bind fun _ =>
      (Prog.steps_ofChecked _).bind fun _ => steps_readMem.bind fun _ =>
      (steps_writeBytes _ _ _).bind fun _ => (Prog.steps_ofChecked _).bind fun _ =>
      steps_writevFrom host fd iov left _ _

theorem steps_sysOpen (host : Host) (vfs : Sandbox) :
    (Unix.sysOpen host vfs).Steps (InvImage R view) := by
  refine Prog.steps_get.bind fun c => steps_readMem.bind fun _ =>
    (Prog.steps_ofResult _).bind fun q => ?_
  dsimp only
  split_ifs
  · exact Prog.steps_fail _
  · exact steps_onFs.bind fun _ => Prog.steps_get.bind fun _ =>
      (Prog.steps_ofChecked _).bind fun _ =>
      (steps_setFds _).bind fun _ => Prog.steps_pure _

theorem steps_sysLseek (host : Host) :
    (Unix.sysLseek host).Steps (InvImage R view) := by
  refine Prog.steps_get.bind fun c => ?_
  dsimp only
  split
  · exact (Prog.steps_ofResult _).bind fun _ => steps_onFs.bind fun _ =>
      (steps_setFile _ _).bind fun _ => Prog.steps_pure _
  · exact Prog.steps_fail _
  · exact Prog.steps_fail _

theorem steps_sysClose : Unix.sysClose.Steps (InvImage R view) := by
  refine Prog.steps_get.bind fun c => Prog.Steps.bind (steps_setFds _) fun _ => ?_
  split_ifs
  · exact Prog.steps_pure _
  · exact Prog.steps_fail _

omit [FilesApart view] in
theorem steps_sysAccess (host : Host) (vfs : Sandbox) :
    (Unix.sysAccess host vfs).Steps (InvImage R view) := by
  refine Prog.steps_get.bind fun c => steps_readMem.bind fun _ =>
    (Prog.steps_ofResult _).bind fun q => ?_
  dsimp only
  split_ifs
  · exact Prog.steps_pure _
  · exact Prog.steps_fail _

end Files

section Steps

variable {R : GuestMemory → GuestMemory → Prop} [IsPreorder GuestMemory R]

/-! ### System calls -/

omit [IsPreorder GuestMemory R] in
theorem steps_onMem {α : Type} {errno : U32} {x : MemM α} (hx : x.Steps R) :
    (onMem errno x).Steps (InvImage R SyscallCtx.mem) :=
  (hx.zoom fun _ _ => rfl).mapErr _

omit [IsPreorder GuestMemory R] in
theorem onMem_of_ok {α : Type} {errno : U32} {x : MemM α} {c : SyscallCtx} {a : α}
    {m : GuestMemory} (h : x c.mem = .ok a m) : onMem errno x c = .ok a { c with mem := m } := by
  unfold onMem Prog.mapErr Prog.zoom
  simp only [h]

theorem steps_modifyCtx {f : SyscallCtx → SyscallCtx} (hf : ∀ c, (f c).mem = c.mem) :
    (Prog.modify f : SysM Unit).Steps (InvImage R SyscallCtx.mem) :=
  Prog.steps_modify_of_eq hf

variable (hwrite : ∀ a d, (GuestMemory.write a d).Steps R)

include hwrite

theorem steps_sysGettimeofday (host : Host) :
    (Unix.sysGettimeofday host).Steps (InvImage R SyscallCtx.mem) := by
  refine Prog.steps_get.bind fun c => ?_
  dsimp only
  split_ifs
  · exact Prog.steps_pure _
  · exact (steps_onMem (hwrite _ _)).bind fun _ => (steps_onMem (hwrite _ _)).bind fun _ =>
      Prog.steps_pure _

theorem steps_sysGetentropy (host : Host) :
    (Unix.sysGetentropy host).Steps (InvImage R SyscallCtx.mem) := by
  refine Prog.steps_get.bind fun c => ?_
  dsimp only
  split_ifs
  · exact Prog.steps_fail _
  · exact (steps_onMem (hwrite _ _)).bind fun _ => Prog.steps_pure _

/-- Every handler but those of `mmap` and `mprotect` does no more than write. -/
theorem steps_handle (host : Host) (vfs : Sandbox) {call : Unix.Call} (hmmap : call ≠ .mmap)
    (hprotect : call ≠ .mprotect) :
    (Unix.handle host vfs call).Steps (InvImage R SyscallCtx.mem) := by
  cases call with
  | exit => exact (steps_modifyCtx (by intro _; rfl)).bind fun _ => Prog.steps_pure _
  | read =>
    exact Prog.steps_get.bind fun c => (Prog.steps_ofChecked _).bind fun _ =>
      (steps_readBytes _ _ _).bind fun _ => (steps_onMem (hwrite _ _)).bind fun _ =>
      Prog.steps_pure _
  | write =>
    exact Prog.steps_get.bind fun c => (Prog.steps_ofChecked _).bind fun _ =>
      steps_readMem.bind fun _ => steps_writeBytes _ _ _
  | writev => exact Prog.steps_get.bind fun c => steps_writevFrom _ _ _ _ _ _
  | openFile => exact steps_sysOpen host vfs
  | close => exact steps_sysClose
  | lseek => exact steps_sysLseek host
  | access => exact steps_sysAccess host vfs
  | mmap => exact absurd rfl hmmap
  | mprotect => exact absurd rfl hprotect
  | gettimeofday => exact steps_sysGettimeofday hwrite host
  | getentropy => exact steps_sysGetentropy hwrite host
  | munmap | madvise | getpid | getuid | getgid | issetugid | fcntl => exact Prog.steps_pure _

/-- A Mach trap may map anonymous memory that is readable and writable, and writes. -/
theorem steps_trap (host : Host)
    (hanon : ∀ size, (GuestMemory.mmapAnon host.build.profile size .rw).Steps R)
    (trap : Mach.Trap) : (Mach.handle host trap).Steps (InvImage R SyscallCtx.mem) := by
  cases trap with
  | vmAllocate =>
    refine Prog.steps_get.bind fun c => (steps_onMem (hanon _)).attempt.bind fun base => ?_
    rcases base with e | base
    · exact Prog.steps_pure _
    · refine (steps_onMem (hwrite _ _)).attempt.bind fun r => ?_
      rcases r with e | u
      · exact Prog.steps_pure _
      · exact Prog.steps_pure _
  | taskSelf | hostSelf | threadSelf | replyPort | msg | semaphore | vmDeallocate =>
    exact Prog.steps_pure _

end Steps

/-! ### Shims -/

/-- The memory of a shim. -/
def shimMem (s : ObjcRuntime × CallContext) : GuestMemory :=
  s.2.mem

section Shims

variable {R : GuestMemory → GuestMemory → Prop} [IsPreorder GuestMemory R]

theorem steps_arg (n : Fin 8) : (ShimM.arg n).Steps (InvImage R shimMem) :=
  Prog.steps_get.bind fun _ => Prog.steps_pure _

theorem steps_ret (v : U64) : (ShimM.ret v).Steps (InvImage R shimMem) :=
  Prog.steps_modify_of_eq fun _ => rfl

theorem steps_runtime : ShimM.runtime.Steps (InvImage R shimMem) :=
  Prog.steps_get.bind fun _ => Prog.steps_pure _

theorem steps_modifyRuntime (f : ObjcRuntime → ObjcRuntime) :
    (ShimM.modifyRuntime f).Steps (InvImage R shimMem) :=
  Prog.steps_modify_of_eq fun _ => rfl

theorem steps_readShim {α : Type} (read : GuestMemory → EmuResult α) :
    (ShimM.readMem read).Steps (InvImage R shimMem) :=
  Prog.steps_get.bind fun _ => Prog.steps_pure _

omit [IsPreorder GuestMemory R] in
theorem steps_shimMem {α : Type} {x : MemM α} (hx : x.Steps R) :
    (ShimM.onMem x).Steps (InvImage R shimMem) :=
  Prog.Steps.attempt (hx.zoom (by intro _ _; rfl))

theorem steps_answer {x : ShimM U64} (hx : x.Steps (InvImage R shimMem)) :
    (ShimM.answer x).Steps (InvImage R shimMem) :=
  hx.bind fun _ => (steps_ret _).bind fun _ => Prog.steps_pure _

theorem steps_stubs {names : List String} :
    ∀ e ∈ stubs names, Prog.Steps (InvImage R shimMem) e.2 := by
  intro e he
  obtain ⟨name, -, rfl⟩ := List.mem_map.1 he
  exact steps_answer (Prog.steps_pure _)

theorem steps_countBy (p : Profile) (n : BitVec 64) (obj : U64) :
    (countBy p n obj).Steps (InvImage R shimMem) := by
  refine steps_runtime.bind fun rt => ?_
  split
  · exact Prog.steps_pure _
  · exact (Prog.steps_ofChecked _).bind fun _ => steps_modifyRuntime _

theorem steps_classOf (obj : U64) : (classOf obj).Steps (InvImage R shimMem) := by
  refine steps_runtime.bind fun rt => ?_
  split
  · exact Prog.steps_pure _
  · exact (Prog.steps_ofChecked _).bind fun _ => Prog.steps_pure _

theorem steps_cstrArg (n : Fin 8) (max : ℕ) :
    (Libsystem.cstrArg n max).Steps (InvImage R shimMem) :=
  (steps_arg n).bind fun _ => (steps_readShim _).bind fun _ => Prog.steps_pure _

theorem steps_readBuffer (addr : U64) (n : ℕ) :
    (Libsystem.readBuffer addr n).Steps (InvImage R shimMem) :=
  (steps_readShim _).bind fun _ => Prog.steps_pure _

theorem steps_memcmp : Libsystem.memcmp.Steps (InvImage R shimMem) :=
  steps_answer <| (steps_arg 0).bind fun _ => (steps_arg 1).bind fun _ =>
    (steps_arg 2).bind fun _ => (Prog.steps_ofChecked _).bind fun _ =>
    (steps_readBuffer _ _).bind fun _ => (steps_readBuffer _ _).bind fun _ => Prog.steps_pure _

variable (hwrite : ∀ a d, (GuestMemory.write a d).Steps R)

include hwrite

theorem steps_copyBytes (dst src : U64) (n : ℕ) :
    (Libsystem.copyBytes dst src n).Steps (InvImage R shimMem) := by
  refine (Prog.steps_ofChecked _).bind fun _ => (steps_readShim _).bind fun r => ?_
  rcases r with e | tmp
  · exact Prog.steps_pure _
  · exact (steps_shimMem (hwrite _ _)).bind fun _ => Prog.steps_pure _

theorem steps_fillBytes (dst : U64) (byte : U8) (n : ℕ) :
    (Libsystem.fillBytes dst byte n).Steps (InvImage R shimMem) :=
  (Prog.steps_ofChecked _).bind fun _ => (steps_shimMem (hwrite _ _)).bind fun _ =>
    Prog.steps_pure _

theorem steps_memcpy : Libsystem.memcpy.Steps (InvImage R shimMem) :=
  steps_answer <| (steps_arg 0).bind fun _ => (steps_arg 1).bind fun _ =>
    (steps_arg 2).bind fun _ => (steps_copyBytes hwrite _ _ _).bind fun _ => Prog.steps_pure _

theorem steps_memset : Libsystem.memset.Steps (InvImage R shimMem) :=
  steps_answer <| (steps_arg 0).bind fun _ => (steps_arg 1).bind fun _ =>
    (steps_arg 2).bind fun _ => (steps_fillBytes hwrite _ _ _).bind fun _ => Prog.steps_pure _

theorem steps_bzero : Libsystem.bzero.Steps (InvImage R shimMem) :=
  steps_answer <| (steps_arg 0).bind fun _ => (steps_arg 1).bind fun _ =>
    (steps_fillBytes hwrite _ _ _).bind fun _ => Prog.steps_pure _

variable {p : Profile} (hheap : ∀ size align, (GuestMemory.heapAlloc p size align).Steps R)

include hheap

theorem steps_getOrCreateClass (name : String) :
    (getOrCreateClass p name).Steps (InvImage R shimMem) := by
  refine steps_runtime.bind fun rt => ?_
  split
  · exact Prog.steps_pure _
  · refine (steps_shimMem (hheap _ _)).bind fun r => ?_
    rcases r with e | addr
    · exact Prog.steps_pure _
    · refine (steps_shimMem (hwrite _ _)).bind fun r => ?_
      rcases r with e | u
      · exact Prog.steps_pure _
      · exact (steps_modifyRuntime _).bind fun _ => Prog.steps_pure _

theorem steps_allocInstance (classAddr : U64) :
    (allocInstance p classAddr).Steps (InvImage R shimMem) := by
  refine steps_runtime.bind fun rt => ?_
  split
  · exact Prog.steps_pure _
  · refine (steps_shimMem (hheap _ _)).bind fun r => ?_
    rcases r with e | obj
    · exact Prog.steps_pure _
    · refine (steps_shimMem (hwrite _ _)).bind fun r => ?_
      rcases r with e | u
      · exact Prog.steps_pure _
      · exact (steps_modifyRuntime _).bind fun _ => Prog.steps_pure _

theorem steps_receive (recv : U64) (msg : Message) :
    (receive p recv msg).Steps (InvImage R shimMem) := by
  have halloc : (do
      let rt ← ShimM.runtime
      if (rt.classIndexByAddr.get? recv).isSome then
        let obj ← allocInstance p recv
        return obj.getD 0
      else return 0 : ShimM U64).Steps (InvImage R shimMem) := by
    refine steps_runtime.bind fun rt => ?_
    split_ifs
    · exact (steps_allocInstance hwrite hheap recv).bind fun _ => Prog.steps_pure _
    · exact Prog.steps_pure _
  cases msg with
  | alloc => exact halloc
  | new => exact halloc
  | retain => exact (steps_countBy p 1 recv).bind fun _ => Prog.steps_pure _
  | release => exact (steps_countBy p (-1) recv).bind fun _ => Prog.steps_pure _
  | retainCount => exact steps_runtime.bind fun _ => Prog.steps_pure _
  | classObject => exact steps_classOf recv
  | init | identity | hash | no | other => exact Prog.steps_pure _

theorem steps_msgSend : (msgSend p).Steps (InvImage R shimMem) := by
  refine steps_answer <| (steps_arg 0).bind fun recv => (steps_arg 1).bind fun selPtr => ?_
  split_ifs
  · exact Prog.steps_pure _
  · refine (steps_readShim _).bind fun r => ?_
    rcases r with e | sel
    · exact Prog.steps_pure _
    · dsimp only
      split_ifs
      · exact Prog.steps_pure _
      · exact steps_receive hwrite hheap recv _

theorem steps_objcGetClass : (ObjcRt.objcGetClass p).Steps (InvImage R shimMem) :=
  steps_answer <| (steps_arg 0).bind fun _ => (steps_readShim _).bind fun _ =>
    (steps_getOrCreateClass hwrite hheap _).bind fun _ => Prog.steps_pure _

theorem steps_objcAlloc : (ObjcRt.objcAlloc p).Steps (InvImage R shimMem) :=
  (steps_arg 0).bind fun _ => Prog.Steps.bind
    ((steps_allocInstance hwrite hheap _).bind fun _ => steps_ret _) fun _ => Prog.steps_pure _

omit hwrite in
theorem steps_malloc : (Libsystem.malloc p).Steps (InvImage R shimMem) :=
  steps_answer <| (steps_arg 0).bind fun _ => (steps_shimMem (hheap _ _)).bind fun _ =>
    Prog.steps_pure _

omit hwrite in
theorem steps_calloc : (Libsystem.calloc p).Steps (InvImage R shimMem) :=
  steps_answer <| (steps_arg 0).bind fun _ => (steps_arg 1).bind fun _ =>
    (steps_shimMem (hheap _ _)).bind fun _ => Prog.steps_pure _

theorem steps_realloc : (Libsystem.realloc p).Steps (InvImage R shimMem) := by
  refine steps_answer <| (steps_arg 0).bind fun old => (steps_arg 1).bind fun size =>
    (steps_shimMem (hheap _ _)).bind fun r => ?_
  rcases r with e | new
  · exact Prog.steps_pure _
  · dsimp only
    split_ifs
    · exact (steps_copyBytes hwrite _ _ _).bind fun _ => Prog.steps_pure _
    · exact (Prog.steps_pure _).bind fun _ => Prog.steps_pure _

theorem steps_objcShims : ∀ e ∈ ObjcRt.shims p, Prog.Steps (InvImage R shimMem) e.2 := by
  have hmsg := steps_msgSend hwrite hheap
  have hclass := steps_objcGetClass hwrite hheap
  have halloc := steps_objcAlloc hwrite hheap
  have harg : (ShimM.answer (ShimM.arg 0)).Steps (InvImage R shimMem) :=
    steps_answer (steps_arg 0)
  simp only [ObjcRt.shims, List.forall_mem_append, List.forall_mem_cons, List.not_mem_nil,
    false_imp_iff, implies_true, and_true]
  exact ⟨⟨hmsg, hmsg, hmsg, hclass, hclass, hclass, hclass, harg, harg, harg,
    steps_answer (Prog.steps_pure _), harg, harg, harg, halloc, halloc⟩, steps_stubs⟩

theorem steps_libsystemShims :
    ∀ e ∈ Libsystem.shims p, Prog.Steps (InvImage R shimMem) e.2 := by
  have hmemcpy := steps_memcpy hwrite
  have hzero : stubZero.Steps (InvImage R shimMem) := steps_answer (Prog.steps_pure _)
  have hstrlen : Libsystem.strlen.Steps (InvImage R shimMem) :=
    steps_answer ((steps_cstrArg _ _).bind fun _ => Prog.steps_pure _)
  have hstrcmp : Libsystem.strcmp.Steps (InvImage R shimMem) :=
    steps_answer ((steps_cstrArg _ _).bind fun _ => (steps_cstrArg _ _).bind fun _ =>
      Prog.steps_pure _)
  simp only [Libsystem.shims, List.forall_mem_cons, List.not_mem_nil, false_imp_iff,
    implies_true, and_true]
  exact ⟨steps_malloc hheap, steps_calloc hheap, steps_realloc hwrite hheap, hzero, hmemcpy,
    hmemcpy, steps_memset hwrite, steps_bzero hwrite, hstrlen, hstrcmp, steps_memcmp, hzero,
    hzero, hzero, hzero, hzero, hzero⟩

/-- Every bundled shim does no more than write and allocate from the heap. -/
theorem steps_bundled : ∀ e ∈ bundled p, Prog.Steps (InvImage R shimMem) e.2 := by
  have hzero : stubZero.Steps (InvImage R shimMem) := steps_answer (Prog.steps_pure _)
  have hone : cgMainDisplayId.Steps (InvImage R shimMem) := steps_answer (Prog.steps_pure _)
  simp only [bundled, foundation, uikit, coregraphics, gles, List.forall_mem_append,
    List.forall_mem_cons, List.not_mem_nil, false_imp_iff, implies_true, and_true]
  exact ⟨⟨⟨⟨⟨steps_objcShims hwrite hheap, steps_libsystemShims hwrite hheap⟩, ⟨hzero, hzero⟩,
    steps_stubs⟩, hzero, steps_stubs⟩, steps_stubs, hone⟩, steps_stubs⟩

omit hwrite hheap in
theorem steps_callShim (hshims : ∀ e ∈ bundled p, Prog.Steps (InvImage R shimMem) e.2)
    (symbol : String) : (callShim (installAll p) symbol).Steps (InvImage R shimMem) := by
  unfold callShim
  rcases hget : (installAll p).get? symbol with _ | shim
  · exact Prog.steps_pure _
  · exact hshims _ (get?_installAll.1 hget)

end Shims

/-! ### Events -/

section Events

variable {R : GuestMemory → GuestMemory → Prop}

theorem steps_machMem {α : Type} {x : MemM α} (hx : x.Steps R) :
    (Machine.onMem x : MachM ObjcRuntime α).Steps (InvImage R Machine.mem) :=
  hx.zoom fun _ _ => rfl

theorem steps_onWorld {α : Type} {x : ShimM α} (hx : x.Steps (InvImage R shimMem)) :
    (Machine.onWorld x).Steps (InvImage R Machine.mem) :=
  Prog.Steps.mapErr (hx.zoom_via (fun _ => rfl) fun _ _ => rfl) _

variable [IsPreorder GuestMemory R]

theorem steps_modifyMach {f : Machine ObjcRuntime → Machine ObjcRuntime}
    (hf : ∀ mach, (f mach).mem = mach.mem) :
    (Prog.modify f : MachM ObjcRuntime Unit).Steps (InvImage R Machine.mem) :=
  Prog.steps_modify_of_eq hf

theorem steps_returnToCaller :
    (Machine.returnToCaller : MachM ObjcRuntime Unit).Steps (InvImage R Machine.mem) :=
  steps_modifyMach fun _ => rfl

variable (hwrite : ∀ a d, (GuestMemory.write a d).Steps R)

include hwrite

theorem steps_patchLazyPointer (target : Target) (laPtr resolved : U64) :
    (Machine.patchLazyPointer target laPtr resolved : MachM ObjcRuntime Unit).Steps
      (InvImage R Machine.mem) := by
  refine (steps_machMem (hwrite _ _)).attempt.bind fun r => ?_
  rcases r with e | u
  · exact Prog.steps_pure _
  · exact (steps_machMem (steps_commitToNative target laPtr)).attempt.bind fun _ =>
      Prog.steps_pure _

theorem steps_dyldStubBinder (target : Target) :
    (Machine.dyldStubBinder target : MachM ObjcRuntime Unit).Steps (InvImage R Machine.mem) := by
  refine Prog.steps_get.bind fun mach => ?_
  rcases mach.mem.readU64 mach.cpu.sp with e | word
  · exact steps_returnToCaller
  dsimp only
  rcases mach.lazyBinds.get? (word &&& 0xffffffff) with _ | ⟨symbol, laPtr⟩
  · exact steps_returnToCaller
  dsimp only
  rcases mach.symbolStubs.get? symbol with _ | resolved
  · exact steps_returnToCaller
  · exact (steps_patchLazyPointer hwrite target laPtr resolved).bind fun _ =>
      steps_modifyMach fun _ => rfl

theorem steps_hleEnvironment {p : Profile}
    (hheap : ∀ size align, (GuestMemory.heapAlloc p size align).Steps R) (vfs : Sandbox)
    (symbol : String) : ((hleEnvironment p).call vfs symbol).Steps (InvImage R shimMem) := by
  simp only [hleEnvironment]
  exact steps_callShim (steps_bundled hwrite hheap) symbol

/-- A call of a trampoline patches a lazy pointer, or is a call of the environment. -/
theorem steps_serviceTrampoline {env : HostEnvironment ObjcRuntime}
    (hcall : ∀ vfs symbol, (env.call vfs symbol).Steps (InvImage R shimMem)) (target : Target)
    (addr : U64) : (Machine.serviceTrampoline target env addr).Steps (InvImage R Machine.mem) := by
  refine Prog.steps_get.bind fun mach => ?_
  rcases mach.trampolines.get? addr with _ | symbol
  · exact steps_returnToCaller
  · dsimp only
    split_ifs
    · exact steps_dyldStubBinder hwrite target
    · refine Prog.steps_get.bind fun mach => (steps_onWorld (hcall _ _)).bind fun d => ?_
      split_ifs
      · exact Prog.Steps.bind (steps_modifyMach fun _ => rfl) fun _ => steps_returnToCaller
      · exact steps_returnToCaller

end Events

/-- What a handler is given. -/
def Machine.syscallCtx {W : Type} (mach : Machine W) : SyscallCtx :=
  ⟨mach.cpu, mach.mem, mach.fds, mach.exit, mach.fs⟩

/-- Servicing a system call is dispatching it. -/
theorem serviceSyscall_eq {W : Type} (host : Host) (mach : Machine W) :
    Machine.serviceSyscall host mach =
      match dispatch host mach.vfs mach.dispatcher mach.syscallCtx with
      | .ok dispatcher c => .ok ()
          { mach with cpu := c.cpu, mem := c.mem, fds := c.fds, exit := c.exit, fs := c.fs,
                      dispatcher }
      | .err e _ => e.elim
      | .panic e => .panic e := by
  unfold Machine.serviceSyscall
  rw [Prog.get_bind, Prog.bind_apply]
  unfold Prog.mapErr Prog.zoom
  rcases hd : dispatch host mach.vfs mach.dispatcher mach.syscallCtx with
    ⟨d, c⟩ | ⟨e, c⟩ | e <;> rw [Machine.syscallCtx] at hd
  · simp only [hd, Prog.modify_apply]
  · exact e.elim
  · simp only [hd]

/-- A system call leaves the memory as its handler leaves it, or as it is if there is none. -/
theorem mem_of_serviceSyscall {W : Type} {host : Host} {mach mach' : Machine W}
    (h : (Machine.serviceSyscall host mach).state? = some mach') :
    mach'.mem = mach.mem ∨
      ∃ cls number handler c', decode host.build.profile (mach.cpu.x 16) = .ok (cls, number) ∧
        handlerOf host mach.vfs cls number = some handler ∧
        (handler mach.syscallCtx).state? = some c' ∧ mach'.mem = c'.mem := by
  rw [serviceSyscall_eq] at h
  rcases hd : dispatch host mach.vfs mach.dispatcher mach.syscallCtx with
    ⟨d, c⟩ | ⟨e, c⟩ | e <;> simp only [hd] at h
  · obtain rfl := Option.some.inj h
    obtain ⟨cls, number, hdecode, ⟨-, rfl⟩ | ⟨handler, c₁, result, hh, hrun, rfl⟩⟩ :=
      dispatch_cases (by rw [hd]; rfl)
    · exact Or.inl rfl
    · exact Or.inr ⟨cls, number, handler, c₁, hdecode, hh, hrun, rfl⟩
  · exact e.elim
  · cases h

/-- The machine after a call that left `c` behind and was answered with `result`. -/
def Machine.answer {W : Type} (mach : Machine W) (c : SyscallCtx) (result : Except U32 U64)
    (dispatcher : SyscallDispatcher) : Machine W :=
  { mach with cpu := c.cpu.setSyscallResult result, mem := c.mem, fds := c.fds, exit := c.exit,
              fs := c.fs, dispatcher }

/-- A system call that returns is answered with the outcome of its handler, or as a stub. -/
theorem answer_of_serviceSyscall {W : Type} {host : Host} {mach mach' : Machine W}
    (h : Machine.serviceSyscall host mach = .ok () mach') :
    ∃ cls number dispatcher, decode host.build.profile (mach.cpu.x 16) = .ok (cls, number) ∧
      ((handlerOf host mach.vfs cls number = none ∧
          mach' = mach.answer mach.syscallCtx (stubAnswer cls) dispatcher) ∨
        ∃ handler, handlerOf host mach.vfs cls number = some handler ∧
          ((∃ v c, handler mach.syscallCtx = .ok v c ∧ mach' = mach.answer c (.ok v) dispatcher) ∨
            ∃ e c, handler mach.syscallCtx = .err e c ∧
              mach' = mach.answer c (.error e) dispatcher)) := by
  rw [serviceSyscall_eq] at h
  rcases hd : dispatch host mach.vfs mach.dispatcher mach.syscallCtx with
    ⟨d, c⟩ | ⟨e, c⟩ | e <;> simp only [hd] at h
  · obtain ⟨-, rfl⟩ := Outcome.ok.inj h
    obtain ⟨serviced, hadd, hd⟩ := Prog.ofChecked_bind_eq_ok.1 hd
    rw [Prog.get_bind] at hd
    obtain ⟨⟨cls, number⟩, hdecode, hd⟩ := Prog.ofChecked_bind_eq_ok.1 hd
    refine ⟨cls, number, d, hdecode, ?_⟩
    rcases hh : handlerOf host mach.vfs cls number with _ | handler <;> simp only [hh] at hd
    · obtain ⟨stubbed, -, hd⟩ := Prog.ofChecked_bind_eq_ok.1 hd
      obtain ⟨-, rfl⟩ := Outcome.ok.inj hd
      exact Or.inl ⟨rfl, rfl⟩
    · refine Or.inr ⟨handler, rfl, ?_⟩
      obtain ⟨result, c₁, hrun, hd⟩ := Prog.bind_eq_ok.1 hd
      obtain ⟨-, rfl⟩ := Outcome.ok.inj hd
      rcases Prog.attempt_eq_ok.1 hrun with ⟨v, hv, rfl⟩ | ⟨e, he, rfl⟩
      · exact Or.inl ⟨v, c₁, hv, rfl⟩
      · exact Or.inr ⟨e, c₁, he, rfl⟩
  · exact e.elim
  · cases h

namespace Service

variable {b : Build} {s : Service} {mach mach' : Machine ObjcRuntime}

theorem state?_syscall (hnone : s.trampoline = none) (h : (s.run b mach).state? = some mach') :
    (Machine.serviceSyscall (s.host b) (s.enter mach)).state? = some mach' := by
  unfold run event at h
  simp only [hnone, Machine.turn] at h
  rcases Prog.state?_bind_eq_some h with ⟨⟨⟩, mach₁, hrun, h⟩ | ⟨e, hrun⟩
  · rw [hrun]
    exact h
  · rw [hrun]
    rfl

theorem state?_trampoline {addr : U64} (hsome : s.trampoline = some addr)
    (h : (s.run b mach).state? = some mach') :
    (Machine.serviceTrampoline b.target (hleEnvironment b.profile) addr (s.enter mach)).state? =
      some mach' := by
  unfold run event at h
  simp only [hsome, Machine.turn] at h
  rcases Prog.state?_bind_eq_some h with ⟨⟨⟩, mach₁, hrun, h⟩ | ⟨e, hrun⟩
  · rw [host] at hrun
    rw [hrun]
    exact h
  · rw [host] at hrun
    rw [hrun]
    rfl

/-- What writing, allocating, mapping and protecting respect, every service respects. -/
theorem steps_run {R : GuestMemory → GuestMemory → Prop} [IsPreorder GuestMemory R]
    (hwrite : ∀ a d, (GuestMemory.write a d).Steps R)
    (hheap : ∀ size align, (GuestMemory.heapAlloc b.profile size align).Steps R)
    (hanon : ∀ size prot, (GuestMemory.mmapAnon b.profile size prot).Steps R)
    (hprotect : ∀ a prot, (GuestMemory.protect b.target a prot).Steps R)
    (h : (s.run b mach).state? = some mach') : R mach.mem mach'.mem := by
  rcases htramp : s.trampoline with _ | addr
  · rcases mem_of_serviceSyscall (state?_syscall htramp h) with
      heq | ⟨cls, number, handler, c', -, hh, hrun, heq⟩
    · rw [heq]
      exact refl_of R _
    · rw [heq]
      cases cls with
      | unix =>
        obtain ⟨call, -, rfl⟩ := Option.map_eq_some_iff.1 hh
        by_cases hmmap : call = .mmap
        · subst hmmap
          refine Prog.Steps.bind (R := InvImage R SyscallCtx.mem) Prog.steps_get (fun c => ?_) _ c'
            hrun
          split_ifs
          · exact Prog.steps_fail _
          · exact steps_onMem (hanon _ _)
        by_cases hprot : call = .mprotect
        · subst hprot
          exact Prog.Steps.bind (R := InvImage R SyscallCtx.mem) Prog.steps_get (fun c =>
            (steps_onMem (hprotect _ _)).bind fun _ => Prog.steps_pure _) _ c' hrun
        · exact steps_handle hwrite _ _ hmmap hprot _ c' hrun
      | mach =>
        obtain ⟨trap, -, rfl⟩ := Option.map_eq_some_iff.1 hh
        exact steps_trap hwrite _ (fun _ => hanon _ _) trap _ c' hrun
      | machDep => cases hh
      | diag => cases hh
  · exact steps_serviceTrampoline hwrite (steps_hleEnvironment hwrite hheap) _ _ (s.enter mach) _
      (state?_trampoline htramp h)

/-- So does every run of services. -/
theorem steps_runServices {R : GuestMemory → GuestMemory → Prop} [IsPreorder GuestMemory R]
    (hwrite : ∀ a d, (GuestMemory.write a d).Steps R)
    (hheap : ∀ size align, (GuestMemory.heapAlloc b.profile size align).Steps R)
    (hanon : ∀ size prot, (GuestMemory.mmapAnon b.profile size prot).Steps R)
    (hprotect : ∀ a prot, (GuestMemory.protect b.target a prot).Steps R) :
    ∀ {l : List Service} {mach mach' : Machine ObjcRuntime},
      runServices b l mach = some mach' → R mach.mem mach'.mem
  | [], mach, mach', h => by
    obtain rfl := Option.some.inj h
    exact refl_of R _
  | s :: l, mach, mach', h => by
    obtain ⟨mid, hmid, h⟩ := Option.bind_eq_some_iff.1 h
    exact trans_of R (steps_run hwrite hheap hanon hprotect hmid)
      (steps_runServices hwrite hheap hanon hprotect h)

/-- A system call whose handler returns. -/
theorem run_of_handler {serviced v : U64} {cls : SyscallClass} {number : U32} {handler : SysM U64}
    {c' : SyscallCtx} (hnone : s.trampoline = none)
    (hadd : b.profile.add mach.dispatcher.serviced 1 = .ok serviced)
    (hdecode : decode b.profile (s.cpu.x 16) = .ok (cls, number))
    (hh : handlerOf (s.host b) mach.vfs cls number = some handler)
    (hrun : handler (s.enter mach).syscallCtx = .ok v c') :
    ∃ mach', (s.run b mach).state? = some mach' ∧ mach'.mem = c'.mem := by
  have hdispatch := @dispatch_of_handler (s.host b) (s.enter mach).vfs (s.enter mach).dispatcher
    (s.enter mach).syscallCtx serviced cls number handler hadd hdecode hh
  simp only [hrun] at hdispatch
  unfold run event
  simp only [hnone, Machine.turn]
  rw [Prog.bind_apply, serviceSyscall_eq, hdispatch]
  refine ⟨_, rfl, ?_⟩
  rfl

end Service

end IosEmu
