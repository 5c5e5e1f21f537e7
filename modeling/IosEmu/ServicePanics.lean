import IosEmu.SyscallPanics

/-!
# When a service panics

The exact condition, shim by shim, under which a call of a trampoline ends without a panic :
`memcpy`, `memset`, `bzero` and `memcmp` take the length of a buffer from a register as the
system calls do, and the shims that allocate align the cursor of the heap. `ShimFits` is the
condition of the shim of a symbol, and `service_returns_iff` the one of a serviced event.
-/

open SysLib

namespace IosEmu

open Frameworks ObjcRuntime Prog

/-! ## Shims -/

section Shims

variable {p : Profile} {s : ObjcRuntime × CallContext}

theorem total_ret (v : U64) : (ShimM.ret v).Total :=
  total_modify _

theorem total_modifyRuntime (f : ObjcRuntime → ObjcRuntime) : (ShimM.modifyRuntime f).Total :=
  total_modify _

theorem safe_answer_iff {x : ShimM U64} : (ShimM.answer x).Safe s ↔ x.Safe s :=
  safe_bind_total_iff fun _ => (total_ret _).bind fun _ => total_pure _

theorem total_answer {x : ShimM U64} (hx : x.Total) : (ShimM.answer x).Total :=
  fun s => safe_answer_iff.2 (hx s)

theorem safe_arg_bind_iff {α : Type} {n : Fin 8} {f : U64 → ShimM α} :
    (ShimM.arg n >>= f).Safe s ↔ (f (s.2.cpu.arg n)).Safe s :=
  Iff.rfl

theorem safe_runtime_bind_iff {α : Type} {f : ObjcRuntime → ShimM α} :
    (ShimM.runtime >>= f).Safe s ↔ (f s.1).Safe s :=
  Iff.rfl

theorem safe_readShim_bind_iff {α β : Type} {read : GuestMemory → EmuResult α}
    {f : EmuResult α → ShimM β} :
    (ShimM.readMem read >>= f).Safe s ↔ (f (read s.2.mem)).Safe s :=
  Iff.rfl

theorem safe_shimMem_iff {α : Type} {x : MemM α} : (ShimM.onMem x).Safe s ↔ x.Safe s.2.mem :=
  safe_attempt_iff.trans safe_zoom_iff

theorem total_shimWrite (a : U64) (d : List U8) : (ShimM.onMem (GuestMemory.write a d)).Total :=
  fun s => safe_shimMem_iff.2 (GuestMemory.total_write a d s.2.mem)

/-! ### `libSystem` -/

theorem safe_copyBytes_iff {dst src : U64} {n : ℕ} :
    (Libsystem.copyBytes dst src n).Safe s ↔ n ≤ isizeMax := by
  unfold Libsystem.copyBytes
  rw [safe_bind_total_iff, safe_ofChecked_iff, Unix.allocBytes_iff]
  refine fun _ => Total.bind (fun _ => safe_of_ok rfl) fun r => ?_
  rcases r with e | tmp
  · exact total_pure _
  · exact (total_shimWrite _ _).bind fun _ => total_pure _

theorem safe_fillBytes_iff {dst : U64} {byte : U8} {n : ℕ} :
    (Libsystem.fillBytes dst byte n).Safe s ↔ n ≤ isizeMax := by
  unfold Libsystem.fillBytes
  rw [safe_bind_total_iff, safe_ofChecked_iff, Unix.allocBytes_iff]
  exact fun _ => (total_shimWrite _ _).bind fun _ => total_pure _

theorem safe_memcpy_iff : Libsystem.memcpy.Safe s ↔ (s.2.cpu.arg 2).toNat ≤ isizeMax := by
  unfold Libsystem.memcpy
  rw [safe_answer_iff, safe_arg_bind_iff, safe_arg_bind_iff, safe_arg_bind_iff,
    safe_bind_total_iff fun _ => total_pure _, safe_copyBytes_iff]

theorem safe_memset_iff : Libsystem.memset.Safe s ↔ (s.2.cpu.arg 2).toNat ≤ isizeMax := by
  unfold Libsystem.memset
  rw [safe_answer_iff, safe_arg_bind_iff, safe_arg_bind_iff, safe_arg_bind_iff,
    safe_bind_total_iff fun _ => total_pure _, safe_fillBytes_iff]

theorem safe_bzero_iff : Libsystem.bzero.Safe s ↔ (s.2.cpu.arg 1).toNat ≤ isizeMax := by
  unfold Libsystem.bzero
  rw [safe_answer_iff, safe_arg_bind_iff, safe_arg_bind_iff,
    safe_bind_total_iff fun _ => total_pure _, safe_fillBytes_iff]

theorem total_readBuffer (addr : U64) (n : ℕ) : (Libsystem.readBuffer addr n).Total :=
  Total.bind (fun _ => safe_of_ok rfl) fun _ => total_pure _

theorem safe_memcmp_iff : Libsystem.memcmp.Safe s ↔ (s.2.cpu.arg 2).toNat ≤ isizeMax := by
  unfold Libsystem.memcmp
  rw [safe_answer_iff, safe_arg_bind_iff, safe_arg_bind_iff, safe_arg_bind_iff,
    safe_bind_total_iff, safe_ofChecked_iff, Unix.allocBytes_iff]
  exact fun _ => (total_readBuffer _ _).bind fun _ => (total_readBuffer _ _).bind fun _ =>
    total_pure _

theorem safe_shimAlloc_iff {α : Type} {size : U64} {f : EmuResult U64 → ShimM α}
    (hf : ∀ r, (f r).Total) :
    (ShimM.onMem (GuestMemory.heapAlloc p size 16) >>= f).Safe s ↔ s.2.mem.HeapFits p := by
  rw [safe_bind_total_iff hf, safe_shimMem_iff, GuestMemory.safe_heapAlloc_iff]

theorem safe_malloc_iff : (Libsystem.malloc p).Safe s ↔ s.2.mem.HeapFits p := by
  unfold Libsystem.malloc
  rw [safe_answer_iff, safe_arg_bind_iff, safe_shimAlloc_iff fun _ => total_pure _]

theorem safe_calloc_iff : (Libsystem.calloc p).Safe s ↔ s.2.mem.HeapFits p := by
  unfold Libsystem.calloc
  rw [safe_answer_iff, safe_arg_bind_iff, safe_arg_bind_iff,
    safe_shimAlloc_iff fun _ => total_pure _]

/-- A block can be allocated, and copied to if there is an old one. -/
def ReallocFits (p : Profile) (s : ObjcRuntime × CallContext) : Prop :=
  s.2.mem.HeapFits p ∧
    (s.2.cpu.arg 0 ≠ 0 → s.2.mem.HeapHasRoom (s.2.cpu.arg 1) →
      (s.2.cpu.arg 1).toNat ≤ isizeMax)

theorem safe_realloc_iff : (Libsystem.realloc p).Safe s ↔ ReallocFits p s := by
  unfold Libsystem.realloc ReallocFits
  rw [safe_answer_iff, safe_arg_bind_iff, safe_arg_bind_iff, safe_bind_iff, safe_shimMem_iff,
    GuestMemory.safe_heapAlloc_iff]
  refine and_congr_right fun hfits => ?_
  have hcopy : ∀ new s', (if s.2.cpu.arg 0 ≠ 0 then
        Libsystem.copyBytes new (s.2.cpu.arg 0) (s.2.cpu.arg 1).toNat >>= fun _ => pure new
      else pure new : ShimM U64).Safe s' ↔
      (s.2.cpu.arg 0 ≠ 0 → (s.2.cpu.arg 1).toNat ≤ isizeMax) := by
    intro new s'
    split_ifs with hold
    · rw [safe_bind_total_iff fun _ => total_pure _, safe_copyBytes_iff]
      exact ⟨fun h _ => h, fun h => h hold⟩
    · exact iff_of_true (total_pure _ s') fun h => absurd h hold
  constructor
  · intro h hold hroom
    obtain ⟨new, m', hnew⟩ := GuestMemory.heapAlloc_isOk_iff.2 ⟨hfits, hroom⟩
    have hrun : ShimM.onMem (GuestMemory.heapAlloc p (s.2.cpu.arg 1) 16) s =
        .ok (.ok new) (s.1, { s.2 with mem := m' }) := by
      unfold ShimM.onMem attempt zoom
      simp only [hnew]
    exact (hcopy new _).1 (h _ _ hrun) hold
  · intro h r s' hrun
    rcases r with e | new
    · exact total_pure _ s'
    · refine (hcopy new s').2 fun hold => h hold ?_
      rcases attempt_eq_ok.1 hrun with ⟨a, hok, -⟩ | ⟨e, -, hr⟩
      · obtain ⟨b, m', hnew⟩ := zoom_isOk_iff.1 ⟨a, s', hok⟩
        exact (GuestMemory.heapAlloc_isOk_iff.1 ⟨b, m', hnew⟩).2
      · cases hr

theorem total_cstrArg (n : Fin 8) (max : ℕ) : (Libsystem.cstrArg n max).Total :=
  Total.bind (fun _ => safe_of_ok rfl) fun _ => Total.bind (fun _ => safe_of_ok rfl) fun _ =>
    total_pure _

/-! ### `libobjc` -/

/-- The class that is asked for is known, or there is room to align for it. -/
def ClassFits (p : Profile) (s : ObjcRuntime × CallContext) : Prop :=
  s.1.classAddrByName.get? (((s.2.mem.readCstr (s.2.cpu.arg 0) 256).toOption).getD "") = none →
    s.2.mem.HeapFits p

/-- The address is not that of a class, or an instance can be aligned. -/
def InstanceFits (p : Profile) (s : ObjcRuntime × CallContext) (addr : U64) : Prop :=
  (s.1.classIndexByAddr.get? addr).isSome → s.2.mem.HeapFits p

theorem safe_getOrCreateClass_iff {name : String} :
    (getOrCreateClass p name).Safe s ↔
      (s.1.classAddrByName.get? name = none → s.2.mem.HeapFits p) := by
  unfold getOrCreateClass
  rw [safe_runtime_bind_iff]
  rcases s.1.classAddrByName.get? name with _ | addr
  · simp only [true_imp_iff]
    refine safe_shimAlloc_iff fun r => ?_
    rcases r with e | addr
    · exact total_pure _
    · refine (total_shimWrite _ _).bind fun r => ?_
      rcases r with e | u
      · exact total_pure _
      · exact (total_modify _).bind fun _ => total_pure _
  · exact iff_of_true (total_pure _ s) (by rintro ⟨⟩)

theorem safe_objcGetClass_iff : (ObjcRt.objcGetClass p).Safe s ↔ ClassFits p s := by
  unfold ObjcRt.objcGetClass ClassFits
  rw [safe_answer_iff, safe_arg_bind_iff, safe_readShim_bind_iff,
    safe_bind_total_iff fun _ => total_pure _, safe_getOrCreateClass_iff]

theorem safe_allocInstance_iff {addr : U64} :
    (allocInstance p addr).Safe s ↔ InstanceFits p s addr := by
  unfold allocInstance InstanceFits
  rw [safe_runtime_bind_iff]
  rcases s.1.classIndexByAddr.get? addr with _ | index
  · exact iff_of_true (total_pure _ s) (by simp)
  · simp only [Option.isSome_some, true_imp_iff]
    refine safe_shimAlloc_iff fun r => ?_
    rcases r with e | obj
    · exact total_pure _
    · refine (total_shimWrite _ _).bind fun r => ?_
      rcases r with e | u
      · exact total_pure _
      · exact (total_modify _).bind fun _ => total_pure _

theorem safe_objcAlloc_iff :
    (ObjcRt.objcAlloc p).Safe s ↔ InstanceFits p s (s.2.cpu.arg 0) := by
  unfold ObjcRt.objcAlloc allocVia
  rw [safe_arg_bind_iff, safe_bind_total_iff fun _ => total_pure _,
    safe_bind_total_iff fun _ => total_ret _, safe_allocInstance_iff]

/-- When the answer to a message does not panic. A count is a signed word, and the index of a
class is looked up unchecked. -/
def MessageFits (p : Profile) (s : ObjcRuntime × CallContext) (recv : U64) : Message → Prop
  | .alloc | .new => InstanceFits p s recv
  | .retain => ∀ c, s.1.retainCounts.get? recv = some c → p = .debug → c ≠ BitVec.intMax 64
  | .release => ∀ c, s.1.retainCounts.get? recv = some c → p = .debug → c ≠ BitVec.intMin 64
  | .classObject => ∀ i, s.1.instanceClass.get? recv = some i → i < s.1.classes.length
  | _ => True

theorem safe_countBy_iff {n : BitVec 64} {obj : U64} :
    (countBy p n obj).Safe s ↔
      ∀ c, s.1.retainCounts.get? obj = some c →
        p = .debug → (c + n).toInt = c.toInt + n.toInt := by
  unfold countBy
  rw [safe_runtime_bind_iff]
  rcases s.1.retainCounts.get? obj with _ | c
  · exact iff_of_true (total_pure _ s) (by rintro _ ⟨⟩)
  · simp only [Option.some.injEq, forall_eq']
    rw [safe_bind_total_iff fun _ => total_modifyRuntime _, safe_ofChecked_iff,
      Profile.addSigned_isOk_iff]

theorem toInt_add_one_iff {c : BitVec 64} :
    (c + 1).toInt = c.toInt + (1 : BitVec 64).toInt ↔ c ≠ BitVec.intMax 64 := by
  have hmax : (BitVec.intMax 64).toNat = 2 ^ 63 - 1 := rfl
  have hone : (1 : BitVec 64).toInt = 1 := rfl
  have hnext : (1 : BitVec 64).toNat = 1 := rfl
  rw [ne_eq, ← BitVec.toNat_inj, hmax, hone, BitVec.toInt_eq_toNat_cond, BitVec.toInt_eq_toNat_cond,
    BitVec.toNat_add, hnext]
  have := c.isLt
  split_ifs <;> omega

theorem toInt_sub_one_iff {c : BitVec 64} :
    (c + -1).toInt = c.toInt + (-1 : BitVec 64).toInt ↔ c ≠ BitVec.intMin 64 := by
  have hmin : (BitVec.intMin 64).toNat = 2 ^ 63 := rfl
  have hone : (-1 : BitVec 64).toInt = -1 := rfl
  have hlast : (-1 : BitVec 64).toNat = 2 ^ 64 - 1 := rfl
  rw [ne_eq, ← BitVec.toNat_inj, hmin, hone, BitVec.toInt_eq_toNat_cond, BitVec.toInt_eq_toNat_cond,
    BitVec.toNat_add, hlast]
  have := c.isLt
  split_ifs <;> omega

theorem safe_classOf_iff {obj : U64} :
    (classOf obj).Safe s ↔
      ∀ i, s.1.instanceClass.get? obj = some i → i < s.1.classes.length := by
  unfold classOf
  rw [safe_runtime_bind_iff]
  rcases s.1.instanceClass.get? obj with _ | i
  · exact iff_of_true (total_pure _ s) (by rintro _ ⟨⟩)
  · simp only [Option.some.injEq, forall_eq']
    rw [safe_bind_total_iff fun _ => total_pure _, safe_ofChecked_iff]
    unfold className
    rcases hi : s.1.classes[i]? with _ | cls
    · exact iff_of_false (by rintro ⟨_, ⟨⟩⟩) (not_lt.2 (List.getElem?_eq_none_iff.1 hi))
    · exact iff_of_true ⟨_, rfl⟩ (List.getElem?_eq_some_iff.1 hi).1

theorem safe_receive_iff {recv : U64} (msg : Message) :
    (receive p recv msg).Safe s ↔ MessageFits p s recv msg := by
  have halloc : (do
      let rt ← ShimM.runtime
      if (rt.classIndexByAddr.get? recv).isSome then
        let obj ← allocInstance p recv
        return obj.getD 0
      else return 0 : ShimM U64).Safe s ↔ InstanceFits p s recv := by
    rw [safe_runtime_bind_iff]
    split_ifs with hcls
    · rw [safe_bind_total_iff fun _ => total_pure _, safe_allocInstance_iff]
    · exact iff_of_true (total_pure _ s) fun h => absurd h hcls
  cases msg with
  | alloc => exact halloc
  | new => exact halloc
  | retain =>
    simp only [receive, MessageFits]
    rw [safe_bind_total_iff fun _ => total_pure _, safe_countBy_iff]
    simp only [toInt_add_one_iff]
  | release =>
    simp only [receive, MessageFits]
    rw [safe_bind_total_iff fun _ => total_pure _, safe_countBy_iff]
    simp only [toInt_sub_one_iff]
  | classObject => exact safe_classOf_iff
  | retainCount =>
    exact iff_of_true (Total.bind (fun _ => safe_of_ok rfl) (fun _ => total_pure _) s) trivial
  | init | identity | hash | no | other => exact iff_of_true (total_pure _ s) trivial

/-- When a message does not panic : it goes to `nil`, its selector cannot be read, or its
answer does not panic. -/
def SendFits (p : Profile) (s : ObjcRuntime × CallContext) : Prop :=
  s.2.cpu.arg 0 ≠ 0 → ∀ sel, s.2.mem.readCstr (s.2.cpu.arg 1) 256 = .ok sel → sel ≠ "" →
    MessageFits p s (s.2.cpu.arg 0) (.ofSelector sel)

theorem safe_msgSend_iff : (msgSend p).Safe s ↔ SendFits p s := by
  unfold msgSend SendFits
  rw [safe_answer_iff, safe_arg_bind_iff, safe_arg_bind_iff]
  split_ifs with hnil
  · exact iff_of_true (total_pure _ s) fun h => absurd hnil h
  · rw [safe_readShim_bind_iff]
    rcases s.2.mem.readCstr (s.2.cpu.arg 1) 256 with e | sel
    · exact iff_of_true (total_pure _ s) (by rintro _ _ ⟨⟩)
    · simp only [Except.ok.injEq, forall_eq']
      split_ifs with hsel
      · exact iff_of_true (total_pure _ s) fun _ h => absurd hsel h
      · rw [safe_receive_iff]
        exact ⟨fun h _ _ => h, fun h => h hnil hsel⟩

/-! ### The registry -/

/-- When the shim of a symbol does not panic. -/
def ShimFits (p : Profile) (symbol : String) (s : ObjcRuntime × CallContext) : Prop :=
  if symbol ∈ ["memcpy", "memmove", "memset", "memcmp"] then (s.2.cpu.arg 2).toNat ≤ isizeMax
  else if symbol = "bzero" then (s.2.cpu.arg 1).toNat ≤ isizeMax
  else if symbol ∈ ["malloc", "calloc"] then s.2.mem.HeapFits p
  else if symbol = "realloc" then ReallocFits p s
  else if symbol ∈ ["objc_getClass", "objc_lookUpClass", "objc_getRequiredClass",
    "objc_getMetaClass"] then ClassFits p s
  else if symbol ∈ ["objc_alloc", "objc_alloc_init"] then InstanceFits p s (s.2.cpu.arg 0)
  else if symbol ∈ ["objc_msgSend", "objc_msgSendSuper", "objc_msgSendSuper2"] then SendFits p s
  else True

theorem total_stubZero : stubZero.Total :=
  total_answer (total_pure _)

theorem safe_stubs_iff {names : List String} (h : ∀ name ∈ names, ShimFits p name s) :
    ∀ e ∈ stubs names, e.2.Safe s ↔ ShimFits p e.1 s := by
  intro e he
  obtain ⟨name, hname, rfl⟩ := List.mem_map.1 he
  exact iff_of_true (total_stubZero s) (h name hname)

theorem safe_objcShims_iff : ∀ e ∈ ObjcRt.shims p, e.2.Safe s ↔ ShimFits p e.1 s := by
  have harg : (ShimM.answer (ShimM.arg 0)).Total := total_answer fun _ => safe_of_ok rfl
  have hpure : ∀ v, (ShimM.answer (pure v)).Safe s := fun v => total_answer (total_pure v) s
  simp only [ObjcRt.shims, List.forall_mem_append, List.forall_mem_cons, List.not_mem_nil,
    false_imp_iff, implies_true, and_true]
  refine ⟨?_, safe_stubs_iff (by simp [ShimFits])⟩
  simp [ShimFits, safe_msgSend_iff, safe_objcGetClass_iff, safe_objcAlloc_iff,
    ObjcRt.selRegisterName, ObjcRt.objcRetain, ObjcRt.objcRelease, harg s, hpure]

theorem safe_libsystemShims_iff : ∀ e ∈ Libsystem.shims p, e.2.Safe s ↔ ShimFits p e.1 s := by
  have hpure : ∀ v, (ShimM.answer (pure v)).Safe s := fun v => total_answer (total_pure v) s
  have hstrlen : Libsystem.strlen.Total :=
    total_answer ((total_cstrArg _ _).bind fun _ => total_pure _)
  have hstrcmp : Libsystem.strcmp.Total :=
    total_answer ((total_cstrArg _ _).bind fun _ => (total_cstrArg _ _).bind fun _ =>
      total_pure _)
  simp only [Libsystem.shims, List.forall_mem_cons, List.not_mem_nil, false_imp_iff,
    implies_true, and_true]
  simp [ShimFits, safe_memcpy_iff, safe_memset_iff, safe_memcmp_iff, safe_bzero_iff,
    safe_malloc_iff, safe_calloc_iff, safe_realloc_iff, Libsystem.free, Libsystem.pthreadOnce,
    hpure, hstrlen s, hstrcmp s, total_stubZero s]

theorem safe_bundled_iff : ∀ e ∈ bundled p, e.2.Safe s ↔ ShimFits p e.1 s := by
  have hpure : ∀ v, (ShimM.answer (pure v)).Safe s := fun v => total_answer (total_pure v) s
  simp only [bundled, foundation, uikit, coregraphics, gles, List.forall_mem_append,
    List.forall_mem_cons, List.not_mem_nil, false_imp_iff, implies_true, and_true]
  refine ⟨⟨⟨⟨⟨safe_objcShims_iff, safe_libsystemShims_iff⟩, ?_, safe_stubs_iff ?_⟩, ?_,
    safe_stubs_iff ?_⟩, safe_stubs_iff ?_, ?_⟩, safe_stubs_iff ?_⟩ <;>
    simp [ShimFits, nsLog, uiApplicationMain, cgMainDisplayId, hpure]

/-- A symbol without a shim is only answered. -/
theorem shimFits_of_notMem {symbol : String} (h : symbol ∉ (bundled p).map Prod.fst) :
    ShimFits p symbol s := by
  have hnames : ∀ name ∈ ["memcpy", "memmove", "memset", "memcmp", "bzero", "malloc", "calloc",
      "realloc", "objc_getClass", "objc_lookUpClass", "objc_getRequiredClass",
      "objc_getMetaClass", "objc_alloc", "objc_alloc_init", "objc_msgSend", "objc_msgSendSuper",
      "objc_msgSendSuper2"], name ∈ (bundled p).map Prod.fst := by
    rw [names_bundled]
    decide
  have hne := fun name hname => ne_of_mem_of_not_mem (hnames name hname) h
  simp only [List.forall_mem_cons, List.not_mem_nil, false_imp_iff, implies_true, and_true,
    ne_comm (b := symbol)] at hne
  simp [ShimFits, hne]

end Shims

/-! ## Events -/

namespace Service

variable {b : Build} {s : Service} {mach : Machine ObjcRuntime}

/-- When servicing the event does not panic. -/
def Fits (b : Build) (s : Service) (mach : Machine ObjcRuntime) : Prop :=
  match s.trampoline with
  | none => SyscallFits (s.host b) mach.vfs mach.dispatcher (s.enter mach).syscallCtx
  | some addr => ∀ symbol, mach.trampolines.get? addr = some symbol →
      ShimFits b.profile symbol (mach.world, ⟨s.cpu, mach.mem⟩)

theorem safe_serviceSyscall_iff {host : Host} :
    (Machine.serviceSyscall host : MachM ObjcRuntime Unit).Safe mach ↔
      SyscallFits host mach.vfs mach.dispatcher mach.syscallCtx := by
  unfold Machine.serviceSyscall
  rw [safe_get_bind_iff, safe_bind_total_iff fun _ => total_modify _, safe_mapErr_iff,
    safe_zoom_iff, safe_dispatch_iff]
  rfl

theorem total_dyldStubBinder (target : Target) :
    (Machine.dyldStubBinder target : MachM ObjcRuntime Unit).Total := by
  have hpatch : ∀ laPtr resolved,
      (Machine.patchLazyPointer target laPtr resolved : MachM ObjcRuntime Unit).Total := by
    intro laPtr resolved
    refine Total.bind (fun mach => safe_attempt_iff.2 (safe_zoom_iff.2
      (GuestMemory.total_write _ _ mach.mem))) fun r => ?_
    rcases r with e | u
    · exact total_pure _
    · exact Total.bind (fun mach => safe_attempt_iff.2 (safe_zoom_iff.2
        (GuestMemory.total_commitToNative target laPtr mach.mem))) fun _ => total_pure _
  refine total_get.bind fun mach => ?_
  rcases mach.mem.readU64 mach.cpu.sp with e | word
  · exact total_modify _
  dsimp only
  rcases mach.lazyBinds.get? (word &&& 0xffffffff) with _ | ⟨symbol, laPtr⟩
  · exact total_modify _
  dsimp only
  rcases mach.symbolStubs.get? symbol with _ | resolved
  · exact total_modify _
  · exact (hpatch laPtr resolved).bind fun _ => total_modify _

theorem safe_call_iff {p : Profile} {vfs : Sandbox} {symbol : String}
    {w : ObjcRuntime × CallContext} :
    ((hleEnvironment p).call vfs symbol).Safe w ↔ ShimFits p symbol w := by
  simp only [hleEnvironment]
  unfold callShim
  rcases hget : (installAll p).get? symbol with _ | shim
  · refine iff_of_true (total_pure _ w) (shimFits_of_notMem fun hmem => ?_)
    obtain ⟨e, he, rfl⟩ := List.mem_map.1 hmem
    rw [get?_installAll.2 he] at hget
    cases hget
  · exact safe_bundled_iff _ (get?_installAll.1 hget)

theorem safe_serviceTrampoline_iff {target : Target} {env : HostEnvironment ObjcRuntime}
    {p : Profile} (hcall : ∀ vfs symbol w, (env.call vfs symbol).Safe w ↔ ShimFits p symbol w)
    {addr : U64} :
    (Machine.serviceTrampoline target env addr).Safe mach ↔
      ∀ symbol, mach.trampolines.get? addr = some symbol →
        ShimFits p symbol (mach.world, ⟨mach.cpu, mach.mem⟩) := by
  unfold Machine.serviceTrampoline
  rw [safe_get_bind_iff]
  rcases mach.trampolines.get? addr with _ | symbol
  · exact iff_of_true (total_modify _ mach) (by rintro _ ⟨⟩)
  · simp only [Option.some.injEq, forall_eq']
    split_ifs with hbinder
    · refine iff_of_true (total_dyldStubBinder target mach) ?_
      subst hbinder
      simp [ShimFits]
    · unfold Machine.callImport
      rw [safe_get_bind_iff, safe_bind_total_iff, Machine.onWorld, safe_mapErr_iff, safe_zoom_iff,
        hcall]
      intro d
      split_ifs
      · exact (total_modify _).bind fun _ => total_modify _
      · exact total_modify _

theorem infallible_serviceSyscall (host : Host) :
    (Machine.serviceSyscall host : MachM ObjcRuntime Unit).Infallible :=
  infallible_get.bind fun _ => infallible_mapErr.bind fun _ => infallible_modify _

theorem infallible_dyldStubBinder (target : Target) :
    (Machine.dyldStubBinder target : MachM ObjcRuntime Unit).Infallible := by
  have hpatch : ∀ laPtr resolved,
      (Machine.patchLazyPointer target laPtr resolved : MachM ObjcRuntime Unit).Infallible := by
    intro laPtr resolved
    refine infallible_attempt.bind fun r => ?_
    rcases r with e | u
    · exact infallible_pure _
    · exact infallible_attempt.bind fun _ => infallible_pure _
  refine infallible_get.bind fun mach => ?_
  rcases mach.mem.readU64 mach.cpu.sp with e | word
  · exact infallible_modify _
  dsimp only
  rcases mach.lazyBinds.get? (word &&& 0xffffffff) with _ | ⟨symbol, laPtr⟩
  · exact infallible_modify _
  dsimp only
  rcases mach.symbolStubs.get? symbol with _ | resolved
  · exact infallible_modify _
  · exact (hpatch laPtr resolved).bind fun _ => infallible_modify _

theorem infallible_serviceTrampoline (target : Target) (env : HostEnvironment ObjcRuntime)
    (addr : U64) : (Machine.serviceTrampoline target env addr).Infallible := by
  refine infallible_get.bind fun mach => ?_
  rcases mach.trampolines.get? addr with _ | symbol
  · exact infallible_modify _
  · dsimp only
    split_ifs
    · exact infallible_dyldStubBinder target
    · refine infallible_get.bind fun _ => infallible_mapErr.bind fun d => ?_
      split_ifs
      · exact (infallible_modify _).bind fun _ => infallible_modify _
      · exact infallible_modify _

theorem safe_turn_iff :
    (Machine.turn (s.host b) (hleEnvironment b.profile) s.event).Safe (s.enter mach) ↔
      s.Fits b mach := by
  unfold event Fits
  rcases s.trampoline with _ | addr
  · simp only [Machine.turn]
    rw [safe_bind_total_iff fun _ => total_get.bind fun _ => total_pure _,
      safe_serviceSyscall_iff]
    rfl
  · simp only [Machine.turn]
    rw [safe_bind_total_iff fun _ => total_pure _,
      safe_serviceTrampoline_iff fun _ _ _ => safe_call_iff]
    rfl

theorem infallible_turn : (Machine.turn (s.host b) (hleEnvironment b.profile) s.event).Infallible := by
  unfold event
  rcases s.trampoline with _ | addr
  · exact Infallible.bind (infallible_serviceSyscall _) fun _ =>
      infallible_get.bind fun _ => infallible_pure _
  · exact Infallible.bind (infallible_serviceTrampoline _ _ _) fun _ => infallible_pure _

end Service

/-- A serviced event ends without a panic exactly if the buffers that registers ask for are
no longer than `isize::MAX`, and in a debug build no counter, count, cursor or size
overflows. -/
theorem service_returns_iff (b : Build) (s : Service) (mach : Machine ObjcRuntime) :
    (∃ code mach', s.run b mach = .ok code mach') ↔ s.Fits b mach :=
  Service.infallible_turn.safe_iff.symm.trans Service.safe_turn_iff

/-! ## A call that panics -/

/-- `read(0, 0, 2 ^ 63)`. -/
def readService : Service where
  kernel := .willing
  clock := none
  cpu :=
    { CpuContext.default with
      x := fun i => if i = 16 then 3 else if i = 2 then 0x8000000000000000 else 0 }
  trampoline := none

/-- The loaded process of the file panics when it asks for more bytes than a buffer holds. -/
theorem readService_panics :
    ∃ mach e, Machine.load ⟨.release, .host⟩ ⟨0, 0, 0⟩ .default importFile importSandbox
        ⟨fun _ => none⟩ ObjcRuntime.new = .ok mach () ∧
      readService.run ⟨.release, .host⟩ mach = .panic e := by
  obtain ⟨mach, hload⟩ := load_importFile
  have hnot : ¬ readService.Fits ⟨.release, .host⟩ mach := by
    rintro ⟨-, hselector⟩
    have hread : (0x8000000000000000 : U64).toNat ≤ isizeMax :=
      hselector .unix 3 (show decode .release 3 = _ by decide)
    exact absurd hread (by decide)
  rw [← Service.safe_turn_iff] at hnot
  obtain ⟨e, he⟩ := not_forall_not.1 hnot
  exact ⟨mach, e, hload, he⟩

end IosEmu
