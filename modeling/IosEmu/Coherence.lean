import IosEmu.DeviceService
import IosEmu.Footprint
import IosEmu.SyscallTrap

/-!
# The two copies of a process

On device the guest reads and writes the native pages, and the services the buffers of the
host. `protect` and `commit_to_native` copy a buffer to its pages; nothing copies back, and no
other service publishes what it stores. So whatever the guest stores is unknown to the host,
and is gone when its region is published the next time.

`Leg` is what the guest stores until the next event, and the service of that event. Beside the
two copies a run carries the most recent value stored at each address. After a load the copies
agree (`DeviceStages.coherent`), and they hold the most recent values as long as the guest
stores nothing new in a reserved region and no service but the lazy binder stores there at all
(`copies_hold_latest`).
-/

open SysLib

namespace IosEmu

open GuestMemory Process

namespace Device

variable {nativeProtect : NativeProtect} {d d' : DeviceMemory} {S : Set ℕ}

/-! ## What a step leaves alone -/

/-- Outside `S` the bytes of reserved regions stay, and so do the pages that hold them. -/
def Steady (S : Set ℕ) (d d' : DeviceMemory) : Prop :=
  d.mem.Inv → d'.mem.Inv ∧ (∀ x, d'.mem.flat.Reserved x ↔ d.mem.flat.Reserved x) ∧
    ∀ x ∉ S, d.mem.flat.Reserved x → d'.mem.flat.byte x = d.mem.flat.byte x ∧
      (d.mem.flat.byte x = some (d.pages x) → d'.pages x = d.pages x)

theorem steady_refl (S : Set ℕ) (d : DeviceMemory) : Steady S d d :=
  fun hinv => ⟨hinv, fun _ => Iff.rfl, fun _ _ _ => ⟨rfl, fun _ => rfl⟩⟩

/-- A call on the buffers does not touch the pages. -/
theorem steady_of_touches {m m' : GuestMemory} (h : Touches S m m') (pages : Pages) :
    Steady S ⟨m, pages⟩ ⟨m', pages⟩ := by
  intro hinv
  obtain ⟨hinv', hres, hbyte⟩ := h hinv
  exact ⟨hinv', hres, fun x hx hr => ⟨hbyte x hx (hr.byte_ne_none hinv), fun _ => rfl⟩⟩

/-- Publishing a region does not change a page that holds the byte of the buffer. -/
theorem copied_of_held {m : GuestMemory} {pages : Pages} {k : U64} {r : Region} {x : ℕ}
    (hinv : m.Inv) (hr : m.regions.get? k = some r) (hx : m.flat.byte x = some (pages x)) :
    copied pages k r.data x = pages x := by
  by_cases hin : k.toNat ≤ x ∧ x < k.toNat + r.data.size
  · rw [hinv.byte_flat hr hin.1 hin.2] at hx
    have hself := @copied_of_mem pages k r.data (x - k.toNat) (by omega)
    rw [hx, Nat.add_sub_cancel' hin.1] at hself
    exact (Option.some.inj hself).symm
  · exact copied_of_notMem (by omega)

theorem steady_protect {a : U64} {prot : Protection}
    (h : (protect nativeProtect a prot d).state? = some d') : Steady ∅ d d' := by
  rcases protect_cases h with rfl | ⟨k, r, -, hr, hmem, hpages⟩
  · exact steady_refl _ _
  · intro hinv
    rw [hmem, hpages]
    refine ⟨hinv.change (.setProt k r prot hr), reserved_setProt hr prot, fun x _ _ => ?_⟩
    exact ⟨hinv.byte_setProt hr prot x, copied_of_held hinv hr⟩

/-! ## System calls -/

variable {W : Type} {host : Host}

/-- What is left behind by a system call on device. -/
theorem dispatch_cases {vfs : Sandbox} {s : SyscallDispatcher} {c c' : DeviceCtx}
    (h : (dispatch nativeProtect host vfs s c).state? = some c') :
    (c'.ctx.mem = c.ctx.mem ∧ c'.pages = c.pages) ∨
      ∃ cls number handler c₁, decode host.build.profile (c.ctx.cpu.x 16) = .ok (cls, number) ∧
        handlerOf nativeProtect host vfs cls number = some handler ∧
        (handler c).state? = some c₁ ∧ c'.ctx.mem = c₁.ctx.mem ∧ c'.pages = c₁.pages := by
  unfold dispatch at h
  rcases Prog.state?_bind_eq_some h with ⟨serviced, c₁, hok, h₁⟩ | ⟨e, -⟩
  · obtain ⟨-, rfl⟩ := Prog.ofChecked_eq_ok.1 hok
    rw [Prog.get_bind] at h₁
    rcases Prog.state?_bind_eq_some h₁ with ⟨⟨cls, number⟩, c₂, hok, h₂⟩ | ⟨e, -⟩
    · obtain ⟨hdecode, rfl⟩ := Prog.ofChecked_eq_ok.1 hok
      rcases hh : handlerOf nativeProtect host vfs cls number with _ | handler <;>
        simp only [hh] at h₂
      · rcases Prog.state?_bind_eq_some h₂ with ⟨stubbed, c₃, hok, h₃⟩ | ⟨e, -⟩
        · obtain ⟨-, rfl⟩ := Prog.ofChecked_eq_ok.1 hok
          obtain rfl := Option.some.inj h₃
          exact Or.inl ⟨rfl, rfl⟩
        · exact e.elim
      · rcases Prog.state?_bind_eq_some h₂ with ⟨result, c₃, hok, h₃⟩ | ⟨e, -⟩
        · obtain rfl := Option.some.inj h₃
          refine Or.inr ⟨cls, number, handler, c₃, hdecode, hh, ?_, rfl, rfl⟩
          rcases Prog.attempt_eq_ok.1 hok with ⟨a, hrun, -⟩ | ⟨e, hrun, -⟩
          · rw [hrun]
            rfl
          · rw [hrun]
            rfl
        · exact e.elim
    · exact e.elim
  · exact e.elim

/-- A handler of the host does not touch the pages. -/
theorem onCtx_cases {α : Type} {x : SysM α} {c c' : DeviceCtx}
    (h : (onCtx x c).state? = some c') : (x c.ctx).state? = some c'.ctx ∧ c'.pages = c.pages := by
  unfold onCtx Prog.zoom at h
  rcases hx : x c.ctx with ⟨a, c₁⟩ | ⟨e, c₁⟩ | e <;> rw [hx] at h
  · obtain rfl := Option.some.inj h
    exact ⟨rfl, rfl⟩
  · obtain rfl := Option.some.inj h
    exact ⟨rfl, rfl⟩
  · cases h

theorem sysMprotect_cases {c c' : DeviceCtx}
    (h : (sysMprotect nativeProtect c).state? = some c') :
    (protect nativeProtect (c.ctx.cpu.arg 0) (Unix.protOf (c.ctx.cpu.arg 2))
      ⟨c.ctx.mem, c.pages⟩).state? = some ⟨c'.ctx.mem, c'.pages⟩ := by
  unfold sysMprotect at h
  rw [Prog.get_bind] at h
  have hstep : (onCopies Errno.EINVAL (protect nativeProtect (c.ctx.cpu.arg 0)
      (Unix.protOf (c.ctx.cpu.arg 2))) c).state? = some c' := by
    rcases Prog.state?_bind_eq_some h with ⟨⟨⟩, c₁, hok, h⟩ | ⟨e, herr⟩
    · obtain rfl := Option.some.inj h
      rw [hok]
      rfl
    · rw [herr]
      rfl
  unfold onCopies Prog.mapErr Prog.zoom at hstep
  rcases hx : protect nativeProtect (c.ctx.cpu.arg 0) (Unix.protOf (c.ctx.cpu.arg 2))
    ⟨c.ctx.mem, c.pages⟩ with ⟨⟨⟩, m⟩ | ⟨e, m⟩ | e <;> simp only [hx] at hstep
  · obtain rfl := Option.some.inj hstep
    rfl
  · obtain rfl := Option.some.inj hstep
    rfl
  · cases hstep

/-- A system call leaves the copies alone where it does not store. -/
theorem steady_serviceSyscall {d d' : DeviceMachine W}
    (h : (serviceSyscall nativeProtect host d).state? = some d') :
    Steady (syscallStores host d.mach) d.memory d'.memory := by
  obtain ⟨c', hdispatch, hmem, hpages⟩ : ∃ c', (dispatch nativeProtect host d.mach.vfs
      d.mach.dispatcher ⟨d.mach.syscallCtx, d.pages⟩).state? = some c' ∧
      d'.mach.mem = c'.ctx.mem ∧ d'.pages = c'.pages := by
    unfold serviceSyscall at h
    rw [Prog.get_bind, Prog.bind_apply] at h
    unfold Prog.mapErr Prog.zoom at h
    rcases hd : dispatch nativeProtect host d.mach.vfs d.mach.dispatcher
      ⟨d.mach.syscallCtx, d.pages⟩ with ⟨s, c⟩ | ⟨e, c⟩ | e
    · simp only [hd] at h
      obtain rfl := Option.some.inj h
      exact ⟨c, rfl, rfl, rfl⟩
    · exact e.elim
    · simp only [hd] at h
      cases h
  have hmemory : d'.memory = ⟨c'.ctx.mem, c'.pages⟩ := by
    rw [DeviceMachine.memory, hmem, hpages]
  rw [hmemory]
  rcases dispatch_cases hdispatch with
    ⟨hm, hp⟩ | ⟨cls, number, handler, c₁, hdecode, hh, hrun, hm, hp⟩
  · rw [hm, hp]
    exact steady_refl _ _
  · rw [hm, hp]
    have hstores := hdecode
    change decode host.build.profile (d.mach.cpu.x 16) = _ at hstores
    unfold syscallStores
    rw [hstores]
    cases cls with
    | unix =>
      obtain ⟨call, hcall, rfl⟩ := Option.map_eq_some_iff.1 hh
      simp only [hcall, Option.elim_some]
      unfold handle at hrun
      split_ifs at hrun with hprot
      · subst hprot
        exact steady_protect (sysMprotect_cases hrun)
      · obtain ⟨hrun, hpages⟩ := onCtx_cases hrun
        rw [hpages]
        exact steady_of_touches (touches_handle hrun) _
    | mach =>
      obtain ⟨trap, htrap, rfl⟩ := Option.map_eq_some_iff.1 hh
      simp only [htrap, Option.elim_some]
      obtain ⟨hrun, hpages⟩ := onCtx_cases hrun
      rw [hpages]
      exact steady_of_touches (touches_trap hrun) _
    | machDep => cases hh
    | diag => cases hh

/-! ## Trampolines -/

theorem onMach_cases {α : Type} {x : MachM W α} {d d' : DeviceMachine W}
    (h : (onMach x d).state? = some d') :
    (x d.mach).state? = some d'.mach ∧ d'.pages = d.pages := by
  unfold onMach Prog.zoom at h
  rcases hx : x d.mach with ⟨a, mach⟩ | ⟨e, mach⟩ | e <;> rw [hx] at h
  · obtain rfl := Option.some.inj h
    exact ⟨rfl, rfl⟩
  · obtain rfl := Option.some.inj h
    exact ⟨rfl, rfl⟩
  · cases h

/-- An attempted call on both copies leaves what the call leaves. -/
theorem attempt_onMemory {α : Type} {x : DevM α} {d d' : DeviceMachine W}
    (h : (((Prog.attempt (onMemory x) : DevMachM W (EmuResult α)) >>= fun _ => pure ()) d).state? =
      some d') : (x d.memory).state? = some d'.memory := by
  rw [Prog.bind_apply] at h
  unfold Prog.attempt onMemory Prog.zoom at h
  rcases hm : x d.memory with ⟨a, m⟩ | ⟨e, m⟩ | e <;> simp only [hm] at h
  · obtain rfl := Option.some.inj h
    rfl
  · obtain rfl := Option.some.inj h
    rfl
  · cases h

/-- A region that is found is published, if nothing faults. -/
theorem commitToNative_of_region {a k : U64} {r : Region} (hk : d.mem.regionBase a = .ok k)
    (hr : d.mem.regions.get? k = some r) (h : (commitToNative a d).state? = some d') :
    d' = { d with pages := copied d.pages k r.data } := by
  unfold commitToNative at h
  rw [Prog.get_bind, hk, Prog.ofResult_ok_bind, unwrapRegion_eq_ok.2 hr, Prog.ofChecked_ok_bind] at h
  rcases hcopy : copyIn d.pages k r.data with e | pages <;> rw [hcopy] at h
  · cases h
  · obtain ⟨-, rfl⟩ := copyIn_eq_ok.1 hcopy
    exact (Option.some.inj h).symm

/-- Publishing what has just been stored. -/
theorem commit_after_write {m m₁ : GuestMemory} {pages : Pages} {a : U64} {bytes : List U8}
    {d' : DeviceMemory} (hinv : m.Inv) (hpos : 0 < bytes.length)
    (hw : GuestMemory.write a bytes m = .ok () m₁)
    (h : (commitToNative a ⟨m₁, pages⟩).state? = some d') :
    Steady (span a bytes.length) ⟨m, pages⟩ d' ∧
      ∀ x ∈ span a bytes.length, d'.mem.flat.byte x = some (d'.pages x) := by
  have hinv₁ := hinv.of_write hw
  obtain ⟨hinv', hres, hbyte⟩ := (touches_write subset_rfl).ok hw hinv
  obtain ⟨key, r, hkey, hle, hend⟩ : ∃ key r, m₁.regions.get? key = some r ∧ key ≤ a ∧
      a.toNat + bytes.length ≤ key.toNat + r.data.size := by
    obtain ⟨key, r, hl, hle, hend, -, rfl⟩ := write_eq_ok.1 hw
    rw [hinv.base_eq key r (get?_of_lastLE hl)] at hle hend
    refine ⟨key, _, SortedMap.get?_insert_self _ _ _, hle, ?_⟩
    rw [Buffer.size_overwrite]
    exact hend
  have hle' := BitVec.le_def.1 hle
  -- The region that was written to is the one that is published.
  have hregion : m₁.regionBase a = .ok key := by
    refine (regionBase_eq_ok _ hinv₁ _ _).2 ⟨r, hkey, ?_, ?_⟩
    · rw [hinv₁.base_eq key r hkey]
      exact hle
    · rw [hinv₁.base_eq key r hkey]
      omega
  obtain rfl := commitToNative_of_region hregion hkey h
  refine ⟨fun _ => ⟨hinv₁, hres, fun x hx hr => ?_⟩, fun x hx => ?_⟩
  · have hsame := hbyte x hx (hr.byte_ne_none hinv)
    exact ⟨hsame, fun hheld => copied_of_held hinv₁ hkey (hsame.trans hheld)⟩
  · obtain ⟨hlo, hhi⟩ := hx
    dsimp only
    rw [hinv₁.byte_flat hkey (by omega) (by omega), copied_of_mem (by omega),
      Nat.add_sub_cancel' (by omega)]

/-- The patched pointer is published. -/
theorem steady_patchLazyPointer {laPtr resolved : U64} {d d' : DeviceMachine W}
    (hinv : d.mach.mem.Inv) (h : (patchLazyPointer laPtr resolved d).state? = some d') :
    Steady (d.mach.mem.storedAt laPtr 8) d.memory d'.memory ∧
      ∀ x ∈ d.mach.mem.storedAt laPtr 8, d'.mach.mem.flat.byte x = some (d'.pages x) := by
  unfold patchLazyPointer at h
  have hgrant := @Inv.write_isOk_iff _ hinv laPtr (toLeBytes64 resolved)
  rw [length_toLeBytes64] at hgrant
  rcases hw : GuestMemory.writeU64 laPtr resolved d.mach.mem with ⟨⟨⟩, m₁⟩ | ⟨e, m₁⟩ | e
  · have hstore : (Prog.attempt (onMemory (onHost (GuestMemory.writeU64 laPtr resolved))) :
        DevMachM W (EmuResult Unit)) d = .ok (.ok ()) (d.withMemory ⟨m₁, d.pages⟩) := by
      unfold Prog.attempt onMemory onHost Prog.zoom
      simp only [DeviceMachine.memory, hw]
    rw [Prog.bind_apply, hstore] at h
    have hstate := attempt_onMemory h
    obtain ⟨hsteady, hpub⟩ := commit_after_write hinv (by rw [length_toLeBytes64]; omega) hw hstate
    rw [length_toLeBytes64] at hsteady hpub
    have hslot : d.mach.mem.storedAt laPtr 8 = span laPtr 8 :=
      Set.ext fun x => and_iff_left (hgrant.1 ⟨m₁, hw⟩)
    rw [hslot]
    exact ⟨hsteady, hpub⟩
  · have hstore : (Prog.attempt (onMemory (onHost (GuestMemory.writeU64 laPtr resolved))) :
        DevMachM W (EmuResult Unit)) d = .ok (.error e) (d.withMemory ⟨m₁, d.pages⟩) := by
      unfold Prog.attempt onMemory onHost Prog.zoom
      simp only [DeviceMachine.memory, hw]
    rw [Prog.bind_apply, hstore] at h
    obtain rfl := Option.some.inj h
    obtain rfl := write_failsClean _ _ _ _ _ hw
    refine ⟨steady_refl _ _, fun x hx => ?_⟩
    obtain ⟨m₂, hw₂⟩ := hgrant.2 hx.2
    cases hw.symm.trans hw₂
  · exact absurd hw (write_ne_panic _ _ _ _)

/-- If nothing is found, the lazy binder returns to its caller. -/
theorem dyldStubBinder_of_not_resolves {d : DeviceMachine W}
    (h : ¬∃ symbol slot stub, d.mach.Resolves symbol slot stub) :
    dyldStubBinder d = onMach Machine.returnToCaller d := by
  unfold dyldStubBinder
  rw [Prog.get_bind]
  rcases hword : d.mach.mem.readU64 d.mach.cpu.sp with e | word
  · rfl
  dsimp only
  rcases hlazy : d.mach.lazyBinds.get? (word &&& 0xffffffff) with _ | ⟨symbol, slot⟩
  · rfl
  dsimp only
  rcases hstub : d.mach.symbolStubs.get? symbol with _ | stub
  · rfl
  · exact absurd ⟨symbol, slot, stub, ⟨word, hword, hlazy⟩, hstub⟩ h

/-- The lazy binder publishes what it stores. -/
theorem steady_dyldStubBinder {d d' : DeviceMachine W} (hinv : d.mach.mem.Inv)
    (h : (dyldStubBinder d).state? = some d') :
    Steady (binderStores d.mach) d.memory d'.memory ∧
      ∀ x ∈ binderStores d.mach, d'.mach.mem.flat.byte x = some (d'.pages x) := by
  -- Returning to the caller changes a register.
  have hret : ∀ {S}, (onMach Machine.returnToCaller d).state? = some d' →
      Steady S d.memory d'.memory := by
    intro S hret
    obtain ⟨hmach, hpages⟩ := onMach_cases hret
    have hmem : d'.mach.mem = d.mach.mem := by rw [← Option.some.inj hmach]
    rw [DeviceMachine.memory, DeviceMachine.memory, hmem, hpages]
    exact steady_refl _ _
  by_cases hres : ∃ symbol slot stub, d.mach.Resolves symbol slot stub
  swap
  · rw [dyldStubBinder_of_not_resolves hres] at h
    refine ⟨hret h, fun x hx => ?_⟩
    obtain ⟨symbol, slot, stub, hstub, -⟩ := hx
    exact absurd ⟨symbol, slot, stub, hstub⟩ hres
  obtain ⟨symbol, laPtr, resolved, hres⟩ := hres
  rw [binderStores_of_resolves hres]
  obtain ⟨⟨word, hword, hlazy⟩, hstub⟩ := hres
  unfold dyldStubBinder at h
  rw [Prog.get_bind] at h
  simp only [hword, hlazy, hstub] at h
  rcases Prog.state?_bind_eq_some h with ⟨⟨⟩, d₁, hpatch, h⟩ | ⟨e, herr⟩
  · obtain ⟨hmach, hpages⟩ := onMach_cases h
    have hmem : d'.mach.mem = d₁.mach.mem := by rw [← Option.some.inj hmach]
    have hstate : (patchLazyPointer laPtr resolved d).state? = some d₁ := by
      rw [hpatch]
      rfl
    rw [DeviceMachine.memory, DeviceMachine.memory, hmem, hpages]
    exact steady_patchLazyPointer hinv hstate
  · exact steady_patchLazyPointer hinv (by rw [herr]; rfl)

/-- The trampoline is that of the lazy binder. -/
def IsBinder (mach : Machine W) (addr : U64) : Prop :=
  mach.trampolines.get? addr = some "dyld_stub_binder"

theorem state?_turn_syscall {env : HostEnvironment W} {imm : BitVec 16} {d d' : DeviceMachine W}
    (h : (turn nativeProtect host env (.syscall imm) d).state? = some d') :
    (serviceSyscall nativeProtect host d).state? = some d' := by
  rcases Prog.state?_bind_eq_some h with ⟨⟨⟩, d₁, hrun, h⟩ | ⟨e, herr⟩
  · obtain rfl := Option.some.inj h
    rw [hrun]
    rfl
  · rw [herr]
    rfl

theorem state?_turn_trampolineCall {env : HostEnvironment W} {addr : U64}
    {d d' : DeviceMachine W}
    (h : (turn nativeProtect host env (.trampolineCall addr) d).state? = some d') :
    (serviceTrampoline env addr d).state? = some d' := by
  rcases Prog.state?_bind_eq_some h with ⟨⟨⟩, d₁, hrun, h⟩ | ⟨e, herr⟩
  · obtain rfl := Option.some.inj h
    rw [hrun]
    rfl
  · rw [herr]
    rfl

/-- A call of a trampoline leaves the copies alone where it does not store, and the lazy binder
publishes what it stores. -/
theorem steady_serviceTrampoline {p : Profile} {addr : U64} {d d' : DeviceMachine ObjcRuntime}
    (hinv : d.mach.mem.Inv)
    (h : (serviceTrampoline (hleEnvironment p) addr d).state? = some d') :
    Steady (trampolineStores d.mach addr) d.memory d'.memory ∧
      (IsBinder d.mach addr → ∀ x ∈ trampolineStores d.mach addr,
        d'.mach.mem.flat.byte x = some (d'.pages x)) := by
  unfold serviceTrampoline at h
  rw [Prog.get_bind] at h
  unfold trampolineStores IsBinder
  rcases hsym : d.mach.trampolines.get? addr with _ | symbol <;> simp only [hsym] at h ⊢
  · obtain ⟨hmach, hpages⟩ := onMach_cases h
    have hmem : d'.mach.mem = d.mach.mem := by rw [← Option.some.inj hmach]
    rw [DeviceMachine.memory, DeviceMachine.memory, hmem, hpages]
    exact ⟨steady_refl _ _, fun h => by cases h⟩
  · by_cases hbinder : symbol = "dyld_stub_binder"
    · rw [if_pos hbinder] at h ⊢
      obtain ⟨hsteady, hpub⟩ := steady_dyldStubBinder hinv h
      exact ⟨hsteady, fun _ => hpub⟩
    · rw [if_neg hbinder] at h ⊢
      obtain ⟨hrun, hpages⟩ := onMach_cases h
      refine ⟨?_, fun h => absurd (Option.some.inj h) hbinder⟩
      rw [DeviceMachine.memory, DeviceMachine.memory, hpages]
      exact steady_of_touches (touches_callImport hrun) _

end Device

namespace Service

/-- The service is a call of the lazy binder. -/
def Binds (s : Service) (mach : Machine ObjcRuntime) : Prop :=
  ∃ addr, s.trampoline = some addr ∧ Device.IsBinder mach addr

end Service

/-! ## Runs -/

/-- What happens from one event to the next : the guest stores bytes in its pages, the last of
them at each address, and then an event is serviced. -/
structure Leg where
  stores : ℕ → Option U8
  service : Service

namespace Leg

variable (p : Profile) (nativeProtect : NativeProtect)

/-- The guest stores where its pages are writable. -/
def Possible (leg : Leg) (d : DeviceMachine ObjcRuntime) : Prop :=
  ∀ x v, leg.stores x = some v → ∃ k r, d.mach.mem.regions.get? k = some r ∧ r.kind.reserved ∧
    r.prot.contains .write = true ∧ k.toNat ≤ x ∧ x < k.toNat + r.data.size

/-- The machine when the event is serviced. -/
def reach (leg : Leg) (d : DeviceMachine ObjcRuntime) : DeviceMachine ObjcRuntime :=
  ⟨leg.service.enter d.mach, d.pages.store leg.stores⟩

/-- The machine after the leg. There is none after a panic. -/
def run (leg : Leg) (d : DeviceMachine ObjcRuntime) : Option (DeviceMachine ObjcRuntime) :=
  (Device.turn nativeProtect (leg.service.host ⟨p, .android nativeProtect⟩) (hleEnvironment p)
    leg.service.event (leg.reach d)).state?

open Classical in
/-- The most recent values after the leg. What a service has stored is in the buffers : where
they have changed, and where the lazy binder has stored. -/
noncomputable def latest (leg : Leg) (d d' : DeviceMachine ObjcRuntime) (last : ℕ → U8) : ℕ → U8 :=
  fun x =>
    if (leg.service.Binds d.mach ∧ x ∈ leg.service.stores ⟨p, .android nativeProtect⟩ d.mach) ∨
        d'.mach.mem.flat.byte x ≠ d.mach.mem.flat.byte x then
      (d'.mach.mem.flat.byte x).getD 0
    else (leg.stores x).getD (last x)

/-- Nothing is stored that the other side does not see : the guest stores the bytes that the
buffers hold, and no service but the lazy binder stores in a reserved region. -/
structure Quiet (leg : Leg) (d : DeviceMachine ObjcRuntime) : Prop where
  guest : ∀ x v, leg.stores x = some v → d.mach.mem.flat.byte x = some v
  service : leg.service.Binds d.mach ∨
    ∀ x ∈ leg.service.stores ⟨p, .android nativeProtect⟩ d.mach, ¬d.mach.mem.flat.Reserved x

end Leg

/-- The runs from a machine whose legs all meet a condition, with the most recent values. -/
inductive DeviceRun (p : Profile) (nativeProtect : NativeProtect)
    (C : Leg → DeviceMachine ObjcRuntime → Prop) (loaded : DeviceMachine ObjcRuntime) :
    DeviceMachine ObjcRuntime → (ℕ → U8) → Prop
  | load : DeviceRun p nativeProtect C loaded loaded loaded.pages
  | leg {d d' : DeviceMachine ObjcRuntime} {last : ℕ → U8} (leg : Leg) :
      DeviceRun p nativeProtect C loaded d last → leg.Possible d → C leg d →
      leg.run p nativeProtect d = some d' →
      DeviceRun p nativeProtect C loaded d' (leg.latest p nativeProtect d d' last)

/-- Both copies hold the most recent values of the reserved regions. -/
def HoldsLatest (d : DeviceMachine ObjcRuntime) (last : ℕ → U8) : Prop :=
  ∀ x, d.mach.mem.flat.Reserved x →
    d.mach.mem.flat.byte x = some (last x) ∧ d.pages x = last x

section Runs

variable {p : Profile} {nativeProtect : NativeProtect} {d d' : DeviceMachine ObjcRuntime}
  {last : ℕ → U8} {l : Leg}

/-- What the service of a leg does to the two copies. -/
theorem Leg.steady (hinv : d.mach.mem.Inv) (h : l.run p nativeProtect d = some d') :
    Device.Steady (l.service.stores ⟨p, .android nativeProtect⟩ d.mach) (l.reach d).memory
      d'.memory ∧
      (l.service.Binds d.mach → ∀ x ∈ l.service.stores ⟨p, .android nativeProtect⟩ d.mach,
        d'.mach.mem.flat.byte x = some (d'.pages x)) := by
  unfold Leg.run Service.event at h
  unfold Service.stores Service.Binds
  rcases htramp : l.service.trampoline with _ | addr <;> simp only [htramp] at h ⊢
  · have hsteady := Device.steady_serviceSyscall (Device.state?_turn_syscall h)
    refine ⟨hsteady, ?_⟩
    rintro ⟨_, haddr, -⟩
    cases haddr
  · have hreach : (l.reach d).mach.mem.Inv := hinv
    obtain ⟨hsteady, hpub⟩ := Device.steady_serviceTrampoline hreach
      (Device.state?_turn_trampolineCall h)
    refine ⟨hsteady, ?_⟩
    rintro ⟨_, haddr, hbinder⟩
    obtain rfl := Option.some.inj haddr
    exact hpub hbinder

/-- A quiet leg keeps the two copies up to date. -/
theorem HoldsLatest.leg (h : HoldsLatest d last) (hinv : d.mach.mem.Inv)
    (hquiet : l.Quiet p nativeProtect d) (hrun : l.run p nativeProtect d = some d') :
    d'.mach.mem.Inv ∧ HoldsLatest d' (l.latest p nativeProtect d d' last) := by
  obtain ⟨hsteady, hpub⟩ := l.steady hinv hrun
  obtain ⟨hinv', hres, hkeep⟩ := hsteady hinv
  refine ⟨hinv', fun x hx => ?_⟩
  have hx := (hres x).1 hx
  obtain ⟨hbyte, hpage⟩ := h x hx
  -- What the guest stores here is there already.
  have hguest : (l.stores x).getD (last x) = last x := by
    rcases hv : l.stores x with _ | v
    · rfl
    · rw [Option.getD_some]
      exact Option.some.inj ((hquiet.guest x v hv).symm.trans hbyte)
  by_cases hS : x ∈ l.service.stores ⟨p, .android nativeProtect⟩ d.mach
  · rcases hquiet.service with hbinds | hnone
    · have hheld := hpub hbinds x hS
      rw [Leg.latest, if_pos (Or.inl ⟨hbinds, hS⟩), hheld, Option.getD_some]
      exact ⟨rfl, rfl⟩
    · exact absurd hx (hnone x hS)
  · obtain ⟨hbyte', hpage'⟩ := hkeep x hS hx
    have hbyte' : d'.mach.mem.flat.byte x = d.mach.mem.flat.byte x := hbyte'
    have hreach : (l.reach d).pages x = last x := by
      change (l.stores x).getD (d.pages x) = last x
      rw [hpage, hguest]
    rw [Leg.latest, if_neg (by rintro (⟨-, hmem⟩ | hne); exacts [hS hmem, hne hbyte']), hguest]
    refine ⟨hbyte'.trans hbyte, (hpage' ?_).trans hreach⟩
    exact hbyte.trans (congrArg some hreach.symm)

/-- So does a run of quiet legs. -/
theorem HoldsLatest.run {loaded : DeviceMachine ObjcRuntime} (hinv : loaded.mach.mem.Inv)
    (hloaded : HoldsLatest loaded loaded.pages)
    (h : DeviceRun p nativeProtect (fun leg d => leg.Quiet p nativeProtect d) loaded d last) :
    d.mach.mem.Inv ∧ HoldsLatest d last := by
  induction h with
  | load => exact ⟨hinv, hloaded⟩
  | leg leg _ _ hquiet hrun ih => exact ih.2.leg ih.1 hquiet hrun

end Runs

/-! ## After a load -/

namespace Device

/-- After a build, the pages of every reserved region hold its buffer. -/
theorem DeviceStages.coherent {p : Profile} {nativeProtect : NativeProtect} {image : MachOImage}
    {bytes : List U8} {cfg : LayoutConfig} {d d' : DeviceMemory} {proc : ProcessImage}
    (s : DeviceStages p nativeProtect image bytes cfg d proc d') (hinv : d.mem.Inv)
    (hstride : cfg.trampolineStride = 16) (hfits : StackFits cfg)
    (hnone : ∀ k sh, d.mem.flat.layout k = some sh → ¬sh.kind.reserved) {x : ℕ}
    (hx : d'.mem.flat.Reserved x) : d'.mem.flat.byte x = some (d'.pages x) := by
  obtain ⟨k, sh, hk, hkind, hle, hlt⟩ := hx
  have hused := s.used_le hstride
  obtain ⟨hinv₃, hstubs, hlast⟩ := s.guarded_shape hinv hused
  obtain ⟨hinv', hstack, -, hlay, hpages⟩ := initStack_shape hinv₃ s.devStack_eq
  by_cases hkb : k = cfg.stackTop - cfg.stackSize
  · subst hkb
    exact hstack.byte_eq hinv' hk hle hlt
  · have hguard : s.guarded.flat.layout k = some sh := by
      rw [← hk, hlay, Function.update_of_ne hkb]
    -- A region that is not the stack was published before, and stays as it was.
    have hpub : Published ⟨s.guarded, s.guardedPages⟩ k := by
      obtain ⟨hsome, hnone'⟩ := hlast (k - cfg.slide)
      rw [BitVec.sub_add_cancel] at hsome hnone'
      rcases hl : lastAt (k - cfg.slide) image.segments with _ | seg
      · by_cases hkt : k = cfg.trampolineBase
        · exact hkt ▸ hstubs
        · obtain ⟨-, -, size, -, -, hlay₂⟩ :=
            publishStubs_shape (s.inv_bound hinv) hused s.devPublish_eq
          dsimp only at hlay₂
          rw [hnone' hl, hlay₂, Function.update_of_ne hkt, s.layout_bound hinv] at hguard
          obtain ⟨r, hr, rfl⟩ := layout_flat_eq_some.1 hguard
          have hold := (get?_mapSegments s.map_eq (k - cfg.slide)).2 hl
          rw [BitVec.sub_add_cancel, hr] at hold
          exact absurd hkind (hnone k r.shape (layout_flat_eq_some.2 ⟨r, hold.symm, rfl⟩))
      · exact (hsome seg hl).1
    have hbyte := hpub.byte_eq hinv₃ hguard hle hlt
    rw [hpages k sh hkb hk x hle hlt]
    exact (initStack_keeps hinv₃ hfits s.stack_eq).2 x _ hbyte

end Device

/-- The stack that is reserved has room for the path of the executable. -/
structure StackRoom (os : Reservations) (cfg : MachineConfig) (vfs : Sandbox) : Prop where
  path_le : (utf8Bytes (executablePath vfs)).length + 128 ≤ cfg.stackSize.toNat
  fits : os.stack.toNat + cfg.stackSize.toNat < 2 ^ 64
  alloc : cfg.stackSize.toNat ≤ isizeMax

section Load

variable {p : Profile} {nativeProtect : NativeProtect} {os : Reservations} {cfg : MachineConfig}
  {vfs : Sandbox}

theorem StackRoom.stackFits (h : StackRoom os cfg vfs) {image : MachOImage}
    {layout : LayoutConfig} {m m' : GuestMemory}
    (hlayout : layoutOf ⟨p, .android nativeProtect⟩ os cfg image (executablePath vfs) m =
      .ok layout m') : StackFits layout := by
  obtain ⟨⟨preferred, _⟩, -, hlayout⟩ := Prog.ofChecked_bind_eq_ok.1 hlayout
  obtain ⟨base, -, hlayout⟩ := Prog.ofResult_bind_eq_ok.1 hlayout
  obtain ⟨trampolineBase, -, hlayout⟩ := Prog.ofResult_bind_eq_ok.1 hlayout
  obtain ⟨stackBase, hbase, hlayout⟩ := Prog.ofResult_bind_eq_ok.1 hlayout
  obtain ⟨stackTop, htop, hlayout⟩ := Prog.ofChecked_bind_eq_ok.1 hlayout
  obtain ⟨rfl, -⟩ := Outcome.ok.inj hlayout
  unfold reserveNativeRegion at hbase
  split_ifs at hbase
  obtain rfl := Except.ok.inj hbase
  have hpath := h.path_le
  have hsum : stackTop.toNat = os.stack.toNat + cfg.stackSize.toNat := by
    rw [Profile.add_eq_ok htop, BitVec.toNat_add, Nat.mod_eq_of_lt h.fits]
  refine ⟨?_, BitVec.le_def.2 ?_, h.alloc⟩
  · dsimp only
    omega
  · dsimp only
    omega

theorem reserved_new {heapBase heapSize : U64} {m : GuestMemory}
    (h : GuestMemory.new p heapBase heapSize = .ok () m) (k : U64) (sh : Shape)
    (hk : m.flat.layout k = some sh) : ¬sh.kind.reserved := by
  obtain ⟨size, -, hmap⟩ := Prog.ofChecked_bind_eq_ok.1 h
  rw [layout_of_map hmap, Function.update_apply] at hk
  split_ifs at hk
  · obtain rfl := Option.some.inj hk
    rintro (h | h) <;> cases h
  · cases hk

/-- After a load, the two copies agree. -/
theorem holdsLatest_of_load {bytes : List U8} {fs : HostFs} {world : ObjcRuntime} {pages : Pages}
    {loaded : DeviceMachine ObjcRuntime} (hroom : StackRoom os cfg vfs)
    (h : Device.load p nativeProtect os cfg bytes vfs fs world pages =
      .ok (loaded.mach, loaded.pages) ()) :
    loaded.mach.mem.Inv ∧ HoldsLatest loaded loaded.pages := by
  rcases loaded with ⟨mach, pages'⟩
  obtain ⟨image, m₀, -, hnew, layout, m₁, proc, mem, hlayout, hproc, rfl⟩ := Device.load_eq_ok.1 h
  have hfits := hroom.stackFits hlayout
  have hstride := Machine.layoutOf_stride hlayout
  obtain rfl := layoutOf_const.ok hlayout
  obtain ⟨s⟩ := Device.stages_of_buildProcess hproc
  have hinv := inv_new hnew
  obtain ⟨hinv', -⟩ := Device.initStack_shape (s.guarded_shape hinv (s.used_le hstride)).1
    s.devStack_eq
  exact ⟨hinv', fun x hx => ⟨s.coherent hinv hstride hfits (reserved_new hnew) hx, rfl⟩⟩

end Load

/-- In a run whose legs store nothing that the other side does not see, both copies hold the
most recent values in every state. -/
theorem copies_hold_latest (p : Profile) (nativeProtect : NativeProtect) (os : Reservations)
    (cfg : MachineConfig) (bytes : List U8) (vfs : Sandbox) (fs : HostFs) (world : ObjcRuntime)
    (pages : Pages) (loaded : DeviceMachine ObjcRuntime) (hroom : StackRoom os cfg vfs)
    (hload : Device.load p nativeProtect os cfg bytes vfs fs world pages =
      .ok (loaded.mach, loaded.pages) ())
    (d : DeviceMachine ObjcRuntime) (last : ℕ → U8)
    (hrun : DeviceRun p nativeProtect (fun leg d => leg.Quiet p nativeProtect d) loaded d last) :
    HoldsLatest d last := by
  obtain ⟨hinv, hloaded⟩ := holdsLatest_of_load hroom hload
  exact (HoldsLatest.run hinv hloaded hrun).2

theorem stackRoom_insnReservations : StackRoom insnReservations .default importSandbox where
  path_le := by decide
  fits := by decide
  alloc := by decide

/-! ## Binding without a fault -/

namespace Device

variable {W : Type} {d d' : DeviceMachine W}

theorem onMemory_eq_ok {α : Type} {x : DevM α} {a : α} (h : onMemory x d = .ok a d') :
    ∃ m, x d.memory = .ok a m ∧ d' = d.withMemory m := by
  unfold onMemory Prog.zoom at h
  rcases hx : x d.memory with ⟨a', m⟩ | ⟨e, m⟩ | e <;> simp only [hx] at h
  · obtain ⟨rfl, rfl⟩ := Outcome.ok.inj h
    exact ⟨m, rfl, rfl⟩
  · cases h
  · cases h

/-- Patching a pointer does not fault where the pages of its region can be stored. -/
theorem safe_patchLazyPointer {laPtr resolved : U64} (hinv : d.mach.mem.Inv)
    (h : ∀ k r, d.mach.mem.regionBase laPtr = .ok k → d.mach.mem.regions.get? k = some r →
      d.pages.Writable k r.data.size) :
    (patchLazyPointer laPtr resolved : DevMachM W Unit).Safe d := by
  refine Prog.safe_bind_iff.2 ⟨?_, fun r d₁ hrun => ?_⟩
  · exact Prog.safe_attempt_iff.2 (Prog.safe_zoom_iff.2 (Prog.safe_zoom_iff.2 (total_write _ _ _)))
  rcases Prog.attempt_eq_ok.1 hrun with ⟨u, hwrite, rfl⟩ | ⟨e, -, rfl⟩
  swap
  · exact Prog.total_pure _ d₁
  refine Prog.safe_bind_iff.2 ⟨Prog.safe_attempt_iff.2 (Prog.safe_zoom_iff.2 ?_),
    fun _ d₂ _ => Prog.total_pure _ d₂⟩
  obtain ⟨⟨m₁, pages⟩, hmem, rfl⟩ := onMemory_eq_ok hwrite
  obtain ⟨hmem, rfl⟩ := onHost_eq_ok.1 hmem
  refine safe_commitToNative fun k r hk hr => ?_
  -- The region that is published has the shape that it had before the write.
  have hinv₁ : m₁.Inv := hinv.of_write hmem
  have hlay : m₁.flat.layout = d.mach.mem.flat.layout := by
    rw [(hinv.flat_of_write hmem).1]
    rfl
  obtain ⟨r₀, hr₀, hshape⟩ := layout_flat_eq_some.1
    ((congrFun hlay k).symm.trans (layout_flat_eq_some.2 ⟨r, hr, rfl⟩))
  have hsize : r₀.data.size = r.data.size := congrArg Shape.size hshape
  have hbase : r₀.base = r.base := congrArg Shape.base hshape
  obtain ⟨r', hr', hle, hlt⟩ := (regionBase_eq_ok _ hinv₁ _ _).1 hk
  obtain rfl := Option.some.inj (hr.symm.trans hr')
  rw [← hbase] at hle hlt
  rw [← hsize] at hlt ⊢
  exact h k r₀ ((regionBase_eq_ok _ hinv _ _).2 ⟨r₀, hr₀, hle, hlt⟩) hr₀

/-- So a call of the binder that resolves a pointer there ends. -/
theorem safe_dyldStubBinder {symbol : String} {slot stub : U64} (hinv : d.mach.mem.Inv)
    (hres : d.mach.Resolves symbol slot stub)
    (h : ∀ k r, d.mach.mem.regionBase slot = .ok k → d.mach.mem.regions.get? k = some r →
      d.pages.Writable k r.data.size) : (dyldStubBinder : DevMachM W Unit).Safe d := by
  obtain ⟨⟨word, hword, hlazy⟩, hstub⟩ := hres
  unfold dyldStubBinder
  refine Prog.safe_get_bind_iff.2 ?_
  simp only [hword, hlazy, hstub]
  exact Prog.safe_bind_iff.2 ⟨safe_patchLazyPointer hinv h,
    fun _ d₁ _ => Prog.safe_zoom_iff.2 (Prog.total_modify _ _)⟩

end Device

/-! ## A file with a lazy import -/

/-- A thin file whose bind stream stores `dyld_stub_binder` at offset 256 of its only segment, and
whose lazy stream has `_a` at offset 264. -/
def binderFile : List U8 :=
  leBytes 4 0xfeedfacf ++ leBytes 4 0x0100000c ++ leBytes 4 0 ++ leBytes 4 2 ++ leBytes 4 3 ++
    leBytes 4 144 ++ leBytes 4 0x200000 ++ leBytes 4 0 ++
    (leBytes 4 0x19 ++ leBytes 4 72 ++ leBytes 16 0x545845545f5f ++ leBytes 8 0x100000000 ++
      leBytes 8 0x4000 ++ leBytes 8 0 ++ leBytes 8 0 ++ leBytes 4 3 ++ leBytes 4 3 ++
      leBytes 4 0 ++ leBytes 4 0) ++
    (leBytes 4 0x80000022 ++ leBytes 4 48 ++ leBytes 8 0 ++ leBytes 4 176 ++ leBytes 4 23 ++
      leBytes 4 199 ++ leBytes 4 9 ++ leBytes 16 0) ++
    (leBytes 4 0x80000028 ++ leBytes 4 24 ++ leBytes 16 0) ++
    (0x40 :: utf8Bytes "dyld_stub_binder" ++ [0x00, 0x70, 0x80, 0x02, 0x90, 0x00]) ++
    [0x70, 0x88, 0x02, 0x40, 0x5f, 0x61, 0x00, 0x90, 0x00]

/-- Its image. -/
def binderImage : MachOImage :=
  { MachOImage.blank 0 2 0x200000 with
    segments := [⟨"__TEXT", 0x100000000, 0x4000, 0, 0, .rw, .rw, []⟩]
    entry := some (.main 0 0)
    dyldInfo := some ⟨0, 0, 176, 23, 199, 9, 0, 0⟩ }

/-- What the binder finds in the process of the file when the stack is at its bottom. -/
structure FindsBinder (mach : Machine ObjcRuntime) : Prop where
  trampoline : mach.trampolines.get? 0x500000000 = some "dyld_stub_binder"
  lazyBind : mach.lazyBinds.get? 0 = some ("_a", 0x7000000108)
  stub : mach.symbolStubs.get? "_a" = some 0x500000010
  word : mach.mem.readU64 0x1bf800000 = .ok 0
  bottom : mach.mem.flat.byte 0x1bf800000 = some 0
  base : mach.mem.regionBase 0x7000000108 = .ok 0x7000000000
  data : (mach.mem.regions.get? 0x7000000000).map (fun r => (r.prot, r.kind, r.data.size)) =
    some (.rw, .segment, 0x4000)
  stack : (mach.mem.regions.get? 0x1bf800000).map (fun r => (r.prot, r.kind, r.data.size)) =
    some (.rw, .stack, 0x800000)

theorem parse_binderFile : MachOImage.parse binderFile = .ok binderImage := by
  decide +kernel

set_option maxRecDepth 100000 in
theorem run_binderFile :
    ((bindImage .release binderImage binderFile insnConfig >>= fun x =>
      publishPage deviceBuild insnConfig x.2 >>= fun stop =>
      finish deviceBuild binderImage binderFile insnConfig x.1 x.2 stop)
      importMemory).okAnd (fun proc m => decide (proc.trampolineEnd = 0x500004000 ∧
        proc.trampolines.get? 0x500000000 = some "dyld_stub_binder" ∧
        proc.lazyBinds.get? 0 = some ("_a", 0x7000000108) ∧
        proc.symbolStubs.get? "_a" = some 0x500000010 ∧ m.readU64 0x1bf800000 = .ok 0 ∧
        m.flat.byte 0x1bf800000 = some 0 ∧ m.regionBase 0x7000000108 = .ok 0x7000000000 ∧
        (m.regions.get? 0x7000000000).map (fun r => (r.prot, r.kind, r.data.size)) =
          some (.rw, .segment, 0x4000) ∧
        (m.regions.get? 0x1bf800000).map (fun r => (r.prot, r.kind, r.data.size)) =
          some (.rw, .stack, 0x800000))) = true := by
  decide +kernel

/-- The file is loaded on device. -/
theorem load_binderFile :
    ∃ loaded : DeviceMachine ObjcRuntime,
      Device.load .release (fun _ _ _ => 0) insnReservations .default binderFile importSandbox
        ⟨fun _ => none⟩ ObjcRuntime.new insnPages = .ok (loaded.mach, loaded.pages) () ∧
      FindsBinder loaded.mach ∧ Device.Settled insnPages loaded.memory := by
  obtain ⟨proc, mem, hrun, hfacts⟩ := Outcome.okAnd_iff.1 run_binderFile
  obtain ⟨hend, htramp, hlazy, hstub, hword, hbottom, hbase, hdata, hstack⟩ :=
    of_decide_eq_true hfacts
  have hhost : buildProcess deviceBuild binderImage binderFile insnConfig importMemory =
      .ok proc mem :=
    buildProcess_of_page reachable_importMemory.inv isDefault_insnConfig.stride_eq rfl hrun
  have hsize : ∀ seg ∈ binderImage.segments, seg.vmaddr = 0x100000000 ∧
      mappedSize binderFile seg = 0x4000 := by
    decide
  have hroom : Device.Roomy insnPages binderImage binderFile insnConfig proc.trampolineEnd := by
    refine ⟨fun seg hseg _ => ?_, ?_, Pages.writable_mapRegion _ _ _⟩
    · obtain ⟨haddr, hlen⟩ := hsize seg hseg
      rw [haddr, hlen]
      exact ((Pages.writable_mapRegion _ _ _).mapRegion _ _).mapRegion _ _
    · rw [hend]
      refine Pages.Writable.mono ((Pages.writable_mapRegion _ _ _).mapRegion _ _) ?_
      decide
  have hfull : ∀ seg ∈ binderImage.segments, seg.name ≠ "__PAGEZERO" →
      mappedSize binderFile seg ≠ 0 := by
    intro seg hseg _
    rw [(hsize seg hseg).2]
    decide
  have hlayout : layoutOf deviceBuild insnReservations .default binderImage
      (executablePath importSandbox) importMemory = .ok insnConfig importMemory := by
    have hargv : executablePath importSandbox =
        "/var/mobile/Applications/0/App.app/Executable" := by
      decide
    rw [hargv]
    rfl
  obtain ⟨pages', hload, hsettled⟩ := @Device.load_of_roomy .release _ _ _ insnPages ObjcRuntime
    insnReservations .default binderFile importSandbox ⟨fun _ => none⟩ ObjcRuntime.new _ _ _
    parse_binderFile rfl hlayout (by decide) hfull hroom hhost
  exact ⟨⟨_, pages'⟩, hload, ⟨htramp, hlazy, hstub, hword, hbottom, hbase, hdata, hstack⟩, hsettled⟩

/-- The guest pushes a byte and calls the binder, which finds the offset zero in the buffer. -/
def binderLeg (v : U8) : Leg where
  stores := fun x => if x = 0x1bf800000 then some v else none
  service := ⟨.willing, none, { CpuContext.default with sp := 0x1bf800000 }, some 0x500000000⟩

/-- The binder patches and publishes the pointer of the file. -/
theorem run_binderLeg (v : U8) {d : DeviceMachine ObjcRuntime} (hinv : d.mach.mem.Inv)
    (hfinds : FindsBinder d.mach) (hsettled : Device.Settled insnPages d.memory) :
    ∃ d', (binderLeg v).run .release (fun _ _ _ => 0) d = some d' := by
  obtain ⟨r, hr, hshape⟩ := Option.map_eq_some_iff.1 hfinds.data
  simp only [Prod.mk.injEq] at hshape
  obtain ⟨hprot, hkind, hsize⟩ := hshape
  have hres : ((binderLeg v).reach d).mach.Resolves "_a" 0x7000000108 0x500000010 :=
    ⟨⟨0, hfinds.word, hfinds.lazyBind⟩, hfinds.stub⟩
  have hpages : d.pages.Writable 0x7000000000 r.data.size := by
    refine hsettled.writable hinv hr (by rw [hprot]; rfl) ?_
    rw [hsize]
    exact ((Pages.writable_mapRegion _ _ _).mapRegion _ _).mapRegion _ _
  have hsafe : (Device.dyldStubBinder : DevMachM ObjcRuntime Unit).Safe ((binderLeg v).reach d) := by
    refine Device.safe_dyldStubBinder hinv hres fun k r' hk hr' => ?_
    obtain rfl := Except.ok.inj (hfinds.base.symm.trans hk)
    obtain rfl := Option.some.inj (hr.symm.trans hr')
    exact hpages
  have hrun : Device.serviceTrampoline (hleEnvironment .release) 0x500000000 ((binderLeg v).reach d) =
      Device.dyldStubBinder ((binderLeg v).reach d) := by
    unfold Device.serviceTrampoline
    rw [Prog.get_bind]
    simp only [show ((binderLeg v).reach d).mach.trampolines.get? 0x500000000 =
      some "dyld_stub_binder" from hfinds.trampoline, if_true]
  unfold Leg.run
  rw [show (binderLeg v).service.event = .trampolineCall 0x500000000 from rfl, Device.turn,
    Prog.bind_apply, hrun]
  rcases hx : Device.dyldStubBinder ((binderLeg v).reach d) with ⟨a, d'⟩ | ⟨e, d'⟩ | e
  · exact ⟨d', rfl⟩
  · exact ⟨d', rfl⟩
  · exact absurd hx (hsafe e)

/-- In the process of the file, the guest calls the binder, and both copies hold the most recent
values. -/
theorem copies_hold_latest_binderFile :
    ∃ (loaded d : DeviceMachine ObjcRuntime) (last : ℕ → U8),
      Device.load .release (fun _ _ _ => 0) insnReservations .default binderFile importSandbox
        ⟨fun _ => none⟩ ObjcRuntime.new insnPages = .ok (loaded.mach, loaded.pages) () ∧
      (binderLeg 0).run .release (fun _ _ _ => 0) loaded = some d ∧
      DeviceRun .release (fun _ _ _ => 0) (fun leg d => leg.Quiet .release (fun _ _ _ => 0) d)
        loaded d last ∧
      HoldsLatest d last := by
  obtain ⟨loaded, hload, hfinds, hsettled⟩ := load_binderFile
  obtain ⟨hinv, -⟩ := holdsLatest_of_load stackRoom_insnReservations hload
  obtain ⟨d, hd⟩ := run_binderLeg 0 hinv hfinds hsettled
  have hquiet : (binderLeg 0).Quiet .release (fun _ _ _ => 0) loaded := by
    refine ⟨fun x v hv => ?_, Or.inl ⟨_, rfl, hfinds.trampoline⟩⟩
    dsimp only [binderLeg] at hv
    split_ifs at hv with hx
    rw [hx, ← hv]
    exact hfinds.bottom
  obtain ⟨r, hr, hshape⟩ := Option.map_eq_some_iff.1 hfinds.stack
  simp only [Prod.mk.injEq] at hshape
  obtain ⟨hprot, hkind, hsize⟩ := hshape
  have hpossible : (binderLeg 0).Possible loaded := by
    intro x v hv
    dsimp only [binderLeg] at hv
    split_ifs at hv with hx
    refine ⟨_, r, hr, Or.inr hkind, by rw [hprot]; rfl, ?_⟩
    rw [hx, hsize]
    decide
  have hrun := DeviceRun.load.leg _ hpossible hquiet hd
  exact ⟨loaded, d, _, hload, hd, hrun, copies_hold_latest _ _ _ _ _ _ _ _ _ loaded
    stackRoom_insnReservations hload d _ hrun⟩

/-! ## A store that is lost -/

namespace Device

variable {nativeProtect : NativeProtect}

/-- The region of the address is published, and its protection set. -/
theorem protect_of_region {d : DeviceMemory} {a k : U64} {r : Region} {prot : Protection}
    (hk : d.mem.regionBase a = .ok k) (hr : d.mem.regions.get? k = some r)
    (hpages : d.pages.Writable k r.data.size)
    (hnative : nativeProtect k r.data.size (prot.bits.setWidth 32) = 0) :
    protect nativeProtect a prot d =
      .ok () ⟨{ d.mem with regions := d.mem.regions.insert k { r with prot } },
        (copied d.pages k r.data).protect k r.data.size prot⟩ := by
  unfold protect
  rw [Prog.get_bind]
  refine Prog.ofResult_bind_eq_ok.2 ⟨k, hk, Prog.ofChecked_bind_eq_ok.2 ⟨r, ?_, ?_⟩⟩
  · exact unwrapRegion_eq_ok.2 hr
  · refine Prog.bind_eq_ok.2 ⟨(), ⟨{ d.mem with
      regions := d.mem.regions.insert k { r with prot } }, d.pages⟩, rfl, ?_⟩
    refine Prog.ofChecked_bind_eq_ok.2 ⟨_, copyIn_eq_ok.2 ⟨hpages, rfl⟩, ?_⟩
    rw [if_neg (not_not.2 hnative)]
    rfl

theorem sysMprotect_of_ok {c : DeviceCtx} {m : DeviceMemory}
    (h : protect nativeProtect (c.ctx.cpu.arg 0) (Unix.protOf (c.ctx.cpu.arg 2))
      ⟨c.ctx.mem, c.pages⟩ = .ok () m) :
    sysMprotect nativeProtect c = .ok 0 ⟨{ c.ctx with mem := m.mem }, m.pages⟩ := by
  unfold sysMprotect
  rw [Prog.get_bind]
  refine Prog.bind_eq_ok.2 ⟨(), ⟨{ c.ctx with mem := m.mem }, m.pages⟩, ?_, rfl⟩
  unfold onCopies Prog.mapErr Prog.zoom
  simp only [h]

end Device

namespace Leg

variable {p : Profile} {nativeProtect : NativeProtect} {l : Leg} {d : DeviceMachine ObjcRuntime}

/-- A leg with a system call whose handler returns. -/
theorem run_of_handler {serviced v : U64} {cls : SyscallClass} {number : U32}
    {handler : DevSysM U64} {c' : DeviceCtx} (hnone : l.service.trampoline = none)
    (hadd : p.add d.mach.dispatcher.serviced 1 = .ok serviced)
    (hdecode : decode p (l.service.cpu.x 16) = .ok (cls, number))
    (hh : Device.handlerOf nativeProtect (l.service.host ⟨p, .android nativeProtect⟩) d.mach.vfs
      cls number = some handler)
    (hrun : handler ⟨(l.reach d).mach.syscallCtx, (l.reach d).pages⟩ = .ok v c') :
    ∃ d', l.run p nativeProtect d = some d' ∧ d'.memory = ⟨c'.ctx.mem, c'.pages⟩ := by
  have hdispatch : Device.dispatch nativeProtect (l.service.host ⟨p, .android nativeProtect⟩)
      (l.reach d).mach.vfs (l.reach d).mach.dispatcher
      ⟨(l.reach d).mach.syscallCtx, (l.reach d).pages⟩ = .ok { d.mach.dispatcher with serviced }
        { c' with ctx := { c'.ctx with cpu := c'.ctx.cpu.setSyscallResult (.ok v) } } := by
    unfold Device.dispatch
    refine Prog.ofChecked_bind_eq_ok.2 ⟨serviced, hadd, ?_⟩
    rw [Prog.get_bind]
    refine Prog.ofChecked_bind_eq_ok.2 ⟨(cls, number), hdecode, ?_⟩
    dsimp only
    rw [show Device.handlerOf nativeProtect _ (l.reach d).mach.vfs cls number = _ from hh]
    refine Prog.bind_eq_ok.2 ⟨.ok v, c', ?_, rfl⟩
    unfold Prog.attempt
    rw [hrun]
  unfold run Service.event
  simp only [hnone, Device.turn]
  rw [Prog.bind_apply]
  unfold Device.serviceSyscall
  rw [Prog.get_bind, Prog.bind_apply]
  unfold Prog.mapErr Prog.zoom
  simp only [hdispatch]
  exact ⟨_, rfl, rfl⟩

/-- `mprotect` publishes the region. -/
theorem run_mprotect {stores : ℕ → Option U8} {addr prot k : U64} {r : Region}
    (hk : d.mach.mem.regionBase addr = .ok k) (hr : d.mach.mem.regions.get? k = some r)
    (hpages : d.pages.Writable k r.data.size) :
    ∃ d', Leg.run .release (fun _ _ _ => 0) ⟨stores, mprotectService addr prot⟩ d = some d' ∧
      d'.memory = ⟨{ d.mach.mem with
          regions := d.mach.mem.regions.insert k { r with prot := Unix.protOf prot } },
        (Device.copied (d.pages.store stores) k r.data).protect k r.data.size
          (Unix.protOf prot)⟩ := by
  have hprotect := @Device.protect_of_region (fun _ _ _ => 0)
    (Leg.reach ⟨stores, mprotectService addr prot⟩ d).memory addr k r (Unix.protOf prot) hk hr
    hpages rfl
  have hhandler := @Device.sysMprotect_of_ok (fun _ _ _ => 0)
    ⟨(Leg.reach ⟨stores, mprotectService addr prot⟩ d).mach.syscallCtx,
      (Leg.reach ⟨stores, mprotectService addr prot⟩ d).pages⟩ _ hprotect
  have hdecode : decode .release ((mprotectService addr prot).cpu.x 16) = .ok (.unix, 74) :=
    show decode .release 74 = _ by decide
  exact @run_of_handler .release _ ⟨stores, mprotectService addr prot⟩ d _ _ _ _
    (Device.sysMprotect fun _ _ _ => 0) _ rfl (Profile.add_release _ 1) hdecode rfl hhandler

end Leg

/-- The guest stores a byte at the bottom of its stack, and calls `mprotect` there. -/
def storeLeg : Leg where
  stores := fun x => if x = 0x1bf800000 then some 1 else none
  service := mprotectService 0x1bf800000 3

/-- The byte is gone. -/
theorem mprotect_reverts :
    ∃ (loaded d : DeviceMachine ObjcRuntime) (last : ℕ → U8),
      Device.load .release (fun _ _ _ => 0) insnReservations .default (insnFile 0xd65f03c0)
        importSandbox ⟨fun _ => none⟩ ObjcRuntime.new insnPages =
        .ok (loaded.mach, loaded.pages) () ∧
      StackRoom insnReservations .default importSandbox ∧
      DeviceRun .release (fun _ _ _ => 0) (fun _ _ => True) loaded d last ∧
      last 0x1bf800000 = 1 ∧ d.pages 0x1bf800000 = 0 ∧ ¬HoldsLatest d last := by
  obtain ⟨mach, proc, d', s, r, hload, hmem, hsettled, -, -, hbase, hr, hprot, hkind, hsize, hbyte⟩ :=
    load_insnFile (Or.inr rfl)
  obtain ⟨hinv, -⟩ := @holdsLatest_of_load _ _ _ _ _ _ _ _ _ ⟨mach, d'.pages⟩ stackRoom_insnReservations
    hload
  have hinv : mach.mem.Inv := hinv
  have hlt : 0x1bf800000 < 0x1bf800000 + r.data.size := by omega
  rw [hinv.byte_flat hr (Nat.le_refl 0x1bf800000) hlt] at hbyte
  have hpages : d'.pages.Writable 0x1bf800000 r.data.size := by
    refine hsettled.writable (hmem ▸ hinv) (hmem ▸ hr) (by rw [hprot]; rfl) ?_
    rw [hsize]
    exact Pages.writable_mapRegion _ _ _
  obtain ⟨d, hd, hmemory⟩ := @Leg.run_mprotect ⟨mach, d'.pages⟩ storeLeg.stores 0x1bf800000 3 _ _
    hbase hr hpages
  have hmem : d.mach.mem = _ := congrArg DeviceMemory.mem hmemory
  have hpages : d.pages = _ := congrArg DeviceMemory.pages hmemory
  -- The lowest byte of the buffer is published over the byte of the guest.
  have hpage : d.pages 0x1bf800000 = 0 := by
    have hcopy := @Device.copied_of_mem (d'.pages.store storeLeg.stores) 0x1bf800000 r.data 0
      (by omega)
    rw [hpages]
    exact Option.some.inj (hcopy.symm.trans hbyte)
  have hkeep : d.mach.mem.flat.byte 0x1bf800000 = mach.mem.flat.byte 0x1bf800000 := by
    rw [hmem]
    exact hinv.byte_setProt hr _ _
  have hreserved : d.mach.mem.flat.Reserved 0x1bf800000 := by
    rw [hmem]
    refine (reserved_setProt hr _ _).2 ⟨_, _, layout_flat_eq_some.2 ⟨r, hr, rfl⟩, ?_⟩
    exact ⟨Or.inr hkind, Nat.le_refl 0x1bf800000, hlt⟩
  have hpossible : storeLeg.Possible ⟨mach, d'.pages⟩ := by
    intro x v hv
    dsimp only [storeLeg] at hv
    split_ifs at hv with hx
    subst hx
    refine ⟨_, r, hr, Or.inr hkind, ?_, Nat.le_refl 0x1bf800000, hlt⟩
    rw [hprot]
    rfl
  have hlatest : storeLeg.latest .release (fun _ _ _ => 0) ⟨mach, d'.pages⟩ d d'.pages 0x1bf800000 =
      1 := by
    rw [Leg.latest, if_neg]
    · rfl
    · rintro (⟨⟨_, haddr, -⟩, -⟩ | hne)
      · cases haddr
      · exact hne hkeep
  refine ⟨⟨mach, d'.pages⟩, d, _, hload, stackRoom_insnReservations,
    DeviceRun.load.leg _ hpossible trivial hd, hlatest, hpage, fun hholds => ?_⟩
  have heq := (hholds _ hreserved).2
  rw [hlatest, hpage] at heq
  cases heq

end IosEmu
