import IosEmu.DeviceLoad
import IosEmu.MemoryPanics
import IosEmu.RecordBounds
import IosEmu.WriteXorExecute

/-!
# Calls that fail

A system call that fails answers with the carry flag, and a Mach trap with a non-zero
`kern_return`. Most handlers change the memory with their last step, so a failure leaves it as
it was. Three of them take a further step that can fail : `mprotect` asks the kernel after the
protection is set, `gettimeofday` stores the microseconds after the seconds, and the trap that
allocates memory stores the address after the region is mapped. `Settles` says that this last
step does not fail, or that what was done before it makes no difference.
-/

open SysLib

namespace IosEmu

open GuestMemory

/-! ## The memory as it was -/

namespace GuestMemory

variable {m m' : GuestMemory} {p : Profile}

/-- The regions, their protections and bytes, and the cursor of anonymous mappings are the
same. -/
def Unchanged (m m' : GuestMemory) : Prop :=
  m'.flat = m.flat ∧ m'.mmapCursor = m.mmapCursor

theorem Unchanged.of_eq (h : m' = m) : Unchanged m m' := by
  subst h
  exact ⟨rfl, rfl⟩

/-- A write that is granted changes nothing exactly if the bytes are there already. -/
theorem write_eq_self_iff {f : FlatMemory} {a : U64} {d : List U8} :
    f.write a d = f ↔ f.Reads a d := by
  constructor
  · intro h
    rw [← h]
    exact FlatMemory.reads_write_self f a d
  · intro h
    refine FlatMemory.ext rfl (funext fun x => ?_)
    change (if a.toNat ≤ x ∧ x < a.toNat + d.length then d[x - a.toNat]? else f.byte x) = f.byte x
    split_ifs with hx
    · have hread := h (x - a.toNat) (by omega)
      rw [Nat.add_sub_cancel' hx.1] at hread
      exact hread.symm
    · rfl

/-- There is room below the cursor for an anonymous mapping of `size` bytes, and it takes `len`
bytes at `base`. -/
def AnonSpan (m : GuestMemory) (size base len : U64) : Prop :=
  ∃ low, checkedSub m.mmapCursor (pageRound (max size 1)) = some low ∧ base = low &&& ~~~0x3fff ∧
    len = pageRound (max (pageRound (max size 1)) 1) ∧ m.checkFree base len = .ok ()

/-- A mapping that is made goes where there is room. -/
theorem anonSpan_of_mmapAnon {size base : U64} {prot : Protection}
    (h : mmapAnon p size prot m = .ok base m') : ∃ len, m.AnonSpan size base len := by
  obtain ⟨_, low, m₁, hs, hlow, hbase, hmap, -⟩ := mmapAnon_eq_ok.1 h
  obtain ⟨_, hs', hfree, -⟩ := map_eq_ok.1 hmap
  obtain rfl := alignUp_eq_ok hs
  obtain rfl := alignUp_eq_ok hs'
  exact ⟨_, low, hlow, alignDown_eq_ok hbase, rfl, hfree⟩

/-- A mapping that there is room for does not fail. -/
theorem AnonSpan.mmapAnon_ne_err {size base len : U64} {prot : Protection} {e : EmuError}
    (h : m.AnonSpan size base len) : mmapAnon p size prot m ≠ .err e m' := by
  intro herr
  obtain ⟨low, hlow, rfl, rfl, hfree⟩ := h
  have hsafe : (mmapAnon p size prot).Safe m := by
    intro e' hpanic
    rw [herr] at hpanic
    cases hpanic
  obtain ⟨hround, hcap⟩ := safe_mmapAnon_iff.1 hsafe
  obtain ⟨s, hs⟩ := alignUp_page_iff.2 hround
  obtain rfl := alignUp_eq_ok hs
  obtain ⟨s', hs'⟩ := alignUp_page_iff.2 (rounds_pageRound p (max size 1))
  obtain rfl := alignUp_eq_ok hs'
  have hok : ∃ m₂, mmapAnon p size prot m = .ok (low &&& ~~~0x3fff) m₂ :=
    ⟨_, mmapAnon_eq_ok.2 ⟨_, low, _, hs, hlow, alignDown_page p low,
      map_eq_ok.2 ⟨_, hs', hfree, hcap low hlow hfree, rfl⟩, rfl⟩⟩
  obtain ⟨m₂, hok⟩ := hok
  rw [herr] at hok
  cases hok

theorem AnonSpan.unique {size base base' len len' : U64} (h : m.AnonSpan size base len)
    (h' : m.AnonSpan size base' len') : base = base' ∧ len = len' := by
  obtain ⟨low, hlow, rfl, rfl, -⟩ := h
  obtain ⟨low', hlow', rfl, rfl, -⟩ := h'
  obtain rfl := Option.some.inj (hlow.symm.trans hlow')
  exact ⟨rfl, rfl⟩

/-- A new mapping changes the memory, and a double word can be stored where it could before and
in the new region. -/
theorem Inv.grants_mmapAnon (hinv : m.Inv) {size base len a : U64} (hspan : m.AnonSpan size base len)
    (h : mmapAnon p size .rw m = .ok base m') :
    m'.Inv ∧ ¬Unchanged m m' ∧ (m'.flat.Grants a 8 .write ↔ m.flat.Grants a 8 .write ∨
      base.toNat ≤ a.toNat ∧ a.toNat + 8 ≤ base.toNat + len.toNat) := by
  have hinv' := hinv.change ((change_mmapAnon _ _ _).ok h)
  obtain ⟨_, low, m₁, hs, -, -, hmap, rfl⟩ := mmapAnon_eq_ok.1 h
  obtain rfl := alignUp_eq_ok hs
  obtain ⟨-, -, -, hlen, -⟩ := hspan
  have hpos : 0 < len.toNat := by
    rw [hlen]
    refine (pageRound_max_one ?_).2
    rw [toNat_pageRound]
    omega
  obtain ⟨-, -, ⟨r, hr, hbase, hprot, hsize⟩, hfree⟩ := hinv.keepsBytes_map (hlen ▸ hpos) hmap
  rw [← hlen] at hsize hfree
  -- A region that held an address of the span would have a byte there.
  have hapart : ∀ k r', m.regions.get? k = some r' → 0 < r'.data.size → k ≠ base := by
    rintro k r' hk hlt rfl
    have hbyte := hinv.byte_flat hk le_rfl (Nat.lt_add_of_pos_right hlt)
    rw [Nat.sub_self, Buffer.get?_of_lt hlt] at hbyte
    have := hfree _ _ hbyte
    omega
  have hget : ∀ k, k ≠ base → m₁.regions.get? k = m.regions.get? k := by
    intro k hk
    obtain ⟨_, -, -, -, rfl⟩ := map_eq_ok.1 hmap
    exact SortedMap.get?_insert_of_ne _ _ hk
  refine ⟨hinv', ?_, ?_⟩
  · rintro ⟨hflat, -⟩
    have hlay : m.flat.layout base = some r.shape := by
      rw [← hflat]
      exact layout_flat_eq_some.2 ⟨r, hr, rfl⟩
    obtain ⟨r', hr', hshape⟩ := layout_flat_eq_some.1 hlay
    have hsize' : r'.data.size = r.data.size := congrArg Shape.size hshape
    exact hapart base r' hr' (by omega) rfl
  · rw [hinv'.grants_iff, hinv.grants_iff]
    constructor
    · rintro ⟨k, r', hk, hle, hend, hwrite⟩
      by_cases hkb : k = base
      · subst hkb
        obtain rfl : r = r' := Option.some.inj (hr.symm.trans hk)
        exact Or.inr ⟨hle, hsize ▸ hend⟩
      · exact Or.inl ⟨k, r', by rw [← hget k hkb]; exact hk, hle, hend, hwrite⟩
    · rintro (⟨k, r', hk, hle, hend, hwrite⟩ | ⟨hle, hend⟩)
      · refine ⟨k, r', ?_, hle, hend, hwrite⟩
        exact (hget k (hapart k r' hk (by omega))).trans hk
      · exact ⟨base, r, hr, hle, hsize ▸ hend, by rw [hprot]; rfl⟩

/-- A refused `protect` leaves the memory as it was exactly if the region had the protection
already. -/
theorem Inv.unchanged_protect_iff (hinv : m.Inv) {target : Target} {a : U64} {prot : Protection} :
    (∀ e m', protect target a prot m = .err e m' → Unchanged m m') ↔
      ∀ nativeProtect k r, target = .android nativeProtect → m.regionBase a = .ok k →
        m.regions.get? k = some r →
        nativeProtect k r.data.size (prot.bits.setWidth 32) ≠ 0 → r.prot = prot := by
  constructor
  · rintro h nativeProtect k r rfl hk hr hrefuse
    have herr : protect (.android nativeProtect) a prot m =
        .err (.memory k "native mprotect failed")
          { m with regions := m.regions.insert k { r with prot } } := by
      unfold protect
      rw [Prog.get_bind, hk, Prog.bind_apply, Prog.ofResult_ok]
      dsimp only
      rw [unwrapRegion_eq_ok.2 hr, Prog.bind_apply, Prog.ofChecked_ok]
      dsimp only
      rw [Prog.modify_bind, if_pos hrefuse, Prog.fail_apply]
    have hlay := congrFun (congrArg FlatMemory.layout (h _ _ herr).1) k
    simp only [flat, SortedMap.get?_insert_self, hr, Option.map_some] at hlay
    exact (congrArg Shape.prot (Option.some.inj hlay)).symm
  · intro h e m' herr
    obtain ⟨-, hbyte⟩ := changesWithin_protect target a prot m m' (by rw [herr]; rfl) hinv
    unfold protect at herr
    rw [Prog.get_bind, Prog.bind_apply] at herr
    rcases hk : m.regionBase a with e' | k <;> rw [hk] at herr
    · obtain ⟨-, rfl⟩ := Outcome.err.inj herr
      exact ⟨rfl, rfl⟩
    rw [Prog.ofResult_ok] at herr
    dsimp only at herr
    rw [Prog.bind_apply] at herr
    rcases hr : m.unwrapRegion k with e' | r <;> rw [hr] at herr
    · cases herr
    rw [Prog.ofChecked_ok] at herr
    dsimp only at herr
    rw [Prog.modify_bind] at herr
    rcases target with _ | nativeProtect
    · cases herr
    dsimp only at herr
    split_ifs at herr with hrefuse
    · obtain ⟨-, rfl⟩ := Outcome.err.inj herr
      have hr := unwrapRegion_eq_ok.1 hr
      have hprot := h nativeProtect k r rfl hk hr hrefuse
      refine ⟨FlatMemory.ext (funext fun k' => ?_) (funext fun x => hbyte x (by omega)), rfl⟩
      simp only [flat, SortedMap.get?_insert]
      split_ifs with hk'
      · rw [hk', hr, ← hprot]
      · rfl
    · cases herr

end GuestMemory

/-! ## Handlers -/

section Handlers

open SyscallCtx

variable {α β : Type} {host : Host} {vfs : Sandbox} {c c' : SyscallCtx}

theorem onMem_eq_ok {errno : U32} {x : MemM α} {a : α} :
    onMem errno x c = .ok a c' ↔ ∃ m, x c.mem = .ok a m ∧ c' = { c with mem := m } := by
  unfold onMem Prog.mapErr Prog.zoom
  rcases x c.mem with ⟨b, m⟩ | ⟨e, m⟩ | e
  · simp only [Outcome.ok.injEq]
    exact ⟨fun ⟨hb, hc⟩ => ⟨m, ⟨hb, rfl⟩, hc.symm⟩, fun ⟨_, ⟨hb, hm⟩, hc⟩ => ⟨hb, hm ▸ hc.symm⟩⟩
  · simp
  · simp

theorem onMem_eq_err {errno e : U32} {x : MemM α} :
    onMem errno x c = .err e c' ↔
      e = errno ∧ ∃ e' m, x c.mem = .err e' m ∧ c' = { c with mem := m } := by
  unfold onMem Prog.mapErr Prog.zoom
  rcases x c.mem with ⟨a, m⟩ | ⟨e', m⟩ | e'
  · simp
  · simp only [Outcome.err.injEq]
    exact ⟨fun ⟨he, hc⟩ => ⟨he.symm, e', m, ⟨rfl, rfl⟩, hc.symm⟩,
      fun ⟨he, _, _, ⟨_, hm⟩, hc⟩ => ⟨he.symm, hm ▸ hc.symm⟩⟩
  · simp

/-- A failure of the handler leaves the memory as it was. -/
def FailsWhole (x : SysM α) : Prop :=
  ∀ c e c', x c = .err e c' → c'.mem = c.mem

theorem FailsWhole.of_steps {x : SysM α} (h : x.Steps (InvImage Eq SyscallCtx.mem)) :
    FailsWhole x :=
  fun _ _ _ he => (h.err he).symm

theorem FailsWhole.bind {x : SysM α} {f : α → SysM β} (hx : x.Steps (InvImage Eq SyscallCtx.mem))
    (hf : ∀ a, FailsWhole (f a)) : FailsWhole (x >>= f) := by
  intro c e c' h
  rw [Prog.bind_apply] at h
  rcases hrun : x c with ⟨a, c₁⟩ | ⟨e₁, c₁⟩ | e₁ <;> simp only [hrun] at h
  · exact (hf a c₁ e c' h).trans (hx.ok hrun).symm
  · obtain ⟨-, rfl⟩ := Outcome.err.inj h
    exact (hx.err hrun).symm
  · cases h

theorem FailsWhole.then_pure {x : SysM α} {f : α → β} (hx : FailsWhole x) :
    FailsWhole (x >>= fun a => pure (f a)) := by
  intro c e c' h
  rw [Prog.bind_apply] at h
  rcases hrun : x c with ⟨a, c₁⟩ | ⟨e₁, c₁⟩ | e₁ <;> simp only [hrun] at h
  · cases h
  · obtain ⟨-, rfl⟩ := Outcome.err.inj h
    exact hx c e₁ c₁ hrun
  · cases h

theorem failsWhole_onMem {errno : U32} {x : MemM α} (hx : x.FailsClean) :
    FailsWhole (onMem errno x) := by
  intro c e c' h
  obtain ⟨-, e', m, hm, rfl⟩ := onMem_eq_err.1 h
  exact hx _ _ _ hm

/-- A BSD call that changes the memory with its last step only. -/
theorem failsWhole_handle {call : Unix.Call} (hprotect : call ≠ .mprotect)
    (htime : call ≠ .gettimeofday) : FailsWhole (Unix.handle host vfs call) := by
  cases call with
  | mprotect => exact absurd rfl hprotect
  | gettimeofday => exact absurd rfl htime
  | read =>
    refine .bind Prog.steps_get fun c => .bind (Prog.steps_ofChecked _) fun _ =>
      .bind (steps_readBytes _ _ _) fun bytes => ?_
    exact (failsWhole_onMem (write_failsClean _ _)).then_pure
  | getentropy =>
    refine .bind Prog.steps_get fun c => ?_
    dsimp only
    split_ifs
    · exact .of_steps (Prog.steps_fail _)
    · exact (failsWhole_onMem (write_failsClean _ _)).then_pure
  | mmap =>
    refine .bind Prog.steps_get fun c => ?_
    split_ifs
    · exact .of_steps (Prog.steps_fail _)
    · exact failsWhole_onMem (mmapAnon_failsClean _ _ _)
  | exit =>
    exact .of_steps ((steps_modifyCtx (by intro _; rfl)).bind fun _ => Prog.steps_pure _)
  | write =>
    exact .of_steps (Prog.steps_get.bind fun c => (Prog.steps_ofChecked _).bind fun _ =>
      steps_readMem.bind fun _ => steps_writeBytes _ _ _)
  | writev => exact .of_steps (Prog.steps_get.bind fun c => steps_writevFrom _ _ _ _ _ _)
  | openFile => exact .of_steps (steps_sysOpen host vfs)
  | close => exact .of_steps steps_sysClose
  | lseek => exact .of_steps (steps_sysLseek host)
  | access => exact .of_steps (steps_sysAccess host vfs)
  | munmap | madvise | getpid | getuid | getgid | issetugid | fcntl =>
    exact .of_steps (Prog.steps_pure _)

/-- What a BSD call has done before its last step does not count if that step fails. -/
def Unix.Call.Settles (host : Host) (c : SyscallCtx) : Unix.Call → Prop
  | .mprotect =>
    ∀ nativeProtect k r, host.build.target = .android nativeProtect →
      c.mem.regionBase (c.cpu.arg 0) = .ok k → c.mem.regions.get? k = some r →
      nativeProtect k r.data.size ((Unix.protOf (c.cpu.arg 2)).bits.setWidth 32) ≠ 0 →
      r.prot = Unix.protOf (c.cpu.arg 2)
  | .gettimeofday =>
    c.cpu.arg 0 ≠ 0 → c.mem.flat.Grants (c.cpu.arg 0) 8 .write →
      c.mem.flat.Grants (c.cpu.arg 0 + 8) 4 .write ∨
        c.mem.flat.Reads (c.cpu.arg 0) (toLeBytes64 (host.clock.getD ⟨0, 0⟩).secs)
  | _ => True

/-- The trap that allocates memory finds no room, or can store the address : in a region that
is there already, or in the new one. -/
def Mach.Trap.Settles (c : SyscallCtx) : Mach.Trap → Prop
  | .vmAllocate =>
    ∀ base len, c.mem.AnonSpan (c.cpu.arg 2) base len → c.mem.flat.Grants (c.cpu.arg 1) 8 .write ∨
      base.toNat ≤ (c.cpu.arg 1).toNat ∧ (c.cpu.arg 1).toNat + 8 ≤ base.toNat + len.toNat
  | _ => True

theorem unchanged_sysMprotect_iff (hinv : c.mem.Inv) :
    (∀ e c', Unix.sysMprotect host c = .err e c' → Unchanged c.mem c'.mem) ↔
      Unix.Call.mprotect.Settles host c := by
  unfold Unix.sysMprotect Unix.Call.Settles
  rw [← hinv.unchanged_protect_iff]
  constructor
  · intro h e m hm
    refine h Errno.EINVAL { c with mem := m } ?_
    rw [Prog.get_bind, Prog.bind_apply, onMem_eq_err.2 ⟨rfl, e, m, hm, rfl⟩]
  · intro h e c' herr
    rw [Prog.get_bind, Prog.bind_apply] at herr
    rcases hrun : onMem Errno.EINVAL (protect host.build.target (c.cpu.arg 0)
      (Unix.protOf (c.cpu.arg 2))) c with ⟨u, c₁⟩ | ⟨e₁, c₁⟩ | e₁ <;> simp only [hrun] at herr
    · cases herr
    · obtain ⟨-, rfl⟩ := Outcome.err.inj herr
      obtain ⟨-, e', m, hm, rfl⟩ := onMem_eq_err.1 hrun
      exact h e' m hm
    · cases herr

theorem onMem_of_err {errno : U32} {x : MemM α} {e : EmuError} {m : GuestMemory}
    (h : x c.mem = .err e m) : onMem errno x c = .err errno { c with mem := m } :=
  onMem_eq_err.2 ⟨rfl, e, m, h, rfl⟩

theorem unchanged_sysGettimeofday_iff (hinv : c.mem.Inv) :
    (∀ e c', Unix.sysGettimeofday host c = .err e c' → Unchanged c.mem c'.mem) ↔
      Unix.Call.gettimeofday.Settles host c := by
  unfold Unix.Call.Settles
  set secs := (host.clock.getD ⟨0, 0⟩).secs
  set micros := (host.clock.getD ⟨0, 0⟩).nanos / 1000
  by_cases hnull : c.cpu.arg 0 = 0
  · have hcall : Unix.sysGettimeofday host c = .ok 0 c := by
      unfold Unix.sysGettimeofday
      rw [Prog.get_bind]
      exact congrFun (if_pos hnull) c
    rw [hcall]
    exact iff_of_true (by rintro e c' ⟨⟩) fun hne => absurd hnull hne
  have hcall : Unix.sysGettimeofday host c = (onMem Errno.EFAULT (writeU64 (c.cpu.arg 0) secs) >>=
      fun _ => onMem Errno.EFAULT (writeU32 (c.cpu.arg 0 + 8) micros) >>= fun _ => pure 0) c := by
    unfold Unix.sysGettimeofday
    rw [Prog.get_bind]
    exact congrFun (if_neg hnull) c
  simp only [hcall, ne_eq, hnull, not_false_eq_true, true_imp_iff, Prog.bind_apply]
  have hfirst := @Inv.write_isOk_iff c.mem hinv (c.cpu.arg 0) (toLeBytes64 secs)
  rw [length_toLeBytes64] at hfirst
  rcases h₁ : writeU64 (c.cpu.arg 0) secs c.mem with ⟨⟨⟩, m₁⟩ | ⟨e₁, m₁⟩ | e₁
  · have hgrants := hfirst.1 ⟨m₁, h₁⟩
    obtain ⟨hflat, hcursor, -⟩ := hinv.flat_of_write h₁
    have hsecond := @Inv.write_isOk_iff m₁ (hinv.of_write h₁) (c.cpu.arg 0 + 8)
      (toLeBytes32 micros)
    rw [length_toLeBytes32, FlatMemory.grants_congr (g := c.mem.flat) (by rw [hflat]; rfl)] at hsecond
    simp only [onMem_of_ok h₁, hgrants, true_imp_iff]
    rcases h₂ : writeU32 (c.cpu.arg 0 + 8) micros m₁ with ⟨⟨⟩, m₂⟩ | ⟨e₂, m₂⟩ | e₂
    · simp only [@onMem_of_ok _ Errno.EFAULT _ { c with mem := m₁ } _ _ h₂]
      exact iff_of_true (by rintro e c' ⟨⟩) (Or.inl (hsecond.1 ⟨m₂, h₂⟩))
    · have hno : ¬c.mem.flat.Grants (c.cpu.arg 0 + 8) 4 .write := by
        rw [← hsecond]
        rintro ⟨m, hm⟩
        cases h₂.symm.trans hm
      obtain rfl := write_failsClean _ _ _ _ _ h₂
      simp only [@onMem_of_err _ { c with mem := m₂ } Errno.EFAULT _ _ _ h₂, hno, false_or]
      rw [← write_eq_self_iff, ← hflat]
      refine ⟨fun h => (h _ _ rfl).1, fun h e c' herr => ?_⟩
      obtain ⟨-, rfl⟩ := Outcome.err.inj herr
      exact ⟨h, hcursor⟩
    · exact absurd h₂ (write_ne_panic _ _ _ _)
  · have hno : ¬c.mem.flat.Grants (c.cpu.arg 0) 8 .write := by
      rw [← hfirst]
      rintro ⟨m, hm⟩
      cases h₁.symm.trans hm
    obtain rfl := write_failsClean _ _ _ _ _ h₁
    simp only [onMem_of_err h₁, hno, false_imp_iff, iff_true]
    intro e c' herr
    obtain ⟨-, rfl⟩ := Outcome.err.inj herr
    exact .of_eq rfl
  · exact absurd h₁ (write_ne_panic _ _ _ _)

/-- What the trap that allocates memory does, by the outcomes of the mapping and of the
store. -/
theorem vmAllocate_cases {v : U64} (h : Mach.vmAllocate host c = .ok v c') :
    (∃ e, mmapAnon host.build.profile (c.cpu.arg 2) .rw c.mem = .err e c'.mem ∧ v = 3) ∨
      ∃ base m, mmapAnon host.build.profile (c.cpu.arg 2) .rw c.mem = .ok base m ∧
        ((∃ e, writeU64 (c.cpu.arg 1) base m = .err e c'.mem ∧ v = 4) ∨
          writeU64 (c.cpu.arg 1) base m = .ok () c'.mem ∧ v = 0) := by
  unfold Mach.vmAllocate at h
  rw [Prog.get_bind] at h
  obtain ⟨r, c₁, htry, h⟩ := Prog.bind_eq_ok.1 h
  rcases Prog.attempt_eq_ok.1 htry with ⟨base, hmap, rfl⟩ | ⟨e, hmap, rfl⟩
  · obtain ⟨r, c₂, htry, h⟩ := Prog.bind_eq_ok.1 h
    obtain ⟨m, hm, rfl⟩ := onMem_eq_ok.1 hmap
    refine Or.inr ⟨base, m, hm, ?_⟩
    rcases Prog.attempt_eq_ok.1 htry with ⟨u, hstore, rfl⟩ | ⟨e, hstore, rfl⟩
    · obtain ⟨rfl, rfl⟩ := Outcome.ok.inj h
      obtain ⟨m', hm', rfl⟩ := onMem_eq_ok.1 hstore
      exact Or.inr ⟨hm', rfl⟩
    · obtain ⟨rfl, rfl⟩ := Outcome.ok.inj h
      obtain ⟨-, e', m', hm', rfl⟩ := onMem_eq_err.1 hstore
      exact Or.inl ⟨e', hm', rfl⟩
  · obtain ⟨rfl, rfl⟩ := Outcome.ok.inj h
    obtain ⟨-, e', m', hm', rfl⟩ := onMem_eq_err.1 hmap
    exact Or.inl ⟨e', hm', rfl⟩

theorem unchanged_vmAllocate_iff (hinv : c.mem.Inv) {v : U64}
    (h : Mach.vmAllocate host c = .ok v c') :
    (v ≠ 0 → Unchanged c.mem c'.mem) ↔ Mach.Trap.vmAllocate.Settles c := by
  unfold Mach.Trap.Settles
  rcases vmAllocate_cases h with ⟨e, hmap, rfl⟩ | ⟨base, m, hmap, hstore⟩
  · refine iff_of_true (fun _ => ?_) fun base len hspan => absurd hmap hspan.mmapAnon_ne_err
    exact .of_eq (mmapAnon_failsClean _ _ _ _ _ _ hmap)
  · obtain ⟨len, hspan⟩ := anonSpan_of_mmapAnon hmap
    obtain ⟨hinv', hchanged, hgrants⟩ := hinv.grants_mmapAnon (a := c.cpu.arg 1) hspan hmap
    have hok := @Inv.write_isOk_iff m hinv' (c.cpu.arg 1) (toLeBytes64 base)
    rw [length_toLeBytes64, hgrants] at hok
    have hunique : (∀ base len, c.mem.AnonSpan (c.cpu.arg 2) base len →
        c.mem.flat.Grants (c.cpu.arg 1) 8 .write ∨ base.toNat ≤ (c.cpu.arg 1).toNat ∧
          (c.cpu.arg 1).toNat + 8 ≤ base.toNat + len.toNat) ↔
        ∃ m', writeU64 (c.cpu.arg 1) base m = .ok () m' := by
      refine ⟨fun h => hok.2 (h base len hspan), fun h base' len' hspan' => ?_⟩
      obtain ⟨rfl, rfl⟩ := hspan.unique hspan'
      exact hok.1 h
    rw [hunique]
    rcases hstore with ⟨e, hstore, rfl⟩ | ⟨hstore, rfl⟩
    · refine iff_of_false (fun h => ?_) ?_
      · rw [write_failsClean _ _ _ _ _ hstore] at h
        exact hchanged (h (by decide))
      · rintro ⟨m', hm'⟩
        cases hstore.symm.trans hm'
    · exact iff_of_true (fun hne => absurd rfl hne) ⟨_, hstore⟩

/-- A BSD call that fails leaves the memory as it was exactly if it settles. -/
theorem unchanged_handle_iff (hinv : c.mem.Inv) {call : Unix.Call} :
    (∀ e c', Unix.handle host vfs call c = .err e c' → Unchanged c.mem c'.mem) ↔
      call.Settles host c := by
  by_cases hprotect : call = .mprotect
  · subst hprotect
    exact unchanged_sysMprotect_iff hinv
  by_cases htime : call = .gettimeofday
  · subst htime
    exact unchanged_sysGettimeofday_iff hinv
  refine iff_of_true (fun e c' h => .of_eq (failsWhole_handle hprotect htime c e c' h)) ?_
  cases call with
  | mprotect => exact absurd rfl hprotect
  | gettimeofday => exact absurd rfl htime
  | _ => trivial

/-- So does a trap for memory. -/
theorem unchanged_trap_iff (hinv : c.mem.Inv) {trap : Mach.Trap} {v : U64}
    (h : Mach.handle host trap c = .ok v c') :
    (trap = .vmAllocate ∨ trap = .vmDeallocate → v ≠ 0 → Unchanged c.mem c'.mem) ↔
      trap.Settles c := by
  cases trap with
  | vmAllocate =>
    rw [← unchanged_vmAllocate_iff hinv h]
    exact ⟨fun h => h (Or.inl rfl), fun h _ => h⟩
  | taskSelf | hostSelf | threadSelf | replyPort | msg | semaphore | vmDeallocate =>
    obtain ⟨-, rfl⟩ := Outcome.ok.inj h
    exact iff_of_true (fun _ _ => .of_eq rfl) trivial

theorem infallible_trap (host : Host) (trap : Mach.Trap) : (Mach.handle host trap).Infallible := by
  cases trap with
  | vmAllocate =>
    refine Prog.infallible_get.bind fun c => Prog.infallible_attempt.bind fun base => ?_
    rcases base with e | base
    · exact Prog.infallible_pure _
    · refine Prog.infallible_attempt.bind fun r => ?_
      rcases r with e | u
      · exact Prog.infallible_pure _
      · exact Prog.infallible_pure _
  | taskSelf | hostSelf | threadSelf | replyPort | msg | semaphore | vmDeallocate =>
    exact Prog.infallible_pure _

end Handlers

/-! ## Calls -/

namespace Machine

variable {W : Type}

/-- The call has failed : a BSD call with the carry flag, or a trap for memory with a non-zero
`kern_return`. -/
def Failed (p : Profile) (mach mach' : Machine W) : Prop :=
  ∃ cls number, decode p (mach.cpu.x 16) = .ok (cls, number) ∧
    (cls = .unix ∧ mach'.cpu.nzcv &&& CpuContext.carry ≠ 0 ∨
      cls = .mach ∧ (Mach.Trap.ofNumber number = some .vmAllocate ∨
        Mach.Trap.ofNumber number = some .vmDeallocate) ∧ mach'.cpu.x 0 ≠ 0)

/-- What the call does before its last step does not count if that step fails. -/
def Settles (host : Host) (mach : Machine W) : Prop :=
  ∀ cls number, decode host.build.profile (mach.cpu.x 16) = .ok (cls, number) →
    (∀ call, cls = .unix → Unix.Call.ofNumber number = some call →
      call.Settles host mach.syscallCtx) ∧
    ∀ trap, cls = .mach → Mach.Trap.ofNumber number = some trap → trap.Settles mach.syscallCtx

end Machine

namespace CpuContext

theorem carry_ok (cpu : CpuContext) (v : U64) :
    (cpu.setSyscallResult (.ok v)).nzcv &&& carry = 0 := by
  simp [setSyscallResult, BitVec.and_assoc]

theorem carry_error (cpu : CpuContext) (e : U32) :
    (cpu.setSyscallResult (.error e)).nzcv &&& carry ≠ 0 := by
  have h : (cpu.setSyscallResult (.error e)).nzcv &&& carry = carry := by
    ext i hi
    rcases hbit : carry[i] with _ | _ <;> simp [setSyscallResult, hbit]
  rw [h]
  decide

end CpuContext

namespace Machine

variable {W : Type} {host : Host} {mach mach' : Machine W}

/-- Only the selector of the call counts. -/
theorem settles_iff {cls : SyscallClass} {number : U32}
    (hdecode : decode host.build.profile (mach.cpu.x 16) = .ok (cls, number)) :
    mach.Settles host ↔
      (∀ call, cls = .unix → Unix.Call.ofNumber number = some call →
        call.Settles host mach.syscallCtx) ∧
      ∀ trap, cls = .mach → Mach.Trap.ofNumber number = some trap →
        trap.Settles mach.syscallCtx := by
  refine ⟨fun h => h cls number hdecode, fun h cls' number' hdecode' => ?_⟩
  obtain ⟨rfl, rfl⟩ := Prod.mk.inj (Except.ok.inj (hdecode.symm.trans hdecode'))
  exact h

theorem failed_iff {p : Profile} {cls : SyscallClass} {number : U32}
    (hdecode : decode p (mach.cpu.x 16) = .ok (cls, number)) :
    Failed p mach mach' ↔ (cls = .unix ∧ mach'.cpu.nzcv &&& CpuContext.carry ≠ 0 ∨
      cls = .mach ∧ (Mach.Trap.ofNumber number = some .vmAllocate ∨
        Mach.Trap.ofNumber number = some .vmDeallocate) ∧ mach'.cpu.x 0 ≠ 0) := by
  refine ⟨fun ⟨cls', number', hdecode', h⟩ => ?_, fun h => ⟨cls, number, hdecode, h⟩⟩
  obtain ⟨rfl, rfl⟩ := Prod.mk.inj (Except.ok.inj (hdecode.symm.trans hdecode'))
  exact h

/-- A call that returns leaves the memory as it was whenever it fails, exactly if what it does
before its last step does not count. -/
theorem unchanged_iff_settles (host : Host) (mach mach' : Machine W)
    (hmem : Reachable host.build.profile mach.mem)
    (h : serviceSyscall host mach = .ok () mach') :
    (Failed host.build.profile mach mach' → Unchanged mach.mem mach'.mem) ↔
      mach.Settles host := by
  obtain ⟨cls, number, d, hdecode, ⟨hnone, rfl⟩ | ⟨handler, hh, hrun⟩⟩ :=
    answer_of_serviceSyscall h
  · refine iff_of_true (fun _ => .of_eq rfl) ((settles_iff hdecode).2 ⟨?_, ?_⟩)
    · rintro call rfl hcall
      simp only [handlerOf, hcall, Option.map_some, reduceCtorEq] at hnone
    · rintro trap rfl htrap
      simp only [handlerOf, htrap, Option.map_some, reduceCtorEq] at hnone
  rw [failed_iff hdecode, settles_iff hdecode]
  cases cls with
  | unix =>
    obtain ⟨call, hcall, rfl⟩ := Option.map_eq_some_iff.1 hh
    simp only [hcall, Option.some.injEq, reduceCtorEq, false_imp_iff, implies_true, and_true,
      true_imp_iff, false_and, or_false, true_and, forall_eq']
    rw [← @unchanged_handle_iff host mach.vfs mach.syscallCtx hmem.inv]
    rcases hrun with ⟨v, c, hv, rfl⟩ | ⟨e, c, he, rfl⟩
    · refine iff_of_true (fun hcarry => absurd (CpuContext.carry_ok _ _) hcarry) ?_
      intro e c' he
      cases hv.symm.trans he
    · refine ⟨fun h e' c' he' => ?_, fun h _ => h e c he⟩
      obtain ⟨-, rfl⟩ := Outcome.err.inj (he.symm.trans he')
      exact h (CpuContext.carry_error _ _)
  | mach =>
    obtain ⟨trap, htrap, rfl⟩ := Option.map_eq_some_iff.1 hh
    rcases hrun with ⟨v, c, hv, rfl⟩ | ⟨e, c, he, rfl⟩
    · simp only [htrap, Option.some.injEq, reduceCtorEq, false_imp_iff, implies_true,
        true_imp_iff, false_and, false_or, true_and, forall_eq', and_imp]
      exact unchanged_trap_iff hmem.inv hv
    · exact absurd he (infallible_trap host trap _ _ _)
  | machDep => cases hh
  | diag => cases hh

/-! ## A mapping that is leaked -/

/-- A machine with the memory of the tests, about to make a system call. -/
def calling (selector x0 x1 x2 : U64) : Machine Unit where
  cpu :=
    { CpuContext.default with
      x := fun i => if i = 16 then selector else if i = 0 then x0 else if i = 1 then x1
        else if i = 2 then x2 else 0 }
  mem := testMemory
  vfs := importSandbox
  fds := FdTable.default
  dispatcher := ⟨0, 0⟩
  fs := ⟨fun _ => none⟩
  world := ()
  trampolines := .empty
  trampRange := (0, 0)
  symbolStubs := .empty
  lazyBinds := .empty
  exit := none
  initFuncs := []
  entry := 0
  argRegs := fun _ => 0
  sp := 0

/-- A host on which everything is granted. -/
def willingHost : Host :=
  ⟨⟨.release, .host⟩, .willing, none⟩

/-- `mprotect` of an address that is not mapped fails, and the memory is as it was. -/
theorem unchanged_iff_settles_mprotect :
    ∃ mach', Reachable .release (calling 74 0 0x4000 1).mem ∧
      serviceSyscall willingHost (calling 74 0 0x4000 1) = .ok () mach' ∧
      Failed .release (calling 74 0 0x4000 1) mach' ∧
      Unchanged (calling 74 0 0x4000 1).mem mach'.mem := by
  have hrun : (serviceSyscall willingHost (calling 74 0 0x4000 1)).okState?.map
      (fun mach => mach.cpu.nzcv &&& CpuContext.carry) = some CpuContext.carry := by
    decide
  obtain ⟨mach', hstate, hcarry⟩ := Option.map_eq_some_iff.1 hrun
  obtain ⟨⟨⟩, hok⟩ := Outcome.okState?_eq_some.1 hstate
  have hdecode : decode .release ((calling 74 0 0x4000 1).cpu.x 16) = .ok (.unix, 74) := rfl
  have hfailed : Failed .release (calling 74 0 0x4000 1) mach' :=
    (failed_iff hdecode).2 (Or.inl ⟨rfl, by rw [hcarry]; decide⟩)
  refine ⟨mach', reachable_testMemory _, hok, hfailed, ?_⟩
  refine (unchanged_iff_settles willingHost _ mach' (reachable_testMemory _) hok).2 ?_ hfailed
  refine (@settles_iff _ willingHost _ _ _ hdecode).2 ⟨?_, fun _ h => by cases h⟩
  rintro call - hcall
  obtain rfl : Unix.Call.mprotect = call := Option.some.inj hcall
  exact fun _ _ _ h => by cases h

/-- `vm_allocate(task, NULL, 0x4000)` answers `KERN_INVALID_ADDRESS`, and the region it has
mapped stays. -/
theorem vmAllocate_leaks :
    ∃ mach', Reachable .release (calling (-10) 0 0 0x4000).mem ∧
      serviceSyscall willingHost (calling (-10) 0 0 0x4000) = .ok () mach' ∧
      Failed .release (calling (-10) 0 0 0x4000) mach' ∧
      ¬Unchanged (calling (-10) 0 0 0x4000).mem mach'.mem := by
  have hrun : (serviceSyscall willingHost (calling (-10) 0 0 0x4000)).okState?.map
      (fun mach => (mach.cpu.x 0, mach.mem.mmapCursor)) = some (4, 0x1ffffc000) := by
    decide
  obtain ⟨mach', hstate, hanswer⟩ := Option.map_eq_some_iff.1 hrun
  obtain ⟨⟨⟩, hok⟩ := Outcome.okState?_eq_some.1 hstate
  obtain ⟨hcode, hcursor⟩ := Prod.mk.inj hanswer
  have hdecode : decode .release ((calling (-10) 0 0 0x4000).cpu.x 16) = .ok (.mach, 10) := rfl
  refine ⟨mach', reachable_testMemory _, hok, (failed_iff hdecode).2 (Or.inr ⟨rfl, Or.inl rfl, ?_⟩),
    fun h => ?_⟩
  · rw [hcode]
    decide
  · have hsame : mach'.mem.mmapCursor = mmapTop := h.2
    rw [hcursor] at hsame
    exact absurd hsame (by decide)

end Machine

end IosEmu
