import IosEmu.DeviceLoad
import IosEmu.FileReads
import IosEmu.Services
import IosEmu.StubPage

/-!
# Where calls store

A system call stores what the guest asked for where the guest asked for it : what is read from a
file, the time, random bytes, the base of a mapping. A shim copies or fills; the runtime stores the
header of a new object, and `realloc` the contents of a new block. Where that is, is known from the
registers, the memory and the files before the call (`Unix.Call.stores`, `Mach.Trap.stores`,
`shimStores`).

`Touches S` says that a call changes no byte that is mapped but those in `S`. On device the segments,
the page of trampolines and the stack are reserved natively (`Reserved`), the heap and the anonymous
mappings are not; no call changes which addresses are.
-/

open SysLib

namespace IosEmu

open GuestMemory Process

/-! ## Reserved regions -/

namespace FlatMemory

/-- The address lies in a region that is reserved natively. -/
def Reserved (f : FlatMemory) (x : ℕ) : Prop :=
  ∃ k s, f.layout k = some s ∧ s.kind.reserved ∧ k.toNat ≤ x ∧ x < k.toNat + s.size

theorem reserved_congr {f g : FlatMemory} (h : f.layout = g.layout) {x : ℕ} :
    f.Reserved x ↔ g.Reserved x := by
  unfold Reserved
  rw [h]

/-- What is reserved is mapped. -/
theorem Reserved.byte_ne_none {m : GuestMemory} (hinv : m.Inv) {x : ℕ} (h : m.flat.Reserved x) :
    m.flat.byte x ≠ none := by
  obtain ⟨k, s, hs, -, hle, hlt⟩ := h
  obtain ⟨r, hr, rfl⟩ := layout_flat_eq_some.1 hs
  have hlt' : x < k.toNat + r.data.size := hlt
  rw [hinv.byte_flat hr hle hlt', Buffer.get?_of_lt (by omega)]
  exact Option.some_ne_none _

end FlatMemory

namespace GuestMemory

variable {m m' : GuestMemory} {S S' : Set ℕ}

/-- No reserved region moves, and of the bytes that are mapped only those in `S` change. -/
def Touches (S : Set ℕ) (m m' : GuestMemory) : Prop :=
  m.Inv → m'.Inv ∧ (∀ x, m'.flat.Reserved x ↔ m.flat.Reserved x) ∧
    ∀ x ∉ S, m.flat.byte x ≠ none → m'.flat.byte x = m.flat.byte x

instance touchesPreorder (S : Set ℕ) : IsPreorder GuestMemory (Touches S) where
  refl _ h := ⟨h, fun _ => Iff.rfl, fun _ _ _ => rfl⟩
  trans _ _ _ h₁ h₂ h := by
    obtain ⟨hinv₁, hres₁, hbyte₁⟩ := h₁ h
    obtain ⟨hinv₂, hres₂, hbyte₂⟩ := h₂ hinv₁
    refine ⟨hinv₂, fun x => (hres₂ x).trans (hres₁ x), fun x hx hmapped => ?_⟩
    have heq := hbyte₁ x hx hmapped
    exact (hbyte₂ x hx (heq ▸ hmapped)).trans heq

theorem Touches.mono (h : Touches S m m') (hS : S ⊆ S') : Touches S' m m' := fun hinv =>
  ⟨(h hinv).1, (h hinv).2.1, fun x hx => (h hinv).2.2 x fun hmem => hx (hS hmem)⟩

/-- The addresses of `n` bytes from `a` on. -/
def span (a : U64) (n : ℕ) : Set ℕ :=
  Set.Ico a.toNat (a.toNat + n)

theorem span_subset {a : U64} {n n' : ℕ} (h : n ≤ n') : span a n ⊆ span a n' :=
  fun _ hx => ⟨hx.1, hx.2.trans_le (Nat.add_le_add_left h _)⟩

/-- Where `n` bytes are stored from `a` on : nowhere, if the memory refuses. -/
def storedAt (m : GuestMemory) (a : U64) (n : ℕ) : Set ℕ :=
  { x | x ∈ span a n ∧ m.flat.Grants a n .write }

theorem storedAt_subset (m : GuestMemory) (a : U64) (n : ℕ) : m.storedAt a n ⊆ span a n :=
  fun _ hx => hx.1

/-- What is refused depends on the layout only, which a write keeps. -/
theorem storedAt_write (a : U64) (d : List U8) :
    (write a d).Steps fun m m' => m.Inv → m'.storedAt = m.storedAt := by
  refine (write_failsClean _ _).steps (fun _ _ => rfl) fun m u m' hw hinv => ?_
  have hlay : m'.flat.layout = m.flat.layout := by
    rw [(hinv.flat_of_write hw).1]
    rfl
  funext a n
  exact Set.ext fun x => and_congr_right' (FlatMemory.grants_congr hlay)

theorem touches_storedAt (a : U64) (d : List U8) :
    (write a d).Steps fun m m' => Touches (m.storedAt a d.length) m m' := by
  refine (write_failsClean _ _).steps (fun m => refl_of (Touches _) m) fun m u m' hw hinv => ?_
  have hflat := (hinv.flat_of_write hw).1
  refine ⟨hinv.of_write hw, fun x => FlatMemory.reserved_congr (by rw [hflat]; rfl),
    fun x hx _ => ?_⟩
  rw [hflat]
  exact if_neg fun hin => hx ⟨hin, hinv.write_isOk_iff.1 ⟨m', hw⟩⟩

theorem touches_write {a : U64} {d : List U8} (h : span a d.length ⊆ S) :
    (write a d).Steps (Touches S) :=
  (touches_storedAt a d).mono fun m _ htouch => htouch.mono ((storedAt_subset m _ _).trans h)

/-- A new region that is not reserved touches nothing. -/
theorem touches_map {p : Profile} {base size : U64} {prot : Protection} {kind : RegionKind}
    {name : String} (hkind : ¬kind.reserved) (hsize : 0 < (pageRound (max size 1)).toNat) :
    (map p base size prot kind name).Steps (Touches S) := by
  refine (map_failsClean _ _ _ _ _ _).steps (refl_of (Touches S)) fun m u m' hmap hinv => ?_
  obtain ⟨hinv', hkeep, -, hfree⟩ := hinv.keepsBytes_map hsize hmap
  have hlay := layout_of_map hmap
  refine ⟨hinv', fun x => ⟨?_, fun hres => ?_⟩, fun x _ hmapped => ?_⟩
  · rintro ⟨k, s, hs, hreserved, hle, hlt⟩
    rw [hlay, Function.update_apply] at hs
    split_ifs at hs with hk
    · obtain rfl := Option.some.inj hs
      exact absurd hreserved hkind
    · exact ⟨k, s, hs, hreserved, hle, hlt⟩
  · obtain ⟨k, s, hs, hreserved, hle, hlt⟩ := hres
    refine ⟨k, s, ?_, hreserved, hle, hlt⟩
    rw [hlay, Function.update_of_ne, hs]
    -- A region at the same base that holds an address would not be free.
    rintro rfl
    have hbase : m.flat.Reserved k.toNat := ⟨k, s, hs, hreserved, le_rfl, by omega⟩
    obtain ⟨v, hv⟩ := Option.ne_none_iff_exists'.1 (hbase.byte_ne_none hinv)
    have := hfree _ v hv
    omega
  · obtain ⟨v, hv⟩ := Option.ne_none_iff_exists'.1 hmapped
    rw [hv, hkeep x v hv]

theorem touches_of_regions (h : m'.regions = m.regions) : Touches S m m' := by
  intro hinv
  have hflat : m'.flat = m.flat := by
    unfold flat
    rw [h]
  refine ⟨⟨?_, ?_, ?_⟩, fun x => by rw [hflat], fun x _ _ => by rw [hflat]⟩
  · rw [h]
    exact hinv.base_eq
  · rw [h]
    exact hinv.fits
  · rw [h]
    exact hinv.tiles

theorem reserved_setProt {k : U64} {r : Region} (hr : m.regions.get? k = some r)
    (prot : Protection) (x : ℕ) :
    (GuestMemory.flat { m with regions := m.regions.insert k { r with prot } }).Reserved x ↔
      m.flat.Reserved x := by
  unfold FlatMemory.Reserved
  refine exists_congr fun k' => ?_
  simp only [flat]
  rw [SortedMap.get?_insert]
  split_ifs with hk
  · subst hk
    simp only [hr, Option.map_some, Option.some.injEq, exists_eq_left']
    exact Iff.rfl
  · rfl

/-- Neither does a protection. -/
theorem touches_protect (target : Target) (a : U64) (prot : Protection) :
    (protect target a prot).Steps (Touches S) := by
  intro m m' hrun hinv
  rcases protect_cases hrun with rfl | ⟨key, r, hr, rfl⟩
  · exact ⟨hinv, fun _ => Iff.rfl, fun _ _ _ => rfl⟩
  · exact ⟨hinv.change (.setProt key r prot hr), reserved_setProt hr prot,
      fun x _ _ => hinv.byte_setProt hr prot x⟩

theorem touches_mmapAnon (p : Profile) (size : U64) (prot : Protection) :
    (mmapAnon p size prot).Steps (Touches S) := by
  refine (mmapAnon_failsClean _ _ _).steps (refl_of _) fun m base m' h => ?_
  obtain ⟨s, low, m₁, hs, -, -, hmap, rfl⟩ := mmapAnon_eq_ok.1 h
  obtain rfl := alignUp_eq_ok hs
  have hdvd : (pageRound (max size 1)).toNat % 0x4000 = 0 := by
    rw [toNat_pageRound]
    omega
  have hkind : ¬RegionKind.reserved .anonymous := by
    rintro (h | h) <;> cases h
  have hplace : Touches S m m₁ := (touches_map hkind (pageRound_max_one hdvd).2).ok hmap
  refine trans_of (Touches S) hplace (touches_of_regions ?_)
  rfl

/-- Where the next block of the heap starts. -/
def heapStart (m : GuestMemory) : U64 :=
  (m.heap.cursor + 15) &&& ~~~15

/-- An allocation hands out the next block. -/
theorem heapAlloc_eq_start {p : Profile} {size a : U64}
    (h : heapAlloc p size 16 m = .ok a m') : a = m.heapStart := by
  unfold heapAlloc Prog.zoom at h
  rcases hx : BumpAllocator.alloc p size 16 m.heap with ⟨a', h'⟩ | ⟨e, h'⟩ | e <;>
    simp only [hx] at h
  · obtain ⟨rfl, -⟩ := Outcome.ok.inj h
    obtain ⟨start, hstart, hx⟩ := Prog.ofChecked_bind_eq_ok.1 hx
    rcases hstop : checkedAdd start (max size 1) with _ | stop <;> simp only [hstop] at hx
    · cases hx
    · split_ifs at hx
      · cases hx
      · obtain ⟨rfl, -⟩ := Outcome.ok.inj hx
        have hmask : (max 16 1 - 1 : U64) = 15 := rfl
        rw [alignUp_eq_mask hstart, hmask, heapStart]
  · cases h
  · cases h

/-- It moves the cursor of the heap and no more. -/
theorem touches_heapAlloc (p : Profile) (size align : U64) :
    (heapAlloc p size align).Steps (Touches S) := by
  have hregions : (heapAlloc p size align).Steps (InvImage Eq GuestMemory.regions) :=
    Prog.steps_zoom_of_eq _ fun _ _ => rfl
  exact hregions.mono fun m m' h => touches_of_regions (Eq.symm h)

end GuestMemory

/-! ## System calls -/

/-- Where a BSD call stores. -/
def Unix.Call.stores (host : Host) (c : SyscallCtx) : Unix.Call → Set ℕ
  | .read => c.mem.storedAt (c.cpu.arg 1) (c.handed host).length
  | .gettimeofday =>
    if c.cpu.arg 0 = 0 then ∅
    else c.mem.storedAt (c.cpu.arg 0) 8 ∪ c.mem.storedAt (c.cpu.arg 0 + 8) 4
  | .getentropy => if 256 < (c.cpu.arg 1).toNat then ∅ else span (c.cpu.arg 0) (c.cpu.arg 1).toNat
  | _ => ∅

/-- Where a Mach trap stores. -/
def Mach.Trap.stores (cpu : CpuContext) : Mach.Trap → Set ℕ
  | .vmAllocate => span (cpu.arg 1) 8
  | _ => ∅

section Syscalls

open SyscallCtx

variable {host : Host} {vfs : Sandbox} {c c' : SyscallCtx}

theorem touches_sysRead (h : (Unix.sysRead host c).state? = some c') :
    Touches (Unix.Call.stores host c .read) c.mem c'.mem := by
  rw [Unix.sysRead, Prog.get_bind] at h
  rcases Prog.state?_bind_eq_some h with ⟨⟨⟩, c₁, halloc, h⟩ | ⟨e, herr⟩
  · obtain ⟨-, rfl⟩ := Prog.ofChecked_eq_ok.1 halloc
    rcases Unix.readBytes_cases host c₁ with ⟨e, hread, -⟩ | hread <;>
      rw [SyscallCtx.fd] at hread
    · rw [Prog.bind_apply, hread] at h
      obtain rfl := Option.some.inj h
      exact refl_of (Touches _) _
    · rw [Prog.bind_apply, hread] at h
      dsimp only at h
      have hstore : (onMem Errno.EFAULT (GuestMemory.write (c₁.cpu.arg 1) (c₁.handed host)) >>=
          fun _ => (pure (BitVec.ofNat 64 (c₁.handed host).length) : SysM U64)).Steps
          (InvImage (fun m m' => Touches
            (m.storedAt (c₁.cpu.arg 1) (c₁.handed host).length) m m') SyscallCtx.mem) :=
        (steps_onMem (touches_storedAt _ _)).bind_pure
      have hstored := hstore _ c' h
      exact hstored
  · rw [Prog.Steps.err (Prog.steps_ofChecked (R := Eq) _) herr]
    exact refl_of (Touches _) _

theorem touches_sysGettimeofday (h : (Unix.sysGettimeofday host c).state? = some c') :
    Touches (Unix.Call.stores host c .gettimeofday) c.mem c'.mem := by
  unfold Unix.sysGettimeofday at h
  rw [Prog.get_bind] at h
  simp only [Unix.Call.stores]
  split_ifs at h ⊢
  · obtain rfl := Option.some.inj h
    exact refl_of (Touches _) _
  · have hsecs := touches_storedAt (c.cpu.arg 0) (toLeBytes64 (host.clock.getD ⟨0, 0⟩).secs)
    rw [length_toLeBytes64] at hsecs
    rcases Prog.state?_bind_eq_some h with ⟨⟨⟩, c₁, hfirst, h⟩ | ⟨e, herr⟩
    · have hfirst' : Touches _ c.mem c₁.mem := (steps_onMem hsecs).ok hfirst
      have hsecond : Touches (c₁.mem.storedAt (c.cpu.arg 0 + 8) 4) c₁.mem c'.mem :=
        (steps_onMem (touches_storedAt _ _)).bind_pure c₁ c' h
      intro hinv
      -- What is refused afterwards would have been refused before.
      have hsame : c₁.mem.storedAt = c.mem.storedAt :=
        (steps_onMem (storedAt_write _ _)).ok hfirst hinv
      rw [hsame] at hsecond
      exact trans_of (Touches _) (hfirst'.mono Set.subset_union_left)
        (hsecond.mono Set.subset_union_right) hinv
    · have hfirst' : Touches _ c.mem c'.mem := (steps_onMem hsecs).err herr
      exact hfirst'.mono Set.subset_union_left

theorem touches_sysGetentropy (h : (Unix.sysGetentropy host c).state? = some c') :
    Touches (Unix.Call.stores host c .getentropy) c.mem c'.mem := by
  unfold Unix.sysGetentropy at h
  rw [Prog.get_bind] at h
  simp only [Unix.Call.stores]
  split_ifs at h ⊢
  · obtain rfl := Option.some.inj h
    exact refl_of (Touches _) _
  · refine (steps_onMem (touches_write ?_)).bind_pure c c' h
    exact span_subset (List.length_take_le _ _)

/-- A BSD call touches what it stores at. -/
theorem touches_handle {call : Unix.Call} (h : (Unix.handle host vfs call c).state? = some c') :
    Touches (call.stores host c) c.mem c'.mem := by
  have hnone : ∀ {x : SysM U64}, x.Steps (InvImage (Touches ∅) SyscallCtx.mem) →
      (x c).state? = some c' → Touches ∅ c.mem c'.mem := fun hx hrun => hx c c' hrun
  cases call with
  | read => exact touches_sysRead h
  | gettimeofday => exact touches_sysGettimeofday h
  | getentropy => exact touches_sysGetentropy h
  | mprotect =>
    exact hnone (Prog.steps_get.bind fun c => (steps_onMem (touches_protect _ _ _)).bind_pure) h
  | mmap =>
    refine hnone (Prog.steps_get.bind fun c => ?_) h
    split_ifs
    · exact Prog.steps_fail _
    · exact steps_onMem (touches_mmapAnon _ _ _)
  | exit => exact hnone (steps_modifyCtx (by intro _; rfl)).bind_pure h
  | write =>
    exact hnone (Prog.steps_get.bind fun c => (Prog.steps_ofChecked _).bind fun _ =>
      steps_readMem.bind fun _ => steps_writeBytes _ _ _) h
  | writev => exact hnone (Prog.steps_get.bind fun c => steps_writevFrom _ _ _ _ _ _) h
  | openFile => exact hnone (steps_sysOpen host vfs) h
  | close => exact hnone steps_sysClose h
  | lseek => exact hnone (steps_sysLseek host) h
  | access => exact hnone (steps_sysAccess host vfs) h
  | munmap | madvise | getpid | getuid | getgid | issetugid | fcntl =>
    exact hnone (Prog.steps_pure _) h

/-- A Mach trap touches what it stores at. -/
theorem touches_trap {trap : Mach.Trap} (h : (Mach.handle host trap c).state? = some c') :
    Touches (trap.stores c.cpu) c.mem c'.mem := by
  cases trap with
  | vmAllocate =>
    change (Mach.vmAllocate host c).state? = some c' at h
    unfold Mach.vmAllocate at h
    rw [Prog.get_bind] at h
    refine Prog.Steps.bind (R := InvImage (Touches _) SyscallCtx.mem)
      (steps_onMem (touches_mmapAnon _ _ _)).attempt (fun base => ?_) c c' h
    rcases base with e | base
    · exact Prog.steps_pure _
    · refine (steps_onMem (touches_write ?_)).attempt.bind fun r => ?_
      · rw [length_toLeBytes64]
        exact subset_rfl
      · rcases r with e | u
        · exact Prog.steps_pure _
        · exact Prog.steps_pure _
  | taskSelf | hostSelf | threadSelf | replyPort | msg | semaphore | vmDeallocate =>
    obtain rfl := Option.some.inj h
    exact refl_of _ _

end Syscalls

/-! ## Shims -/

/-- The shims that make a class or an instance. -/
def makers : List String :=
  ["objc_msgSend", "objc_msgSendSuper", "objc_msgSendSuper2", "objc_getClass",
   "objc_lookUpClass", "objc_getRequiredClass", "objc_getMetaClass", "objc_alloc",
   "objc_alloc_init"]

/-- Where the shim of a symbol stores. -/
def shimStores (symbol : String) (ctx : CallContext) : Set ℕ :=
  if symbol = "memcpy" ∨ symbol = "memmove" ∨ symbol = "memset" then
    ctx.mem.storedAt (ctx.cpu.arg 0) (ctx.cpu.arg 2).toNat
  else if symbol = "bzero" then ctx.mem.storedAt (ctx.cpu.arg 0) (ctx.cpu.arg 1).toNat
  else if symbol = "realloc" then span ctx.mem.heapStart (ctx.cpu.arg 1).toNat
  else if symbol ∈ makers then span ctx.mem.heapStart 8
  else ∅

section Shims

open ShimM ObjcRuntime Frameworks

variable {α β : Type} {p : Profile}

/-- The memory is changed in a set of addresses that is known from the start. -/
def TouchesFrom (S : CallContext → Set ℕ) (s s' : ObjcRuntime × CallContext) : Prop :=
  Touches (S s.2) s.2.mem s'.2.mem

/-- The registers and the memory stay as they are. -/
abbrev KeepsContext : ObjcRuntime × CallContext → ObjcRuntime × CallContext → Prop :=
  InvImage Eq Prod.snd

theorem touchesFrom_of_touches {S : CallContext → Set ℕ} {x : ShimM α} {T : Set ℕ}
    (h : x.Steps (InvImage (Touches T) shimMem)) (hT : ∀ ctx, T ⊆ S ctx) :
    x.Steps (TouchesFrom S) :=
  fun s s' hrun => (h s s' hrun).mono (hT s.2)

theorem touchesFrom_of_none {S : CallContext → Set ℕ} {x : ShimM α}
    (h : x.Steps (InvImage (Touches ∅) shimMem)) : x.Steps (TouchesFrom S) :=
  touchesFrom_of_touches h fun _ => Set.empty_subset _

/-- What is done before the memory is touched may look at everything. -/
theorem touchesFrom_bind {S : CallContext → Set ℕ} {x : ShimM α} {f : α → ShimM β}
    (hx : x.Steps KeepsContext) (hf : ∀ a, (f a).Steps (TouchesFrom S)) :
    (x >>= f).Steps (TouchesFrom S) := by
  refine hx.seq hf (fun s t h => ?_) fun s t u h h' => ?_
  · have heq : s.2 = t.2 := h
    unfold TouchesFrom
    rw [heq]
    exact refl_of _ _
  · have heq : s.2 = t.2 := h
    unfold TouchesFrom
    rw [heq]
    exact h'

theorem keeps_arg {n : Fin 8} : (arg n).Steps KeepsContext :=
  Prog.steps_get.bind fun _ => Prog.steps_pure _

/-- What is done after that does not touch it again. -/
theorem touchesFrom_then {S : CallContext → Set ℕ} {x : ShimM α} {f : α → ShimM β}
    (hx : x.Steps (TouchesFrom S)) (hf : ∀ a, (f a).Steps (InvImage Eq shimMem)) :
    (x >>= f).Steps (TouchesFrom S) := by
  refine hx.seq hf (fun _ _ h => h) fun s t u h h' => ?_
  have heq : t.2.mem = u.2.mem := h'
  unfold TouchesFrom
  rw [← heq]
  exact h

theorem touchesFrom_answer {S : CallContext → Set ℕ} {x : ShimM U64}
    (hx : x.Steps (TouchesFrom S)) : (answer x).Steps (TouchesFrom S) :=
  touchesFrom_then hx fun v => (steps_ret v).bind fun _ => Prog.steps_pure _

/-- A block is allocated, and what is stored then is in it. -/
theorem touchesFrom_alloc {size : U64} {n : ℕ} {f : EmuResult U64 → ShimM β}
    (herr : ∀ e, (f (.error e)).Steps (InvImage (Touches ∅) shimMem))
    (hok : ∀ a, (f (.ok a)).Steps (InvImage (Touches (span a n)) shimMem)) :
    (onMem (heapAlloc p size 16) >>= f).Steps
      (TouchesFrom fun ctx => span ctx.mem.heapStart n) := by
  intro s s' h
  rw [Prog.bind_apply] at h
  unfold onMem Prog.attempt Prog.zoom at h
  rcases hx : heapAlloc p size 16 s.2.mem with ⟨a, m⟩ | ⟨e, m⟩ | e <;> simp only [hx] at h
  · obtain rfl := heapAlloc_eq_start hx
    exact trans_of (Touches _) ((touches_heapAlloc _ _ _).ok hx) (hok _ _ s' h)
  · exact trans_of (Touches _) ((touches_heapAlloc _ _ _).err hx)
      (Touches.mono (herr e _ s' h) (Set.empty_subset _))
  · cases h

theorem readMem_bind {γ : Type} (read : GuestMemory → EmuResult γ) (f : EmuResult γ → ShimM β)
    (s : ObjcRuntime × CallContext) : (ShimM.readMem read >>= f) s = f (read s.2.mem) s :=
  rfl

theorem touchesFrom_copyBytes (dst src : U64) (n : ℕ) :
    (Libsystem.copyBytes dst src n).Steps (TouchesFrom fun ctx => ctx.mem.storedAt dst n) := by
  refine Prog.Steps.ofChecked_bind fun _ _ s s' h => ?_
  rw [readMem_bind] at h
  rcases hread : s.2.mem.read src n with e | tmp <;> simp only [hread] at h
  · obtain rfl := Option.some.inj h
    exact refl_of (Touches _) _
  · have hstore := (steps_shimMem (touches_storedAt dst tmp)).bind_pure s s' h
    rwa [length_of_read hread] at hstore

theorem touchesFrom_fillBytes (dst : U64) (byte : U8) (n : ℕ) :
    (Libsystem.fillBytes dst byte n).Steps (TouchesFrom fun ctx => ctx.mem.storedAt dst n) := by
  refine Prog.Steps.ofChecked_bind fun _ _ => ?_
  have hstore := touches_storedAt dst (List.replicate n byte)
  rw [List.length_replicate] at hstore
  exact (steps_shimMem hstore).bind_pure

theorem touchesFrom_getOrCreateClass (name : String) :
    (getOrCreateClass p name).Steps (TouchesFrom fun ctx => span ctx.mem.heapStart 8) := by
  refine touchesFrom_bind (Prog.steps_get.bind fun _ => Prog.steps_pure _) fun rt => ?_
  split
  · exact touchesFrom_of_none (Prog.steps_pure _)
  · refine touchesFrom_alloc (fun e => Prog.steps_pure _) fun addr => ?_
    refine (steps_shimMem (touches_write ?_)).bind fun r => ?_
    · rw [length_toLeBytes64]
    · rcases r with e | u
      · exact Prog.steps_pure _
      · exact (steps_modifyRuntime _).bind fun _ => Prog.steps_pure _

theorem touchesFrom_allocInstance (classAddr : U64) :
    (allocInstance p classAddr).Steps (TouchesFrom fun ctx => span ctx.mem.heapStart 8) := by
  refine touchesFrom_bind (Prog.steps_get.bind fun _ => Prog.steps_pure _) fun rt => ?_
  split
  · exact touchesFrom_of_none (Prog.steps_pure _)
  · refine touchesFrom_alloc (fun e => Prog.steps_pure _) fun addr => ?_
    refine (steps_shimMem (touches_write ?_)).bind fun r => ?_
    · rw [length_toLeBytes64]
    · rcases r with e | u
      · exact Prog.steps_pure _
      · exact (steps_modifyRuntime _).bind fun _ => Prog.steps_pure _

theorem touchesFrom_receive (recv : U64) (msg : Message) :
    (receive p recv msg).Steps (TouchesFrom fun ctx => span ctx.mem.heapStart 8) := by
  have halloc : (do
      let rt ← ShimM.runtime
      if (rt.classIndexByAddr.get? recv).isSome then
        let obj ← allocInstance p recv
        return obj.getD 0
      else return 0 : ShimM U64).Steps (TouchesFrom fun ctx => span ctx.mem.heapStart 8) := by
    refine touchesFrom_bind (Prog.steps_get.bind fun _ => Prog.steps_pure _) fun rt => ?_
    split_ifs
    · exact touchesFrom_then (touchesFrom_allocInstance recv) fun _ => Prog.steps_pure _
    · exact touchesFrom_of_none (Prog.steps_pure _)
  cases msg with
  | alloc => exact halloc
  | new => exact halloc
  | retain =>
    exact touchesFrom_of_none ((steps_countBy p 1 recv).bind fun _ => Prog.steps_pure _)
  | release =>
    exact touchesFrom_of_none ((steps_countBy p (-1) recv).bind fun _ => Prog.steps_pure _)
  | retainCount => exact touchesFrom_of_none (steps_runtime.bind fun _ => Prog.steps_pure _)
  | classObject => exact touchesFrom_of_none (steps_classOf recv)
  | init | identity | hash | no | other => exact touchesFrom_of_none (Prog.steps_pure _)

theorem touchesFrom_msgSend :
    (msgSend p).Steps (TouchesFrom fun ctx => span ctx.mem.heapStart 8) := by
  refine touchesFrom_answer (touchesFrom_bind keeps_arg fun recv =>
    touchesFrom_bind keeps_arg fun selPtr => ?_)
  split_ifs
  · exact touchesFrom_of_none (Prog.steps_pure _)
  · refine touchesFrom_bind (Prog.steps_get.bind fun _ => Prog.steps_pure _) fun r => ?_
    rcases r with e | sel
    · exact touchesFrom_of_none (Prog.steps_pure _)
    · dsimp only
      split_ifs
      · exact touchesFrom_of_none (Prog.steps_pure _)
      · exact touchesFrom_receive recv _

theorem touchesFrom_objcGetClass :
    (ObjcRt.objcGetClass p).Steps (TouchesFrom fun ctx => span ctx.mem.heapStart 8) :=
  touchesFrom_answer <| touchesFrom_bind keeps_arg fun _ =>
    touchesFrom_bind (Prog.steps_get.bind fun _ => Prog.steps_pure _) fun _ =>
    touchesFrom_then (touchesFrom_getOrCreateClass _) fun _ => Prog.steps_pure _

theorem touchesFrom_objcAlloc :
    (ObjcRt.objcAlloc p).Steps (TouchesFrom fun ctx => span ctx.mem.heapStart 8) :=
  touchesFrom_bind keeps_arg fun _ =>
    touchesFrom_then (touchesFrom_then (touchesFrom_allocInstance _) fun _ => steps_ret _)
      fun _ => Prog.steps_pure _

theorem touchesFrom_reallocFrom (old size : U64) :
    (onMem (heapAlloc p size 16) >>= fun r =>
      match r with
      | .error _ => pure 0
      | .ok block => do
        if old ≠ 0 then Libsystem.copyBytes block old size.toNat
        return block : ShimM U64).Steps (TouchesFrom fun ctx => span ctx.mem.heapStart size.toNat) := by
  refine touchesFrom_alloc (fun e => Prog.steps_pure _) fun block => ?_
  dsimp only
  split_ifs
  · exact Prog.Steps.bind_pure ((touchesFrom_copyBytes _ _ _).mono fun s _ h =>
      h.mono (storedAt_subset s.2.mem _ _))
  · exact (Prog.steps_pure _).bind fun _ => Prog.steps_pure _

theorem touchesFrom_realloc :
    (Libsystem.realloc p).Steps
      (TouchesFrom fun ctx => span ctx.mem.heapStart (ctx.cpu.arg 1).toNat) :=
  touchesFrom_answer fun s s' h =>
    touchesFrom_reallocFrom (s.2.cpu.arg 0) (s.2.cpu.arg 1) s s' h

theorem touchesFrom_memcpy : Libsystem.memcpy.Steps
    (TouchesFrom fun ctx => ctx.mem.storedAt (ctx.cpu.arg 0) (ctx.cpu.arg 2).toNat) :=
  touchesFrom_answer fun s s' h => (touchesFrom_copyBytes _ _ _).bind_pure s s' h

theorem touchesFrom_memset : Libsystem.memset.Steps
    (TouchesFrom fun ctx => ctx.mem.storedAt (ctx.cpu.arg 0) (ctx.cpu.arg 2).toNat) :=
  touchesFrom_answer fun s s' h => (touchesFrom_fillBytes _ _ _).bind_pure s s' h

theorem touchesFrom_bzero : Libsystem.bzero.Steps
    (TouchesFrom fun ctx => ctx.mem.storedAt (ctx.cpu.arg 0) (ctx.cpu.arg 1).toNat) :=
  touchesFrom_answer fun s s' h => (touchesFrom_fillBytes _ _ _).bind_pure s s' h

theorem shimStores_maker {symbol : String} (h : symbol ∈ makers) :
    shimStores symbol = fun ctx => span ctx.mem.heapStart 8 := by
  have hne : ∀ other ∉ makers, symbol ≠ other := fun other hother hs => hother (hs ▸ h)
  have hcopy := hne "memcpy" (by decide)
  have hmove := hne "memmove" (by decide)
  have hset := hne "memset" (by decide)
  have hzero := hne "bzero" (by decide)
  have hrealloc := hne "realloc" (by decide)
  funext ctx
  simp only [shimStores, hcopy, hmove, hset, hzero, hrealloc, h, or_self, if_false, if_true]

/-- A maker stores in the next block of the heap. -/
theorem touchesFrom_maker {symbol : String} {x : ShimM Dispatch} (h : symbol ∈ makers)
    (hx : x.Steps (TouchesFrom fun ctx => span ctx.mem.heapStart 8)) :
    x.Steps (TouchesFrom (shimStores symbol)) := by
  rwa [shimStores_maker h]

theorem touchesFrom_stubs {names : List String} :
    ∀ e ∈ stubs names, Prog.Steps (TouchesFrom (shimStores e.1)) e.2 :=
  fun e he => touchesFrom_of_none (steps_stubs e he)

theorem touchesFrom_objcShims :
    ∀ e ∈ ObjcRt.shims p, Prog.Steps (TouchesFrom (shimStores e.1)) e.2 := by
  have harg : ∀ {S}, (answer (arg 0)).Steps (TouchesFrom S) :=
    touchesFrom_of_none (steps_answer (steps_arg 0))
  have hzero : ∀ {S}, ObjcRt.objcRelease.Steps (TouchesFrom S) :=
    touchesFrom_of_none (steps_answer (Prog.steps_pure _))
  have hmsg := @touchesFrom_msgSend p
  have hclass := @touchesFrom_objcGetClass p
  have halloc := @touchesFrom_objcAlloc p
  simp only [ObjcRt.shims, List.forall_mem_append, List.forall_mem_cons, List.not_mem_nil,
    false_imp_iff, implies_true, and_true]
  refine ⟨⟨touchesFrom_maker ?_ hmsg, touchesFrom_maker ?_ hmsg, touchesFrom_maker ?_ hmsg,
    touchesFrom_maker ?_ hclass, touchesFrom_maker ?_ hclass, touchesFrom_maker ?_ hclass,
    touchesFrom_maker ?_ hclass, harg, harg, harg, hzero, harg, harg, harg,
    touchesFrom_maker ?_ halloc, touchesFrom_maker ?_ halloc⟩, touchesFrom_stubs⟩ <;> decide

theorem touchesFrom_libsystemShims :
    ∀ e ∈ Libsystem.shims p, Prog.Steps (TouchesFrom (shimStores e.1)) e.2 := by
  have hzero : ∀ {S}, stubZero.Steps (TouchesFrom S) :=
    touchesFrom_of_none (steps_answer (Prog.steps_pure _))
  have hheap : ∀ size align, (heapAlloc p size align).Steps (Touches ∅) := touches_heapAlloc p
  have hstrlen : ∀ {S}, Libsystem.strlen.Steps (TouchesFrom S) :=
    touchesFrom_of_none (steps_answer ((steps_cstrArg _ _).bind fun _ => Prog.steps_pure _))
  have hstrcmp : ∀ {S}, Libsystem.strcmp.Steps (TouchesFrom S) :=
    touchesFrom_of_none (steps_answer ((steps_cstrArg _ _).bind fun _ =>
      (steps_cstrArg _ _).bind fun _ => Prog.steps_pure _))
  simp only [Libsystem.shims, List.forall_mem_cons, List.not_mem_nil, false_imp_iff,
    implies_true, and_true]
  exact ⟨touchesFrom_of_none (steps_malloc hheap), touchesFrom_of_none (steps_calloc hheap),
    touchesFrom_realloc, hzero, touchesFrom_memcpy, touchesFrom_memcpy, touchesFrom_memset,
    touchesFrom_bzero, hstrlen, hstrcmp, touchesFrom_of_none steps_memcmp, hzero, hzero, hzero,
    hzero, hzero, hzero⟩

/-- Every bundled shim touches what it stores at. -/
theorem touchesFrom_bundled :
    ∀ e ∈ bundled p, Prog.Steps (TouchesFrom (shimStores e.1)) e.2 := by
  have hzero : ∀ {S}, stubZero.Steps (TouchesFrom S) :=
    touchesFrom_of_none (steps_answer (Prog.steps_pure _))
  have hone : ∀ {S}, cgMainDisplayId.Steps (TouchesFrom S) :=
    touchesFrom_of_none (steps_answer (Prog.steps_pure _))
  simp only [bundled, foundation, uikit, coregraphics, gles, List.forall_mem_append,
    List.forall_mem_cons, List.not_mem_nil, false_imp_iff, implies_true, and_true]
  exact ⟨⟨⟨⟨⟨touchesFrom_objcShims, touchesFrom_libsystemShims⟩, ⟨hzero, hzero⟩,
    touchesFrom_stubs⟩, hzero, touchesFrom_stubs⟩, touchesFrom_stubs, hone⟩, touchesFrom_stubs⟩

theorem touchesFrom_callShim (symbol : String) :
    (callShim (installAll p) symbol).Steps (TouchesFrom (shimStores symbol)) := by
  unfold callShim
  rcases hget : (installAll p).get? symbol with _ | shim
  · exact touchesFrom_of_none (Prog.steps_pure _)
  · exact touchesFrom_bundled _ (get?_installAll.1 hget)

end Shims

end IosEmu
