import IosEmu.PageBases
import IosEmu.WriteXorExecute

/-!
# What a run cannot change

A region that is not writable is out of the services' reach : stores need the right to write,
a new mapping needs free space, and only `mprotect` of an address inside the region can grant
the right. So the code that was loaded, and the page of trampolines, is what the guest executes
until the guest itself asks for the right to write there (`code_integrity`). An empty region is no
obstacle to a new mapping, but a build leaves none that is not writable : it maps what it writes to,
and takes the right away by an address inside (`Filled`).

The map of the memory only grows. No service unmaps, moves or resizes a region, and what a run
adds are anonymous mappings that start at a page between the cursor it leaves and the one it found
(`memory_map_grows`). A size that rounds to zero is mapped at the cursor itself, as one page.
-/

open SysLib

namespace IosEmu

namespace GuestMemory

variable {m m' : GuestMemory} {k : U64} {data : ByteVec}

/-! ## Locked regions -/

/-- The region at `k` holds `data` and is not writable. -/
def Locked (k : U64) (data : ByteVec) (m : GuestMemory) : Prop :=
  ∃ r, m.regions.get? k = some r ∧ r.data = data ∧ r.prot.contains .write = false

/-- A region that is locked stays locked, with the same bytes. -/
def KeepsLocked (k : U64) (data : ByteVec) (m m' : GuestMemory) : Prop :=
  m.Inv → m.Locked k data → m'.Inv ∧ m'.Locked k data

instance keepsLockedPreorder : IsPreorder GuestMemory (KeepsLocked k data) where
  refl _ hinv h := ⟨hinv, h⟩
  trans _ _ _ h₁ h₂ hinv h := by
    obtain ⟨hinv₁, hlocked₁⟩ := h₁ hinv h
    exact h₂ hinv₁ hlocked₁

theorem locked_insert_of_ne {key : U64} {r : Region} (hne : k ≠ key) (h : m.Locked k data)
    (hregions : m'.regions = m.regions.insert key r) : m'.Locked k data := by
  obtain ⟨w, hw, hdata, hprot⟩ := h
  refine ⟨w, ?_, hdata, hprot⟩
  rw [hregions, SortedMap.get?_insert_of_ne _ _ hne, hw]

theorem locked_of_regions (hregions : m'.regions = m.regions) (h : m.Locked k data) :
    m'.Locked k data := by
  unfold Locked at h ⊢
  rwa [hregions]

/-- A store goes to a region that is writable. -/
theorem keepsLocked_write (a : U64) (d : List U8) : (write a d).Steps (KeepsLocked k data) := by
  refine (write_failsClean _ _).steps (refl_of _) fun m u m' hw hinv h => ?_
  refine ⟨hinv.of_write hw, ?_⟩
  obtain ⟨key, r, hl, -, -, hwrite, rfl⟩ := write_eq_ok.1 hw
  refine locked_insert_of_ne (fun hk => ?_) h rfl
  obtain ⟨w, hw, -, hprot⟩ := h
  rw [hk, get?_of_lastLE hl] at hw
  rw [← Option.some.inj hw, hwrite] at hprot
  cases hprot

theorem keepsLocked_heapAlloc (p : Profile) (size align : U64) :
    (heapAlloc p size align).Steps (KeepsLocked k data) := by
  have hregions : (heapAlloc p size align).Steps (InvImage Eq GuestMemory.regions) :=
    Prog.steps_zoom_of_eq _ fun _ _ => rfl
  intro m m' hrun hinv h
  exact ⟨hinv.change (change_heapAlloc p size align m m' hrun),
    locked_of_regions (Eq.symm (hregions m m' hrun)) h⟩

/-- A mapping needs free space, and so does not replace a region that has bytes. -/
theorem Inv.get?_of_mmapAnon (hinv : m.Inv) {p : Profile} {size base : U64} {prot : Protection}
    (h : mmapAnon p size prot m = .ok base m') {r : Region} (hr : m.regions.get? k = some r)
    (hpos : 0 < r.data.size) : m'.regions.get? k = some r := by
  obtain ⟨s, low, m₁, hs, -, -, hmap, rfl⟩ := mmapAnon_eq_ok.1 h
  obtain rfl := alignUp_eq_ok hs
  obtain ⟨s, hs, hfree, hcap, rfl⟩ := map_eq_ok.1 hmap
  obtain rfl := alignUp_eq_ok hs
  dsimp only
  rw [SortedMap.get?_insert_of_ne _ _ fun hk => ?_, hr]
  subst hk
  obtain ⟨-, hempty | hempty, -⟩ := (hinv.checkFree_at_base hr).1 hfree
  · have hdvd : (pageRound (max size 1)).toNat % 0x4000 = 0 := pageRound_mod _
    have hsize := (pageRound_max_one hdvd).2
    rw [hempty] at hsize
    exact absurd hsize (lt_irrefl 0)
  · omega

theorem keepsLocked_mmapAnon (hdata : 0 < data.size) (p : Profile) (size : U64)
    (prot : Protection) : (mmapAnon p size prot).Steps (KeepsLocked k data) := by
  refine (mmapAnon_failsClean _ _ _).steps (refl_of _) fun m base m' hanon hinv h => ?_
  obtain ⟨r, hr, rfl, hprot⟩ := h
  exact ⟨hinv.change ((change_mmapAnon p size prot).ok hanon),
    r, hinv.get?_of_mmapAnon hanon hr hdata, rfl, hprot⟩

/-- `protect` changes the region that holds the address. -/
theorem regionBase_of_protect {target : Target} {a : U64} {prot : Protection}
    (h : (protect target a prot m).state? = some m') :
    m' = m ∨ ∃ key r, m.regionBase a = .ok key ∧ m.regions.get? key = some r ∧
      m' = { m with regions := m.regions.insert key { r with prot } } := by
  unfold protect at h
  rw [Prog.get_bind, Prog.bind_apply] at h
  rcases hb : m.regionBase a with e | base <;> rw [hb] at h
  · exact Or.inl (Option.some.inj h).symm
  · rw [Prog.ofResult_ok] at h
    dsimp only at h
    rw [Prog.bind_apply] at h
    rcases hr : m.unwrapRegion base with e | r <;> rw [hr] at h
    · cases h
    · refine Or.inr ⟨base, r, rfl, unwrapRegion_eq_ok.1 hr, ?_⟩
      rw [Prog.ofChecked_ok] at h
      dsimp only [Prog.modify_bind] at h
      rcases target with _ | nativeProtect
      · exact (Option.some.inj h).symm
      · dsimp only at h
        split_ifs at h
        · exact (Option.some.inj h).symm
        · exact (Option.some.inj h).symm

/-- The right to write is granted to the region that holds the address. -/
theorem keepsLocked_protect {target : Target} {a : U64} {prot : Protection}
    (h : prot.contains .write = true → a.toNat < k.toNat ∨ k.toNat + data.size ≤ a.toNat) :
    (protect target a prot).Steps (KeepsLocked k data) := by
  intro m m' hrun hinv hlocked
  refine ⟨hinv.change (change_protect target a prot m m' hrun), ?_⟩
  rcases regionBase_of_protect hrun with rfl | ⟨key, r, hbase, hr, rfl⟩
  · exact hlocked
  by_cases hk : k = key
  · subst hk
    obtain ⟨w, hw, rfl, -⟩ := hlocked
    obtain rfl : r = w := Option.some.inj (hr.symm.trans hw)
    refine ⟨{ r with prot }, SortedMap.get?_insert_self _ _ _, rfl, ?_⟩
    rw [← Bool.not_eq_true]
    intro hwrite
    obtain ⟨r', hr', hle, hlt⟩ := (regionBase_eq_ok m hinv a k).1 hbase
    obtain rfl : r = r' := Option.some.inj (hr.symm.trans hr')
    rw [hinv.base_eq k r hr] at hle hlt
    have hle' := BitVec.le_def.1 hle
    have hout := h hwrite
    omega
  · exact locked_insert_of_ne hk hlocked rfl

/-! ## Regions with bytes -/

/-- A region that is not writable has bytes. -/
def Filled (m : GuestMemory) : Prop :=
  ∀ k r, m.regions.get? k = some r → r.prot.contains .write = false → 0 < r.data.size

/-- Regions that are not writable go on to have bytes. -/
def KeepsFilled (m m' : GuestMemory) : Prop :=
  m.Inv → m.Filled → m'.Inv ∧ m'.Filled

instance keepsFilledPreorder : IsPreorder GuestMemory KeepsFilled where
  refl _ hinv h := ⟨hinv, h⟩
  trans _ _ _ h₁ h₂ hinv h := by
    obtain ⟨hinv₁, hfilled₁⟩ := h₁ hinv h
    exact h₂ hinv₁ hfilled₁

theorem Filled.insert {key : U64} {r : Region} (h : m.Filled)
    (hr : r.prot.contains .write = false → 0 < r.data.size)
    (hregions : m'.regions = m.regions.insert key r) : m'.Filled := by
  intro k w hw hprot
  rw [hregions, SortedMap.get?_insert] at hw
  split_ifs at hw with hk
  · obtain rfl := Option.some.inj hw
    exact hr hprot
  · exact h k w hw hprot

theorem keepsFilled_write (a : U64) (d : List U8) : (write a d).Steps KeepsFilled := by
  refine (write_failsClean _ _).steps (refl_of KeepsFilled) fun m u m' hw hinv h => ?_
  refine ⟨hinv.of_write hw, ?_⟩
  obtain ⟨key, r, hl, -, -, -, rfl⟩ := write_eq_ok.1 hw
  refine h.insert (r := { r with data := _ }) (fun hprot => ?_) rfl
  exact (h key r (get?_of_lastLE hl) hprot).trans_eq (Buffer.size_overwrite _ _ _).symm

theorem keepsFilled_map {p : Profile} {base size : U64} {prot : Protection} {kind : RegionKind}
    {name : String} (hprot : prot.contains .write = true) :
    (map p base size prot kind name).Steps KeepsFilled := by
  refine (map_failsClean _ _ _ _ _ _).steps (refl_of KeepsFilled) fun m u m' hmap hinv h => ?_
  refine ⟨hinv.change ((change_map _ _ _ _ _ _).ok hmap), ?_⟩
  obtain ⟨s, -, -, -, rfl⟩ := map_eq_ok.1 hmap
  refine h.insert (fun hlocked => ?_) rfl
  cases hlocked.symm.trans hprot

theorem keepsFilled_mapWithData {p : Profile} {base size : U64} {data : List U8}
    {prot : Protection} {kind : RegionKind} {name : String}
    (hprot : prot.contains .write = true) :
    (mapWithData p base size data prot kind name).Steps KeepsFilled := by
  refine (mapWithData_failsClean _ _ _ _ _ _ _).steps (refl_of KeepsFilled)
    fun m u m' hmap hinv h => ?_
  refine ⟨hinv.change ((change_mapWithData _ _ _ _ _ _ _).ok hmap), ?_⟩
  obtain ⟨s, -, -, -, -, rfl⟩ := mapWithData_eq_ok.1 hmap
  refine h.insert (fun hlocked => ?_) rfl
  cases hlocked.symm.trans hprot

/-- The region that `protect` changes holds the address, and so has bytes. -/
theorem keepsFilled_protect (target : Target) (a : U64) (prot : Protection) :
    (protect target a prot).Steps KeepsFilled := by
  intro m m' hrun hinv h
  refine ⟨hinv.change (change_protect target a prot m m' hrun), ?_⟩
  rcases regionBase_of_protect hrun with rfl | ⟨key, r, hbase, hr, rfl⟩
  · exact h
  refine h.insert (r := { r with prot }) (fun _ => ?_) rfl
  obtain ⟨r', hr', hle, hlt⟩ := (regionBase_eq_ok m hinv a key).1 hbase
  obtain rfl : r = r' := Option.some.inj (hr.symm.trans hr')
  have hle' := BitVec.le_def.1 hle
  dsimp only
  omega

/-! ## Maps that grow -/

/-- A region that is still there : its span, its kind and its name are the same. -/
def SameRegion (r r' : Region) : Prop :=
  r'.data.size = r.data.size ∧ r'.kind = r.kind ∧ r'.name = r.name

/-- No region that has bytes is lost or moved, and what is new is an anonymous mapping that
starts at a page between the two cursors. -/
structure Grows (m m' : GuestMemory) : Prop where
  inv : m'.Inv
  cursor_le : m'.mmapCursor ≤ m.mmapCursor
  kept : ∀ k r, m.regions.get? k = some r → 0 < r.data.size →
    ∃ r', m'.regions.get? k = some r' ∧ SameRegion r r'
  fresh : ∀ k r', m'.regions.get? k = some r' →
    (∃ r, m.regions.get? k = some r ∧ SameRegion r r') ∨
      (r'.kind = .anonymous ∧ k.toNat % 0x4000 = 0 ∧ m'.mmapCursor ≤ k ∧ k ≤ m.mmapCursor)

theorem Grows.refl (h : m.Inv) : Grows m m where
  inv := h
  cursor_le := le_rfl
  kept _ r hr _ := ⟨r, hr, rfl, rfl, rfl⟩
  fresh _ r hr := Or.inl ⟨r, hr, rfl, rfl, rfl⟩

theorem SameRegion.trans {r r' r'' : Region} (h : SameRegion r r') (h' : SameRegion r' r'') :
    SameRegion r r'' :=
  ⟨h'.1.trans h.1, h'.2.1.trans h.2.1, h'.2.2.trans h.2.2⟩

theorem Grows.trans {m'' : GuestMemory} (h : Grows m m') (h' : Grows m' m'') : Grows m m'' where
  inv := h'.inv
  cursor_le := h'.cursor_le.trans h.cursor_le
  kept k r hr hpos := by
    obtain ⟨r', hr', hsame⟩ := h.kept k r hr hpos
    obtain ⟨r'', hr'', hsame'⟩ := h'.kept k r' hr' (hsame.1 ▸ hpos)
    exact ⟨r'', hr'', hsame.trans hsame'⟩
  fresh k r'' hr'' := by
    rcases h'.fresh k r'' hr'' with ⟨r', hr', hsame'⟩ | ⟨hkind, hpage, hlo, hhi⟩
    · rcases h.fresh k r' hr' with ⟨r, hr, hsame⟩ | ⟨hkind, hpage, hlo, hhi⟩
      · exact Or.inl ⟨r, hr, hsame.trans hsame'⟩
      · exact Or.inr ⟨hsame'.2.1.trans hkind, hpage, h'.cursor_le.trans hlo, hhi⟩
    · exact Or.inr ⟨hkind, hpage, hlo, hhi.trans h.cursor_le⟩

/-- The map grows, from an address space. -/
def StepGrows (m m' : GuestMemory) : Prop :=
  m.Inv → Grows m m'

instance stepGrowsPreorder : IsPreorder GuestMemory StepGrows where
  refl _ hinv := .refl hinv
  trans _ _ _ h₁ h₂ hinv := (h₁ hinv).trans (h₂ (h₁ hinv).inv)

/-- A call that changes one region in place. -/
theorem stepGrows_insert {key : U64} {r r' : Region} (hr : m.regions.get? key = some r)
    (hsame : SameRegion r r') (hinv : (⟨m.regions.insert key r', m.mmapCursor, m.heap⟩ :
      GuestMemory).Inv) : Grows m ⟨m.regions.insert key r', m.mmapCursor, m.heap⟩ where
  inv := hinv
  cursor_le := le_rfl
  kept k w hw _ := by
    dsimp only
    rw [SortedMap.get?_insert]
    split_ifs with hk
    · subst hk
      obtain rfl : r = w := Option.some.inj (hr.symm.trans hw)
      exact ⟨r', rfl, hsame⟩
    · exact ⟨w, hw, rfl, rfl, rfl⟩
  fresh k w hw := by
    dsimp only at hw
    rw [SortedMap.get?_insert] at hw
    split_ifs at hw with hk
    · obtain rfl := Option.some.inj hw
      exact Or.inl ⟨r, hk ▸ hr, hsame⟩
    · exact Or.inl ⟨w, hw, rfl, rfl, rfl⟩

theorem stepGrows_write (a : U64) (d : List U8) : (write a d).Steps StepGrows := by
  refine (write_failsClean _ _).steps (refl_of StepGrows) fun m u m' hw hinv => ?_
  have hinv' := hinv.of_write hw
  obtain ⟨key, r, hl, -, -, -, rfl⟩ := write_eq_ok.1 hw
  exact stepGrows_insert (get?_of_lastLE hl) ⟨Buffer.size_overwrite _ _ _, rfl, rfl⟩ hinv'

theorem stepGrows_protect (target : Target) (a : U64) (prot : Protection) :
    (protect target a prot).Steps StepGrows := by
  intro m m' hrun hinv
  have hinv' := hinv.change (change_protect target a prot m m' hrun)
  rcases protect_cases hrun with rfl | ⟨key, r, hr, rfl⟩
  · exact .refl hinv
  · exact stepGrows_insert hr ⟨rfl, rfl, rfl⟩ hinv'

theorem stepGrows_heapAlloc (p : Profile) (size align : U64) :
    (heapAlloc p size align).Steps StepGrows := by
  have hheap : (heapAlloc p size align).Steps
      (InvImage Eq fun m : GuestMemory => (m.regions, m.mmapCursor)) :=
    Prog.steps_zoom_of_eq _ fun _ _ => rfl
  intro m m' hrun hinv
  obtain ⟨hregions, hcursor⟩ := Prod.mk.inj (hheap m m' hrun)
  refine ⟨hinv.change (change_heapAlloc p size align m m' hrun), hcursor.ge,
    fun k r hr _ => ⟨r, ?_, rfl, rfl, rfl⟩, fun k r hr => Or.inl ⟨r, ?_, rfl, rfl, rfl⟩⟩
  · rw [← hregions, hr]
  · rw [hregions, hr]

/-- The new mapping starts at the new cursor. -/
theorem stepGrows_mmapAnon (p : Profile) (size : U64) (prot : Protection) :
    (mmapAnon p size prot).Steps StepGrows := by
  refine (mmapAnon_failsClean _ _ _).steps (refl_of StepGrows) fun m base m' hanon hinv => ?_
  have hinv' := hinv.change ((change_mmapAnon p size prot).ok hanon)
  have hkept := fun k r hr hpos => hinv.get?_of_mmapAnon (k := k) (r := r) hanon hr hpos
  obtain ⟨s, low, m₁, hs, hlow, hbase, hmap, rfl⟩ := mmapAnon_eq_ok.1 hanon
  obtain rfl := alignDown_eq_ok hbase
  obtain ⟨s, hs, hfree, hcap, rfl⟩ := map_eq_ok.1 hmap
  have hmask : (low &&& ~~~0x3fff).toNat = low.toNat / 0x4000 * 0x4000 := toNat_and_not_mask 14 low
  have hcursor : low &&& ~~~0x3fff ≤ m.mmapCursor := by
    have := checkedSub_eq_some_iff.1 hlow
    rw [BitVec.le_def]
    omega
  refine ⟨hinv', hcursor, fun k r hr hpos => ⟨r, hkept k r hr hpos, rfl, rfl, rfl⟩,
    fun k r' hr' => ?_⟩
  dsimp only at hr'
  rw [SortedMap.get?_insert] at hr'
  split_ifs at hr' with hk
  · obtain rfl := Option.some.inj hr'
    subst hk
    exact Or.inr ⟨rfl, by rw [hmask]; exact Nat.mul_mod_left _ _, le_rfl, hcursor⟩
  · exact Or.inl ⟨r', hr', rfl, rfl, rfl⟩

/-- The mapping is at the address that is returned. -/
theorem region_of_mmapAnon {p : Profile} {size base : U64} {prot : Protection}
    (h : mmapAnon p size prot m = .ok base m') : ∃ r, m'.regions.get? base = some r := by
  obtain ⟨s, low, m₁, -, -, -, hmap, rfl⟩ := mmapAnon_eq_ok.1 h
  obtain ⟨s, -, -, -, rfl⟩ := map_eq_ok.1 hmap
  exact ⟨_, SortedMap.get?_insert_self _ _ _⟩

end GuestMemory

open GuestMemory Process

/-! ## Services -/

namespace Service

variable {b : Build} {s : Service} {mach mach' : Machine ObjcRuntime}

/-- The service is this system call. -/
def Calls (b : Build) (s : Service) (call : Unix.Call) : Prop :=
  s.trampoline = none ∧ ∃ number, decode b.profile (s.cpu.x 16) = .ok (.unix, number) ∧
    Unix.Call.ofNumber number = some call

/-- What writing, allocating and mapping respect, a service respects if its `mprotect` does. -/
theorem steps_run_of {R : GuestMemory → GuestMemory → Prop} [IsPreorder GuestMemory R]
    (hwrite : ∀ a d, (GuestMemory.write a d).Steps R)
    (hheap : ∀ size align, (GuestMemory.heapAlloc b.profile size align).Steps R)
    (hanon : ∀ size prot, (GuestMemory.mmapAnon b.profile size prot).Steps R)
    (hprotect : s.Calls b .mprotect →
      (GuestMemory.protect b.target (s.cpu.arg 0) (Unix.protOf (s.cpu.arg 2))).Steps R)
    (h : (s.run b mach).state? = some mach') : R mach.mem mach'.mem := by
  rcases htramp : s.trampoline with _ | addr
  · rcases mem_of_serviceSyscall (state?_syscall htramp h) with
      heq | ⟨cls, number, handler, c', hdecode, hh, hrun, heq⟩
    · rw [heq]
      exact refl_of R _
    rw [heq]
    cases cls with
    | unix =>
      obtain ⟨call, hcall, rfl⟩ := Option.map_eq_some_iff.1 hh
      by_cases hmmap : call = .mmap
      · subst hmmap
        refine Prog.Steps.bind (R := InvImage R SyscallCtx.mem) Prog.steps_get (fun c => ?_) _ c'
          hrun
        split_ifs
        · exact Prog.steps_fail _
        · exact steps_onMem (hanon _ _)
      by_cases hprot : call = .mprotect
      · subst hprot
        change (Unix.sysMprotect _ _).state? = some c' at hrun
        rw [Unix.sysMprotect, Prog.get_bind] at hrun
        exact Prog.Steps.bind (R := InvImage R SyscallCtx.mem)
          (steps_onMem (hprotect ⟨htramp, number, hdecode, hcall⟩)) (fun _ => Prog.steps_pure _)
          _ c' hrun
      · exact steps_handle hwrite _ _ hmmap hprot _ c' hrun
    | mach =>
      obtain ⟨trap, -, rfl⟩ := Option.map_eq_some_iff.1 hh
      exact steps_trap hwrite _ (fun _ => hanon _ _) trap _ c' hrun
    | machDep => cases hh
    | diag => cases hh
  · exact steps_serviceTrampoline hwrite (steps_hleEnvironment hwrite hheap) _ _ (s.enter mach) _
      (state?_trampoline htramp h)

/-- The service makes the region of `n` bytes at `k` writable. -/
def Unlocks (b : Build) (k : U64) (n : ℕ) (s : Service) : Prop :=
  s.Calls b .mprotect ∧ k.toNat ≤ (s.cpu.arg 0).toNat ∧ (s.cpu.arg 0).toNat < k.toNat + n ∧
    (Unix.protOf (s.cpu.arg 2)).contains .write = true

/-- A service that does not unlock the region keeps it locked. -/
theorem keepsLocked_run {k : U64} {data : ByteVec} (hdata : 0 < data.size)
    (hs : ¬s.Unlocks b k data.size) (h : (s.run b mach).state? = some mach') :
    KeepsLocked k data mach.mem mach'.mem := by
  refine steps_run_of keepsLocked_write (keepsLocked_heapAlloc _)
    (keepsLocked_mmapAnon hdata _) (fun hcalls => keepsLocked_protect fun hwrite => ?_) h
  by_contra hin
  rw [not_or, not_lt, not_le] at hin
  exact hs ⟨hcalls, hin.1, hin.2, hwrite⟩

/-- So does a run in which no service unlocks it. -/
theorem keepsLocked_runServices {k : U64} {data : ByteVec} (hdata : 0 < data.size) :
    ∀ {l : List Service} {mach mach' : Machine ObjcRuntime}, (∀ s ∈ l, ¬s.Unlocks b k data.size) →
      runServices b l mach = some mach' → KeepsLocked k data mach.mem mach'.mem
  | [], mach, mach', _, h => by
    obtain rfl := Option.some.inj h
    exact refl_of _ _
  | s :: l, mach, mach', hl, h => by
    obtain ⟨mid, hmid, h⟩ := Option.bind_eq_some_iff.1 h
    exact trans_of (KeepsLocked k data) (keepsLocked_run hdata (hl s List.mem_cons_self) hmid)
      (keepsLocked_runServices hdata (fun t ht => hl t (List.mem_cons_of_mem _ ht)) h)

end Service

/-! ## Processes -/

/-- The memory of a loaded process is an address space. -/
theorem inv_of_load {W : Type} {b : Build} {os : Reservations} {cfg : MachineConfig}
    {bytes : List U8} {vfs : Sandbox} {fs : HostFs} {world : W} {mach : Machine W}
    (hload : Machine.load b os cfg bytes vfs fs world = .ok mach ()) : mach.mem.Inv := by
  obtain ⟨image, m₀, -, hnew, layout, m₁, proc, mem, hlayout, hproc, rfl⟩ :=
    Machine.load_eq_ok.1 hload
  obtain rfl := layoutOf_const.ok hlayout
  obtain ⟨s⟩ := buildProcess_eq_ok.1 hproc
  exact s.inv (inv_new hnew)

theorem filled_new {p : Profile} {heapBase heapSize : U64} {m : GuestMemory}
    (h : GuestMemory.new p heapBase heapSize = .ok () m) : m.Filled := by
  obtain ⟨size, -, hmap⟩ := Prog.ofChecked_bind_eq_ok.1 h
  obtain ⟨s, -, -, -, rfl⟩ := map_eq_ok.1 hmap
  refine Filled.insert (m := _) (fun k r hr _ => ?_) (fun hlocked => ?_) rfl
  · rw [SortedMap.get?_empty] at hr
    cases hr
  · exact absurd (show Protection.rw.contains .write = false from hlocked) (by decide)

/-- A region of a loaded process that is not writable has bytes. -/
theorem filled_of_load {W : Type} {b : Build} {os : Reservations} {cfg : MachineConfig}
    {bytes : List U8} {vfs : Sandbox} {fs : HostFs} {world : W} {mach : Machine W}
    (hload : Machine.load b os cfg bytes vfs fs world = .ok mach ()) : mach.mem.Filled := by
  obtain ⟨image, m₀, -, hnew, layout, m₁, proc, mem, hlayout, hproc, rfl⟩ :=
    Machine.load_eq_ok.1 hload
  obtain rfl := layoutOf_const.ok hlayout
  obtain ⟨s⟩ := buildProcess_eq_ok.1 hproc
  have hkeeps : KeepsFilled m₀ mem := s.steps keepsFilled_write
    (fun _ _ _ _ _ => keepsFilled_mapWithData rfl) (fun _ _ _ _ => keepsFilled_map rfl)
    fun _ _ _ => keepsFilled_protect _ _ _
  exact (hkeeps (inv_new hnew) (filled_new hnew)).2

section Runs

variable (b : Build) (os : Reservations) (cfg : MachineConfig) (bytes : List U8) (vfs : Sandbox)
  (fs : HostFs) (world : ObjcRuntime) (loaded mach : Machine ObjcRuntime) (l : List Service)

/-- A region of a loaded process that is not writable has the same bytes after every run in which
no call of `mprotect` asks for the right to write at an address inside it, and is not writable
then. -/
theorem code_integrity (hload : Machine.load b os cfg bytes vfs fs world = .ok loaded ())
    (k : U64) (r : Region) (hr : loaded.mem.regions.get? k = some r)
    (hprot : r.prot.contains .write = false) (hl : ∀ s ∈ l, ¬s.Unlocks b k r.data.size)
    (hrun : runServices b l loaded = some mach) :
    ∃ r', mach.mem.regions.get? k = some r' ∧ r'.data = r.data ∧
      r'.prot.contains .write = false := by
  have hkeeps := Service.keepsLocked_runServices (filled_of_load hload k r hr hprot) hl hrun
  exact (hkeeps (inv_of_load hload) ⟨r, hr, rfl, hprot⟩).2

set_option maxRecDepth 100000 in
/-- In the process of the file, the page of trampolines cannot be written. Its heap takes all three
rights, and the time of day. A mapping whose size rounds to zero is placed at the cursor, and the
next one below it. -/
theorem steps_importFile :
    (((bindImage .release importImage importFile importConfig >>= fun x =>
      publishPage ⟨.release, .host⟩ importConfig x.2 >>= fun stop =>
        finish ⟨.release, .host⟩ importImage importFile importConfig x.1 x.2 stop)
      importMemory).okAnd fun _ m =>
        ((m.regions.get? 0x500000000).any fun r =>
          r.data.size == 0x4000 && !r.prot.contains .write) &&
        (protect .host 0x120000000 (Unix.protOf 7) m).isOk &&
        ((mmapAnon .release (BitVec.allOnes 64) .rw m).okAnd fun base m₁ =>
          base == 0x200000000 && (mmapAnon .release 0x4000 .rw m₁).okAnd fun base₁ m₂ =>
            base₁ == 0x1ffffc000 && (m₂.regions.get? 0x200000000).isSome) &&
        ((writeU64 0x120000000 7 m).okAnd fun _ m₁ =>
          (writeU32 0x120000008 0 m₁).okAnd fun _ m₂ =>
            m₂.flat.byte 0x120000000 == some 7 && m.flat.byte 0x12000000c == some 0)) = true := by
  decide

/-- The process of the file. -/
theorem load_importFile_steps : ∃ loaded, Machine.load ⟨.release, .host⟩ ⟨0, 0, 0⟩ .default importFile
      importSandbox ⟨fun _ => none⟩ ObjcRuntime.new = .ok loaded () ∧
    (∃ r, loaded.mem.regions.get? 0x500000000 = some r ∧ r.data.size = 0x4000 ∧
      r.prot.contains .write = false) ∧
    (∃ m, protect .host 0x120000000 (Unix.protOf 7) loaded.mem = .ok () m) ∧
    (∃ m₁ m₂, mmapAnon .release (BitVec.allOnes 64) .rw loaded.mem = .ok 0x200000000 m₁ ∧
      mmapAnon .release 0x4000 .rw m₁ = .ok 0x1ffffc000 m₂ ∧
      ∃ r, m₂.regions.get? 0x200000000 = some r) ∧
    ∃ m₁ m₂, writeU64 0x120000000 7 loaded.mem = .ok () m₁ ∧
      writeU32 0x120000008 0 m₁ = .ok () m₂ ∧ m₂.flat.byte 0x120000000 = some 7 ∧
      loaded.mem.flat.byte 0x12000000c = some 0 := by
  obtain ⟨proc, m, hbuild, hcheck⟩ := Outcome.okAnd_iff.1 steps_importFile
  simp only [Bool.and_eq_true] at hcheck
  obtain ⟨⟨⟨hstubs, hprotect⟩, hmaps⟩, hwrites⟩ := hcheck
  obtain ⟨r, hr, hstub⟩ := Option.any_eq_true _ _ |>.1 hstubs
  rw [Bool.and_eq_true, beq_iff_eq, Bool.not_eq_true'] at hstub
  obtain ⟨⟨⟩, m', hprotect⟩ := Outcome.isOk_iff.1 hprotect
  obtain ⟨base, m₁, hmap₁, hmaps⟩ := Outcome.okAnd_iff.1 hmaps
  obtain ⟨hbase, hmaps⟩ := Bool.and_eq_true_iff.1 hmaps
  obtain rfl := beq_iff_eq.1 hbase
  obtain ⟨base₁, m₂, hmap₂, hmaps⟩ := Outcome.okAnd_iff.1 hmaps
  obtain ⟨hbase₁, hthere⟩ := Bool.and_eq_true_iff.1 hmaps
  obtain rfl := beq_iff_eq.1 hbase₁
  obtain ⟨⟨⟩, w₁, hwrite₁, hwrites⟩ := Outcome.okAnd_iff.1 hwrites
  obtain ⟨⟨⟩, w₂, hwrite₂, hbytes⟩ := Outcome.okAnd_iff.1 hwrites
  rw [Bool.and_eq_true, beq_iff_eq, beq_iff_eq] at hbytes
  have hok : buildProcess ⟨.release, .host⟩ importImage importFile importConfig importMemory =
      .ok proc m :=
    buildProcess_of_page reachable_importMemory.inv isDefault_importConfig.stride_eq rfl hbuild
  exact ⟨Machine.ofProcess m importSandbox ⟨fun _ => none⟩ .new proc,
    Machine.load_eq_ok.2 ⟨importImage, importMemory, parse_importFile, rfl, importConfig,
      importMemory, proc, m, layoutOf_importFile, hok, rfl⟩, ⟨r, hr, hstub⟩, ⟨m', hprotect⟩,
    ⟨m₁, m₂, hmap₁, hmap₂, Option.isSome_iff_exists.1 hthere⟩,
    w₁, w₂, hwrite₁, hwrite₂, hbytes⟩

/-- The trampolines are what they were when the guest has asked for all three rights on its
heap. -/
theorem code_integrity_stubs :
    ∃ loaded mach r r', Machine.load ⟨.release, .host⟩ ⟨0, 0, 0⟩ .default importFile importSandbox
        ⟨fun _ => none⟩ ObjcRuntime.new = .ok loaded () ∧
      runServices ⟨.release, .host⟩ [mprotectService 0x120000000 7] loaded = some mach ∧
      loaded.mem.regions.get? 0x500000000 = some r ∧
      mach.mem.regions.get? 0x500000000 = some r' ∧ r'.data = r.data ∧
      r'.prot.contains .write = false := by
  obtain ⟨loaded, hload, ⟨r, hr, hsize, hprot⟩, ⟨m', hprotect⟩, -⟩ := load_importFile_steps
  obtain ⟨mach, hrun, -⟩ := @run_mprotectService .host 0x120000000 7 loaded m' hprotect
  have hkeeps : ∀ s ∈ [mprotectService 0x120000000 7],
      ¬s.Unlocks ⟨.release, .host⟩ 0x500000000 r.data.size := by
    intro s hs hunlocks
    obtain rfl := List.mem_singleton.1 hs
    obtain ⟨-, hle, -⟩ := hunlocks
    revert hle
    decide
  obtain ⟨r', hr', hdata, hprot'⟩ := code_integrity ⟨.release, .host⟩ ⟨0, 0, 0⟩ .default importFile
    importSandbox ⟨fun _ => none⟩ ObjcRuntime.new loaded mach _ hload 0x500000000 r hr hprot hkeeps
    hrun
  exact ⟨loaded, mach, r, r', hload, hrun, hr, hr', hdata, hprot'⟩

/-- Whatever is serviced, no region of a loaded process that has bytes is lost, moved, resized or
renamed, and a region that was not there is an anonymous mapping at a page between the cursor that
the run leaves and the one it found. -/
theorem memory_map_grows (hload : Machine.load b os cfg bytes vfs fs world = .ok loaded ())
    (hrun : runServices b l loaded = some mach) : Grows loaded.mem mach.mem :=
  Service.steps_runServices stepGrows_write (stepGrows_heapAlloc _) (stepGrows_mmapAnon _)
    (stepGrows_protect _) hrun (inv_of_load hload)

/-- `mmap` of memory to read and write. -/
def mmapService (len : U64) : Service where
  kernel := .willing
  clock := none
  cpu :=
    { CpuContext.default with
      x := fun i => if i = 16 then 197 else if i = 1 then len else if i = 2 then 3
        else if i = 3 then 0x1000 else 0 }
  trampoline := none

/-- The call maps what it asks for. -/
theorem run_mmapService {target : Target} {len base : U64} {mach : Machine ObjcRuntime}
    {m' : GuestMemory} (h : mmapAnon .release len .rw mach.mem = .ok base m') :
    ∃ mach', ((mmapService len).run ⟨.release, target⟩ mach).state? = some mach' ∧
      mach'.mem = m' := by
  have hhandler : Unix.sysMmap ((mmapService len).host ⟨.release, target⟩)
      ((mmapService len).enter mach).syscallCtx =
      .ok base { ((mmapService len).enter mach).syscallCtx with mem := m' } := by
    have hanon : ¬((mmapService len).enter mach).syscallCtx.cpu.arg 3 &&& Unix.MAP_ANON = 0 :=
      show ¬(0x1000 : U64) &&& 0x1000 = 0 by decide
    have hprot : Unix.protOf 3 = .rw := by decide
    rw [← hprot] at h
    change (ite _ _ _ : SysM U64) _ = _
    rw [if_neg hanon]
    exact onMem_of_ok h
  have hdecode : decode .release ((mmapService len).cpu.x 16) = .ok (.unix, 197) :=
    show decode .release 197 = _ by decide
  exact Service.run_of_handler rfl (Profile.add_release mach.dispatcher.serviced 1) hdecode rfl
    hhandler

/-- A mapping whose size rounds to zero starts at the cursor the run found, and the next one below
it, at the cursor the run leaves. -/
theorem memory_map_grows_mmap :
    ∃ loaded mach r r', Machine.load ⟨.release, .host⟩ ⟨0, 0, 0⟩ .default importFile importSandbox
        ⟨fun _ => none⟩ ObjcRuntime.new = .ok loaded () ∧
      runServices ⟨.release, .host⟩ [mmapService (BitVec.allOnes 64), mmapService 0x4000] loaded =
        some mach ∧
      mach.mem.regions.get? 0x200000000 = some r ∧ mach.mem.regions.get? 0x1ffffc000 = some r' ∧
      Grows loaded.mem mach.mem := by
  obtain ⟨loaded, hload, -, -, ⟨m₁, m₂, hmap₁, hmap₂, r, hr⟩, -⟩ := load_importFile_steps
  obtain ⟨mid, hmid, rfl⟩ := @run_mmapService .host _ _ loaded _ hmap₁
  obtain ⟨mach, hmach, rfl⟩ := @run_mmapService .host _ _ mid _ hmap₂
  have hrun : runServices ⟨.release, .host⟩ [mmapService (BitVec.allOnes 64), mmapService 0x4000]
      loaded = some mach := by
    rw [runServices, hmid, Option.bind_some, runServices, hmach, Option.bind_some, runServices]
  obtain ⟨r', hr'⟩ := region_of_mmapAnon hmap₂
  exact ⟨loaded, mach, r, r', hload, hrun, hr, hr',
    memory_map_grows ⟨.release, .host⟩ ⟨0, 0, 0⟩ .default importFile importSandbox ⟨fun _ => none⟩
      ObjcRuntime.new loaded mach _ hload hrun⟩

end Runs

end IosEmu
