import IosEmu.FailedCall

/-!
# Anonymous mappings

`mmap_anon` takes its regions top-down from `mmapTop` and rounds the length up to a page, and
`map` rounds it once more. In a release build a length in the last page of the word rounds to
zero. Zero is taken from the cursor, and `map` makes one page of it : the call succeeds with a
page above the arena, whatever the length was. The other way a mapping is not what was asked
for is an empty region that starts just where the new one goes, which it replaces.

`AnonRun` is a run of calls with the bases its anonymous mappings have returned. The cursor is
page aligned and at or below each of them (`AnonRun.cursor`), so each new base is below. A
mapping is as asked for exactly if neither of the two cases is met (`anon_mapped_iff`).
-/

open SysLib

namespace IosEmu

namespace GuestMemory

variable {p : Profile} {m m' : GuestMemory} {bases : List U64}

/-! ## Runs with their anonymous mappings -/

/-- The base a call returns, if it is an anonymous mapping that succeeds. -/
def Call.anonBase (p : Profile) (m : GuestMemory) : Call → Option U64
  | .mmapAnon size prot =>
    match GuestMemory.mmapAnon p size prot m with
    | .ok base _ => some base
    | _ => none
  | _ => none

/-- The memories that calls lead to, with the bases of the anonymous mappings made on the
way. -/
inductive AnonRun (p : Profile) : GuestMemory → List U64 → Prop
  | new {heapBase heapSize : U64} {m : GuestMemory} :
      GuestMemory.new p heapBase heapSize = .ok () m → AnonRun p m []
  | call {m m' : GuestMemory} {bases : List U64} (c : Call) : AnonRun p m bases →
      c.run p m = some m' → AnonRun p m' ((c.anonBase p m).toList ++ bases)

theorem AnonRun.reachable (h : AnonRun p m bases) : Reachable p m := by
  induction h with
  | new h => exact .new h
  | call c _ hrun ih => exact .call c ih hrun

/-- Every reachable memory is the end of such a run. -/
theorem Reachable.anonRun (h : Reachable p m) : ∃ bases, AnonRun p m bases := by
  induction h with
  | new h => exact ⟨[], .new h⟩
  | call c _ hrun ih =>
    obtain ⟨bases, hbases⟩ := ih
    exact ⟨_, .call c hbases hrun⟩

/-! ## The cursor -/

/-- The cursor moves to the base of a new mapping, and to nowhere else. -/
theorem cursor_of_run : ∀ {c : Call}, c.run p m = some m' →
    m'.mmapCursor = (c.anonBase p m).getD m.mmapCursor
  | .map _ _ _ _ _, h => by
    refine (map_failsClean p _ _ _ _ _).steps (R := fun m m' => m'.mmapCursor = m.mmapCursor)
      (fun _ => rfl) (fun m u m' h => ?_) m m' h
    obtain ⟨s, -, -, hs, rfl⟩ := map_eq_ok.1 h
    rfl
  | .mapWithData _ _ _ _ _ _, h => by
    refine (mapWithData_failsClean p _ _ _ _ _ _).steps
      (R := fun m m' => m'.mmapCursor = m.mmapCursor) (fun _ => rfl) (fun m u m' h => ?_) m m' h
    obtain ⟨s, -, -, -, hs, rfl⟩ := mapWithData_eq_ok.1 h
    rfl
  | .mmapAnon size prot, h => by
    rw [Call.run] at h
    rw [Call.anonBase]
    rcases hx : mmapAnon p size prot m with ⟨base, m₁⟩ | ⟨e, m₁⟩ | e <;> rw [hx] at h
    · obtain rfl := Option.some.inj h
      obtain ⟨_, _, m₂, -, -, -, -, rfl⟩ := mmapAnon_eq_ok.1 hx
      rfl
    · obtain rfl := Option.some.inj h
      rw [mmapAnon_failsClean p size prot m _ e hx]
      rfl
    · cases h
  | .protect _ _ _, h => by
    rcases protect_cases h with rfl | ⟨key, r, -, rfl⟩ <;> rfl
  | .heapAlloc size align, h => by
    rw [Call.run] at h
    unfold heapAlloc Prog.zoom at h
    rcases hx : BumpAllocator.alloc p size align m.heap with ⟨a, k⟩ | ⟨e, k⟩ | e <;> rw [hx] at h
    · obtain rfl := Option.some.inj h
      rfl
    · obtain rfl := Option.some.inj h
      rfl
    · cases h
  | .write _ _, h => by
    refine (write_failsClean _ _).steps (R := fun m m' => m'.mmapCursor = m.mmapCursor)
      (fun _ => rfl) (fun m u m' h => ?_) m m' h
    obtain ⟨key, r, -, -, -, -, rfl⟩ := write_eq_ok.1 h
    rfl

/-- The cursor is at a page of the arena, at or below every mapping it has given out. -/
structure CursorInv (m : GuestMemory) (bases : List U64) : Prop where
  aligned : m.mmapCursor.toNat % 0x4000 = 0
  le_top : m.mmapCursor.toNat ≤ mmapTop.toNat
  le_bases : ∀ b ∈ bases, m.mmapCursor.toNat ≤ b.toNat

/-- A new base is at or below the cursor, at a page. -/
theorem anonBase_spec {c : Call} {base : U64} (h : c.anonBase p m = some base) :
    base.toNat ≤ m.mmapCursor.toNat ∧ base.toNat % 0x4000 = 0 := by
  cases c with
  | mmapAnon size prot =>
    rw [Call.anonBase] at h
    rcases hx : mmapAnon p size prot m with ⟨base', m₁⟩ | ⟨e, m₁⟩ | e <;> rw [hx] at h
    · obtain rfl := Option.some.inj h
      obtain ⟨s, low, -, -, hlow, hbase, -, -⟩ := mmapAnon_eq_ok.1 hx
      have hlow := checkedSub_eq_some_iff.1 hlow
      have hmask : (low &&& ~~~0x3fff).toNat = low.toNat / 0x4000 * 0x4000 :=
        toNat_and_not_mask 14 low
      rw [alignDown_eq_ok hbase, hmask]
      omega
    · cases h
    · cases h
  | _ => cases h

theorem CursorInv.call {c : Call} (h : CursorInv m bases) (hrun : c.run p m = some m') :
    CursorInv m' ((c.anonBase p m).toList ++ bases) := by
  have hcursor := cursor_of_run hrun
  rcases hbase : c.anonBase p m with _ | base
  · rw [hbase, Option.getD_none] at hcursor
    rw [Option.toList_none, List.nil_append]
    exact ⟨hcursor ▸ h.aligned, hcursor ▸ h.le_top, hcursor ▸ h.le_bases⟩
  · rw [hbase, Option.getD_some] at hcursor
    obtain ⟨hle, hpage⟩ := anonBase_spec hbase
    refine ⟨hcursor ▸ hpage, hcursor ▸ hle.trans h.le_top, fun b hb => ?_⟩
    rw [hcursor]
    rcases List.mem_cons.1 hb with rfl | hb
    · exact le_rfl
    · exact hle.trans (h.le_bases b hb)

/-- The invariant of the cursor holds along every run. -/
theorem AnonRun.cursor (h : AnonRun p m bases) : CursorInv m bases := by
  induction h with
  | new h =>
    obtain ⟨s, -, hmap⟩ := Prog.ofChecked_bind_eq_ok.1 h
    obtain ⟨_, -, -, -, rfl⟩ := map_eq_ok.1 hmap
    exact ⟨show mmapTop.toNat % 0x4000 = 0 by decide, le_rfl, fun _ hb => absurd hb List.not_mem_nil⟩
  | call c _ hrun ih => exact ih.call hrun

/-! ## What is mapped -/

/-- A length that can be rounded up is, to whole pages, and stays when it is rounded again. -/
theorem rounded_of_lt {size : U64} (h : size.toNat + 0x3fff < 2 ^ 64) :
    size.toNat ≤ (pageRound (max size 1)).toNat ∧ 0x4000 ≤ (pageRound (max size 1)).toNat ∧
      pageRound (max (pageRound (max size 1)) 1) = pageRound (max size 1) := by
  have hmax : (max size 1).toNat = max size.toNat 1 := toNat_max _ _
  have hround := toNat_pageRound (max size 1)
  have hpos : 0x4000 ≤ (pageRound (max size 1)).toNat := by omega
  refine ⟨by omega, hpos, ?_⟩
  rw [max_eq_left (BitVec.le_def.2 (Nat.le_trans (by decide) hpos))]
  exact pageRound_of_dvd (pageRound_mod _)

/-- A length in the last page of the word rounds to zero, and the second time to one page. -/
theorem rounded_of_ge {size : U64} (h : 2 ^ 64 ≤ size.toNat + 0x3fff) :
    pageRound (max size 1) = 0 ∧ pageRound (max (pageRound (max size 1)) 1) = pageSize := by
  have hsize := size.isLt
  have hmax : (max size 1).toNat = max size.toNat 1 := toNat_max _ _
  have hround := toNat_pageRound (max size 1)
  have hzero : pageRound (max size 1) = 0 :=
    BitVec.eq_of_toNat_eq (show _ = 0 by omega)
  rw [hzero]
  exact ⟨rfl, by decide⟩

/-- With the cursor at a page, a mapping ends at it. -/
theorem mmapAnon_release_iff (haligned : m.mmapCursor.toNat % 0x4000 = 0) {size base : U64}
    {prot : Protection} :
    mmapAnon .release size prot m = .ok base m' ↔
      base.toNat + (pageRound (max size 1)).toNat = m.mmapCursor.toNat ∧
      m.checkFree base (pageRound (max (pageRound (max size 1)) 1)) = .ok () ∧
      ∃ hlen : (pageRound (max (pageRound (max size 1)) 1)).toNat ≤ isizeMax,
        m' = { m with
          regions := m.regions.insert base
            { base, prot, kind := .anonymous, name := "mmap",
              data := Buffer.replicate _ 0 hlen }
          mmapCursor := base } := by
  have hmod := pageRound_mod (max size 1)
  -- Below an aligned cursor, rounding down does nothing.
  have hdown : ∀ low : U64, low.toNat + (pageRound (max size 1)).toNat = m.mmapCursor.toNat →
      low &&& ~~~0x3fff = low := by
    intro low hlow
    have hmask : (low &&& ~~~0x3fff).toNat = low.toNat / 0x4000 * 0x4000 :=
      toNat_and_not_mask 14 low
    apply BitVec.eq_of_toNat_eq
    omega
  constructor
  · intro h
    obtain ⟨_, low, m₁, hs, hlow, hbase, hmap, rfl⟩ := mmapAnon_eq_ok.1 h
    obtain rfl := alignUp_eq_ok hs
    have hlow := checkedSub_eq_some_iff.1 hlow
    obtain rfl : base = low := (alignDown_eq_ok hbase).trans (hdown low hlow)
    obtain ⟨_, hs', hfree, hlen, rfl⟩ := map_eq_ok.1 hmap
    obtain rfl := alignUp_eq_ok hs'
    exact ⟨hlow, hfree, hlen, rfl⟩
  · rintro ⟨hlow, hfree, hlen, rfl⟩
    refine mmapAnon_eq_ok.2 ⟨_, base, _, alignUp_release _, checkedSub_eq_some_iff.2 hlow, ?_,
      map_eq_ok.2 ⟨_, alignUp_release _, hfree, hlen, rfl⟩, rfl⟩
    rw [alignDown_release, hdown base hlow]

/-- The mapping at `base` is what was asked for : the range does not wrap and lies in a region
of zeros that is new, at a page below every earlier mapping, and nothing else has changed. -/
structure AnonMapped (m : GuestMemory) (bases : List U64) (size : U64) (prot : Protection)
    (base : U64) (m' : GuestMemory) : Prop where
  fits : base.toNat + size.toNat ≤ 2 ^ 64
  region : ∃ r, m'.regions.get? base = some r ∧ r.base = base ∧ r.prot = prot ∧
    size.toNat ≤ r.data.size ∧ ∀ i < r.data.size, r.data.get? i = some 0
  vacant : m.regions.get? base = none
  others : ∀ k, k ≠ base → m'.regions.get? k = m.regions.get? k
  aligned : base.toNat % 0x4000 = 0
  below : ∀ b ∈ bases, base < b
  cursor : m'.mmapCursor = base
  heap : m'.heap = m.heap

/-- A mapping that is made is what was asked for exactly if its length could be rounded up and
no region was at its base. -/
theorem anonMapped_iff (hcursor : CursorInv m bases) {size base : U64} {prot : Protection}
    (h : mmapAnon .release size prot m = .ok base m') :
    AnonMapped m bases size prot base m' ↔
      size.toNat + 0x3fff < 2 ^ 64 ∧ m.regions.get? base = none := by
  obtain ⟨hlow, hfree, hlen, rfl⟩ := (mmapAnon_release_iff hcursor.aligned).1 h
  constructor
  · intro hmapped
    refine ⟨?_, hmapped.vacant⟩
    by_contra hge
    obtain ⟨r, hr, -, -, hsize, -⟩ := hmapped.region
    obtain ⟨-, hpage⟩ := rounded_of_ge (not_lt.1 hge)
    rw [SortedMap.get?_insert_self] at hr
    obtain rfl := Option.some.inj hr
    rw [Buffer.size_replicate, hpage] at hsize
    have : pageSize.toNat = 0x4000 := rfl
    omega
  · rintro ⟨hlt, hvacant⟩
    obtain ⟨hsize, hpos, hagain⟩ := rounded_of_lt hlt
    have hmod := pageRound_mod (max size 1)
    have haligned := hcursor.aligned
    have htop := m.mmapCursor.isLt
    refine ⟨by omega, ⟨_, SortedMap.get?_insert_self _ _ _, rfl, rfl, ?_, fun i hi => ?_⟩, hvacant,
      fun k hk => SortedMap.get?_insert_of_ne _ _ hk, by omega, fun b hb => ?_, rfl, rfl⟩
    · rw [Buffer.size_replicate, hagain]
      exact hsize
    · exact Buffer.get?_replicate hi
    · have := hcursor.le_bases b hb
      exact BitVec.lt_def.2 (by omega)

/-! ## When it is what was asked for -/

/-- Neither of the two things that go wrong does : if the length wraps when it is rounded up,
the page at the cursor is taken; and no region at the base gives way to the new one. -/
structure AnonSound (m : GuestMemory) (size : U64) : Prop where
  rounds : 2 ^ 64 ≤ size.toNat + 0x3fff → m.checkFree m.mmapCursor pageSize ≠ .ok ()
  vacant : size.toNat + 0x3fff < 2 ^ 64 → ∀ base r,
    base.toNat + (pageRound (max size 1)).toNat = m.mmapCursor.toNat →
    m.regions.get? base = some r → m.checkFree base (pageRound (max size 1)) ≠ .ok ()

theorem AnonSound.anonMapped {size base : U64} {prot : Protection} (hsound : AnonSound m size)
    (hcursor : CursorInv m bases) (h : mmapAnon .release size prot m = .ok base m') :
    AnonMapped m bases size prot base m' := by
  refine (anonMapped_iff hcursor h).2 ?_
  obtain ⟨hlow, hfree, -, -⟩ := (mmapAnon_release_iff hcursor.aligned).1 h
  rcases lt_or_ge (size.toNat + 0x3fff) (2 ^ 64) with hlt | hge
  · refine ⟨hlt, Option.eq_none_iff_forall_not_mem.2 fun r hr => ?_⟩
    rw [(rounded_of_lt hlt).2.2] at hfree
    exact hsound.vacant hlt base r hlow hr hfree
  · obtain ⟨hzero, hpage⟩ := rounded_of_ge hge
    rw [hzero] at hlow
    obtain rfl : base = m.mmapCursor := BitVec.eq_of_toNat_eq hlow
    rw [hpage] at hfree
    exact absurd hfree (hsound.rounds hge)

/-- A mapping that is always what was asked for meets neither case. -/
theorem anonSound_of_mapped (hcursor : CursorInv m bases) {size : U64} {prot : Protection}
    (h : ∀ base m', mmapAnon .release size prot m = .ok base m' →
      AnonMapped m bases size prot base m') : AnonSound m size := by
  have hmade : ∀ base : U64, base.toNat + (pageRound (max size 1)).toNat = m.mmapCursor.toNat →
      m.checkFree base (pageRound (max (pageRound (max size 1)) 1)) = .ok () →
      (pageRound (max (pageRound (max size 1)) 1)).toNat ≤ isizeMax →
      size.toNat + 0x3fff < 2 ^ 64 ∧ m.regions.get? base = none := by
    intro base hlow hfree hlen
    have hok := (@mmapAnon_release_iff m _ hcursor.aligned size base prot).2
      ⟨hlow, hfree, hlen, rfl⟩
    exact (anonMapped_iff hcursor hok).1 (h _ _ hok)
  have hcap : isizeMax = 2 ^ 63 - 1 := rfl
  refine ⟨fun hge hfree => ?_, fun hlt base r hlow hr hfree => ?_⟩
  · obtain ⟨hzero, hpage⟩ := rounded_of_ge hge
    have hpageSize : pageSize.toNat = 0x4000 := rfl
    have hlen : pageSize.toNat ≤ isizeMax := by omega
    have hlow : m.mmapCursor.toNat + (pageRound (max size 1)).toNat = m.mmapCursor.toNat := by
      rw [hzero]
      rfl
    rw [← hpage] at hfree hlen
    obtain ⟨hlt, -⟩ := hmade m.mmapCursor hlow hfree hlen
    omega
  · have hagain := (rounded_of_lt hlt).2.2
    have htop : m.mmapCursor.toNat ≤ 0x200000000 := hcursor.le_top
    obtain ⟨-, hnone⟩ := hmade base hlow (by rwa [hagain]) (by rw [hagain]; omega)
    rw [hr] at hnone
    cases hnone

/-! ## The calls of the guest -/

/-- What is expected of an anonymous mapping of `size` bytes. If it succeeds, it is what was
asked for; if it fails, the regions and the cursor stay; and the two calls of the guest report
success only for such a mapping. -/
structure MapsAsAsked (m : GuestMemory) (bases : List U64) (size : U64) (prot : Protection) :
    Prop where
  ok : ∀ base m', mmapAnon .release size prot m = .ok base m' →
    AnonMapped m bases size prot base m'
  err : ∀ e m', mmapAnon .release size prot m = .err e m' →
    m'.regions = m.regions ∧ m'.mmapCursor = m.mmapCursor
  mmap : ∀ (host : Host) (c c' : SyscallCtx) (v : U64), host.build.profile = .release →
    c.mem = m → c.cpu.arg 1 = size → Unix.sysMmap host c = .ok v c' →
    AnonMapped m bases size (Unix.protOf (c.cpu.arg 2)) v c'.mem
  vmAllocate : ∀ (host : Host) (c c' : SyscallCtx), host.build.profile = .release →
    c.mem = m → c.cpu.arg 2 = size → Mach.vmAllocate host c = .ok 0 c' →
    ∃ base m₁, AnonMapped m bases size .rw base m₁ ∧
      writeU64 (c.cpu.arg 1) base m₁ = .ok () c'.mem

/-- `mmap` succeeds with the mapping of `mmap_anon`. -/
theorem mmapAnon_of_sysMmap {host : Host} {c c' : SyscallCtx} {v : U64}
    (h : Unix.sysMmap host c = .ok v c') :
    mmapAnon host.build.profile (c.cpu.arg 1) (Unix.protOf (c.cpu.arg 2)) c.mem =
      .ok v c'.mem := by
  unfold Unix.sysMmap at h
  rw [Prog.get_bind] at h
  split_ifs at h
  · cases h
  · obtain ⟨m, hm, rfl⟩ := onMem_eq_ok.1 h
    exact hm

/-- In every state of every run, an anonymous mapping is what was asked for exactly if a
length in the last page of the word finds the page at the cursor taken, and any other length
finds no region at its base that would give way. -/
theorem maps_as_asked_iff (m : GuestMemory) (bases : List U64) (h : AnonRun .release m bases)
    (size : U64) (prot : Protection) :
    MapsAsAsked m bases size prot ↔ AnonSound m size := by
  have hcursor := h.cursor
  refine ⟨fun hmaps => anonSound_of_mapped hcursor hmaps.ok, fun hsound => ⟨?_, ?_, ?_, ?_⟩⟩
  · exact fun base m' hok => hsound.anonMapped hcursor hok
  · intro e m' herr
    rw [mmapAnon_failsClean _ _ _ _ _ _ herr]
    exact ⟨rfl, rfl⟩
  · rintro host c c' v hprofile rfl rfl hok
    have hmap := mmapAnon_of_sysMmap hok
    rw [hprofile] at hmap
    exact hsound.anonMapped hcursor hmap
  · rintro host c c' hprofile rfl rfl hok
    rcases vmAllocate_cases hok with ⟨e, -, hcode⟩ | ⟨base, m₁, hmap, hstore⟩
    · cases hcode
    · rcases hstore with ⟨e, -, hcode⟩ | ⟨hstore, -⟩
      · cases hcode
      · rw [hprofile] at hmap
        exact ⟨base, m₁, hsound.anonMapped hcursor hmap, hstore⟩

theorem anonRun_testMemory : AnonRun .release testMemory [] :=
  @AnonRun.new _ 0x100000000 0x10000 _ rfl

/-- A page is mapped below the top of the arena. -/
theorem maps_as_asked_page :
    AnonRun .release testMemory [] ∧
      ∃ m', mmapAnon .release 0x4000 .rw testMemory = .ok 0x1ffffc000 m' ∧
        AnonMapped testMemory [] 0x4000 .rw 0x1ffffc000 m' := by
  refine ⟨anonRun_testMemory, _, rfl, ?_⟩
  refine ((maps_as_asked_iff testMemory [] anonRun_testMemory 0x4000 .rw).2 ⟨?_, ?_⟩).ok _ _ rfl
  · intro h
    exact absurd h (by decide)
  · intro _ base r hlow hr
    obtain rfl : base = 0x1ffffc000 := by
      apply BitVec.eq_of_toNat_eq
      have hround : (pageRound (max (0x4000 : U64) 1)).toNat = 0x4000 := rfl
      have hcursor : testMemory.mmapCursor.toNat = 0x200000000 := rfl
      change base.toNat = 0x1ffffc000
      omega
    cases hr

/-- A mapping of the largest length succeeds, with one page above the arena. -/
theorem maps_as_asked_wraps :
    AnonRun .release testMemory [] ∧
      (∃ m', mmapAnon .release 0xffffffffffffffff .rw testMemory = .ok 0x200000000 m') ∧
      ¬MapsAsAsked testMemory [] 0xffffffffffffffff .rw := by
  have hok : ∃ m', mmapAnon .release 0xffffffffffffffff .rw testMemory = .ok 0x200000000 m' :=
    ⟨_, rfl⟩
  refine ⟨anonRun_testMemory, hok, fun h => ?_⟩
  obtain ⟨m', hok⟩ := hok
  obtain ⟨hlt, -⟩ := (anonMapped_iff anonRun_testMemory.cursor hok).1 (h.ok _ _ hok)
  exact absurd hlt (by decide)

end GuestMemory

end IosEmu
