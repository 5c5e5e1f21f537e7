import IosEmu.GuestMemory

/-!
# The layout of the address space

`Reachable` is the set of memories that calls of the public methods lead to from a fresh
one, whatever their arguments and whether they succeed or fail. In each of them every
region sits at its own key, ends inside the address space and ends before the next one
starts (`Inv`), so an address lies in at most one region and `regionBase` finds it.

`checkFree` looks at one neighbour of the new span, and that is enough because the layout
is a tiling. It does not look at a region that starts where the new span does when one of
the two is empty, and the store replaces an equal key. `MapCall.Replaces` is that case :
the base is taken, one of the two regions is empty, and the call is not refused for
another reason. A mapping call keeps every region exactly outside it.
-/

open SysLib

namespace IosEmu

namespace GuestMemory

theorem checkFree_eq_ok {m : GuestMemory} {base size : U64} :
    m.checkFree base size = .ok () ↔
      ∃ stop, stop.toNat = base.toNat + size.toNat ∧
        ∀ k r, m.regions.lastLT stop = some (k, r) → ¬(r.base < stop ∧ base < r.endAddr) := by
  unfold checkFree
  rcases hadd : checkedAdd base size with _ | stop
  · simp only [reduceCtorEq, false_iff, not_exists, not_and]
    intro stop hstop
    rw [checkedAdd_eq_some_iff.2 hstop] at hadd
    cases hadd
  · have hstop := checkedAdd_eq_some_iff.1 hadd
    have huniq : ∀ s : U64, s.toNat = base.toNat + size.toNat → s = stop := fun s hs =>
      BitVec.eq_of_toNat_eq (hs.trans hstop.symm)
    dsimp only
    rcases hl : m.regions.lastLT stop with _ | ⟨k, r⟩
    · exact ⟨fun _ => ⟨stop, hstop, by simp [hl]⟩, fun _ => rfl⟩
    · dsimp only
      split_ifs with hover
      · simp only [false_iff, not_exists]
        rintro s ⟨hs, hfree⟩
        obtain rfl := huniq s hs
        exact hfree k r hl hover
      · refine ⟨fun _ => ⟨stop, hstop, fun k' r' h => ?_⟩, fun _ => rfl⟩
        obtain ⟨rfl, rfl⟩ : k = k' ∧ r = r' := by simpa [hl] using h
        exact hover

/-- A region that `checkFree` let through ends inside the address space. -/
theorem fits_of_checkFree {m : GuestMemory} {r : Region}
    (hfree : m.checkFree r.base r.size = .ok ()) : r.Fits := by
  obtain ⟨stop, hstop, -⟩ := checkFree_eq_ok.1 hfree
  have := stop.isLt
  rw [Region.toNat_size] at hstop
  unfold Region.Fits
  omega

/-! ## The invariant -/

/-- Regions sit at their keys, end inside the address space and do not overlap. -/
structure Inv (m : GuestMemory) : Prop where
  base_eq : ∀ k r, m.regions.get? k = some r → r.base = k
  fits : ∀ k r, m.regions.get? k = some r → r.Fits
  tiles : m.regions.Tiles Region.endAddr

namespace Inv

variable {m m' : GuestMemory}

/-- Regions at increasing keys end before the next starts, in natural numbers. -/
theorem end_le (h : m.Inv) {k k' : U64} {r r' : Region} (hk : m.regions.get? k = some r)
    (hk' : m.regions.get? k' = some r') (hlt : k < k') :
    k.toNat + r.data.size ≤ k'.toNat := by
  have hle := BitVec.le_def.1 (h.tiles.stop_le k r k' r' hk hk' hlt)
  rwa [(h.fits k r hk).toNat_endAddr, h.base_eq k r hk] at hle

/-- A neighbour below `stop` that does not overlap `[base, stop)` ends by `base`. -/
theorem endAddr_le (h : m.Inv) {base stop : U64}
    (hlast : ∀ k r, m.regions.lastLT stop = some (k, r) → ¬(r.base < stop ∧ base < r.endAddr)) :
    ∀ k w, m.regions.lastLT stop = some (k, w) → w.endAddr ≤ base := by
  intro k w hk
  obtain ⟨hget, hlt, -⟩ := SortedMap.lastLT_eq_some_iff.1 hk
  have hw := hlast k w hk
  rw [h.base_eq k w hget] at hw
  exact not_lt.1 fun hover => hw ⟨hlt, hover⟩

theorem endAddr_le_of_checkFree (h : m.Inv) {r : Region}
    (hfree : m.checkFree r.base r.size = .ok ()) :
    ∀ k w, m.regions.lastLT r.endAddr = some (k, w) → w.endAddr ≤ r.base := by
  obtain ⟨stop, hstop, hlast⟩ := checkFree_eq_ok.1 hfree
  obtain rfl : stop = r.endAddr := BitVec.eq_of_toNat_eq (by
    rw [hstop, (fits_of_checkFree hfree).toNat_endAddr, Region.toNat_size])
  exact h.endAddr_le hlast

theorem place (h : m.Inv) {r : Region} (hfree : m.checkFree r.base r.size = .ok ()) :
    ∀ cursor heap, Inv ⟨m.regions.insert r.base r, cursor, heap⟩ := by
  have hfits := fits_of_checkFree hfree
  intro cursor heap
  refine ⟨fun k w hk => ?_, fun k w hk => ?_, ?_⟩
  · rw [SortedMap.get?_insert] at hk
    split_ifs at hk with hkr
    · obtain rfl := Option.some.inj hk
      exact hkr.symm
    · exact h.base_eq k w hk
  · rw [SortedMap.get?_insert] at hk
    split_ifs at hk with hkr
    · obtain rfl := Option.some.inj hk
      exact hfits
    · exact h.fits k w hk
  · refine h.tiles.insert (BitVec.le_def.2 ?_) (h.endAddr_le_of_checkFree hfree)
    rw [hfits.toNat_endAddr]
    omega

/-- Changing a region without moving it keeps the layout. -/
theorem replace (h : m.Inv) {k : U64} {r r' : Region} (hk : m.regions.get? k = some r)
    (hbase : r'.base = r.base) (hsize : r'.data.size = r.data.size) :
    Inv { m with regions := m.regions.insert k r' } := by
  have hend : r'.endAddr = r.endAddr := by
    rw [Region.endAddr, Region.endAddr, Region.size, Region.size, hbase, hsize]
  refine ⟨fun k₁ w hk₁ => ?_, fun k₁ w hk₁ => ?_, h.tiles.replace hk hend⟩
  · rw [SortedMap.get?_insert] at hk₁
    split_ifs at hk₁ with hkk
    · obtain rfl := Option.some.inj hk₁
      rw [hbase, hkk]
      exact h.base_eq k r hk
    · exact h.base_eq k₁ w hk₁
  · rw [SortedMap.get?_insert] at hk₁
    split_ifs at hk₁ with hkk
    · obtain rfl := Option.some.inj hk₁
      unfold Region.Fits
      rw [hbase, hsize]
      exact h.fits k r hk
    · exact h.fits k₁ w hk₁

/-- One call keeps the layout. -/
theorem change (h : m.Inv) (hc : Change m m') : m'.Inv := by
  cases hc with
  | same => exact h
  | place r hfree => exact h.place hfree _ _
  | placeAnon r hfree => exact h.place hfree _ _
  | setProt k r prot hk => exact h.replace hk rfl rfl
  | store k r off data hk => exact h.replace hk rfl rfl
  | heap k => exact ⟨h.base_eq, h.fits, h.tiles⟩

end Inv

/-! ## Calls and runs -/

/-- A call of one of the methods that change the memory. -/
inductive Call
  | map (base size : U64) (prot : Protection) (kind : RegionKind) (name : String)
  | mapWithData (base size : U64) (data : List U8) (prot : Protection) (kind : RegionKind)
      (name : String)
  | mmapAnon (size : U64) (prot : Protection)
  | protect (target : Target) (addr : U64) (prot : Protection)
  | heapAlloc (size align : U64)
  | write (addr : U64) (data : List U8)

/-- The memory a call leaves behind, whether it succeeds or fails. -/
def Call.run (p : Profile) (m : GuestMemory) : Call → Option GuestMemory
  | .map base size prot kind name => (GuestMemory.map p base size prot kind name m).state?
  | .mapWithData base size data prot kind name =>
    (GuestMemory.mapWithData p base size data prot kind name m).state?
  | .mmapAnon size prot => (GuestMemory.mmapAnon p size prot m).state?
  | .protect target addr prot => (GuestMemory.protect target addr prot m).state?
  | .heapAlloc size align => (GuestMemory.heapAlloc p size align m).state?
  | .write addr data => (GuestMemory.write addr data m).state?

/-- The memories that calls lead to from a new one. -/
inductive Reachable (p : Profile) : GuestMemory → Prop
  | new {heapBase heapSize : U64} {m : GuestMemory} :
      GuestMemory.new p heapBase heapSize = .ok () m → Reachable p m
  | call {m m' : GuestMemory} (c : Call) : Reachable p m → c.run p m = some m' → Reachable p m'

theorem change_of_run {p : Profile} {m m' : GuestMemory} :
    ∀ {c : Call}, c.run p m = some m' → Change m m'
  | .map _ _ _ _ _, h => change_map _ _ _ _ _ _ _ _ h
  | .mapWithData _ _ _ _ _ _, h => change_mapWithData _ _ _ _ _ _ _ _ _ h
  | .mmapAnon _ _, h => change_mmapAnon _ _ _ _ _ h
  | .protect _ _ _, h => change_protect _ _ _ _ _ h
  | .heapAlloc _ _, h => change_heapAlloc _ _ _ _ _ h
  | .write _ _, h => change_write _ _ _ _ h

theorem inv_new {p : Profile} {heapBase heapSize : U64} {m : GuestMemory}
    (h : GuestMemory.new p heapBase heapSize = .ok () m) : m.Inv := by
  obtain ⟨s, -, hmap⟩ := Prog.ofChecked_bind_eq_ok.1 h
  exact Inv.change ⟨by simp, by simp, .empty⟩ ((change_map _ _ _ _ _ _).ok hmap)

theorem Reachable.inv {p : Profile} {m : GuestMemory} (h : Reachable p m) : m.Inv := by
  induction h with
  | new h => exact inv_new h
  | call c _ hrun ih => exact ih.change (change_of_run hrun)

/-! ## Looking an address up -/

/-- The region at `k` holds the address `a`. -/
def Holds (m : GuestMemory) (k a : U64) : Prop :=
  ∃ r, m.regions.get? k = some r ∧ r.base ≤ a ∧ a.toNat < r.base.toNat + r.data.size

theorem regionBase_eq_ok (m : GuestMemory) (h : m.Inv) (a b : U64) :
    m.regionBase a = .ok b ↔ m.Holds b a := by
  unfold regionBase
  refine ⟨fun hb => ?_, ?_⟩
  · rcases hl : m.regions.lastLE a with _ | ⟨k, r⟩
    · simp [hl] at hb
    · have hk := get?_of_lastLE hl
      simp only [hl] at hb
      split_ifs at hb with hc
      obtain rfl := Except.ok.inj hb
      obtain ⟨hle, hlt⟩ := ((h.fits k r hk).contains_iff a).1 hc
      exact ⟨r, hk, BitVec.le_def.2 hle, hlt⟩
  · rintro ⟨r, hk, hle, hlt⟩
    have hfits := h.fits b r hk
    have hlast : m.regions.lastLE a = some (b, r) := by
      refine h.tiles.lastLE_of_mem_span hk (h.base_eq b r hk ▸ hle) (BitVec.lt_def.2 ?_)
      rwa [hfits.toNat_endAddr]
    simp only [hlast]
    rw [if_pos ((hfits.contains_iff a).2 ⟨BitVec.le_def.1 hle, hlt⟩)]

theorem Inv.holds_unique {m : GuestMemory} (h : m.Inv) {k k' a : U64} (hk : m.Holds k a)
    (hk' : m.Holds k' a) : k = k' :=
  Except.ok.inj (((regionBase_eq_ok m h a k).2 hk).symm.trans
    ((regionBase_eq_ok m h a k').2 hk'))

/-- In every memory that calls lead to, regions sit at their own base, end inside the
address space and do not overlap, and `regionBase` finds the one region that holds an
address, or fails if there is none. -/
theorem layout_of_reachable (p : Profile) (m : GuestMemory) (h : Reachable p m) :
    (∀ k r, m.regions.get? k = some r →
      r.base = k ∧ r.base.toNat + r.data.size ≤ 2 ^ 64 - 1) ∧
    (∀ k r k' r', m.regions.get? k = some r → m.regions.get? k' = some r' → k < k' →
      k.toNat + r.data.size ≤ k'.toNat) ∧
    (∀ a b, m.regionBase a = .ok b ↔ m.Holds b a ∧ ∀ b', m.Holds b' a → b' = b) ∧
    ∀ a, (∃ e, m.regionBase a = .error e) ↔ ∀ b, ¬m.Holds b a := by
  have hinv := h.inv
  refine ⟨fun k r hk => ⟨hinv.base_eq k r hk, ?_⟩, fun k r k' r' hk hk' hlt =>
    hinv.end_le hk hk' hlt, fun a b => ?_, fun a => ?_⟩
  · have := hinv.fits k r hk
    unfold Region.Fits at this
    omega
  · rw [regionBase_eq_ok m hinv]
    exact ⟨fun hb => ⟨hb, fun b' hb' => hinv.holds_unique hb' hb⟩, And.left⟩
  · refine ⟨fun ⟨e, he⟩ b hb => ?_, fun hnone => ?_⟩
    · rw [(regionBase_eq_ok m hinv a b).2 hb] at he
      cases he
    · rcases hr : m.regionBase a with e | b
      · exact ⟨e, rfl⟩
      · exact absurd ((regionBase_eq_ok m hinv a b).1 hr) (hnone b)

/-- The memory of the crate's tests : a heap of four pages. -/
def testMemory : GuestMemory where
  regions := SortedMap.empty.insert 0x100000000
    { base := 0x100000000, prot := .rw, kind := .heap, name := "heap",
      data := Buffer.replicate 0x10000 0 four_pages_le }
  mmapCursor := mmapTop
  heap := BumpAllocator.new 0x100000000 0x10000

theorem reachable_testMemory (p : Profile) : Reachable p testMemory := by
  cases p with
  | debug => exact @Reachable.new _ 0x100000000 0x10000 _ rfl
  | release => exact @Reachable.new _ 0x100000000 0x10000 _ rfl

/-- The heap, and two pages that `mmapAnon` has placed next to each other, the last four bytes of
the lower one set. -/
def adjacentMemory : GuestMemory where
  regions :=
    (SortedMap.empty.insert 0x100000000
      { base := 0x100000000, prot := .rw, kind := .heap, name := "heap",
        data := Buffer.replicate 0x10000 0 four_pages_le }).insert 0x1ffffc000
      { base := 0x1ffffc000, prot := .rw, kind := .anonymous, name := "mmap",
        data := Buffer.replicate 0x4000 0 (by decide) } |>.insert 0x1ffff8000
      { base := 0x1ffff8000, prot := .rw, kind := .anonymous, name := "mmap",
        data := (Buffer.replicate 0x4000 0 (by decide)).overwrite 0x3ffc [1, 2, 3, 4] }
  mmapCursor := 0x1ffff8000
  heap := BumpAllocator.new 0x100000000 0x10000

theorem reachable_adjacentMemory : Reachable .release adjacentMemory := by
  have h₀ := reachable_testMemory .release
  have h₁ := Reachable.call (.mmapAnon 0x4000 .rw) h₀ rfl
  have h₂ := Reachable.call (.mmapAnon 0x4000 .rw) h₁ rfl
  exact Reachable.call (.write 0x1ffffbffc [1, 2, 3, 4]) h₂ rfl

/-- The two pages do not overlap, and the last byte of the lower one is in no other region. -/
theorem layout_of_reachable_adjacentMemory :
    Reachable .release adjacentMemory ∧
      (∃ r r', adjacentMemory.regions.get? 0x1ffff8000 = some r ∧
        adjacentMemory.regions.get? 0x1ffffc000 = some r' ∧
        (0x1ffff8000 : U64).toNat + r.data.size ≤ (0x1ffffc000 : U64).toNat) ∧
      (adjacentMemory.Holds 0x1ffff8000 0x1ffffbfff ∧
        ∀ b, adjacentMemory.Holds b 0x1ffffbfff → b = 0x1ffff8000) ∧
      ∀ b, ¬adjacentMemory.Holds b 0x200000000 := by
  obtain ⟨-, hapart, hfound, hnone⟩ :=
    layout_of_reachable .release adjacentMemory reachable_adjacentMemory
  refine ⟨reachable_adjacentMemory, ⟨_, _, rfl, rfl, hapart _ _ _ _ rfl rfl (by decide)⟩,
    (hfound _ _).1 rfl, (hnone _).1 ⟨_, rfl⟩⟩

/-! ## Mapping over an existing base -/

/-- A call of one of the methods that map a region. -/
inductive MapCall
  | map (base size : U64) (prot : Protection) (kind : RegionKind) (name : String)
  | mapWithData (base size : U64) (data : List U8) (prot : Protection) (kind : RegionKind)
      (name : String)
  | mmapAnon (size : U64) (prot : Protection)

/-- What a mapping call asks for : a base, a size rounded to pages, the first bytes, and
the protection and kind of the region. -/
structure MapRequest where
  base : U64
  size : U64
  data : List U8
  prot : Protection
  kind : RegionKind

namespace MapCall

/-- The memory after the call, if it succeeds in a release build. -/
def runOk (m : GuestMemory) : MapCall → Option GuestMemory
  | map base size prot kind name =>
    (GuestMemory.map .release base size prot kind name m).okState?
  | mapWithData base size data prot kind name =>
    (GuestMemory.mapWithData .release base size data prot kind name m).okState?
  | mmapAnon size prot => (GuestMemory.mmapAnon .release size prot m).okState?

/-- The request of a call. `mmapAnon` takes its base below the cursor, and `map` rounds
the size it is handed once more; there is no request if the arena is exhausted. -/
def request (m : GuestMemory) : MapCall → Option MapRequest
  | map base size prot kind _ => some ⟨base, pageRound (max size 1), [], prot, kind⟩
  | mapWithData base size data prot kind _ =>
    some ⟨base, pageRound (max size (BitVec.ofNat 64 data.length)), data, prot, kind⟩
  | mmapAnon size prot =>
    (checkedSub m.mmapCursor (pageRound (max size 1))).map fun low =>
      ⟨low &&& ~~~0x3fff, pageRound (max (pageRound (max size 1)) 1), [], prot, .anonymous⟩

end MapCall

namespace MapRequest

/-- The checks a request passes besides the look at the region at its own base : it fits
the address space and the allocator, holds its data, and no region starts inside it. -/
structure Admitted (m : GuestMemory) (q : MapRequest) : Prop where
  fits : q.base.toNat + q.size.toNat < 2 ^ 64
  alloc : q.size.toNat ≤ isizeMax
  holds : q.data.length ≤ q.size.toNat
  free : ∀ k r, m.regions.get? k = some r → q.base < k →
    q.base.toNat + q.size.toNat ≤ k.toNat

/-- The request takes the place of another region : its base is the base of a region, one
of the two is empty, the other checks pass, and the two are not alike. -/
def Replaces (m : GuestMemory) (q : MapRequest) : Prop :=
  q.Admitted m ∧ ∃ r, m.regions.get? q.base = some r ∧ (q.size = 0 ∨ r.data.size = 0) ∧
    ¬(q.size = 0 ∧ r.data.size = 0 ∧ r.prot = q.prot ∧ r.kind = q.kind)

end MapRequest

/-- Every region of `m` is in `m'`, with its base, protection, kind and bytes. -/
def Keeps (m m' : GuestMemory) : Prop :=
  ∀ k r, m.regions.get? k = some r → ∃ r', m'.regions.get? k = some r' ∧
    r'.base = r.base ∧ r'.prot = r.prot ∧ r'.kind = r.kind ∧ r'.data = r.data

/-- A call that succeeds puts its region into a span that was found free. -/
theorem regions_of_runOk {m m' : GuestMemory} {c : MapCall} (h : c.runOk m = some m') :
    ∃ q name, ∃ hs : q.size.toNat ≤ isizeMax, c.request m = some q ∧
      m.checkFree q.base q.size = .ok () ∧ q.data.length ≤ q.size.toNat ∧
      m'.regions = m.regions.insert q.base
        ⟨q.base, q.prot, q.kind, name, Buffer.ofPrefix q.size.toNat q.data 0 hs⟩ := by
  cases c with
  | map base size prot kind name =>
    obtain ⟨u, h⟩ := Outcome.okState?_eq_some.1 h
    obtain ⟨s, hs, hfree, hle, rfl⟩ := map_eq_ok.1 h
    rw [alignUp_release, Except.ok.injEq] at hs
    subst hs
    exact ⟨_, name, hle, rfl, hfree, Nat.zero_le _, rfl⟩
  | mapWithData base size data prot kind name =>
    obtain ⟨u, h⟩ := Outcome.okState?_eq_some.1 h
    obtain ⟨s, hs, hfree, hlen, hle, rfl⟩ := mapWithData_eq_ok.1 h
    rw [alignUp_release, Except.ok.injEq] at hs
    subst hs
    exact ⟨_, name, hle, rfl, hfree, hlen, rfl⟩
  | mmapAnon size prot =>
    obtain ⟨base, h⟩ := Outcome.okState?_eq_some.1 h
    obtain ⟨s, low, m₁, hs, hlow, hbase, hmap, rfl⟩ := mmapAnon_eq_ok.1 h
    obtain ⟨s', hs', hfree, hle, rfl⟩ := map_eq_ok.1 hmap
    rw [alignUp_release, Except.ok.injEq] at hs hs'
    rw [alignDown_release, Except.ok.injEq] at hbase
    subst hs hs' hbase
    exact ⟨_, "mmap", hle, by rw [MapCall.request, hlow]; rfl, hfree, Nat.zero_le _, rfl⟩

/-- A request that passes the checks is carried out. -/
theorem runOk_of_request {m : GuestMemory} {c : MapCall} {q : MapRequest}
    (hq : c.request m = some q) (hfree : m.checkFree q.base q.size = .ok ())
    (hlen : q.data.length ≤ q.size.toNat) (hs : q.size.toNat ≤ isizeMax) :
    ∃ m', c.runOk m = some m' := by
  cases c with
  | map base size prot kind name =>
    obtain rfl := Option.some.inj hq
    have hmap : GuestMemory.map .release base size prot kind name m = .ok () _ :=
      map_eq_ok.2 ⟨_, alignUp_release _, hfree, hs, rfl⟩
    exact ⟨_, Outcome.okState?_eq_some.2 ⟨(), hmap⟩⟩
  | mapWithData base size data prot kind name =>
    obtain rfl := Option.some.inj hq
    have hmap : GuestMemory.mapWithData .release base size data prot kind name m = .ok () _ :=
      mapWithData_eq_ok.2 ⟨_, alignUp_release _, hfree, hlen, hs, rfl⟩
    exact ⟨_, Outcome.okState?_eq_some.2 ⟨(), hmap⟩⟩
  | mmapAnon size prot =>
    obtain ⟨low, hlow, rfl⟩ := Option.map_eq_some_iff.1 hq
    have hmap : GuestMemory.map .release (low &&& ~~~0x3fff) (pageRound (max size 1)) prot
        .anonymous "mmap" m = .ok () _ :=
      map_eq_ok.2 ⟨_, alignUp_release _, hfree, hs, rfl⟩
    have hanon : GuestMemory.mmapAnon .release size prot m = .ok _ _ := mmapAnon_eq_ok.2
      ⟨_, low, _, alignUp_release _, hlow, alignDown_release _, hmap, rfl⟩
    exact ⟨_, Outcome.okState?_eq_some.2 ⟨_, hanon⟩⟩

/-- Where a region already starts, `checkFree` passes exactly if one of the two is empty
and the new span ends inside the address space and before the next region. -/
theorem Inv.checkFree_at_base {m : GuestMemory} (h : m.Inv) {base size : U64} {r : Region}
    (hr : m.regions.get? base = some r) :
    m.checkFree base size = .ok () ↔
      base.toNat + size.toNat < 2 ^ 64 ∧ (size = 0 ∨ r.data.size = 0) ∧
        ∀ k w, m.regions.get? k = some w → base < k →
          base.toNat + size.toNat ≤ k.toNat := by
  have hend := (h.fits base r hr).toNat_endAddr
  rw [h.base_eq base r hr] at hend
  rw [checkFree_eq_ok]
  refine ⟨fun ⟨stop, hstop, hlast⟩ => ?_, fun ⟨hfits, hempty, hnext⟩ => ?_⟩
  · have hfree := h.endAddr_le hlast
    refine ⟨hstop ▸ stop.isLt, ?_, fun k w hk hlt => ?_⟩
    · rcases h.tiles.free_of_lastLT hfree hr with ⟨-, hle⟩ | hge
      · have := BitVec.le_def.1 hle
        exact Or.inr (by omega)
      · have := BitVec.le_def.1 hge
        have hzero : size.toNat = 0 := by omega
        exact Or.inl (BitVec.eq_of_toNat_eq hzero)
    · rcases h.tiles.free_of_lastLT hfree hk with ⟨hle, -⟩ | hge
      · exact absurd hlt (not_lt.2 hle)
      · exact hstop ▸ BitVec.le_def.1 hge
  · refine ⟨BitVec.ofNat 64 (base.toNat + size.toNat), ?_, fun k w hk hover => ?_⟩
    · rw [BitVec.toNat_ofNat, Nat.mod_eq_of_lt hfits]
    · obtain ⟨hget, hlt, -⟩ := SortedMap.lastLT_eq_some_iff.1 hk
      have hlt' := BitVec.lt_def.1 hlt
      rw [BitVec.toNat_ofNat, Nat.mod_eq_of_lt hfits] at hlt'
      have hover' := BitVec.lt_def.1 hover.2
      rw [(h.fits k w hget).toNat_endAddr, h.base_eq k w hget] at hover'
      rcases lt_trichotomy k base with hkb | rfl | hkb
      · have := h.end_le hget hr hkb
        omega
      · obtain rfl : w = r := Option.some.inj (hget.symm.trans hr)
        rcases hempty with rfl | hzero
        · simp at hlt'
        · omega
      · have := hnext k w hget hkb
        omega

/-- In a release build, a mapping call that succeeds keeps every region, unless its base is
the base of a region, one of the two is empty and the two are not alike. -/
theorem keeps_iff_not_replaces (m : GuestMemory) (h : Reachable .release m) (c : MapCall) :
    (∀ m', c.runOk m = some m' → Keeps m m') ↔
      ∀ q, c.request m = some q → ¬q.Replaces m := by
  have hinv := h.inv
  refine ⟨fun hkeep q hq hrep => ?_, fun hno m' hrun k r hk => ?_⟩
  · obtain ⟨⟨hfits, halloc, hdata, hnext⟩, r, hr, hempty, hdiff⟩ := hrep
    have hfree := (hinv.checkFree_at_base hr).2 ⟨hfits, hempty, hnext⟩
    obtain ⟨m', hrun⟩ := runOk_of_request hq hfree hdata halloc
    obtain ⟨q', name, hs, hq', -, -, hregions⟩ := regions_of_runOk hrun
    obtain rfl : q = q' := Option.some.inj (hq.symm.trans hq')
    obtain ⟨r', hr', -, hprot, hkind, hbytes⟩ := hkeep m' hrun q.base r hr
    rw [hregions, SortedMap.get?_insert_self] at hr'
    obtain rfl := Option.some.inj hr'
    have hsize : q.size.toNat = r.data.size := congrArg Buffer.size hbytes
    have hzero : r.data.size = 0 := hempty.elim (fun h0 => by rw [← hsize, h0]; rfl) id
    have hq0 : q.size = 0 := BitVec.eq_of_toNat_eq (hsize.trans hzero)
    exact hdiff ⟨hq0, hzero, hprot.symm, hkind.symm⟩
  · obtain ⟨q, name, hs, hq, hfree, hlen, hregions⟩ := regions_of_runOk hrun
    by_cases hkq : k = q.base
    · subst hkq
      obtain ⟨hfits, hempty, hnext⟩ := (hinv.checkFree_at_base hk).1 hfree
      have hsame : q.size = 0 ∧ r.data.size = 0 ∧ r.prot = q.prot ∧ r.kind = q.kind := by
        by_contra hdiff
        exact hno q hq ⟨⟨hfits, hs, hlen, hnext⟩, r, hk, hempty, hdiff⟩
      obtain ⟨hq0, hr0, hprot, hkind⟩ := hsame
      refine ⟨_, by rw [hregions, SortedMap.get?_insert_self], (hinv.base_eq _ r hk).symm,
        hprot.symm, hkind.symm, ?_⟩
      have hsize : q.size.toNat = 0 := by rw [hq0]; rfl
      exact Buffer.ext_get? (hsize.trans hr0.symm) fun i hi => absurd hi (by simp [hsize])
    · exact ⟨r, by rw [hregions, SortedMap.get?_insert_of_ne _ _ hkq, hk], rfl, rfl, rfl, rfl⟩

/-- An anonymous page is placed below the cursor, and the heap stays. -/
theorem keeps_heap_of_mmapAnon :
    Reachable .release testMemory ∧
      ∃ m', (MapCall.mmapAnon 0x4000 .rw).runOk testMemory = some m' ∧ Keeps testMemory m' ∧
        ∃ r, m'.regions.get? 0x1ffffc000 = some r ∧ testMemory.regions.get? 0x1ffffc000 = none := by
  have hreach := reachable_testMemory .release
  refine ⟨hreach, _, rfl, (keeps_iff_not_replaces testMemory hreach (.mmapAnon 0x4000 .rw)).2 ?_ _
    rfl, _, rfl, rfl⟩
  rintro q hq ⟨-, r, hr, -⟩
  obtain rfl := Option.some.inj hq
  cases hr

/-- A segment of no bytes at the base of the heap passes the check, and the heap is gone. -/
theorem mapWithData_loses_heap :
    Reachable .release testMemory ∧
      ∃ m', (MapCall.mapWithData 0x100000000 0 [] .rw .segment "__DATA").runOk testMemory
        = some m' ∧ ¬Keeps testMemory m' := by
  refine ⟨reachable_testMemory .release, _, rfl, fun hkeep => ?_⟩
  obtain ⟨r, hr, -, -, -, hdata⟩ := hkeep 0x100000000 _ rfl
  obtain rfl : _ = r := Option.some.inj hr
  exact absurd (congrArg Buffer.size hdata) (by decide)

end GuestMemory

end IosEmu
