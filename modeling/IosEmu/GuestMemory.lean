import IosEmu.Region
import IosEmu.SortedMap
import IosEmu.Utf8

/-!
# The guest address space

`GuestMemory` is an ordered map from base addresses to regions, a cursor for anonymous
mappings, and the heap arena. Methods that take `&self` are functions of the memory;
methods that take `&mut self` are programs over it, and an error leaves the memory as the
method left it.

`Change` says once what a call can do to the memory : nothing, place a region in a span
that `checkFree` found free, set a region's protection, store bytes in a region, or move
the heap cursor. The `change_` theorems say that each method does one of these.
-/

open SysLib

namespace IosEmu

/-- The emulated address space of one process. -/
structure GuestMemory where
  regions : SortedMap U64 Region
  mmapCursor : U64
  heap : BumpAllocator

/-- A method of the memory that takes `&mut self`. -/
abbrev MemM := Prog EmuError Panic GuestMemory

namespace GuestMemory

/-- The top of the arena for anonymous mappings. -/
def mmapTop : U64 := 0x200000000

/-! ## Lookup -/

/-- The base of the region that holds `addr`. -/
def regionBase (m : GuestMemory) (addr : U64) : EmuResult U64 :=
  match m.regions.lastLE addr with
  | some (base, region) =>
    if region.contains addr then .ok base else .error (.memory addr "unmapped")
  | none => .error (.memory addr "unmapped")

/-- The bytes of `[addr, addr + len)` in the region at or below `addr`. -/
def slice (m : GuestMemory) (addr : U64) (len : ℕ) (need : Protection) :
    EmuResult (List U8) :=
  match m.regions.lastLE addr with
  | some (_, region) => region.subslice addr len need
  | none => .error (.memory addr "unmapped")

/-- The region at or below `addr` with its key, and the offsets `[off, end)` in it borrowed
for writing `[addr, addr + len)`. -/
def sliceMut (m : GuestMemory) (addr : U64) (len : ℕ) (need : Protection) :
    EmuResult (U64 × Region × ℕ × ℕ) :=
  match m.regions.lastLE addr with
  | some (key, region) => do
    let (off, stop) ← region.subsliceMut addr len need
    return (key, region, off, stop)
  | none => .error (.memory addr "unmapped")

/-- Check that `[base, base + size)` overlaps no region. -/
def checkFree (m : GuestMemory) (base size : U64) : EmuResult Unit :=
  match checkedAdd base size with
  | none => .error (.memory base "map overflow")
  | some stop =>
    match m.regions.lastLT stop with
    | some (_, r) =>
      if r.base < stop ∧ base < r.endAddr then
        .error (.memory base "map overlaps existing region")
      else .ok ()
    | none => .ok ()

/-! ## Mapping -/

/-- Map a fresh, zero-filled region. `size` is rounded up to a page. -/
def map (p : Profile) (base size : U64) (prot : Protection) (kind : RegionKind)
    (name : String) : MemM Unit := do
  let size ← Prog.ofChecked (alignUp p (max size 1) pageSize)
  let m ← Prog.get
  Prog.ofResult (m.checkFree base size)
  let region ← Prog.ofChecked (Region.newZeroed base size prot kind name)
  Prog.modify fun m => { m with regions := m.regions.insert base region }

/-- Map a region that starts with `data`; the tail is zero-filled. -/
def mapWithData (p : Profile) (base size : U64) (data : List U8) (prot : Protection)
    (kind : RegionKind) (name : String) : MemM Unit := do
  let size ← Prog.ofChecked (alignUp p (max size (BitVec.ofNat 64 data.length)) pageSize)
  let m ← Prog.get
  Prog.ofResult (m.checkFree base size)
  let region ← Region.newFrom base size data prot kind name
  Prog.modify fun m => { m with regions := m.regions.insert base region }

/-- Anonymous mapping, top-down from `mmapTop`. Returns the chosen base. -/
def mmapAnon (p : Profile) (size : U64) (prot : Protection) : MemM U64 := do
  let size ← Prog.ofChecked (alignUp p (max size 1) pageSize)
  let m ← Prog.get
  match checkedSub m.mmapCursor size with
  | none => Prog.fail (.memory size "mmap arena exhausted")
  | some base =>
    let base ← Prog.ofChecked (alignDown p base pageSize)
    map p base size prot .anonymous "mmap"
    Prog.modify fun m => { m with mmapCursor := base }
    return base

/-- An address space with a heap arena mapped at `heapBase`. -/
def new (p : Profile) (heapBase heapSize : U64) : Outcome EmuError Panic GuestMemory Unit :=
  let create : MemM Unit := do
    let size ← Prog.ofChecked (alignUp p heapSize pageSize)
    map p heapBase size .rw .heap "heap"
  create
    { regions := .empty, mmapCursor := mmapTop, heap := BumpAllocator.new heapBase heapSize }

/-! ## Protection and the heap -/

/-- `regions.get(&base).unwrap()`. -/
def unwrapRegion (m : GuestMemory) (base : U64) : Except Panic Region :=
  match m.regions.get? base with
  | some region => .ok region
  | none => .error .unwrapOnNone

/-- Change the protection of the region that holds `addr`. On device the kernel is asked
after the change, and its refusal is an error. -/
def protect (target : Target) (addr : U64) (prot : Protection) : MemM Unit := do
  let m ← Prog.get
  let base ← Prog.ofResult (m.regionBase addr)
  let region ← Prog.ofChecked (m.unwrapRegion base)
  Prog.modify fun m => { m with regions := m.regions.insert base { region with prot } }
  match target with
  | .host => return ()
  | .android nativeProtect =>
    if nativeProtect base region.data.size (prot.bits.setWidth 32) ≠ 0 then
      Prog.fail (.memory base "native mprotect failed")
    else return ()

/-- Publish a region to its native reservation : on device only, and the memory itself
does not change. -/
def commitToNative (target : Target) (addr : U64) : MemM Unit := do
  match target with
  | .host => return ()
  | .android _ =>
    let m ← Prog.get
    let base ← Prog.ofResult (m.regionBase addr)
    let _ ← Prog.ofChecked (m.unwrapRegion base)
    return ()

/-- Allocate from the managed heap. -/
def heapAlloc (p : Profile) (size align : U64) : MemM U64 :=
  Prog.zoom GuestMemory.heap (fun heap m => { m with heap }) (BumpAllocator.alloc p size align)

/-! ## Typed accessors -/

/-- Read `len` bytes at `addr`. -/
def read (m : GuestMemory) (addr : U64) (len : ℕ) : EmuResult (List U8) :=
  m.slice addr len .read

/-- The memory with `data` stored from offset `off` on in the region `r` at `key`. -/
def store (m : GuestMemory) (key : U64) (r : Region) (off : ℕ) (data : List U8) :
    GuestMemory :=
  { m with regions := m.regions.insert key { r with data := r.data.overwrite off data } }

/-- Write `data` at `addr`, honouring write protection. -/
def write (addr : U64) (data : List U8) : MemM Unit := do
  let m ← Prog.get
  let (key, region, off, _) ← Prog.ofResult (m.sliceMut addr data.length .write)
  Prog.modify fun m => m.store key region off data

def readU8 (m : GuestMemory) (addr : U64) : EmuResult U8 := do
  return fromLeBytes 8 (← m.read addr 1)

def readU32 (m : GuestMemory) (addr : U64) : EmuResult U32 := do
  return fromLeBytes 32 (← m.read addr 4)

def readU64 (m : GuestMemory) (addr : U64) : EmuResult U64 := do
  return fromLeBytes 64 (← m.read addr 8)

def writeU32 (addr : U64) (v : U32) : MemM Unit :=
  write addr (toLeBytes32 v)

def writeU64 (addr : U64) (v : U64) : MemM Unit :=
  write addr (toLeBytes64 v)

/-- The bytes before the first NUL of at most `max` bytes at `cur`. -/
def cstrBytes (m : GuestMemory) : ℕ → U64 → EmuResult (List U8)
  | 0, _ => .ok []
  | max + 1, cur => do
    let b ← m.readU8 cur
    if b = 0 then return []
    else return b :: (← cstrBytes m max (cur + 1))

/-- Read a NUL-terminated C string of at most `max` bytes. -/
def readCstr (m : GuestMemory) (addr : U64) (max : ℕ) : EmuResult String := do
  return fromUtf8Lossy (← m.cstrBytes max addr)

/-! ## What a call can do -/

/-- The effects a call can have on the memory. -/
inductive Change (m : GuestMemory) : GuestMemory → Prop
  | same : Change m m
  | place (r : Region) : m.checkFree r.base r.size = .ok () →
      Change m { m with regions := m.regions.insert r.base r }
  | placeAnon (r : Region) : m.checkFree r.base r.size = .ok () →
      Change m { m with regions := m.regions.insert r.base r, mmapCursor := r.base }
  | setProt (key : U64) (r : Region) (prot : Protection) : m.regions.get? key = some r →
      Change m { m with regions := m.regions.insert key { r with prot } }
  | store (key : U64) (r : Region) (off : ℕ) (data : List U8) :
      m.regions.get? key = some r → Change m (m.store key r off data)
  | heap (h : BumpAllocator) : Change m { m with heap := h }

theorem get?_of_lastLE {m : GuestMemory} {a key : U64} {r : Region}
    (h : m.regions.lastLE a = some (key, r)) : m.regions.get? key = some r :=
  (SortedMap.lastLE_eq_some_iff.1 h).1

/-- `map` returns exactly when its span is free and can be allocated. -/
theorem map_eq_ok {p : Profile} {base size : U64} {prot : Protection} {kind : RegionKind}
    {name : String} {m m' : GuestMemory} :
    map p base size prot kind name m = .ok () m' ↔
      ∃ s, alignUp p (max size 1) pageSize = .ok s ∧ m.checkFree base s = .ok () ∧
        ∃ hs : s.toNat ≤ isizeMax,
          m' = { m with
            regions := m.regions.insert base
              { base, prot, kind, name, data := Buffer.replicate s.toNat 0 hs } } := by
  unfold map
  simp only [Prog.ofChecked_bind_eq_ok, Prog.get_bind, Prog.ofResult_bind_eq_ok,
    Prog.modify_apply, Outcome.ok.injEq, true_and, Region.newZeroed_eq_ok_iff]
  refine exists_congr fun s => and_congr_right fun _ => ⟨?_, ?_⟩
  · rintro ⟨u, hfree, r, ⟨hs, rfl⟩, rfl⟩
    exact ⟨hfree, hs, rfl⟩
  · rintro ⟨hfree, hs, rfl⟩
    exact ⟨(), hfree, _, ⟨hs, rfl⟩, rfl⟩

/-- `mapWithData` returns exactly when its span is free, can be allocated and holds the
data. -/
theorem mapWithData_eq_ok {p : Profile} {base size : U64} {data : List U8} {prot : Protection}
    {kind : RegionKind} {name : String} {m m' : GuestMemory} :
    mapWithData p base size data prot kind name m = .ok () m' ↔
      ∃ s, alignUp p (max size (BitVec.ofNat 64 data.length)) pageSize = .ok s ∧
        m.checkFree base s = .ok () ∧ data.length ≤ s.toNat ∧
        ∃ hs : s.toNat ≤ isizeMax,
          m' = { m with
            regions := m.regions.insert base
              { base, prot, kind, name, data := Buffer.ofPrefix s.toNat data 0 hs } } := by
  unfold mapWithData
  simp only [Prog.ofChecked_bind_eq_ok, Prog.get_bind, Prog.ofResult_bind_eq_ok]
  simp only [Prog.bind_eq_ok, Prog.modify_apply, Outcome.ok.injEq, true_and,
    Region.newFrom_eq_ok_iff]
  refine exists_congr fun s => and_congr_right fun _ => ⟨?_, ?_⟩
  · rintro ⟨u, hfree, r, m₁, ⟨rfl, hlen, hs, rfl⟩, rfl⟩
    exact ⟨hfree, hlen, hs, rfl⟩
  · rintro ⟨hfree, hlen, hs, rfl⟩
    exact ⟨(), hfree, _, m, ⟨rfl, hlen, hs, rfl⟩, rfl⟩

/-- `mmapAnon` is `map` below the cursor, and moves the cursor there. -/
theorem mmapAnon_eq_ok {p : Profile} {size base : U64} {prot : Protection}
    {m m' : GuestMemory} :
    mmapAnon p size prot m = .ok base m' ↔
      ∃ s low m₁, alignUp p (max size 1) pageSize = .ok s ∧
        checkedSub m.mmapCursor s = some low ∧ alignDown p low pageSize = .ok base ∧
        map p base s prot .anonymous "mmap" m = .ok () m₁ ∧
        m' = { m₁ with mmapCursor := base } := by
  unfold mmapAnon
  simp only [Prog.ofChecked_bind_eq_ok, Prog.get_bind]
  constructor
  · rintro ⟨s, hs, h⟩
    rcases hlow : checkedSub m.mmapCursor s with _ | low
    · simp [hlow] at h
    · simp only [hlow, Prog.ofChecked_bind_eq_ok] at h
      simp only [Prog.bind_eq_ok, Prog.modify_apply, Prog.pure_apply, Outcome.ok.injEq,
        true_and, exists_eq_left', exists_const] at h
      obtain ⟨b, hb, u, m₁, hmap, rfl, rfl⟩ := h
      exact ⟨s, low, m₁, hs, hlow, hb, hmap, rfl⟩
  · rintro ⟨s, low, m₁, hs, hlow, hb, hmap, rfl⟩
    refine ⟨s, hs, ?_⟩
    simp only [hlow, Prog.ofChecked_bind_eq_ok]
    simp only [Prog.bind_eq_ok, Prog.modify_apply, Prog.pure_apply, Outcome.ok.injEq,
      true_and, exists_eq_left', exists_const]
    exact ⟨base, hb, (), m₁, hmap, rfl, rfl⟩

theorem sliceMut_eq_ok {m : GuestMemory} {addr : U64} {len off stop : ℕ} {need : Protection}
    {key : U64} {r : Region} :
    m.sliceMut addr len need = .ok (key, r, off, stop) ↔
      m.regions.lastLE addr = some (key, r) ∧ r.subsliceMut addr len need = .ok (off, stop) := by
  unfold sliceMut
  rcases m.regions.lastLE addr with _ | ⟨key', r'⟩
  · simp
  · simp only [except_bind_eq_ok, pure, Except.pure, Except.ok.injEq, Prod.mk.injEq,
      Option.some.injEq]
    refine ⟨?_, ?_⟩
    · rintro ⟨⟨off', stop'⟩, h, rfl, rfl, rfl, rfl⟩
      exact ⟨⟨rfl, rfl⟩, h⟩
    · rintro ⟨⟨rfl, rfl⟩, h⟩
      exact ⟨(off, stop), h, rfl, rfl, rfl, rfl⟩

/-- A write goes to the region at or below its address, and needs the whole range there
and the right to write. -/
theorem write_eq_ok {addr : U64} {data : List U8} {m m' : GuestMemory} :
    write addr data m = .ok () m' ↔
      ∃ key r, m.regions.lastLE addr = some (key, r) ∧ r.base ≤ addr ∧
        addr.toNat + data.length ≤ r.base.toNat + r.data.size ∧
        r.prot.contains .write = true ∧
        m' = m.store key r (addr.toNat - r.base.toNat) data := by
  unfold write
  simp only [Prog.get_bind, Prog.ofResult_bind_eq_ok, Prog.modify_apply, Outcome.ok.injEq,
    true_and]
  constructor
  · rintro ⟨⟨key, r, off, stop⟩, h, rfl⟩
    obtain ⟨hl, hs⟩ := sliceMut_eq_ok.1 h
    obtain ⟨h₁, h₂, h₃, rfl, -⟩ := Region.subsliceMut_eq_ok_iff.1 hs
    exact ⟨key, r, hl, h₁, h₂, h₃, rfl⟩
  · rintro ⟨key, r, hl, h₁, h₂, h₃, rfl⟩
    have hs := Region.subsliceMut_eq_ok_iff.2 ⟨h₁, h₂, h₃, rfl, rfl⟩
    exact ⟨_, sliceMut_eq_ok.2 ⟨hl, hs⟩, rfl⟩

theorem read_eq_ok {m : GuestMemory} {addr : U64} {len : ℕ} {l : List U8} :
    m.read addr len = .ok l ↔
      ∃ key r, m.regions.lastLE addr = some (key, r) ∧ r.base ≤ addr ∧
        addr.toNat + len ≤ r.base.toNat + r.data.size ∧ r.prot.contains .read = true ∧
        l = r.data.slice (addr.toNat - r.base.toNat) len := by
  unfold read slice
  rcases m.regions.lastLE addr with _ | ⟨key, r⟩
  · simp
  · simp only [Region.subslice_eq_ok_iff, Option.some.injEq, Prod.mk.injEq]
    exact ⟨fun h => ⟨key, r, ⟨rfl, rfl⟩, h⟩, fun ⟨_, _, ⟨rfl, rfl⟩, h⟩ => h⟩

theorem length_of_read {m : GuestMemory} {a : U64} {n : ℕ} {l : List U8}
    (h : m.read a n = .ok l) : l.length = n := by
  obtain ⟨key, r, -, hle, hlen, -, rfl⟩ := read_eq_ok.1 h
  have := BitVec.le_def.1 hle
  exact Buffer.length_slice (by omega)

/-! ## Clean failures -/

theorem map_failsClean (p : Profile) (base size : U64) (prot : Protection) (kind : RegionKind)
    (name : String) : (map p base size prot kind name).FailsClean :=
  .bind_const (Prog.steps_ofChecked _) fun _ =>
    .bind_const Prog.steps_get fun _ =>
      .bind_const (Prog.steps_ofResult _) fun _ =>
        .bind_const (Prog.steps_ofChecked _) fun _ => Prog.failsClean_modify _

theorem mapWithData_failsClean (p : Profile) (base size : U64) (data : List U8)
    (prot : Protection) (kind : RegionKind) (name : String) :
    (mapWithData p base size data prot kind name).FailsClean := by
  have hnew : ∀ s, Prog.Steps Eq
      (Region.newFrom base s data prot kind name : MemM Region) := by
    intro s
    unfold Region.newFrom
    split_ifs
    · exact Prog.steps_fail _
    · exact (Prog.steps_ofChecked _).bind fun _ => Prog.steps_pure _
  exact .bind_const (Prog.steps_ofChecked _) fun _ =>
    .bind_const Prog.steps_get fun _ =>
      .bind_const (Prog.steps_ofResult _) fun _ =>
        .bind_const (hnew _) fun _ => Prog.failsClean_modify _

theorem mmapAnon_failsClean (p : Profile) (size : U64) (prot : Protection) :
    (mmapAnon p size prot).FailsClean := by
  refine .bind_const (Prog.steps_ofChecked _) fun s => .bind_const Prog.steps_get fun m => ?_
  split
  · exact .of_steps_eq (Prog.steps_fail _)
  · exact .bind_const (Prog.steps_ofChecked _) fun _ =>
      .bind_total (map_failsClean _ _ _ _ _ _) fun _ _ _ _ h => by cases h

theorem write_failsClean (addr : U64) (data : List U8) : (write addr data).FailsClean :=
  .bind_const Prog.steps_get fun _ =>
    .bind_const (Prog.steps_ofResult _) fun _ => Prog.failsClean_modify _

theorem write_ne_panic (addr : U64) (data : List U8) (m : GuestMemory) (e : Panic) :
    write addr data m ≠ .panic e := by
  unfold write
  rw [Prog.get_bind, Prog.bind_apply]
  rcases m.sliceMut addr data.length .write with e | q <;> simp

/-! ## Every method is one change -/

theorem change_map (p : Profile) (base size : U64) (prot : Protection) (kind : RegionKind)
    (name : String) : (map p base size prot kind name).Steps Change := by
  refine (map_failsClean _ _ _ _ _ _).steps (fun _ => .same) fun m u m' h => ?_
  obtain ⟨s, -, hfree, hs, rfl⟩ := map_eq_ok.1 h
  refine .place ⟨base, prot, kind, name, Buffer.replicate s.toNat 0 hs⟩ ?_
  rwa [show Region.size _ = s from BitVec.eq_of_toNat_eq (Region.toNat_size _)]

theorem change_mapWithData (p : Profile) (base size : U64) (data : List U8)
    (prot : Protection) (kind : RegionKind) (name : String) :
    (mapWithData p base size data prot kind name).Steps Change := by
  refine (mapWithData_failsClean _ _ _ _ _ _ _).steps (fun _ => .same) fun m u m' h => ?_
  obtain ⟨s, -, hfree, -, hs, rfl⟩ := mapWithData_eq_ok.1 h
  refine .place ⟨base, prot, kind, name, Buffer.ofPrefix s.toNat data 0 hs⟩ ?_
  rwa [show Region.size _ = s from BitVec.eq_of_toNat_eq (Region.toNat_size _)]

theorem change_mmapAnon (p : Profile) (size : U64) (prot : Protection) :
    (mmapAnon p size prot).Steps Change := by
  refine (mmapAnon_failsClean _ _ _).steps (fun _ => .same) fun m base m' h => ?_
  obtain ⟨_, low, m₁, -, -, -, hmap, rfl⟩ := mmapAnon_eq_ok.1 h
  obtain ⟨s, -, hfree, hs, rfl⟩ := map_eq_ok.1 hmap
  refine .placeAnon ⟨base, prot, .anonymous, "mmap", Buffer.replicate s.toNat 0 hs⟩ ?_
  rwa [show Region.size _ = s from BitVec.eq_of_toNat_eq (Region.toNat_size _)]

theorem change_write (addr : U64) (data : List U8) : (write addr data).Steps Change := by
  refine (write_failsClean _ _).steps (fun _ => .same) fun m u m' h => ?_
  obtain ⟨key, r, hl, -, -, -, rfl⟩ := write_eq_ok.1 h
  exact .store key r _ _ (get?_of_lastLE hl)

theorem unwrapRegion_eq_ok {m : GuestMemory} {base : U64} {r : Region} :
    m.unwrapRegion base = .ok r ↔ m.regions.get? base = some r := by
  unfold unwrapRegion
  cases m.regions.get? base <;> simp

/-- `protect` sets the protection before it asks the kernel, so a refusal does not undo
it. -/
theorem protect_cases {target : Target} {addr : U64} {prot : Protection} {m m' : GuestMemory}
    (h : (protect target addr prot m).state? = some m') :
    m' = m ∨ ∃ key r, m.regions.get? key = some r ∧
      m' = { m with regions := m.regions.insert key { r with prot } } := by
  unfold protect at h
  rw [Prog.get_bind, Prog.bind_apply] at h
  rcases hb : m.regionBase addr with e | base
  · rw [hb] at h
    exact Or.inl (Option.some.inj h).symm
  · rw [hb, Prog.ofResult_ok] at h
    dsimp only at h
    rw [Prog.bind_apply] at h
    rcases hr : m.unwrapRegion base with e | r
    · rw [hr] at h
      cases h
    · rw [hr, Prog.ofChecked_ok] at h
      refine Or.inr ⟨base, r, unwrapRegion_eq_ok.1 hr, ?_⟩
      dsimp only [Prog.modify_bind] at h
      rcases target with _ | nativeProtect
      · exact (Option.some.inj h).symm
      · dsimp only at h
        split_ifs at h
        · exact (Option.some.inj h).symm
        · exact (Option.some.inj h).symm

theorem change_protect (target : Target) (addr : U64) (prot : Protection) :
    (protect target addr prot).Steps Change := by
  intro m m' h
  rcases protect_cases h with rfl | ⟨key, r, hr, rfl⟩
  · exact .same
  · exact .setProt key r prot hr

theorem change_heapAlloc (p : Profile) (size align : U64) :
    (heapAlloc p size align).Steps Change := by
  intro m m' h
  unfold heapAlloc Prog.zoom at h
  rcases hx : BumpAllocator.alloc p size align m.heap with ⟨a, k⟩ | ⟨e, k⟩ | e <;> rw [hx] at h
  · obtain rfl := Option.some.inj h
    exact .heap k
  · obtain rfl := Option.some.inj h
    exact .heap k
  · cases h

end GuestMemory

end IosEmu
