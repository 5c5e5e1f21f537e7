import IosEmu.AddressSpace

/-!
# A flat byte memory

What the regions are for : a memory with one byte for every mapped address. `FlatMemory`
holds the layout of the regions without their bytes, and the bytes by address. A range is
granted if the region at or below its first address holds all of it and has the right;
a write then replaces the bytes of its range and nothing else.

`GuestMemory.flat` forgets how the bytes are stored. In every reachable memory `read`
returns the flat bytes of a range that is granted, and `write` is the flat write
(`flat_of_write`), so that reads after a write, and the typed accessors, are facts about
flat memories.
-/

open SysLib

namespace IosEmu

/-- What a region is apart from its bytes. -/
structure Shape where
  base : U64
  size : ℕ
  prot : Protection
  kind : RegionKind
  name : String

/-- Where the regions lie, and the byte at each mapped address. -/
@[ext]
structure FlatMemory where
  layout : U64 → Option Shape
  byte : ℕ → Option U8

namespace FlatMemory

/-- The region at `k` is the one at or below `a`. -/
def Nearest (f : FlatMemory) (a k : U64) (s : Shape) : Prop :=
  f.layout k = some s ∧ k ≤ a ∧ ∀ k' s', f.layout k' = some s' → k' ≤ a → k' ≤ k

/-- The region at or below `a` holds `[a, a + n)` and has the right `need`. -/
def Grants (f : FlatMemory) (a : U64) (n : ℕ) (need : Protection) : Prop :=
  ∃ k s, f.Nearest a k s ∧ a.toNat + n ≤ k.toNat + s.size ∧ s.prot.contains need = true

/-- What is granted depends on the layout only. -/
theorem grants_congr {f g : FlatMemory} (h : f.layout = g.layout) {a : U64} {n : ℕ}
    {need : Protection} : f.Grants a n need ↔ g.Grants a n need := by
  simp only [Grants, Nearest, h]

/-- The bytes from `a` on are `l`. -/
def Reads (f : FlatMemory) (a : U64) (l : List U8) : Prop :=
  ∀ i < l.length, f.byte (a.toNat + i) = l[i]?

/-- The memory with the bytes from `a` on replaced by `d`. -/
def write (f : FlatMemory) (a : U64) (d : List U8) : FlatMemory :=
  { f with
    byte := fun x =>
      if a.toNat ≤ x ∧ x < a.toNat + d.length then d[x - a.toNat]? else f.byte x }

theorem Reads.unique {f : FlatMemory} {a : U64} {l l' : List U8} (h : f.Reads a l)
    (h' : f.Reads a l') (hlen : l.length = l'.length) : l = l' := by
  refine List.ext_getElem? fun i => ?_
  rcases lt_or_ge i l.length with hi | hi
  · rw [← h i hi, h' i (hlen ▸ hi)]
  · rw [List.getElem?_eq_none hi, List.getElem?_eq_none (hlen ▸ hi)]

/-- What is read holds what is read in the middle of it. -/
theorem Reads.mid {f : FlatMemory} {a : U64} {l₁ l₂ l₃ : List U8} (h : f.Reads a (l₁ ++ l₂ ++ l₃))
    (hfit : a.toNat + l₁.length < 2 ^ 64) : f.Reads (a + BitVec.ofNat 64 l₁.length) l₂ := by
  intro i hi
  have hadd : (a + BitVec.ofNat 64 l₁.length).toNat = a.toNat + l₁.length := by
    rw [BitVec.toNat_add, BitVec.toNat_ofNat]
    omega
  have hmid := h (l₁.length + i) (by simp only [List.length_append]; omega)
  rw [List.append_assoc, List.getElem?_append_right (Nat.le_add_right _ _),
    Nat.add_sub_cancel_left, List.getElem?_append_left hi] at hmid
  rw [hadd, Nat.add_assoc]
  exact hmid

/-- Written bytes are read. -/
theorem reads_write_self (f : FlatMemory) (a : U64) (d : List U8) : (f.write a d).Reads a d := by
  intro i hi
  dsimp only [FlatMemory.write]
  rw [if_pos ⟨Nat.le_add_right _ _, by omega⟩, Nat.add_sub_cancel_left]

/-- Bytes read after a write are the bytes before, with the written ones laid over them. -/
theorem Reads.write {f : FlatMemory} {a b : U64} {d l : List U8} (h : f.Reads b l) :
    (f.write a d).Reads b (Buffer.overlay l b.toNat a.toNat d) := by
  intro i hi
  rw [Buffer.length_overlay] at hi
  rw [Buffer.getElem?_overlay, ← h i hi]
  dsimp only [FlatMemory.write]
  have hget : f.byte (b.toNat + i) = some l[i] := by rw [h i hi, List.getElem?_eq_getElem hi]
  rw [hget, Option.map_some]
  by_cases hlo : a.toNat ≤ b.toNat + i
  · rw [if_pos hlo]
    rcases lt_or_ge (b.toNat + i - a.toNat) d.length with hlt | hge
    · rw [if_pos ⟨hlo, by omega⟩, List.getD_eq_getElem _ _ hlt, List.getElem?_eq_getElem hlt]
    · rw [if_neg (by omega), List.getD_eq_default _ _ hge]
  · rw [if_neg hlo, if_neg fun h => hlo h.1]

end FlatMemory

/-- A region without its bytes. -/
def Region.shape (r : Region) : Shape :=
  ⟨r.base, r.data.size, r.prot, r.kind, r.name⟩

namespace GuestMemory

/-- The flat memory of an address space. -/
def flat (m : GuestMemory) : FlatMemory where
  layout k := (m.regions.get? k).map Region.shape
  byte x := (m.regions.lastLE (BitVec.ofNat 64 x)).bind fun e => e.2.data.get? (x - e.1.toNat)

variable {m m' : GuestMemory}

theorem layout_flat_eq_some {k : U64} {s : Shape} :
    m.flat.layout k = some s ↔ ∃ r, m.regions.get? k = some r ∧ r.shape = s :=
  Option.map_eq_some_iff

theorem nearest_flat {a k : U64} {s : Shape} :
    m.flat.Nearest a k s ↔ ∃ r, m.regions.lastLE a = some (k, r) ∧ r.shape = s := by
  refine ⟨fun ⟨hk, hle, hmax⟩ => ?_, fun ⟨r, hl, hs⟩ => ?_⟩
  · obtain ⟨r, hr, hs⟩ := layout_flat_eq_some.1 hk
    refine ⟨r, SortedMap.lastLE_eq_some_iff.2 ⟨hr, hle, fun k' r' hk' => ?_⟩, hs⟩
    exact hmax k' r'.shape (layout_flat_eq_some.2 ⟨r', hk', rfl⟩)
  · obtain ⟨hr, hle, hmax⟩ := SortedMap.lastLE_eq_some_iff.1 hl
    refine ⟨layout_flat_eq_some.2 ⟨r, hr, hs⟩, hle, fun k' s' hk' => ?_⟩
    obtain ⟨r', hr', -⟩ := layout_flat_eq_some.1 hk'
    exact hmax k' r' hr'

/-- A range is granted in terms of the region that the lookup finds. -/
theorem Inv.grants_flat (h : m.Inv) {a : U64} {n : ℕ} {need : Protection} :
    m.flat.Grants a n need ↔
      ∃ key r, m.regions.lastLE a = some (key, r) ∧ r.base ≤ a ∧
        a.toNat + n ≤ r.base.toNat + r.data.size ∧ r.prot.contains need = true := by
  refine ⟨fun ⟨k, s, hs, hle, hprot⟩ => ?_, fun ⟨k, r, hl, hle, hend, hprot⟩ => ?_⟩
  · obtain ⟨r, hl, rfl⟩ := nearest_flat.1 hs
    have hbase := h.base_eq k r (get?_of_lastLE hl)
    exact ⟨k, r, hl, hbase ▸ hs.2.1, hbase ▸ hle, hprot⟩
  · have hbase := h.base_eq k r (get?_of_lastLE hl)
    exact ⟨k, r.shape, nearest_flat.2 ⟨r, hl, rfl⟩, hbase ▸ hend, hprot⟩

theorem Inv.lastLE_of_mem (h : m.Inv) {k a : U64} {r : Region} (hk : m.regions.get? k = some r)
    (hle : k ≤ a) (hlt : a.toNat < k.toNat + r.data.size) :
    m.regions.lastLE a = some (k, r) := by
  refine h.tiles.lastLE_of_mem_span hk hle (BitVec.lt_def.2 ?_)
  rwa [(h.fits k r hk).toNat_endAddr, h.base_eq k r hk]

/-- The flat byte of an address inside a region. -/
theorem Inv.byte_flat (h : m.Inv) {k : U64} {r : Region} {x : ℕ}
    (hk : m.regions.get? k = some r) (hle : k.toNat ≤ x) (hlt : x < k.toNat + r.data.size) :
    m.flat.byte x = r.data.get? (x - k.toNat) := by
  have hfits := h.fits k r hk
  unfold Region.Fits at hfits
  rw [h.base_eq k r hk] at hfits
  have hx : (BitVec.ofNat 64 x).toNat = x := by
    rw [BitVec.toNat_ofNat]
    omega
  have hl := h.lastLE_of_mem hk (BitVec.le_def.2 (hx.symm ▸ hle)) (hx.symm ▸ hlt)
  simp only [flat, hl, Option.bind_some]

theorem Inv.byte_flat_eq_some (h : m.Inv) {x : ℕ} {v : U8} :
    m.flat.byte x = some v ↔
      ∃ k r, m.regions.get? k = some r ∧ k.toNat ≤ x ∧ r.data.get? (x - k.toNat) = some v := by
  refine ⟨fun hx => ?_, fun ⟨k, r, hk, hle, hv⟩ => ?_⟩
  · obtain ⟨⟨k, r⟩, hl, hv⟩ := Option.bind_eq_some_iff.1 hx
    obtain ⟨hk, hle, -⟩ := SortedMap.lastLE_eq_some_iff.1 hl
    have hle' := BitVec.le_def.1 hle
    rw [BitVec.toNat_ofNat] at hle'
    exact ⟨k, r, hk, hle'.trans (Nat.mod_le _ _), hv⟩
  · have hlt : x - k.toNat < r.data.size := by
      by_contra hge
      rw [Buffer.get?_eq_none_iff.2 (not_lt.1 hge)] at hv
      cases hv
    rw [h.byte_flat hk hle (by omega), hv]

/-! ## Reads -/

/-- `read` returns the flat bytes of a range that may be read. -/
theorem Inv.read_eq_ok_iff (h : m.Inv) {b : U64} {n : ℕ} {l : List U8} :
    m.read b n = .ok l ↔ m.flat.Grants b n .read ∧ l.length = n ∧ m.flat.Reads b l := by
  have hread : ∀ {l}, m.read b n = .ok l →
      m.flat.Grants b n .read ∧ l.length = n ∧ m.flat.Reads b l := by
    intro l hl
    obtain ⟨k, r, hlast, hle, hend, hprot, rfl⟩ := read_eq_ok.1 hl
    have hk := get?_of_lastLE hlast
    have hin : b.toNat - r.base.toNat + n ≤ r.data.size := by
      have := BitVec.le_def.1 hle
      omega
    refine ⟨h.grants_flat.2 ⟨k, r, hlast, hle, hend, hprot⟩, Buffer.length_slice hin, ?_⟩
    intro i hi
    rw [Buffer.length_slice hin] at hi
    have hle' := BitVec.le_def.1 hle
    rw [Buffer.getElem?_slice hin hi]
    rw [h.base_eq k r hk] at hle' hend ⊢
    rw [h.byte_flat hk (by omega) (by omega)]
    congr 1
    omega
  refine ⟨hread, fun ⟨hgrants, hlen, hl⟩ => ?_⟩
  obtain ⟨k, r, hlast, hle, hend, hprot⟩ := h.grants_flat.1 hgrants
  have hok := read_eq_ok.2 ⟨k, r, hlast, hle, hend, hprot, rfl⟩
  obtain ⟨-, hlen', hl'⟩ := hread hok
  rw [hok, hl.unique hl' (hlen.trans hlen'.symm)]

/-- A read succeeds exactly where it is granted. -/
theorem Inv.read_isOk_iff (h : m.Inv) {a : U64} {n : ℕ} :
    (∃ l, m.read a n = .ok l) ↔ m.flat.Grants a n .read := by
  rw [h.grants_flat]
  refine ⟨fun ⟨l, hl⟩ => ?_, fun ⟨k, r, hl, hle, hend, hprot⟩ => ?_⟩
  · obtain ⟨k, r, hl, hle, hend, hprot, -⟩ := read_eq_ok.1 hl
    exact ⟨k, r, hl, hle, hend, hprot⟩
  · exact ⟨_, read_eq_ok.2 ⟨k, r, hl, hle, hend, hprot, rfl⟩⟩

/-- A range that may be read can be read in two parts. -/
theorem Inv.read_append (h : m.Inv) {a : U64} {n k : ℕ} {l : List U8} (hk : 0 < k)
    (hl : m.read a (n + k) = .ok l) :
    ∃ l₁ l₂, l = l₁ ++ l₂ ∧ m.read a n = .ok l₁ ∧ m.read (a + BitVec.ofNat 64 n) k = .ok l₂ := by
  obtain ⟨key, r, hlast, hle, hend, hprot, rfl⟩ := read_eq_ok.1 hl
  obtain ⟨hkey, hlea, -⟩ := SortedMap.lastLE_eq_some_iff.1 hlast
  have hbase := h.base_eq key r hkey
  have hle' := BitVec.le_def.1 hle
  have hfits := h.fits key r hkey
  unfold Region.Fits at hfits
  have hadd : (a + BitVec.ofNat 64 n).toNat = a.toNat + n := by
    rw [BitVec.toNat_add, BitVec.toNat_ofNat]
    omega
  have hlast' : m.regions.lastLE (a + BitVec.ofNat 64 n) = some (key, r) := by
    refine h.lastLE_of_mem hkey (BitVec.le_def.2 ?_) ?_
    · have := BitVec.le_def.1 hlea
      omega
    · rw [← hbase]
      omega
  refine ⟨_, _, Buffer.slice_append (by omega),
    read_eq_ok.2 ⟨key, r, hlast, hle, by omega, hprot, rfl⟩,
    read_eq_ok.2 ⟨key, r, hlast', BitVec.le_def.2 (by omega), by omega, hprot, ?_⟩⟩
  rw [hadd]
  congr 1
  omega

/-! ## Writes -/

/-- Storing in a region keeps every shape. -/
theorem layout_store {key : U64} {r : Region} (hk : m.regions.get? key = some r) (off : ℕ)
    (d : List U8) : (m.store key r off d).flat.layout = m.flat.layout := by
  funext k
  dsimp only [flat, store]
  rw [SortedMap.get?_insert]
  split_ifs with hkk
  · rw [hkk, hk]
    rfl
  · rfl

/-- Storing at an offset of a region is a flat write at its address. -/
theorem Inv.flat_store (h : m.Inv) {key a : U64} {r : Region} {d : List U8}
    (hk : m.regions.get? key = some r) (hle : key.toNat ≤ a.toNat)
    (hend : a.toNat + d.length ≤ key.toNat + r.data.size) :
    (m.store key r (a.toNat - key.toNat) d).flat = m.flat.write a d := by
  have h' : (m.store key r (a.toNat - key.toNat) d).Inv := h.change (.store key r _ d hk)
  have hbyte : ∀ x, (m.store key r (a.toNat - key.toNat) d).flat.byte x =
      (m.flat.write a d).byte x := by
    intro x
    dsimp only [FlatMemory.write]
    split_ifs with hx
    · have hk' : (m.store key r (a.toNat - key.toNat) d).regions.get? key = some _ :=
        SortedMap.get?_insert_self _ _ _
      rw [h'.byte_flat hk' (by omega) (by rw [Buffer.size_overwrite]; omega),
        Buffer.get?_overwrite, Buffer.get?_of_lt (by omega), Option.map_some,
        if_pos (by omega), show x - key.toNat - (a.toNat - key.toNat) = x - a.toNat by omega,
        List.getD_eq_getElem _ _ (by omega), List.getElem?_eq_getElem (by omega)]
    · refine Option.ext fun v => ?_
      rw [h'.byte_flat_eq_some, h.byte_flat_eq_some]
      refine exists_congr fun k => ?_
      dsimp only [store]
      rw [SortedMap.get?_insert]
      split_ifs with hkk
      · subst hkk
        simp only [Option.some.injEq, exists_eq_left', hk]
        refine and_congr_right fun hkx => ?_
        rw [Buffer.get?_overwrite_of_disjoint _ (by omega)]
      · rfl
  exact FlatMemory.ext (layout_store hk _ d) (funext hbyte)

/-- A write succeeds exactly where it is granted. -/
theorem Inv.write_isOk_iff (h : m.Inv) {a : U64} {d : List U8} :
    (∃ m', write a d m = .ok () m') ↔ m.flat.Grants a d.length .write := by
  rw [h.grants_flat]
  refine ⟨fun ⟨m', hw⟩ => ?_, fun ⟨k, r, hl, hle, hend, hprot⟩ => ?_⟩
  · obtain ⟨k, r, hl, hle, hend, hprot, -⟩ := write_eq_ok.1 hw
    exact ⟨k, r, hl, hle, hend, hprot⟩
  · exact ⟨_, write_eq_ok.2 ⟨k, r, hl, hle, hend, hprot, rfl⟩⟩

/-- A write is the flat write, and leaves the cursor and the heap arena alone. -/
theorem Inv.flat_of_write (h : m.Inv) {a : U64} {d : List U8}
    (hw : write a d m = .ok () m') :
    m'.flat = m.flat.write a d ∧ m'.mmapCursor = m.mmapCursor ∧ m'.heap = m.heap := by
  obtain ⟨k, r, hl, hle, hend, -, rfl⟩ := write_eq_ok.1 hw
  have hk := get?_of_lastLE hl
  rw [h.base_eq k r hk] at hle hend ⊢
  exact ⟨h.flat_store hk (BitVec.le_def.1 hle) hend, rfl, rfl⟩

theorem Inv.of_write (h : m.Inv) {a : U64} {d : List U8} (hw : write a d m = .ok () m') :
    m'.Inv :=
  h.change ((change_write a d).ok hw)

/-- A read after a write succeeds exactly if it did before, and returns the bytes of
before with the written ones laid over them. -/
theorem Inv.read_of_write (h : m.Inv) {a : U64} {d : List U8} (hw : write a d m = .ok () m')
    (b : U64) (n : ℕ) :
    ((∃ l, m'.read b n = .ok l) ↔ ∃ l, m.read b n = .ok l) ∧
    ∀ l, m.read b n = .ok l →
      m'.read b n = .ok (Buffer.overlay l b.toNat a.toNat d) := by
  have h' := h.of_write hw
  obtain ⟨hflat, -, -⟩ := h.flat_of_write hw
  have hafter : ∀ l, m.read b n = .ok l →
      m'.read b n = .ok (Buffer.overlay l b.toNat a.toNat d) := by
    intro l hl
    obtain ⟨hgrants, hlen, hreads⟩ := h.read_eq_ok_iff.1 hl
    rw [h'.read_eq_ok_iff, hflat]
    exact ⟨hgrants, (Buffer.length_overlay _ _ _ _).trans hlen, hreads.write⟩
  refine ⟨⟨fun ⟨l, hl⟩ => ?_, fun ⟨l, hl⟩ => ⟨_, hafter l hl⟩⟩, hafter⟩
  obtain ⟨hgrants, -, -⟩ := h'.read_eq_ok_iff.1 hl
  rw [hflat] at hgrants
  obtain ⟨k, r, hlast, hle, hend, hprot⟩ := h.grants_flat.1 hgrants
  exact ⟨_, read_eq_ok.2 ⟨k, r, hlast, hle, hend, hprot, rfl⟩⟩

/-- Bytes that were readable and have been written are read back. -/
theorem Inv.read_back (h : m.Inv) {a : U64} {d l : List U8} (hw : write a d m = .ok () m')
    (hl : m.read a d.length = .ok l) : m'.read a d.length = .ok d := by
  have hlen := (h.read_eq_ok_iff.1 hl).2.1
  rw [(h.read_of_write hw a d.length).2 l hl, Buffer.overlay_self hlen]

theorem readU32_of_read {a : U64} {v : U32} (h : m.read a 4 = .ok (toLeBytes32 v)) :
    m.readU32 a = .ok v := by
  rw [readU32, h]
  exact congrArg Except.ok (fromLeBytes_toLeBytes32 v)

theorem readU64_of_read {a v : U64} (h : m.read a 8 = .ok (toLeBytes64 v)) :
    m.readU64 a = .ok v := by
  rw [readU64, h]
  exact congrArg Except.ok (fromLeBytes_toLeBytes64 v)

theorem Inv.readU32_of_writeU32 (h : m.Inv) {a : U64} {v w : U32}
    (hw : writeU32 a v m = .ok () m') (hr : m.readU32 a = .ok w) : m'.readU32 a = .ok v := by
  obtain ⟨l, hl, -⟩ := except_bind_eq_ok.1 hr
  exact readU32_of_read (h.read_back hw hl)

/-- A written double word is read back whole, and as its low and its high half. -/
theorem Inv.readU64_of_writeU64 (h : m.Inv) {a v w : U64} (hw : writeU64 a v m = .ok () m')
    (hr : m.readU64 a = .ok w) :
    m'.readU64 a = .ok v ∧ m'.readU32 a = .ok (v.setWidth 32) ∧
      m'.readU32 (a + 4) = .ok ((v >>> 32).setWidth 32) := by
  obtain ⟨l, hl, -⟩ := except_bind_eq_ok.1 hr
  have h' := h.of_write hw
  have hback : m'.read a (4 + 4) = .ok (toLeBytes64 v) := h.read_back hw hl
  obtain ⟨l₁, l₂, happ, h₁, h₂⟩ := h'.read_append (by omega) hback
  have hlen₁ : l₁.length = 4 := (h'.read_eq_ok_iff.1 h₁).2.1
  rw [toLeBytes64_eq_append] at happ
  obtain ⟨rfl, rfl⟩ := List.append_inj happ (by rw [hlen₁, length_toLeBytes32])
  exact ⟨readU64_of_read hback, readU32_of_read h₁, readU32_of_read h₂⟩

/-- The address space refines the flat memory : writes succeed where they are granted and
are flat writes, reads see them, errors change nothing, and typed accesses round trip. -/
theorem write_refines_flat (p : Profile) (m : GuestMemory) (h : Reachable p m) (a : U64)
    (d : List U8) :
    ((∃ m', write a d m = .ok () m') ↔ m.flat.Grants a d.length .write) ∧
    (∀ m', write a d m = .ok () m' →
      (∀ b n,
        ((∃ l, m'.read b n = .ok l) ↔ ∃ l, m.read b n = .ok l) ∧
        ∀ l, m.read b n = .ok l →
          m'.read b n = .ok (Buffer.overlay l b.toNat a.toNat d)) ∧
      m'.flat = m.flat.write a d ∧ m'.mmapCursor = m.mmapCursor ∧ m'.heap = m.heap) ∧
    (∀ e m', write a d m = .err e m' → m' = m) ∧ (∀ e, write a d m ≠ .panic e) ∧
    (∀ v w m', writeU32 a v m = .ok () m' → m.readU32 a = .ok w → m'.readU32 a = .ok v) ∧
    ∀ v w m', writeU64 a v m = .ok () m' → m.readU64 a = .ok w →
      m'.readU64 a = .ok v ∧ m'.readU32 a = .ok (v.setWidth 32) ∧
        m'.readU32 (a + 4) = .ok ((v >>> 32).setWidth 32) :=
  have hinv := h.inv
  ⟨hinv.write_isOk_iff, fun _ hw => ⟨hinv.read_of_write hw, hinv.flat_of_write hw⟩,
    fun e m' hw => write_failsClean a d m m' e hw, write_ne_panic a d m,
    fun _ _ _ hw hr => hinv.readU32_of_writeU32 hw hr,
    fun _ _ _ hw hr => hinv.readU64_of_writeU64 hw hr⟩

/-- On the heap of the crate's tests, a double word is read back in halves. -/
theorem write_refines_flat_testMemory :
    ∃ m', writeU64 0x100000010 0xdeadbeefcafebabe testMemory = .ok () m' ∧
      m'.readU64 0x100000010 = .ok 0xdeadbeefcafebabe ∧
      m'.readU32 0x100000010 = .ok 0xcafebabe ∧
      m'.readU32 0x100000014 = .ok 0xdeadbeef := by
  refine ⟨_, rfl, ?_⟩
  exact (write_refines_flat .release testMemory (reachable_testMemory .release) 0x100000010
    (toLeBytes64 0xdeadbeefcafebabe)).2.2.2.2.2 _ 0 _ rfl rfl

end GuestMemory

end IosEmu
