import IosEmu.HeapContract
import IosEmu.ServicePanics

/-!
# What `memcpy` and `memmove` copy

The two names have one shim. It reads the source whole and then writes the destination, so
an overlap does no harm. Each of the two accesses is to one region (`Region::range`), and what
they answer is dropped : if either is refused nothing is copied, and the shim returns `dst` all
the same.

A range whose bytes are all mapped with a right (`Accessible`) is granted only if one region
holds it (`Inv.grants_iff_held`). So the bytes are copied exactly if both ranges lie in one
region each, or the destination held the bytes already (`copies_iff`). Two mappings that
`mmapAnon` places next to each other are enough for a copy that is skipped
(`memcpy_skips_adjacent`).
-/

open SysLib

namespace IosEmu

namespace FlatMemory

/-- The address `x` is mapped with the right `need`. -/
def Allows (f : FlatMemory) (x : ℕ) (need : Protection) : Prop :=
  ∃ k s, f.layout k = some s ∧ k.toNat ≤ x ∧ x < k.toNat + s.size ∧ s.prot.contains need = true

/-- Every address of `[a, a + n)` is mapped with the right `need`. -/
def Accessible (f : FlatMemory) (a : U64) (n : ℕ) (need : Protection) : Prop :=
  ∀ i < n, f.Allows (a.toNat + i) need

/-- One region holds `[a, a + n)`. -/
def Held (f : FlatMemory) (a : U64) (n : ℕ) : Prop :=
  ∃ k s, f.layout k = some s ∧ k.toNat ≤ a.toNat ∧ a.toNat + n ≤ k.toNat + s.size

/-- The bytes of `[dst, dst + n)` in `g` are those of `[src, src + n)` in `f`. -/
def Carries (f g : FlatMemory) (dst src : U64) (n : ℕ) : Prop :=
  ∀ i < n, g.byte (dst.toNat + i) = f.byte (src.toNat + i)

/-- `g` is `f` with `[src, src + n)` copied to `dst` and no other byte changed. -/
def Copied (f g : FlatMemory) (dst src : U64) (n : ℕ) : Prop :=
  f.Carries g dst src n ∧ ∀ x, x < dst.toNat ∨ dst.toNat + n ≤ x → g.byte x = f.byte x

/-- Writing the bytes that were read copies them. -/
theorem copied_write {f : FlatMemory} {src dst : U64} {l : List U8} (h : f.Reads src l) :
    f.Copied (f.write dst l) dst src l.length := by
  refine ⟨fun i hi => ?_, fun x hx => ?_⟩
  · rw [reads_write_self f dst l i hi, h i hi]
  · exact if_neg (by omega)

end FlatMemory

namespace GuestMemory

variable {m m' : GuestMemory}

/-- A range whose addresses are all mapped with a right is granted exactly if one region
holds it. -/
theorem Inv.grants_iff_held (h : m.Inv) {a : U64} {n : ℕ} {need : Protection}
    (hall : m.flat.Accessible a n need) (hn : 0 < n) :
    m.flat.Grants a n need ↔ m.flat.Held a n := by
  refine ⟨fun ⟨k, s, hs, hend, _⟩ => ⟨k, s, hs.1, BitVec.le_def.1 hs.2.1, hend⟩, ?_⟩
  rintro ⟨k, s, hk, hle, hend⟩
  obtain ⟨r, hr, rfl⟩ := layout_flat_eq_some.1 hk
  obtain ⟨k', s', hk', hle', hlt', hprot⟩ := hall 0 hn
  obtain ⟨r', hr', rfl⟩ := layout_flat_eq_some.1 hk'
  -- The region of the first byte is the one that holds the range.
  have hlast : m.regions.lastLE a = some (k, r) :=
    h.lastLE_of_mem hr (BitVec.le_def.2 hle) (by change _ < k.toNat + r.shape.size; omega)
  have hlast' : m.regions.lastLE a = some (k', r') :=
    h.lastLE_of_mem hr' (BitVec.le_def.2 hle') hlt'
  obtain ⟨rfl, rfl⟩ := Prod.mk.inj (Option.some.inj (hlast.symm.trans hlast'))
  exact ⟨k, r.shape, nearest_flat.2 ⟨r, hlast, rfl⟩, hend, hprot⟩

end GuestMemory

/-! ## The shim -/

namespace Frameworks.Libsystem

open ShimM ObjcRuntime GuestMemory

variable {s : ObjcRuntime × CallContext}

/-- Copying bytes that can be read but not written does nothing. -/
theorem copyBytes_of_refused {dst src : U64} {n : ℕ} {l : List U8} {e : EmuError}
    {m' : GuestMemory} (hn : n ≤ isizeMax) (hread : s.2.mem.read src n = .ok l)
    (hwrite : GuestMemory.write dst l s.2.mem = .err e m') : copyBytes dst src n s = .ok () s := by
  obtain rfl := write_failsClean dst l _ _ _ hwrite
  rw [copyBytes, allocBytes, if_pos hn, Prog.ofChecked_ok_bind, Prog.bind_apply, readMem,
    Prog.get_bind, Prog.pure_apply]
  simp only [hread, Prog.bind_apply, onMem, Prog.attempt, Prog.zoom, hwrite]
  rfl

/-- The bytes are copied, or an access is refused and nothing happens. -/
theorem copyBytes_cases {dst src : U64} {n : ℕ} (h : s.2.mem.Inv) (hn : n ≤ isizeMax) :
    (s.2.mem.flat.Grants src n .read ∧ s.2.mem.flat.Grants dst n .write ∧
      ∃ m', copyBytes dst src n s = .ok () (s.1, { s.2 with mem := m' }) ∧
        s.2.mem.flat.Copied m'.flat dst src n) ∨
    (¬(s.2.mem.flat.Grants src n .read ∧ s.2.mem.flat.Grants dst n .write) ∧
      copyBytes dst src n s = .ok () s) := by
  rcases hread : s.2.mem.read src n with e | l
  · refine Or.inr ⟨fun hgrants => ?_, copyBytes_of_error hn hread⟩
    obtain ⟨l, hl⟩ := h.read_isOk_iff.2 hgrants.1
    rw [hread] at hl
    cases hl
  · obtain ⟨hsrc, rfl, hreads⟩ := h.read_eq_ok_iff.1 hread
    rcases hwrite : GuestMemory.write dst l s.2.mem with ⟨u, m'⟩ | ⟨e, m'⟩ | p
    · refine Or.inl ⟨hsrc, h.write_isOk_iff.1 ⟨m', hwrite⟩, m',
        copyBytes_of_ok hn hread hwrite, ?_⟩
      rw [(h.flat_of_write hwrite).1]
      exact FlatMemory.copied_write hreads
    · refine Or.inr ⟨fun hgrants => ?_, copyBytes_of_refused hn hread hwrite⟩
      obtain ⟨m'', hok⟩ := h.write_isOk_iff.2 hgrants.2
      rw [hwrite] at hok
      cases hok
    · exact absurd hwrite (write_ne_panic _ _ _ _)

/-- The shim returns `dst`, with `n` bytes copied from `src` to `dst` and no other byte
changed, for the `dst`, `src` and `n` in the registers. -/
def Copies (shim : ShimM Dispatch) (s : ObjcRuntime × CallContext) : Prop :=
  ∃ t, shim s = .ok .handled t ∧ t.2.cpu.arg 0 = s.2.cpu.arg 0 ∧
    s.2.mem.flat.Copied t.2.mem.flat (s.2.cpu.arg 0) (s.2.cpu.arg 1) (s.2.cpu.arg 2).toNat

theorem memcpy_apply :
    memcpy s = (copyBytes (s.2.cpu.arg 0) (s.2.cpu.arg 1) (s.2.cpu.arg 2).toNat >>= fun _ =>
      ret (s.2.cpu.arg 0) >>= fun _ => pure .handled) s := by
  simp only [memcpy, answer, arg, Prog.bind_bind, Prog.get_bind]
  rfl

theorem memcpy_of_copyBytes {t : ObjcRuntime × CallContext}
    (h : copyBytes (s.2.cpu.arg 0) (s.2.cpu.arg 1) (s.2.cpu.arg 2).toNat s = .ok () t) :
    memcpy s = .ok .handled (t.1, { t.2 with cpu := t.2.cpu.setRet (s.2.cpu.arg 0) }) := by
  rw [memcpy_apply, Prog.bind_apply, h]
  rfl

/-- Both names are the one shim. -/
theorem eq_memcpy_of_mem {p : Profile} {e : String × ShimM Dispatch} (he : e ∈ shims p)
    (hname : e.1 = "memcpy" ∨ e.1 = "memmove") : e.2 = memcpy := by
  obtain ⟨name, shim⟩ := e
  rcases hname with rfl | rfl
  · simpa [shims] using he
  · simpa [shims] using he

/-- The bytes at the destination are those at the source already. -/
def AlreadyCopied (s : ObjcRuntime × CallContext) : Prop :=
  s.2.mem.flat.Carries s.2.mem.flat (s.2.cpu.arg 0) (s.2.cpu.arg 1) (s.2.cpu.arg 2).toNat

/-- What the shim does to granted and to other ranges. -/
theorem memcpy_copies_iff_grants (h : s.2.mem.Inv) :
    Copies memcpy s ↔ (s.2.cpu.arg 2).toNat ≤ isizeMax ∧
      ((s.2.mem.flat.Grants (s.2.cpu.arg 1) (s.2.cpu.arg 2).toNat .read ∧
          s.2.mem.flat.Grants (s.2.cpu.arg 0) (s.2.cpu.arg 2).toNat .write) ∨
        AlreadyCopied s) := by
  by_cases hn : (s.2.cpu.arg 2).toNat ≤ isizeMax
  · rw [and_iff_right hn]
    rcases copyBytes_cases h hn with ⟨hsrc, hdst, m', hcopy, hcopied⟩ | ⟨hrefused, hcopy⟩
    · refine iff_of_true ⟨_, memcpy_of_copyBytes hcopy, CpuContext.arg_setRet _ _, ?_⟩
        (Or.inl ⟨hsrc, hdst⟩)
      exact hcopied
    · rw [or_iff_right hrefused]
      constructor
      · rintro ⟨t, hrun, -, hcopied⟩
        rw [memcpy_of_copyBytes hcopy] at hrun
        obtain ⟨-, rfl⟩ := Outcome.ok.inj hrun
        exact hcopied.1
      · exact fun halready => ⟨_, memcpy_of_copyBytes hcopy, CpuContext.arg_setRet _ _, halready,
          fun _ _ => rfl⟩
  · refine iff_of_false ?_ fun hcond => hn hcond.1
    rintro ⟨t, hrun, -⟩
    exact hn (safe_memcpy_iff.1 (Prog.safe_of_ok hrun))

/-- For a range that can be read and a range that can be written, byte by byte, the shims of
`memcpy` and `memmove` copy the one to the other exactly if the length is one a buffer can
have, and one region holds each of the ranges or the bytes were the same before. -/
theorem copies_iff (p : Profile) (s : ObjcRuntime × CallContext) (h : Reachable p s.2.mem)
    (hsrc : s.2.mem.flat.Accessible (s.2.cpu.arg 1) (s.2.cpu.arg 2).toNat .read)
    (hdst : s.2.mem.flat.Accessible (s.2.cpu.arg 0) (s.2.cpu.arg 2).toNat .write)
    (e : String × ShimM Dispatch) (he : e ∈ shims p) (hname : e.1 = "memcpy" ∨ e.1 = "memmove") :
    Copies e.2 s ↔ (s.2.cpu.arg 2).toNat ≤ isizeMax ∧
      ((s.2.mem.flat.Held (s.2.cpu.arg 1) (s.2.cpu.arg 2).toNat ∧
          s.2.mem.flat.Held (s.2.cpu.arg 0) (s.2.cpu.arg 2).toNat) ∨
        AlreadyCopied s) := by
  rw [eq_memcpy_of_mem he hname, memcpy_copies_iff_grants h.inv]
  rcases Nat.eq_zero_or_pos (s.2.cpu.arg 2).toNat with hn | hn
  · -- No byte is to be copied.
    have halready : AlreadyCopied s := fun i hi => absurd hi (by omega)
    simp only [halready, or_true]
  · rw [h.inv.grants_iff_held hsrc hn, h.inv.grants_iff_held hdst hn]

/-! ## Two mappings next to each other -/

/-- A call of `memcpy` with its arguments in the registers. -/
def copyCall (m : GuestMemory) (dst src n : U64) : ObjcRuntime × CallContext :=
  (.new, ⟨{ CpuContext.default with
      x := fun i => if i = 0 then dst else if i = 1 then src else if i = 2 then n else 0 }, m⟩)

/-- A range of a region is accessible with the rights of the region. -/
theorem accessible_of_region {m : GuestMemory} {a k : U64} {n : ℕ} {need : Protection} {r : Region}
    (hk : m.regions.get? k = some r) (hle : k.toNat ≤ a.toNat)
    (hend : a.toNat + n ≤ k.toNat + r.data.size) (hprot : r.prot.contains need = true) :
    m.flat.Accessible a n need :=
  fun i hi => ⟨k, r.shape, layout_flat_eq_some.2 ⟨r, hk, rfl⟩, by omega,
    by change _ < k.toNat + r.data.size; omega, hprot⟩

/-- Four bytes of a page are copied to the heap. -/
theorem copies_within_page :
    Reachable .release adjacentMemory ∧
      Copies memcpy (copyCall adjacentMemory 0x100000000 0x1ffffbffc 4) := by
  refine ⟨reachable_adjacentMemory, ?_⟩
  have hsrc : adjacentMemory.flat.Accessible 0x1ffffbffc 4 .read :=
    accessible_of_region (k := 0x1ffff8000) rfl (by decide) (by decide) (by decide)
  have hdst : adjacentMemory.flat.Accessible 0x100000000 4 .write :=
    accessible_of_region (k := 0x100000000) rfl (by decide) (by decide) (by decide)
  refine (copies_iff .release (copyCall adjacentMemory 0x100000000 0x1ffffbffc 4)
    reachable_adjacentMemory hsrc hdst ("memcpy", memcpy) (by simp [shims]) (Or.inl rfl)).2
    ⟨by decide, Or.inl ⟨⟨0x1ffff8000, _, rfl, ?_, ?_⟩, ⟨0x100000000, _, rfl, ?_, ?_⟩⟩⟩ <;> decide

/-- Eight bytes across the two pages can all be read, and are not copied. -/
theorem memcpy_skips_adjacent :
    Reachable .release adjacentMemory ∧
      adjacentMemory.flat.Accessible 0x1ffffbffc 8 .read ∧
      adjacentMemory.flat.Accessible 0x100000000 8 .write ∧
      ¬Copies memcpy (copyCall adjacentMemory 0x100000000 0x1ffffbffc 8) := by
  have hsrc : adjacentMemory.flat.Accessible 0x1ffffbffc 8 .read := by
    have hlow : adjacentMemory.flat.Accessible 0x1ffffbffc 4 .read :=
      accessible_of_region (k := 0x1ffff8000) rfl (by decide) (by decide) (by decide)
    have hhigh : adjacentMemory.flat.Accessible 0x1ffffc000 4 .read :=
      accessible_of_region (k := 0x1ffffc000) rfl (by decide) (by decide) (by decide)
    intro i hi
    rcases Nat.lt_or_ge i 4 with h | h
    · exact hlow i h
    · have hat := hhigh (i - 4) (by omega)
      rwa [show (0x1ffffc000 : U64).toNat + (i - 4) = (0x1ffffbffc : U64).toNat + i by
        simp; omega] at hat
  refine ⟨reachable_adjacentMemory, hsrc,
    accessible_of_region (k := 0x100000000) rfl (by decide) (by decide) (by decide), ?_⟩
  rw [memcpy_copies_iff_grants reachable_adjacentMemory.inv]
  rintro ⟨-, ⟨hgrants, -⟩ | halready⟩
  · obtain ⟨k, r, hlast, -, hend, -⟩ := reachable_adjacentMemory.inv.grants_flat.1 hgrants
    obtain ⟨rfl, rfl⟩ := Prod.mk.inj (Option.some.inj hlast)
    exact absurd hend (by decide)
  · exact absurd (halready 0 (by decide)) (by decide)

end Frameworks.Libsystem

end IosEmu
