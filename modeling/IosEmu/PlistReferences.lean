import IosEmu.PlistPanics
import Mathlib.Data.List.Chain

/-!
# The references of a binary property list

A container refers to the objects whose numbers its references are, as the decoder reads them
(`RefersTo`). The decoder follows every one of them, with one level less to go than for the
container. A pool that it accepts therefore has no path longer than the levels it starts with, and
no cycle, in whatever order the objects are decoded and shared (`accepted_acyclic`).
-/

open SysLib Relation

namespace SysLib

/-! ## Descent -/

section Descent

variable {α : Type*} {R : α → α → Prop} {A : ℕ → α → Prop}

/-- Where every step goes down a level, no path is longer than the levels there are. -/
theorem length_le_of_descent (h : ∀ n x y, A n x → R x y → ∃ m < n, A m y)
    (hpos : ∀ n x, A n x → 0 < n) :
    ∀ {l : List α} {n : ℕ} {x : α}, A n x → (x :: l).IsChain R → (x :: l).length ≤ n
  | [], n, x, hx, _ => hpos n x hx
  | y :: l, n, x, hx, hl => by
    obtain ⟨hxy, hl⟩ := List.isChain_cons_cons.1 hl
    obtain ⟨m, hm, hy⟩ := h n x y hx hxy
    have hle := length_le_of_descent h hpos hy hl
    rw [List.length_cons]
    omega

theorem descent_transGen (h : ∀ n x y, A n x → R x y → ∃ m < n, A m y) {n : ℕ} {x y : α}
    (hx : A n x) (hxy : TransGen R x y) : ∃ m < n, A m y := by
  induction hxy with
  | single hxy => exact h n x _ hx hxy
  | tail _ hyz ih =>
    obtain ⟨m, hm, hy⟩ := ih
    obtain ⟨k, hk, hz⟩ := h m _ _ hy hyz
    exact ⟨k, hk.trans hm, hz⟩

/-- And there is no cycle. -/
theorem acyclic_of_descent (h : ∀ n x y, A n x → R x y → ∃ m < n, A m y) {x : α}
    (hcycle : TransGen R x x) : ∀ n, ¬A n x := by
  intro n
  induction n using Nat.strong_induction_on with
  | _ n ih =>
    intro hx
    obtain ⟨m, hm, hx'⟩ := descent_transGen h hx hcycle
    exact ih m hm hx'

end Descent

end SysLib

namespace IosEmu

open Prog

namespace BinaryPlist

/-! ## References -/

/-- Object number `i` is a container of type `ty` at `off`, with so many entries from `first`. -/
structure ContainerAt (p : Profile) (b : BinaryPlist) (i : U64) (ty : ℕ) (count first : U64) :
    Prop where
  start : ∃ off m, b.offsets[i.toNat]? = some off ∧ b.buf[off.toNat]? = some m ∧
    (m >>> 4).toNat = ty ∧ b.countAndOffset p off (m &&& 0x0f).toNat () = .ok (count, first) ()

/-- Object number `i` refers to object number `r`, as an item, a key or a value. -/
inductive RefersTo (p : Profile) (b : BinaryPlist) (i r : U64) : Prop
  | item {count first : U64} {j : ℕ} (hat : ContainerAt p b i 0xa count first)
      (hj : j < count.toNat) (href : b.readRefAt p first (BitVec.ofNat 64 j) () = .ok r ())
  | key {count first : U64} {j : ℕ} (hat : ContainerAt p b i 0xd count first)
      (hj : j < count.toNat) (href : b.readRefAt p first (BitVec.ofNat 64 j) () = .ok r ())
  | value {count first size vals : U64} {j : ℕ} (hat : ContainerAt p b i 0xd count first)
      (hsize : p.mul count b.refSize = .ok size) (hvals : p.add first size = .ok vals)
      (hj : j < count.toNat) (href : b.readRefAt p vals (BitVec.ofNat 64 j) () = .ok r ())

/-- The pool that a file is decoded as. -/
def PoolOf (p : Profile) (buf : List U8) (b : BinaryPlist) : Prop :=
  b.buf = buf ∧ b.refSize = (trailerOf buf).refSize ∧
    readOffsets p buf (trailerOf buf).tableOffset (trailerOf buf).offsetSize
      (trailerOf buf).numObjects () = .ok b.offsets ()

section Returns

variable {p : Profile} {b : BinaryPlist} {child : U64 → PlistM PlistValue}

/-- An array is decoded exactly if every reference can be read and what it refers to decoded. -/
theorem returns_arrayItems_iff {first count : U64} :
    Returns (b.arrayItems p child first count) ↔ ∀ j < count.toNat, ∃ r,
      b.readRefAt p first (BitVec.ofNat 64 j) () = .ok r () ∧ Returns (child r) := by
  refine returns_foldlM_iff [] fun j _ _ out => ?_
  rw [returns_bind_iff]
  exact exists_congr fun r => and_congr_right fun _ => returns_bind_pure_iff

/-- And a dictionary if that holds of its keys, which must be strings, and of its values. -/
theorem returns_dictEntries_iff {first vals count : U64} :
    Returns (b.dictEntries p child first vals count) ↔ ∀ j < count.toNat, ∃ kref vref,
      b.readRefAt p first (BitVec.ofNat 64 j) () = .ok kref () ∧
      b.readRefAt p vals (BitVec.ofNat 64 j) () = .ok vref () ∧
      (∃ text, child kref () = .ok (.string text) ()) ∧ Returns (child vref) := by
  refine returns_foldlM_iff [] fun j _ _ map => ?_
  simp only [returns_bind_iff]
  constructor
  · rintro ⟨kref, hkref, vref, hvref, key, hkey, h⟩
    cases key with
    | string text =>
      rw [returns_bind_pure_iff] at h
      exact ⟨kref, vref, hkref, hvref, ⟨text, hkey⟩, h⟩
    | _ => exact absurd h (not_returns_fail _)
  · rintro ⟨kref, vref, hkref, hvref, ⟨text, hkey⟩, h⟩
    exact ⟨kref, hkref, vref, hvref, .string text, hkey, returns_bind_pure_iff.2 h⟩

/-- An object that is decoded is in the table and in the file. -/
theorem returns_objectAt {left : ℕ} {i : U64} (h : Returns (b.objectAt p left i)) :
    ∃ left' off m, left = left' + 1 ∧ b.offsets[i.toNat]? = some off ∧
      b.buf[off.toNat]? = some m ∧ Returns (b.decode p (b.objectAt p left') off m) := by
  cases left with
  | zero => exact absurd h (not_returns_fail _)
  | succ left =>
    cases hoff : b.offsets[i.toNat]? with
    | none =>
      rw [objectAt, hoff] at h
      exact absurd h (not_returns_fail _)
    | some off =>
      rw [objectAt, hoff, returns_bind_iff] at h
      obtain ⟨m, hm, h⟩ := h
      rw [byteAt_apply] at hm
      cases hbyte : b.buf[off.toNat]? with
      | none =>
        rw [hbyte] at hm
        cases hm
      | some m' =>
        rw [hbyte] at hm
        obtain rfl : m' = m := (Outcome.ok.inj hm).1
        exact ⟨left, off, m', rfl, rfl, hbyte, h⟩

/-- What an object that is decoded refers to is decoded, with a level less. -/
theorem returns_of_refersTo {left : ℕ} {i r : U64} (h : Returns (b.objectAt p left i))
    (hr : RefersTo p b i r) : ∃ left' < left, Returns (b.objectAt p left' r) := by
  obtain ⟨left', off, m, rfl, hoff, hm, h⟩ := returns_objectAt h
  refine ⟨left', Nat.lt_succ_self _, ?_⟩
  have hcontainer : ∀ {ty : ℕ} {count first : U64}, ContainerAt p b i ty count first →
      (m >>> 4).toNat = ty ∧
        b.countAndOffset p off (m &&& 0x0f).toNat () = .ok (count, first) () := by
    rintro ty count first ⟨off', m', hoff', hm', hty, hcount⟩
    obtain rfl := Option.some.inj (hoff.symm.trans hoff')
    obtain rfl := Option.some.inj (hm.symm.trans hm')
    exact ⟨hty, hcount⟩
  cases hr with
  | @item count first j hat hj href =>
    obtain ⟨hty, hcount⟩ := hcontainer hat
    simp only [decode, hty] at h
    obtain ⟨_, hcount', h⟩ := returns_bind_iff.1 h
    obtain ⟨⟩ := (Outcome.ok.inj (hcount.symm.trans hcount')).1
    obtain ⟨_, -, h⟩ := returns_bind_iff.1 h
    obtain ⟨r', href', hchild⟩ := returns_arrayItems_iff.1 (returns_bind_pure_iff.1 h) j hj
    obtain ⟨⟩ := (Outcome.ok.inj (href.symm.trans href')).1
    exact hchild
  | @key count first j hat hj href =>
    obtain ⟨hty, hcount⟩ := hcontainer hat
    simp only [decode, hty] at h
    obtain ⟨_, hcount', h⟩ := returns_bind_iff.1 h
    obtain ⟨⟩ := (Outcome.ok.inj (hcount.symm.trans hcount')).1
    obtain ⟨_, -, h⟩ := returns_bind_iff.1 h
    obtain ⟨_, -, h⟩ := returns_bind_iff.1 h
    obtain ⟨kref, vref, hkref, -, ⟨text, hchild⟩, -⟩ :=
      returns_dictEntries_iff.1 (returns_bind_pure_iff.1 h) j hj
    obtain ⟨⟩ := (Outcome.ok.inj (href.symm.trans hkref)).1
    exact ⟨_, hchild⟩
  | @value count first size vals j hat hsize hvals hj href =>
    obtain ⟨hty, hcount⟩ := hcontainer hat
    simp only [decode, hty] at h
    obtain ⟨_, hcount', h⟩ := returns_bind_iff.1 h
    obtain ⟨⟩ := (Outcome.ok.inj (hcount.symm.trans hcount')).1
    simp only [hsize, hvals, ofChecked_ok_bind] at h
    obtain ⟨kref, vref, -, hvref, -, hchild⟩ :=
      returns_dictEntries_iff.1 (returns_bind_pure_iff.1 h) j hj
    obtain ⟨⟩ := (Outcome.ok.inj (href.symm.trans hvref)).1
    exact hchild

theorem lt_length_of_returns {left : ℕ} {i : U64} (h : Returns (b.objectAt p left i)) :
    i.toNat < b.offsets.length := by
  obtain ⟨_, off, _, -, hoff, -⟩ := returns_objectAt h
  exact (List.getElem?_eq_some_iff.1 hoff).1

/-- A loop that pushes a value in every round returns as many. -/
theorem length_of_foldlM {X : Type} {f : List X → ℕ → PlistM (List X)}
    (hf : ∀ acc i out, f acc i () = .ok out () → out.length = acc.length + 1) :
    ∀ {n : ℕ} {acc out : List X}, (List.range' 0 n).foldlM f acc () = .ok out () →
      out.length = acc.length + n
  | 0, acc, out, h => by
    obtain ⟨rfl, -⟩ := Outcome.ok.inj h
    rfl
  | n + 1, acc, out, h => by
    rw [List.range'_1_concat, Nat.zero_add] at h
    obtain ⟨acc₁, ⟨⟩, hinit, hlast⟩ := (foldlM_append_eq_ok f).1 h
    obtain ⟨acc₂, ⟨⟩, hround, hnil⟩ := foldlM_cons_eq_ok.1 hlast
    obtain ⟨rfl, -⟩ := Outcome.ok.inj hnil
    rw [hf acc₁ n acc₂ hround, length_of_foldlM hf hinit, Nat.add_assoc]

/-- The table has as many offsets as the trailer says. -/
theorem length_readOffsets {buf : List U8} {tableOffset offsetSize count : U64}
    {offsets : List U64}
    (h : readOffsets p buf tableOffset offsetSize count () = .ok offsets ()) :
    offsets.length = count.toNat := by
  refine (length_of_foldlM (fun acc i out hround => ?_) h).trans (Nat.zero_add _)
  obtain ⟨_, ⟨⟩, -, hround⟩ := bind_eq_ok.1 hround
  obtain ⟨_, ⟨⟩, -, hround⟩ := bind_eq_ok.1 hround
  obtain ⟨_, ⟨⟩, -, hround⟩ := bind_eq_ok.1 hround
  obtain ⟨_, ⟨⟩, -, hround⟩ := bind_eq_ok.1 hround
  obtain ⟨rfl, -⟩ := Outcome.ok.inj hround
  rw [List.length_append, List.length_singleton]

/-- A file that is decoded has a pool, and its top object is decoded with 129 levels. -/
theorem pool_of_parse {buf : List U8} {v : PlistValue} (h : parse p buf () = .ok v ()) :
    ∃ b, PoolOf p buf b ∧ Returns (b.objectAt p 129 (trailerOf buf).topObject) := by
  unfold parse at h
  simp only at h
  split_ifs at h with hshort hwf
  · cases h
  · obtain ⟨_, ⟨⟩, -, h⟩ := bind_eq_ok.1 h
    obtain ⟨offsets, ⟨⟩, hoffsets, h⟩ := bind_eq_ok.1 h
    exact ⟨⟨buf, _, offsets⟩, ⟨rfl, rfl, hoffsets⟩, v, h⟩
  · cases h

theorem PoolOf.unique {buf : List U8} {b b' : BinaryPlist} (h : PoolOf p buf b)
    (h' : PoolOf p buf b') : b = b' := by
  obtain ⟨hbuf, hsize, hoffsets⟩ := h
  obtain ⟨hbuf', hsize', hoffsets'⟩ := h'
  cases b
  cases b'
  obtain ⟨hoff, -⟩ := Outcome.ok.inj (hoffsets.symm.trans hoffsets')
  congr
  · exact hbuf.trans hbuf'.symm
  · exact hsize.trans hsize'.symm

end Returns

section Accepted

variable {p : Profile} {buf : List U8} {v : PlistValue} {b : BinaryPlist}

theorem descends (n : ℕ) (x y : U64) (h : Returns (b.objectAt p n x)) (hr : RefersTo p b x y) :
    ∃ m < n, Returns (b.objectAt p m y) :=
  returns_of_refersTo h hr

/-- Everything that the top object of an accepted file refers to is decoded. -/
theorem returns_of_reachable (hparse : parse p buf () = .ok v ()) (hpool : PoolOf p buf b)
    {x : U64} (hx : ReflTransGen (RefersTo p b) (trailerOf buf).topObject x) :
    ∃ n ≤ 129, Returns (b.objectAt p n x) := by
  obtain ⟨b', hpool', htop⟩ := pool_of_parse hparse
  obtain rfl := hpool.unique hpool'
  rcases reflTransGen_iff_eq_or_transGen.1 hx with rfl | hx
  · exact ⟨129, le_rfl, htop⟩
  · obtain ⟨n, hn, h⟩ := descent_transGen descends htop hx
    exact ⟨n, hn.le, h⟩

end Accepted

/-- In a file that is accepted every reference from the top object down is below the number of
objects, no path visits more than 129 objects, and there is no cycle. -/
theorem accepted_acyclic (p : Profile) (buf : List U8) (v : PlistValue) (b : BinaryPlist)
    (hparse : parse p buf () = .ok v ()) (hpool : PoolOf p buf b) :
    ∀ x, ReflTransGen (RefersTo p b) (trailerOf buf).topObject x →
      (∀ r, RefersTo p b x r → r.toNat < (trailerOf buf).numObjects.toNat) ∧
      ¬TransGen (RefersTo p b) x x ∧
      ∀ l, (x :: l).IsChain (RefersTo p b) → (x :: l).length ≤ 129 := by
  have hpos : ∀ n x, Returns (b.objectAt p n x) → 0 < n := by
    intro n x h
    obtain ⟨n', -, -, rfl, -⟩ := returns_objectAt h
    exact Nat.succ_pos n'
  intro x hx
  obtain ⟨n, hn, hxn⟩ := returns_of_reachable hparse hpool hx
  refine ⟨fun r hr => ?_, fun hcycle => acyclic_of_descent descends hcycle n hxn, fun l hl => ?_⟩
  · obtain ⟨m, -, hrm⟩ := returns_of_refersTo hxn hr
    rw [← length_readOffsets hpool.2.2]
    exact lt_length_of_returns hrm
  · exact (length_le_of_descent descends hpos hxn hl).trans hn

/-- A file with an array of two references to one string. -/
def sharedString : List U8 :=
  bplistMagic ++ [0xa2, 0x01, 0x01, 0x51, 0x61, 0x08, 0x0b] ++
    [0, 0, 0, 0, 0, 0, 1, 1] ++ beBytes 8 2 ++ beBytes 8 0 ++ beBytes 8 13

theorem accepted_acyclic_shared :
    ∃ v b, parse .debug sharedString () = .ok v () ∧ PoolOf .debug sharedString b ∧
      RefersTo .debug b 0 1 ∧ ¬TransGen (RefersTo .debug b) 0 0 := by
  have hparse : parse .debug sharedString () = .ok (.array [.string "a", .string "a"]) () := by
    rfl
  have hpool : PoolOf .debug sharedString ⟨sharedString, 1, [8, 11]⟩ := ⟨rfl, rfl, rfl⟩
  have hcontainer : ContainerAt .debug ⟨sharedString, 1, [8, 11]⟩ 0 0xa 2 9 :=
    ⟨8, 0xa2, rfl, rfl, rfl, rfl⟩
  exact ⟨_, _, hparse, hpool, .item (j := 0) hcontainer (by decide) rfl,
    (accepted_acyclic .debug sharedString _ _ hparse hpool 0 .refl).2.1⟩

end BinaryPlist

end IosEmu
