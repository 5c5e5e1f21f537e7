import IosEmu.XmlCursor
import Mathlib.Logic.Relation
import Mathlib.Tactic.IntervalCases

/-!
# When decoding a property list panics

Reading XML never panics. A binary file makes a debug build panic through the count of an
object, which is taken from the file and used before it is compared with the length : a string
of 16-bit units doubles it, an array reserves that many values, and a dictionary multiplies it
with the width of a reference to find the values (`CountFits`).

The decoder comes to an object from a container, once everything the container refers to before
it has been decoded (`Comes`, `Decodes`). It does not panic exactly if the count of every object
it comes to fits (`safe_objectAt_iff`).
-/

open SysLib Relation

namespace IosEmu

open Prog

/-- The decoder returns a value. -/
def Returns {α : Type} (x : PlistM α) : Prop :=
  ∃ a, x () = .ok a ()

section Returns

variable {α β : Type} {x : PlistM α} {f : α → PlistM β}

theorem returns_pure (a : α) : Returns (pure a) :=
  ⟨a, rfl⟩

theorem not_returns_fail (e : PlistError) : ¬Returns (fail e : PlistM α) := by
  rintro ⟨a, ⟨⟩⟩

theorem returns_bind_iff : Returns (x >>= f) ↔ ∃ a, x () = .ok a () ∧ Returns (f a) := by
  constructor
  · rintro ⟨b, hb⟩
    obtain ⟨a, ⟨⟩, hx, hf⟩ := bind_eq_ok.1 hb
    exact ⟨a, hx, b, hf⟩
  · rintro ⟨a, hx, b, hf⟩
    exact ⟨b, bind_eq_ok.2 ⟨a, (), hx, hf⟩⟩

theorem returns_bind_pure_iff {g : α → β} :
    Returns (x >>= fun a => pure (g a)) ↔ Returns x := by
  rw [returns_bind_iff]
  exact ⟨fun ⟨a, hx, _⟩ => ⟨a, hx⟩, fun ⟨a, hx⟩ => ⟨a, hx, returns_pure _⟩⟩

theorem safe_bind_pure_iff {g : α → β} : (x >>= fun a => pure (g a)).Safe () ↔ x.Safe () :=
  safe_bind_total_iff fun _ => total_pure _

end Returns

/-! ## Loops -/

section Loops

variable {A : Type} {f : A → ℕ → PlistM A} {Good Fine : ℕ → Prop}

/-- A loop returns exactly if every round does. -/
theorem returns_foldlM_iff : ∀ {n : ℕ} (acc : A),
    (∀ j < n, (∀ i < j, Good i) → ∀ acc, Returns (f acc j) ↔ Good j) →
      (Returns ((List.range' 0 n).foldlM f acc) ↔ ∀ j < n, Good j)
  | 0, acc, _ => iff_of_true (returns_pure acc) (by simp)
  | n + 1, acc, h => by
    have ih := returns_foldlM_iff (n := n) acc fun j hj => h j (by omega)
    rw [List.range'_1_concat, Nat.zero_add]
    constructor
    · rintro ⟨acc', hrun⟩
      obtain ⟨acc₁, ⟨⟩, hinit, hlast⟩ := (foldlM_append_eq_ok f).1 hrun
      obtain ⟨acc₂, ⟨⟩, hlast, -⟩ := foldlM_cons_eq_ok.1 hlast
      have hgood := ih.1 ⟨acc₁, hinit⟩
      intro j hj
      rcases Nat.lt_succ_iff_lt_or_eq.1 hj with hj | rfl
      · exact hgood j hj
      · exact (h j (by omega) hgood acc₁).1 ⟨acc₂, hlast⟩
    · intro hgood
      obtain ⟨acc₁, hinit⟩ := ih.2 fun j hj => hgood j (by omega)
      obtain ⟨acc₂, hlast⟩ := (h n (by omega) (fun j hj => hgood j (by omega)) acc₁).2
        (hgood n (by omega))
      exact ⟨acc₂, (foldlM_append_eq_ok f).2
        ⟨acc₁, (), hinit, foldlM_cons_eq_ok.2 ⟨acc₂, (), hlast, rfl⟩⟩⟩

/-- A loop is safe exactly if every round it comes to is. -/
theorem safe_foldlM_iff : ∀ {n : ℕ} (acc : A),
    (∀ j < n, (∀ i < j, Good i) → ∀ acc, Returns (f acc j) ↔ Good j) →
    (∀ j < n, (∀ i < j, Good i) → ∀ acc, (f acc j).Safe () ↔ Fine j) →
      (((List.range' 0 n).foldlM f acc).Safe () ↔ ∀ j < n, (∀ i < j, Good i) → Fine j)
  | 0, acc, _, _ => iff_of_true (total_pure acc ()) (by simp)
  | n + 1, acc, hgood, hfine => by
    have ih := safe_foldlM_iff (n := n) acc (fun j hj => hgood j (by omega))
      fun j hj => hfine j (by omega)
    have hreturns := returns_foldlM_iff (n := n) acc fun j hj => hgood j (by omega)
    have hone : ∀ acc', ([n].foldlM f acc').Safe () ↔ (f acc' n).Safe () := by
      intro acc'
      rw [List.foldlM_cons]
      exact safe_bind_total_iff fun a => total_pure a
    rw [List.range'_1_concat, Nat.zero_add, safe_foldlM_append_iff, ih]
    constructor
    · rintro ⟨hbefore, hlast⟩ j hj hprev
      rcases Nat.lt_succ_iff_lt_or_eq.1 hj with hj | rfl
      · exact hbefore j hj hprev
      · obtain ⟨acc', hrun⟩ := hreturns.2 hprev
        exact (hfine j (by omega) hprev acc').1 ((hone acc').1 (hlast acc' () hrun))
    · intro h
      refine ⟨fun j hj => h j (by omega), fun acc' _ hrun => (hone acc').2 ?_⟩
      have hprev := hreturns.1 ⟨acc', hrun⟩
      exact (hfine n (by omega) hprev acc').2 (h n (by omega) hprev)

end Loops

namespace BinaryPlist

/-! ## What the decoder comes to -/

section Comes

variable (b : BinaryPlist)

/-- How many entries the object at `off` has, if it is a container. -/
def entryCount (off : ℕ) (m : U8) : ℕ :=
  match (m >>> 4).toNat, b.header off (m &&& 0x0f).toNat with
  | 0xa, some (count, _) => count.toNat
  | 0xd, some (count, _) => count.toNat
  | _, _ => 0

/-- The references of entry number `j`, if they lie in the file, and which of them has to be a
string. -/
def entryRefs (off : ℕ) (m : U8) (j : ℕ) : Option (List (U64 × Bool)) :=
  match (m >>> 4).toNat, b.header off (m &&& 0x0f).toNat with
  | 0xa, some (_, first) =>
    (b.refAt (first + j * b.refSize.toNat)).map fun r => [(r, false)]
  | 0xd, some (count, first) =>
    match b.refAt (first + j * b.refSize.toNat),
      b.refAt (first + count.toNat * b.refSize.toNat + j * b.refSize.toNat) with
    | some key, some val => some [(key, true), (val, false)]
    | _, _ => none
  | _, _ => none

/-- The object at `off` lies in the file, apart from the references it makes, and is of a type
that there is. -/
def Whole (off : ℕ) (m : U8) : Prop :=
  let n := (m &&& 0x0f).toNat
  match (m >>> 4).toNat with
  | 0x0 => n = 0x8 ∨ n = 0x9
  | 0x1 => off + 1 + 2 ^ n ≤ b.buf.length
  | 0x2 => (n = 2 ∨ n = 3) ∧ off + 1 + 2 ^ n ≤ b.buf.length
  | 0x3 => off + 1 + 8 ≤ b.buf.length
  | 0x4 => ∃ count first, b.header off n = some (count, first) ∧
    first + count.toNat ≤ b.buf.length
  | 0x5 => ∃ count first, b.header off n = some (count, first) ∧
    first + count.toNat ≤ b.buf.length
  | 0x6 => ∃ count first, b.header off n = some (count, first) ∧
    first + count.toNat * 2 ≤ b.buf.length
  | 0x8 => off + 1 + (n + 1) ≤ b.buf.length
  | 0xa => ∃ count first, b.header off n = some (count, first) ∧
    count.toNat * PlistValue.valueSize ≤ isizeMax
  | 0xd => ∃ count first, b.header off n = some (count, first)
  | _ => False

/-- The count of the object at `off` can be used the way the decoder uses it. -/
def CountFits (off : ℕ) (m : U8) : Prop :=
  match (m >>> 4).toNat, b.header off (m &&& 0x0f).toNat with
  | 0x6, some (count, _) => count.toNat * 2 < 2 ^ 64
  | 0xa, some (count, _) => count.toNat * PlistValue.valueSize ≤ isizeMax
  | 0xd, some (count, first) =>
    first + count.toNat * b.refSize.toNat < 2 ^ 64 ∧
      (0 < count.toNat → first + b.refSize.toNat ≤ b.buf.length →
        first + count.toNat * b.refSize.toNat + b.refSize.toNat < 2 ^ 64)
  | _, _ => True

/-- Object number `i` is at `off` and has the marker `m`. -/
def StartsAt (i : U64) (off : ℕ) (m : U8) : Prop :=
  (∃ o, b.offsets[i.toNat]? = some o ∧ o.toNat = off) ∧ b.buf[off]? = some m

/-- Object number `i` is a string. -/
def IsText (i : U64) : Prop :=
  ∃ off m, b.StartsAt i off m ∧ ((m >>> 4).toNat = 0x5 ∨ (m >>> 4).toNat = 0x6)

/-- Object number `i` and everything below it is well formed, with at most `left` levels. -/
def Decodes : ℕ → U64 → Prop
  | 0, _ => False
  | left + 1, i => ∃ off m, b.StartsAt i off m ∧ b.Whole off m ∧
    ∀ j < b.entryCount off m, ∃ refs, b.entryRefs off m j = some refs ∧
      ∀ r ∈ refs, Decodes left r.1 ∧ (r.2 = true → b.IsText r.1)

/-- From an object with `left + 1` levels to go the decoder comes to one that it refers to, when
everything before it is well formed. -/
def Comes (x y : ℕ × U64) : Prop :=
  ∃ off m, b.StartsAt x.2 off m ∧ x.1 = y.1 + 1 ∧
    ∃ j < b.entryCount off m, ∃ before r after,
      b.entryRefs off m j = some (before ++ (y.2, r) :: after) ∧
      (∀ e ∈ before, b.Decodes y.1 e.1 ∧ (e.2 = true → b.IsText e.1)) ∧
      ∀ i < j, ∃ refs, b.entryRefs off m i = some refs ∧
        ∀ e ∈ refs, b.Decodes y.1 e.1 ∧ (e.2 = true → b.IsText e.1)

/-- If the decoder reads an object here, its count fits. -/
def FitsAt (x : ℕ × U64) : Prop :=
  0 < x.1 → ∀ off m, b.StartsAt x.2 off m → b.CountFits off m

end Comes

/-! ## Reads -/

section Reads

variable {b : BinaryPlist} {child : U64 → PlistM PlistValue}

theorem total_slice (hbuf : b.buf.length ≤ isizeMax) (off len : U64) :
    (b.slice off len).Total := by
  rintro ⟨⟩ e h
  rw [slice_apply hbuf] at h
  split_ifs at h <;> cases h

theorem returns_slice_iff (hbuf : b.buf.length ≤ isizeMax) {off len : U64} :
    Returns (b.slice off len) ↔ off.toNat + len.toNat ≤ b.buf.length := by
  unfold Returns
  rw [slice_apply hbuf]
  split_ifs with h <;> simp [ofRead, h]

/-- Reading a reference in a debug build. -/
theorem safe_readRefAt_iff {base i : U64} :
    (b.readRefAt .debug base i).Safe () ↔
      base.toNat + (i.toNat + 1) * b.refSize.toNat < 2 ^ 64 := by
  rw [Nat.succ_mul, ← Nat.add_assoc]
  constructor
  · intro h
    obtain ⟨step, hstep, h⟩ := safe_ofChecked_bind_iff.1 h
    obtain ⟨at_, hat, h⟩ := safe_ofChecked_bind_iff.1 h
    obtain ⟨stop, hstop, -⟩ := safe_ofChecked_bind_iff.1 h
    have h₁ := Profile.mul_isOk_iff.1 ⟨step, hstep⟩ rfl
    obtain rfl := Profile.mul_eq_ok hstep
    have h₂ := Profile.add_isOk_iff.1 ⟨at_, hat⟩ rfl
    obtain rfl := Profile.add_eq_ok hat
    have h₃ := Profile.add_isOk_iff.1 ⟨stop, hstop⟩ rfl
    rwa [BitVec.toNat_add_of_lt h₂, BitVec.toNat_mul_of_lt h₁] at h₃
  · intro h e he
    rw [readRefAt_apply _ _ (by rw [Nat.succ_mul, ← Nat.add_assoc]; exact h)] at he
    cases hr : b.refAt (base.toNat + i.toNat * b.refSize.toNat) <;> rw [hr] at he <;> cases he

theorem refAt_le {pos : ℕ} {r : U64} (h : b.refAt pos = some r) :
    pos + b.refSize.toNat ≤ b.buf.length := by
  unfold refAt numberAt at h
  split_ifs at h with hle
  exact hle

/-- Reading a reference and going on with it. -/
theorem readRefAt_bind {α : Type} (base : U64) {j : ℕ} (f : U64 → PlistM α) (hj : j < 2 ^ 64)
    (h : base.toNat + (j + 1) * b.refSize.toNat < 2 ^ 64) :
    (Returns (b.readRefAt .debug base (BitVec.ofNat 64 j) >>= f) ↔
      ∃ r, b.refAt (base.toNat + j * b.refSize.toNat) = some r ∧ Returns (f r)) ∧
    ((b.readRefAt .debug base (BitVec.ofNat 64 j) >>= f).Safe () ↔
      ∀ r, b.refAt (base.toNat + j * b.refSize.toNat) = some r → (f r).Safe ()) := by
  have hindex : (BitVec.ofNat 64 j).toNat = j := by
    rw [BitVec.toNat_ofNat, Nat.mod_eq_of_lt hj]
  have hread := readRefAt_apply (p := .debug) (b := b) base (BitVec.ofNat 64 j)
    (by rw [hindex]; exact h)
  rw [hindex] at hread
  unfold Returns Safe
  rw [bind_apply, hread]
  cases b.refAt (base.toNat + j * b.refSize.toNat) with
  | none => simp [ofRead]
  | some r => simp [ofRead]

/-- The child that an entry refers to is decoded, and is a string if it has to be. -/
def Opens (child : U64 → PlistM PlistValue) (e : U64 × Bool) : Prop :=
  ∃ v, child e.1 () = .ok v () ∧ (e.2 = true → ∃ text, v = .string text)

theorem opens_false_iff {r : U64} : Opens child (r, false) ↔ Returns (child r) := by
  simp [Opens, Returns]

theorem opens_true_iff {r : U64} :
    Opens child (r, true) ↔ ∃ text, child r () = .ok (.string text) () := by
  constructor
  · rintro ⟨v, hv, htext⟩
    obtain ⟨text, rfl⟩ := htext rfl
    exact ⟨text, hv⟩
  · rintro ⟨text, hv⟩
    exact ⟨.string text, hv, fun _ => ⟨text, rfl⟩⟩

/-- A key and its value. -/
def entryStep (child : U64 → PlistM PlistValue) (kref vref : U64)
    (map : List (String × PlistValue)) : PlistM (List (String × PlistValue)) := do
  let key ← child kref
  match key with
  | .string s =>
    let v ← child vref
    return SortedMap.insertEntry s v map
  | _ => Prog.fail .badReference

theorem returns_entryStep_iff {kref vref : U64} {map : List (String × PlistValue)} :
    Returns (entryStep child kref vref map) ↔
      Opens child (kref, true) ∧ Opens child (vref, false) := by
  rw [opens_true_iff, opens_false_iff, entryStep, returns_bind_iff]
  constructor
  · rintro ⟨key, hkey, h⟩
    cases key with
    | string text => exact ⟨⟨text, hkey⟩, returns_bind_pure_iff.1 h⟩
    | _ => exact absurd h (not_returns_fail _)
  · rintro ⟨⟨text, hkey⟩, hval⟩
    exact ⟨.string text, hkey, returns_bind_pure_iff.2 hval⟩

theorem safe_entryStep_iff {kref vref : U64} {map : List (String × PlistValue)} :
    (entryStep child kref vref map).Safe () ↔
      (child kref).Safe () ∧ (Opens child (kref, true) → (child vref).Safe ()) := by
  rw [opens_true_iff, entryStep, safe_bind_iff]
  refine and_congr_right fun _ => ⟨?_, ?_⟩
  · rintro h ⟨text, hkey⟩
    exact safe_bind_pure_iff.1 (h (.string text) () hkey)
  · intro h key _ hkey
    cases key with
    | string text => exact safe_bind_pure_iff.2 (h ⟨text, hkey⟩)
    | _ => exact total_fail _ ()

end Reads

/-! ## Objects -/

section Objects

variable {b : BinaryPlist} {child : U64 → PlistM PlistValue} {off : U64} {m : U8}

/-- The first of several things to come to, and the others after it. -/
theorem forall_split_cons_iff {α : Type} {P Q : α → Prop} {a : α} {l : List α} :
    (∀ before e after, a :: l = before ++ e :: after → (∀ e' ∈ before, Q e') → P e) ↔
      P a ∧ (Q a → ∀ before e after, l = before ++ e :: after → (∀ e' ∈ before, Q e') → P e) := by
  constructor
  · intro h
    refine ⟨h [] a l rfl (by simp), fun ha before e after heq hbefore => ?_⟩
    exact h (a :: before) e after (by rw [heq, List.cons_append])
      (List.forall_mem_cons.2 ⟨ha, hbefore⟩)
  · rintro ⟨ha, hl⟩ before e after heq hbefore
    cases before with
    | nil =>
      obtain ⟨rfl, -⟩ := List.cons.inj heq
      exact ha
    | cons x before =>
      rw [List.cons_append] at heq
      obtain ⟨rfl, rfl⟩ := List.cons.inj heq
      obtain ⟨hx, hbefore⟩ := List.forall_mem_cons.1 hbefore
      exact hl hx before e after rfl hbefore

theorem forall_split_nil {α : Type} {P Q : α → Prop} (before : List α) (e : α) (after : List α)
    (h : [] = before ++ e :: after) (_ : ∀ e' ∈ before, Q e') : P e := by
  simp at h

/-- Everything an entry refers to is decoded. -/
def GoodEntry (b : BinaryPlist) (child : U64 → PlistM PlistValue) (off : ℕ) (m : U8) (j : ℕ) :
    Prop :=
  ∃ refs, b.entryRefs off m j = some refs ∧ ∀ e ∈ refs, Opens child e

/-- The decoder does not panic in what an entry refers to. -/
def FineEntry (b : BinaryPlist) (child : U64 → PlistM PlistValue) (off : ℕ) (m : U8) (j : ℕ) :
    Prop :=
  ∀ before e after, b.entryRefs off m j = some (before ++ e :: after) →
    (∀ e' ∈ before, Opens child e') → (child e.1).Safe ()

theorem array_iff (hbuf : b.buf.length ≤ isizeMax) (hsize : b.refSize.toNat ≤ 8)
    (hty : (m >>> 4).toNat = 0xa) {count first : U64}
    (hheader : b.header off.toNat (m &&& 0x0f).toNat = some (count, first.toNat))
    (hfirst : first.toNat ≤ b.buf.length)
    (hcap : count.toNat * PlistValue.valueSize ≤ isizeMax) :
    (Returns (b.arrayItems .debug child first count) ↔
      ∀ j < count.toNat, b.GoodEntry child off.toNat m j) ∧
    ((b.arrayItems .debug child first count).Safe () ↔
      ∀ j < count.toNat, (∀ i < j, b.GoodEntry child off.toNat m i) →
        b.FineEntry child off.toNat m j) := by
  unfold isizeMax PlistValue.valueSize at *
  have hrefs : ∀ j, b.entryRefs off.toNat m j =
      (b.refAt (first.toNat + j * b.refSize.toNat)).map fun r => [(r, false)] := by
    intro j
    simp only [entryRefs, hty, hheader]
  have hround : ∀ j < count.toNat, first.toNat + (j + 1) * b.refSize.toNat < 2 ^ 64 := by
    intro j hj
    have hmul : (j + 1) * b.refSize.toNat ≤ count.toNat * 8 := Nat.mul_le_mul hj hsize
    omega
  have hgood : ∀ j < count.toNat, (∀ i < j, b.GoodEntry child off.toNat m i) →
      ∀ out : List PlistValue, Returns (do
        let r ← b.readRefAt .debug first (BitVec.ofNat 64 j)
        let v ← child r
        return out ++ [v]) ↔ b.GoodEntry child off.toNat m j := by
    intro j hj _ out
    rw [(readRefAt_bind first _ (by have := count.isLt; omega) (hround j hj)).1, GoodEntry, hrefs]
    simp only [returns_bind_pure_iff, ← opens_false_iff]
    cases b.refAt (first.toNat + j * b.refSize.toNat) <;> simp
  refine ⟨returns_foldlM_iff [] hgood, safe_foldlM_iff [] hgood fun j hj _ out => ?_⟩
  rw [(readRefAt_bind first _ (by have := count.isLt; omega) (hround j hj)).2, FineEntry, hrefs]
  simp only [safe_bind_pure_iff]
  cases hr : b.refAt (first.toNat + j * b.refSize.toNat) with
  | none => simp
  | some r =>
    simp only [Option.map_some, Option.some.injEq, forall_eq']
    rw [forall_split_cons_iff]
    exact ⟨fun h => ⟨h, fun _ => forall_split_nil⟩, fun h => h.1⟩

/-- The rounds of the loop over a dictionary. The values come after the keys, so once the first
value lies in the file no later sum overflows. -/
theorem dict_iff (hbuf : b.buf.length ≤ isizeMax)
    (hty : (m >>> 4).toNat = 0xd) {count first vals : U64}
    (hheader : b.header off.toNat (m &&& 0x0f).toNat = some (count, first.toNat))
    (hvals : vals.toNat = first.toNat + count.toNat * b.refSize.toNat)
    (hfits : 0 < count.toNat → first.toNat + b.refSize.toNat ≤ b.buf.length →
      first.toNat + count.toNat * b.refSize.toNat + b.refSize.toNat < 2 ^ 64) :
    (Returns (b.dictEntries .debug child first vals count) ↔
      ∀ j < count.toNat, b.GoodEntry child off.toNat m j) ∧
    ((b.dictEntries .debug child first vals count).Safe () ↔
      ∀ j < count.toNat, (∀ i < j, b.GoodEntry child off.toNat m i) →
        b.FineEntry child off.toNat m j) := by
  unfold isizeMax at hbuf
  have hvlt := vals.isLt
  set rs := b.refSize.toNat with hrs
  have hrefs : ∀ j, b.entryRefs off.toNat m j =
      match b.refAt (first.toNat + j * rs), b.refAt (vals.toNat + j * rs) with
      | some key, some val => some [(key, true), (val, false)]
      | _, _ => none := by
    intro j
    simp only [entryRefs, hty, hheader, hvals, hrs]
  have hround : ∀ j < count.toNat, first.toNat + (j + 1) * rs < 2 ^ 64 := by
    intro j hj
    have hmul : (j + 1) * rs ≤ count.toNat * rs := Nat.mul_le_mul_right _ hj
    omega
  have hval : ∀ j < count.toNat, (∀ i < j, b.GoodEntry child off.toNat m i) →
      ∀ {kref}, b.refAt (first.toNat + j * rs) = some kref →
        vals.toNat + (j + 1) * rs < 2 ^ 64 := by
    intro j hj hprev kref hk
    rcases Nat.eq_zero_or_pos j with rfl | hpos
    · have := hfits hj (by simpa using refAt_le hk)
      omega
    · obtain ⟨refs, hentry, -⟩ := hprev 0 hpos
      rw [hrefs] at hentry
      cases hv : b.refAt (vals.toNat + 0 * rs) with
      | none =>
        rw [hv] at hentry
        cases hkey : b.refAt (first.toNat + 0 * rs) <;> rw [hkey] at hentry <;> cases hentry
      | some vref =>
        have hend := refAt_le hv
        have hmul : (j + 1) * rs ≤ count.toNat * rs := Nat.mul_le_mul_right _ hj
        omega
  have hcount := count.isLt
  have hgood : ∀ j < count.toNat, (∀ i < j, b.GoodEntry child off.toNat m i) →
      ∀ map, Returns (do
        let kref ← b.readRefAt .debug first (BitVec.ofNat 64 j)
        let vref ← b.readRefAt .debug vals (BitVec.ofNat 64 j)
        entryStep child kref vref map) ↔ b.GoodEntry child off.toNat m j := by
    intro j hj hprev map
    rw [(readRefAt_bind first _ (by omega) (hround j hj)).1, GoodEntry, hrefs]
    cases hk : b.refAt (first.toNat + j * rs) with
    | none => simp
    | some kref =>
      have hread := readRefAt_bind (b := b) vals (fun vref => entryStep child kref vref map)
        (by omega) (hval j hj hprev hk)
      simp only [Option.some.injEq, exists_eq_left', hread.1, returns_entryStep_iff]
      cases b.refAt (vals.toNat + j * rs) with
      | none => simp
      | some vref =>
        simp only [Option.some.injEq, exists_eq_left', List.forall_mem_cons]
        exact and_congr_right fun _ => (and_iff_left (by simp)).symm
  refine ⟨returns_foldlM_iff [] hgood, safe_foldlM_iff [] hgood fun j hj hprev map => ?_⟩
  change Safe (b.readRefAt .debug first (BitVec.ofNat 64 j) >>= fun kref =>
    b.readRefAt .debug vals (BitVec.ofNat 64 j) >>= fun vref =>
      entryStep child kref vref map) () ↔ _
  rw [(readRefAt_bind first _ (by omega) (hround j hj)).2, FineEntry, hrefs]
  cases hk : b.refAt (first.toNat + j * rs) with
  | none => simp
  | some kref =>
    have hread := readRefAt_bind (b := b) vals (fun vref => entryStep child kref vref map)
      (by omega) (hval j hj hprev hk)
    simp only [Option.some.injEq, forall_eq', hread.2, safe_entryStep_iff]
    cases b.refAt (vals.toNat + j * rs) with
    | none => simp
    | some vref =>
      simp only [Option.some.injEq, forall_eq']
      rw [forall_split_cons_iff, forall_split_cons_iff]
      exact ⟨fun h => ⟨h.1, fun hk => ⟨h.2 hk, fun _ => forall_split_nil⟩⟩,
        fun h => ⟨h.1, fun hk => (h.2 hk).1⟩⟩

/-- Reading a header and going on with it. -/
theorem countAndOffset_bind {α : Type} {f : U64 × U64 → PlistM α}
    (hbuf : b.buf.length ≤ isizeMax) (hoff : off.toNat < b.buf.length) (n : ℕ) :
    (b.header off.toNat n = none ∧ ¬Returns (b.countAndOffset .debug off n >>= f) ∧
      (b.countAndOffset .debug off n >>= f).Safe ()) ∨
    ∃ count first, b.header off.toNat n = some (count, first.toNat) ∧
      first.toNat ≤ b.buf.length ∧
      (Returns (b.countAndOffset .debug off n >>= f) ↔ Returns (f (count, first))) ∧
      ((b.countAndOffset .debug off n >>= f).Safe () ↔ (f (count, first)).Safe ()) := by
  unfold Returns Safe
  rw [bind_apply]
  rcases countAndOffset_cases (p := .debug) hbuf off n hoff with
    ⟨count, first, hheader, hread⟩ | ⟨hnone, e, hread⟩
  · refine Or.inr ⟨count, first, hheader, header_le hoff hheader, ?_⟩
    rw [hread]
    exact ⟨Iff.rfl, Iff.rfl⟩
  · refine Or.inl ⟨hnone, ?_⟩
    rw [hread]
    simp

/-- What the decoder does with an object, in terms of what it does with its children. -/
structure Decides (b : BinaryPlist) (child : U64 → PlistM PlistValue) (off : ℕ) (m : U8)
    (x : PlistM PlistValue) : Prop where
  returns_iff : Returns x ↔
    b.Whole off m ∧ ∀ j < b.entryCount off m, b.GoodEntry child off m j
  safe_iff : x.Safe () ↔ b.CountFits off m ∧ ∀ j < b.entryCount off m,
    (∀ i < j, b.GoodEntry child off m i) → b.FineEntry child off m j

theorem Decides.of_leaf {x : PlistM PlistValue} {off : ℕ} (hcount : b.entryCount off m = 0)
    (hreturns : Returns x ↔ b.Whole off m) (hsafe : x.Safe () ↔ b.CountFits off m) :
    b.Decides child off m x := by
  refine ⟨hreturns.trans ?_, hsafe.trans ?_⟩ <;> rw [hcount] <;> simp

/-- An object that is `len` bytes at `off + 1`. -/
theorem slice_iff (hbuf : b.buf.length ≤ isizeMax) (hoff : off.toNat < b.buf.length) {len : U64}
    {g : List U8 → PlistValue} :
    (Returns (Prog.ofChecked (Profile.debug.add off 1) >>= fun start =>
      b.slice start len >>= fun bytes => pure (g bytes)) ↔
        off.toNat + 1 + len.toNat ≤ b.buf.length) ∧
    (Prog.ofChecked (Profile.debug.add off 1) >>= fun start =>
      b.slice start len >>= fun bytes => pure (g bytes)).Safe () := by
  have hword := hbuf
  unfold isizeMax at hword
  have hone : (off + 1).toNat = off.toNat + 1 := BitVec.toNat_add_of_lt (by simp; omega)
  rw [Profile.add_of_lt (by simp; omega), ofChecked_ok_bind, returns_bind_pure_iff,
    safe_bind_pure_iff, returns_slice_iff hbuf, hone]
  exact ⟨Iff.rfl, total_slice hbuf _ _ ()⟩

/-- An object with a header, by what is made of the count. -/
theorem Decides.of_header (hbuf : b.buf.length ≤ isizeMax) (hoff : off.toNat < b.buf.length)
    {f : U64 × U64 → PlistM PlistValue} {ty : ℕ} (hty : (m >>> 4).toNat = ty)
    (hmem : ty ∈ [0x4, 0x5, 0x6, 0xa, 0xd])
    (h : ∀ count first, b.header off.toNat (m &&& 0x0f).toNat = some (count, first.toNat) →
      first.toNat ≤ b.buf.length → b.Decides child off.toNat m (f (count, first))) :
    b.Decides child off.toNat m (b.countAndOffset .debug off (m &&& 0x0f).toNat >>= f) := by
  rcases countAndOffset_bind (f := f) hbuf hoff (m &&& 0x0f).toNat with
    ⟨hnone, hreturns, hsafe⟩ | ⟨count, first, hheader, hfirst, hret, hsafe⟩
  · have hleaf : b.entryCount off.toNat m = 0 := by
      unfold entryCount
      rw [hnone]
      split <;> simp_all
    have hfits : b.CountFits off.toNat m := by
      unfold CountFits
      rw [hnone]
      split <;> simp_all
    refine .of_leaf hleaf (iff_of_false hreturns ?_) (iff_of_true hsafe hfits)
    simp only [List.mem_cons, List.not_mem_nil, or_false] at hmem
    rcases hmem with rfl | rfl | rfl | rfl | rfl <;> simp only [Whole, hty, hnone] <;> simp
  · have hdecides := h count first hheader hfirst
    exact ⟨hret.trans hdecides.returns_iff, hsafe.trans hdecides.safe_iff⟩

section Counted

variable {count first : U64}
  (hheader : b.header off.toNat (m &&& 0x0f).toNat = some (count, first.toNat))

include hheader

theorem exists_header_iff {P : U64 → ℕ → Prop} :
    (∃ c f, b.header off.toNat (m &&& 0x0f).toNat = some (c, f) ∧ P c f) ↔
      P count first.toNat := by
  rw [hheader]
  constructor
  · rintro ⟨c, f, heq, h⟩
    obtain ⟨rfl, rfl⟩ := Prod.mk.inj (Option.some.inj heq)
    exact h
  · exact fun h => ⟨count, first.toNat, rfl, h⟩

theorem decides_bytes (hbuf : b.buf.length ≤ isizeMax) {g : List U8 → PlistValue}
    (hty : (m >>> 4).toNat = 0x4 ∨ (m >>> 4).toNat = 0x5) :
    b.Decides child off.toNat m (b.slice first count >>= fun bytes => pure (g bytes)) := by
  have hleaf : b.entryCount off.toNat m = 0 := by
    rcases hty with hty | hty <;> simp [entryCount, hty]
  have hfits : b.CountFits off.toNat m := by
    rcases hty with hty | hty <;> simp [CountFits, hty]
  refine .of_leaf hleaf ?_ (iff_of_true (safe_bind_pure_iff.2 (total_slice hbuf _ _ ())) hfits)
  rw [returns_bind_pure_iff, returns_slice_iff hbuf]
  rcases hty with hty | hty <;> simp only [Whole, hty] <;>
    exact (exists_header_iff hheader (P := fun c f => f + c.toNat ≤ b.buf.length)).symm

theorem decides_utf16 (hbuf : b.buf.length ≤ isizeMax) {g : List U8 → PlistValue}
    (hty : (m >>> 4).toNat = 0x6) :
    b.Decides child off.toNat m (Prog.ofChecked (Profile.debug.mul count 2) >>= fun len =>
      b.slice first len >>= fun bytes => pure (g bytes)) := by
  have hleaf : b.entryCount off.toNat m = 0 := by
    simp [entryCount, hty]
  have hwhole : b.Whole off.toNat m ↔ first.toNat + count.toNat * 2 ≤ b.buf.length := by
    simp only [Whole, hty]
    exact exists_header_iff hheader (P := fun c f => f + c.toNat * 2 ≤ b.buf.length)
  have hfits : b.CountFits off.toNat m ↔ count.toNat * 2 < 2 ^ 64 := by
    simp only [CountFits, hty, hheader]
  by_cases hmul : count.toNat * (2 : U64).toNat < 2 ^ 64
  · rw [Profile.mul_of_lt hmul, ofChecked_ok_bind]
    refine .of_leaf hleaf ?_
      (iff_of_true (safe_bind_pure_iff.2 (total_slice hbuf _ _ ())) (hfits.2 hmul))
    rw [returns_bind_pure_iff, returns_slice_iff hbuf, BitVec.toNat_mul_of_lt hmul, hwhole]
    rfl
  · have herror : Profile.debug.mul count 2 = .error .arithmeticOverflow := if_neg hmul
    have hlarge : ¬count.toNat * 2 < 2 ^ 64 := hmul
    rw [herror]
    refine .of_leaf hleaf (iff_of_false ?_ ?_) (iff_of_false (fun h => h _ rfl) ?_)
    · rintro ⟨v, ⟨⟩⟩
    · rw [hwhole]
      unfold isizeMax at hbuf
      omega
    · exact fun h => hlarge (hfits.1 h)

theorem decides_array (hbuf : b.buf.length ≤ isizeMax) (hsize : b.refSize.toNat ≤ 8)
    (hfirst : first.toNat ≤ b.buf.length) (hty : (m >>> 4).toNat = 0xa) :
    b.Decides child off.toNat m
      (Prog.ofChecked (withCapacity count.toNat PlistValue.valueSize) >>= fun _ =>
        b.arrayItems .debug child first count >>= fun items => pure (.array items)) := by
  have hcount : b.entryCount off.toNat m = count.toNat := by
    simp only [entryCount, hty, hheader]
  have hfits : b.CountFits off.toNat m ↔ count.toNat * PlistValue.valueSize ≤ isizeMax := by
    simp only [CountFits, hty, hheader]
  have hwhole : b.Whole off.toNat m ↔ count.toNat * PlistValue.valueSize ≤ isizeMax := by
    simp only [Whole, hty]
    exact exists_header_iff hheader (P := fun c _ => c.toNat * PlistValue.valueSize ≤ isizeMax)
  rw [withCapacity]
  by_cases hcap : count.toNat * PlistValue.valueSize ≤ isizeMax
  · obtain ⟨h₁, h₂⟩ := @array_iff b child off m hbuf hsize hty count first hheader hfirst hcap
    rw [if_pos hcap, ofChecked_ok_bind]
    refine ⟨?_, ?_⟩
    · rw [returns_bind_pure_iff, h₁, hcount, hwhole]
      exact (and_iff_right hcap).symm
    · rw [safe_bind_pure_iff, h₂, hcount, hfits]
      exact (and_iff_right hcap).symm
  · rw [if_neg hcap]
    refine ⟨iff_of_false ?_ fun h => hcap (hwhole.1 h.1),
      iff_of_false (fun h => h _ rfl) fun h => hcap (hfits.1 h.1)⟩
    rintro ⟨v, ⟨⟩⟩

omit hheader in
/-- A dictionary whose values start too far up panics behind its first key. -/
theorem not_safe_dictEntries (hbuf : b.buf.length ≤ isizeMax) {vals : U64} (hpos : 0 < count.toNat)
    (hfirst : first.toNat + b.refSize.toNat ≤ b.buf.length)
    (hlarge : ¬vals.toNat + b.refSize.toNat < 2 ^ 64) :
    ¬(b.dictEntries .debug child first vals count).Safe () := by
  unfold isizeMax at hbuf
  intro hsafe
  obtain ⟨n, hn⟩ := Nat.exists_eq_add_of_lt hpos
  rw [dictEntries, hn, Nat.zero_add, List.range'_succ, List.foldlM_cons] at hsafe
  have hround := (safe_bind_iff.1 hsafe).1
  rw [(readRefAt_bind first _ (by omega) (by omega)).2] at hround
  have hkey : b.refAt (first.toNat + 0 * b.refSize.toNat) =
      some (beUint ((b.buf.drop first.toNat).take b.refSize.toNat)) := by
    rw [Nat.zero_mul, Nat.add_zero, refAt, numberAt, if_pos hfirst]
  have hval := safe_readRefAt_iff.1 (safe_bind_iff.1 (hround _ hkey)).1
  rw [show (BitVec.ofNat 64 0).toNat = 0 from rfl] at hval
  omega

theorem decides_dict (hbuf : b.buf.length ≤ isizeMax) (hfirst : first.toNat ≤ b.buf.length)
    (hty : (m >>> 4).toNat = 0xd) :
    b.Decides child off.toNat m (Prog.ofChecked (Profile.debug.mul count b.refSize) >>= fun size =>
      Prog.ofChecked (Profile.debug.add first size) >>= fun valsOff =>
        b.dictEntries .debug child first valsOff count >>= fun entries =>
          pure (.dict entries)) := by
  have hword := hbuf
  unfold isizeMax at hword
  have hcount : b.entryCount off.toNat m = count.toNat := by
    simp only [entryCount, hty, hheader]
  have hfits : b.CountFits off.toNat m ↔
      first.toNat + count.toNat * b.refSize.toNat < 2 ^ 64 ∧
        (0 < count.toNat → first.toNat + b.refSize.toNat ≤ b.buf.length →
          first.toNat + count.toNat * b.refSize.toNat + b.refSize.toNat < 2 ^ 64) := by
    simp only [CountFits, hty, hheader]
  have hwhole : b.Whole off.toNat m := by
    simp only [Whole, hty]
    exact ⟨count, first.toNat, hheader⟩
  -- an entry is not in the file when the values start past the end of it
  have hbad : 0 < count.toNat →
      b.buf.length < first.toNat + count.toNat * b.refSize.toNat + b.refSize.toNat →
      ¬(b.Whole off.toNat m ∧ ∀ j < b.entryCount off.toNat m, b.GoodEntry child off.toNat m j) := by
    rintro hpos hlarge ⟨-, hgood⟩
    obtain ⟨refs, hrefs, -⟩ := hgood 0 (by rw [hcount]; exact hpos)
    simp only [entryRefs, hty, hheader, Nat.zero_mul, Nat.add_zero] at hrefs
    cases hval : b.refAt (first.toNat + count.toNat * b.refSize.toNat) with
    | some r =>
      have := refAt_le hval
      omega
    | none =>
      rw [hval] at hrefs
      cases hkey : b.refAt first.toNat <;> rw [hkey] at hrefs <;> cases hrefs
  -- where the decoder panics, the count does not fit
  have hpanic : ∀ {x : PlistM PlistValue}, ¬x.Safe () → 0 < count.toNat →
      b.buf.length < first.toNat + count.toNat * b.refSize.toNat + b.refSize.toNat →
      ¬b.CountFits off.toNat m → b.Decides child off.toNat m x := by
    intro x hsafe hpos hlarge hnot
    refine ⟨iff_of_false ?_ (hbad hpos hlarge), iff_of_false hsafe fun h => hnot h.1⟩
    rintro ⟨v, hv⟩
    exact hsafe (safe_of_ok hv)
  by_cases hsum : first.toNat + count.toNat * b.refSize.toNat < 2 ^ 64
  · have hmul : (count * b.refSize).toNat = count.toNat * b.refSize.toNat :=
      BitVec.toNat_mul_of_lt (by omega)
    have hvals : (first + count * b.refSize).toNat =
        first.toNat + count.toNat * b.refSize.toNat := by
      rw [BitVec.toNat_add_of_lt (by omega), hmul]
    rw [Profile.mul_of_lt (by omega), ofChecked_ok_bind, Profile.add_of_lt (by omega),
      ofChecked_ok_bind]
    by_cases hkeys : 0 < count.toNat → first.toNat + b.refSize.toNat ≤ b.buf.length →
        first.toNat + count.toNat * b.refSize.toNat + b.refSize.toNat < 2 ^ 64
    · obtain ⟨h₁, h₂⟩ := @dict_iff b child off m hbuf hty count first _ hheader hvals hkeys
      refine ⟨?_, ?_⟩
      · rw [returns_bind_pure_iff, h₁, hcount]
        exact (and_iff_right hwhole).symm
      · rw [safe_bind_pure_iff, h₂, hcount, hfits]
        exact (and_iff_right ⟨hsum, hkeys⟩).symm
    · push Not at hkeys
      obtain ⟨hpos, hin, hlarge⟩ := hkeys
      refine hpanic ?_ hpos (by omega) fun h => not_lt.2 hlarge ((hfits.1 h).2 hpos hin)
      rw [safe_bind_pure_iff]
      exact not_safe_dictEntries hbuf hpos hin (by rw [hvals]; omega)
  · have hpos : 0 < count.toNat := by
      rcases Nat.eq_zero_or_pos count.toNat with hzero | hpos
      · rw [hzero, Nat.zero_mul] at hsum
        omega
      · exact hpos
    refine hpanic ?_ hpos (by omega) fun h => hsum (hfits.1 h).1
    intro hsafe
    obtain ⟨size, hsize, hsafe⟩ := safe_ofChecked_bind_iff.1 hsafe
    obtain ⟨vals, hvals, -⟩ := safe_ofChecked_bind_iff.1 hsafe
    have hmul := Profile.mul_isOk_iff.1 ⟨size, hsize⟩ rfl
    obtain rfl := Profile.mul_eq_ok hsize
    have hadd := Profile.add_isOk_iff.1 ⟨vals, hvals⟩ rfl
    rw [BitVec.toNat_mul_of_lt hmul] at hadd
    exact hsum hadd

end Counted

theorem toNat_type_lt (m : U8) : (m >>> 4).toNat < 16 := by
  have hlt := m.isLt
  rw [BitVec.toNat_ushiftRight, Nat.shiftRight_eq_div_pow]
  omega

/-- An object of a type that there is not. -/
theorem decides_unsupported {e : PlistError} (hwhole : ¬b.Whole off.toNat m)
    (hfits : b.CountFits off.toNat m) (hcount : b.entryCount off.toNat m = 0) :
    b.Decides child off.toNat m (Prog.fail e) :=
  .of_leaf hcount (iff_of_false (not_returns_fail e) hwhole) (iff_of_true (total_fail e ()) hfits)

theorem decides_other {ty : ℕ} (hty : (m >>> 4).toNat = ty)
    (hmem : ty ∈ [0x7, 0x9, 0xb, 0xc, 0xe, 0xf]) :
    b.Decides child off.toNat m (Prog.fail (.unsupportedType m)) := by
  simp only [List.mem_cons, List.not_mem_nil, or_false] at hmem
  rcases hmem with rfl | rfl | rfl | rfl | rfl | rfl <;>
    exact decides_unsupported (by simp [Whole, hty]) (by simp [CountFits, hty])
      (by simp [entryCount, hty])

theorem decides_bool (hty : (m >>> 4).toNat = 0x0) :
    b.Decides child off.toNat m (b.decode .debug child off m) := by
  have hleaf : b.entryCount off.toNat m = 0 := by
    simp [entryCount, hty]
  have hfits : b.CountFits off.toNat m := by
    simp [CountFits, hty]
  have hwhole : b.Whole off.toNat m ↔ (m &&& 0x0f).toNat = 8 ∨ (m &&& 0x0f).toNat = 9 := by
    simp only [Whole, hty]
  simp only [decode, hty]
  split
  · exact .of_leaf hleaf (iff_of_true (returns_pure _) (hwhole.2 (Or.inl ‹_›)))
      (iff_of_true (total_pure _ ()) hfits)
  · exact .of_leaf hleaf (iff_of_true (returns_pure _) (hwhole.2 (Or.inr ‹_›)))
      (iff_of_true (total_pure _ ()) hfits)
  · exact decides_unsupported (fun h => (hwhole.1 h).elim ‹_› ‹_›) hfits hleaf

theorem decides_real (hbuf : b.buf.length ≤ isizeMax) (hoff : off.toNat < b.buf.length)
    (hty : (m >>> 4).toNat = 0x2) :
    b.Decides child off.toNat m (b.decode .debug child off m) := by
  have hleaf : b.entryCount off.toNat m = 0 := by
    simp [entryCount, hty]
  have hfits : b.CountFits off.toNat m := by
    simp [CountFits, hty]
  have hwhole : b.Whole off.toNat m ↔ ((m &&& 0x0f).toNat = 2 ∨ (m &&& 0x0f).toNat = 3) ∧
      off.toNat + 1 + 2 ^ (m &&& 0x0f).toNat ≤ b.buf.length := by
    simp only [Whole, hty]
  have hwidth := toNat_one_shl (toNat_nibble m)
  have hword := hbuf
  unfold isizeMax at hword
  have hone : (off + 1).toNat = off.toNat + 1 := BitVec.toNat_add_of_lt (by simp; omega)
  simp only [decode, hty]
  rw [Profile.add_of_lt (by simp; omega), ofChecked_ok_bind]
  refine .of_leaf hleaf ?_ (iff_of_true (safe_bind_iff.2 ⟨total_slice hbuf _ _ (), ?_⟩) hfits)
  · rw [hwhole, returns_bind_iff, and_comm, ← hwidth, ← hone, ← returns_slice_iff hbuf, Returns]
    rw [exists_and_right.symm]
    refine exists_congr fun bytes => and_congr_right fun _ => ?_
    split
    · exact iff_of_true (returns_pure _) (Or.inl ‹_›)
    · exact iff_of_true (returns_pure _) (Or.inr ‹_›)
    · exact iff_of_false (not_returns_fail _) (fun h => h.elim ‹_› ‹_›)
  · intro bytes _ _
    split
    · exact total_pure _ ()
    · exact total_pure _ ()
    · exact total_fail _ ()

/-- What the decoder does with any object. -/
theorem decides_decode (hbuf : b.buf.length ≤ isizeMax) (hsize : b.refSize.toNat ≤ 8)
    (hoff : off.toNat < b.buf.length) :
    b.Decides child off.toNat m (b.decode .debug child off m) := by
  have hnibble := toNat_nibble m
  have hwidth := toNat_one_shl hnibble
  have hlt := toNat_type_lt m
  -- the types that are a number of bytes behind the marker
  have hbytes : ∀ (len : U64) (g : List U8 → PlistValue), b.entryCount off.toNat m = 0 →
      b.CountFits off.toNat m →
      (b.Whole off.toNat m ↔ off.toNat + 1 + len.toNat ≤ b.buf.length) →
      b.Decides child off.toNat m (Prog.ofChecked (Profile.debug.add off 1) >>= fun start =>
        b.slice start len >>= fun bytes => pure (g bytes)) := by
    intro len g hleaf hfits hwhole
    obtain ⟨hreturns, hsafe⟩ := slice_iff (g := g) hbuf hoff
    exact .of_leaf hleaf (hreturns.trans hwhole.symm) (iff_of_true hsafe hfits)
  interval_cases hty : (m >>> 4).toNat
  · exact decides_bool hty
  · simp only [decode, hty]
    exact hbytes _ _ (by simp [entryCount, hty]) (by simp [CountFits, hty])
      (by simp only [Whole, hty, hwidth])
  · exact decides_real hbuf hoff hty
  · simp only [decode, hty]
    exact hbytes _ _ (by simp [entryCount, hty]) (by simp [CountFits, hty])
      (by simp only [Whole, hty]; rfl)
  · simp only [decode, hty]
    exact .of_header hbuf hoff hty (by simp) fun count first hheader _ =>
      decides_bytes hheader hbuf (Or.inl hty)
  · simp only [decode, hty]
    exact .of_header hbuf hoff hty (by simp) fun count first hheader _ =>
      decides_bytes hheader hbuf (Or.inr hty)
  · simp only [decode, hty]
    exact .of_header hbuf hoff hty (by simp) fun count first hheader _ =>
      decides_utf16 hheader hbuf hty
  · simp only [decode, hty]
    exact decides_other hty (by simp)
  · simp only [decode, hty]
    refine hbytes _ _ (by simp [entryCount, hty]) (by simp [CountFits, hty]) ?_
    rw [BitVec.toNat_ofNat, Nat.mod_eq_of_lt (by omega)]
    simp only [Whole, hty]
  · simp only [decode, hty]
    exact decides_other hty (by simp)
  · simp only [decode, hty]
    exact .of_header hbuf hoff hty (by simp) fun count first hheader hfirst =>
      decides_array hheader hbuf hsize hfirst hty
  · simp only [decode, hty]
    exact decides_other hty (by simp)
  · simp only [decode, hty]
    exact decides_other hty (by simp)
  · simp only [decode, hty]
    exact .of_header hbuf hoff hty (by simp) fun count first hheader hfirst =>
      decides_dict hheader hbuf hfirst hty
  · simp only [decode, hty]
    exact decides_other hty (by simp)
  · simp only [decode, hty]
    exact decides_other hty (by simp)

/-- Only an object of a string type is decoded to a string. -/
theorem decode_eq_string_iff {p : Profile} :
    Yields (fun v => (∃ text, v = .string text) ↔ (m >>> 4).toNat = 0x5 ∨ (m >>> 4).toNat = 0x6)
      (b.decode p child off m) := by
  have hlt := toNat_type_lt m
  interval_cases hty : (m >>> 4).toNat <;> simp only [decode, hty] <;>
    repeat' first
      | exact yields_fail _ _
      | refine yields_bind fun _ => ?_
      | (refine yields_pure ?_; simp)
      | split

end Objects

/-! ## The whole pool -/

section Pool

variable {b : BinaryPlist}

theorem StartsAt.unique {i : U64} {off off' : ℕ} {m m' : U8} (h : b.StartsAt i off m)
    (h' : b.StartsAt i off' m') : off = off' ∧ m = m' := by
  obtain ⟨⟨o, ho, rfl⟩, hm⟩ := h
  obtain ⟨⟨o', ho', rfl⟩, hm'⟩ := h'
  obtain rfl := Option.some.inj (ho.symm.trans ho')
  exact ⟨rfl, Option.some.inj (hm.symm.trans hm')⟩

/-- The decoder finds an object and decodes it, or there is none. -/
theorem objectAt_cases (p : Profile) (left : ℕ) (i : U64) :
    (∃ off m, b.StartsAt i off.toNat m ∧ off.toNat < b.buf.length ∧
      b.objectAt p (left + 1) i () = b.decode p (b.objectAt p left) off m ()) ∨
    (∀ off m, ¬b.StartsAt i off m) ∧ ∃ e, b.objectAt p (left + 1) i () = .err e () := by
  cases hoff : b.offsets[i.toNat]? with
  | none =>
    refine Or.inr ⟨?_, .badReference, by rw [objectAt, hoff]; rfl⟩
    rintro off m ⟨⟨o, ho, -⟩, -⟩
    rw [hoff] at ho
    cases ho
  | some off =>
    have hrun : b.objectAt p (left + 1) i () =
        (b.byteAt off >>= fun m => b.decode p (b.objectAt p left) off m) () := by
      rw [objectAt, hoff]
    rw [hrun, bind_apply, byteAt_apply]
    cases hm : b.buf[off.toNat]? with
    | none =>
      refine Or.inr ⟨?_, .truncated, rfl⟩
      rintro off' m ⟨⟨o, ho, rfl⟩, hm'⟩
      obtain rfl := Option.some.inj (hoff.symm.trans ho)
      rw [hm] at hm'
      cases hm'
    | some m =>
      refine Or.inl ⟨off, m, ⟨⟨off, hoff, rfl⟩, hm⟩, ?_, rfl⟩
      exact (List.getElem?_eq_some_iff.1 hm).1

variable (hbuf : b.buf.length ≤ isizeMax) (hsize : b.refSize.toNat ≤ 8)

include hbuf hsize

/-- The decoder accepts exactly what is well formed. -/
theorem opens_objectAt_iff : ∀ (left : ℕ) (e : U64 × Bool),
    Opens (b.objectAt .debug left) e ↔ b.Decodes left e.1 ∧ (e.2 = true → b.IsText e.1)
  | 0, e => by
    refine iff_of_false ?_ fun h => h.1
    rintro ⟨v, ⟨⟩, -⟩
  | left + 1, e => by
    rcases objectAt_cases (b := b) .debug left e.1 with
      ⟨off, m, hstart, hoff, hrun⟩ | ⟨hnone, err, hrun⟩
    · have hdecides := @decides_decode b (b.objectAt .debug left) off m hbuf hsize hoff
      have hdecodes : b.Decodes (left + 1) e.1 ↔
          Returns (b.decode .debug (b.objectAt .debug left) off m) := by
        rw [hdecides.returns_iff]
        simp only [GoodEntry, opens_objectAt_iff left]
        constructor
        · rintro ⟨off', m', hstart', h⟩
          obtain ⟨rfl, rfl⟩ := hstart.unique hstart'
          exact h
        · exact fun h => ⟨off.toNat, m, hstart, h⟩
      have htext : b.IsText e.1 ↔ (m >>> 4).toNat = 0x5 ∨ (m >>> 4).toNat = 0x6 := by
        constructor
        · rintro ⟨off', m', hstart', h⟩
          obtain ⟨rfl, rfl⟩ := hstart.unique hstart'
          exact h
        · exact fun h => ⟨off.toNat, m, hstart, h⟩
      rw [hdecodes, htext, Opens, hrun]
      constructor
      · rintro ⟨v, hv, hkey⟩
        exact ⟨⟨v, hv⟩, fun he => (decode_eq_string_iff () v () hv).1 (hkey he)⟩
      · rintro ⟨⟨v, hv⟩, hkey⟩
        exact ⟨v, hv, fun he => (decode_eq_string_iff () v () hv).2 (hkey he)⟩
    · refine iff_of_false ?_ ?_
      · rintro ⟨v, hv, -⟩
        rw [hrun] at hv
        cases hv
      · rintro ⟨⟨off, m, hstart, -⟩, -⟩
        exact hnone off m hstart

/-- What a container makes the decoder come to, as its loop sees it. -/
theorem comes_iff {left : ℕ} {i r : U64} {off : ℕ} {m : U8} (hstart : b.StartsAt i off m) :
    b.Comes (left + 1, i) (left, r) ↔ ∃ j < b.entryCount off m, ∃ before k after,
      b.entryRefs off m j = some (before ++ (r, k) :: after) ∧
      (∀ e ∈ before, Opens (b.objectAt .debug left) e) ∧
      ∀ i < j, b.GoodEntry (b.objectAt .debug left) off m i := by
  simp only [GoodEntry, opens_objectAt_iff hbuf hsize left]
  constructor
  · rintro ⟨off', m', hstart', -, h⟩
    obtain ⟨rfl, rfl⟩ := hstart.unique hstart'
    exact h
  · exact fun h => ⟨off, m, hstart, rfl, h⟩

/-- Decoding an object is safe exactly if the count of every object the decoder comes to fits. -/
theorem safe_objectAt_iff : ∀ (left : ℕ) (i : U64),
    (b.objectAt .debug left i).Safe () ↔ ∀ x, ReflTransGen b.Comes (left, i) x → b.FitsAt x
  | 0, i => by
    refine iff_of_true (total_fail _ ()) fun x hx => ?_
    rcases ReflTransGen.cases_head hx with rfl | ⟨y, ⟨_, _, _, hlevel, _⟩, _⟩
    · exact fun h => absurd h (Nat.lt_irrefl 0)
    · omega
  | left + 1, i => by
    have hhead : (∀ x, ReflTransGen b.Comes (left + 1, i) x → b.FitsAt x) ↔
        b.FitsAt (left + 1, i) ∧
          ∀ r, b.Comes (left + 1, i) (left, r) → (b.objectAt .debug left r).Safe () := by
      simp only [safe_objectAt_iff left]
      constructor
      · intro h
        exact ⟨h _ .refl, fun r hr x hx => h x (.head hr hx)⟩
      · rintro ⟨hfits, h⟩ x hx
        rcases ReflTransGen.cases_head hx with rfl | ⟨⟨left', r⟩, hcomes, hx⟩
        · exact hfits
        · obtain rfl : left = left' := by
            obtain ⟨_, _, _, hlevel, _⟩ := hcomes
            simpa using hlevel
          exact h r hcomes x hx
    rw [hhead]
    unfold Safe
    rcases objectAt_cases (b := b) .debug left i with
      ⟨off, m, hstart, hoff, hrun⟩ | ⟨hnone, err, hrun⟩
    · have hdecides := @decides_decode b (b.objectAt .debug left) off m hbuf hsize hoff
      rw [hrun]
      refine hdecides.safe_iff.trans (and_congr ?_ ?_)
      · constructor
        · intro h _ off' m' hstart'
          obtain ⟨rfl, rfl⟩ := hstart.unique hstart'
          exact h
        · exact fun h => h (Nat.succ_pos left) off.toNat m hstart
      · simp only [comes_iff hbuf hsize hstart]
        constructor
        · rintro h r ⟨j, hj, before, k, after, hrefs, hbefore, hprev⟩
          exact h j hj hprev before (r, k) after hrefs hbefore
        · intro h j hj hprev before e after hrefs hbefore
          exact h e.1 ⟨j, hj, before, e.2, after, hrefs, hbefore, hprev⟩
    · rw [hrun]
      refine iff_of_true (by rintro _ ⟨⟩) ⟨fun _ off m hstart => absurd hstart (hnone off m), ?_⟩
      rintro r ⟨off, m, hstart, -⟩
      exact absurd hstart (hnone off m)

end Pool

end BinaryPlist

namespace Plist

open BinaryPlist

/-- The table of offsets can be reserved, and so fits the count of every object that the decoder
comes to from the top object. Nothing is asked of what is no binary file with a good trailer. -/
def CountsFit (bytes : List U8) : Prop :=
  bplistMagic.isPrefixOf bytes → 8 + 32 ≤ bytes.length → (trailerOf bytes).WellFormed bytes →
    (trailerOf bytes).numObjects.toNat * 8 ≤ isizeMax ∧
    ∀ x, ReflTransGen
      (Comes ⟨bytes, (trailerOf bytes).refSize, offsetTable bytes (trailerOf bytes)⟩)
      (129, (trailerOf bytes).topObject) x →
      FitsAt ⟨bytes, (trailerOf bytes).refSize, offsetTable bytes (trailerOf bytes)⟩ x

/-- A debug build decodes a byte string without a panic exactly if the counts in it fit. -/
theorem never_panics_iff {bytes : List U8} (hbytes : bytes.length ≤ isizeMax) :
    (∀ e, parse .debug bytes () ≠ .panic e) ↔ CountsFit bytes := by
  change (parse .debug bytes).Safe () ↔ _
  unfold parse CountsFit
  by_cases hmagic : bplistMagic.isPrefixOf bytes
  · rw [if_pos hmagic]
    simp only [hmagic, forall_const]
    unfold Safe
    rw [parse_apply hbytes]
    by_cases hshort : bytes.length < 8 + 32
    · rw [if_pos hshort]
      exact iff_of_true (by rintro _ ⟨⟩) fun h => absurd h (not_le.2 hshort)
    by_cases hwf : (trailerOf bytes).WellFormed bytes
    · simp only [if_neg hshort, hwf, not_true_eq_false, if_false, not_lt.1 hshort, forall_const]
      by_cases hcap : (trailerOf bytes).numObjects.toNat * 8 ≤ isizeMax
      · simp only [hcap, not_true_eq_false, if_false, true_and]
        exact safe_objectAt_iff hbytes hwf.2.2.2.1 129 _
      · rw [if_pos hcap]
        exact iff_of_false (fun h => h _ rfl) fun h => hcap h.1
    · rw [if_neg hshort, if_pos hwf]
      exact iff_of_true (by rintro _ ⟨⟩) fun _ h => absurd h hwf
  · rw [if_neg hmagic]
    refine iff_of_true ?_ fun h => absurd h hmagic
    split_ifs
    · exact Xml.safe_parse bytes
    · exact total_fail _ ()

/-- A file with one object, an array that says it has `2 ^ 63` items. -/
def hugeArray : List U8 :=
  bplistMagic ++ [0xaf, 0x13, 0x80, 0, 0, 0, 0, 0, 0, 0] ++ [0x08] ++
    [0, 0, 0, 0, 0, 0, 1, 1] ++ beBytes 8 1 ++ beBytes 8 0 ++ beBytes 8 18

theorem never_panics_iff_hugeArray :
    hugeArray.length ≤ isizeMax ∧
      ((∀ e, parse .debug hugeArray () ≠ .panic e) ↔ CountsFit hugeArray) :=
  ⟨by decide, never_panics_iff (by decide)⟩

theorem hugeArray_panics :
    ¬∀ bytes : List U8, bytes.length ≤ isizeMax → ∀ e, parse .debug bytes () ≠ .panic e := by
  intro h
  exact h hugeArray (by decide) .capacityOverflow (by rfl)

end Plist

end IosEmu
