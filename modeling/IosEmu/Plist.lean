import IosEmu.Common
import IosEmu.Outcome
import IosEmu.SortedMap
import IosEmu.Unicode
import Mathlib.Data.String.Basic
import Mathlib.Order.Lattice

/-!
# Property lists

`PlistValue` is a decoded property list. A dictionary is its list of entries in increasing
order of their keys, as the search tree keeps them; `PlistValue.Proper` says that it is in
order, and that the vectors of a value are no longer than vectors can be.

A decoder returns a value or a `PlistError`, or panics. There is no state to leave behind.
-/

open SysLib

namespace IosEmu

/-- A decoded node. A real number is given by its bits. -/
inductive PlistValue
  | bool (b : Bool)
  | integer (i : BitVec 64)
  | real (bits : BitVec 64)
  | string (s : String)
  | data (bytes : List U8)
  | array (items : List PlistValue)
  | dict (entries : List (String × PlistValue))

/-- Why a property list is refused. -/
inductive PlistError
  | truncated
  | badTrailer
  | badReference
  | unsupportedType (marker : U8)
  | xml (message : String)
  | notAPlist
  deriving DecidableEq, Repr

/-- A decoder. -/
abbrev PlistM := Prog PlistError Panic Unit

namespace PlistValue

/-- Induction over the nodes of a value. -/
theorem induction {P : PlistValue → Prop} (hbool : ∀ b, P (.bool b))
    (hinteger : ∀ i, P (.integer i)) (hreal : ∀ bits, P (.real bits))
    (hstring : ∀ s, P (.string s)) (hdata : ∀ bytes, P (.data bytes))
    (harray : ∀ items, (∀ v ∈ items, P v) → P (.array items))
    (hdict : ∀ entries, (∀ e ∈ entries, P e.2) → P (.dict entries)) : ∀ v, P v
  | .bool b => hbool b
  | .integer i => hinteger i
  | .real bits => hreal bits
  | .string s => hstring s
  | .data bytes => hdata bytes
  | .array items => harray items fun v _ =>
    induction hbool hinteger hreal hstring hdata harray hdict v
  | .dict entries => hdict entries fun e _ =>
    induction hbool hinteger hreal hstring hdata harray hdict e.2
termination_by v => sizeOf v
decreasing_by
  · have := List.sizeOf_lt_of_mem ‹v ∈ items›
    simp only [array.sizeOf_spec]
    omega
  · have hmem := List.sizeOf_lt_of_mem ‹e ∈ entries›
    have hpair : sizeOf e = 1 + sizeOf e.1 + sizeOf e.2 := by
      obtain ⟨k, v⟩ := e
      rfl
    simp only [dict.sizeOf_spec]
    omega

/-! ## Depth -/

mutual

/-- How many levels a value has : one, and those of its deepest child. -/
def levels : PlistValue → ℕ
  | .array items => 1 + levelsOfItems items
  | .dict entries => 1 + levelsOfEntries entries
  | _ => 1

def levelsOfItems : List PlistValue → ℕ
  | [] => 0
  | v :: l => max v.levels (levelsOfItems l)

def levelsOfEntries : List (String × PlistValue) → ℕ
  | [] => 0
  | (_, v) :: l => max v.levels (levelsOfEntries l)

end

theorem levelsOfItems_le_iff {n : ℕ} :
    ∀ {l : List PlistValue}, levelsOfItems l ≤ n ↔ ∀ v ∈ l, v.levels ≤ n
  | [] => by simp [levelsOfItems]
  | v :: l => by
    rw [levelsOfItems, max_le_iff, levelsOfItems_le_iff, List.forall_mem_cons]

theorem levelsOfEntries_le_iff {n : ℕ} :
    ∀ {l : List (String × PlistValue)}, levelsOfEntries l ≤ n ↔ ∀ e ∈ l, e.2.levels ≤ n
  | [] => by simp [levelsOfEntries]
  | (k, v) :: l => by
    rw [levelsOfEntries, max_le_iff, levelsOfEntries_le_iff, List.forall_mem_cons]

theorem levels_pos (v : PlistValue) : 0 < v.levels := by
  cases v <;> simp [levels]

/-! ## Values that exist -/

/-- `size_of::<PlistValue>()` : a tag and the largest variants, which take three words. -/
def valueSize : ℕ := 32

mutual

/-- The dictionaries are in order, and the vectors can be allocated. -/
def Proper : PlistValue → Prop
  | .array items => items.length * valueSize ≤ isizeMax ∧ ProperItems items
  | .dict entries => entries.Pairwise (fun e e' => e.1 < e'.1) ∧ ProperEntries entries
  | _ => True

def ProperItems : List PlistValue → Prop
  | [] => True
  | v :: l => v.Proper ∧ ProperItems l

def ProperEntries : List (String × PlistValue) → Prop
  | [] => True
  | (_, v) :: l => v.Proper ∧ ProperEntries l

end

theorem properItems_iff : ∀ {l : List PlistValue}, ProperItems l ↔ ∀ v ∈ l, v.Proper
  | [] => by simp [ProperItems]
  | v :: l => by rw [ProperItems, properItems_iff, List.forall_mem_cons]

theorem properEntries_iff :
    ∀ {l : List (String × PlistValue)}, ProperEntries l ↔ ∀ e ∈ l, e.2.Proper
  | [] => by simp [ProperEntries]
  | (k, v) :: l => by rw [ProperEntries, properEntries_iff, List.forall_mem_cons]

end PlistValue

/-- `Vec::with_capacity(count)` of elements of `size` bytes. -/
def withCapacity (count size : ℕ) : Except Panic Unit :=
  if count * size ≤ isizeMax then .ok () else .error .capacityOverflow

/-- `&buf[start..stop]`. -/
def indexRange (buf : List U8) (start stop : ℕ) : Except Panic (List U8) :=
  if start ≤ stop ∧ stop ≤ buf.length then .ok ((buf.drop start).take (stop - start))
  else .error .sliceOutOfRange

end IosEmu
