import IosEmu.Plist
import Mathlib.Data.List.Induction

/-!
# Binary property lists

A `bplist00` file is a pool of objects, a table of their offsets and a trailer that says how
wide offsets and references are. An object starts with a marker : its type, and a small number
that is a width or a count. Containers hold references, which are indices into the table.

The decoder follows references down from the top object. It is given how many levels it may
still go down, where the source counts the depth up to 128 : `objectAt (left + 1)` is the
source's call at depth `128 - left`.
-/

open SysLib

namespace IosEmu

/-- `b"bplist00"`. -/
def bplistMagic : List U8 :=
  [0x62, 0x70, 0x6c, 0x69, 0x73, 0x74, 0x30, 0x30]

/-- Big-endian unsigned integer. -/
def beUint (b : List U8) : U64 :=
  b.foldl (fun acc x => acc <<< 8 ||| x.setWidth 64) 0

def beU64 (b : List U8) : U64 :=
  beUint (b.take 8)

/-- Big-endian signed integer. Eight bytes are two's complement. -/
def beInt (b : List U8) : BitVec 64 :=
  if b.length = 8 then beU64 b else beUint b

/-- `x as f64` of the bits of an `f32`. -/
def f64OfF32 (x : BitVec 32) : BitVec 64 :=
  let sign := x.toNat / 2 ^ 31
  let exponent := x.toNat / 2 ^ 23 % 256
  let fraction := x.toNat % 2 ^ 23
  let magnitude :=
    if exponent = 255 then
      0x7ff * 2 ^ 52 + if fraction = 0 then 0 else fraction * 2 ^ 29 % 2 ^ 51 + 2 ^ 51
    else if exponent = 0 then
      if fraction = 0 then 0
      else
        let k := Nat.log2 fraction
        (874 + k) * 2 ^ 52 + (fraction - 2 ^ k) * 2 ^ (52 - k)
    else (896 + exponent) * 2 ^ 52 + fraction * 2 ^ 29
  BitVec.ofNat 64 (sign * 2 ^ 63 + magnitude)

/-- `bytes.chunks_exact(2).map(u16::from_be_bytes)`. -/
def unitsOfBytes : List U8 → List Unit16
  | hi :: lo :: l => (hi ++ lo : BitVec 16) :: unitsOfBytes l
  | _ => []

structure BinaryPlist where
  buf : List U8
  refSize : U64
  offsets : List U64

namespace BinaryPlist

variable (p : Profile) (b : BinaryPlist)

/-- `self.buf.get(off).ok_or(Truncated)`. -/
def byteAt (off : U64) : PlistM U8 :=
  match b.buf[off.toNat]? with
  | some byte => return byte
  | none => Prog.fail .truncated

def slice (off len : U64) : PlistM (List U8) :=
  match checkedAdd off len with
  | none => Prog.fail .truncated
  | some stop =>
    if stop.toNat ≤ b.buf.length then return (b.buf.drop off.toNat).take len.toNat
    else Prog.fail .truncated

def readRef (at_ : U64) : PlistM U64 := do
  let stop ← Prog.ofChecked (p.add at_ b.refSize)
  if b.buf.length < stop.toNat then Prog.fail .truncated
  else
    let bytes ← Prog.ofChecked (indexRange b.buf at_.toNat stop.toNat)
    return beUint bytes

/-- The count of an object and the offset of its first element. -/
def countAndOffset (off : U64) (n : ℕ) : PlistM (U64 × U64) := do
  let next ← Prog.ofChecked (p.add off 1)
  if n ≠ 0x0f then return (BitVec.ofNat 64 n, next)
  else
    let sizeMarker ← b.byteAt next
    if sizeMarker >>> 4 ≠ 0x1 then Prog.fail .badTrailer
    else
      let intLen := (1 : U64) <<< (sizeMarker &&& 0x0f).toNat
      let start ← Prog.ofChecked (p.add off 2)
      let bytes ← b.slice start intLen
      let first ← Prog.ofChecked (p.add start intLen)
      return (beUint bytes, first)

/-- `self.read_ref(base + i * self.ref_size)`. -/
def readRefAt (base i : U64) : PlistM U64 := do
  let step ← Prog.ofChecked (p.mul i b.refSize)
  let at_ ← Prog.ofChecked (p.add base step)
  b.readRef p at_

/-- The items of an array of `count` references. -/
def arrayItems (child : U64 → PlistM PlistValue) (refsOff count : U64) :
    PlistM (List PlistValue) :=
  (List.range' 0 count.toNat).foldlM (fun out i => do
    let r ← b.readRefAt p refsOff (BitVec.ofNat 64 i)
    let v ← child r
    return out ++ [v]) []

/-- The entries of a dictionary of `count` keys and as many values, put into a map. -/
def dictEntries (child : U64 → PlistM PlistValue) (keysOff valsOff count : U64) :
    PlistM (List (String × PlistValue)) :=
  (List.range' 0 count.toNat).foldlM (fun map i => do
    let kref ← b.readRefAt p keysOff (BitVec.ofNat 64 i)
    let vref ← b.readRefAt p valsOff (BitVec.ofNat 64 i)
    let key ← child kref
    match key with
    | .string s =>
      let v ← child vref
      return SortedMap.insertEntry s v map
    | _ => Prog.fail .badReference) []

/-- Decode the object at `off` that starts with `marker`, with a decoder for what it refers
to. -/
def decode (child : U64 → PlistM PlistValue) (off : U64) (marker : U8) : PlistM PlistValue := do
  let n := (marker &&& 0x0f).toNat
  match (marker >>> 4).toNat with
  | 0x0 =>
    match n with
    | 0x8 => return .bool false
    | 0x9 => return .bool true
    | _ => Prog.fail (.unsupportedType marker)
  | 0x1 =>
    let start ← Prog.ofChecked (p.add off 1)
    let bytes ← b.slice start ((1 : U64) <<< n)
    return .integer (beInt bytes)
  | 0x2 =>
    let start ← Prog.ofChecked (p.add off 1)
    let bytes ← b.slice start ((1 : U64) <<< n)
    match n with
    | 2 => return .real (f64OfF32 ((beUint bytes).setWidth 32))
    | 3 => return .real (beUint bytes)
    | _ => Prog.fail (.unsupportedType marker)
  | 0x3 =>
    let start ← Prog.ofChecked (p.add off 1)
    let bytes ← b.slice start 8
    return .real (beUint bytes)
  | 0x4 =>
    let (count, dataOff) ← b.countAndOffset p off n
    let bytes ← b.slice dataOff count
    return .data bytes
  | 0x5 =>
    let (count, dataOff) ← b.countAndOffset p off n
    let bytes ← b.slice dataOff count
    return .string (fromUtf8Lossy bytes)
  | 0x6 =>
    let (count, dataOff) ← b.countAndOffset p off n
    let len ← Prog.ofChecked (p.mul count 2)
    let bytes ← b.slice dataOff len
    return .string (String.ofList (utf16Chars (unitsOfBytes bytes)))
  | 0x8 =>
    let start ← Prog.ofChecked (p.add off 1)
    let bytes ← b.slice start (BitVec.ofNat 64 (n + 1))
    return .integer (beInt bytes)
  | 0xa =>
    let (count, refsOff) ← b.countAndOffset p off n
    Prog.ofChecked (withCapacity count.toNat PlistValue.valueSize)
    let items ← b.arrayItems p child refsOff count
    return .array items
  | 0xd =>
    let (count, keysOff) ← b.countAndOffset p off n
    let size ← Prog.ofChecked (p.mul count b.refSize)
    let valsOff ← Prog.ofChecked (p.add keysOff size)
    let entries ← b.dictEntries p child keysOff valsOff count
    return .dict entries
  | _ => Prog.fail (.unsupportedType marker)

/-- Decode object number `index`, going down at most `left` levels. -/
def objectAt : ℕ → U64 → PlistM PlistValue
  | 0, _ => Prog.fail .badReference
  | left + 1, index =>
    match b.offsets[index.toNat]? with
    | none => Prog.fail .badReference
    | some off => do
      let marker ← b.byteAt off
      b.decode p (objectAt left) off marker

end BinaryPlist

namespace BinaryPlist

/-- The offset table, `count` entries of `offsetSize` bytes. -/
def readOffsets (p : Profile) (buf : List U8) (tableOffset offsetSize count : U64) :
    PlistM (List U64) :=
  (List.range' 0 count.toNat).foldlM (fun offsets i => do
    let step ← Prog.ofChecked (p.mul (BitVec.ofNat 64 i) offsetSize)
    let start ← Prog.ofChecked (p.add tableOffset step)
    let stop ← Prog.ofChecked (p.add start offsetSize)
    let bytes ← Prog.ofChecked (indexRange buf start.toNat stop.toNat)
    return offsets ++ [beUint bytes]) []

/-- What the last 32 bytes of a file say. -/
structure Trailer where
  offsetSize : U64
  refSize : U64
  numObjects : U64
  topObject : U64
  tableOffset : U64

/-- The trailer of a file that is long enough. -/
def trailerOf (buf : List U8) : Trailer :=
  let trailer := buf.drop (buf.length - 32)
  { offsetSize := (trailer.getD 6 0).setWidth 64
    refSize := (trailer.getD 7 0).setWidth 64
    numObjects := beU64 (trailer.drop 8)
    topObject := beU64 (trailer.drop 16)
    tableOffset := beU64 (trailer.drop 24) }

/-- The widths are between 1 and 8, the table lies in the file, and the top object is in the
table. -/
def Trailer.WellFormed (t : Trailer) (buf : List U8) : Prop :=
  t.offsetSize ≠ 0 ∧ t.offsetSize.toNat ≤ 8 ∧ t.refSize ≠ 0 ∧ t.refSize.toNat ≤ 8 ∧
    t.tableOffset.toNat + t.numObjects.toNat * t.offsetSize.toNat ≤ buf.length ∧
    t.topObject.toNat < t.numObjects.toNat

instance decidableWellFormed (t : Trailer) (buf : List U8) : Decidable (t.WellFormed buf) := by
  unfold Trailer.WellFormed
  infer_instance

/-- Decode a file. Its checks of the trailer all fail with `BadTrailer`. -/
def parse (p : Profile) (buf : List U8) : PlistM PlistValue := do
  if buf.length < 8 + 32 then Prog.fail .truncated
  else
    let t := trailerOf buf
    if ¬t.WellFormed buf then Prog.fail .badTrailer
    else
      Prog.ofChecked (withCapacity t.numObjects.toNat 8)
      let offsets ← readOffsets p buf t.tableOffset t.offsetSize t.numObjects
      objectAt p ⟨buf, t.refSize, offsets⟩ 129 t.topObject

/-! ## Loops -/

/-- A loop that pushes one value after the other collects them. -/
theorem foldlM_fill {A X : Type} {f : A → ℕ → PlistM A} (push : A → X → A) :
    ∀ {xs : List X} (acc : A),
      (∀ (j : ℕ) (hj : j < xs.length) (acc : A), f acc j () = .ok (push acc xs[j]) ()) →
      (List.range' 0 xs.length).foldlM f acc () = .ok (xs.foldl push acc) () := by
  intro xs
  induction xs using List.reverseRecOn with
  | nil => exact fun _ _ => rfl
  | append_singleton xs x ih =>
    intro acc h
    have hlast := h xs.length (by simp) (xs.foldl push acc)
    rw [List.getElem_concat_length rfl] at hlast
    have hinit := ih acc fun j hj acc => by
      rw [h j (by rw [List.length_append]; omega) acc, List.getElem_append_left hj]
    rw [List.length_append, List.length_singleton, List.range'_1_concat, Nat.zero_add,
      List.foldl_append, Prog.foldlM_append_eq_ok]
    exact ⟨_, (), hinit, Prog.foldlM_cons_eq_ok.2 ⟨_, (), hlast, rfl⟩⟩

theorem foldl_push {X : Type} : ∀ (xs acc : List X),
    xs.foldl (fun out x => out ++ [x]) acc = acc ++ xs
  | [], acc => by simp
  | x :: xs, acc => by rw [List.foldl_cons, foldl_push xs, List.append_assoc, List.singleton_append]

theorem foldlM_push {X : Type} {f : List X → ℕ → PlistM (List X)} {xs : List X}
    (h : ∀ (j : ℕ) (hj : j < xs.length) (out : List X), f out j () = .ok (out ++ [xs[j]]) ()) :
    (List.range' 0 xs.length).foldlM f [] () = .ok xs () := by
  rw [foldlM_fill (fun out x => out ++ [x]) [] h, foldl_push, List.nil_append]

/-! ## What the reads return

From here on a position is a number : no file is longer than `isize::MAX`, so an offset into it
does not come near the end of the word. -/

/-- The `w`-byte number at `pos`, if the file has those bytes. -/
def numberAt (buf : List U8) (w pos : ℕ) : Option U64 :=
  if pos + w ≤ buf.length then some (beUint ((buf.drop pos).take w)) else none

/-- The reference at `pos`. -/
def refAt (b : BinaryPlist) (pos : ℕ) : Option U64 :=
  numberAt b.buf b.refSize.toNat pos

/-- The count of the object at `off` with the low nibble `n`, and where its first element is. -/
def header (b : BinaryPlist) (off n : ℕ) : Option (U64 × ℕ) :=
  if n ≠ 0x0f then some (BitVec.ofNat 64 n, off + 1)
  else
    match b.buf[off + 1]? with
    | none => none
    | some m =>
      if m >>> 4 ≠ 0x1 then none
      else
        (numberAt b.buf (2 ^ (m &&& 0x0f).toNat) (off + 2)).map fun count =>
          (count, off + 2 + 2 ^ (m &&& 0x0f).toNat)

/-- What a read returns, given what there is to read. -/
def ofRead {α : Type} : Option α → Outcome PlistError Panic Unit α
  | some a => .ok a ()
  | none => .err .truncated ()

section Reads

variable {p : Profile} {b : BinaryPlist}

theorem toNat_nibble (m : U8) : (m &&& 0x0f).toNat < 16 := by
  have h : (m &&& 0x0f).toNat = m.toNat % 2 ^ 4 := by
    rw [BitVec.toNat_and]
    exact Nat.and_two_pow_sub_one_eq_mod m.toNat 4
  omega

/-- A width is a small power of two. -/
theorem toNat_one_shl {n : ℕ} (hn : n < 16) : ((1 : U64) <<< n).toNat = 2 ^ n := by
  have hpow : 2 ^ n < 2 ^ 16 := Nat.pow_lt_pow_right (by omega) hn
  have hone : (1 : U64).toNat = 1 := rfl
  rw [BitVec.toNat_shiftLeft, Nat.shiftLeft_eq, hone]
  omega

theorem slice_apply (hbuf : b.buf.length ≤ isizeMax) (off len : U64) :
    b.slice off len () =
      ofRead (if off.toNat + len.toNat ≤ b.buf.length then
        some ((b.buf.drop off.toNat).take len.toNat) else none) := by
  unfold isizeMax at hbuf
  unfold slice checkedAdd
  by_cases hsum : off.toNat + len.toNat < 2 ^ 64
  · have hadd : (off + len).toNat = off.toNat + len.toNat := BitVec.toNat_add_of_lt hsum
    simp only [if_pos hsum, hadd]
    split_ifs <;> rfl
  · simp only [if_neg hsum]
    rw [if_neg (by omega)]
    rfl

theorem byteAt_apply (off : U64) : b.byteAt off () = ofRead b.buf[off.toNat]? := by
  unfold byteAt
  cases b.buf[off.toNat]? <;> rfl

theorem readRef_apply {at_ : U64} (h : at_.toNat + b.refSize.toNat < 2 ^ 64) :
    b.readRef p at_ () = ofRead (b.refAt at_.toNat) := by
  have hadd : (at_ + b.refSize).toNat = at_.toNat + b.refSize.toNat := BitVec.toNat_add_of_lt h
  unfold readRef refAt numberAt
  rw [Profile.add_of_lt h, Prog.ofChecked_ok_bind, hadd]
  by_cases hlen : at_.toNat + b.refSize.toNat ≤ b.buf.length
  · rw [if_neg (not_lt.2 hlen), if_pos hlen, indexRange, if_pos ⟨Nat.le_add_right _ _, hlen⟩,
      Nat.add_sub_cancel_left]
    rfl
  · rw [if_pos (not_le.1 hlen), if_neg hlen]
    rfl

/-- Reading the reference number `i` of those at `base`. -/
theorem readRefAt_apply (base i : U64)
    (h : base.toNat + (i.toNat + 1) * b.refSize.toNat < 2 ^ 64) :
    b.readRefAt p base i () = ofRead (b.refAt (base.toNat + i.toNat * b.refSize.toNat)) := by
  rw [Nat.succ_mul] at h
  have hmul : (i * b.refSize).toNat = i.toNat * b.refSize.toNat :=
    BitVec.toNat_mul_of_lt (by omega)
  have hadd : (base + i * b.refSize).toNat = base.toNat + i.toNat * b.refSize.toNat := by
    rw [BitVec.toNat_add_of_lt (by omega), hmul]
  unfold readRefAt
  rw [Profile.mul_of_lt (by omega), Prog.ofChecked_ok_bind, Profile.add_of_lt (by omega),
    Prog.ofChecked_ok_bind, readRef_apply (by omega), hadd]

theorem header_le {off n : ℕ} {count : U64} {first : ℕ} (hoff : off < b.buf.length)
    (h : b.header off n = some (count, first)) : first ≤ b.buf.length := by
  unfold header numberAt at h
  split_ifs at h with hn
  · obtain ⟨-, rfl⟩ := Prod.mk.inj (Option.some.inj h)
    exact hoff
  · split at h
    · cases h
    · split_ifs at h with h₁ h₂
      · obtain ⟨-, rfl⟩ := Prod.mk.inj (Option.some.inj h)
        exact h₂
      · cases h

/-- The count and the first offset are those of the header, and there is no panic. -/
theorem countAndOffset_cases (hbuf : b.buf.length ≤ isizeMax) (off : U64) (n : ℕ)
    (hoff : off.toNat < b.buf.length) :
    (∃ count first, b.header off.toNat n = some (count, first.toNat) ∧
      b.countAndOffset p off n () = .ok (count, first) ()) ∨
    b.header off.toNat n = none ∧ ∃ e, b.countAndOffset p off n () = .err e () := by
  have hword := hbuf
  unfold isizeMax at hword
  have hone : (off + 1).toNat = off.toNat + 1 := BitVec.toNat_add_of_lt (by simp; omega)
  have htwo : (off + 2).toNat = off.toNat + 2 := BitVec.toNat_add_of_lt (by simp; omega)
  unfold countAndOffset header
  rw [Profile.add_of_lt (by simp; omega), Prog.ofChecked_ok_bind]
  by_cases hn : n ≠ 0x0f
  · refine Or.inl ⟨BitVec.ofNat 64 n, off + 1, ?_, ?_⟩
    · rw [if_pos hn, hone]
    · rw [if_pos hn]
      rfl
  rw [if_neg hn, if_neg hn, Prog.bind_apply, byteAt_apply, hone]
  cases hm : b.buf[off.toNat + 1]? with
  | none => exact Or.inr ⟨rfl, _, rfl⟩
  | some m =>
    simp only [ofRead]
    by_cases hty : m >>> 4 ≠ 0x1
    · rw [if_pos hty, if_pos hty]
      exact Or.inr ⟨rfl, _, rfl⟩
    have hwidth := toNat_one_shl (toNat_nibble m)
    have hpow : 2 ^ (m &&& 0x0f).toNat < 2 ^ 16 :=
      Nat.pow_lt_pow_right (by omega) (toNat_nibble m)
    rw [if_neg hty, if_neg hty, Profile.add_of_lt (by simp; omega), Prog.ofChecked_ok_bind,
      Prog.bind_apply, slice_apply hbuf, htwo, hwidth, numberAt]
    by_cases hlen : off.toNat + 2 + 2 ^ (m &&& 0x0f).toNat ≤ b.buf.length
    · have hfirst : (off + 2 + (1 : U64) <<< (m &&& 0x0f).toNat).toNat =
          off.toNat + 2 + 2 ^ (m &&& 0x0f).toNat := by
        rw [BitVec.toNat_add_of_lt (by omega), htwo, hwidth]
      simp only [if_pos hlen, ofRead, Option.map_some]
      rw [Profile.add_of_lt (by omega), Prog.ofChecked_ok_bind]
      exact Or.inl ⟨_, _, by rw [hfirst], rfl⟩
    · simp only [if_neg hlen, ofRead]
      exact Or.inr ⟨rfl, _, rfl⟩

/-! ## The file -/

/-- The offsets in the table of a file. -/
def offsetTable (buf : List U8) (t : Trailer) : List U64 :=
  (List.range t.numObjects.toNat).map fun i =>
    beUint ((buf.drop (t.tableOffset.toNat + i * t.offsetSize.toNat)).take t.offsetSize.toNat)

theorem readOffsets_apply {buf : List U8} {t : Trailer}
    (hend : t.tableOffset.toNat + t.numObjects.toNat * t.offsetSize.toNat ≤ buf.length)
    (hbuf : buf.length ≤ isizeMax) :
    readOffsets p buf t.tableOffset t.offsetSize t.numObjects () =
      .ok (offsetTable buf t) () := by
  unfold isizeMax at hbuf
  have hlength : (offsetTable buf t).length = t.numObjects.toNat := by
    simp [offsetTable]
  rw [readOffsets, ← hlength]
  refine foldlM_push fun j hj out => ?_
  rw [hlength] at hj
  have hlt := t.numObjects.isLt
  have hindex : (BitVec.ofNat 64 j).toNat = j := by
    rw [BitVec.toNat_ofNat, Nat.mod_eq_of_lt (by omega)]
  have hlast : j * t.offsetSize.toNat + t.offsetSize.toNat ≤
      t.numObjects.toNat * t.offsetSize.toNat := by
    rw [← Nat.succ_mul]
    exact Nat.mul_le_mul_right _ hj
  have hmul : (BitVec.ofNat 64 j * t.offsetSize).toNat = j * t.offsetSize.toNat := by
    rw [BitVec.toNat_mul_of_lt (by rw [hindex]; omega), hindex]
  have hstart : (t.tableOffset + BitVec.ofNat 64 j * t.offsetSize).toNat =
      t.tableOffset.toNat + j * t.offsetSize.toNat := by
    rw [BitVec.toNat_add_of_lt (by omega), hmul]
  have hstop : (t.tableOffset + BitVec.ofNat 64 j * t.offsetSize + t.offsetSize).toNat =
      t.tableOffset.toNat + j * t.offsetSize.toNat + t.offsetSize.toNat := by
    rw [BitVec.toNat_add_of_lt (by omega), hstart]
  rw [Profile.mul_of_lt (by rw [hindex]; omega), Prog.ofChecked_ok_bind,
    Profile.add_of_lt (by omega), Prog.ofChecked_ok_bind, Profile.add_of_lt (by omega),
    Prog.ofChecked_ok_bind, indexRange, if_pos (by omega), Prog.ofChecked_ok_bind, hstart, hstop,
    Nat.add_sub_cancel_left]
  simp [offsetTable]

/-- The trailer decides whether the decoder gets to the top object. -/
theorem parse_apply {buf : List U8} (hbuf : buf.length ≤ isizeMax) :
    parse p buf () =
      if buf.length < 8 + 32 then .err .truncated ()
      else if ¬(trailerOf buf).WellFormed buf then .err .badTrailer ()
      else if ¬(trailerOf buf).numObjects.toNat * 8 ≤ isizeMax then .panic .capacityOverflow
      else objectAt p ⟨buf, (trailerOf buf).refSize, offsetTable buf (trailerOf buf)⟩ 129
        (trailerOf buf).topObject () := by
  unfold parse
  set t := trailerOf buf
  by_cases hshort : buf.length < 8 + 32
  · rw [if_pos hshort, if_pos hshort]
    rfl
  by_cases hwf : t.WellFormed buf
  · rw [if_neg hshort, if_neg hshort, if_neg (not_not.2 hwf), if_neg (not_not.2 hwf), withCapacity]
    by_cases hcap : t.numObjects.toNat * 8 ≤ isizeMax
    · obtain ⟨-, -, -, -, htable, -⟩ := hwf
      rw [if_pos hcap, if_neg (not_not.2 hcap), Prog.ofChecked_ok_bind, Prog.bind_apply,
        readOffsets_apply htable hbuf]
    · rw [if_neg hcap, if_pos hcap]
      rfl
  · rw [if_neg hshort, if_neg hshort, if_pos hwf, if_pos hwf]
    rfl

end Reads

end BinaryPlist

end IosEmu
