import IosEmu.PlistXml

/-!
# Decoding undoes encoding

`BinaryPlist.Encodes b i v` says that object number `i` of a file holds the value `v` : in any
of the forms the format has for it, with references to objects that hold its parts. Objects may
be shared, and stand in any order. `Layout.Encodes` adds the table of offsets and the trailer.

The decoder, given as many levels as the value has, returns the value
(`Encodes.objectAt_eq`, by induction over how the value is held).
-/

open SysLib

namespace IosEmu

/-! ## Numbers -/

theorem ofNat_shl_or (n : ℕ) (x : U8) :
    BitVec.ofNat 64 n <<< 8 ||| x.setWidth 64 = BitVec.ofNat 64 (n * 256 + x.toNat) := by
  have hlt := x.isLt
  apply BitVec.eq_of_toNat_eq
  have hbyte : (x.setWidth 64).toNat = x.toNat := by
    rw [BitVec.toNat_setWidth, Nat.mod_eq_of_lt (by omega)]
  have hshift : (BitVec.ofNat 64 n <<< 8).toNat = 2 ^ 8 * (n % 2 ^ 56) := by
    rw [BitVec.toNat_shiftLeft, Nat.shiftLeft_eq, BitVec.toNat_ofNat]
    omega
  rw [BitVec.toNat_or, hbyte, hshift, ← Nat.two_pow_add_eq_or_of_lt hlt, BitVec.toNat_ofNat]
  omega

theorem beUint_eq (l : List U8) : beUint l = BitVec.ofNat 64 (beNat l) := by
  have hfold : ∀ (l : List U8) (n : ℕ),
      l.foldl (fun (acc : U64) (x : U8) => acc <<< 8 ||| x.setWidth 64) (BitVec.ofNat 64 n) =
        BitVec.ofNat 64 (n * 256 ^ l.length + beNat l) := by
    intro l
    induction l with
    | nil =>
      intro n
      simp [beNat, leNat]
    | cons x l ih =>
      intro n
      rw [List.foldl_cons, ofNat_shl_or, ih, beNat_cons, List.length_cons]
      congr 1
      ring
  have h := hfold l 0
  rwa [Nat.zero_mul, Nat.zero_add] at h

/-- A number of at most eight bytes is read back. -/
theorem toNat_beUint_beBytes {w n : ℕ} (hw : w ≤ 8) (hn : n < 256 ^ w) :
    (beUint (beBytes w n)).toNat = n := by
  have hpow : 256 ^ w ≤ 256 ^ 8 := Nat.pow_le_pow_right (by omega) hw
  rw [beUint_eq, beNat_beBytes, Nat.mod_eq_of_lt hn, BitVec.toNat_ofNat, Nat.mod_eq_of_lt]
  omega

theorem beUint_beBytes {w : ℕ} {x : U64} (hw : w ≤ 8) (hx : x.toNat < 256 ^ w) :
    beUint (beBytes w x.toNat) = x :=
  BitVec.eq_of_toNat_eq (toNat_beUint_beBytes hw hx)

theorem length_numberBytes (w : ℕ) (xs : List U64) :
    (xs.flatMap fun x => beBytes w x.toNat).length = xs.length * w := by
  simp [List.length_flatMap]

/-- Numbers of one width stand at multiples of it. -/
theorem holdsAt_getElem {buf : List U8} {w : ℕ} : ∀ {xs : List U64} {pos : ℕ},
    HoldsAt buf pos (xs.flatMap fun x => beBytes w x.toNat) → ∀ {j : ℕ} (hj : j < xs.length),
      HoldsAt buf (pos + j * w) (beBytes w xs[j].toNat)
  | x :: xs, pos, h, j, hj => by
    rw [List.flatMap_cons] at h
    obtain ⟨hx, hxs⟩ := holdsAt_append.1 h
    cases j with
    | zero => simpa using hx
    | succ j =>
      rw [length_beBytes] at hxs
      have ih := holdsAt_getElem hxs (j := j) (by simpa using hj)
      rw [Nat.succ_mul, Nat.add_comm (j * w), ← Nat.add_assoc]
      exact ih

namespace BinaryPlist

/-! ## How a file holds a value -/

/-- The marker of an object of type `ty` with the low nibble `n`. -/
def marker (ty n : ℕ) : U8 :=
  BitVec.ofNat 8 (ty * 16 + n)

/-- The bytes before the elements of an object : the marker, and the count in it or in an
integer object that follows. -/
inductive Header (ty count : ℕ) : List U8 → Prop
  | inline (hcount : count < 15) : Header ty count [marker ty count]
  | counted (k : ℕ) (hk : k ≤ 3) (hcount : count < 256 ^ 2 ^ k) :
    Header ty count (marker ty 15 :: marker 1 k :: beBytes (2 ^ k) count)

/-- Object number `i` starts with `bytes`. -/
def Object (b : BinaryPlist) (i : U64) (bytes : List U8) : Prop :=
  ∃ off, b.offsets[i.toNat]? = some off ∧ HoldsAt b.buf off.toNat bytes

/-- References, one after the other. -/
def refBytes (b : BinaryPlist) (refs : List U64) : List U8 :=
  refs.flatMap fun r => beBytes b.refSize.toNat r.toNat

/-- Every reference can be written in the width of references. -/
def RefsFit (b : BinaryPlist) (refs : List U64) : Prop :=
  ∀ r ∈ refs, r.toNat < 256 ^ b.refSize.toNat

/-- Object number `i` holds a value. -/
inductive Encodes (b : BinaryPlist) : U64 → PlistValue → Prop
  | bool {i : U64} {v : Bool} (hobj : b.Object i [marker 0 (if v then 9 else 8)]) :
    Encodes b i (.bool v)
  | unsigned {i : U64} {n k : ℕ} (hk : k ≤ 2) (hn : n < 256 ^ 2 ^ k)
    (hobj : b.Object i (marker 1 k :: beBytes (2 ^ k) n)) :
    Encodes b i (.integer (BitVec.ofNat 64 n))
  | signed {i : U64} {n : BitVec 64} (hobj : b.Object i (marker 1 3 :: beBytes 8 n.toNat)) :
    Encodes b i (.integer n)
  | data {i : U64} {bytes h : List U8} (hh : Header 4 bytes.length h)
    (hobj : b.Object i (h ++ bytes)) : Encodes b i (.data bytes)
  | ascii {i : U64} {text : String} {h : List U8} (hascii : ∀ c ∈ text.toList, c.toNat < 128)
    (hh : Header 5 text.toList.length h) (hobj : b.Object i (h ++ utf8Encode text.toList)) :
    Encodes b i (.string text)
  | utf16 {i : U64} {text : String} {h : List U8}
    (hh : Header 6 (utf16Encode text.toList).length h)
    (hobj : b.Object i (h ++ (utf16Encode text.toList).flatMap fun u => beBytes 2 u.toNat)) :
    Encodes b i (.string text)
  | array {i : U64} {items : List PlistValue} {refs : List U64} {h : List U8}
    (hlen : refs.length = items.length) (hfit : b.RefsFit refs) (hh : Header 0xa items.length h)
    (hobj : b.Object i (h ++ b.refBytes refs))
    (hitems : ∀ e ∈ refs.zip items, Encodes b e.1 e.2) : Encodes b i (.array items)
  | dict {i : U64} {entries written : List (String × PlistValue)} {keys vals : List U64}
    {h : List U8} (hperm : written.Perm entries) (hkeys : keys.length = written.length)
    (hvals : vals.length = written.length) (hkfit : b.RefsFit keys) (hvfit : b.RefsFit vals)
    (hh : Header 0xd written.length h)
    (hobj : b.Object i (h ++ (b.refBytes keys ++ b.refBytes vals)))
    (hk : ∀ e ∈ keys.zip written, Encodes b e.1 (.string e.2.1))
    (hv : ∀ e ∈ vals.zip written, Encodes b e.1 e.2.2) : Encodes b i (.dict entries)

/-! ## Reading an object -/

section Reading

variable {p : Profile} {b : BinaryPlist} {child : U64 → PlistM PlistValue}

theorem marker_type {ty n : ℕ} (hty : ty < 16) (hn : n < 16) : (marker ty n >>> 4).toNat = ty := by
  rw [BitVec.toNat_ushiftRight, marker, toNat_byte (by omega), Nat.shiftRight_eq_div_pow]
  omega

theorem marker_nibble {ty n : ℕ} (hty : ty < 16) (hn : n < 16) :
    (marker ty n &&& 0x0f).toNat = n := by
  have hand : (marker ty n &&& 0x0f).toNat = (marker ty n).toNat % 2 ^ 4 := by
    rw [BitVec.toNat_and]
    exact Nat.and_two_pow_sub_one_eq_mod _ 4
  rw [hand, marker, toNat_byte (by omega)]
  omega

theorem slice_of_holdsAt (hbuf : b.buf.length ≤ isizeMax) {bytes : List U8} {off : U64} (len : U64)
    (h : HoldsAt b.buf off.toNat bytes) (hoff : off.toNat ≤ b.buf.length)
    (hlen : len.toNat = bytes.length) : b.slice off len () = .ok bytes () := by
  have hend : off.toNat + bytes.length ≤ b.buf.length := by
    rcases Nat.eq_zero_or_pos bytes.length with hzero | hpos
    · omega
    · exact h.add_length_le hpos
  rw [slice_apply hbuf, hlen, if_pos hend, h.take]
  rfl

/-- The first byte of a header is a marker of its type, and the header is read back. -/
theorem Header.holdsAt {ty count : ℕ} {h : List U8} (hh : Header ty count h) {off : ℕ}
    {l : List U8} (hat : HoldsAt b.buf off (h ++ l)) :
    ∃ n < 16, b.buf[off]? = some (marker ty n) ∧
      b.header off n = some (BitVec.ofNat 64 count, off + h.length) ∧ count < 2 ^ 64 := by
  cases hh with
  | inline hcount =>
    refine ⟨count, by omega, hat.getElem?, ?_, by omega⟩
    rw [header, if_pos (by omega)]
    rfl
  | counted k hk hcount =>
    have hpow : 256 ^ 2 ^ k ≤ 256 ^ 8 :=
      Nat.pow_le_pow_right (by omega) ((Nat.pow_le_pow_right (by omega) hk).trans (by omega))
    refine ⟨15, by omega, hat.getElem?, ?_, by omega⟩
    have hsecond : HoldsAt b.buf (off + 1) (marker 1 k :: (beBytes (2 ^ k) count ++ l)) :=
      (holdsAt_append (l := [marker ty 15])).1 hat |>.2
    have hbytes : HoldsAt b.buf (off + 2) (beBytes (2 ^ k) count) :=
      (holdsAt_append.1 ((holdsAt_append (l := [marker 1 k])).1 hsecond).2).1
    have hend := hbytes.add_length_le (by simp)
    have htake := hbytes.take
    rw [length_beBytes] at hend htake
    have hone : ¬marker 1 k >>> 4 ≠ 1 := by
      rw [not_not, ← BitVec.toNat_inj, marker_type (by omega) (by omega)]
      rfl
    rw [header, if_neg (by omega), hsecond.getElem?]
    simp only [if_neg hone, marker_nibble (show 1 < 16 by omega) (show k < 16 by omega), numberAt,
      if_pos hend, htake, Option.map_some]
    rw [beUint_eq, beNat_beBytes, Nat.mod_eq_of_lt hcount, List.length_cons, List.length_cons,
      length_beBytes]
    congr 2
    omega

theorem Header.length_pos {ty count : ℕ} {h : List U8} (hh : Header ty count h) :
    0 < h.length := by
  cases hh <;> simp

/-- The decoder reads a header, and comes to what follows it. -/
theorem Header.read (hbuf : b.buf.length ≤ isizeMax) {ty count : ℕ} {h : List U8}
    (hh : Header ty count h) {off : U64} {l : List U8} (hat : HoldsAt b.buf off.toNat (h ++ l)) :
    ∃ n < 16, b.buf[off.toNat]? = some (marker ty n) ∧ ∃ first : U64,
      b.countAndOffset p off n () = .ok (BitVec.ofNat 64 count, first) () ∧
      HoldsAt b.buf first.toNat l ∧ first.toNat ≤ b.buf.length ∧ count < 2 ^ 64 := by
  obtain ⟨hhead, hl⟩ := holdsAt_append.1 hat
  have hend := hhead.add_length_le hh.length_pos
  obtain ⟨n, hn, hmarker, hheader, hcount⟩ := hh.holdsAt hat
  refine ⟨n, hn, hmarker, ?_⟩
  rcases countAndOffset_cases (p := p) hbuf off n (by have := hh.length_pos; omega) with
    ⟨count', first, hheader', hread⟩ | ⟨hnone, -⟩
  · obtain ⟨rfl, hfirst⟩ := Prod.mk.inj (Option.some.inj (hheader.symm.trans hheader'))
    rw [hfirst] at hl hend
    exact ⟨first, hread, hl, hend, hcount⟩
  · rw [hheader] at hnone
    cases hnone

theorem length_refBytes (refs : List U64) :
    (b.refBytes refs).length = refs.length * b.refSize.toNat :=
  length_numberBytes _ refs

theorem toNat_index {n : ℕ} (hn : n < 2 ^ 64) : (BitVec.ofNat 64 n).toNat = n := by
  rw [BitVec.toNat_ofNat, Nat.mod_eq_of_lt hn]

/-- Reference number `j` is read back. -/
theorem readRefAt_of_holdsAt (hbuf : b.buf.length ≤ isizeMax) (hsize : b.refSize.toNat ≤ 8)
    (hpos : 0 < b.refSize.toNat) {base : U64} {refs : List U64} (hfit : b.RefsFit refs)
    (h : HoldsAt b.buf base.toNat (b.refBytes refs)) {j : ℕ} (hj : j < refs.length) :
    b.readRefAt p base (BitVec.ofNat 64 j) () = .ok refs[j] () := by
  unfold isizeMax at hbuf
  have hat := holdsAt_getElem h hj
  have hend := hat.add_length_le (by simpa using hpos)
  have htake := hat.take
  rw [length_beBytes] at hend htake
  have hindex : (BitVec.ofNat 64 j).toNat = j := by
    refine toNat_index ?_
    have := Nat.le_mul_of_pos_right j hpos
    omega
  rw [readRefAt_apply _ _ (by rw [hindex, Nat.succ_mul]; omega), hindex, refAt, numberAt, if_pos hend,
    htake, beUint_beBytes hsize (hfit _ (List.getElem_mem hj))]
  rfl

/-- The loop over the items of an array. -/
theorem arrayItems_eq (hbuf : b.buf.length ≤ isizeMax) (hsize : b.refSize.toNat ≤ 8)
    (hpos : 0 < b.refSize.toNat) {base count : U64} {items : List PlistValue} {refs : List U64}
    (hlen : refs.length = items.length) (hcount : count.toNat = items.length)
    (hfit : b.RefsFit refs) (hat : HoldsAt b.buf base.toNat (b.refBytes refs))
    (hchild : ∀ e ∈ refs.zip items, child e.1 () = .ok e.2 ()) :
    b.arrayItems p child base count () = .ok items () := by
  rw [BinaryPlist.arrayItems, hcount]
  refine foldlM_push fun j hj out => ?_
  have hv := hchild (refs[j], items[j]) (List.mem_iff_getElem.2
    ⟨j, by rw [List.length_zip]; omega, List.getElem_zip⟩)
  rw [Prog.bind_apply, readRefAt_of_holdsAt hbuf hsize hpos hfit hat (hlen ▸ hj)]
  simp only
  rw [Prog.bind_apply, hv]
  rfl

/-- The loop over the entries of a dictionary. -/
theorem dictEntries_eq (hbuf : b.buf.length ≤ isizeMax) (hsize : b.refSize.toNat ≤ 8)
    (hpos : 0 < b.refSize.toNat) {keysOff valsOff count : U64}
    {written : List (String × PlistValue)} {keys vals : List U64}
    (hkeys : keys.length = written.length) (hvals : vals.length = written.length)
    (hcount : count.toNat = written.length) (hkfit : b.RefsFit keys) (hvfit : b.RefsFit vals)
    (hkat : HoldsAt b.buf keysOff.toNat (b.refBytes keys))
    (hvat : HoldsAt b.buf valsOff.toNat (b.refBytes vals))
    (hk : ∀ e ∈ keys.zip written, child e.1 () = .ok (.string e.2.1) ())
    (hv : ∀ e ∈ vals.zip written, child e.1 () = .ok e.2.2 ()) :
    b.dictEntries p child keysOff valsOff count () =
      .ok (written.foldl (fun m e => SortedMap.insertEntry e.1 e.2 m) []) () := by
  rw [BinaryPlist.dictEntries, hcount]
  refine foldlM_fill _ [] fun j hj map => ?_
  have hkey := hk (keys[j], written[j]) (List.mem_iff_getElem.2
    ⟨j, by rw [List.length_zip]; omega, List.getElem_zip⟩)
  have hval := hv (vals[j], written[j]) (List.mem_iff_getElem.2
    ⟨j, by rw [List.length_zip]; omega, List.getElem_zip⟩)
  rw [Prog.bind_apply, readRefAt_of_holdsAt hbuf hsize hpos hkfit hkat (hkeys ▸ hj)]
  simp only
  rw [Prog.bind_apply, readRefAt_of_holdsAt hbuf hsize hpos hvfit hvat (hvals ▸ hj)]
  simp only
  rw [Prog.bind_apply, hkey]
  simp only
  rw [Prog.bind_apply, hval]
  rfl

theorem objectAt_eq_decode {left : ℕ} {i off : U64} {m : U8} (hoff : b.offsets[i.toNat]? = some off)
    (hm : b.buf[off.toNat]? = some m) :
    b.objectAt p (left + 1) i () = b.decode p (b.objectAt p left) off m () := by
  rw [objectAt, hoff]
  simp only
  rw [Prog.bind_apply, byteAt_apply, hm]
  rfl

/-- An integer object of `2 ^ k` bytes. -/
theorem decode_integer (hbuf : b.buf.length ≤ isizeMax) {off : U64} {k : ℕ} (hk : k < 16)
    {bytes : List U8} (hlen : bytes.length = 2 ^ k)
    (hat : HoldsAt b.buf off.toNat (marker 1 k :: bytes)) :
    b.decode p child off (marker 1 k) () = .ok (.integer (beInt bytes)) () := by
  have hword := hbuf
  unfold isizeMax at hword
  have hend := hat.add_length_le (by simp)
  rw [List.length_cons] at hend
  have hone : (off + 1).toNat = off.toNat + 1 := BitVec.toNat_add_of_lt (by simp; omega)
  have hbytes : HoldsAt b.buf (off + 1).toNat bytes := by
    rw [hone]
    exact ((holdsAt_append (l := [marker 1 k])).1 hat).2
  have hslice := slice_of_holdsAt hbuf ((1 : U64) <<< k) hbytes (by omega)
    (by rw [toNat_one_shl hk, hlen])
  simp only [decode, marker_type (show 1 < 16 by omega) hk,
    marker_nibble (show 1 < 16 by omega) hk]
  rw [Profile.add_of_lt (by simp; omega), Prog.ofChecked_ok_bind, Prog.bind_apply, hslice]
  rfl

theorem unitsOfBytes_flatMap : ∀ units : List Unit16,
    unitsOfBytes (units.flatMap fun u => beBytes 2 u.toNat) = units
  | [] => rfl
  | u :: units => by
    have hu : (BitVec.ofNat 8 (u.toNat / 256) ++ BitVec.ofNat 8 u.toNat : BitVec 16) = u := by
      apply BitVec.eq_of_toNat_eq
      have hlt := u.isLt
      rw [BitVec.toNat_append, BitVec.toNat_ofNat, BitVec.toNat_ofNat, Nat.shiftLeft_eq,
        Nat.mul_comm, ← Nat.two_pow_add_eq_or_of_lt (by omega)]
      omega
    rw [List.flatMap_cons]
    change _ :: unitsOfBytes (units.flatMap fun u => beBytes 2 u.toNat) = _
    rw [unitsOfBytes_flatMap units]
    exact congrArg (· :: units) hu

theorem utf8Encode_length_of_ascii : ∀ {cs : List Char}, (∀ c ∈ cs, c.toNat < 128) →
    (utf8Encode cs).length = cs.length
  | [], _ => rfl
  | c :: cs, h => by
    have hc : (utf8Char c).length = 1 := by
      rw [utf8Char, if_pos (h c List.mem_cons_self)]
      rfl
    rw [utf8Encode_cons, List.length_append, hc,
      utf8Encode_length_of_ascii fun c' hc' => h c' (List.mem_cons_of_mem c hc'), List.length_cons,
      Nat.add_comm]

/-- An object with a counted header : its decoder gets the count and where the elements are. -/
theorem Header.objectAt (hbuf : b.buf.length ≤ isizeMax) {ty count left : ℕ} {h l : List U8}
    {i : U64} (hh : Header ty count h) (hobj : b.Object i (h ++ l)) :
    ∃ (n : ℕ) (off first : U64), n < 16 ∧
      b.objectAt p (left + 1) i () = b.decode p (b.objectAt p left) off (marker ty n) () ∧
      b.countAndOffset p off n () = .ok (BitVec.ofNat 64 count, first) () ∧
      HoldsAt b.buf first.toNat l ∧ first.toNat ≤ b.buf.length ∧
      (BitVec.ofNat 64 count).toNat = count := by
  obtain ⟨off, hoff, hat⟩ := hobj
  obtain ⟨n, hn, hm, first, hread, hl, hfirst, hcount⟩ := hh.read (p := p) hbuf hat
  refine ⟨n, off, first, hn, objectAt_eq_decode hoff hm, hread, hl, hfirst, ?_⟩
  rw [BitVec.toNat_ofNat, Nat.mod_eq_of_lt hcount]

section Counted

variable (hbuf : b.buf.length ≤ isizeMax) {off first count : U64} {n : ℕ} (hn : n < 16)
  (hread : b.countAndOffset p off n () = .ok (count, first) ())
  (hfirst : first.toNat ≤ b.buf.length)

include hbuf hn hread hfirst

theorem decode_data {bytes : List U8} (hl : HoldsAt b.buf first.toNat bytes)
    (hcount : count.toNat = bytes.length) :
    b.decode p child off (marker 4 n) () = .ok (.data bytes) () := by
  simp only [decode, marker_type (show 4 < 16 by omega) hn,
    marker_nibble (show 4 < 16 by omega) hn]
  rw [Prog.bind_apply, hread]
  simp only
  rw [Prog.bind_apply, slice_of_holdsAt hbuf _ hl hfirst hcount]
  rfl

theorem decode_ascii {cs : List Char} (hl : HoldsAt b.buf first.toNat (utf8Encode cs))
    (hcount : count.toNat = (utf8Encode cs).length) :
    b.decode p child off (marker 5 n) () = .ok (.string (String.ofList cs)) () := by
  simp only [decode, marker_type (show 5 < 16 by omega) hn,
    marker_nibble (show 5 < 16 by omega) hn]
  rw [Prog.bind_apply, hread]
  simp only
  rw [Prog.bind_apply, slice_of_holdsAt hbuf _ hl hfirst hcount]
  simp only [fromUtf8Lossy, utf8Chars_encode]
  rfl

theorem decode_utf16 {units : List Unit16}
    (hl : HoldsAt b.buf first.toNat (units.flatMap fun u => beBytes 2 u.toNat))
    (hcount : count.toNat = units.length) :
    b.decode p child off (marker 6 n) () = .ok (.string (String.ofList (utf16Chars units))) () := by
  have hlength : (units.flatMap fun u => beBytes 2 u.toNat).length = units.length * 2 := by
    simp [List.length_flatMap]
  have htwo : (2 : U64).toNat = 2 := rfl
  have hroom : units.length * 2 < 2 ^ 64 := by
    have hword := hbuf
    unfold isizeMax at hword
    rcases Nat.eq_zero_or_pos units.length with hzero | hpos
    · omega
    · have := hl.add_length_le (by omega)
      omega
  have hmul : (count * 2).toNat = units.length * 2 := by
    rw [BitVec.toNat_mul_of_lt (by rw [hcount, htwo]; exact hroom), hcount, htwo]
  simp only [decode, marker_type (show 6 < 16 by omega) hn,
    marker_nibble (show 6 < 16 by omega) hn]
  rw [Prog.bind_apply, hread]
  simp only
  rw [Profile.mul_of_lt (by rw [hcount, htwo]; exact hroom), Prog.ofChecked_ok_bind,
    Prog.bind_apply, slice_of_holdsAt hbuf _ hl hfirst (by rw [hmul, hlength])]
  simp only [unitsOfBytes_flatMap]
  rfl

variable (hsize : b.refSize.toNat ≤ 8) (hpos : 0 < b.refSize.toNat)

include hsize hpos

omit hfirst in
theorem decode_array {refs : List U64} {items : List PlistValue} (hfit : b.RefsFit refs)
    (hlen : refs.length = items.length) (hl : HoldsAt b.buf first.toNat (b.refBytes refs))
    (hcount : count.toNat = items.length) (hcap : items.length * PlistValue.valueSize ≤ isizeMax)
    (hchild : ∀ e ∈ refs.zip items, child e.1 () = .ok e.2 ()) :
    b.decode p child off (marker 0xa n) () = .ok (.array items) () := by
  have hitems := arrayItems_eq (p := p) hbuf hsize hpos hlen hcount hfit hl hchild
  simp only [decode, marker_type (show 0xa < 16 by omega) hn,
    marker_nibble (show 0xa < 16 by omega) hn]
  rw [Prog.bind_apply, hread]
  simp only
  rw [withCapacity, hcount, if_pos hcap, Prog.ofChecked_ok_bind, Prog.bind_apply, hitems]
  rfl

omit hfirst in
theorem decode_dict {keys vals : List U64} {written : List (String × PlistValue)}
    (hkeys : keys.length = written.length) (hvals : vals.length = written.length)
    (hkfit : b.RefsFit keys) (hvfit : b.RefsFit vals)
    (hl : HoldsAt b.buf first.toNat (b.refBytes keys ++ b.refBytes vals))
    (hcount : count.toNat = written.length)
    (hk : ∀ e ∈ keys.zip written, child e.1 () = .ok (.string e.2.1) ())
    (hv : ∀ e ∈ vals.zip written, child e.1 () = .ok e.2.2 ()) :
    b.decode p child off (marker 0xd n) () =
      .ok (.dict (written.foldl (fun m e => SortedMap.insertEntry e.1 e.2 m) [])) () := by
  obtain ⟨hkat, hvat⟩ := holdsAt_append.1 hl
  rw [length_refBytes, hkeys] at hvat
  have hroom : first.toNat + written.length * b.refSize.toNat < 2 ^ 64 := by
    have hword := hbuf
    unfold isizeMax at hword
    rcases Nat.eq_zero_or_pos written.length with hzero | hpos'
    · rw [hzero, Nat.zero_mul]
      omega
    · have := hkat.add_length_le (by rw [length_refBytes, hkeys]; exact Nat.mul_pos hpos' hpos)
      rw [length_refBytes, hkeys] at this
      omega
  have hmul : (count * b.refSize).toNat = written.length * b.refSize.toNat := by
    rw [BitVec.toNat_mul_of_lt (by rw [hcount]; omega), hcount]
  have hadd : (first + count * b.refSize).toNat =
      first.toNat + written.length * b.refSize.toNat := by
    rw [BitVec.toNat_add_of_lt (by rw [hmul]; exact hroom), hmul]
  rw [← hadd] at hvat
  have hentries := dictEntries_eq (p := p) hbuf hsize hpos hkeys hvals hcount hkfit hvfit hkat hvat
    hk hv
  simp only [decode, marker_type (show 0xd < 16 by omega) hn,
    marker_nibble (show 0xd < 16 by omega) hn]
  rw [Prog.bind_apply, hread]
  simp only
  rw [Profile.mul_of_lt (by rw [hcount]; omega), Prog.ofChecked_ok_bind,
    Profile.add_of_lt (by rw [hmul]; exact hroom), Prog.ofChecked_ok_bind, Prog.bind_apply, hentries]
  rfl

end Counted

/-- The decoder returns the value that an object holds. -/
theorem Encodes.objectAt_eq (hbuf : b.buf.length ≤ isizeMax) (hsize : b.refSize.toNat ≤ 8)
    (hpos : 0 < b.refSize.toNat) {i : U64} {v : PlistValue} (h : b.Encodes i v) :
    ∀ left, v.Proper → v.levels ≤ left → b.objectAt p left i () = .ok v () := by
  -- a value has a level of its own, and its parts have one less
  have hstep : ∀ {i v}, (∀ left, v.Proper → v.levels ≤ left + 1 →
      b.objectAt p (left + 1) i () = .ok v ()) →
      ∀ left, v.Proper → v.levels ≤ left → b.objectAt p left i () = .ok v () := by
    intro i v h left hproper hlevels
    cases left with
    | zero => exact absurd hlevels (not_le.2 v.levels_pos)
    | succ left => exact h left hproper hlevels
  induction h with
  | @bool i v hobj =>
    refine hstep fun left _ _ => ?_
    obtain ⟨off, hoff, hat⟩ := hobj
    rw [objectAt_eq_decode hoff hat.getElem?]
    cases v <;> rfl
  | @unsigned i n k hk hn hobj =>
    refine hstep fun left _ _ => ?_
    obtain ⟨off, hoff, hat⟩ := hobj
    have hwidth : 2 ^ k ≤ 2 ^ 2 := Nat.pow_le_pow_right (by omega) hk
    rw [objectAt_eq_decode hoff hat.getElem?,
      decode_integer hbuf (by omega) (length_beBytes _ _) hat, beInt, length_beBytes,
      if_neg (by omega), beUint_eq, beNat_beBytes, Nat.mod_eq_of_lt hn]
  | @signed i n hobj =>
    refine hstep fun left _ _ => ?_
    obtain ⟨off, hoff, hat⟩ := hobj
    rw [objectAt_eq_decode hoff hat.getElem?,
      decode_integer hbuf (by omega) (by rw [length_beBytes]; rfl) hat, beInt, length_beBytes,
      if_pos rfl, beU64, List.take_of_length_le (by simp), beUint_beBytes (by omega) n.isLt]
  | @data i bytes h hh hobj =>
    refine hstep fun left _ _ => ?_
    obtain ⟨n, off, first, hn, hdecode, hread, hl, hfirst, hcount⟩ := hh.objectAt hbuf hobj
    rw [hdecode, decode_data hbuf hn hread hfirst hl hcount]
  | @ascii i text h hascii hh hobj =>
    refine hstep fun left _ _ => ?_
    obtain ⟨n, off, first, hn, hdecode, hread, hl, hfirst, hcount⟩ := hh.objectAt hbuf hobj
    rw [hdecode, decode_ascii hbuf hn hread hfirst hl
      (by rw [hcount, utf8Encode_length_of_ascii hascii]), String.ofList_toList]
  | @utf16 i text h hh hobj =>
    refine hstep fun left _ _ => ?_
    obtain ⟨n, off, first, hn, hdecode, hread, hl, hfirst, hcount⟩ := hh.objectAt hbuf hobj
    rw [hdecode, decode_utf16 hbuf hn hread hfirst hl hcount, utf16Chars_encode,
      String.ofList_toList]
  | @array i items refs h hlen hfit hh hobj _ ih =>
    refine hstep fun left hproper hlevels => ?_
    rw [PlistValue.levels, Nat.add_comm, Nat.add_le_add_iff_right,
      PlistValue.levelsOfItems_le_iff] at hlevels
    rw [PlistValue.Proper, PlistValue.properItems_iff] at hproper
    obtain ⟨n, off, first, hn, hdecode, hread, hl, -, hcount⟩ := hh.objectAt hbuf hobj
    rw [hdecode, decode_array hbuf hn hread hsize hpos hfit hlen hl hcount hproper.1]
    intro e he
    have hmem := (List.of_mem_zip he).2
    exact ih e he left (hproper.2 e.2 hmem) (hlevels e.2 hmem)
  | @dict i entries written keys vals h hperm hkeys hvals hkfit hvfit hh hobj _ _ ihk ihv =>
    refine hstep fun left hproper hlevels => ?_
    rw [PlistValue.levels, Nat.add_comm, Nat.add_le_add_iff_right,
      PlistValue.levelsOfEntries_le_iff] at hlevels
    rw [PlistValue.Proper, PlistValue.properEntries_iff] at hproper
    obtain ⟨n, off, first, hn, hdecode, hread, hl, -, hcount⟩ := hh.objectAt hbuf hobj
    rw [hdecode, decode_dict hbuf hn hread hsize hpos hkeys hvals hkfit hvfit hl hcount,
      SortedMap.foldl_insertEntry_eq hperm hproper.1]
    · intro e he
      have hmem := hperm.subset (List.of_mem_zip he).2
      -- a key is a leaf next to its value
      refine ihk e he left trivial ?_
      exact (PlistValue.levels_pos e.2.2).trans_le (hlevels e.2 hmem)
    · intro e he
      have hmem := hperm.subset (List.of_mem_zip he).2
      exact ihv e he left (hproper.2 e.2 hmem) (hlevels e.2 hmem)

end Reading

/-! ## Files -/

/-- How a file is laid out : the objects, the table of their offsets, and the trailer. -/
structure Layout where
  objects : List U8
  unused : List U8
  offsetSize : ℕ
  refSize : ℕ
  offsets : List U64
  topObject : U64
  tableOffset : U64

namespace Layout

variable (l : Layout)

def trailer : List U8 :=
  l.unused ++ ([BitVec.ofNat 8 l.offsetSize, BitVec.ofNat 8 l.refSize] ++
    (beBytes 8 l.offsets.length ++ (beBytes 8 l.topObject.toNat ++ beBytes 8 l.tableOffset.toNat)))

/-- The bytes of the file. The table of offsets is among the objects. -/
def file : List U8 :=
  bplistMagic ++ l.objects ++ l.trailer

/-- The file encodes `v`. -/
structure Encodes (v : PlistValue) : Prop where
  unused_length : l.unused.length = 6
  offsetSize_pos : 0 < l.offsetSize
  offsetSize_le : l.offsetSize ≤ 8
  refSize_pos : 0 < l.refSize
  refSize_le : l.refSize ≤ 8
  offsets_fit : ∀ o ∈ l.offsets, o.toNat < 256 ^ l.offsetSize
  table : HoldsAt l.file l.tableOffset.toNat
    (l.offsets.flatMap fun o => beBytes l.offsetSize o.toNat)
  top : l.topObject.toNat < l.offsets.length
  value : BinaryPlist.Encodes ⟨l.file, BitVec.ofNat 64 l.refSize, l.offsets⟩ l.topObject v
  /-- The table of offsets is a vector. -/
  offsets_length : l.offsets.length * 8 ≤ isizeMax

variable {l} {v : PlistValue}

theorem Encodes.length_trailer (h : l.Encodes v) : l.trailer.length = 32 := by
  simp [trailer, h.unused_length]

theorem Encodes.drop_file (h : l.Encodes v) : l.file.drop (l.file.length - 32) = l.trailer := by
  have hlen : l.file.length - 32 = (bplistMagic ++ l.objects).length := by
    rw [file, List.length_append, h.length_trailer]
    omega
  rw [hlen, file, List.drop_left]

theorem setWidth_small {n : ℕ} (hn : n ≤ 8) : (BitVec.ofNat 8 n).setWidth 64 = BitVec.ofNat 64 n := by
  apply BitVec.eq_of_toNat_eq
  rw [BitVec.toNat_setWidth, toNat_byte (by omega), BitVec.toNat_ofNat]

theorem beU64_append (x : U64) (rest : List U8) : beU64 (beBytes 8 x.toNat ++ rest) = x := by
  rw [beU64, List.take_append_of_le_length (by simp), List.take_of_length_le (by simp),
    beUint_beBytes (by omega) x.isLt]

/-- The trailer is read back. -/
theorem Encodes.trailerOf_eq (h : l.Encodes v) :
    trailerOf l.file = ⟨BitVec.ofNat 64 l.offsetSize, BitVec.ofNat 64 l.refSize,
      BitVec.ofNat 64 l.offsets.length, l.topObject, l.tableOffset⟩ := by
  have hcount : (BitVec.ofNat 64 l.offsets.length).toNat = l.offsets.length := by
    have hlen := h.offsets_length
    unfold isizeMax at hlen
    rw [BitVec.toNat_ofNat, Nat.mod_eq_of_lt (by omega)]
  have hdrop : l.trailer.drop 6 = [BitVec.ofNat 8 l.offsetSize, BitVec.ofNat 8 l.refSize] ++
      (beBytes 8 l.offsets.length ++
        (beBytes 8 l.topObject.toNat ++ beBytes 8 l.tableOffset.toNat)) := by
    rw [trailer, ← h.unused_length, List.drop_left]
  have hget : ∀ k, l.trailer.getD (6 + k) 0 = (l.trailer.drop 6).getD k 0 := by
    intro k
    rw [List.getD_eq_getElem?_getD, List.getD_eq_getElem?_getD, List.getElem?_drop]
  have hat8 : l.trailer.drop 8 = beBytes 8 (BitVec.ofNat 64 l.offsets.length).toNat ++
      (beBytes 8 l.topObject.toNat ++ beBytes 8 l.tableOffset.toNat) := by
    rw [show 8 = 6 + 2 from rfl, ← List.drop_drop, hdrop, hcount]
    rfl
  have hat16 : l.trailer.drop 16 = beBytes 8 l.topObject.toNat ++
      beBytes 8 l.tableOffset.toNat := by
    rw [show 16 = 8 + 8 from rfl, ← List.drop_drop, hat8, List.drop_left' (length_beBytes 8 _)]
  have hat24 : l.trailer.drop 24 = beBytes 8 l.tableOffset.toNat ++ [] := by
    rw [show 24 = 16 + 8 from rfl, ← List.drop_drop, hat16, List.drop_left' (length_beBytes 8 _),
      List.append_nil]
  unfold trailerOf
  simp only [h.drop_file]
  rw [show 6 = 6 + 0 from rfl, show 7 = 6 + 1 from rfl, hget, hget, hdrop, hat8, hat16, hat24,
    beU64_append, beU64_append, beU64_append]
  simp only [List.cons_append, List.getD_cons_zero, List.getD_cons_succ,
    setWidth_small h.offsetSize_le, setWidth_small h.refSize_le]

theorem Encodes.toNat_sizes (h : l.Encodes v) :
    (BitVec.ofNat 64 l.offsetSize).toNat = l.offsetSize ∧
      (BitVec.ofNat 64 l.refSize).toNat = l.refSize ∧
      (BitVec.ofNat 64 l.offsets.length).toNat = l.offsets.length := by
  have h₁ := h.offsetSize_le
  have h₂ := h.refSize_le
  have h₃ := h.offsets_length
  unfold isizeMax at h₃
  simp only [BitVec.toNat_ofNat]
  omega

/-- The table lies in the file. -/
theorem Encodes.wellFormed (h : l.Encodes v) : (trailerOf l.file).WellFormed l.file := by
  obtain ⟨hoffset, href, hcount⟩ := h.toNat_sizes
  have hpos := h.offsetSize_pos
  have hpos' := h.refSize_pos
  have htop := h.top
  have hlen := length_numberBytes l.offsetSize l.offsets
  have hend := h.table.add_length_le (by rw [hlen]; exact Nat.mul_pos (by omega) hpos)
  rw [hlen] at hend
  rw [h.trailerOf_eq]
  unfold Trailer.WellFormed
  simp only [hoffset, href, hcount, ne_eq, ← BitVec.toNat_inj]
  exact ⟨hpos.ne', h.offsetSize_le, hpos'.ne', h.refSize_le, hend, htop⟩

theorem Encodes.offsetTable_eq (h : l.Encodes v) :
    offsetTable l.file (trailerOf l.file) = l.offsets := by
  obtain ⟨hoffset, -, hcount⟩ := h.toNat_sizes
  rw [offsetTable, h.trailerOf_eq]
  simp only [hoffset, hcount]
  refine List.ext_getElem (by simp) fun j _ hj => ?_
  have htake := (holdsAt_getElem h.table hj).take
  rw [length_beBytes] at htake
  rw [List.getElem_map, List.getElem_range, htake,
    beUint_beBytes h.offsetSize_le (h.offsets_fit _ (List.getElem_mem hj))]

/-- A file is decoded to the value that it encodes. -/
theorem Encodes.parse_eq (p : Profile) (h : l.Encodes v) (hv : v.Proper) (hlevels : v.levels ≤ 129)
    (hfile : l.file.length ≤ isizeMax) : Plist.parse p l.file () = .ok v () := by
  obtain ⟨-, href, hcount⟩ := h.toNat_sizes
  have hmagic : bplistMagic.isPrefixOf l.file := by
    rw [List.isPrefixOf_iff_prefix, file, List.append_assoc]
    exact List.prefix_append _ _
  have hlong : ¬l.file.length < 8 + 32 := by
    rw [file, List.length_append, List.length_append, h.length_trailer]
    simp [bplistMagic]
  have hnum : (trailerOf l.file).numObjects.toNat * 8 ≤ isizeMax := by
    rw [h.trailerOf_eq, hcount]
    exact h.offsets_length
  rw [Plist.parse, if_pos hmagic, parse_apply hfile, if_neg hlong, if_neg (not_not.2 h.wellFormed),
    if_neg (not_not.2 hnum), h.offsetTable_eq, h.trailerOf_eq]
  exact h.value.objectAt_eq hfile (by rw [href]; exact h.refSize_le)
    (by rw [href]; exact h.refSize_pos) 129 hv hlevels

/-- A dictionary with an array of two references to one object. -/
def sample : Layout where
  objects := [0xd1, 0x01, 0x02, 0x51, 0x6b, 0xa2, 0x03, 0x03, 0x09, 0x08, 0x0b, 0x0d, 0x10]
  unused := [0, 0, 0, 0, 0, 0]
  offsetSize := 1
  refSize := 1
  offsets := [8, 11, 13, 16]
  topObject := 0
  tableOffset := 17

theorem parse_eq_sample :
    Plist.parse .release sample.file () =
      .ok (.dict [("k", .array [.bool true, .bool true])]) () := by
  have htrue : BinaryPlist.Encodes ⟨sample.file, 1, sample.offsets⟩ 3 (.bool true) :=
    .bool ⟨16, rfl, by decide⟩
  have harray : BinaryPlist.Encodes ⟨sample.file, 1, sample.offsets⟩ 2
      (.array [.bool true, .bool true]) := by
    refine @BinaryPlist.Encodes.array _ _ _ [3, 3] [0xa2] rfl (by simp [RefsFit])
      (.inline (by decide)) ⟨13, rfl, by decide⟩ ?_
    exact List.forall_mem_cons.2 ⟨htrue, List.forall_mem_cons.2 ⟨htrue, List.forall_mem_nil _⟩⟩
  have hkey : BinaryPlist.Encodes ⟨sample.file, 1, sample.offsets⟩ 1 (.string "k") :=
    .ascii (h := [0x51]) (by simp) (.inline (by decide)) ⟨11, rfl, by decide⟩
  have hdict : BinaryPlist.Encodes ⟨sample.file, 1, sample.offsets⟩ 0
      (.dict [("k", .array [.bool true, .bool true])]) := by
    refine @BinaryPlist.Encodes.dict _ _ _ _ [1] [2] [0xd1] (.refl _) rfl rfl (by simp [RefsFit])
      (by simp [RefsFit]) (.inline (by decide)) ⟨8, rfl, by decide⟩ ?_ ?_
    · exact List.forall_mem_cons.2 ⟨hkey, List.forall_mem_nil _⟩
    · exact List.forall_mem_cons.2 ⟨harray, List.forall_mem_nil _⟩
  have h : sample.Encodes (.dict [("k", .array [.bool true, .bool true])]) :=
    ⟨rfl, by decide, by decide, by decide, by decide, by simp [sample], by decide, by decide, hdict,
      by decide⟩
  refine h.parse_eq .release ?_ ?_ (by decide)
  · simp [PlistValue.Proper, PlistValue.ProperEntries, PlistValue.ProperItems,
      PlistValue.valueSize, isizeMax]
  · simp [PlistValue.levels, PlistValue.levelsOfEntries, PlistValue.levelsOfItems]

end Layout

end BinaryPlist

end IosEmu
