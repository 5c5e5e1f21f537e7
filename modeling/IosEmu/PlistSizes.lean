import IosEmu.PlistReferences

/-!
# The sizes of a binary property list

An object declares its size, and the decoder takes that many bytes from the file. The size of a
string of 16-bit units is twice its count, and a release build doubles the count in 64 bits : from
a count of `2 ^ 63` on it takes fewer bytes than are declared. Everything else is checked against
the length of the file as it is. The references of a container are read one by one, so a count that
would wrap ends in an error long before.

So what a release build accepts lies in the file, with its declared size taken as a number, exactly
if no string of 16-bit units that it comes to declares `2 ^ 63` units or more
(`accepted_fits_iff`).
-/

open SysLib Relation

namespace IosEmu

open Prog

namespace BinaryPlist

/-! ## Declared sizes -/

/-- Where the object at `off` ends, going by the size that it declares. -/
def declaredEnd (b : BinaryPlist) (off : ℕ) (m : U8) : Option ℕ :=
  let n := (m &&& 0x0f).toNat
  match (m >>> 4).toNat with
  | 0x0 => some (off + 1)
  | 0x1 | 0x2 => some (off + 1 + 2 ^ n)
  | 0x3 => some (off + 1 + 8)
  | 0x4 | 0x5 => (b.header off n).map fun h => h.2 + h.1.toNat
  | 0x6 => (b.header off n).map fun h => h.2 + 2 * h.1.toNat
  | 0x8 => some (off + 1 + (n + 1))
  | 0xa => (b.header off n).map fun h => h.2 + h.1.toNat * b.refSize.toNat
  | 0xd => (b.header off n).map fun h => h.2 + 2 * h.1.toNat * b.refSize.toNat
  | _ => none

/-- Object number `i` lies in the file, with the size that it declares. -/
def Fits (b : BinaryPlist) (i : U64) : Prop :=
  ∃ off m stop, b.StartsAt i off m ∧ b.declaredEnd off m = some stop ∧ stop ≤ b.buf.length

/-- The bytes from `pos` on. -/
def bytesAt (b : BinaryPlist) (pos len : ℕ) : List U8 :=
  (b.buf.drop pos).take len

/-- `v` is made of as many bytes, units or items as the object at `off` declares. -/
def SizedAt (b : BinaryPlist) (off : ℕ) (m : U8) (v : PlistValue) : Prop :=
  ∀ count first, b.header off (m &&& 0x0f).toNat = some (count, first) →
    match (m >>> 4).toNat with
    | 0x4 => v = .data (b.bytesAt first count.toNat) ∧
      (b.bytesAt first count.toNat).length = count.toNat
    | 0x5 => v = .string (fromUtf8Lossy (b.bytesAt first count.toNat)) ∧
      (b.bytesAt first count.toNat).length = count.toNat
    | 0x6 => v = .string (String.ofList (utf16Chars
        (unitsOfBytes (b.bytesAt first (2 * count.toNat))))) ∧
      (unitsOfBytes (b.bytesAt first (2 * count.toNat))).length = count.toNat
    | 0xa => ∃ items, v = .array items ∧ items.length = count.toNat
    | _ => True

/-- Object number `i` is decoded to as much as it declares. -/
def Sized (p : Profile) (b : BinaryPlist) (i : U64) : Prop :=
  ∀ off m left v, b.StartsAt i off m → b.objectAt p left i () = .ok v () → b.SizedAt off m v

/-- If object number `i` is a string of 16-bit units, they are fewer than `2 ^ 63`. -/
def UnitsFit (b : BinaryPlist) (i : U64) : Prop :=
  ∀ off m count first, b.StartsAt i off m → (m >>> 4).toNat = 0x6 →
    b.header off (m &&& 0x0f).toNat = some (count, first) → count.toNat < 2 ^ 63

section Sizes

variable {b : BinaryPlist} {child : U64 → PlistM PlistValue} {off : U64} {m : U8}

theorem length_unitsOfBytes : ∀ l : List U8, (unitsOfBytes l).length = l.length / 2
  | [] => rfl
  | [_] => by simp [unitsOfBytes]
  | _ :: _ :: l => by
    rw [unitsOfBytes, List.length_cons, length_unitsOfBytes l, List.length_cons, List.length_cons]
    omega

theorem length_bytesAt {pos len : ℕ} (h : pos + len ≤ b.buf.length) :
    (b.bytesAt pos len).length = len := by
  rw [bytesAt, List.length_take, List.length_drop]
  omega

theorem slice_eq_ok_iff (hbuf : b.buf.length ≤ isizeMax) {pos len : U64} {bytes : List U8} :
    b.slice pos len () = .ok bytes () ↔ pos.toNat + len.toNat ≤ b.buf.length ∧
      bytes = b.bytesAt pos.toNat len.toNat := by
  rw [slice_apply hbuf]
  split_ifs with h
  · simp [ofRead, h, bytesAt, eq_comm]
  · simp [ofRead, h]

/-- The header that the decoder reads is the one that is there. -/
theorem header_of_countAndOffset {p : Profile} (hbuf : b.buf.length ≤ isizeMax)
    (hoff : off.toNat < b.buf.length) {n : ℕ} {count first : U64}
    (h : b.countAndOffset p off n () = .ok (count, first) ()) :
    b.header off.toNat n = some (count, first.toNat) := by
  rcases countAndOffset_cases (p := p) hbuf off n hoff with
    ⟨count', first', hheader, hread⟩ | ⟨-, e, hread⟩
  · obtain ⟨⟩ := (Outcome.ok.inj (h.symm.trans hread)).1
    exact hheader
  · cases h.symm.trans hread

/-- References that can all be read lie in the file. -/
theorem refs_le (hbuf : b.buf.length ≤ isizeMax) (hsize : b.refSize.toNat ≤ 8) {first : U64}
    (hfirst : first.toNat ≤ b.buf.length) {n : ℕ} (hn : n < 2 ^ 64)
    (h : ∀ j < n, ∃ r, b.readRefAt .release first (BitVec.ofNat 64 j) () = .ok r ()) :
    first.toNat + n * b.refSize.toNat ≤ b.buf.length := by
  unfold isizeMax at hbuf
  induction n with
  | zero => simpa using hfirst
  | succ n ih =>
    have hle := ih (by omega) fun j hj => h j (by omega)
    obtain ⟨r, hr⟩ := h n (Nat.lt_succ_self n)
    have hindex : (BitVec.ofNat 64 n).toNat = n := by
      rw [BitVec.toNat_ofNat, Nat.mod_eq_of_lt (by omega)]
    rw [Nat.succ_mul]
    rw [readRefAt_apply _ _ (by rw [hindex, Nat.succ_mul]; omega), hindex] at hr
    cases href : b.refAt (first.toNat + n * b.refSize.toNat) with
    | none =>
      rw [href] at hr
      cases hr
    | some r' =>
      have := refAt_le href
      omega

/-- A number of bytes behind the marker. -/
theorem bytes_le (hbuf : b.buf.length ≤ isizeMax) (hoff : off.toNat < b.buf.length) {len : U64}
    {α : Type} {f : List U8 → PlistM α} {v : α}
    (h : (Prog.ofChecked (Profile.release.add off 1) >>= fun start =>
      b.slice start len >>= f) () = .ok v ()) : off.toNat + 1 + len.toNat ≤ b.buf.length := by
  have hone : (off + 1).toNat = off.toNat + 1 := by
    unfold isizeMax at hbuf
    exact BitVec.toNat_add_of_lt (by simp; omega)
  rw [Profile.add_release, ofChecked_ok_bind] at h
  obtain ⟨bytes, ⟨⟩, hslice, -⟩ := bind_eq_ok.1 h
  rw [← hone]
  exact ((slice_eq_ok_iff hbuf).1 hslice).1

theorem length_arrayItems {p : Profile} {first count : U64} {items : List PlistValue}
    (h : b.arrayItems p child first count () = .ok items ()) : items.length = count.toNat := by
  refine (length_of_foldlM (fun acc i out hround => ?_) h).trans (Nat.zero_add _)
  obtain ⟨_, ⟨⟩, -, hround⟩ := bind_eq_ok.1 hround
  obtain ⟨_, ⟨⟩, -, hround⟩ := bind_eq_ok.1 hround
  obtain ⟨rfl, -⟩ := Outcome.ok.inj hround
  rw [List.length_append, List.length_singleton]

/-- The keys of a dictionary that is decoded lie in the file, and so do the values behind them. -/
theorem entries_le (hbuf : b.buf.length ≤ isizeMax) (hsize : b.refSize.toNat ≤ 8)
    {first count : U64} (hfirst : first.toNat ≤ b.buf.length)
    {entries : List (String × PlistValue)}
    (h : b.dictEntries .release child first (first + count * b.refSize) count () =
      .ok entries ()) : first.toNat + 2 * count.toNat * b.refSize.toNat ≤ b.buf.length := by
  have hrounds := returns_dictEntries_iff.1 ⟨entries, h⟩
  have hkeys := refs_le hbuf hsize hfirst count.isLt fun j hj => by
    obtain ⟨kref, _, hkref, -⟩ := hrounds j hj
    exact ⟨kref, hkref⟩
  have hword := hbuf
  unfold isizeMax at hword
  have hvals : (first + count * b.refSize).toNat =
      first.toNat + count.toNat * b.refSize.toNat := by
    have hmul : (count * b.refSize).toNat = count.toNat * b.refSize.toNat :=
      BitVec.toNat_mul_of_lt (by omega)
    rw [BitVec.toNat_add_of_lt (by omega), hmul]
  have hvalues := refs_le hbuf hsize (hvals ▸ hkeys) count.isLt fun j hj => by
    obtain ⟨_, vref, -, hvref, -⟩ := hrounds j hj
    exact ⟨vref, hvref⟩
  rw [hvals] at hvalues
  rw [Nat.mul_assoc, Nat.two_mul]
  omega

/-- The object at `off` lies in the file and is made of as much as it declares. -/
def ExactAt (b : BinaryPlist) (off : ℕ) (m : U8) (v : PlistValue) : Prop :=
  (∃ stop, b.declaredEnd off m = some stop ∧ stop ≤ b.buf.length) ∧ b.SizedAt off m v

/-- An object of a fixed size, which declares no count. -/
theorem exactAt_of_fixed {off stop : ℕ} {v : PlistValue}
    (hty : (m >>> 4).toNat ∉ [0x4, 0x5, 0x6, 0xa]) (hend : b.declaredEnd off m = some stop)
    (hle : stop ≤ b.buf.length) : b.ExactAt off m v := by
  refine ⟨⟨stop, hend, hle⟩, fun _ _ _ => ?_⟩
  simp only [List.mem_cons, List.not_mem_nil, or_false, not_or] at hty
  obtain ⟨h₄, h₅, h₆, ha⟩ := hty
  split <;> first | contradiction | trivial

/-- An object with a count : its header is the one that was read. -/
theorem exactAt_of_header {off first stop : ℕ} {count : U64} {v : PlistValue}
    (hheader : b.header off (m &&& 0x0f).toNat = some (count, first))
    (hend : b.declaredEnd off m = some stop) (hle : stop ≤ b.buf.length)
    (hsized : match (m >>> 4).toNat with
      | 0x4 => v = .data (b.bytesAt first count.toNat) ∧
        (b.bytesAt first count.toNat).length = count.toNat
      | 0x5 => v = .string (fromUtf8Lossy (b.bytesAt first count.toNat)) ∧
        (b.bytesAt first count.toNat).length = count.toNat
      | 0x6 => v = .string (String.ofList (utf16Chars
          (unitsOfBytes (b.bytesAt first (2 * count.toNat))))) ∧
        (unitsOfBytes (b.bytesAt first (2 * count.toNat))).length = count.toNat
      | 0xa => ∃ items, v = .array items ∧ items.length = count.toNat
      | _ => True) : b.ExactAt off m v := by
  refine ⟨⟨stop, hend, hle⟩, fun count' first' h => ?_⟩
  obtain ⟨⟩ := Option.some.inj (hheader.symm.trans h)
  exact hsized

/-- A count and a slice of as many bytes. -/
theorem counted_of_slice (hbuf : b.buf.length ≤ isizeMax) (hoff : off.toNat < b.buf.length)
    {n : ℕ} {f : List U8 → PlistValue} {v : PlistValue}
    (h : (b.countAndOffset .release off n >>= fun (count, dataOff) =>
      b.slice dataOff count >>= fun bytes => pure (f bytes)) () = .ok v ()) :
    ∃ count first, b.header off.toNat n = some (count, first) ∧
      first + count.toNat ≤ b.buf.length ∧ v = f (b.bytesAt first count.toNat) ∧
      (b.bytesAt first count.toNat).length = count.toNat := by
  obtain ⟨⟨count, first⟩, ⟨⟩, hcount, h⟩ := bind_eq_ok.1 h
  obtain ⟨bytes, ⟨⟩, hslice, h⟩ := bind_eq_ok.1 h
  obtain ⟨rfl, -⟩ := Outcome.ok.inj h
  obtain ⟨hle, rfl⟩ := (slice_eq_ok_iff hbuf).1 hslice
  exact ⟨count, first.toNat, header_of_countAndOffset hbuf hoff hcount, hle, rfl,
    length_bytesAt hle⟩

theorem exactAt_units (hbuf : b.buf.length ≤ isizeMax) (hoff : off.toNat < b.buf.length)
    {v : PlistValue} (hty : (m >>> 4).toNat = 0x6)
    (hunits : ∀ count first, b.header off.toNat (m &&& 0x0f).toNat = some (count, first) →
      count.toNat < 2 ^ 63)
    (h : b.decode .release child off m () = .ok v ()) : b.ExactAt off.toNat m v := by
  simp only [decode, hty] at h
  obtain ⟨⟨count, first⟩, ⟨⟩, hcount, h⟩ := bind_eq_ok.1 h
  rw [Profile.mul_release, ofChecked_ok_bind] at h
  obtain ⟨bytes, ⟨⟩, hslice, h⟩ := bind_eq_ok.1 h
  obtain ⟨rfl, -⟩ := Outcome.ok.inj h
  have hheader := header_of_countAndOffset hbuf hoff hcount
  have hcount' := hunits count first.toNat hheader
  have htwo : (count * 2).toNat = 2 * count.toNat := by
    rw [BitVec.toNat_mul_of_lt (by change count.toNat * 2 < _; omega), Nat.mul_comm]
    rfl
  obtain ⟨hle, rfl⟩ := (slice_eq_ok_iff hbuf).1 hslice
  rw [htwo] at hle ⊢
  refine exactAt_of_header hheader (by simp only [declaredEnd, hty, hheader]; rfl) hle ?_
  rw [hty]
  refine ⟨rfl, ?_⟩
  rw [length_unitsOfBytes, length_bytesAt hle]
  omega

theorem exactAt_array (hbuf : b.buf.length ≤ isizeMax) (hsize : b.refSize.toNat ≤ 8)
    (hoff : off.toNat < b.buf.length) {v : PlistValue} (hty : (m >>> 4).toNat = 0xa)
    (h : b.decode .release child off m () = .ok v ()) : b.ExactAt off.toNat m v := by
  simp only [decode, hty] at h
  obtain ⟨⟨count, first⟩, ⟨⟩, hcount, h⟩ := bind_eq_ok.1 h
  obtain ⟨_, ⟨⟩, -, h⟩ := bind_eq_ok.1 h
  obtain ⟨items, ⟨⟩, hitems, h⟩ := bind_eq_ok.1 h
  obtain ⟨rfl, -⟩ := Outcome.ok.inj h
  have hheader := header_of_countAndOffset hbuf hoff hcount
  have hrefs := refs_le hbuf hsize (header_le hoff hheader) count.isLt fun j hj =>
    ((returns_arrayItems_iff.1 ⟨items, hitems⟩) j hj).imp fun r hr => hr.1
  refine exactAt_of_header hheader (by simp only [declaredEnd, hty, hheader]; rfl) hrefs ?_
  rw [hty]
  exact ⟨items, rfl, length_arrayItems hitems⟩

theorem exactAt_dict (hbuf : b.buf.length ≤ isizeMax) (hsize : b.refSize.toNat ≤ 8)
    (hoff : off.toNat < b.buf.length) {v : PlistValue} (hty : (m >>> 4).toNat = 0xd)
    (h : b.decode .release child off m () = .ok v ()) : b.ExactAt off.toNat m v := by
  simp only [decode, hty] at h
  obtain ⟨⟨count, first⟩, ⟨⟩, hcount, h⟩ := bind_eq_ok.1 h
  simp only [Profile.mul_release, Profile.add_release, ofChecked_ok_bind] at h
  obtain ⟨entries, ⟨⟩, hentries, h⟩ := bind_eq_ok.1 h
  have hheader := header_of_countAndOffset hbuf hoff hcount
  refine exactAt_of_header hheader (by simp only [declaredEnd, hty, hheader]; rfl)
    (entries_le hbuf hsize (header_le hoff hheader) hentries) ?_
  rw [hty]
  trivial

/-- What is decoded lies in the file and has its declared size, if a doubled count does not wrap. -/
theorem fits_of_decode (hbuf : b.buf.length ≤ isizeMax) (hsize : b.refSize.toNat ≤ 8)
    (hoff : off.toNat < b.buf.length) {v : PlistValue}
    (hunits : (m >>> 4).toNat = 0x6 → ∀ count first,
      b.header off.toNat (m &&& 0x0f).toNat = some (count, first) → count.toNat < 2 ^ 63)
    (h : b.decode .release child off m () = .ok v ()) : b.ExactAt off.toNat m v := by
  have hnibble := toNat_nibble m
  have hwidth := toNat_one_shl hnibble
  have hlt := toNat_type_lt m
  by_cases hty : (m >>> 4).toNat = 0x6
  · exact exactAt_units hbuf hoff hty (hunits hty) h
  by_cases hty : (m >>> 4).toNat = 0xa
  · exact exactAt_array hbuf hsize hoff hty h
  by_cases hty : (m >>> 4).toNat = 0xd
  · exact exactAt_dict hbuf hsize hoff hty h
  clear hunits
  interval_cases hty' : (m >>> 4).toNat <;> simp only [decode, hty'] at h
  · exact exactAt_of_fixed (by simp [hty']) (by simp only [declaredEnd, hty']) hoff
  · refine exactAt_of_fixed (by simp [hty']) (by simp only [declaredEnd, hty']; rfl) ?_
    rw [← hwidth]
    exact bytes_le hbuf hoff h
  · refine exactAt_of_fixed (by simp [hty']) (by simp only [declaredEnd, hty']; rfl) ?_
    rw [← hwidth]
    exact bytes_le hbuf hoff h
  · exact exactAt_of_fixed (by simp [hty']) (by simp only [declaredEnd, hty']; rfl)
      (bytes_le hbuf hoff h)
  · obtain ⟨count, first, hheader, hle, rfl, hlen⟩ := counted_of_slice hbuf hoff h
    refine exactAt_of_header hheader (by simp only [declaredEnd, hty', hheader]; rfl) hle ?_
    rw [hty']
    exact ⟨rfl, hlen⟩
  · obtain ⟨count, first, hheader, hle, rfl, hlen⟩ :=
      counted_of_slice (f := fun l => .string (fromUtf8Lossy l)) hbuf hoff h
    refine exactAt_of_header hheader (by simp only [declaredEnd, hty', hheader]; rfl) hle ?_
    rw [hty']
    exact ⟨rfl, hlen⟩
  · contradiction
  · cases h
  · refine exactAt_of_fixed (by simp [hty']) (by simp only [declaredEnd, hty']; rfl) ?_
    have hlen : (BitVec.ofNat 64 ((m &&& 0x0f).toNat + 1)).toNat = (m &&& 0x0f).toNat + 1 := by
      rw [BitVec.toNat_ofNat, Nat.mod_eq_of_lt (by omega)]
    rw [← hlen]
    exact bytes_le hbuf hoff h
  · cases h
  · contradiction
  · cases h
  · cases h
  · contradiction
  · cases h
  · cases h

end Sizes

theorem wellFormed_of_parse {p : Profile} {buf : List U8} {v : PlistValue}
    (h : parse p buf () = .ok v ()) : (trailerOf buf).WellFormed buf := by
  unfold parse at h
  simp only at h
  split_ifs at h with hshort hwf
  · cases h
  · exact hwf
  · cases h

end BinaryPlist

namespace Plist

open BinaryPlist

/-- Every object that a release build comes to in a binary file it accepts lies in the file with
its declared size, and is decoded to as much, exactly if the counts of the strings of 16-bit units
are below `2 ^ 63`. -/
theorem accepted_fits_iff (bytes : List U8) (v : PlistValue) (b : BinaryPlist)
    (hbytes : bytes.length ≤ isizeMax) (hbinary : bplistMagic.isPrefixOf bytes = true)
    (hparse : parse .release bytes () = .ok v ()) (hpool : PoolOf .release bytes b) :
    (∀ x, ReflTransGen (RefersTo .release b) (trailerOf bytes).topObject x →
      b.Fits x ∧ b.Sized .release x) ↔
    ∀ x, ReflTransGen (RefersTo .release b) (trailerOf bytes).topObject x → b.UnitsFit x := by
  rw [parse, if_pos hbinary] at hparse
  have hbuf : b.buf.length ≤ isizeMax := by
    rw [hpool.1]
    exact hbytes
  have hsize : b.refSize.toNat ≤ 8 := by
    rw [hpool.2.1]
    exact (wellFormed_of_parse hparse).2.2.2.1
  constructor
  · intro h x hx off m count first hstart hty hheader
    obtain ⟨⟨off', m', stop, hstart', hstop, hle⟩, -⟩ := h x hx
    obtain ⟨rfl, rfl⟩ := hstart.unique hstart'
    simp only [declaredEnd, hty, hheader, Option.map_some, Option.some.injEq] at hstop
    unfold isizeMax at hbuf
    omega
  · intro h x hx
    have hdecode : ∀ left v, b.objectAt .release left x () = .ok v () → ∃ off m,
        b.StartsAt x off m ∧ (∃ stop, b.declaredEnd off m = some stop ∧ stop ≤ b.buf.length) ∧
          b.SizedAt off m v := by
      intro left v hv
      obtain ⟨left', off, m, rfl, hoff, hm, -⟩ := returns_objectAt ⟨v, hv⟩
      rw [objectAt, hoff] at hv
      obtain ⟨m', ⟨⟩, hbyte, hv⟩ := bind_eq_ok.1 hv
      rw [byteAt_apply, hm] at hbyte
      obtain rfl : m = m' := (Outcome.ok.inj hbyte).1
      have hstart : b.StartsAt x off.toNat m := ⟨⟨off, hoff, rfl⟩, hm⟩
      exact ⟨off.toNat, m, hstart, fits_of_decode hbuf hsize (List.getElem?_eq_some_iff.1 hm).1
        (fun hty count first hheader => h x hx _ _ count first hstart hty hheader) hv⟩
    constructor
    · obtain ⟨n, -, v', hv'⟩ := returns_of_reachable hparse hpool hx
      obtain ⟨off, m, hstart, ⟨stop, hstop, hle⟩, -⟩ := hdecode n v' hv'
      exact ⟨off, m, stop, hstart, hstop, hle⟩
    · intro off m left v' hstart hv'
      obtain ⟨off', m', hstart', -, hsized⟩ := hdecode left v' hv'
      obtain ⟨rfl, rfl⟩ := hstart.unique hstart'
      exact hsized

/-- A file with one object, a string that says it has `2 ^ 63` units. -/
def hugeString : List U8 :=
  bplistMagic ++ [0x6f, 0x13, 0x80, 0, 0, 0, 0, 0, 0, 0] ++ [0x08] ++
    [0, 0, 0, 0, 0, 0, 1, 1] ++ beBytes 8 1 ++ beBytes 8 0 ++ beBytes 8 18

/-- A file with a string of one unit. -/
def oneUnit : List U8 :=
  bplistMagic ++ [0x61, 0x00, 0x61] ++ [0x08] ++
    [0, 0, 0, 0, 0, 0, 1, 1] ++ beBytes 8 1 ++ beBytes 8 0 ++ beBytes 8 11

theorem accepted_fits_iff_oneUnit : ∃ v b, parse .release oneUnit () = .ok v () ∧
    PoolOf .release oneUnit b ∧
    ((∀ x, ReflTransGen (RefersTo .release b) 0 x → b.Fits x ∧ b.Sized .release x) ↔
      ∀ x, ReflTransGen (RefersTo .release b) 0 x → b.UnitsFit x) := by
  have hparse : parse .release oneUnit () = .ok (.string "a") () := by rfl
  have hpool : PoolOf .release oneUnit ⟨oneUnit, 1, [8]⟩ := ⟨rfl, rfl, rfl⟩
  exact ⟨_, _, hparse, hpool,
    accepted_fits_iff oneUnit _ _ (by decide) (by decide) hparse hpool⟩

/-- The string is accepted as an empty one. -/
theorem hugeString_accepted : ∃ b, parse .release hugeString () = .ok (.string "") () ∧
    PoolOf .release hugeString b ∧ (trailerOf hugeString).topObject = 0 ∧ ¬b.Fits 0 := by
  refine ⟨⟨hugeString, 1, [8]⟩, by rfl, ⟨rfl, rfl, rfl⟩, rfl, ?_⟩
  rintro ⟨off, m, stop, hstart, hstop, hle⟩
  have hstart' : StartsAt ⟨hugeString, 1, [8]⟩ 0 8 0x6f := ⟨⟨8, rfl, rfl⟩, rfl⟩
  obtain ⟨rfl, rfl⟩ := hstart.unique hstart'
  have hend : declaredEnd ⟨hugeString, 1, [8]⟩ 8 0x6f = some (18 + 2 * 2 ^ 63) := by
    decide
  obtain rfl := Option.some.inj (hend.symm.trans hstop)
  revert hle
  decide

end Plist

end IosEmu
