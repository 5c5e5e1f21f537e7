import IosEmu.Frameworks
import IosEmu.LossyText

/-!
# C strings in guest memory, `strlen` and `strcmp`

`HoldsCstr m a l` says that the bytes `l` and a NUL stand at `a`. `readCstr` takes as many of
them as its limit allows, and decodes them as UTF-8 with a replacement for what is ill formed
(`readCstr_of_holds`). The two shims work on the bytes of the decoded text.

So `strlen` counts three bytes for every ill-formed sequence, and `strcmp` compares texts in
which all of these are the same character. Both follow the bytes for well-formed text; the
exact conditions are in `cstring_shims_iff`.
-/

open SysLib

namespace IosEmu

namespace GuestMemory

/-- The bytes `l`, none of them a NUL, and a NUL stand at the address. -/
def HoldsCstr (m : GuestMemory) : U64 → List U8 → Prop
  | a, [] => m.readU8 a = .ok 0
  | a, b :: l => m.readU8 a = .ok b ∧ b ≠ 0 ∧ m.HoldsCstr (a + 1) l

/-- Of a C string at most `max` bytes are read. -/
theorem cstrBytes_of_holds {m : GuestMemory} : ∀ {l : List U8} {a : U64} (max : ℕ),
    m.HoldsCstr a l → m.cstrBytes max a = .ok (l.take max)
  | _, _, 0, _ => by simp [cstrBytes]
  | [], a, max + 1, h => by
    rw [cstrBytes, h]
    rfl
  | b :: l, a, max + 1, h => by
    obtain ⟨hb, hne, hl⟩ := h
    have ih := cstrBytes_of_holds max hl
    rw [cstrBytes, hb]
    change (if b = 0 then _ else m.cstrBytes max (a + 1) >>= fun rest => pure (b :: rest)) = _
    rw [if_neg hne, ih]
    rfl

theorem readCstr_of_holds {m : GuestMemory} {l : List U8} {a : U64} {max : ℕ}
    (h : m.HoldsCstr a l) : m.readCstr a max = .ok (fromUtf8Lossy (l.take max)) := by
  rw [readCstr, cstrBytes_of_holds max h]
  rfl

end GuestMemory

namespace Frameworks.Libsystem

open ShimM ObjcRuntime

/-! ## Comparing -/

/-- The comparison of byte slices is that of lists. -/
theorem cmpBytes_eq_lt_iff : ∀ {as bs : List U8}, cmpBytes as bs = .lt ↔ as < bs
  | [], [] => by simp [cmpBytes]
  | [], b :: bs => by simp [cmpBytes]
  | a :: as, [] => by simp [cmpBytes]
  | a :: as, b :: bs => by
    have ih := @cmpBytes_eq_lt_iff as bs
    rw [cmpBytes, List.cons_lt_cons_iff]
    rcases lt_trichotomy a b with h | rfl | h
    · simp [h]
    · simp [ih]
    · simp [h, lt_asymm h, h.ne']

theorem cmpBytes_eq_gt_iff : ∀ {as bs : List U8}, cmpBytes as bs = .gt ↔ bs < as
  | [], [] => by simp [cmpBytes]
  | [], b :: bs => by simp [cmpBytes]
  | a :: as, [] => by simp [cmpBytes]
  | a :: as, b :: bs => by
    have ih := @cmpBytes_eq_gt_iff as bs
    rw [cmpBytes, List.cons_lt_cons_iff]
    rcases lt_trichotomy a b with h | rfl | h
    · simp [h, lt_asymm h, h.ne']
    · simp [ih]
    · simp [h, lt_asymm h]

theorem cmpBytes_eq_eq_iff : ∀ {as bs : List U8}, cmpBytes as bs = .eq ↔ as = bs
  | [], [] => by simp [cmpBytes]
  | [], b :: bs => by simp [cmpBytes]
  | a :: as, [] => by simp [cmpBytes]
  | a :: as, b :: bs => by
    have ih := @cmpBytes_eq_eq_iff as bs
    rw [cmpBytes, List.cons.injEq]
    rcases lt_trichotomy a b with h | rfl | h
    · simp [h, h.ne]
    · simp [ih]
    · simp [h, lt_asymm h, h.ne']

/-- Two pairs of lists compare alike exactly if they are in the same order. -/
theorem cmpBytes_congr_iff {as bs cs ds : List U8} :
    cmpBytes as bs = cmpBytes cs ds ↔ (as < bs ↔ cs < ds) ∧ (bs < as ↔ ds < cs) := by
  simp only [← cmpBytes_eq_lt_iff, ← @cmpBytes_eq_gt_iff as, ← @cmpBytes_eq_gt_iff cs]
  rcases cmpBytes as bs <;> rcases cmpBytes cs ds <;> simp

/-- A word has the sign of a comparison exactly if it is the word of the comparison. -/
theorem sign_orderingWord {o : Ordering} {xs ys : List U8} :
    (((orderingWord o).toInt < 0 ↔ xs < ys) ∧ ((orderingWord o).toInt = 0 ↔ xs = ys) ∧
      (0 < (orderingWord o).toInt ↔ ys < xs)) ↔ o = cmpBytes xs ys := by
  rw [← cmpBytes_eq_lt_iff, ← cmpBytes_eq_eq_iff, ← cmpBytes_eq_gt_iff]
  rcases o <;> rcases cmpBytes xs ys <;> decide

/-! ## The shims -/

variable {s : ObjcRuntime × CallContext} {xs ys : List U8}

theorem cstrArg_of_holds {n : Fin 8} {max : ℕ} (h : s.2.mem.HoldsCstr (s.2.cpu.arg n) xs)
    (hmax : xs.length ≤ max) :
    cstrArg n max s = .ok (utf8Encode (lossyText xs)) s := by
  have hread := @GuestMemory.readCstr_of_holds _ _ _ max h
  rw [List.take_of_length_le hmax] at hread
  rw [← utf8Bytes_fromUtf8Lossy, cstrArg, arg, Prog.bind_bind, Prog.get_bind]
  simp only [readMem, Prog.bind_apply, Prog.get_apply, Prog.pure_apply, hread]
  rfl

/-- The shim returns how many bytes stand before the NUL. -/
def CountsBytes (s : ObjcRuntime × CallContext) (xs : List U8) : Prop :=
  ∃ t, strlen s = .ok .handled t ∧ (t.2.cpu.arg 0).toNat = xs.length

/-- The shim returns a word with the sign of the bytewise comparison. -/
def ComparesBytes (s : ObjcRuntime × CallContext) (xs ys : List U8) : Prop :=
  ∃ t, strcmp s = .ok .handled t ∧ ((t.2.cpu.arg 0).toInt < 0 ↔ xs < ys) ∧
    ((t.2.cpu.arg 0).toInt = 0 ↔ xs = ys) ∧ (0 < (t.2.cpu.arg 0).toInt ↔ ys < xs)

/-- The decoded texts are ordered as the bytes are. -/
def OrderKept (xs ys : List U8) : Prop :=
  (lossyText xs < lossyText ys ↔ xs < ys) ∧ (lossyText ys < lossyText xs ↔ ys < xs)

theorem strlen_of_holds (h : s.2.mem.HoldsCstr (s.2.cpu.arg 0) xs) (hlen : xs.length < 2 ^ 16) :
    strlen s = .ok .handled (s.1, { s.2 with
      cpu := s.2.cpu.setRet (BitVec.ofNat 64 (utf8Encode (lossyText xs)).length) }) := by
  have harg : cstrArg 0 (2 ^ 20) s = .ok (utf8Encode (lossyText xs)) s :=
    cstrArg_of_holds h (by omega)
  rw [strlen, answer, Prog.bind_bind, Prog.bind_apply, harg]
  rfl

theorem strcmp_of_holds (hx : s.2.mem.HoldsCstr (s.2.cpu.arg 0) xs)
    (hy : s.2.mem.HoldsCstr (s.2.cpu.arg 1) ys) (hxlen : xs.length < 2 ^ 16)
    (hylen : ys.length < 2 ^ 16) :
    strcmp s = .ok .handled (s.1, { s.2 with
      cpu := s.2.cpu.setRet (orderingWord
        (cmpBytes (utf8Encode (lossyText xs)) (utf8Encode (lossyText ys)))) }) := by
  have hargx := cstrArg_of_holds hx hxlen.le
  have hargy := cstrArg_of_holds hy hylen.le
  rw [strcmp, answer, Prog.bind_bind, Prog.bind_apply, hargx]
  dsimp only
  rw [Prog.bind_bind, Prog.bind_apply, hargy]
  rfl

theorem countsBytes_iff (h : s.2.mem.HoldsCstr (s.2.cpu.arg 0) xs) (hlen : xs.length < 2 ^ 16) :
    CountsBytes s xs ↔ LengthKept xs := by
  have hle := length_lossy_le xs
  have hrun := strlen_of_holds h hlen
  unfold CountsBytes
  rw [← length_lossy_iff, hrun]
  simp only [Outcome.ok.injEq, true_and, exists_eq_left', CpuContext.arg_setRet,
    BitVec.toNat_ofNat]
  rw [Nat.mod_eq_of_lt (by omega)]

theorem comparesBytes_iff (hx : s.2.mem.HoldsCstr (s.2.cpu.arg 0) xs)
    (hy : s.2.mem.HoldsCstr (s.2.cpu.arg 1) ys) (hxlen : xs.length < 2 ^ 16)
    (hylen : ys.length < 2 ^ 16) : ComparesBytes s xs ys ↔ OrderKept xs ys := by
  have hrun := strcmp_of_holds hx hy hxlen hylen
  unfold ComparesBytes OrderKept
  rw [hrun, ← @utf8Encode_lt_iff (lossyText xs), ← @utf8Encode_lt_iff (lossyText ys),
    ← cmpBytes_congr_iff, ← sign_orderingWord]
  simp only [Outcome.ok.injEq, true_and, exists_eq_left', CpuContext.arg_setRet]

/-- For two C strings of fewer than 65536 bytes, `strlen` counts the bytes exactly if every
ill-formed sequence has three of them, and `strcmp` compares the bytes exactly if decoding
keeps the order. Well-formed text meets both conditions. -/
theorem cstring_shims_iff (s : ObjcRuntime × CallContext) (xs ys : List U8)
    (hx : s.2.mem.HoldsCstr (s.2.cpu.arg 0) xs) (hy : s.2.mem.HoldsCstr (s.2.cpu.arg 1) ys)
    (hxlen : xs.length < 65536) (hylen : ys.length < 65536) :
    (CountsBytes s xs ∧ ComparesBytes s xs ys ↔ LengthKept xs ∧ OrderKept xs ys) ∧
      (CountsBytes s xs ↔ LengthKept xs) ∧ (ComparesBytes s xs ys ↔ OrderKept xs ys) ∧
      ∀ cs ds, xs = utf8Encode cs → ys = utf8Encode ds → LengthKept xs ∧ OrderKept xs ys := by
  have hcount := countsBytes_iff hx hxlen
  have hcompare := comparesBytes_iff hx hy hxlen hylen
  refine ⟨and_congr hcount hcompare, hcount, hcompare, ?_⟩
  rintro cs ds rfl rfl
  refine ⟨?_, ?_⟩
  · rw [← length_lossy_iff, lossyText_utf8Encode]
  · simp [OrderKept, utf8Encode_lt_iff]

/-- A call with pointers to the heap's first byte and to the byte `b`, for a heap that starts
with `bytes`. -/
def stringCall (bytes : List U8) (b : U64) : ObjcRuntime × CallContext :=
  (.new, {
    cpu := { CpuContext.default with x := fun i => if i = 0 then 0x100000000 else b }
    mem :=
      { regions := SortedMap.empty.insert 0x100000000
          { base := 0x100000000, prot := .rw, kind := .heap, name := "heap",
            data := Buffer.ofPrefix 0x10000 bytes 0 four_pages_le }
        mmapCursor := GuestMemory.mmapTop
        heap := BumpAllocator.new 0x100000000 0x10000 } })

/-- `"é"` has two bytes, and comes after `"z"`. -/
theorem cstring_shims_two_bytes :
    CountsBytes (stringCall [0xc3, 0xa9, 0, 0x7a, 0] 0x100000003) [0xc3, 0xa9] ∧
      ComparesBytes (stringCall [0xc3, 0xa9, 0, 0x7a, 0] 0x100000003) [0xc3, 0xa9] [0x7a] := by
  have hall := cstring_shims_iff (stringCall [0xc3, 0xa9, 0, 0x7a, 0] 0x100000003) [0xc3, 0xa9]
    [0x7a] ⟨rfl, by decide, rfl, by decide, rfl⟩ ⟨rfl, by decide, rfl⟩ (by decide) (by decide)
  exact hall.1.2 (hall.2.2.2 ['é'] ['z'] (by decide) (by decide))

/-- Of two bytes that no text has, the first is counted as three, and they compare as equal. -/
theorem ill_formed_strings :
    (stringCall [0xff, 0, 0xfe, 0] 0x100000002).2.mem.HoldsCstr 0x100000000 [0xff] ∧
      (stringCall [0xff, 0, 0xfe, 0] 0x100000002).2.mem.HoldsCstr 0x100000002 [0xfe] ∧
      ¬CountsBytes (stringCall [0xff, 0, 0xfe, 0] 0x100000002) [0xff] ∧
      ¬ComparesBytes (stringCall [0xff, 0, 0xfe, 0] 0x100000002) [0xff] [0xfe] := by
  have hx : (stringCall [0xff, 0, 0xfe, 0] 0x100000002).2.mem.HoldsCstr 0x100000000 [0xff] :=
    ⟨rfl, by decide, rfl⟩
  have hy : (stringCall [0xff, 0, 0xfe, 0] 0x100000002).2.mem.HoldsCstr 0x100000002 [0xfe] :=
    ⟨rfl, by decide, rfl⟩
  refine ⟨hx, hy, ?_, ?_⟩
  · rw [countsBytes_iff hx (by decide)]
    decide
  · rw [comparesBytes_iff hx hy (by decide) (by decide)]
    rintro ⟨-, hgt⟩
    exact absurd (hgt.2 (by decide)) (by decide)

end Frameworks.Libsystem

end IosEmu
