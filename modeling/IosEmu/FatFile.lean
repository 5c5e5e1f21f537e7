import IosEmu.MachO

/-!
# Universal files on disk

A universal file starts with a big-endian table : the magic `0xcafebabe`, or `0xcafebabf`
if offsets have 64 bits, the number of entries, and the entries, each with the type, offset
and size of a slice. `MachOImage.parse` compares the magic with the first word of the file
read as little endian, so it does not recognise any file of this layout
(`parse_fat_ne_parse_slice`).
-/

open SysLib

namespace IosEmu

/-- An entry of the table as it is on disk. -/
structure FatEntry where
  cputype : U32
  cpusubtype : U32
  offset : U64
  size : U64
  align : U32

/-- The bytes of an entry. The wide form ends in a reserved word. -/
def FatEntry.encode (is64 : Bool) (e : FatEntry) : List U8 :=
  beBytes 4 e.cputype.toNat ++ beBytes 4 e.cpusubtype.toNat ++
    if is64 then
      beBytes 8 e.offset.toNat ++ beBytes 8 e.size.toNat ++ beBytes 4 e.align.toNat ++ beBytes 4 0
    else beBytes 4 e.offset.toNat ++ beBytes 4 e.size.toNat ++ beBytes 4 e.align.toNat

/-- The bytes of the table. -/
def fatTable (is64 : Bool) (entries : List FatEntry) : List U8 :=
  beBytes 4 (if is64 then 0xcafebabf else 0xcafebabe) ++ beBytes 4 entries.length ++
    entries.flatMap (FatEntry.encode is64)

/-- `file` is a universal file with this table, in which offsets have the width of the
form. -/
structure IsFat (is64 : Bool) (entries : List FatEntry) (file : List U8) : Prop where
  table : fatTable is64 entries <+: file
  count : entries.length < 2 ^ 32
  narrow : is64 = false → ∀ e ∈ entries, e.offset.toNat < 2 ^ 32 ∧ e.size.toNat < 2 ^ 32
  inside : ∀ e ∈ entries, e.offset.toNat + e.size.toNat ≤ file.length

/-- `slice` is the arm64 slice of an entry, and lies at its offset. -/
structure IsSlice (file slice : List U8) (e : FatEntry) : Prop where
  arm64 : e.cputype = 0x0100000c
  size : slice.length = e.size.toNat
  placed : slice <+: file.drop e.offset.toNat

theorem runAt_u32Le {head : List U8} (tail : List U8) (h : head.length = 4) :
    Reader.runAt (head ++ tail) 0 Reader.u32Le = .ok (fromLeBytes 32 head) := by
  have hlen : ¬(head ++ tail).length < 0 + 4 := by
    rw [List.length_append, h]
    omega
  have htake : Reader.take 4 (head ++ tail) 0 = .ok (head, 4) := by
    rw [Reader.take, if_neg (by decide), if_neg hlen, List.drop_zero, Nat.zero_add,
      List.take_left' h]
  rw [Reader.runAt, if_neg (Nat.not_lt_zero _)]
  change ((Reader.take 4 (head ++ tail) 0).bind _).map _ = _
  rw [htake]
  rfl

/-- The first word of a universal file is not one that `parse` knows. -/
theorem parse_fat_eq_error {is64 : Bool} {entries : List FatEntry} {file : List U8}
    (h : IsFat is64 entries file) : ∃ msg, MachOImage.parse file = .error (.machO msg) := by
  obtain ⟨rest, hrest⟩ := h.table
  rw [fatTable, List.append_assoc, List.append_assoc] at hrest
  have hmagic := runAt_u32Le
    (beBytes 4 entries.length ++ (entries.flatMap (FatEntry.encode is64) ++ rest))
    (length_beBytes 4 (if is64 then 0xcafebabf else 0xcafebabe))
  rw [hrest] at hmagic
  rw [MachOImage.parse, hmagic]
  cases is64 with
  | false => exact ⟨_, rfl⟩
  | true => exact ⟨_, rfl⟩

/-- No universal file parses to what one of its slices parses to. -/
theorem parse_fat_ne_parse_slice (is64 : Bool) (entries : List FatEntry) (file : List U8)
    (h : IsFat is64 entries file) :
    ∀ e ∈ entries, ∀ slice, IsSlice file slice e → ∀ img, MachOImage.parse slice = .ok img →
      (∃ msg, MachOImage.parse file = .error (.machO msg)) ∧
        MachOImage.parse file ≠ MachOImage.parse slice := by
  intro e _ slice _ img himg
  obtain ⟨msg, hmsg⟩ := parse_fat_eq_error h
  refine ⟨⟨msg, hmsg⟩, fun heq => ?_⟩
  rw [hmsg, himg] at heq
  cases heq

/-- A thin image with one segment and no section. -/
def thinFile : List U8 :=
  leBytes 4 0xfeedfacf ++ leBytes 4 0x0100000c ++ leBytes 4 0 ++ leBytes 4 2 ++ leBytes 4 1 ++
    leBytes 4 72 ++ leBytes 4 0x200000 ++ leBytes 4 0 ++
    (leBytes 4 0x19 ++ leBytes 4 72 ++ leBytes 16 0x545845545f5f ++ leBytes 8 0x100000000 ++
      leBytes 8 0x4000 ++ leBytes 8 0 ++ leBytes 8 0x4000 ++ leBytes 4 5 ++ leBytes 4 5 ++
      leBytes 4 0 ++ leBytes 4 0)

/-- The entry of `thinFile` in a table with one slice. -/
def thinEntry : FatEntry :=
  ⟨0x0100000c, 0, 28, 104, 0⟩

/-- The universal file with `thinFile` as its only slice. -/
def fatFile : List U8 :=
  fatTable false [thinEntry] ++ thinFile

theorem isFat_fatFile : IsFat false [thinEntry] fatFile := by
  refine ⟨List.prefix_append _ _, by decide, fun _ => ?_, ?_⟩
  · decide
  · decide +kernel

theorem isSlice_thinFile : IsSlice fatFile thinFile thinEntry := by
  refine ⟨rfl, by decide, ?_⟩
  decide

theorem parse_thinFile : ∃ img, MachOImage.parse thinFile = .ok img := by
  have hok : (MachOImage.parse thinFile).toOption.isSome = true := by decide
  rcases hparse : MachOImage.parse thinFile with e | img
  · rw [hparse] at hok
    cases hok
  · exact ⟨img, rfl⟩

theorem parse_fat_ne_parse_slice_thinFile :
    IsFat false [thinEntry] fatFile ∧ IsSlice fatFile thinFile thinEntry ∧
      ∃ img, MachOImage.parse thinFile = .ok img ∧
        MachOImage.parse fatFile ≠ MachOImage.parse thinFile := by
  obtain ⟨img, himg⟩ := parse_thinFile
  exact ⟨isFat_fatFile, isSlice_thinFile, img, himg,
    (parse_fat_ne_parse_slice false [thinEntry] fatFile isFat_fatFile thinEntry
      List.mem_cons_self thinFile isSlice_thinFile img himg).2⟩

/-- A universal file with one arm64 slice is refused for its magic. -/
theorem parse_fatFile_unknown_magic :
    IsFat false [thinEntry] fatFile ∧ IsSlice fatFile thinFile thinEntry ∧
      (∃ img, MachOImage.parse thinFile = .ok img) ∧
      MachOImage.parse fatFile = .error (.machO "unknown magic 0xbebafeca") := by
  refine ⟨isFat_fatFile, isSlice_thinFile, parse_thinFile, ?_⟩
  decide +kernel

end IosEmu
