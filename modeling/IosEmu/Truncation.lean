import IosEmu.CommandWalk
import IosEmu.FatFile

/-!
# Files that are cut short

A thin file is well formed if its load commands lie in it and each of them holds what is read
of it, sections and the end of its name included. The first `k` bytes of such a file, with `k`
short of the end of the load commands, are rejected if and only if `k` is short of what the
reader of the last command needs (`truncation_rejected_iff`).

A cut in front of the last command is always noticed, since the walk goes on to the next
command. In the last command it is not noticed in bytes that are skipped, nor inside a name,
which then ends where the file does : `cut_name_accepted` is a library that is asked for by
half of its path.
-/

open SysLib

namespace IosEmu

open Reader

namespace MachOImage

variable {bytes : List U8} {k : ℕ}

/-- The end of the load commands : the header and what their sizes add up to. -/
def commandsEnd (bytes : List U8) : ℕ :=
  32 + ((List.range (commandCount bytes 0)).map fun i =>
    commandSize bytes (commandOffset bytes 32 i)).sum

/-- A thin arm64 file whose load commands are complete. -/
structure IsThin (bytes : List U8) : Prop where
  magic : wordAt bytes 0 = 0xfeedfacf
  cputype : wordAt bytes 4 = 0x0100000c
  inside : commandsEnd bytes ≤ bytes.length
  /-- A command holds its fields, its sections and its name with the NUL after it. -/
  own : ∀ i < commandCount bytes 0,
    extent bytes (commandOffset bytes 32 i) ≤ commandSize bytes (commandOffset bytes 32 i)
  segment : ∃ i < commandCount bytes 0,
    commandAt bytes (commandOffset bytes 32 i) = .segment64
  /-- A byte string in memory has at most `isize::MAX` bytes. -/
  bounded : bytes.length ≤ isizeMax

/-- The offset of the last command. -/
def lastCommand (bytes : List U8) : ℕ :=
  commandOffset bytes 32 (commandCount bytes 0 - 1)

theorem alike_take {off : ℕ} (hk : k ≤ bytes.length) (hoff : off ≤ k) :
    Alike bytes (bytes.take k) off k := by
  refine ⟨by omega, by rw [List.length_take]; omega, fun i _ hi => ?_⟩
  rw [List.getElem?_take, if_pos hi]

theorem wordAt_take {pos : ℕ} (hk : k ≤ bytes.length) (hpos : pos + 4 ≤ k) :
    wordAt (bytes.take k) pos = wordAt bytes pos :=
  (alike_take hk (Nat.le_of_add_right_le hpos)).wordAt_eq le_rfl hpos

namespace IsThin

theorem count_pos (h : IsThin bytes) : 0 < commandCount bytes 0 := by
  obtain ⟨i, hi, -⟩ := h.segment
  omega

/-- What a command in front of the last one needs stands in front of the last one. -/
theorem needed_le_last (h : IsThin bytes) {i : ℕ} (hi : i + 1 < commandCount bytes 0) :
    commandOffset bytes 32 i + needed bytes (commandOffset bytes 32 i) ≤ lastCommand bytes := by
  have hown := h.own i (by omega)
  have hneed := needed_le_extent bytes (commandOffset bytes 32 i)
  have hmono := commandOffset_mono bytes 32
    (show i + 1 ≤ commandCount bytes 0 - 1 by omega)
  rw [commandOffset] at hmono
  rw [commandSize] at hown
  rw [lastCommand]
  omega

/-- A file of `k` bytes that reaches to what the last command needs has its commands where
they were. -/
theorem readable_take (h : IsThin bytes) (hk : k ≤ bytes.length)
    (hlast : lastCommand bytes + needed bytes (lastCommand bytes) ≤ k) {i : ℕ}
    (hi : i < commandCount bytes 0) :
    commandOffset (bytes.take k) 32 i = commandOffset bytes 32 i ∧
      Readable (bytes.take k) (commandOffset bytes 32 i) := by
  have hneed : ∀ j < commandCount bytes 0,
      commandOffset bytes 32 j + needed bytes (commandOffset bytes 32 j) ≤ k := by
    intro j hj
    rcases Nat.lt_or_ge (j + 1) (commandCount bytes 0) with hj' | hj'
    · have := h.needed_le_last hj'
      omega
    · obtain rfl : j = commandCount bytes 0 - 1 := by omega
      exact hlast
  have height : ∀ j < commandCount bytes 0, commandOffset bytes 32 j + 8 ≤ k := by
    intro j hj
    have := eight_le_taken bytes (commandOffset bytes 32 j) 1
      (commandAt bytes (commandOffset bytes 32 j))
    have := hneed j hj
    unfold needed at this
    omega
  have hsize : ∀ j < commandCount bytes 0,
      commandSize (bytes.take k) (commandOffset bytes 32 j) =
        commandSize bytes (commandOffset bytes 32 j) := by
    intro j hj
    have := height j hj
    rw [commandSize, commandSize, wordAt_take hk (by omega)]
  refine ⟨commandOffset_congr fun j hj => hsize j (by omega), ?_, ?_⟩
  · have hown := h.own i hi
    have := eight_le_taken bytes (commandOffset bytes 32 i)
      (nameLength bytes (commandOffset bytes 32 i) + 1)
      (commandAt bytes (commandOffset bytes 32 i))
    unfold extent at hown
    rw [hsize i hi]
    omega
  · have hi' := hneed i hi
    have := height i hi
    rw [needed_eq_of_alike (alike_take hk (by omega)) hi', List.length_take]
    omega

/-- A cut in front of what the last command needs is noticed. -/
theorem le_of_readable_take (h : IsThin bytes) (hk : k ≤ bytes.length)
    (hcut : ∀ i < commandCount bytes 0,
      Readable (bytes.take k) (commandOffset (bytes.take k) 32 i)) :
    lastCommand bytes + needed bytes (lastCommand bytes) ≤ k := by
  have hlen : (bytes.take k).length = k := by
    rw [List.length_take]
    omega
  have hoffset : lastCommand bytes =
      commandOffset (bytes.take k) 32 (commandCount bytes 0 - 1) := by
    refine commandOffset_congr fun j hj => ?_
    have hhead := (hcut j (by omega)).head
    rw [commandSize, commandSize, wordAt_take hk (by omega)]
  have hlast := hcut (commandCount bytes 0 - 1) (by have := h.count_pos; omega)
  have hhead := hlast.head
  have hneed := hlast.2
  rw [← hoffset, hlen] at hhead hneed
  have halike := (alike_take hk (show lastCommand bytes ≤ k by omega)).symm
  rw [← needed_eq_of_alike halike hneed] at hneed
  exact hneed

end IsThin

/-- A thin file is accepted if and only if its thin image at the start is. -/
theorem parse_isOk_iff_of_thin (hmagic : wordAt bytes 0 = 0xfeedfacf)
    (h4 : 4 ≤ bytes.length) :
    (∃ img, parse bytes = .ok img) ↔ ∃ img, parseThin bytes 0 = .ok img := by
  have hread : runAt bytes 0 u32Le = .ok 0xfeedfacf :=
    runAt_eq_ok.2 ⟨Nat.zero_le _, _, u32Le_eq_ok.2
      ⟨by omega, by omega, hmagic.symm, rfl⟩⟩
  rw [parse, hread]
  rfl

/-- What a file is cut to starts with a word. -/
theorem four_le_of_parse {img : MachOImage} (h : parse bytes = .ok img) : 4 ≤ bytes.length := by
  obtain ⟨magic, hread, -⟩ := except_bind_eq_ok.1 h
  obtain ⟨-, _, hread⟩ := runAt_eq_ok.1 hread
  have := (u32Le_eq_ok.1 hread).2.1
  omega

/-- The first `k` bytes of a thin file are accepted if and only if they reach to what the last
command needs. -/
theorem parse_take_isOk_iff (h : IsThin bytes) (hk : k ≤ bytes.length) :
    (∃ img, parse (bytes.take k) = .ok img) ↔
      lastCommand bytes + needed bytes (lastCommand bytes) ≤ k := by
  have hlen : (bytes.take k).length = k := by
    rw [List.length_take]
    omega
  have hshort : (bytes.take k).length + 2 ^ 32 < 2 ^ 64 := by
    have := h.bounded
    unfold isizeMax at this
    omega
  constructor
  · rintro ⟨img, himg⟩
    have h4 := four_le_of_parse himg
    have hmagic : wordAt (bytes.take k) 0 = 0xfeedfacf := by
      rw [wordAt_take hk (by omega), h.magic]
    obtain ⟨hheader, hcut, -⟩ := (parseThin_isOk_iff hshort).1
      ((parse_isOk_iff_of_thin hmagic h4).1 ⟨img, himg⟩)
    have h32 := hheader.reaches
    rw [commandCount, wordAt_take hk (by omega)] at hcut
    exact h.le_of_readable_take hk hcut
  · intro hlast
    have hstart : 32 ≤ lastCommand bytes :=
      commandOffset_mono bytes 32 (Nat.zero_le (commandCount bytes 0 - 1))
    have hmagic : wordAt (bytes.take k) 0 = 0xfeedfacf := by
      rw [wordAt_take hk (by omega), h.magic]
    have hcpu : wordAt (bytes.take k) 4 = 0x0100000c := by
      rw [wordAt_take hk (by omega), h.cputype]
    have hcount : commandCount (bytes.take k) 0 = commandCount bytes 0 := by
      rw [commandCount, commandCount, wordAt_take hk (by omega)]
    refine (parse_isOk_iff_of_thin hmagic (by omega)).2 ((parseThin_isOk_iff hshort).2 ?_)
    rw [hcount]
    refine ⟨⟨by omega, hmagic, hcpu⟩, fun i hi => ?_, ?_⟩
    · obtain ⟨hoffset, hread⟩ := h.readable_take hk hlast hi
      rwa [hoffset]
    · obtain ⟨i, hi, hsegment⟩ := h.segment
      obtain ⟨hoffset, hread⟩ := h.readable_take hk hlast hi
      have hhead := hread.head
      refine ⟨i, hi, ?_⟩
      rw [hoffset, commandAt_eq_of_alike (alike_take hk (by omega)) (by omega), hsegment]

/-- Short of the end of its load commands, a thin file is rejected exactly if it is cut short
of what the reader of the last command needs. -/
theorem truncation_rejected_iff (bytes : List U8) (h : IsThin bytes) (k : ℕ)
    (hk : k < commandsEnd bytes) :
    (∃ e, parse (bytes.take k) = .error e) ↔
      k < lastCommand bytes + needed bytes (lastCommand bytes) := by
  have hiff := parse_take_isOk_iff h (hk.le.trans h.inside)
  rw [← not_le, ← hiff]
  rcases parse (bytes.take k) with e | img
  · simp
  · simp

/-! ## A name that is cut -/

/-- A segment, and a library that is asked for by its path. -/
def libraryFile : List U8 :=
  leBytes 4 0xfeedfacf ++ leBytes 4 0x0100000c ++ leBytes 4 0 ++ leBytes 4 2 ++ leBytes 4 2 ++
    leBytes 4 120 ++ leBytes 4 0x200000 ++ leBytes 4 0 ++
    (leBytes 4 0x19 ++ leBytes 4 72 ++ leBytes 16 0x545845545f5f ++ leBytes 8 0x100000000 ++
      leBytes 8 0x4000 ++ leBytes 8 0 ++ leBytes 8 0x4000 ++ leBytes 4 5 ++ leBytes 4 5 ++
      leBytes 4 0 ++ leBytes 4 0) ++
    (leBytes 4 0x0c ++ leBytes 4 48 ++ leBytes 4 24 ++ leBytes 4 2 ++ leBytes 4 1 ++
      leBytes 4 1 ++ utf8Bytes "/usr/lib/libz.dylib" ++ leBytes 5 0)

theorem isThin_libraryFile : IsThin libraryFile where
  magic := by decide
  cputype := by decide
  inside := by decide +kernel
  own := by decide
  segment := ⟨0, by decide⟩
  bounded := by decide +kernel

/-- Inside the path a cut is not noticed, one byte before it is. -/
theorem truncation_rejected_iff_libraryFile :
    IsThin libraryFile ∧ (∃ e, parse (libraryFile.take 128) = .error e) ∧
      ¬∃ e, parse (libraryFile.take 129) = .error e :=
  ⟨isThin_libraryFile,
    (truncation_rejected_iff libraryFile isThin_libraryFile 128 (by decide)).2
      (by decide),
    fun h => absurd ((truncation_rejected_iff libraryFile isThin_libraryFile 129
      (by decide)).1 h) (by decide)⟩

/-- Half of the path is the name of another library. -/
theorem cut_name_accepted :
    IsThin libraryFile ∧ 136 < commandsEnd libraryFile ∧
      (parse libraryFile).toOption.map dylibs = some [⟨"/usr/lib/libz.dylib", false, false⟩] ∧
      (parse (libraryFile.take 136)).toOption.map dylibs =
        some [⟨"/usr/lib", false, false⟩] := by
  refine ⟨isThin_libraryFile, ?_, ?_, ?_⟩
  · decide
  · decide +kernel
  · decide +kernel

end MachOImage

end IosEmu
