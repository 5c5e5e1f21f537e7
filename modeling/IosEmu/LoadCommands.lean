import IosEmu.MachO

/-!
# The walk over the load commands

A load command starts where the one before it ends : its offset is found by adding up the
sizes of the commands before (`commandOffset`). `parseCommands_succ` splits the loop of the
parser into the command at an offset and the rest, and `readHeader_eq_ok` and
`readDyldInfo_eq_ok` say which words of the file the readers return.
-/

open SysLib

namespace IosEmu

/-- The little-endian word at an offset of a file. -/
def wordAt (bytes : List U8) (off : ℕ) : U32 :=
  fromLeBytes 32 ((bytes.drop off).take 4)

/-! ## Readers -/

namespace Reader

variable {α β : Type} {data : List U8} {pos pos' : ℕ}

theorem bind_eq_ok {x : Reader α} {f : α → Reader β} {b : β} :
    (x >>= f) data pos = .ok (b, pos') ↔
      ∃ a pos₁, x data pos = .ok (a, pos₁) ∧ f a data pos₁ = .ok (b, pos') := by
  change (x data pos >>= fun q => f q.1 data q.2) = _ ↔ _
  rw [except_bind_eq_ok]
  simp only [Prod.exists]

theorem pure_eq_ok {a b : α} :
    (pure a : Reader α) data pos = .ok (b, pos') ↔ a = b ∧ pos = pos' := by
  change Except.ok (a, pos) = .ok (b, pos') ↔ _
  rw [Except.ok.injEq, Prod.mk.injEq]

theorem take_eq_ok {n : ℕ} {l : List U8} :
    take n data pos = .ok (l, pos') ↔
      pos + n < 2 ^ 64 ∧ pos + n ≤ data.length ∧ l = (data.drop pos).take n ∧
        pos' = pos + n := by
  unfold take
  split_ifs with h₁ h₂
  · simp only [false_iff, not_and]
    omega
  · simp only [false_iff, not_and]
    omega
  · simp only [Except.ok.injEq, Prod.mk.injEq]
    exact ⟨fun ⟨h, h'⟩ => ⟨by omega, by omega, h.symm, h'.symm⟩,
      fun ⟨_, _, h, h'⟩ => ⟨h.symm, h'.symm⟩⟩

theorem u32Le_eq_ok {v : U32} :
    u32Le data pos = .ok (v, pos') ↔
      pos + 4 < 2 ^ 64 ∧ pos + 4 ≤ data.length ∧ v = wordAt data pos ∧ pos' = pos + 4 := by
  unfold u32Le
  rw [bind_eq_ok]
  simp only [take_eq_ok, pure_eq_ok]
  constructor
  · rintro ⟨l, pos₁, ⟨h₁, h₂, rfl, rfl⟩, rfl, rfl⟩
    exact ⟨h₁, h₂, rfl, rfl⟩
  · rintro ⟨h₁, h₂, rfl, rfl⟩
    exact ⟨_, _, ⟨h₁, h₂, rfl, rfl⟩, rfl, rfl⟩

theorem runAt_eq_ok {off : ℕ} {x : Reader α} {a : α} :
    runAt data off x = .ok a ↔ off ≤ data.length ∧ ∃ pos', x data off = .ok (a, pos') := by
  unfold runAt
  split_ifs with h
  · simp [not_le.2 h]
  · rcases x data off with e | ⟨b, q⟩
    · simp [Except.map]
    · simp [Except.map, not_lt.1 h]

end Reader

open Reader

/-! ## Records of words -/

theorem readCommand_eq_ok {data : List U8} {pos pos' : ℕ} {cmd cmdsize : U32}
    (h : MachOImage.readCommand data pos = .ok ((cmd, cmdsize), pos')) :
    cmd = wordAt data pos ∧ cmdsize = wordAt data (pos + 4) := by
  simp only [MachOImage.readCommand, bind_eq_ok, u32Le_eq_ok, pure_eq_ok, Prod.mk.injEq] at h
  obtain ⟨_, _, ⟨-, -, rfl, rfl⟩, _, _, ⟨-, -, rfl, rfl⟩, ⟨rfl, rfl⟩, -⟩ := h
  exact ⟨rfl, rfl⟩

/-- The header counts the load commands in its fifth word. -/
theorem readHeader_eq_ok {data : List U8} {pos pos' : ℕ} {subtype filetype ncmds flags : U32}
    (h : MachOImage.readHeader data pos = .ok ((subtype, filetype, ncmds, flags), pos')) :
    wordAt data pos = 0xfeedfacf ∧ ncmds = wordAt data (pos + 16) := by
  unfold MachOImage.readHeader at h
  obtain ⟨magic, _, hmagic, h⟩ := bind_eq_ok.1 h
  obtain ⟨-, -, rfl, rfl⟩ := u32Le_eq_ok.1 hmagic
  split_ifs at h with hm
  · cases h
  · obtain ⟨cputype, _, hcpu, h⟩ := bind_eq_ok.1 h
    obtain ⟨-, -, rfl, rfl⟩ := u32Le_eq_ok.1 hcpu
    split_ifs at h with hc
    · cases h
    · simp only [bind_eq_ok, u32Le_eq_ok, pure_eq_ok, Prod.mk.injEq] at h
      obtain ⟨_, _, ⟨-, -, rfl, rfl⟩, _, _, ⟨-, -, rfl, rfl⟩, _, _, ⟨-, -, rfl, rfl⟩, _, _,
        ⟨-, -, rfl, rfl⟩, _, _, ⟨-, -, rfl, rfl⟩, _, _, ⟨-, -, rfl, rfl⟩,
        ⟨rfl, rfl, rfl, rfl⟩, -⟩ := h
      exact ⟨by simpa using hm, by rw [Nat.add_assoc, Nat.add_assoc, Nat.add_assoc]⟩

/-- The reader of the stream table takes eight words in a row. -/
theorem readDyldInfo_eq_ok {data : List U8} {pos pos' : ℕ} {info : DyldInfo}
    (h : readDyldInfo data pos = .ok (info, pos')) :
    info = ⟨wordAt data pos, wordAt data (pos + 4), wordAt data (pos + 8),
      wordAt data (pos + 12), wordAt data (pos + 16), wordAt data (pos + 20),
      wordAt data (pos + 24), wordAt data (pos + 28)⟩ := by
  simp only [readDyldInfo, bind_eq_ok, u32Le_eq_ok, pure_eq_ok] at h
  obtain ⟨_, _, ⟨-, -, rfl, rfl⟩, _, _, ⟨-, -, rfl, rfl⟩, _, _, ⟨-, -, rfl, rfl⟩, _, _,
    ⟨-, -, rfl, rfl⟩, _, _, ⟨-, -, rfl, rfl⟩, _, _, ⟨-, -, rfl, rfl⟩, _, _, ⟨-, -, rfl, rfl⟩,
    _, _, ⟨-, -, rfl, rfl⟩, rfl, -⟩ := h
  rfl

/-! ## The walk -/

namespace MachOImage

variable {bytes : List U8} {img img' : MachOImage}

/-- The offset of the load command with number `i` after `start`. -/
def commandOffset (bytes : List U8) (start : ℕ) : ℕ → ℕ
  | 0 => start
  | i + 1 =>
    commandOffset bytes start i + (wordAt bytes (commandOffset bytes start i + 4)).toNat

theorem commandOffset_succ (bytes : List U8) (start : ℕ) : ∀ i,
    commandOffset bytes (start + (wordAt bytes (start + 4)).toNat) i =
      commandOffset bytes start (i + 1)
  | 0 => rfl
  | i + 1 => by
    rw [commandOffset, commandOffset_succ bytes start i]
    rfl

/-- The command at an offset. -/
def commandAt (bytes : List U8) (off : ℕ) : LoadCommand :=
  .ofWord (wordAt bytes off)

/-- One turn of the loop : the command at the offset, then the rest after its size. -/
theorem parseCommands_succ {left i off : ℕ}
    (h : parseCommands bytes (left + 1) i off img = .ok img') :
    ∃ img₁, parseCommand bytes off img (commandAt bytes off) = .ok img₁ ∧
      parseCommands bytes left (i + 1) (off + (wordAt bytes (off + 4)).toNat) img₁ =
        .ok img' := by
  obtain ⟨⟨cmd, cmdsize⟩, hread, h⟩ := except_bind_eq_ok.1 h
  obtain ⟨-, _, hread⟩ := runAt_eq_ok.1 hread
  obtain ⟨rfl, rfl⟩ := readCommand_eq_ok hread
  dsimp only at h
  rw [if_neg (fun hsmall => by rw [if_pos hsmall] at h; cases h)] at h
  obtain ⟨img₁, hcmd, h⟩ := except_bind_eq_ok.1 h
  rw [if_neg (fun hover => by rw [if_pos hover] at h; cases h)] at h
  exact ⟨img₁, hcmd, h⟩

/-- A thin file is parsed from its start. -/
theorem parse_thin (hmagic : wordAt bytes 0 = 0xfeedfacf) (h : parse bytes = .ok img) :
    parseThin bytes 0 = .ok img := by
  obtain ⟨magic, hread, h⟩ := except_bind_eq_ok.1 h
  obtain ⟨-, _, hread⟩ := runAt_eq_ok.1 hread
  obtain ⟨-, -, rfl, -⟩ := u32Le_eq_ok.1 hread
  rw [hmagic] at h
  exact h

/-- The image of a thin file is what its load commands make of a blank one. -/
theorem parseThin_eq_ok {base : ℕ} (h : parseThin bytes base = .ok img) :
    ∃ subtype filetype flags,
      parseCommands bytes (wordAt bytes (base + 16)).toNat 0 (base + 32)
        (blank subtype filetype flags) = .ok img := by
  obtain ⟨⟨subtype, filetype, ncmds, flags⟩, hread, h⟩ := except_bind_eq_ok.1 h
  obtain ⟨-, _, hread⟩ := runAt_eq_ok.1 hread
  obtain ⟨-, rfl⟩ := readHeader_eq_ok hread
  obtain ⟨img₁, hcmds, h⟩ := except_bind_eq_ok.1 h
  rw [if_neg (fun hnone => by rw [if_pos hnone] at h; cases h)] at h
  obtain rfl : img₁ = img := Except.ok.inj h
  exact ⟨subtype, filetype, flags, hcmds⟩

end MachOImage

end IosEmu
