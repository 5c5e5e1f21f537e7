import IosEmu.CommandBytes

/-!
# Which images are accepted

The loop over the load commands gets past a command if and only if its size is not too small
to be true and what its reader needs is in the file (`parseCommands_isOk_iff`). With the
header before it and a segment among the commands this says which thin images are accepted
(`parseThin_isOk_iff`).
-/

open SysLib

namespace IosEmu

open Reader

namespace MachOImage

variable {bytes : List U8} {off : ℕ}

/-- The loop gets past the command at `off` : its size is not too small to be true, and what
its reader needs is in the file. -/
def Readable (bytes : List U8) (off : ℕ) : Prop :=
  8 ≤ commandSize bytes off ∧ off + needed bytes off ≤ bytes.length

instance (bytes : List U8) (off : ℕ) : Decidable (Readable bytes off) :=
  inferInstanceAs (Decidable (_ ∧ _))

theorem Readable.head (h : Readable bytes off) : off + 8 ≤ bytes.length := by
  have := eight_le_taken bytes off 1 (commandAt bytes off)
  have := h.2
  unfold needed at this
  omega

/-- One turn of the loop, from the command with its number and size. -/
theorem parseCommands_turn (hd : bytes.length + 2 ^ 32 < 2 ^ 64) {left i : ℕ} {img : MachOImage}
    (hoff : off + 8 ≤ bytes.length) (hsize : 8 ≤ commandSize bytes off) :
    parseCommands bytes (left + 1) i off img =
      parseCommand bytes off img (commandAt bytes off) >>=
        parseCommands bytes left (i + 1) (off + commandSize bytes off) := by
  have htakes : TakesAt readCommand bytes off 8 := takesAt_readCommand (by omega)
  obtain ⟨⟨cmd, cmdsize⟩, hread⟩ := htakes.runAt_isOk_iff.2 hoff
  obtain ⟨-, _, hwords⟩ := runAt_eq_ok.1 hread
  obtain ⟨rfl, rfl⟩ := readCommand_eq_ok hwords
  have hword := (wordAt bytes (off + 4)).isLt
  rw [parseCommands, hread]
  change (if commandSize bytes off < 8 then _ else _) = _
  rw [if_neg (by omega)]
  congr 1
  ext1 img₁
  exact if_neg (by omega)

/-- What the loop has got past was there to be read. -/
theorem readable_of_parseCommands (hd : bytes.length + 2 ^ 32 < 2 ^ 64) {left i : ℕ}
    {img img' : MachOImage} (h : parseCommands bytes (left + 1) i off img = .ok img') :
    Readable bytes off := by
  have htakes : TakesAt readCommand bytes off 8 := takesAt_readCommand (by omega)
  obtain ⟨⟨cmd, cmdsize⟩, hread, hturn⟩ := except_bind_eq_ok.1 h
  have hoff := htakes.runAt_isOk_iff.1 ⟨_, hread⟩
  obtain ⟨-, _, hwords⟩ := runAt_eq_ok.1 hread
  obtain ⟨rfl, rfl⟩ := readCommand_eq_ok hwords
  obtain ⟨img₁, hcmd, -⟩ := parseCommands_succ h
  have hbody := readAt_parseCommand (by omega) hoff img (commandAt bytes off)
  refine ⟨?_, hbody.isOk_iff.1 ⟨_, hcmd⟩⟩
  by_contra hsmall
  rw [commandSize] at hsmall
  dsimp only at hturn
  rw [if_pos (by omega)] at hturn
  cases hturn

/-- The loop gets past `left` commands if and only if it gets past each of them. -/
theorem parseCommands_isOk_iff (hd : bytes.length + 2 ^ 32 < 2 ^ 64) :
    ∀ (left i off : ℕ) (img : MachOImage),
      (∃ img', parseCommands bytes left i off img = .ok img') ↔
        ∀ j < left, Readable bytes (commandOffset bytes off j)
  | 0, _, _, img => by
    simp [parseCommands]
  | left + 1, i, off, img => by
    rw [Nat.forall_lt_succ_left]
    simp only [← commandOffset_succ]
    have ih := fun img => parseCommands_isOk_iff hd left (i + 1) (off + commandSize bytes off) img
    constructor
    · rintro ⟨img', h⟩
      obtain ⟨img₁, -, hrest⟩ := parseCommands_succ h
      exact ⟨readable_of_parseCommands hd h, (ih img₁).1 ⟨img', hrest⟩⟩
    · rintro ⟨hfirst, hrest⟩
      change Readable bytes off at hfirst
      have hbody := readAt_parseCommand (by omega) hfirst.head img (commandAt bytes off)
      obtain ⟨img₁, himg₁⟩ := hbody.isOk_iff.2 hfirst.2
      obtain ⟨img', himg'⟩ := (ih img₁).2 hrest
      refine ⟨img', ?_⟩
      rw [parseCommands_turn hd hfirst.head hfirst.1]
      exact except_bind_eq_ok.2 ⟨img₁, himg₁, himg'⟩

/-- The header of a thin arm64 image stands at `base`. -/
structure HasHeader (bytes : List U8) (base : ℕ) : Prop where
  reaches : base + 32 ≤ bytes.length
  magic : wordAt bytes base = 0xfeedfacf
  cputype : wordAt bytes (base + 4) = 0x0100000c

/-- The number of load commands that the header at `base` states. -/
def commandCount (bytes : List U8) (base : ℕ) : ℕ :=
  (wordAt bytes (base + 16)).toNat

theorem takesAt_readHeader (hd : bytes.length < 2 ^ 64) {base : ℕ}
    (hmagic : wordAt bytes base = 0xfeedfacf) (hcpu : wordAt bytes (base + 4) = 0x0100000c) :
    TakesAt readHeader bytes base 32 := by
  change TakesAt readHeader bytes base (4 + (4 + (4 + (4 + (4 + (4 + (4 + (4 + 0))))))))
  refine (takesAt_u32Le hd).bind fun magic hread => ?_
  obtain ⟨-, -, rfl, -⟩ := u32Le_eq_ok.1 hread
  rw [if_neg (not_not.2 hmagic)]
  refine (takesAt_u32Le hd).bind fun cputype hread' => ?_
  obtain ⟨-, -, rfl, -⟩ := u32Le_eq_ok.1 hread'
  rw [if_neg (not_not.2 hcpu)]
  iterate 6 refine (takesAt_u32Le hd).bind fun _ _ => ?_
  exact takesAt_pure _

theorem runAt_readHeader_isOk_iff (hd : bytes.length + 2 ^ 32 < 2 ^ 64) {base : ℕ} :
    (∃ w, runAt bytes base readHeader = .ok w) ↔ HasHeader bytes base := by
  constructor
  · rintro ⟨w, hw⟩
    obtain ⟨-, _, h⟩ := runAt_eq_ok.1 hw
    unfold readHeader at h
    obtain ⟨magic, _, hmagic, h⟩ := bind_eq_ok.1 h
    obtain ⟨-, -, rfl, rfl⟩ := u32Le_eq_ok.1 hmagic
    split_ifs at h with hm
    · cases h
    · obtain ⟨cputype, _, hcpu, h⟩ := bind_eq_ok.1 h
      obtain ⟨-, -, rfl, rfl⟩ := u32Le_eq_ok.1 hcpu
      split_ifs at h with hc
      · cases h
      · simp only [bind_eq_ok, u32Le_eq_ok, pure_eq_ok] at h
        obtain ⟨_, _, ⟨-, -, -, rfl⟩, _, _, ⟨-, -, -, rfl⟩, _, _, ⟨-, -, -, rfl⟩, _, _,
          ⟨-, -, -, rfl⟩, _, _, ⟨-, -, -, rfl⟩, _, _, ⟨-, hlast, -, rfl⟩, -, -⟩ := h
        exact ⟨by omega, not_not.1 hm, not_not.1 hc⟩
  · intro h
    have htakes : TakesAt readHeader bytes base 32 :=
      takesAt_readHeader (by omega) h.magic h.cputype
    exact htakes.runAt_isOk_iff.2 h.reaches

/-- A command adds a segment if it is one, and takes none away. -/
theorem parseCommand_segments {img img' : MachOImage} {c : LoadCommand}
    (h : parseCommand bytes off img c = .ok img') :
    img'.segments = [] ↔ img.segments = [] ∧ c ≠ .segment64 := by
  have hdylib : ∀ weak reexport, parseDylib bytes off weak reexport img = .ok img' →
      img'.segments = img.segments := by
    intro weak reexport h
    obtain ⟨_, -, h⟩ := except_bind_eq_ok.1 h
    obtain ⟨_, -, h⟩ := except_bind_eq_ok.1 h
    obtain rfl := Except.ok.inj h
    rfl
  cases c with
  | segment64 =>
    obtain ⟨seg, -, h⟩ := except_bind_eq_ok.1 h
    obtain rfl := Except.ok.inj h
    simp
  | loadDylib => simp [hdylib _ _ h]
  | loadWeakDylib => simp [hdylib _ _ h]
  | reexportDylib => simp [hdylib _ _ h]
  | loadDylinker =>
    obtain ⟨_, -, h⟩ := except_bind_eq_ok.1 h
    obtain ⟨_, -, h⟩ := except_bind_eq_ok.1 h
    obtain rfl := Except.ok.inj h
    simp
  | unixThread =>
    rw [parseCommand_unixThread] at h
    obtain ⟨pc?, -, h⟩ := except_bind_eq_ok.1 h
    obtain rfl := Except.ok.inj h
    cases pc? with
    | none => simp [threadEntry]
    | some pc =>
      rw [threadEntry]
      split_ifs
      · simp
      · simp
  | other =>
    obtain rfl := Except.ok.inj h
    simp
  | _ =>
    obtain ⟨_, -, h⟩ := except_bind_eq_ok.1 h
    obtain rfl := Except.ok.inj h
    simp

theorem parseCommands_segments : ∀ {left i off : ℕ} {img img' : MachOImage},
    parseCommands bytes left i off img = .ok img' →
      (img'.segments = [] ↔ img.segments = [] ∧
        ∀ j < left, commandAt bytes (commandOffset bytes off j) ≠ .segment64)
  | 0, _, _, img, img', h => by
    obtain rfl := Except.ok.inj h
    simp
  | left + 1, i, off, img, img', h => by
    obtain ⟨img₁, hcmd, hrest⟩ := parseCommands_succ h
    rw [Nat.forall_lt_succ_left, parseCommands_segments hrest, parseCommand_segments hcmd,
      and_assoc]
    simp only [← commandOffset_succ]
    rfl

/-- A thin image is accepted if and only if its header and its commands are there to be read
and one of them is a segment. -/
theorem parseThin_isOk_iff (hd : bytes.length + 2 ^ 32 < 2 ^ 64) {base : ℕ} :
    (∃ img, parseThin bytes base = .ok img) ↔
      HasHeader bytes base ∧
        (∀ i < commandCount bytes base, Readable bytes (commandOffset bytes (base + 32) i)) ∧
        ∃ i < commandCount bytes base,
          commandAt bytes (commandOffset bytes (base + 32) i) = .segment64 := by
  constructor
  · rintro ⟨img, h⟩
    obtain ⟨⟨subtype, filetype, ncmds, flags⟩, hheader, hloop⟩ := except_bind_eq_ok.1 h
    obtain ⟨img₁, hcmds, hlast⟩ := except_bind_eq_ok.1 hloop
    obtain ⟨-, _, hread⟩ := runAt_eq_ok.1 hheader
    obtain ⟨-, rfl⟩ := readHeader_eq_ok hread
    refine ⟨(runAt_readHeader_isOk_iff hd).1 ⟨_, hheader⟩,
      (parseCommands_isOk_iff hd _ _ _ _).1 ⟨_, hcmds⟩, ?_⟩
    by_contra hnone
    push Not at hnone
    have hempty := (parseCommands_segments hcmds).2 ⟨rfl, hnone⟩
    rw [if_pos hempty] at hlast
    cases hlast
  · rintro ⟨hheader, hcmds, i, hi, hsegment⟩
    obtain ⟨⟨subtype, filetype, ncmds, flags⟩, hread⟩ := (runAt_readHeader_isOk_iff hd).2 hheader
    obtain ⟨-, _, hwords⟩ := runAt_eq_ok.1 hread
    obtain ⟨-, rfl⟩ := readHeader_eq_ok hwords
    obtain ⟨img, himg⟩ := (parseCommands_isOk_iff hd (commandCount bytes base) 0 (base + 32)
      (blank subtype filetype flags)).2 hcmds
    have hsome : ¬img.segments = [] := fun hempty =>
      ((parseCommands_segments himg).1 hempty).2 i hi hsegment
    exact ⟨img, except_bind_eq_ok.2 ⟨_, hread, except_bind_eq_ok.2 ⟨img, himg, if_neg hsome⟩⟩⟩

end MachOImage

end IosEmu
