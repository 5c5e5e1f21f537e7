import IosEmu.Truncation

/-!
# Commands and their own bytes

The walk over the load commands moves on by the size a command states, but a command is read
up to the end of the file, whatever its size. `OwnBytes` says of a file that its image is
decided by the header and the bytes of the commands that are reached, and that a command too
small for what is read of it stops the walk. A file has the property if and only if each
command that is reached and lies in the file states a size that covers what is read of it
(`own_bytes_iff`).

If a command that does not cover it is passed, it is not rejected. If it is not passed, the
file ends in what it reads, and zeros after the end change the result : the reader gets past
the command, and the walk ends in a command of no size or at the end of the commands.
-/

open SysLib

namespace IosEmu

open Reader

namespace MachOImage

/-! ## Where the image starts -/

/-- The offset at which the image is parsed, from the first word of the file. -/
def baseOf (bytes : List U8) : ℕ → EmuResult ℕ
  | 0xcafebabe | 0xcafebabf => selectFatSlice bytes
  | 0xfeedfacf => .ok 0
  | 0xcffaedfe => .error (.machO "big-endian Mach-O is not supported")
  | magic => .error (.machO ("unknown magic " ++ hex8 magic))

/-- The offset at which the image of a file is parsed. -/
def imageBase (bytes : List U8) : EmuResult ℕ := do
  let magic ← runAt bytes 0 u32Le
  baseOf bytes magic.toNat

/-- `parse` finds the image and then parses it as a thin one. -/
theorem parse_eq_bind (bytes : List U8) : parse bytes = imageBase bytes >>= parseThin bytes := by
  rw [parse, imageBase, bind_assoc]
  congr 1
  ext1 magic
  generalize magic.toNat = n
  split
  · rfl
  · rfl
  · rfl
  · rfl
  · rw [baseOf]
    · rfl
    all_goals assumption

theorem baseOf_eq_ok {bytes : List U8} {n base : ℕ} (h : baseOf bytes n = .ok base) :
    (n = 0xfeedfacf ∧ base = 0) ∨
      ((n = 0xcafebabe ∨ n = 0xcafebabf) ∧ selectFatSlice bytes = .ok base) := by
  unfold baseOf at h
  split at h
  · exact Or.inr ⟨Or.inl rfl, h⟩
  · exact Or.inr ⟨Or.inr rfl, h⟩
  · exact Or.inl ⟨rfl, (Except.ok.inj h).symm⟩
  · cases h
  · cases h

/-- What `x` reads of a file it reads of a longer one. -/
def Extends {α : Type} (x : Reader α) : Prop :=
  ∀ (d rest : List U8) (pos : ℕ) (r : α × ℕ), x d pos = .ok r → x (d ++ rest) pos = .ok r

section Extends

variable {α β : Type}

theorem extends_pure (a : α) : Extends (pure a : Reader α) :=
  fun _ _ _ _ h => h

theorem Extends.bind {x : Reader α} {f : α → Reader β} (hx : Extends x)
    (hf : ∀ a, Extends (f a)) : Extends (x >>= f) := by
  rintro d rest pos ⟨b, pos'⟩ h
  obtain ⟨a, pos₁, hxa, hfb⟩ := bind_eq_ok.1 h
  exact bind_eq_ok.2 ⟨a, pos₁, hx d rest pos _ hxa, hf a d rest pos₁ _ hfb⟩

theorem extends_take (n : ℕ) : Extends (take n) := by
  rintro d rest pos ⟨l, pos'⟩ h
  obtain ⟨hbig, hlen, rfl, rfl⟩ := take_eq_ok.1 h
  refine take_eq_ok.2 ⟨hbig, by rw [List.length_append]; omega, ?_, rfl⟩
  rw [List.drop_append_of_le_length (by omega), List.take_append_of_le_length]
  rw [List.length_drop]
  omega

theorem extends_u32Be : Extends u32Be :=
  (extends_take 4).bind fun _ => extends_pure _

theorem extends_u64Be : Extends u64Be :=
  (extends_take 8).bind fun _ => extends_pure _

theorem extends_u32Le : Extends u32Le :=
  (extends_take 4).bind fun _ => extends_pure _

theorem extends_readFatArch (is64 : Bool) : Extends (readFatArch is64) := by
  iterate 2 refine extends_u32Be.bind fun _ => ?_
  cases is64 with
  | false =>
    iterate 3 refine extends_u32Be.bind fun _ => ?_
    exact extends_pure _
  | true =>
    iterate 2 refine extends_u64Be.bind fun _ => ?_
    iterate 2 refine extends_u32Be.bind fun _ => ?_
    exact extends_pure _

theorem extends_readSlices (is64 : Bool) : ∀ n best, Extends (readSlices is64 n best)
  | 0, _ => extends_pure _
  | n + 1, _ => (extends_readFatArch is64).bind fun _ => extends_readSlices is64 n _

theorem Extends.runAt_append {x : Reader α} (hx : Extends x) {d : List U8} {off : ℕ} {a : α}
    (rest : List U8) (h : runAt d off x = .ok a) : runAt (d ++ rest) off x = .ok a := by
  obtain ⟨hoff, pos', h⟩ := runAt_eq_ok.1 h
  refine runAt_eq_ok.2 ⟨?_, pos', hx d rest off _ h⟩
  rw [List.length_append]
  omega

end Extends

variable {bytes : List U8} {base off : ℕ}

theorem selectFatSlice_append (rest : List U8) (h : selectFatSlice bytes = .ok base) :
    base ≤ bytes.length ∧ selectFatSlice (bytes ++ rest) = .ok base := by
  obtain ⟨best, hread, h⟩ := except_bind_eq_ok.1 h
  have hread' := Extends.runAt_append (extends_u32Be.bind fun magic =>
    extends_u32Be.bind fun nfat => extends_readSlices (magic = 0xcafebabf) nfat.toNat none)
    rest hread
  cases best with
  | none => cases h
  | some arch =>
    dsimp only at h
    split_ifs at h with hbig hshort
    obtain rfl := Except.ok.inj h
    refine ⟨by omega, except_bind_eq_ok.2 ⟨_, hread', ?_⟩⟩
    dsimp only
    rw [if_neg hbig, if_neg (by rw [List.length_append]; omega)]
    rfl

/-- The image of a file lies in it, and starts at the same place if bytes are added. -/
theorem imageBase_append (rest : List U8) (h : imageBase bytes = .ok base) :
    base ≤ bytes.length ∧ imageBase (bytes ++ rest) = .ok base := by
  obtain ⟨magic, hread, h⟩ := except_bind_eq_ok.1 h
  have hread' := extends_u32Le.runAt_append rest hread
  rcases baseOf_eq_ok h with ⟨hmagic, rfl⟩ | ⟨hmagic, hslice⟩
  · refine ⟨Nat.zero_le _, except_bind_eq_ok.2 ⟨magic, hread', ?_⟩⟩
    rw [hmagic]
    rfl
  · obtain ⟨hle, hslice'⟩ := selectFatSlice_append rest hslice
    refine ⟨hle, except_bind_eq_ok.2 ⟨magic, hread', ?_⟩⟩
    rcases hmagic with hmagic | hmagic
    · rw [hmagic]
      exact hslice'
    · rw [hmagic]
      exact hslice'

/-! ## The law -/

/-- The walk over the load commands of the image at `base` gets to the command with number
`i`. -/
def Reaches (bytes : List U8) (base i : ℕ) : Prop :=
  ∃ subtype filetype ncmds flags img,
    runAt bytes base readHeader = .ok (subtype, filetype, ncmds, flags) ∧ i < ncmds.toNat ∧
      parseCommands bytes i 0 (base + 32) (blank subtype filetype flags) = .ok img

/-- The files have their image at the same place, with the same header and the same bytes in
every command of the first that is reached. A command has the two words it starts with,
whatever its size. -/
structure SameCommands (bytes bytes' : List U8) : Prop where
  base : imageBase bytes' = imageBase bytes
  header : ∀ base, imageBase bytes = .ok base → AgreeOn bytes bytes' base (base + 32)
  command : ∀ base i, imageBase bytes = .ok base → Reaches bytes base i →
    AgreeOn bytes bytes' (commandOffset bytes (base + 32) i)
      (commandOffset bytes (base + 32) i +
        max 8 (commandSize bytes (commandOffset bytes (base + 32) i)))

/-- The load commands of the file are parsed from their own bytes. -/
structure OwnBytes (bytes : List U8) : Prop where
  same : ∀ bytes', SameCommands bytes bytes' → parse bytes' = parse bytes
  /-- The walk does not get past a command that is too small. -/
  small : ∀ base i, imageBase bytes = .ok base → Reaches bytes base i →
    commandSize bytes (commandOffset bytes (base + 32) i) <
        extent bytes (commandOffset bytes (base + 32) i) →
      ∀ n img, ∃ e,
        parseCommands bytes 1 n (commandOffset bytes (base + 32) i) img = .error e

/-- The command at `off`, if it lies in the file, states a size that covers what is read of
it. -/
def Covers (bytes : List U8) (off : ℕ) : Prop :=
  8 ≤ commandSize bytes off → off + commandSize bytes off ≤ bytes.length →
    extent bytes off ≤ commandSize bytes off

instance (bytes : List U8) (off : ℕ) : Decidable (Covers bytes off) :=
  inferInstanceAs (Decidable (_ → _ → _))

theorem reaches_iff (hd : bytes.length + 2 ^ 32 < 2 ^ 64) {i : ℕ} :
    Reaches bytes base i ↔ HasHeader bytes base ∧ i < commandCount bytes base ∧
      ∀ j < i, Readable bytes (commandOffset bytes (base + 32) j) := by
  constructor
  · rintro ⟨subtype, filetype, ncmds, flags, img, hheader, hi, hloop⟩
    obtain ⟨-, _, hwords⟩ := runAt_eq_ok.1 hheader
    obtain ⟨-, rfl⟩ := readHeader_eq_ok hwords
    exact ⟨(runAt_readHeader_isOk_iff hd).1 ⟨_, hheader⟩, hi,
      (parseCommands_isOk_iff hd _ _ _ _).1 ⟨_, hloop⟩⟩
  · rintro ⟨hheader, hi, hread⟩
    obtain ⟨⟨subtype, filetype, ncmds, flags⟩, hread'⟩ := (runAt_readHeader_isOk_iff hd).2 hheader
    obtain ⟨-, _, hwords⟩ := runAt_eq_ok.1 hread'
    obtain ⟨-, rfl⟩ := readHeader_eq_ok hwords
    obtain ⟨img, himg⟩ := (parseCommands_isOk_iff hd i 0 (base + 32)
      (blank subtype filetype flags)).2 hread
    exact ⟨subtype, filetype, _, flags, img, hread', hi, himg⟩

/-! ## Commands that keep to their own bytes -/

theorem runAt_readHeader_eq_of_alike (hd : bytes.length + 2 ^ 32 < 2 ^ 64) {bytes' : List U8}
    (h : Alike bytes bytes' base (base + 32)) :
    runAt bytes' base readHeader = runAt bytes base readHeader := by
  have hd' : bytes.length < 2 ^ 64 := by omega
  have hread : readHeader bytes' base = readHeader bytes base := by
    refine (takesAt_u32Le hd').bind_eq_of_alike h le_rfl (by omega) fun _ _ => ?_
    split_ifs
    · rfl
    · refine (takesAt_u32Le hd').bind_eq_of_alike h (by omega) (by omega) fun _ _ => ?_
      split_ifs
      · rfl
      · iterate 6
          refine (takesAt_u32Le hd').bind_eq_of_alike h (by omega) (by omega) fun _ _ => ?_
        rfl
  rw [runAt, runAt, hread, if_neg (not_lt.2 h.reaches), if_neg (not_lt.2 h.reaches')]

/-- One turn of the loop, in two files with the same command at its offset. -/
theorem parseCommands_turn_congr {d d' : List U8} {left i off : ℕ} {img : MachOImage}
    (hword : runAt d' off readCommand = runAt d off readCommand)
    (hbody : 8 ≤ commandSize d off → parseCommand d' off img (commandAt d off) =
      parseCommand d off img (commandAt d off))
    (hrest : ∀ img₁, 8 ≤ commandSize d off →
      parseCommand d off img (commandAt d off) = .ok img₁ →
      parseCommands d' left (i + 1) (off + commandSize d off) img₁ =
        parseCommands d left (i + 1) (off + commandSize d off) img₁) :
    parseCommands d' (left + 1) i off img = parseCommands d (left + 1) i off img := by
  rw [parseCommands, parseCommands, hword]
  rcases hread : runAt d off readCommand with e | ⟨cmd, cmdsize⟩
  · simp only [bind, Except.bind]
  · obtain ⟨-, _, hwords⟩ := runAt_eq_ok.1 hread
    obtain ⟨rfl, rfl⟩ := readCommand_eq_ok hwords
    simp only [bind, Except.bind]
    split_ifs with hsmall hover
    · rfl
    · rw [show parseCommand d' off img (.ofWord (wordAt d off)) = _ from
        hbody (not_lt.1 hsmall)]
      rfl
    · rw [show parseCommand d' off img (.ofWord (wordAt d off)) = _ from
        hbody (not_lt.1 hsmall)]
      rcases hres : parseCommand d off img (commandAt d off) with e | img₁
      · rw [show parseCommand d off img (.ofWord (wordAt d off)) = _ from hres]
      · rw [show parseCommand d off img (.ofWord (wordAt d off)) = _ from hres]
        exact hrest img₁ (not_lt.1 hsmall) hres

/-- Two files that agree on the commands that are reached are walked alike, if what is read
of a command that lies in the first file lies in the command. -/
theorem parseCommands_eq_of_agree {d d' : List U8} (hd : d.length + 2 ^ 32 < 2 ^ 64) :
    ∀ (left i off : ℕ) (img : MachOImage), (off ≤ d'.length ↔ off ≤ d.length) →
      (∀ j < left, (∀ l < j, Readable d (commandOffset d off l)) →
        AgreeOn d d' (commandOffset d off j)
          (commandOffset d off j + max 8 (commandSize d (commandOffset d off j))) ∧
        Covers d (commandOffset d off j)) →
      parseCommands d' left i off img = parseCommands d left i off img
  | 0, _, _, _, _, _ => rfl
  | left + 1, i, off, img, hends, hown => by
    obtain ⟨hagree, hextent⟩ := hown 0 (Nat.succ_pos left) fun l hl => absurd hl (Nat.not_lt_zero l)
    rw [commandOffset] at hagree hextent
    by_cases hoff : off ≤ d.length
    · have halike : Alike d d' off (off + max 8 (commandSize d off)) :=
        ⟨hoff, hends.2 hoff, hagree⟩
      have htakes : TakesAt readCommand d off 8 := takesAt_readCommand (by omega)
      have hword : runAt d' off readCommand = runAt d off readCommand :=
        htakes.runAt_eq_of_alike halike le_rfl (by omega)
      by_cases hhead : off + 8 ≤ d.length
      · have hread := readAt_parseCommand (by omega) hhead img (commandAt d off)
        refine parseCommands_turn_congr hword (fun hsize => ?_) fun img₁ hsize hok => ?_
        · by_cases hinside : off + commandSize d off ≤ d.length
          · have hfits := hextent hsize hinside
            exact hread.eq_of_alike halike (by unfold extent at hfits; omega)
          · -- The file ends in the command, so the two files end there alike.
            exact hread.eq_of_alike (halike.of_length_lt (by omega) _) le_rfl
        · have hfirst : Readable d off := ⟨hsize, hread.isOk_iff.1 ⟨_, hok⟩⟩
          refine parseCommands_eq_of_agree hd left (i + 1) _ img₁
            (halike.le_iff (by omega)) fun j hj hbefore => ?_
          have hnext := hown (j + 1) (Nat.succ_lt_succ hj) fun l hl => ?_
          · rwa [← commandOffset_succ] at hnext
          · rcases l with _ | l
            · exact hfirst
            · rw [← commandOffset_succ]
              exact hbefore l (Nat.lt_of_succ_lt_succ hl)
      · have hnone : ∀ w, runAt d off readCommand ≠ .ok w := fun w hw =>
          hhead (htakes.runAt_isOk_iff.1 ⟨w, hw⟩)
        rw [parseCommands, parseCommands, hword]
        rcases hread : runAt d off readCommand with e | w
        · simp only [bind, Except.bind]
        · exact absurd hread (hnone w)
    · have hoff' := mt hends.1 hoff
      have hpast : runAt d' off readCommand = runAt d off readCommand := by
        rw [runAt, runAt, if_pos (by omega), if_pos (by omega)]
      rw [parseCommands, parseCommands, hpast, runAt, if_pos (by omega)]
      simp only [bind, Except.bind]

theorem parse_eq_of_sameCommands (hd : bytes.length + 2 ^ 32 < 2 ^ 64) {bytes' : List U8}
    (hown : ∀ base i, imageBase bytes = .ok base → Reaches bytes base i →
      Covers bytes (commandOffset bytes (base + 32) i))
    (h : SameCommands bytes bytes') : parse bytes' = parse bytes := by
  rw [parse_eq_bind, parse_eq_bind, h.base]
  rcases hbase : imageBase bytes with e | base
  · simp only [bind, Except.bind]
  · have hle := (imageBase_append [] hbase).1
    have hle' := (imageBase_append [] (h.base.trans hbase)).1
    have hheader : Alike bytes bytes' base (base + 32) := ⟨hle, hle', h.header base hbase⟩
    simp only [bind, Except.bind]
    rw [parseThin, parseThin, runAt_readHeader_eq_of_alike hd hheader]
    rcases hread : runAt bytes base readHeader with e | ⟨subtype, filetype, ncmds, flags⟩
    · simp only [bind, Except.bind]
    · have hheader' := (runAt_readHeader_isOk_iff hd).1 ⟨_, hread⟩
      obtain ⟨-, _, hwords⟩ := runAt_eq_ok.1 hread
      obtain ⟨-, rfl⟩ := readHeader_eq_ok hwords
      have hloop := parseCommands_eq_of_agree hd (commandCount bytes base) 0 (base + 32)
        (blank subtype filetype flags) (hheader.le_iff le_rfl) fun j hj hbefore => by
          have hreach := (reaches_iff hd).2 ⟨hheader', hj, hbefore⟩
          exact ⟨h.command base j hbase hreach, hown base j hbase hreach⟩
      rw [commandCount] at hloop
      simp only [bind, Except.bind, hloop]

/-! ## Commands that reach past their own bytes -/

/-- A name ends with the file at the latest. -/
theorem extent_le (hneeded : off + needed bytes off ≤ bytes.length) :
    off + extent bytes off ≤ bytes.length + 1 := by
  have hname : nameLength bytes off ≤ bytes.length - (off + nameOffset bytes off) := by
    rw [nameLength, ← List.length_drop]
    exact (List.takeWhile_sublist _).length_le
  unfold needed at hneeded
  unfold extent
  cases hc : commandAt bytes off with
  | loadDylib | loadWeakDylib | reexportDylib | loadDylinker =>
    rw [hc, taken] at hneeded
    rw [taken]
    omega
  | _ =>
    rw [hc] at hneeded
    exact Nat.le_succ_of_le hneeded

theorem taken_le (bytes : List U8) (off : ℕ) (c : LoadCommand) :
    taken bytes off 1 c < 2 ^ 39 := by
  have hsections := (wordAt bytes (off + 64)).isLt
  have hname := (wordAt bytes (off + 8)).isLt
  cases c with
  | segment64 =>
    rw [taken, sectionCount]
    omega
  | loadDylib | loadWeakDylib | reexportDylib | loadDylinker =>
    rw [taken, nameOffset]
    omega
  | unixThread =>
    rw [taken]
    split_ifs
    · omega
    · omega
  | _ => simp [taken]

/-- The walk ends with an error of reading at a command whose bytes the file does not have. -/
theorem parseCommands_isReadError (hd : bytes.length + 2 ^ 32 < 2 ^ 64) :
    ∀ (k left i off : ℕ) (img : MachOImage), k < left →
      (∀ j < k, Readable bytes (commandOffset bytes off j)) →
      commandOffset bytes off k + 8 ≤ bytes.length →
      8 ≤ commandSize bytes (commandOffset bytes off k) →
      ¬Readable bytes (commandOffset bytes off k) →
      ∃ e, parseCommands bytes left i off img = .error e ∧ IsReadError e
  | 0, left + 1, i, off, img, _, _, hhead, hsize, hnot => by
    rw [commandOffset] at hhead hsize hnot
    have hread := readAt_parseCommand (by omega) hhead img (commandAt bytes off)
    rw [parseCommands_turn hd hhead hsize]
    rcases hres : parseCommand bytes off img (commandAt bytes off) with e | img₁
    · exact ⟨e, rfl, hread.isReadError hres⟩
    · exact absurd ⟨hsize, hread.isOk_iff.1 ⟨_, hres⟩⟩ hnot
  | k + 1, left + 1, i, off, img, hk, hbefore, hhead, hsize, hnot => by
    have hfirst : Readable bytes off := hbefore 0 (Nat.succ_pos k)
    rw [← commandOffset_succ] at hhead hsize hnot
    have hread := readAt_parseCommand (by omega) hfirst.head img (commandAt bytes off)
    obtain ⟨img₁, himg₁⟩ := hread.isOk_iff.2 hfirst.2
    obtain ⟨e, he, herr⟩ := parseCommands_isReadError hd k left (i + 1) _ img₁
      (Nat.lt_of_succ_lt_succ hk) (fun j hj => by
        rw [commandOffset_succ]
        exact hbefore (j + 1) (Nat.succ_lt_succ hj)) hhead hsize hnot
    refine ⟨e, ?_, herr⟩
    rw [parseCommands_turn hd hfirst.head hfirst.1, himg₁]
    exact he

/-! Zeros after the end of a file, more than a command can take. -/

section Padded

variable {n : ℕ}

theorem alike_append (bytes rest : List U8) {lo : ℕ} (hlo : lo ≤ bytes.length) :
    Alike bytes (bytes ++ rest) lo bytes.length := by
  refine ⟨hlo, by rw [List.length_append]; omega, fun i _ hi => ?_⟩
  exact List.getElem?_append_left hi

theorem wordAt_padded {pos : ℕ} (hpos : bytes.length ≤ pos) (hn : pos + 4 ≤ bytes.length + n) :
    wordAt (bytes ++ List.replicate n 0) pos = 0 := by
  rw [wordAt, List.drop_append, List.drop_eq_nil_of_le hpos, List.nil_append,
    List.drop_replicate, List.take_replicate, Nat.min_eq_left (by omega)]
  decide

/-- A command of the file with zeros after it is there to be read, if it has a size. -/
theorem readable_padded (hn : 2 ^ 40 ≤ n) (hoff : off ≤ bytes.length + 2 ^ 32)
    (hsize : 8 ≤ commandSize (bytes ++ List.replicate n 0) off) :
    Readable (bytes ++ List.replicate n 0) off := by
  have hneeded := taken_le (bytes ++ List.replicate n 0) off
    (commandAt (bytes ++ List.replicate n 0) off)
  refine ⟨hsize, ?_⟩
  rw [needed, List.length_append, List.length_replicate]
  omega

/-- The walk over a file with zeros after it does not run into the end of the file. -/
theorem parseCommands_padded (hn : 2 ^ 40 ≤ n) (hlen : bytes.length + n + 2 ^ 32 < 2 ^ 64) :
    ∀ (left i off : ℕ) (img : MachOImage) (e : EmuError), off ≤ bytes.length + 2 ^ 32 →
      parseCommands (bytes ++ List.replicate n 0) left i off img = .error e → ¬IsReadError e
  | 0, _, _, _, _, _, h => nomatch h
  | left + 1, i, off, img, e, hoff, h => by
    have hpadded : (bytes ++ List.replicate n (0 : U8)).length = bytes.length + n := by
      rw [List.length_append, List.length_replicate]
    have hd : (bytes ++ List.replicate n (0 : U8)).length + 2 ^ 32 < 2 ^ 64 := by omega
    have hhead : off + 8 ≤ (bytes ++ List.replicate n (0 : U8)).length := by omega
    rcases Nat.lt_or_ge (commandSize (bytes ++ List.replicate n 0) off) 8 with hsize | hsize
    · have htakes : TakesAt readCommand (bytes ++ List.replicate n 0) off 8 :=
        takesAt_readCommand (by omega)
      obtain ⟨⟨cmd, cmdsize⟩, hread⟩ := htakes.runAt_isOk_iff.2 hhead
      obtain ⟨-, _, hwords⟩ := runAt_eq_ok.1 hread
      obtain ⟨rfl, rfl⟩ := readCommand_eq_ok hwords
      rw [commandSize] at hsize
      rw [parseCommands, hread] at h
      simp only [bind, Except.bind] at h
      rw [if_pos hsize] at h
      obtain rfl := Except.error.inj h
      simp [IsReadError, String.toList_append]
    · have hfirst := readable_padded hn hoff hsize
      have hread := readAt_parseCommand (by omega) hhead img
        (commandAt (bytes ++ List.replicate n 0) off)
      obtain ⟨img₁, himg₁⟩ := hread.isOk_iff.2 hfirst.2
      rw [parseCommands_turn hd hhead hsize, himg₁] at h
      -- Behind the end of the file a command has no size, so this one starts before it.
      have hbefore : off < bytes.length := by
        by_contra hpast
        rw [commandSize, wordAt_padded (by omega) (by omega)] at hsize
        exact absurd hsize (by decide)
      have hword := (wordAt (bytes ++ List.replicate n 0) (off + 4)).isLt
      exact parseCommands_padded hn hlen left (i + 1) _ img₁ e
        (by rw [commandSize]; omega) h

theorem parse_padded (hn : 2 ^ 40 ≤ n) (hlen : bytes.length + n + 2 ^ 32 < 2 ^ 64)
    (hbase : imageBase bytes = .ok base) (hheader : HasHeader bytes base) {e : EmuError}
    (h : parse (bytes ++ List.replicate n 0) = .error e) : ¬IsReadError e := by
  have hreach := hheader.reaches
  have halike := alike_append bytes (List.replicate n 0) (show base ≤ bytes.length by omega)
  have hpadded : (bytes ++ List.replicate n (0 : U8)).length = bytes.length + n := by
    rw [List.length_append, List.length_replicate]
  have hheader' : HasHeader (bytes ++ List.replicate n 0) base := by
    refine ⟨by omega, ?_, ?_⟩
    · rw [halike.wordAt_eq le_rfl (by omega), hheader.magic]
    · rw [halike.wordAt_eq (by omega) (by omega), hheader.cputype]
  obtain ⟨⟨subtype, filetype, ncmds, flags⟩, hread⟩ :=
    (runAt_readHeader_isOk_iff (by omega)).2 hheader'
  rw [parse_eq_bind, (imageBase_append _ hbase).2] at h
  simp only [bind, Except.bind] at h
  rw [parseThin, hread] at h
  simp only [bind, Except.bind] at h
  rcases hloop : parseCommands (bytes ++ List.replicate n 0) ncmds.toNat 0 (base + 32)
    (blank subtype filetype flags) with e' | img
  · rw [hloop] at h
    obtain rfl := Except.error.inj h
    exact parseCommands_padded hn hlen _ _ _ _ _ (by omega) hloop
  · rw [hloop] at h
    dsimp only at h
    split_ifs at h
    · obtain rfl := Except.error.inj h
      simp [IsReadError]
    · cases h

end Padded

/-! ## The exact condition -/

/-- A command that is reached and not there to be read makes `parse` fail at the end of the
file. -/
theorem parse_isReadError (hd : bytes.length + 2 ^ 32 < 2 ^ 64)
    (hbase : imageBase bytes = .ok base) (hheader : HasHeader bytes base) {i : ℕ}
    (hi : i < commandCount bytes base)
    (hbefore : ∀ j < i, Readable bytes (commandOffset bytes (base + 32) j))
    (hhead : commandOffset bytes (base + 32) i + 8 ≤ bytes.length)
    (hsize : 8 ≤ commandSize bytes (commandOffset bytes (base + 32) i))
    (hnot : ¬Readable bytes (commandOffset bytes (base + 32) i)) :
    ∃ e, parse bytes = .error e ∧ IsReadError e := by
  obtain ⟨⟨subtype, filetype, ncmds, flags⟩, hread⟩ := (runAt_readHeader_isOk_iff hd).2 hheader
  obtain ⟨-, _, hwords⟩ := runAt_eq_ok.1 hread
  obtain ⟨-, rfl⟩ := readHeader_eq_ok hwords
  obtain ⟨e, he, herr⟩ := parseCommands_isReadError hd i (commandCount bytes base) 0 (base + 32)
    (blank subtype filetype flags) hi hbefore hhead hsize hnot
  rw [commandCount] at he
  refine ⟨e, ?_, herr⟩
  rw [parse_eq_bind, hbase]
  simp only [bind, Except.bind]
  rw [parseThin, hread]
  simp only [bind, Except.bind, he]

/-- Bytes after the end of a file change none of its commands. -/
theorem sameCommands_append (rest : List U8) (hbase : imageBase bytes = .ok base)
    (hheader : HasHeader bytes base)
    (hinside : ∀ i, Reaches bytes base i → commandOffset bytes (base + 32) i +
      max 8 (commandSize bytes (commandOffset bytes (base + 32) i)) ≤ bytes.length) :
    SameCommands bytes (bytes ++ rest) where
  base := by rw [(imageBase_append rest hbase).2, hbase]
  header b hb j _ hj := by
    obtain rfl : base = b := Except.ok.inj (hbase.symm.trans hb)
    exact List.getElem?_append_left (hj.trans_le hheader.reaches)
  command b i hb hreach j _ hj := by
    obtain rfl : base = b := Except.ok.inj (hbase.symm.trans hb)
    exact List.getElem?_append_left (hj.trans_le (hinside i hreach))

/-- The commands up to one that is not there to be read lie in the file with it. -/
theorem inside_of_reaches (hd : bytes.length + 2 ^ 32 < 2 ^ 64) {i : ℕ}
    (hsize : 8 ≤ commandSize bytes (commandOffset bytes (base + 32) i))
    (hinside : commandOffset bytes (base + 32) i +
      commandSize bytes (commandOffset bytes (base + 32) i) ≤ bytes.length)
    (hnot : ¬Readable bytes (commandOffset bytes (base + 32) i)) {j : ℕ}
    (hreach : Reaches bytes base j) :
    commandOffset bytes (base + 32) j +
      max 8 (commandSize bytes (commandOffset bytes (base + 32) j)) ≤ bytes.length := by
  obtain ⟨-, -, hbefore⟩ := (reaches_iff hd).1 hreach
  rcases lt_trichotomy j i with hlt | rfl | hgt
  · have hmono := commandOffset_mono bytes (base + 32) (Nat.succ_le_of_lt hlt)
    have hnext := commandOffset_mono bytes (base + 32) (Nat.le_succ j)
    rw [Nat.succ_eq_add_one, commandOffset] at hmono
    rw [commandSize] at *
    omega
  · omega
  · exact absurd (hbefore i hgt) hnot

/-- The load commands of a file are parsed from their own bytes if and only if each of them
that is reached and lies in the file states a size that covers what is read of it. -/
theorem own_bytes_iff (bytes : List U8) (hlen : bytes.length ≤ isizeMax) :
    OwnBytes bytes ↔ ∀ base, imageBase bytes = .ok base → HasHeader bytes base →
      ∀ i < commandCount bytes base,
        (∀ j < i, Readable bytes (commandOffset bytes (base + 32) j)) →
          Covers bytes (commandOffset bytes (base + 32) i) := by
  have hd : bytes.length + 2 ^ 32 < 2 ^ 64 := by
    unfold isizeMax at hlen
    omega
  constructor
  · intro hown base hbase hheader i hi hbefore hsize hinside
    have hreach := (reaches_iff hd).2 ⟨hheader, hi, hbefore⟩
    by_contra hsmall
    have hstop := hown.small base i hbase hreach (not_le.1 hsmall)
    have hnot : ¬Readable bytes (commandOffset bytes (base + 32) i) := by
      intro hread
      obtain ⟨e, he⟩ := hstop 0 (blank 0 0 0)
      obtain ⟨img, himg⟩ := (parseCommands_isOk_iff hd 1 0
        (commandOffset bytes (base + 32) i) (blank 0 0 0)).2 fun j hj => by
          obtain rfl : j = 0 := by omega
          exact hread
      rw [he] at himg
      cases himg
    obtain ⟨e, he, herr⟩ := parse_isReadError hd hbase hheader hi hbefore
      (by omega) hsize hnot
    have hsame := sameCommands_append (List.replicate (2 ^ 40) 0) hbase hheader fun j hj =>
      inside_of_reaches hd hsize hinside hnot hj
    have hpadded := hown.same _ hsame
    rw [he] at hpadded
    exact parse_padded le_rfl (by unfold isizeMax at hlen; omega) hbase hheader hpadded herr
  · intro hcover
    have hown : ∀ base i, imageBase bytes = .ok base → Reaches bytes base i →
        Covers bytes (commandOffset bytes (base + 32) i) := by
      intro base i hbase hreach
      obtain ⟨hheader, hi, hbefore⟩ := (reaches_iff hd).1 hreach
      exact hcover base hbase hheader i hi hbefore
    refine ⟨fun bytes' h => parse_eq_of_sameCommands hd hown h, ?_⟩
    intro base i hbase hreach hsmall n img
    rcases hturn : parseCommands bytes 1 n (commandOffset bytes (base + 32) i) img with e | img'
    · exact ⟨e, rfl⟩
    · exfalso
      have hread := readable_of_parseCommands hd hturn
      have hextent := extent_le hread.2
      have := hown base i hbase hreach hread.1
      omega

/-- The commands of a well-formed file are parsed from their own bytes. -/
theorem own_bytes_iff_libraryFile : OwnBytes libraryFile := by
  have hbase : imageBase libraryFile = .ok 0 := by decide +kernel
  refine (own_bytes_iff libraryFile (by decide +kernel)).2 fun base h _ i hi _ _ _ => ?_
  obtain rfl : 0 = base := Except.ok.inj (hbase.symm.trans h)
  exact isThin_libraryFile.own i hi

/-- A segment of 72 bytes that says it has a section. -/
def spillingCommands : List U8 :=
  leBytes 4 0xfeedfacf ++ leBytes 4 0x0100000c ++ leBytes 4 0 ++ leBytes 4 2 ++ leBytes 4 1 ++
    leBytes 4 72 ++ leBytes 4 0x200000 ++ leBytes 4 0 ++
    (leBytes 4 0x19 ++ leBytes 4 72 ++ leBytes 16 0x545845545f5f ++ leBytes 8 0x100000000 ++
      leBytes 8 0x4000 ++ leBytes 8 0 ++ leBytes 8 0x4000 ++ leBytes 4 5 ++ leBytes 4 5 ++
      leBytes 4 1 ++ leBytes 4 0)

theorem sameCommands_spilling :
    SameCommands (spillingCommands ++ leBytes 80 0) (spillingCommands ++ leBytes 80 0x5f5f) := by
  have hbase : imageBase (spillingCommands ++ leBytes 80 0) = .ok 0 := by decide +kernel
  have hagree : ∀ i < 104, (spillingCommands ++ leBytes 80 0x5f5f)[i]? =
      (spillingCommands ++ leBytes 80 0)[i]? := by
    intro i hi
    have hlen : spillingCommands.length = 104 := by decide +kernel
    rw [List.getElem?_append_left (by omega), List.getElem?_append_left (by omega)]
  refine ⟨?_, fun base h j _ hj => ?_, fun base i h hreach j _ hj => ?_⟩
  · decide +kernel
  · obtain rfl : 0 = base := Except.ok.inj (hbase.symm.trans h)
    exact hagree j (by omega)
  · obtain rfl : 0 = base := Except.ok.inj (hbase.symm.trans h)
    have hi := ((reaches_iff (by decide +kernel)).1 hreach).2.1
    have hcount : commandCount (spillingCommands ++ leBytes 80 0) 0 = 1 := by decide
    obtain rfl : i = 0 := by omega
    have hend : commandOffset (spillingCommands ++ leBytes 80 0) 32 0 +
        max 8 (commandSize (spillingCommands ++ leBytes 80 0)
          (commandOffset (spillingCommands ++ leBytes 80 0) 32 0)) = 104 := by decide
    rw [Nat.zero_add, hend] at hj
    exact hagree j hj

/-- The section is read from what follows the commands : two files with the same header and
the same command are two images. -/
theorem spilled_section :
    SameCommands (spillingCommands ++ leBytes 80 0) (spillingCommands ++ leBytes 80 0x5f5f) ∧
      parse (spillingCommands ++ leBytes 80 0x5f5f) ≠
        parse (spillingCommands ++ leBytes 80 0) ∧
      ¬OwnBytes (spillingCommands ++ leBytes 80 0) := by
  have hdiffer : parse (spillingCommands ++ leBytes 80 0x5f5f) ≠
      parse (spillingCommands ++ leBytes 80 0) := by
    decide +kernel
  exact ⟨sameCommands_spilling, hdiffer, fun h => hdiffer (h.same _ sameCommands_spilling)⟩

end MachOImage

end IosEmu
