import IosEmu.LoadCommands

/-!
# The bytes a load command is read from

A command is read from its offset on, up to the end of the file. `TakesAt` says of a reader
how many bytes it takes at a position : it fails if and only if the file has fewer, and it
gives the same result, errors included, in every file that is alike up to there. The number
goes through sequencing, and where it depends on words of the file the words are those before
it, as the number of sections of a segment is.

`MachOImage.taken` adds it up for each command. A name is the one thing whose end is looked
for in the file : the reader wants one byte of it, and takes all up to the first NUL
(`readAt_parseCommand`).
-/

open SysLib

namespace SysLib

/-- Lists alike up to the first entry that fails the test have the same entries before it. -/
theorem takeWhile_eq_of_getElem? {α : Type} (p : α → Bool) : ∀ {l l' : List α},
    (∀ i ≤ (l.takeWhile p).length, l'[i]? = l[i]?) → l'.takeWhile p = l.takeWhile p
  | [], l', h => by
    have hnil : l' = [] := by simpa using h 0 (Nat.zero_le _)
    rw [hnil]
  | a :: l, [], h => by simpa using h 0 (Nat.zero_le _)
  | a :: l, b :: l', h => by
    obtain rfl : b = a := by simpa using h 0 (Nat.zero_le _)
    rcases hb : p b with _ | _
    · rw [List.takeWhile_cons_of_neg (by simp [hb]), List.takeWhile_cons_of_neg (by simp [hb])]
    · rw [List.takeWhile_cons_of_pos hb, List.length_cons] at h
      rw [List.takeWhile_cons_of_pos hb, List.takeWhile_cons_of_pos hb,
        takeWhile_eq_of_getElem? p fun i hi => by
          simpa using h (i + 1) (Nat.succ_le_succ hi)]

end SysLib

namespace IosEmu

open Reader

/-! ## Files alike in a range -/

/-- The files have the same bytes in `[lo, hi)`, or the same lack of them. -/
def AgreeOn (d d' : List U8) (lo hi : ℕ) : Prop :=
  ∀ i, lo ≤ i → i < hi → d'[i]? = d[i]?

/-- Files that reach `lo` and agree from there up to `hi`. -/
structure Alike (d d' : List U8) (lo hi : ℕ) : Prop where
  reaches : lo ≤ d.length
  reaches' : lo ≤ d'.length
  agree : AgreeOn d d' lo hi

namespace Alike

variable {d d' : List U8} {lo hi n pos : ℕ}

theorem symm (h : Alike d d' lo hi) : Alike d' d lo hi :=
  ⟨h.reaches', h.reaches, fun i hlo hhi => (h.agree i hlo hhi).symm⟩

theorem le_iff (h : Alike d d' lo hi) (hn : n ≤ hi) : n ≤ d'.length ↔ n ≤ d.length := by
  constructor
  · intro h'
    by_contra hlt
    have hnone := h.agree d.length h.reaches (by omega)
    rw [List.getElem?_eq_none le_rfl, List.getElem?_eq_none_iff] at hnone
    omega
  · intro h'
    by_contra hlt
    have hnone := h.agree d'.length h.reaches' (by omega)
    rw [List.getElem?_eq_none le_rfl, eq_comm, List.getElem?_eq_none_iff] at hnone
    omega

/-- A file that ends in the range ends at the same place. -/
theorem length_eq (h : Alike d d' lo hi) (hlt : d.length < hi) : d'.length = d.length := by
  have hle := (h.le_iff (show d.length ≤ hi by omega)).2 le_rfl
  have hlt' := mt (h.le_iff (show d.length + 1 ≤ hi by omega)).1 (by omega)
  omega

/-- Files that end in the range agree from its start on. -/
theorem of_length_lt (h : Alike d d' lo hi) (hlt : d.length < hi) (hi' : ℕ) :
    Alike d d' lo hi' := by
  refine ⟨h.reaches, h.reaches', fun i hlo _ => ?_⟩
  rcases lt_or_ge i hi with hi' | hi'
  · exact h.agree i hlo hi'
  · have heq := h.length_eq hlt
    rw [List.getElem?_eq_none (by omega), List.getElem?_eq_none (by omega)]

theorem drop_take (h : Alike d d' lo hi) (hlo : lo ≤ pos) (hhi : pos + n ≤ hi) :
    (d'.drop pos).take n = (d.drop pos).take n := by
  ext1 i
  rw [List.getElem?_take, List.getElem?_take, List.getElem?_drop, List.getElem?_drop]
  split_ifs with hi'
  · exact h.agree (pos + i) (by omega) (by omega)
  · rfl

theorem wordAt_eq (h : Alike d d' lo hi) (hlo : lo ≤ pos) (hhi : pos + 4 ≤ hi) :
    wordAt d' pos = wordAt d pos := by
  rw [wordAt, wordAt, h.drop_take hlo hhi]

end Alike

/-! ## Readers that take a number of bytes -/

/-- The errors of reading past the end of the file, told by how they begin. -/
def IsReadError : EmuError → Prop
  | .machO text => text.toList.take 2 ∈
      [['r', 'e'], ['t', 'r'], ['s', 'k'], ['s', 'e'], ['o', 'f'], ['l', 'c']]
  | _ => False

/-- The reader takes `n` bytes of the file `d` from `pos` on. -/
structure TakesAt {α : Type} (x : Reader α) (d : List U8) (pos n : ℕ) : Prop where
  moves : ∀ {a pos'}, x d pos = .ok (a, pos') → pos' = pos + n
  isOk_iff : pos ≤ d.length → ((∃ r, x d pos = .ok r) ↔ pos + n ≤ d.length)
  isReadError : ∀ {e}, x d pos = .error e → IsReadError e
  eq_of_alike : ∀ {d' lo hi}, Alike d d' lo hi → lo ≤ pos → pos + n ≤ hi → x d' pos = x d pos

section TakesAt

variable {α β : Type} {d : List U8} {pos m n : ℕ}

theorem takesAt_pure (a : α) : TakesAt (pure a : Reader α) d pos 0 where
  moves h := (pure_eq_ok.1 h).2.symm
  isOk_iff hpos := ⟨fun _ => hpos, fun _ => ⟨_, rfl⟩⟩
  isReadError h := nomatch h
  eq_of_alike _ _ _ := rfl

theorem bind_eq_error {x : Reader α} {f : α → Reader β} {e : EmuError} :
    (x >>= f) d pos = .error e ↔
      x d pos = .error e ∨ ∃ a pos₁, x d pos = .ok (a, pos₁) ∧ f a d pos₁ = .error e := by
  change (x d pos).bind (fun q => f q.1 d q.2) = _ ↔ _
  rcases x d pos with e' | ⟨a, pos₁⟩
  · simp [Except.bind]
  · simp [Except.bind]

/-- Two files in which `x` reads the same go on from what it has read. -/
theorem TakesAt.bind_eq_of_alike {x : Reader α} {f : α → Reader β} (hx : TakesAt x d pos m)
    {d' : List U8} {lo hi : ℕ} (h : Alike d d' lo hi) (hlo : lo ≤ pos) (hhi : pos + m ≤ hi)
    (hf : ∀ a, x d pos = .ok (a, pos + m) → f a d' (pos + m) = f a d (pos + m)) :
    (x >>= f) d' pos = (x >>= f) d pos := by
  change (x _ pos).bind (fun q => f q.1 _ q.2) = (x d pos).bind (fun q => f q.1 d q.2)
  rw [hx.eq_of_alike h hlo hhi]
  rcases hres : x d pos with e | ⟨a, pos₁⟩
  · rfl
  · obtain rfl := hx.moves hres
    exact hf a hres

/-- The second reader starts where the first one has ended, with what it has read. -/
theorem TakesAt.bind {x : Reader α} {f : α → Reader β} (hx : TakesAt x d pos m)
    (hf : ∀ a, x d pos = .ok (a, pos + m) → TakesAt (f a) d (pos + m) n) :
    TakesAt (x >>= f) d pos (m + n) where
  moves h := by
    obtain ⟨a, pos₁, hxa, hfa⟩ := bind_eq_ok.1 h
    obtain rfl := hx.moves hxa
    rw [(hf a hxa).moves hfa, Nat.add_assoc]
  isOk_iff hpos := by
    constructor
    · rintro ⟨⟨b, pos'⟩, h⟩
      obtain ⟨a, pos₁, hxa, hfa⟩ := bind_eq_ok.1 h
      obtain rfl := hx.moves hxa
      have hm := (hx.isOk_iff hpos).1 ⟨_, hxa⟩
      rw [← Nat.add_assoc]
      exact ((hf a hxa).isOk_iff hm).1 ⟨_, hfa⟩
    · intro hlen
      obtain ⟨⟨a, pos₁⟩, hxa⟩ := (hx.isOk_iff hpos).2 (by omega)
      obtain rfl := hx.moves hxa
      obtain ⟨⟨b, pos'⟩, hfa⟩ := ((hf a hxa).isOk_iff (by omega)).2 (by omega)
      exact ⟨_, bind_eq_ok.2 ⟨_, _, hxa, hfa⟩⟩
  isReadError h := by
    rcases bind_eq_error.1 h with hxe | ⟨a, pos₁, hxa, hfe⟩
    · exact hx.isReadError hxe
    · obtain rfl := hx.moves hxa
      exact (hf a hxa).isReadError hfe
  eq_of_alike h hlo hhi := hx.bind_eq_of_alike h hlo (by omega) fun a hxa =>
    (hf a hxa).eq_of_alike h (by omega) (by omega)

/-- What is computed from the last value read takes no more bytes. -/
theorem TakesAt.map {x : Reader α} (f : α → β) (hx : TakesAt x d pos n) :
    TakesAt (x >>= fun a => pure (f a)) d pos n :=
  hx.bind fun _ _ => takesAt_pure _

theorem takesAt_take (hd : d.length < 2 ^ 64) : TakesAt (take n) d pos n where
  moves h := (take_eq_ok.1 h).2.2.2
  isOk_iff _ := by
    constructor
    · rintro ⟨⟨l, pos'⟩, h⟩
      exact (take_eq_ok.1 h).2.1
    · intro hlen
      exact ⟨_, take_eq_ok.2 ⟨by omega, hlen, rfl, rfl⟩⟩
  isReadError h := by
    unfold take at h
    split_ifs at h
    · obtain rfl := Except.error.inj h
      simp [IsReadError]
    · obtain rfl := Except.error.inj h
      simp [IsReadError, String.toList_append]
  eq_of_alike h hlo hhi := by
    unfold take
    split_ifs with hbig hshort hshort' hshort'
    · rfl
    · rw [h.length_eq]
      have := h.le_iff hhi
      omega
    · have := h.le_iff hhi
      omega
    · have := h.le_iff hhi
      omega
    · rw [h.drop_take hlo hhi]

theorem takesAt_skip (hd : d.length < 2 ^ 64) : TakesAt (skip n) d pos n where
  moves h := by
    unfold skip at h
    split_ifs at h
    obtain ⟨-, rfl⟩ := Prod.mk.inj (Except.ok.inj h)
    rfl
  isOk_iff _ := by
    unfold skip
    split_ifs with hbig hshort
    · simp only [exists_false, false_iff]
      omega
    · simp only [exists_false, false_iff]
      omega
    · exact ⟨fun _ => by omega, fun _ => ⟨_, rfl⟩⟩
  isReadError h := by
    unfold skip at h
    split_ifs at h
    · obtain rfl := Except.error.inj h
      simp [IsReadError]
    · obtain rfl := Except.error.inj h
      simp [IsReadError, String.toList_append]
  eq_of_alike h hlo hhi := by
    have hle := h.le_iff hhi
    unfold skip
    split_ifs with hbig hshort hshort' hshort'
    · rfl
    · rfl
    · omega
    · omega
    · rfl

theorem takesAt_u32Le (hd : d.length < 2 ^ 64) : TakesAt u32Le d pos 4 :=
  (takesAt_take hd).map _

theorem takesAt_u64Le (hd : d.length < 2 ^ 64) : TakesAt u64Le d pos 8 :=
  (takesAt_take hd).map _

theorem takesAt_fixedStr (hd : d.length < 2 ^ 64) : TakesAt (fixedStr n) d pos n :=
  (takesAt_take hd).map _

end TakesAt

/-! ## The readers of the load commands -/

section Records

variable {d : List U8} {pos : ℕ}

theorem takesAt_readSections (hd : d.length < 2 ^ 64) : ∀ n pos,
    TakesAt (readSections n) d pos (80 * n)
  | 0, _ => takesAt_pure _
  | n + 1, pos => by
    have h : TakesAt (readSections (n + 1)) d pos
        (16 + (16 + (8 + (8 + (4 + (4 + (4 + (4 + (4 + (4 + (4 + (4 + 80 * n)))))))))))) := by
      iterate 2 refine (takesAt_fixedStr hd).bind fun _ _ => ?_
      iterate 2 refine (takesAt_u64Le hd).bind fun _ _ => ?_
      iterate 8 refine (takesAt_u32Le hd).bind fun _ _ => ?_
      exact (takesAt_readSections hd n _).map _
    rwa [show 16 + (16 + (8 + (8 + (4 + (4 + (4 + (4 + (4 + (4 + (4 + (4 + 80 * n))))))))))) =
      80 * (n + 1) by omega] at h

/-- The number of sections is the word before the flags. -/
theorem takesAt_readSegment (hd : d.length < 2 ^ 64) :
    TakesAt readSegment d pos (64 + 80 * (wordAt d (pos + 56)).toNat) := by
  have h : TakesAt readSegment d pos (16 + (8 + (8 + (8 + (8 + (4 + (4 + (4 + (4 +
      80 * (wordAt d (pos + 56)).toNat))))))))) := by
    refine (takesAt_fixedStr hd).bind fun _ _ => ?_
    iterate 4 refine (takesAt_u64Le hd).bind fun _ _ => ?_
    iterate 2 refine (takesAt_u32Le hd).bind fun _ _ => ?_
    refine (takesAt_u32Le hd).bind fun nsects hnsects => ?_
    obtain ⟨-, -, rfl, -⟩ := u32Le_eq_ok.1 hnsects
    refine (takesAt_u32Le hd).bind fun _ _ => ?_
    exact (takesAt_readSections hd _ _).map _
  rwa [show 16 + (8 + (8 + (8 + (8 + (4 + (4 + (4 + (4 +
    80 * (wordAt d (pos + 56)).toNat)))))))) = 64 + 80 * (wordAt d (pos + 56)).toNat by
      omega] at h

/-- The thread state at `pos` is one of arm64. -/
def IsArm64Thread (d : List U8) (pos : ℕ) : Prop :=
  wordAt d pos = 6 ∧ wordAt d (pos + 4) = 68

instance (d : List U8) (pos : ℕ) : Decidable (IsArm64Thread d pos) :=
  inferInstanceAs (Decidable (_ ∧ _))

theorem takesAt_readArm64ThreadPc (hd : d.length < 2 ^ 64) :
    TakesAt readArm64ThreadPc d pos (if IsArm64Thread d pos then 272 else 8) := by
  have h : TakesAt readArm64ThreadPc d pos
      (4 + (4 + if IsArm64Thread d pos then 256 + 8 else 0)) := by
    refine (takesAt_u32Le hd).bind fun flavor hflavor => ?_
    obtain ⟨-, -, rfl, -⟩ := u32Le_eq_ok.1 hflavor
    refine (takesAt_u32Le hd).bind fun count hcount => ?_
    obtain ⟨-, -, rfl, -⟩ := u32Le_eq_ok.1 hcount
    by_cases harm : IsArm64Thread d pos
    · rw [if_pos harm, if_neg (by simp [harm.1, harm.2])]
      exact (takesAt_skip hd).bind fun _ _ => (takesAt_u64Le hd).map _
    · rw [if_neg harm, if_pos (by rw [IsArm64Thread] at harm; tauto)]
      exact takesAt_pure _
  split_ifs with harm
  · rwa [if_pos harm] at h
  · rwa [if_neg harm] at h

theorem takesAt_readDyldInfo (hd : d.length < 2 ^ 64) : TakesAt readDyldInfo d pos 32 := by
  change TakesAt readDyldInfo d pos (4 + (4 + (4 + (4 + (4 + (4 + (4 + (4 + 0))))))))
  iterate 8 refine (takesAt_u32Le hd).bind fun _ _ => ?_
  exact takesAt_pure _

theorem takesAt_readSymtab (hd : d.length < 2 ^ 64) : TakesAt readSymtab d pos 16 := by
  change TakesAt readSymtab d pos (4 + (4 + (4 + (4 + 0))))
  iterate 4 refine (takesAt_u32Le hd).bind fun _ _ => ?_
  exact takesAt_pure _

theorem takesAt_readEncryption (hd : d.length < 2 ^ 64) : TakesAt readEncryption d pos 12 := by
  change TakesAt readEncryption d pos (4 + (4 + (4 + 0)))
  iterate 3 refine (takesAt_u32Le hd).bind fun _ _ => ?_
  exact takesAt_pure _

theorem takesAt_readCommand (hd : d.length < 2 ^ 64) :
    TakesAt MachOImage.readCommand d pos 8 := by
  change TakesAt MachOImage.readCommand d pos (4 + (4 + 0))
  iterate 2 refine (takesAt_u32Le hd).bind fun _ _ => ?_
  exact takesAt_pure _

end Records

/-! ## Reading at an offset -/

section RunAt

variable {α β : Type} {d : List U8} {off n : ℕ} {x : Reader α}

theorem TakesAt.runAt_isOk_iff (h : TakesAt x d off n) :
    (∃ a, runAt d off x = .ok a) ↔ off + n ≤ d.length := by
  constructor
  · rintro ⟨a, ha⟩
    obtain ⟨hoff, pos', hx⟩ := runAt_eq_ok.1 ha
    exact (h.isOk_iff hoff).1 ⟨_, hx⟩
  · intro hlen
    obtain ⟨⟨a, pos'⟩, hx⟩ := (h.isOk_iff (by omega)).2 hlen
    exact ⟨a, runAt_eq_ok.2 ⟨by omega, pos', hx⟩⟩

theorem TakesAt.runAt_isReadError (h : TakesAt x d off n) {e : EmuError}
    (herr : runAt d off x = .error e) : IsReadError e := by
  unfold runAt at herr
  split_ifs at herr
  · obtain rfl := Except.error.inj herr
    simp [IsReadError, String.toList_append]
  · rcases hx : x d off with e' | ⟨a, pos'⟩
    · rw [hx] at herr
      obtain rfl := Except.error.inj herr
      exact h.isReadError hx
    · rw [hx] at herr
      cases herr

theorem TakesAt.runAt_eq_of_alike (h : TakesAt x d off n) {d' : List U8} {lo hi : ℕ}
    (halike : Alike d d' lo hi) (hlo : lo ≤ off) (hhi : off + n ≤ hi) :
    runAt d' off x = runAt d off x := by
  have hle := halike.le_iff (show off ≤ hi by omega)
  unfold runAt
  rw [h.eq_of_alike halike hlo hhi]
  split_ifs
  · rfl
  · omega
  · omega
  · rfl

/-- What is computed from what was read can fail no more. -/
theorem isOk_bind_pure {x : EmuResult α} {f : α → β} :
    (∃ b, (x >>= fun a => pure (f a)) = .ok b) ↔ ∃ a, x = .ok a := by
  rcases x with e | a
  · simp [bind, Except.bind]
  · simp [bind, Except.bind, pure, Except.pure]

end RunAt

/-! ## Commands -/

namespace MachOImage

/-- The size a command states. -/
def commandSize (bytes : List U8) (off : ℕ) : ℕ :=
  (wordAt bytes (off + 4)).toNat

/-- The number of sections a segment states. -/
def sectionCount (bytes : List U8) (off : ℕ) : ℕ :=
  (wordAt bytes (off + 64)).toNat

/-- Where the name starts, from the start of the command. -/
def nameOffset (bytes : List U8) (off : ℕ) : ℕ :=
  (wordAt bytes (off + 8)).toNat

/-- The length of the name, up to the first NUL or the end of the file. -/
def nameLength (bytes : List U8) (off : ℕ) : ℕ :=
  ((bytes.drop (off + nameOffset bytes off)).takeWhile (· ≠ 0)).length

/-- The bytes a command takes from its start on, with `name` bytes of its name. -/
def taken (bytes : List U8) (off name : ℕ) : LoadCommand → ℕ
  | .segment64 => 72 + 80 * sectionCount bytes off
  | .loadDylib | .loadWeakDylib | .reexportDylib | .loadDylinker =>
    max 12 (nameOffset bytes off + name)
  | .main => 24
  | .unixThread => if IsArm64Thread bytes (off + 8) then 280 else 16
  | .symtab => 24
  | .dyldInfo => 40
  | .encryptionInfo64 => 20
  | .uuid => 24
  | .functionStarts => 16
  | .versionMinIphoneos => 12
  | .other => 8

/-- The bytes without which the command at `off` is not read. -/
def needed (bytes : List U8) (off : ℕ) : ℕ :=
  taken bytes off 1 (commandAt bytes off)

/-- The bytes the command at `off` is read from, the end of its name included. -/
def extent (bytes : List U8) (off : ℕ) : ℕ :=
  taken bytes off (nameLength bytes off + 1) (commandAt bytes off)

theorem taken_mono (bytes : List U8) (off : ℕ) {m n : ℕ} (h : m ≤ n) (c : LoadCommand) :
    taken bytes off m c ≤ taken bytes off n c := by
  unfold taken
  split <;> omega

theorem needed_le_extent (bytes : List U8) (off : ℕ) : needed bytes off ≤ extent bytes off :=
  taken_mono bytes off (Nat.le_add_left 1 _) _

/-- A command begins with its number and its size. -/
theorem eight_le_taken (bytes : List U8) (off n : ℕ) (c : LoadCommand) :
    8 ≤ taken bytes off n c := by
  cases c with
  | unixThread =>
    rw [taken]
    split_ifs
    · omega
    · omega
  | segment64 => exact (by omega : 8 ≤ 72).trans (Nat.le_add_right _ _)
  | loadDylib | loadWeakDylib | reexportDylib | loadDylinker =>
    exact (by omega : 8 ≤ 12).trans (Nat.le_max_left _ _)
  | _ => simp [taken]

/-- What a command takes is stated by the words it takes. -/
theorem taken_eq_of_alike {d d' : List U8} {off hi n : ℕ} {c : LoadCommand}
    (h : Alike d d' off hi) (hhi : off + taken d off n c ≤ hi) :
    taken d' off n c = taken d off n c := by
  cases c with
  | segment64 =>
    rw [taken] at hhi
    rw [taken, taken, sectionCount, sectionCount, h.wordAt_eq (by omega) (by omega)]
  | loadDylib | loadWeakDylib | reexportDylib | loadDylinker =>
    rw [taken] at hhi
    rw [taken, taken, nameOffset, nameOffset, h.wordAt_eq (by omega) (by omega)]
  | unixThread =>
    have hlen : off + 16 ≤ hi := by
      rw [taken] at hhi
      split_ifs at hhi <;> omega
    have hthread : IsArm64Thread d' (off + 8) ↔ IsArm64Thread d (off + 8) := by
      unfold IsArm64Thread
      rw [h.wordAt_eq (by omega) (by omega), h.wordAt_eq (by omega) (by omega)]
    simp only [taken, hthread]
  | _ => rfl

theorem commandAt_eq_of_alike {d d' : List U8} {off hi : ℕ} (h : Alike d d' off hi)
    (hhi : off + 8 ≤ hi) : commandAt d' off = commandAt d off := by
  rw [commandAt, commandAt, h.wordAt_eq le_rfl (by omega)]

theorem needed_eq_of_alike {d d' : List U8} {off hi : ℕ} (h : Alike d d' off hi)
    (hhi : off + needed d off ≤ hi) : needed d' off = needed d off := by
  have := eight_le_taken d off 1 (commandAt d off)
  have hcommand := commandAt_eq_of_alike h (by unfold needed at hhi; omega)
  rw [needed, needed, hcommand, taken_eq_of_alike h hhi]

/-- The offsets of the commands depend on their sizes alone. -/
theorem commandOffset_congr {d d' : List U8} {start : ℕ} : ∀ {i : ℕ},
    (∀ j < i, commandSize d' (commandOffset d start j) =
      commandSize d (commandOffset d start j)) →
      commandOffset d' start i = commandOffset d start i
  | 0, _ => rfl
  | i + 1, h => by
    have hi := commandOffset_congr fun j hj => h j (Nat.lt_succ_of_lt hj)
    have hsize := h i (Nat.lt_succ_self i)
    rw [commandSize, commandSize] at hsize
    rw [commandOffset, commandOffset, hi, hsize]

theorem commandOffset_mono (bytes : List U8) (start : ℕ) :
    Monotone (commandOffset bytes start) :=
  monotone_nat_of_le_succ fun _ => Nat.le_add_right _ _

/-- The read `x` of the file `d` needs `need` bytes from `off` on, and is decided by `ext`. -/
structure ReadAt {α : Type} (x : List U8 → EmuResult α) (d : List U8) (off need ext : ℕ) :
    Prop where
  isOk_iff : (∃ a, x d = .ok a) ↔ off + need ≤ d.length
  isReadError : ∀ {e}, x d = .error e → IsReadError e
  eq_of_alike : ∀ {d' hi}, Alike d d' off hi → off + ext ≤ hi → x d' = x d

section ReadAt

variable {α β : Type} {d : List U8} {off : ℕ}

/-- The fields of a command stand after its number and its size. -/
theorem readAt_runAt {x : Reader α} {n : ℕ} (h : TakesAt x d (off + 8) n) :
    ReadAt (fun d => runAt d (off + 8) x) d off (8 + n) (8 + n) where
  isOk_iff := by
    rw [h.runAt_isOk_iff, Nat.add_assoc]
  isReadError := h.runAt_isReadError
  eq_of_alike halike hhi := h.runAt_eq_of_alike halike (by omega) (by omega)

theorem ReadAt.map {x : List U8 → EmuResult α} {need ext : ℕ} (f : α → β)
    (h : ReadAt x d off need ext) :
    ReadAt (fun d => x d >>= fun a => pure (f a)) d off need ext where
  isOk_iff := isOk_bind_pure.trans h.isOk_iff
  isReadError herr := by
    rcases hx : x d with e | a
    · rw [hx] at herr
      obtain rfl := Except.error.inj herr
      exact h.isReadError hx
    · rw [hx] at herr
      cases herr
  eq_of_alike halike hhi := by
    rw [h.eq_of_alike halike hhi]

/-- The name of a dylib or of the dynamic linker. -/
def readName (off : ℕ) (bytes : List U8) : EmuResult String := do
  let nameOff ← runAt bytes (off + 8) u32Le
  readLcStr bytes off nameOff.toNat

theorem readLcStr_isOk_iff (hd : d.length < 2 ^ 64) {n : ℕ} :
    (∃ s, readLcStr d off n = .ok s) ↔ off + n < d.length := by
  unfold readLcStr
  split_ifs with hbig hpast
  · simp only [exists_false, false_iff]
    omega
  · simp only [exists_false, false_iff]
    omega
  · exact ⟨fun _ => by omega, fun _ => ⟨_, rfl⟩⟩

theorem readLcStr_isReadError {n : ℕ} {e : EmuError} (h : readLcStr d off n = .error e) :
    IsReadError e := by
  unfold readLcStr at h
  split_ifs at h
  · obtain rfl := Except.error.inj h
    simp [IsReadError]
  · obtain rfl := Except.error.inj h
    simp [IsReadError]

/-- A name is the same in a file that is alike up to the end of the name. -/
theorem readLcStr_eq_of_alike {d' : List U8} {lo hi n : ℕ} (h : Alike d d' lo hi)
    (hlo : lo ≤ off + n)
    (hhi : off + n + ((d.drop (off + n)).takeWhile (· ≠ 0)).length + 1 ≤ hi) :
    readLcStr d' off n = readLcStr d off n := by
  have hle := h.le_iff (show off + n + 1 ≤ hi by omega)
  have hname : (d'.drop (off + n)).takeWhile (· ≠ 0) = (d.drop (off + n)).takeWhile (· ≠ 0) := by
    refine takeWhile_eq_of_getElem? _ fun i hi => ?_
    rw [List.getElem?_drop, List.getElem?_drop]
    exact h.agree _ (by omega) (by omega)
  unfold readLcStr cstring
  rw [hname]
  split_ifs
  · rfl
  · rfl
  · omega
  · omega
  · rfl

theorem readAt_readName (hd : d.length < 2 ^ 64) :
    ReadAt (readName off) d off (max 12 (nameOffset d off + 1))
      (max 12 (nameOffset d off + (nameLength d off + 1))) where
  isOk_iff := by
    have htakes : TakesAt u32Le d (off + 8) 4 := takesAt_u32Le hd
    have hword := htakes.runAt_isOk_iff
    constructor
    · rintro ⟨s, hs⟩
      obtain ⟨nameOff, hread, hname⟩ := except_bind_eq_ok.1 hs
      have hlen := hword.1 ⟨_, hread⟩
      obtain ⟨-, _, hread⟩ := runAt_eq_ok.1 hread
      obtain ⟨-, -, rfl, -⟩ := u32Le_eq_ok.1 hread
      have hstart := (readLcStr_isOk_iff hd).1 ⟨s, hname⟩
      rw [nameOffset]
      omega
    · intro hlen
      obtain ⟨nameOff, hread⟩ := hword.2 (by omega)
      obtain ⟨-, _, hword'⟩ := runAt_eq_ok.1 hread
      obtain ⟨-, -, rfl, -⟩ := u32Le_eq_ok.1 hword'
      rw [nameOffset] at hlen
      obtain ⟨s, hs⟩ := (readLcStr_isOk_iff hd).2
        (show off + (wordAt d (off + 8)).toNat < d.length by omega)
      exact ⟨s, except_bind_eq_ok.2 ⟨_, hread, hs⟩⟩
  isReadError herr := by
    rcases hread : runAt d (off + 8) u32Le with e | nameOff
    · rw [readName, hread] at herr
      obtain rfl := Except.error.inj herr
      exact (takesAt_u32Le hd).runAt_isReadError hread
    · rw [readName, hread] at herr
      exact readLcStr_isReadError herr
  eq_of_alike halike hhi := by
    rw [readName, readName,
      (takesAt_u32Le hd).runAt_eq_of_alike halike (by omega) (by omega)]
    rcases hread : runAt d (off + 8) u32Le with e | nameOff
    · rfl
    · obtain ⟨-, _, hread⟩ := runAt_eq_ok.1 hread
      obtain ⟨-, -, rfl, -⟩ := u32Le_eq_ok.1 hread
      refine readLcStr_eq_of_alike halike (by omega) ?_
      rw [nameLength, nameOffset] at hhi
      omega

theorem readAt_parseDylib (hd : d.length < 2 ^ 64) (weak reexport : Bool) (img : MachOImage) :
    ReadAt (fun d => parseDylib d off weak reexport img) d off (max 12 (nameOffset d off + 1))
      (max 12 (nameOffset d off + (nameLength d off + 1))) := by
  have hname : ReadAt (readName off) d off _ _ := readAt_readName hd
  have h := hname.map fun path => { img with dylibs := img.dylibs ++ [Dylib.mk path weak reexport] }
  simpa only [parseDylib, readName, bind_assoc] using h

/-- What the program counter of a thread state makes of an image. -/
def threadEntry (img : MachOImage) : Option U64 → MachOImage
  | some pc => if img.entry.isNone then { img with entry := some (.thread pc) } else img
  | none => img

theorem parseCommand_unixThread (bytes : List U8) (img : MachOImage) :
    parseCommand bytes off img .unixThread =
      runAt bytes (off + 8) readArm64ThreadPc >>= fun pc => pure (threadEntry img pc) := by
  rw [parseCommand]
  congr 1
  ext1 pc
  cases pc with
  | none => rfl
  | some pc =>
    rw [threadEntry]
    split_ifs
    · rfl
    · rfl

/-- One turn of the loop needs the fields of the command and one byte of its name, and is
decided by the command with the end of its name. -/
theorem readAt_parseCommand (hd : d.length < 2 ^ 64) (hoff : off + 8 ≤ d.length)
    (img : MachOImage) (c : LoadCommand) :
    ReadAt (fun d => parseCommand d off img c) d off (taken d off 1 c)
      (taken d off (nameLength d off + 1) c) := by
  cases c with
  | segment64 =>
    have htakes : TakesAt readSegment d (off + 8) _ := takesAt_readSegment hd
    have h := (readAt_runAt htakes).map
      fun seg => { img with segments := img.segments ++ [seg] }
    rwa [Nat.add_assoc off 8 56, ← Nat.add_assoc 8 64] at h
  | loadDylib => exact readAt_parseDylib hd false false img
  | loadWeakDylib => exact readAt_parseDylib hd true false img
  | reexportDylib => exact readAt_parseDylib hd false true img
  | loadDylinker =>
    have hname : ReadAt (readName off) d off _ _ := readAt_readName hd
    have h := hname.map fun path => { img with dylinker := some path }
    simpa only [parseCommand, taken, readName, bind_assoc] using h
  | main =>
    have htakes : TakesAt (do
        let fileOffset ← u64Le
        let stackSize ← u64Le
        return (fileOffset, stackSize)) d (off + 8) (8 + 8) :=
      (takesAt_u64Le hd).bind fun _ _ => (takesAt_u64Le hd).map _
    exact (readAt_runAt htakes).map fun p => { img with entry := some (.main p.1 p.2) }
  | unixThread =>
    have htakes : TakesAt readArm64ThreadPc d (off + 8) _ := takesAt_readArm64ThreadPc hd
    have h := (readAt_runAt htakes).map (threadEntry img)
    rw [taken, taken]
    split_ifs at h ⊢ with harm
    · simpa only [parseCommand_unixThread] using h
    · simpa only [parseCommand_unixThread] using h
  | symtab => exact (readAt_runAt (takesAt_readSymtab hd)).map _
  | dyldInfo => exact (readAt_runAt (takesAt_readDyldInfo hd)).map _
  | encryptionInfo64 => exact (readAt_runAt (takesAt_readEncryption hd)).map _
  | uuid => exact (readAt_runAt (takesAt_take hd)).map _
  | functionStarts =>
    have htakes : TakesAt (do
        let off ← u32Le
        let size ← u32Le
        return (off, size)) d (off + 8) (4 + 4) :=
      (takesAt_u32Le hd).bind fun _ _ => (takesAt_u32Le hd).map _
    exact (readAt_runAt htakes).map fun p => { img with functionStarts := some (p.1, p.2) }
  | versionMinIphoneos => exact (readAt_runAt (takesAt_u32Le hd)).map _
  | other =>
    exact ⟨⟨fun _ => hoff, fun _ => ⟨img, rfl⟩⟩, (fun h => by cases h), fun _ _ => rfl⟩

end ReadAt

end MachOImage

end IosEmu
