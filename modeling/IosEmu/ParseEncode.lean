import IosEmu.Encode

/-!
# Parsing undoes encoding

The records of a file are read back one by one. The parser walks from record to record with
the image of the commands it has passed in hand : `parseCommand_encode` is one turn of its
loop, from the image of a list of commands to the image of the list with one command more,
and `parseCommands_encode` the whole walk. `ImageFile.parse_encode` is the round trip.
-/

open SysLib

namespace IosEmu

open Reader

/-! ## Records -/

theorem setWidth_eq_bits : ∀ w : BitVec 3, w.setWidth 8 =
    (if w.getLsbD 0 then 1#8 else 0#8) ||| (if w.getLsbD 1 then 2#8 else 0#8) |||
      (if w.getLsbD 2 then 4#8 else 0#8) := by
  decide

/-- The mask of the parser keeps the three bits. -/
theorem fromVmProt_eq_vmProtBits (v : U32) : Protection.fromVmProt v = vmProtBits v := by
  have hlow : v &&& 0b111 = (v.setWidth 3).setWidth 32 := by
    apply BitVec.eq_of_toNat_eq
    simp only [BitVec.toNat_and, BitVec.toNat_setWidth]
    rw [Nat.mod_eq_of_lt (by omega : v.toNat % 2 ^ 3 < 2 ^ 32)]
    exact Nat.and_two_pow_sub_one_eq_mod v.toNat 3
  have hbits := setWidth_eq_bits (v.setWidth 3)
  simp only [BitVec.getLsbD_setWidth, Nat.reduceLT, decide_true, Bool.true_and] at hbits
  rw [Protection.fromVmProt, hlow, BitVec.setWidth_setWidth_of_le _ (by omega)]
  exact congrArg Protection.mk hbits

theorem decodes_readSections : ∀ l : List SectionRecord,
    Decodes (readSections l.length) (l.flatMap SectionRecord.encode) (l.map SectionRecord.sect)
  | [] => decodes_pure []
  | s :: l => by
    rw [List.flatMap_cons, List.map_cons, List.length_cons, readSections, SectionRecord.encode]
    simp only [List.append_assoc]
    refine (decodes_fixedStr s.name).bind ?_
    refine (decodes_fixedStr s.segName).bind ?_
    refine (decodes_u64Le s.addr).bind ?_
    refine (decodes_u64Le s.size).bind ?_
    refine (decodes_u32Le s.offset).bind ?_
    refine (decodes_u32Le s.align).bind ?_
    refine (decodes_u32Le s.reloff).bind ?_
    refine (decodes_u32Le s.nreloc).bind ?_
    refine (decodes_u32Le s.flags).bind ?_
    refine (decodes_u32Le s.reserved1).bind ?_
    refine (decodes_u32Le s.reserved2).bind ?_
    refine (decodes_u32Le s.reserved3).bind ?_
    exact (decodes_readSections l).map (s.sect :: ·)

theorem decodes_readSegment (s : SegmentRecord) (h : s.encode.length < 2 ^ 32) :
    Decodes readSegment s.encode s.segment := by
  have hcount : (BitVec.ofNat 32 s.sections.length).toNat = s.sections.length := by
    rw [BitVec.toNat_ofNat, Nat.mod_eq_of_lt (s.length_sections_le.trans_lt h)]
  rw [SegmentRecord.encode, readSegment]
  refine (decodes_fixedStr s.name).bind ?_
  refine (decodes_u64Le s.vmaddr).bind ?_
  refine (decodes_u64Le s.vmsize).bind ?_
  refine (decodes_u64Le s.fileoff).bind ?_
  refine (decodes_u64Le s.filesize).bind ?_
  refine (decodes_u32Le s.maxprot).bind ?_
  refine (decodes_u32Le s.initprot).bind ?_
  refine (decodes_u32Le _).bind ?_
  refine (decodes_u32Le s.flags).bind ?_
  rw [hcount, SegmentRecord.segment, ← fromVmProt_eq_vmProtBits, ← fromVmProt_eq_vmProtBits]
  exact (decodes_readSections s.sections).map _

/-- The program counter stands after 32 registers. -/
theorem decodes_readArm64ThreadPc (t : ThreadState64) :
    Decodes readArm64ThreadPc (toLeBytes32 6 ++ (toLeBytes32 68 ++
      (t.registers.flatMap toLeBytes64 ++ toLeBytes64 t.pc))) (some t.pc) := by
  have hregs : (t.registers.flatMap toLeBytes64).length = 8 * 32 := by
    simp [List.length_flatMap, List.map_const', t.length_registers]
  rw [readArm64ThreadPc]
  refine (decodes_u32Le 6).bind ?_
  refine (decodes_u32Le 68).bind ?_
  rw [if_neg (by simp)]
  refine (decodes_skip hregs).bind ?_
  exact (decodes_u64Le t.pc).map some

theorem decodes_readArm64ThreadPc_none {flavor count : U32} (h : flavor ≠ 6 ∨ count ≠ 68) :
    Decodes readArm64ThreadPc (toLeBytes32 flavor ++ toLeBytes32 count) none := by
  rw [readArm64ThreadPc, ← List.append_nil (toLeBytes32 count)]
  refine (decodes_u32Le flavor).bind ?_
  refine (decodes_u32Le count).bind ?_
  rw [if_pos h]
  exact decodes_pure none

theorem decodes_readSymtab (info : SymtabInfo) :
    Decodes readSymtab (toLeBytes32 info.symoff ++ (toLeBytes32 info.nsyms ++
      (toLeBytes32 info.stroff ++ toLeBytes32 info.strsize))) info := by
  rw [readSymtab]
  refine (decodes_u32Le info.symoff).bind ?_
  refine (decodes_u32Le info.nsyms).bind ?_
  refine (decodes_u32Le info.stroff).bind ?_
  exact (decodes_u32Le info.strsize).map _

theorem decodes_readEncryption (info : Encryption) :
    Decodes readEncryption (toLeBytes32 info.cryptoff ++ (toLeBytes32 info.cryptsize ++
      toLeBytes32 info.cryptid)) info := by
  rw [readEncryption]
  refine (decodes_u32Le info.cryptoff).bind ?_
  refine (decodes_u32Le info.cryptsize).bind ?_
  exact (decodes_u32Le info.cryptid).map _

theorem decodes_main (fileOffset stackSize : U64) :
    Decodes (do
      let fileOffset ← u64Le
      let stackSize ← u64Le
      return (fileOffset, stackSize))
      (toLeBytes64 fileOffset ++ toLeBytes64 stackSize) (fileOffset, stackSize) := by
  refine (decodes_u64Le fileOffset).bind ?_
  exact (decodes_u64Le stackSize).map _

theorem decodes_functionStarts (off size : U32) :
    Decodes (do
      let off ← u32Le
      let size ← u32Le
      return (off, size)) (toLeBytes32 off ++ toLeBytes32 size) (off, size) := by
  refine (decodes_u32Le off).bind ?_
  exact (decodes_u32Le size).map _

namespace MachOImage

theorem decodes_readCommand (r : CommandRecord) :
    Decodes readCommand (toLeBytes32 r.command.cmd ++ toLeBytes32 (BitVec.ofNat 32 r.size))
      (r.command.cmd, BitVec.ofNat 32 r.size) := by
  rw [readCommand]
  refine (decodes_u32Le r.command.cmd).bind ?_
  exact (decodes_u32Le _).map _

theorem decodes_readHeader (w : HeaderWords) (ncmds sizeofcmds : ℕ) :
    Decodes readHeader (ImageFile.encodeHeader w ncmds sizeofcmds)
      (w.cpuSubtype, w.filetype, BitVec.ofNat 32 ncmds, w.flags) := by
  rw [readHeader, ImageFile.encodeHeader]
  refine (decodes_u32Le 0xfeedfacf).bind ?_
  simp only [ne_eq, not_true_eq_false, if_false]
  refine (decodes_u32Le 0x0100000c).bind ?_
  simp only [not_true_eq_false, if_false]
  refine (decodes_u32Le w.cpuSubtype).bind ?_
  refine (decodes_u32Le w.filetype).bind ?_
  refine (decodes_u32Le (BitVec.ofNat 32 ncmds)).bind ?_
  refine (decodes_u32Le (BitVec.ofNat 32 sizeofcmds)).bind ?_
  refine (decodes_u32Le w.flags).bind ?_
  exact (decodes_u32Le w.reserved).map _

/-! ## One command -/

variable {before rest : List U8} {r : CommandRecord}

/-- A record is two words and its body, and its body starts eight bytes in. -/
theorem append_encode (before rest : List U8) (r : CommandRecord) :
    before ++ (r.encode ++ rest) =
      (before ++ (toLeBytes32 r.command.cmd ++ toLeBytes32 (BitVec.ofNat 32 r.size))) ++
        (r.command.body ++ (r.pad ++ rest)) := by
  simp [CommandRecord.encode]

/-- What a reader makes of the front of the body of a record. -/
theorem runAt_body {α : Type} {x : Reader α} {l : List U8} {a : α} (more : List U8)
    (h : Decodes x l a) (hbody : r.command.body = l ++ more)
    (hlen : (before ++ (r.encode ++ rest)).length < 2 ^ 64) :
    runAt (before ++ (r.encode ++ rest)) (before.length + 8) x = .ok a := by
  have hpos : before.length + 8 =
      (before ++ (toLeBytes32 r.command.cmd ++ toLeBytes32 (BitVec.ofNat 32 r.size))).length := by
    simp
  rw [append_encode, hbody, List.append_assoc l] at hlen ⊢
  rw [hpos]
  exact h.runAt _ hlen

/-- A string in the body of a record, at the offset `8 + front.length` of the record. -/
theorem readLcStr_body {front : List U8} {path : AsciiText} {nameOff : ℕ}
    (hbody : r.command.body = front ++ (asciiBytes path.text ++ [0]))
    (hoff : nameOff = 8 + front.length)
    (hlen : (before ++ (r.encode ++ rest)).length < 2 ^ 64) :
    readLcStr (before ++ (r.encode ++ rest)) before.length nameOff = .ok path.text := by
  have hsplit : before ++ (r.encode ++ rest) =
      (before ++ (toLeBytes32 r.command.cmd ++ toLeBytes32 (BitVec.ofNat 32 r.size)) ++ front) ++
        (asciiBytes path.text ++ 0 :: (r.pad ++ rest)) := by
    rw [append_encode, hbody]
    simp
  have hpos : before.length + nameOff =
      (before ++ (toLeBytes32 r.command.cmd ++ toLeBytes32 (BitVec.ofNat 32 r.size)) ++
        front).length := by
    simp only [List.length_append, length_toLeBytes32]
    omega
  have hdrop : (before ++ (r.encode ++ rest)).drop (before.length + nameOff) =
      asciiBytes path.text ++ 0 :: (r.pad ++ rest) := by
    rw [hsplit, hpos, List.drop_left]
  have hlt : before.length + nameOff < (before ++ (r.encode ++ rest)).length := by
    rw [hsplit, hpos]
    simp only [List.length_append, List.length_cons]
    omega
  unfold readLcStr
  rw [if_neg (by omega), if_neg (by omega), hdrop, cstring_ascii path.ascii]

/-- A path in a record is found through the offset that stands before it. -/
theorem path_encode {front : List U8} {path : AsciiText}
    (hbody : r.command.body = toLeBytes32 (BitVec.ofNat 32 (12 + front.length)) ++
      (front ++ (asciiBytes path.text ++ [0])))
    (hlen : (before ++ (r.encode ++ rest)).length < 2 ^ 64) :
    ∃ nameOff, runAt (before ++ (r.encode ++ rest)) (before.length + 8) u32Le = .ok nameOff ∧
      readLcStr (before ++ (r.encode ++ rest)) before.length nameOff.toNat = .ok path.text := by
  have hsmall : 12 + front.length < 2 ^ 32 := by
    have hfits := r.fits
    rw [hbody] at hfits
    simp only [List.length_append, length_toLeBytes32, List.length_singleton] at hfits
    omega
  refine ⟨_, runAt_body _ (decodes_u32Le _) hbody hlen, ?_⟩
  rw [BitVec.toNat_ofNat, Nat.mod_eq_of_lt hsmall]
  refine readLcStr_body (hbody.trans (List.append_assoc _ _ _).symm) ?_ hlen
  rw [List.length_append, length_toLeBytes32]
  omega

/-- The number of a command that is not told apart. -/
theorem ofWord_of_unknown {cmd : U32} (h : cmd ∉ knownCommands) :
    LoadCommand.ofWord cmd = .other := by
  simp only [knownCommands, List.mem_cons, List.not_mem_nil, or_false, not_or,
    ← BitVec.toNat_inj] at h
  unfold LoadCommand.ofWord
  split <;> simp_all

open ImageFile

theorem getLast?_append_toList {α : Type} (l : List α) (o : Option α) :
    (l ++ o.toList).getLast? = o.or l.getLast? := by
  cases o <;> simp

theorem head?_append_toList {α : Type} (l : List α) (o : Option α) :
    (l ++ o.toList).head? = l.head?.or o := by
  cases o <;> simp

/-- The image of a list with one command more. -/
theorem imageOf_concat (w : HeaderWords) (l : List Command) (c : Command) :
    imageOf w (l ++ [c]) =
      { imageOf w l with
        segments := (imageOf w l).segments ++ c.segment?.toList
        dylibs := (imageOf w l).dylibs ++ c.dylib?.toList
        dylinker := c.dylinker?.or (imageOf w l).dylinker
        entry := c.main?.or ((imageOf w l).entry.or c.thread64?)
        symtab := c.symtab?.or (imageOf w l).symtab
        encryption := c.encryption?.or (imageOf w l).encryption
        uuid := c.uuid?.or (imageOf w l).uuid
        functionStarts := c.functionStarts?.or (imageOf w l).functionStarts
        minOsVersion := c.versionMinIphoneos?.or (imageOf w l).minOsVersion } := by
  have hconcat : ∀ {α : Type} (f : Command → Option α),
      (l ++ [c]).filterMap f = l.filterMap f ++ (f c).toList := by
    intro α f
    rw [List.filterMap_append]
    cases h : f c <;> simp [h]
  simp only [imageOf, hconcat, getLast?_append_toList, head?_append_toList, Option.or_assoc]

/-- A dylib command of any kind is read back. -/
theorem parseDylib_encode {kind : DylibKind} {t cv pv : U32} {gap : List U8} {path : AsciiText}
    (hr : r.command = .dylib kind t cv pv gap path) (weak reexport : Bool) (img : MachOImage)
    (hlen : (before ++ (r.encode ++ rest)).length < 2 ^ 64) :
    parseDylib (before ++ (r.encode ++ rest)) before.length weak reexport img =
      .ok { img with dylibs := img.dylibs ++ [⟨path.text, weak, reexport⟩] } := by
  have hbody : r.command.body =
      toLeBytes32 (BitVec.ofNat 32 (12 + (toLeBytes32 t ++ (toLeBytes32 cv ++ (toLeBytes32 pv ++
        gap))).length)) ++ ((toLeBytes32 t ++ (toLeBytes32 cv ++ (toLeBytes32 pv ++ gap))) ++
        (asciiBytes path.text ++ [0])) := by
    have hoff : 12 + (toLeBytes32 t ++ (toLeBytes32 cv ++ (toLeBytes32 pv ++ gap))).length =
        24 + gap.length := by
      simp only [List.length_append, length_toLeBytes32]
      omega
    rw [hr, hoff]
    simp [Command.body]
  obtain ⟨nameOff, hoff, hpath⟩ := path_encode hbody hlen
  rw [parseDylib, hoff]
  simp only [hpath, bind, Except.bind, pure, Except.pure]

/-- One turn of the loop : the image of the commands so far becomes the image with this one. -/
theorem parseCommand_encode (w : HeaderWords) (l : List Command)
    (hlen : (before ++ (r.encode ++ rest)).length < 2 ^ 64) :
    parseCommand (before ++ (r.encode ++ rest)) before.length (imageOf w l)
      (.ofWord r.command.cmd) = .ok (imageOf w (l ++ [r.command])) := by
  have hfits := r.fits
  rcases hr : r.command with s | ⟨kind, t, cv, pv, gap, path⟩ | ⟨gap, path⟩ | ⟨off, size⟩ | state |
    ⟨flavor, count, state, hother⟩ | info | ⟨info, pad⟩ | ⟨raw, hraw⟩ | ⟨off, size⟩ |
    ⟨version, sdk⟩ | ⟨cmd, body, hcmd⟩
  · have hread := runAt_body (r := r) []
      (decodes_readSegment s (by rw [hr] at hfits; change 8 + (s.encode.length + _) < _ at hfits; omega))
      (by rw [hr, List.append_nil]; rfl) hlen
    change parseCommand _ _ _ .segment64 = _
    simp [parseCommand, hread, imageOf_concat, bind, Except.bind, pure, Except.pure]
  · cases kind
    · change parseDylib _ _ _ _ _ = _
      rw [parseDylib_encode hr _ _ _ hlen]
      simp [imageOf_concat]
    · change parseDylib _ _ _ _ _ = _
      rw [parseDylib_encode hr _ _ _ hlen]
      simp [imageOf_concat]
    · change parseDylib _ _ _ _ _ = _
      rw [parseDylib_encode hr _ _ _ hlen]
      simp [imageOf_concat]
  · obtain ⟨nameOff, hoff, hpath⟩ := path_encode (r := r) (by rw [hr]; rfl) hlen
    change parseCommand _ _ _ .loadDylinker = _
    simp [parseCommand, hoff, hpath, imageOf_concat, bind, Except.bind, pure, Except.pure]
  · have hread := runAt_body (r := r) [] (decodes_main off size)
      (by rw [hr, List.append_nil]; rfl) hlen
    change parseCommand _ _ _ .main = _
    rw [parseCommand, hread, imageOf_concat]
    simp [bind, Except.bind, pure, Except.pure]
  · have hread := runAt_body (r := r) (toLeBytes32 state.cpsr ++ toLeBytes32 state.flags)
      (decodes_readArm64ThreadPc state)
      (by rw [hr]; simp [Command.body, ThreadState64.encode]) hlen
    change parseCommand _ _ _ .unixThread = _
    simp only [parseCommand, hread, imageOf_concat, bind, Except.bind, pure, Except.pure]
    rcases imageOf w l with ⟨_, _, _, _, _, _, entry, _, _, _, _, _, _⟩
    cases entry <;> simp
  · have hread := runAt_body (r := r) state (decodes_readArm64ThreadPc_none hother)
      (by rw [hr]; simp [Command.body]) hlen
    change parseCommand _ _ _ .unixThread = _
    simp [parseCommand, hread, imageOf_concat, bind, Except.bind, pure, Except.pure]
  · have hread := runAt_body (r := r) [] (decodes_readSymtab info)
      (by rw [hr, List.append_nil]; rfl) hlen
    change parseCommand _ _ _ .symtab = _
    simp [parseCommand, hread, imageOf_concat, bind, Except.bind, pure, Except.pure]
  · have hread := runAt_body (r := r) (toLeBytes32 pad) (decodes_readEncryption info)
      (by rw [hr]; simp [Command.body]) hlen
    change parseCommand _ _ _ .encryptionInfo64 = _
    simp [parseCommand, hread, imageOf_concat, bind, Except.bind, pure, Except.pure]
  · have hread := runAt_body (r := r) [] (decodes_take hraw)
      (by rw [hr, List.append_nil]; rfl) hlen
    change parseCommand _ _ _ .uuid = _
    simp [parseCommand, hread, imageOf_concat, bind, Except.bind, pure, Except.pure]
  · have hread := runAt_body (r := r) [] (decodes_functionStarts off size)
      (by rw [hr, List.append_nil]; rfl) hlen
    change parseCommand _ _ _ .functionStarts = _
    rw [parseCommand, hread, imageOf_concat]
    simp [bind, Except.bind, pure, Except.pure]
  · have hread := runAt_body (r := r) (toLeBytes32 sdk) (decodes_u32Le version)
      (by rw [hr]; rfl) hlen
    change parseCommand _ _ _ .versionMinIphoneos = _
    simp [parseCommand, hread, imageOf_concat, bind, Except.bind, pure, Except.pure]
  · change parseCommand _ _ _ (.ofWord cmd) = _
    rw [ofWord_of_unknown hcmd]
    simp [parseCommand, imageOf_concat, pure, Except.pure]

/-! ## The walk -/

/-- The walk over the records of a file, from the image of the commands before. -/
theorem parseCommands_encode (w : HeaderWords) (rest : List U8) :
    ∀ (l : List CommandRecord) (i : ℕ) (before : List U8) (done : List Command),
      (before ++ (l.flatMap CommandRecord.encode ++ rest)).length < 2 ^ 64 →
      parseCommands (before ++ (l.flatMap CommandRecord.encode ++ rest)) l.length i before.length
        (imageOf w done) = .ok (imageOf w (done ++ l.map CommandRecord.command))
  | [], i, before, done, _ => by simp [parseCommands]
  | r :: l, i, before, done, hlen => by
    have hsize : (BitVec.ofNat 32 r.size).toNat = r.size := by
      rw [BitVec.toNat_ofNat]
      exact Nat.mod_eq_of_lt r.fits
    have hencode : (before ++ r.encode).length = before.length + r.size := by
      simp only [CommandRecord.encode, CommandRecord.size, List.length_append, length_toLeBytes32]
      omega
    rw [List.flatMap_cons, List.append_assoc] at hlen ⊢
    have hread : runAt (before ++ (r.encode ++ (l.flatMap CommandRecord.encode ++ rest)))
        before.length readCommand = .ok (r.command.cmd, BitVec.ofNat 32 r.size) := by
      rw [CommandRecord.encode, ← List.append_assoc (toLeBytes32 _), List.append_assoc] at hlen ⊢
      exact (decodes_readCommand r).runAt _ hlen
    have hnext : before.length + r.size < 2 ^ 64 := by
      rw [← hencode]
      simp only [List.length_append] at hlen ⊢
      omega
    have hwide : 8 ≤ r.size := Nat.le_add_right _ _
    have ih := parseCommands_encode w rest l (i + 1) (before ++ r.encode)
      (done ++ [r.command]) (by rwa [List.append_assoc])
    rw [List.append_assoc, hencode] at ih
    rw [List.length_cons, parseCommands, hread]
    change (if (BitVec.ofNat 32 r.size).toNat < 8 then _ else _) = _
    rw [hsize, if_neg (by omega), parseCommand_encode w done hlen]
    change (if 2 ^ 64 ≤ before.length + r.size then _ else _) = _
    rw [if_neg (by omega), ih, List.append_assoc]
    rfl

end MachOImage

namespace ImageFile

theorem length_encodeHeader (w : HeaderWords) (ncmds sizeofcmds : ℕ) :
    (encodeHeader w ncmds sizeofcmds).length = 32 := by
  simp [encodeHeader]

/-- Some command of the file is a segment. -/
theorem image_segments_ne_nil (f : ImageFile) : f.image.segments ≠ [] := by
  obtain ⟨r, hr, hseg⟩ := f.hasSegment
  obtain ⟨s, hs⟩ := Option.isSome_iff_exists.1 hseg
  refine List.ne_nil_of_mem (a := s) (List.mem_filterMap.2 ⟨r.command, ?_, hs⟩)
  exact List.mem_map_of_mem hr

theorem imageOf_nil (w : HeaderWords) :
    imageOf w [] = MachOImage.blank w.cpuSubtype w.filetype w.flags :=
  rfl

theorem parseThin_encode (f : ImageFile) (rest : List U8)
    (hlen : (f.encode ++ rest).length < 2 ^ 64) :
    MachOImage.parseThin (f.encode ++ rest) 0 = .ok f.image := by
  have hcount : (BitVec.ofNat 32 f.records.length).toNat = f.records.length := by
    rw [BitVec.toNat_ofNat, Nat.mod_eq_of_lt f.few]
  rw [encode, List.append_assoc] at hlen ⊢
  have hheader := (MachOImage.decodes_readHeader f.header f.records.length _).runAt
    [] hlen
  have hwalk := MachOImage.parseCommands_encode f.header rest f.records 0 _ [] hlen
  rw [length_encodeHeader, imageOf_nil] at hwalk
  rw [MachOImage.parseThin, List.nil_append, List.length_nil] at *
  rw [hheader]
  simp only [bind, Except.bind, hcount, Nat.zero_add, hwalk]
  exact if_neg f.image_segments_ne_nil

/-- A file followed by any bytes parses to the image it describes. Byte strings in memory
have at most `isize::MAX` bytes. -/
theorem parse_encode (f : ImageFile) (rest : List U8)
    (hlen : (f.encode ++ rest).length ≤ isizeMax) :
    MachOImage.parse (f.encode ++ rest) = .ok f.image := by
  have hshort : (f.encode ++ rest).length < 2 ^ 64 := by
    unfold isizeMax at hlen
    omega
  have hthin := f.parseThin_encode rest hshort
  have hmagic : runAt (f.encode ++ rest) 0 u32Le = .ok 0xfeedfacf := by
    rw [encode, encodeHeader, List.append_assoc, List.append_assoc] at hshort ⊢
    exact (decodes_u32Le 0xfeedfacf).runAt [] hshort
  refine except_bind_eq_ok.2 ⟨_, hmagic, ?_⟩
  exact hthin

/-- The name `__TEXT`. -/
def textName : ShortName :=
  ⟨⟨"__TEXT", by decide⟩, by decide⟩

/-- A thread state before the segment, a weak dylib and an entry point after it. -/
def sampleFile : ImageFile where
  header := ⟨0, 2, 0x200085, 0⟩
  records :=
    [⟨.thread64 ⟨List.replicate 32 0, by decide, 0x100004000, 0, 0⟩, [], by decide +kernel⟩,
      ⟨.segment ⟨textName, 0x100000000, 0x4000, 0, 0x4000, 5, 5, 0,
        [⟨⟨⟨"__text", by decide⟩, by decide⟩, textName, 0x100001000, 8, 0x1000, 2, 0, 0, 0, 0,
          0, 0⟩]⟩, [], by decide +kernel⟩,
      ⟨.dylib .weak 2 1 1 [] ⟨"/usr/lib/libz.dylib", by decide⟩, [0, 0, 0, 0], by decide⟩,
      ⟨.main 0x1000 0, [], by decide⟩,
      ⟨.unknown 0x2b [1, 2, 3] (by decide), [], by decide⟩]
  few := by decide
  hasSegment := ⟨_, List.mem_cons_of_mem _ List.mem_cons_self, rfl⟩

theorem parse_encode_sampleFile :
    (sampleFile.encode ++ [1, 2, 3]).length ≤ isizeMax ∧
      MachOImage.parse (sampleFile.encode ++ [1, 2, 3]) = .ok sampleFile.image :=
  ⟨by decide +kernel, parse_encode sampleFile [1, 2, 3] (by decide +kernel)⟩

end ImageFile

end IosEmu
