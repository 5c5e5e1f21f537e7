import IosEmu.LoadCommands

/-!
# Images as files

The layout of a thin file, as `<mach-o/loader.h>` has it : a header of eight words, then the
load commands, each with its number, its size and a body. `ImageFile.encode` writes a list
of commands down, and `ImageFile.image` says what there is to read in it : the segments,
sections and dylibs in the order of the commands, the last value of every command that
should occur once, and the entry point of the last `LC_MAIN`, or else of the first arm64
`LC_UNIXTHREAD`.

A reader `Decodes` a byte string to a value when it takes exactly that string wherever it
finds it. The property goes through sequencing, so it is proved for the words and names and
then for one record after the other. The loop of the parser keeps the image of the commands
it has passed (`parseCommand_encode`), and `parse_encode` puts the two together.
-/

open SysLib

namespace IosEmu

open Reader

/-! ## Text -/

/-- Every character is in the ASCII range and none is NUL. -/
def IsAscii (s : String) : Prop :=
  ∀ c ∈ s.toList, 0 < c.toNat ∧ c.toNat < 0x80

instance decidableIsAscii (s : String) : Decidable (IsAscii s) :=
  List.decidableBAll (fun c : Char => 0 < c.toNat ∧ c.toNat < 0x80) s.toList

/-- A NUL-free ASCII string, such as a path. -/
structure AsciiText where
  text : String
  ascii : IsAscii text

/-- The name of a segment or a section. -/
structure ShortName extends AsciiText where
  short : text.toList.length ≤ 16

/-- One byte for each character. -/
def asciiBytes (s : String) : List U8 :=
  s.toList.map fun c => BitVec.ofNat 8 c.toNat

/-- A name, padded with NULs to its field. -/
def ShortName.field (n : ShortName) : List U8 :=
  asciiBytes n.text ++ List.replicate (16 - n.text.toList.length) 0

@[simp] theorem length_asciiBytes (s : String) : (asciiBytes s).length = s.toList.length :=
  List.length_map _

@[simp] theorem ShortName.length_field (n : ShortName) : n.field.length = 16 := by
  have := n.short
  rw [field, List.length_append, length_asciiBytes, List.length_replicate]
  omega

/-- An ASCII character is decoded from its one byte. -/
theorem utf8Head_ascii {c : Char} (hc : c.toNat < 0x80) (l : List U8) :
    utf8Head (BitVec.ofNat 8 c.toNat :: l) = some (c, 1) := by
  have hbyte : (BitVec.ofNat 8 c.toNat).toNat = c.toNat := by
    rw [BitVec.toNat_ofNat]
    omega
  simp only [utf8Head, hbyte, if_pos hc, Char.ofNat_toNat]

theorem utf8Chars_ascii : ∀ {l : List Char}, (∀ c ∈ l, c.toNat < 0x80) →
    utf8Chars l.length (l.map fun c => BitVec.ofNat 8 c.toNat) = l
  | [], _ => rfl
  | c :: l, h => by
    rw [List.length_cons, List.map_cons, utf8Chars, utf8Head_ascii (h c List.mem_cons_self)]
    simp only [List.drop_succ_cons, List.drop_zero, List.cons.injEq, true_and]
    exact utf8Chars_ascii fun d hd => h d (List.mem_cons_of_mem c hd)

theorem fromUtf8Lossy_ascii {s : String} (h : IsAscii s) : fromUtf8Lossy (asciiBytes s) = s := by
  rw [fromUtf8Lossy, length_asciiBytes, asciiBytes, utf8Chars_ascii fun c hc => (h c hc).2,
    String.ofList_toList]

/-- The bytes of an ASCII string end at the first NUL after them. -/
theorem takeWhile_ascii {s : String} (h : IsAscii s) {rest : List U8}
    (hrest : rest.takeWhile (· ≠ 0) = []) :
    (asciiBytes s ++ rest).takeWhile (· ≠ 0) = asciiBytes s := by
  rw [List.takeWhile_append_of_pos, hrest, List.append_nil]
  intro b hb
  obtain ⟨c, hc, rfl⟩ := List.mem_map.1 hb
  have hlow := h c hc
  rw [decide_eq_true_iff, ne_eq, ← BitVec.toNat_inj, BitVec.toNat_ofNat]
  change ¬ c.toNat % 256 = 0
  omega

theorem cstring_ascii {s : String} (h : IsAscii s) (rest : List U8) :
    cstring (asciiBytes s ++ 0 :: rest) = s := by
  rw [cstring, takeWhile_ascii h (by simp), fromUtf8Lossy_ascii h]

theorem ShortName.cstring_field (n : ShortName) : cstring n.field = n.text := by
  rw [cstring, field, takeWhile_ascii n.ascii, fromUtf8Lossy_ascii n.ascii]
  cases 16 - n.text.toList.length <;> simp [List.replicate_succ]

/-! ## Readers that take a given string -/

namespace Reader

variable {α β : Type}

/-- The reader takes the string `l` and returns `a`, whatever stands before and after it. -/
def Decodes (x : Reader α) (l : List U8) (a : α) : Prop :=
  ∀ before rest : List U8, (before ++ (l ++ rest)).length < 2 ^ 64 →
    x (before ++ (l ++ rest)) before.length = .ok (a, (before ++ l).length)

theorem decodes_pure (a : α) : Decodes (pure a) [] a := by
  intro before rest _
  rw [List.append_nil]
  rfl

theorem Decodes.bind {x : Reader α} {f : α → Reader β} {l l' : List U8} {a : α} {b : β}
    (hx : Decodes x l a) (hf : Decodes (f a) l' b) : Decodes (x >>= f) (l ++ l') b := by
  intro before rest hlen
  rw [List.append_assoc] at hlen ⊢
  refine bind_eq_ok.2 ⟨a, (before ++ l).length, hx before (l' ++ rest) hlen, ?_⟩
  have h := hf (before ++ l) rest (by rwa [List.append_assoc])
  rwa [List.append_assoc, List.append_assoc] at h

/-- What is computed from the last value read takes no more bytes. -/
theorem Decodes.map {x : Reader α} {l : List U8} {a : α} (f : α → β) (hx : Decodes x l a) :
    Decodes (x >>= fun a => pure (f a)) l (f a) := by
  have h := hx.bind (f := fun a => pure (f a)) (decodes_pure (f a))
  rwa [List.append_nil] at h

theorem decodes_take {n : ℕ} {l : List U8} (h : l.length = n) : Decodes (take n) l l := by
  intro before rest hlen
  simp only [List.length_append] at hlen
  refine take_eq_ok.2 ⟨by omega, ?_, ?_, ?_⟩
  · simp only [List.length_append]
    omega
  · rw [List.drop_left, ← h, List.take_left]
  · rw [List.length_append, h]

theorem decodes_skip {n : ℕ} {l : List U8} (h : l.length = n) : Decodes (skip n) l () := by
  intro before rest hlen
  simp only [List.length_append] at hlen
  unfold skip
  rw [if_neg (by omega), if_neg (by simp only [List.length_append]; omega), List.length_append, h]

theorem decodes_u32Le (v : U32) : Decodes u32Le (toLeBytes32 v) v := by
  have h := (decodes_take (length_toLeBytes32 v)).map (fromLeBytes 32)
  rwa [fromLeBytes_toLeBytes32] at h

theorem decodes_u64Le (v : U64) : Decodes u64Le (toLeBytes64 v) v := by
  have h := (decodes_take (length_toLeBytes64 v)).map (fromLeBytes 64)
  rwa [fromLeBytes_toLeBytes64] at h

theorem decodes_fixedStr (n : ShortName) : Decodes (fixedStr 16) n.field n.text := by
  have h := (decodes_take n.length_field).map cstring
  rwa [n.cstring_field] at h

theorem Decodes.runAt {x : Reader α} {l : List U8} {a : α} (h : Decodes x l a)
    (before : List U8) {rest : List U8} (hlen : (before ++ (l ++ rest)).length < 2 ^ 64) :
    Reader.runAt (before ++ (l ++ rest)) before.length x = .ok a := by
  refine runAt_eq_ok.2 ⟨?_, _, h before rest hlen⟩
  rw [List.length_append]
  omega

end Reader

/-! ## Records -/

/-- The read, write and execute bits of a `vm_prot_t`. -/
def vmProtBits (v : U32) : Protection :=
  ⟨(if v.getLsbD 0 then 1 else 0) ||| (if v.getLsbD 1 then 2 else 0) |||
    (if v.getLsbD 2 then 4 else 0)⟩

/-- `section_64`. -/
structure SectionRecord where
  name : ShortName
  segName : ShortName
  addr : U64
  size : U64
  offset : U32
  align : U32
  reloff : U32
  nreloc : U32
  flags : U32
  reserved1 : U32
  reserved2 : U32
  reserved3 : U32

/-- `segment_command_64`, with the sections that follow it. -/
structure SegmentRecord where
  name : ShortName
  vmaddr : U64
  vmsize : U64
  fileoff : U64
  filesize : U64
  maxprot : U32
  initprot : U32
  flags : U32
  sections : List SectionRecord

/-- `arm_thread_state64_t`. The registers are `x0` to `x28`, `fp`, `lr` and `sp`. -/
structure ThreadState64 where
  registers : List U64
  length_registers : registers.length = 32
  pc : U64
  cpsr : U32
  flags : U32

namespace SectionRecord

def encode (s : SectionRecord) : List U8 :=
  s.name.field ++ (s.segName.field ++ (toLeBytes64 s.addr ++ (toLeBytes64 s.size ++
    (toLeBytes32 s.offset ++ (toLeBytes32 s.align ++ (toLeBytes32 s.reloff ++
    (toLeBytes32 s.nreloc ++ (toLeBytes32 s.flags ++ (toLeBytes32 s.reserved1 ++
    (toLeBytes32 s.reserved2 ++ toLeBytes32 s.reserved3))))))))))

/-- The section of the image. -/
def sect (s : SectionRecord) : Section :=
  { segName := s.segName.text, name := s.name.text, addr := s.addr, size := s.size,
    offset := s.offset, flags := s.flags }

theorem length_encode (s : SectionRecord) : s.encode.length = 80 := by
  simp [encode]

end SectionRecord

namespace SegmentRecord

def encode (s : SegmentRecord) : List U8 :=
  s.name.field ++ (toLeBytes64 s.vmaddr ++ (toLeBytes64 s.vmsize ++ (toLeBytes64 s.fileoff ++
    (toLeBytes64 s.filesize ++ (toLeBytes32 s.maxprot ++ (toLeBytes32 s.initprot ++
    (toLeBytes32 (BitVec.ofNat 32 s.sections.length) ++ (toLeBytes32 s.flags ++
    s.sections.flatMap SectionRecord.encode))))))))

/-- The segment of the image. -/
def segment (s : SegmentRecord) : Segment :=
  { name := s.name.text, vmaddr := s.vmaddr, vmsize := s.vmsize, fileoff := s.fileoff,
    filesize := s.filesize, initprot := vmProtBits s.initprot, maxprot := vmProtBits s.maxprot,
    sections := s.sections.map SectionRecord.sect }

/-- A segment has no more sections than bytes. -/
theorem length_sections_le (s : SegmentRecord) : s.sections.length ≤ s.encode.length := by
  have h : (s.sections.flatMap SectionRecord.encode).length = s.sections.length * 80 := by
    simp [List.length_flatMap, SectionRecord.length_encode, List.map_const']
  simp only [encode, List.length_append, h]
  omega

end SegmentRecord

def ThreadState64.encode (t : ThreadState64) : List U8 :=
  t.registers.flatMap toLeBytes64 ++ (toLeBytes64 t.pc ++ (toLeBytes32 t.cpsr ++
    toLeBytes32 t.flags))

/-- The numbers of the load commands that are read. -/
def knownCommands : List U32 :=
  [0x19, 0x0c, 0x80000018, 0x8000001f, 0x0e, 0x80000028, 0x05, 0x02, 0x22, 0x80000022, 0x2c,
    0x1b, 0x26, 0x25]

/-- How an image asks for a dylib. -/
inductive DylibKind
  | load
  | weak
  | reexport
  deriving DecidableEq

/-- A load command. The path of a dylib or a dynamic linker may stand at any distance after
the fixed fields. -/
inductive Command
  | segment (s : SegmentRecord)
  | dylib (kind : DylibKind) (timestamp currentVersion compatibilityVersion : U32)
      (gap : List U8) (path : AsciiText)
  | dylinker (gap : List U8) (path : AsciiText)
  | main (fileOffset stackSize : U64)
  | thread64 (state : ThreadState64)
  /-- A thread state of another flavour. -/
  | thread (flavor count : U32) (state : List U8) (h : flavor ≠ 6 ∨ count ≠ 68)
  | symtab (info : SymtabInfo)
  | encryption (info : Encryption) (reserved : U32)
  | uuid (bytes : List U8) (h : bytes.length = 16)
  | functionStarts (off size : U32)
  | versionMinIphoneos (version sdk : U32)
  /-- A command that is not told apart, with any body. -/
  | unknown (cmd : U32) (body : List U8) (h : cmd ∉ knownCommands)

namespace Command

/-- The `cmd` word. -/
def cmd : Command → U32
  | segment _ => 0x19
  | dylib .load _ _ _ _ _ => 0x0c
  | dylib .weak _ _ _ _ _ => 0x80000018
  | dylib .reexport _ _ _ _ _ => 0x8000001f
  | dylinker _ _ => 0x0e
  | main _ _ => 0x80000028
  | thread64 _ => 0x05
  | thread _ _ _ _ => 0x05
  | symtab _ => 0x02
  | encryption _ _ => 0x2c
  | uuid _ _ => 0x1b
  | functionStarts _ _ => 0x26
  | versionMinIphoneos _ _ => 0x25
  | unknown cmd _ _ => cmd

/-- What follows the `cmd` and `cmdsize` words. -/
def body : Command → List U8
  | segment s => s.encode
  | dylib _ timestamp currentVersion compatibilityVersion gap path =>
    toLeBytes32 (BitVec.ofNat 32 (24 + gap.length)) ++ (toLeBytes32 timestamp ++
      (toLeBytes32 currentVersion ++ (toLeBytes32 compatibilityVersion ++ (gap ++
      (asciiBytes path.text ++ [0])))))
  | dylinker gap path =>
    toLeBytes32 (BitVec.ofNat 32 (12 + gap.length)) ++ (gap ++ (asciiBytes path.text ++ [0]))
  | main fileOffset stackSize => toLeBytes64 fileOffset ++ toLeBytes64 stackSize
  | thread64 state => toLeBytes32 6 ++ (toLeBytes32 68 ++ state.encode)
  | thread flavor count state _ => toLeBytes32 flavor ++ (toLeBytes32 count ++ state)
  | symtab info => toLeBytes32 info.symoff ++ (toLeBytes32 info.nsyms ++
      (toLeBytes32 info.stroff ++ toLeBytes32 info.strsize))
  | encryption info reserved => toLeBytes32 info.cryptoff ++ (toLeBytes32 info.cryptsize ++
      (toLeBytes32 info.cryptid ++ toLeBytes32 reserved))
  | uuid bytes _ => bytes
  | functionStarts off size => toLeBytes32 off ++ toLeBytes32 size
  | versionMinIphoneos version sdk => toLeBytes32 version ++ toLeBytes32 sdk
  | unknown _ body _ => body

/-! What the command contributes to the image. -/

@[simp] def segment? : Command → Option Segment
  | segment s => some s.segment
  | _ => none

@[simp] def dylib? : Command → Option Dylib
  | dylib kind _ _ _ _ path => some ⟨path.text, kind = .weak, kind = .reexport⟩
  | _ => none

@[simp] def dylinker? : Command → Option String
  | dylinker _ path => some path.text
  | _ => none

@[simp] def main? : Command → Option EntryPoint
  | main fileOffset stackSize => some (.main fileOffset stackSize)
  | _ => none

@[simp] def thread64? : Command → Option EntryPoint
  | thread64 state => some (.thread state.pc)
  | _ => none

@[simp] def symtab? : Command → Option SymtabInfo
  | symtab info => some info
  | _ => none

@[simp] def encryption? : Command → Option Encryption
  | encryption info _ => some info
  | _ => none

@[simp] def uuid? : Command → Option (List U8)
  | uuid bytes _ => some bytes
  | _ => none

@[simp] def functionStarts? : Command → Option (U32 × U32)
  | functionStarts off size => some (off, size)
  | _ => none

@[simp] def versionMinIphoneos? : Command → Option U32
  | versionMinIphoneos version _ => some version
  | _ => none

end Command

/-- A load command as it stands in a file. Bytes may follow its body, and its size fits the
`cmdsize` word. -/
structure CommandRecord where
  command : Command
  pad : List U8
  fits : 8 + (command.body.length + pad.length) < 2 ^ 32

/-- The size of the record. -/
def CommandRecord.size (r : CommandRecord) : ℕ :=
  8 + (r.command.body.length + r.pad.length)

def CommandRecord.encode (r : CommandRecord) : List U8 :=
  toLeBytes32 r.command.cmd ++ (toLeBytes32 (BitVec.ofNat 32 r.size) ++
    (r.command.body ++ r.pad))

/-- The words of the header that are not determined by the commands. -/
structure HeaderWords where
  cpuSubtype : U32
  filetype : U32
  flags : U32
  reserved : U32

/-- A thin arm64 image as it stands in a file. -/
structure ImageFile where
  header : HeaderWords
  records : List CommandRecord
  few : records.length < 2 ^ 32
  hasSegment : ∃ r ∈ records, r.command.segment?.isSome

namespace ImageFile

/-- The image of the commands `l`. -/
def imageOf (header : HeaderWords) (l : List Command) : MachOImage where
  cpuSubtype := header.cpuSubtype
  filetype := header.filetype
  flags := header.flags
  segments := l.filterMap Command.segment?
  dylibs := l.filterMap Command.dylib?
  dylinker := (l.filterMap Command.dylinker?).getLast?
  entry := (l.filterMap Command.main?).getLast?.or (l.filterMap Command.thread64?).head?
  symtab := (l.filterMap Command.symtab?).getLast?
  dyldInfo := none
  encryption := (l.filterMap Command.encryption?).getLast?
  uuid := (l.filterMap Command.uuid?).getLast?
  functionStarts := (l.filterMap Command.functionStarts?).getLast?
  minOsVersion := (l.filterMap Command.versionMinIphoneos?).getLast?

/-- The image a file describes. -/
def image (f : ImageFile) : MachOImage :=
  imageOf f.header (f.records.map CommandRecord.command)

/-- `mach_header_64`. -/
def encodeHeader (header : HeaderWords) (ncmds sizeofcmds : ℕ) : List U8 :=
  toLeBytes32 0xfeedfacf ++ (toLeBytes32 0x0100000c ++ (toLeBytes32 header.cpuSubtype ++
    (toLeBytes32 header.filetype ++ (toLeBytes32 (BitVec.ofNat 32 ncmds) ++
    (toLeBytes32 (BitVec.ofNat 32 sizeofcmds) ++ (toLeBytes32 header.flags ++
    toLeBytes32 header.reserved))))))

/-- The bytes of a file. -/
def encode (f : ImageFile) : List U8 :=
  encodeHeader f.header f.records.length (f.records.flatMap CommandRecord.encode).length ++
    f.records.flatMap CommandRecord.encode

end ImageFile

end IosEmu
