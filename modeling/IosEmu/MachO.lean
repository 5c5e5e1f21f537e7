import IosEmu.Common
import IosEmu.Outcome
import IosEmu.Utf8

/-!
# Mach-O images

`MachOImage.parse` reads a thin arm64 file, or the arm64 slice of a universal one : the
header, then one load command after the other. A command is read from its own offset, and
its declared size moves on to the next one.

A `Reader` is a cursor into the bytes of the file, and every read is checked against their
end. Slices are at most `isize::MAX` bytes long, so offsets into them do not overflow and
are natural numbers.
-/

open SysLib

namespace IosEmu

/-! ## Reading -/

/-- `{:#x}`. -/
def hex (n : ℕ) : String :=
  "0x" ++ String.ofList (Nat.toDigits 16 n)

/-- `{:#010x}`. -/
def hex8 (n : ℕ) : String :=
  let digits := Nat.toDigits 16 n
  "0x" ++ String.ofList (List.replicate (8 - digits.length) '0' ++ digits)

/-- A computation that reads bytes from a cursor on. -/
abbrev Reader := ReaderT (List U8) (StateT ℕ (Except EmuError))

namespace Reader

/-- `Reader::take`. -/
def take (n : ℕ) : Reader (List U8) := fun data pos =>
  if 2 ^ 64 ≤ pos + n then .error (.machO "read overflow")
  else if data.length < pos + n then
    .error (.machO ("truncated: need " ++ toString n ++ " bytes at " ++ hex pos ++ ", have " ++
      toString (data.length - pos)))
  else .ok ((data.drop pos).take n, pos + n)

/-- `Reader::skip`. -/
def skip (n : ℕ) : Reader Unit := fun data pos =>
  if 2 ^ 64 ≤ pos + n then .error (.machO "skip overflow")
  else if data.length < pos + n then .error (.machO ("seek " ++ hex (pos + n) ++ " past end"))
  else .ok ((), pos + n)

def u32Le : Reader U32 := return fromLeBytes 32 (← take 4)
def u64Le : Reader U64 := return fromLeBytes 64 (← take 8)
def u32Be : Reader U32 := return fromBeBytes 32 (← take 4)
def u64Be : Reader U64 := return fromBeBytes 64 (← take 8)

/-- The text before the first NUL. -/
def cstring (raw : List U8) : String :=
  fromUtf8Lossy (raw.takeWhile (· ≠ 0))

/-- `Reader::fixed_str`. -/
def fixedStr (n : ℕ) : Reader String := return cstring (← take n)

/-- Read from a given offset on. -/
def runAt {α : Type} (data : List U8) (off : ℕ) (x : Reader α) : EmuResult α :=
  if data.length < off then .error (.machO ("offset " ++ hex off ++ " past end"))
  else (x data off).map Prod.fst

end Reader

open Reader

/-! ## The image -/

/-- A section of a segment. -/
structure Section where
  segName : String
  name : String
  addr : U64
  size : U64
  offset : U32
  flags : U32
  deriving DecidableEq

/-- The section holds pointers to initialisers. -/
def Section.isModInit (s : Section) : Bool :=
  s.flags &&& 0xff = 0x9

/-- A segment. -/
structure Segment where
  name : String
  vmaddr : U64
  vmsize : U64
  fileoff : U64
  filesize : U64
  initprot : Protection
  maxprot : Protection
  sections : List Section
  deriving DecidableEq

structure Dylib where
  path : String
  weak : Bool
  reexport : Bool
  deriving DecidableEq

/-- Where execution begins. -/
inductive EntryPoint
  | main (fileOffset stackSize : U64)
  | thread (vmaddr : U64)
  deriving DecidableEq

structure Encryption where
  cryptoff : U32
  cryptsize : U32
  cryptid : U32
  deriving DecidableEq

structure SymtabInfo where
  symoff : U32
  nsyms : U32
  stroff : U32
  strsize : U32
  deriving DecidableEq

/-- Where the streams of the dynamic linker lie in the file. -/
structure DyldInfo where
  rebaseOff : U32
  rebaseSize : U32
  bindOff : U32
  bindSize : U32
  lazyBindOff : U32
  lazyBindSize : U32
  exportOff : U32
  exportSize : U32
  deriving DecidableEq

/-- A parsed image. -/
structure MachOImage where
  cpuSubtype : U32
  filetype : U32
  flags : U32
  segments : List Segment
  dylibs : List Dylib
  dylinker : Option String
  entry : Option EntryPoint
  symtab : Option SymtabInfo
  dyldInfo : Option DyldInfo
  encryption : Option Encryption
  uuid : Option (List U8)
  functionStarts : Option (U32 × U32)
  minOsVersion : Option U32
  deriving DecidableEq

/-! ## Load commands -/

/-- The load commands that are told apart. -/
inductive LoadCommand
  | segment64
  | loadDylib
  | loadWeakDylib
  | reexportDylib
  | loadDylinker
  | main
  | unixThread
  | symtab
  | dyldInfo
  | encryptionInfo64
  | uuid
  | functionStarts
  | versionMinIphoneos
  | other
  deriving DecidableEq

/-- The command of a `cmd` word. `LC_DYLD_INFO` and `LC_DYLD_INFO_ONLY` are read alike. -/
def LoadCommand.ofWord (cmd : U32) : LoadCommand :=
  match cmd.toNat with
  | 0x19 => .segment64
  | 0x0c => .loadDylib
  | 0x80000018 => .loadWeakDylib
  | 0x8000001f => .reexportDylib
  | 0x0e => .loadDylinker
  | 0x80000028 => .main
  | 0x05 => .unixThread
  | 0x02 => .symtab
  | 0x22 | 0x80000022 => .dyldInfo
  | 0x2c => .encryptionInfo64
  | 0x1b => .uuid
  | 0x26 => .functionStarts
  | 0x25 => .versionMinIphoneos
  | _ => .other

/-- The section records of a segment. -/
def readSections : ℕ → Reader (List Section)
  | 0 => return []
  | n + 1 => do
    let name ← fixedStr 16
    let segName ← fixedStr 16
    let addr ← u64Le
    let size ← u64Le
    let offset ← u32Le
    let _align ← u32Le
    let _reloff ← u32Le
    let _nreloc ← u32Le
    let flags ← u32Le
    let _reserved1 ← u32Le
    let _reserved2 ← u32Le
    let _reserved3 ← u32Le
    let rest ← readSections n
    return { segName, name, addr, size, offset, flags } :: rest

def readSegment : Reader Segment := do
  let name ← fixedStr 16
  let vmaddr ← u64Le
  let vmsize ← u64Le
  let fileoff ← u64Le
  let filesize ← u64Le
  let maxprot ← u32Le
  let initprot ← u32Le
  let nsects ← u32Le
  let _flags ← u32Le
  let sections ← readSections nsects.toNat
  return { name, vmaddr, vmsize, fileoff, filesize,
           initprot := Protection.fromVmProt initprot,
           maxprot := Protection.fromVmProt maxprot,
           sections }

/-- A string embedded in a load command. -/
def readLcStr (bytes : List U8) (cmdOff nameOff : ℕ) : EmuResult String :=
  if 2 ^ 64 ≤ cmdOff + nameOff then .error (.machO "lc_str offset overflow")
  else if bytes.length ≤ cmdOff + nameOff then .error (.machO "lc_str offset past end")
  else .ok (cstring (bytes.drop (cmdOff + nameOff)))

/-- The program counter of a thread state, if it is one of arm64. -/
def readArm64ThreadPc : Reader (Option U64) := do
  let flavor ← u32Le
  let count ← u32Le
  if flavor ≠ 6 ∨ count ≠ 68 then return none
  else
    skip (8 * 32)
    return some (← u64Le)

def readDyldInfo : Reader DyldInfo := do
  let rebaseOff ← u32Le
  let rebaseSize ← u32Le
  let bindOff ← u32Le
  let bindSize ← u32Le
  let lazyBindOff ← u32Le
  let lazyBindSize ← u32Le
  let exportOff ← u32Le
  let exportSize ← u32Le
  return { rebaseOff, rebaseSize, bindOff, bindSize, lazyBindOff, lazyBindSize, exportOff,
           exportSize }

def readSymtab : Reader SymtabInfo := do
  let symoff ← u32Le
  let nsyms ← u32Le
  let stroff ← u32Le
  let strsize ← u32Le
  return { symoff, nsyms, stroff, strsize }

def readEncryption : Reader Encryption := do
  let cryptoff ← u32Le
  let cryptsize ← u32Le
  let cryptid ← u32Le
  return { cryptoff, cryptsize, cryptid }

namespace MachOImage

def parseDylib (bytes : List U8) (cmdOff : ℕ) (weak reexport : Bool) (img : MachOImage) :
    EmuResult MachOImage := do
  let nameOff ← runAt bytes (cmdOff + 8) u32Le
  let path ← readLcStr bytes cmdOff nameOff.toNat
  return { img with dylibs := img.dylibs ++ [{ path, weak, reexport }] }

/-- Read one load command into the image. -/
def parseCommand (bytes : List U8) (cmdOff : ℕ) (img : MachOImage) :
    LoadCommand → EmuResult MachOImage
  | .segment64 => do
    let seg ← runAt bytes (cmdOff + 8) readSegment
    return { img with segments := img.segments ++ [seg] }
  | .loadDylib => parseDylib bytes cmdOff false false img
  | .loadWeakDylib => parseDylib bytes cmdOff true false img
  | .reexportDylib => parseDylib bytes cmdOff false true img
  | .loadDylinker => do
    let nameOff ← runAt bytes (cmdOff + 8) u32Le
    let path ← readLcStr bytes cmdOff nameOff.toNat
    return { img with dylinker := some path }
  | .main => do
    let (fileOffset, stackSize) ← runAt bytes (cmdOff + 8) do
      let fileOffset ← u64Le
      let stackSize ← u64Le
      return (fileOffset, stackSize)
    return { img with entry := some (.main fileOffset stackSize) }
  | .unixThread => do
    match ← runAt bytes (cmdOff + 8) readArm64ThreadPc with
    | some pc =>
      if img.entry.isNone then return { img with entry := some (.thread pc) } else return img
    | none => return img
  | .symtab => do
    let info ← runAt bytes (cmdOff + 8) readSymtab
    return { img with symtab := some info }
  | .dyldInfo => do
    let info ← runAt bytes (cmdOff + 8) readDyldInfo
    return { img with dyldInfo := some info }
  | .encryptionInfo64 => do
    let info ← runAt bytes (cmdOff + 8) readEncryption
    return { img with encryption := some info }
  | .uuid => do
    let raw ← runAt bytes (cmdOff + 8) (take 16)
    return { img with uuid := some raw }
  | .functionStarts => do
    let (off, size) ← runAt bytes (cmdOff + 8) do
      let off ← u32Le
      let size ← u32Le
      return (off, size)
    return { img with functionStarts := some (off, size) }
  | .versionMinIphoneos => do
    let version ← runAt bytes (cmdOff + 8) u32Le
    return { img with minOsVersion := some version }
  | .other => return img

/-- The first two words of a load command. -/
def readCommand : Reader (U32 × U32) := do
  let cmd ← u32Le
  let cmdsize ← u32Le
  return (cmd, cmdsize)

/-- The loop over the load commands : `left` of them, from command `i` at `cmdOff` on. -/
def parseCommands (bytes : List U8) : ℕ → ℕ → ℕ → MachOImage → EmuResult MachOImage
  | 0, _, _, img => .ok img
  | left + 1, i, cmdOff, img => do
    let (cmd, cmdsize) ← runAt bytes cmdOff readCommand
    if cmdsize.toNat < 8 then
      .error (.machO ("load command " ++ toString i ++ " has bogus size " ++
        toString cmdsize.toNat))
    else do
      let img ← parseCommand bytes cmdOff img (.ofWord cmd)
      if 2 ^ 64 ≤ cmdOff + cmdsize.toNat then .error (.machO "load-command offset overflow")
      else parseCommands bytes left (i + 1) (cmdOff + cmdsize.toNat) img

/-- The words of the header that are kept : the subtype, the file type, the number of load
commands and the flags. -/
def readHeader : Reader (U32 × U32 × U32 × U32) := do
  let magic ← u32Le
  if magic ≠ 0xfeedfacf then
    throw (.machO ("slice magic " ++ hex8 magic.toNat ++ " is not 64-bit Mach-O"))
  let cputype ← u32Le
  if cputype ≠ 0x0100000c then
    throw (.machO ("cputype " ++ hex cputype.toNat ++ " is not arm64"))
  let cpuSubtype ← u32Le
  let filetype ← u32Le
  let ncmds ← u32Le
  let _sizeofcmds ← u32Le
  let flags ← u32Le
  let _reserved ← u32Le
  return (cpuSubtype, filetype, ncmds, flags)

/-- The image before its load commands are read. -/
def blank (cpuSubtype filetype flags : U32) : MachOImage :=
  { cpuSubtype, filetype, flags, segments := [], dylibs := [], dylinker := none, entry := none,
    symtab := none, dyldInfo := none, encryption := none, uuid := none, functionStarts := none,
    minOsVersion := none }

/-- Parse the thin image at the offset `base` of the file. -/
def parseThin (bytes : List U8) (base : ℕ) : EmuResult MachOImage := do
  let (cpuSubtype, filetype, ncmds, flags) ← runAt bytes base readHeader
  let img ← parseCommands bytes ncmds.toNat 0 (base + 32) (blank cpuSubtype filetype flags)
  if img.segments = [] then .error (.machO "no LC_SEGMENT_64 commands") else return img

/-! ## Universal files -/

/-- An entry of the table of slices. -/
structure FatArch where
  cputype : U32
  cpusubtype : U32
  offset : U64
  size : U64
  deriving DecidableEq

def readFatArch (is64 : Bool) : Reader FatArch := do
  let cputype ← u32Be
  let cpusubtype ← u32Be
  if is64 then
    let offset ← u64Be
    let size ← u64Be
    let _align ← u32Be
    let _reserved ← u32Be
    return { cputype, cpusubtype, offset, size }
  else
    let offset ← u32Be
    let size ← u32Be
    let _align ← u32Be
    return { cputype, cpusubtype, offset := offset.setWidth 64, size := size.setWidth 64 }

/-- Keep the first arm64 slice, or the first of arm64e. -/
def betterSlice (best : Option FatArch) (arch : FatArch) : Option FatArch :=
  if arch.cputype = 0x0100000c then
    match best with
    | none => some arch
    | some b => if arch.cpusubtype = 2 ∧ b.cpusubtype ≠ 2 then some arch else some b
  else best

/-- The loop over the table of slices. -/
def readSlices (is64 : Bool) : ℕ → Option FatArch → Reader (Option FatArch)
  | 0, best => return best
  | n + 1, best => do
    let arch ← readFatArch is64
    readSlices is64 n (betterSlice best arch)

/-- The offset of the arm64 slice of a universal file. -/
def selectFatSlice (bytes : List U8) : EmuResult ℕ := do
  let best ← runAt bytes 0 do
    let magic ← u32Be
    let nfat ← u32Be
    readSlices (magic = 0xcafebabf) nfat.toNat none
  match best with
  | none => .error (.machO "universal binary has no arm64 slice")
  | some arch =>
    if 2 ^ 64 ≤ arch.offset.toNat + arch.size.toNat then .error (.machO "fat slice overflow")
    else if bytes.length < arch.offset.toNat + arch.size.toNat then
      .error (.machO "fat slice extends past file")
    else return arch.offset.toNat

/-- Parse a thin file, or the arm64 slice of a universal one. -/
def parse (bytes : List U8) : EmuResult MachOImage := do
  let magic ← runAt bytes 0 u32Le
  match magic.toNat with
  | 0xcafebabe | 0xcafebabf => do
    let off ← selectFatSlice bytes
    parseThin bytes off
  | 0xfeedfacf => parseThin bytes 0
  | 0xcffaedfe => .error (.machO "big-endian Mach-O is not supported")
  | _ => .error (.machO ("unknown magic " ++ hex8 magic.toNat))

/-- The preferred base of `__TEXT`. -/
def textVmaddr (img : MachOImage) : U64 :=
  match img.segments.find? fun s => s.name = "__TEXT" with
  | some s => s.vmaddr
  | none => 0

def isEncrypted (img : MachOImage) : Bool :=
  match img.encryption with
  | some e => e.cryptid ≠ 0
  | none => false

end MachOImage

end IosEmu
