import IosEmu.MachO
import IosEmu.SortedMap
import Mathlib.Data.String.Basic

/-!
# The streams of the dynamic linker

Pointers to relocate and to bind are given by streams of opcodes. A decoder reads a stream
byte by byte : its state is the part not read yet, and it can fail, or panic in a checked
build. `parseBindInfo` and `parseRebaseInfo` list the locations of a stream; they also panic if
there are too many for a vector. `parseLazyBindInfo` reads a bind stream again, to find each
symbol by the offset at which its sequence starts.

`StubResolver` gives every imported symbol an address of its own.
-/

open SysLib

namespace IosEmu

/-- A decoder of a stream. -/
abbrev StreamM := Prog EmuError Panic (List U8)

/-! ## Operands -/

/-- The loop of `read_uleb`. -/
def ulebFrom (p : Profile) (truncated : String) :
    List U8 → U32 → U64 → Outcome EmuError Panic (List U8) U64
  | [], _, _ => .err (.dyld truncated) []
  | b :: rest, shift, result =>
    let result :=
      if shift < 64 then result ||| (b &&& 0x7f).setWidth 64 <<< shift.toNat else result
    match p.add shift 7 with
    | .error e => .panic e
    | .ok shift =>
      if b &&& 0x80 = 0 then .ok result rest else ulebFrom p truncated rest shift result

/-- The loop of `read_sleb`. -/
def slebFrom (p : Profile) : List U8 → U32 → U64 → Outcome EmuError Panic (List U8) U64
  | [], _, _ => .err (.dyld "sleb truncated") []
  | b :: rest, shift, result =>
    match p.shl ((b &&& 0x7f).setWidth 64) shift, p.add shift 7 with
    | .ok digit, .ok shift =>
      let result := result ||| digit
      if b &&& 0x80 ≠ 0 then slebFrom p rest shift result
      else if shift < 64 ∧ b &&& 0x40 ≠ 0 then .ok (result ||| (-1 : U64) <<< shift.toNat) rest
      else .ok result rest
    | _, _ => .panic .arithmeticOverflow

/-- `read_sleb`. -/
def readSleb (p : Profile) : StreamM U64 := fun buf =>
  slebFrom p buf 0 0

/-- `read_cstr` : the text up to the next NUL. -/
def readSymbol : StreamM String := fun buf =>
  match buf.dropWhile (· ≠ 0) with
  | [] => .err (.dyld "bind symbol string not terminated") []
  | _ :: rest => .ok (fromUtf8Lossy (buf.takeWhile (· ≠ 0))) rest

/-- The next byte, unless the stream is at its end. -/
def nextByte : StreamM (Option U8)
  | [] => .ok none []
  | b :: rest => .ok (some b) rest

/-! ## Binds -/

/-- The relocation type of a bind. -/
inductive BindKind
  | pointer
  | other (v : U8)
  deriving DecidableEq

def BindKind.ofImm (v : U8) : BindKind :=
  if v = 1 then .pointer else .other v

/-- A location that waits for a pointer. -/
structure BindRecord where
  segIndex : U8
  segOffset : U64
  symbol : String
  libOrdinal : BitVec 64
  addend : BitVec 64
  kind : BindKind
  weak : Bool
  deriving DecidableEq

/-- An opcode of a bind stream with its operands. -/
inductive BindOp
  | done
  | setOrdinal (ordinal : BitVec 64)
  | setSymbol (weak : Bool) (symbol : String)
  | setType (kind : BindKind)
  | setAddend (addend : BitVec 64)
  | setSegment (segIndex : U8) (segOffset : U64)
  | addAddr (delta : U64)
  | doBind
  | doBindAddAddr (delta : U64)
  | doBindScaled (imm : U8)
  | doBindTimes (count skip : U64)
  deriving DecidableEq

/-- How many records an opcode emits. -/
def BindOp.count : BindOp → ℕ
  | .doBind | .doBindAddAddr _ | .doBindScaled _ => 1
  | .doBindTimes count _ => count.toNat
  | _ => 0

namespace Bind

/-- `read_uleb` of the bind parsers. -/
def readUleb (p : Profile) : StreamM U64 := fun buf =>
  ulebFrom p "uleb truncated" buf 0 0

/-- The opcode of a byte, with the operands that follow it. -/
def readOp (p : Profile) (byte : U8) : StreamM BindOp :=
  let imm := byte &&& 0x0f
  match (byte &&& 0xf0).toNat with
  | 0x00 => return .done
  | 0x10 => return .setOrdinal (imm.setWidth 64)
  | 0x20 => return .setOrdinal (← readUleb p)
  | 0x30 => return .setOrdinal (if imm = 0 then 0 else (imm ||| 0xf0).signExtend 64)
  | 0x40 => return .setSymbol (imm &&& 1 ≠ 0) (← readSymbol)
  | 0x50 => return .setType (BindKind.ofImm imm)
  | 0x60 => return .setAddend (← readSleb p)
  | 0x70 => return .setSegment imm (← readUleb p)
  | 0x80 => return .addAddr (← readUleb p)
  | 0x90 => return .doBind
  | 0xa0 => return .doBindAddAddr (← readUleb p)
  | 0xb0 => return .doBindScaled imm
  | 0xc0 => do
    let count ← readUleb p
    let skip ← readUleb p
    return .doBindTimes count skip
  | other => Prog.fail (.dyld ("unknown bind opcode " ++ hex other))

/-- The running values before the first opcode. -/
def start : BindRecord :=
  ⟨0, 0, "", 0, 0, .pointer, false⟩

/-- Emit `n` records, each `8 + skip` bytes after the one before. -/
def emitTimes (skip : U64) : ℕ → BindRecord → List BindRecord × BindRecord
  | 0, cur => ([], cur)
  | n + 1, cur =>
    let (out, last) := emitTimes skip n { cur with segOffset := cur.segOffset + 8 + skip }
    (cur :: out, last)

/-- What an opcode emits, and the running values after it. -/
def step (cur : BindRecord) : BindOp → List BindRecord × BindRecord
  | .done => ([], cur)
  | .setOrdinal libOrdinal => ([], { cur with libOrdinal })
  | .setSymbol weak symbol => ([], { cur with weak, symbol })
  | .setType kind => ([], { cur with kind })
  | .setAddend addend => ([], { cur with addend })
  | .setSegment segIndex segOffset => ([], { cur with segIndex, segOffset })
  | .addAddr delta => ([], { cur with segOffset := cur.segOffset + delta })
  | .doBind => ([cur], { cur with segOffset := cur.segOffset + 8 })
  | .doBindAddAddr delta => ([cur], { cur with segOffset := cur.segOffset + 8 + delta })
  | .doBindScaled imm =>
    ([cur], { cur with segOffset := cur.segOffset + 8 + imm.setWidth 64 * 8 })
  | .doBindTimes count skip => emitTimes skip count.toNat cur

/-- The bytes of a record in a vector. -/
def recordSize : ℕ := 56

/-- How many records are pushed before the operands of the opcode are read.
`DO_BIND_ADD_ADDR_ULEB` pushes its record first. -/
def pushedFirst (byte : U8) : ℕ :=
  if byte &&& 0xf0 = 0xa0 then 1 else 0

/-- The loop of `parseBindInfo`. An opcode takes at least a byte, so there are at most as
many turns as bytes. -/
def loop (p : Profile) : ℕ → BindRecord → List BindRecord → StreamM (List BindRecord)
  | 0, _, records => return records
  | turns + 1, cur, records => do
    match ← nextByte with
    | none => return records
    | some byte =>
      Prog.ofChecked (vecRoom recordSize records.length (pushedFirst byte))
      let op ← readOp p byte
      Prog.ofChecked (vecRoom recordSize records.length op.count)
      loop p turns (step cur op).2 (records ++ (step cur op).1)

end Bind

/-- The records of a bind stream. -/
def parseBindInfo (p : Profile) : StreamM (List BindRecord) := fun stream =>
  Bind.loop p stream.length Bind.start [] stream

/-! ## Lazy binds -/

/-- An entry of the lazy stream, with the offset at which its sequence starts. -/
structure LazyBind where
  offset : U64
  segIndex : U8
  segOffset : U64
  symbol : String
  deriving DecidableEq

/-- An opcode as the lazy parser reads it. -/
inductive LazyOp
  | done
  | pass
  | setSymbol (symbol : String)
  | setSegment (segIndex : U8) (segOffset : U64)
  | addAddr (delta : U64)
  | doBind
  deriving DecidableEq

namespace LazyBind

/-- The opcode of a byte, with its operands. Opcodes that emit in other ways are passed
over without their operands. -/
def readOp (p : Profile) (byte : U8) : StreamM LazyOp :=
  let imm := byte &&& 0x0f
  match (byte &&& 0xf0).toNat with
  | 0x00 => return .done
  | 0x10 => return .pass
  | 0x30 => return .pass
  | 0x20 => do
    let _ ← Bind.readUleb p
    return .pass
  | 0x40 => return .setSymbol (← readSymbol)
  | 0x50 => return .pass
  | 0x60 => do
    let _ ← readSleb p
    return .pass
  | 0x70 => return .setSegment imm (← Bind.readUleb p)
  | 0x80 => return .addAddr (← Bind.readUleb p)
  | 0x90 => return .doBind
  | _ => return .pass

/-- What an opcode emits, and the running values after it; `pos` is the offset after the
opcode. -/
def step (pos : U64) (cur : LazyBind) : LazyOp → List LazyBind × LazyBind
  | .done => ([], { cur with offset := pos })
  | .pass => ([], cur)
  | .setSymbol symbol => ([], { cur with symbol })
  | .setSegment segIndex segOffset => ([], { cur with segIndex, segOffset })
  | .addAddr delta => ([], { cur with segOffset := cur.segOffset + delta })
  | .doBind => ([cur], cur)

/-- The loop of `parseLazyBindInfo` over a stream of `total` bytes. -/
def loop (p : Profile) (total : ℕ) : ℕ → LazyBind → List LazyBind → StreamM (List LazyBind)
  | 0, _, out => return out
  | turns + 1, cur, out => do
    match ← nextByte with
    | none => return out
    | some byte =>
      let op ← readOp p byte
      let rest ← Prog.get
      let pos := BitVec.ofNat 64 (total - rest.length)
      loop p total turns (step pos cur op).2 (out ++ (step pos cur op).1)

end LazyBind

/-- The entries of a lazy bind stream. -/
def parseLazyBindInfo (p : Profile) : StreamM (List LazyBind) := fun stream =>
  LazyBind.loop p stream.length stream.length ⟨0, 0, 0, ""⟩ [] stream

/-! ## Rebases -/

/-- A pointer to relocate. -/
structure RebaseLocation where
  segIndex : U8
  segOffset : U64
  rtype : U8
  deriving DecidableEq

/-- An opcode of a rebase stream with its operands. -/
inductive RebaseOp
  | done
  | setType (rtype : U8)
  | setSegment (segIndex : U8) (segOffset : U64)
  | addAddr (delta : U64)
  | rebaseTimes (count skip : U64)
  | rebaseAddAddr (delta : U64)
  deriving DecidableEq

/-- How many locations an opcode emits. -/
def RebaseOp.count : RebaseOp → ℕ
  | .rebaseTimes count _ => count.toNat
  | .rebaseAddAddr _ => 1
  | _ => 0

namespace Rebase

/-- `read_uleb` of the rebase parser. -/
def readUleb (p : Profile) : StreamM U64 := fun buf =>
  ulebFrom p "rebase uleb truncated" buf 0 0

/-- The opcode of a byte, with the operands that follow it. -/
def readOp (p : Profile) (byte : U8) : StreamM RebaseOp :=
  let imm := byte &&& 0x0f
  match (byte &&& 0xf0).toNat with
  | 0x00 => return .done
  | 0x10 => return .setType imm
  | 0x20 => return .setSegment imm (← readUleb p)
  | 0x30 => return .addAddr (← readUleb p)
  | 0x40 => return .addAddr (imm.setWidth 64 * 8)
  | 0x50 => return .rebaseTimes (imm.setWidth 64) 0
  | 0x60 => return .rebaseTimes (← readUleb p) 0
  | 0x70 => return .rebaseAddAddr (← readUleb p)
  | 0x80 => do
    let count ← readUleb p
    let skip ← readUleb p
    return .rebaseTimes count skip
  | other => Prog.fail (.dyld ("unknown rebase opcode " ++ hex other))

/-- Emit `n` locations, each `8 + skip` bytes after the one before. -/
def emitTimes (skip : U64) : ℕ → RebaseLocation → List RebaseLocation × RebaseLocation
  | 0, cur => ([], cur)
  | n + 1, cur =>
    let (out, last) := emitTimes skip n { cur with segOffset := cur.segOffset + 8 + skip }
    (cur :: out, last)

/-- What an opcode emits, and the running values after it. -/
def step (cur : RebaseLocation) : RebaseOp → List RebaseLocation × RebaseLocation
  | .done => ([], cur)
  | .setType rtype => ([], { cur with rtype })
  | .setSegment segIndex segOffset => ([], { cur with segIndex, segOffset })
  | .addAddr delta => ([], { cur with segOffset := cur.segOffset + delta })
  | .rebaseTimes count skip => emitTimes skip count.toNat cur
  | .rebaseAddAddr delta => ([cur], { cur with segOffset := cur.segOffset + 8 + delta })

/-- The bytes of a location in a vector. -/
def locationSize : ℕ := 16

/-- `DO_REBASE_ADD_ADDR_ULEB` pushes its location before it reads its operand. -/
def pushedFirst (byte : U8) : ℕ :=
  if byte &&& 0xf0 = 0x70 then 1 else 0

/-- The loop of `parseRebaseInfo`. -/
def loop (p : Profile) : ℕ → RebaseLocation → List RebaseLocation →
    StreamM (List RebaseLocation)
  | 0, _, out => return out
  | turns + 1, cur, out => do
    match ← nextByte with
    | none => return out
    | some byte =>
      Prog.ofChecked (vecRoom locationSize out.length (pushedFirst byte))
      let op ← readOp p byte
      Prog.ofChecked (vecRoom locationSize out.length op.count)
      loop p turns (step cur op).2 (out ++ (step cur op).1)

end Rebase

/-- The locations of a rebase stream. -/
def parseRebaseInfo (p : Profile) : StreamM (List RebaseLocation) := fun stream =>
  Rebase.loop p stream.length ⟨0, 0, 1⟩ [] stream

/-! ## The resolver -/

/-- Hands out trampolines, one for each symbol. -/
structure StubResolver where
  base : U64
  stride : U64
  next : U64
  forward : SortedMap String U64
  reverse : SortedMap U64 String

namespace StubResolver

def new (base stride : U64) : StubResolver :=
  ⟨base, stride, base, .empty, .empty⟩

/-- The bytes handed out. -/
def used (p : Profile) (r : StubResolver) : Except Panic U64 :=
  p.sub r.next r.base

/-- The trampoline of a symbol, a new one if it has none. There always is one, so the
branches of the caller for a missing one are not reached. -/
def resolve (p : Profile) (r : StubResolver) (symbol : String) :
    Except Panic (U64 × StubResolver) :=
  match r.forward.get? symbol with
  | some addr => .ok (addr, r)
  | none => do
    let next ← p.add r.next r.stride
    return (r.next,
      { r with
        next
        forward := r.forward.insert symbol r.next
        reverse := r.reverse.insert r.next symbol })

end StubResolver

end IosEmu
