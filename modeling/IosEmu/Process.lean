import IosEmu.Dyld
import IosEmu.GuestMemory
import Mathlib.Data.Fin.VecNotation

/-!
# Building the process

`buildProcess` lays a parsed image out in the guest memory. It maps the segments writable,
relocates pointers by the slide, binds the imports to trampolines, publishes the page of
trampolines, gives the segments their own protections, collects the initialisers, builds the
stack, and reads the table of lazy binds. Each stage is a definition of its own, in the order
in which the loader runs them; a stage that fails leaves the memory as it is then.
-/

open SysLib

namespace IosEmu

/-- Where the process is laid out. -/
structure LayoutConfig where
  slide : U64
  stackTop : U64
  stackSize : U64
  trampolineBase : U64
  trampolineStride : U64
  argv0 : String

/-- What the machine needs to start. -/
structure ProcessImage where
  entry : U64
  sp : U64
  argRegs : Fin 4 → U64
  trampolines : SortedMap U64 String
  trampolineBase : U64
  trampolineEnd : U64
  initFuncs : List U64
  symbolStubs : SortedMap String U64
  lazyBinds : SortedMap U64 (String × U64)

namespace Process

/-! ## Segments -/

/-- The bytes of the file for a segment : none if they are not all there. -/
def segmentData (p : Profile) (bytes : List U8) (seg : Segment) : Except Panic (List U8) := do
  let fileEnd ← p.add seg.fileoff seg.filesize
  if 0 < seg.filesize ∧ fileEnd.toNat ≤ bytes.length then
    if fileEnd < seg.fileoff then .error .sliceOutOfRange
    else .ok ((bytes.drop seg.fileoff.toNat).take (fileEnd.toNat - seg.fileoff.toNat))
  else .ok []

/-- Map a segment for loading, and return its base. The guard at address zero is not
mapped. -/
def mapSegment (p : Profile) (bytes : List U8) (slide : U64) (seg : Segment) :
    MemM (Option U64) := do
  if seg.name = "__PAGEZERO" then return none
  else
    let base ← Prog.ofChecked (p.add seg.vmaddr slide)
    let data ← Prog.ofChecked (segmentData p bytes seg)
    GuestMemory.mapWithData p base seg.vmsize data .rw .segment seg.name
    return some base

/-- The bases of the segments, in the order of their load commands. -/
def mapSegments (p : Profile) (bytes : List U8) (slide : U64) :
    List Segment → MemM (List (Option U64))
  | [] => return []
  | seg :: segs => do
    let base ← mapSegment p bytes slide seg
    let bases ← mapSegments p bytes slide segs
    return base :: bases

/-- The base of the segment a record names. -/
def segBase (segRuntime : List (Option U64)) (segIndex : U8) : Option U64 :=
  segRuntime[segIndex.toNat]?.join

/-- `bytes.get(off..off + size)`. -/
def streamAt (p : Profile) (bytes : List U8) (off size : U32) :
    Except Panic (Option (List U8)) := do
  let stop ← p.add off size
  return if off ≤ stop ∧ stop.toNat ≤ bytes.length then
      some ((bytes.drop off.toNat).take (stop.toNat - off.toNat))
    else none

/-- Decode a stream of the file; `msg` is the error if the file does not hold it. -/
def readStream {α : Type} (p : Profile) (bytes : List U8) (off size : U32) (msg : String)
    (parse : StreamM α) : MemM α := do
  match ← Prog.ofChecked (streamAt p bytes off size) with
  | some stream => Prog.within stream parse
  | none => Prog.fail (.dyld msg)

/-! ## Rebase -/

/-- Add the slide to the pointer at a location. -/
def rebaseOne (slide : U64) (segRuntime : List (Option U64)) (loc : RebaseLocation) :
    MemM Unit := do
  if loc.rtype ≠ 1 then return ()
  else
    match segBase segRuntime loc.segIndex with
    | none => return ()
    | some base =>
      let target := base + loc.segOffset
      let m ← Prog.get
      match m.readU64 target with
      | .ok v => GuestMemory.writeU64 target (v + slide)
      | .error _ => return ()

/-- Relocate by the slide, if there is one. -/
def rebase (p : Profile) (image : MachOImage) (bytes : List U8) (slide : U64)
    (segRuntime : List (Option U64)) : MemM Unit := do
  if slide = 0 then return ()
  else
    match image.dyldInfo with
    | none => return ()
    | some info =>
      if info.rebaseSize = 0 then return ()
      else
        let locs ← readStream p bytes info.rebaseOff info.rebaseSize
          "rebase stream out of range" (parseRebaseInfo p)
        Prog.forEach locs (rebaseOne slide segRuntime)

/-! ## Bind -/

/-- Bind a record : a write that fails is passed over. -/
def bindOne (p : Profile) (segRuntime : List (Option U64)) (resolver : StubResolver)
    (rec : BindRecord) : MemM StubResolver := do
  match segBase segRuntime rec.segIndex with
  | none => return resolver
  | some base =>
    let (tramp, resolver) ← Prog.ofChecked (resolver.resolve p rec.symbol)
    let value ← Prog.ofChecked (p.addSigned tramp rec.addend)
    let _written ← (Prog.attempt (GuestMemory.writeU64 (base + rec.segOffset) value) :
      MemM (EmuResult Unit))
    return resolver

/-- The records of a stream; an empty stream is not looked for. -/
def streamRecords (p : Profile) (bytes : List U8) (off size : U32) : MemM (List BindRecord) :=
  if size = 0 then return []
  else readStream p bytes off size "bind stream out of range" (parseBindInfo p)

/-- Bind the records of a stream. -/
def bindStream (p : Profile) (bytes : List U8) (segRuntime : List (Option U64)) (off size : U32)
    (resolver : StubResolver) : MemM StubResolver := do
  let recs ← streamRecords p bytes off size
  recs.foldlM (bindOne p segRuntime) resolver

/-- Bind the eager stream, and the lazy one too. -/
def bindImports (p : Profile) (image : MachOImage) (bytes : List U8)
    (segRuntime : List (Option U64)) (resolver : StubResolver) : MemM StubResolver := do
  match image.dyldInfo with
  | none => return resolver
  | some info =>
    let resolver ← bindStream p bytes segRuntime info.bindOff info.bindSize resolver
    bindStream p bytes segRuntime info.lazyBindOff info.lazyBindSize resolver

/-! ## Trampolines -/

/-- `BRK #0`. -/
def brk0 : U32 := 0xd4200000

/-- Map the page of trampolines, fill it with traps and make it executable. Its end is
returned. The size is a multiple of the page, so the loop that moves on by a word meets
it. -/
def publishStubs (b : Build) (cfg : LayoutConfig) (resolver : StubResolver) : MemM U64 := do
  let used ← Prog.ofChecked (resolver.used b.profile)
  let size ← Prog.ofChecked (alignUp b.profile (max used pageSize) pageSize)
  GuestMemory.map b.profile cfg.trampolineBase size .rw .segment "__stubs"
  Prog.forEach (List.range (size.toNat / 4)) fun i =>
    GuestMemory.writeU32 (cfg.trampolineBase + BitVec.ofNat 64 (4 * i)) brk0
  GuestMemory.protect b.target cfg.trampolineBase .rx
  return cfg.trampolineBase + size

/-! ## Protections -/

/-- The protection of a segment at run time. -/
def runProt (seg : Segment) : Protection :=
  if seg.initprot = .none then .read else seg.initprot

/-- Give the mapped segments their own protections. -/
def restoreProtections (target : Target) (image : MachOImage)
    (segRuntime : List (Option U64)) : MemM Unit :=
  Prog.forEach (image.segments.zip segRuntime) fun (seg, base?) =>
    match base? with
    | some base => GuestMemory.protect target base (runProt seg)
    | none => pure ()

/-! ## Initialisers -/

/-- The slots of the pointers to initialisers : a section, and an index in it. -/
def initSlots (image : MachOImage) : List (Section × ℕ) :=
  ((image.segments.flatMap Segment.sections).filter Section.isModInit).flatMap fun sect =>
    (List.range (sect.size.toNat / 8)).map fun i => (sect, i)

/-- The pointer in a slot, if it can be read. -/
def initFunc (p : Profile) (slide : U64) (slot : Section × ℕ) : MemM (Option U64) := do
  let start ← Prog.ofChecked (p.add slot.1.addr slide)
  let off ← Prog.ofChecked (p.mul (BitVec.ofNat 64 slot.2) 8)
  let addr ← Prog.ofChecked (p.add start off)
  let m ← Prog.get
  return (m.readU64 addr).toOption

/-- The bytes of an initialiser's address in a vector. -/
def initSize : ℕ := 8

/-- The pointers in the slots that can be read, behind those that are collected. -/
def collectInitFuncs (p : Profile) (slide : U64) :
    List U64 → List (Section × ℕ) → MemM (List U64)
  | funcs, [] => return funcs
  | funcs, slot :: slots => do
    let func? ← initFunc p slide slot
    Prog.ofChecked (vecRoom initSize funcs.length func?.toList.length)
    collectInitFuncs p slide (funcs ++ func?.toList) slots

/-! ## The stack -/

/-- Write `argv`, `envp` and `apple` below the top of the stack. Returns the stack pointer and
the arguments of `main`. -/
def buildStack (p : Profile) (cfg : LayoutConfig) : MemM (U64 × (Fin 4 → U64)) := do
  let path := utf8Bytes cfg.argv0
  let len := BitVec.ofNat 64 path.length
  let top ← Prog.ofChecked (p.sub cfg.stackTop 16)
  let start ← Prog.ofChecked (p.sub top len)
  let start ← Prog.ofChecked (p.sub start 1)
  let strAddr := start &&& ~~~0xf
  GuestMemory.write strAddr path
  GuestMemory.write (strAddr + len) [0]
  let apple ← Prog.ofChecked (p.sub strAddr 16)
  let apple := apple &&& ~~~0xf
  GuestMemory.writeU64 apple strAddr
  GuestMemory.writeU64 (apple + 8) 0
  let envp ← Prog.ofChecked (p.sub apple 8)
  let envp := envp &&& ~~~0xf
  GuestMemory.writeU64 envp 0
  let argv ← Prog.ofChecked (p.sub envp 16)
  let argv := argv &&& ~~~0xf
  GuestMemory.writeU64 argv strAddr
  GuestMemory.writeU64 (argv + 8) 0
  return (argv &&& ~~~0xf, ![1, argv, envp, apple])

/-- Map the stack, write the arguments and publish it. -/
def initStack (b : Build) (cfg : LayoutConfig) : MemM (U64 × (Fin 4 → U64)) := do
  let stackBase ← Prog.ofChecked (b.profile.sub cfg.stackTop cfg.stackSize)
  GuestMemory.map b.profile stackBase cfg.stackSize .rw .stack "stack"
  let frame ← buildStack b.profile cfg
  GuestMemory.commitToNative b.target stackBase
  return frame

/-! ## Entry and lazy binds -/

/-- The entry point, moved by the slide. -/
def resolveEntry (image : MachOImage) (slide : U64) : EmuResult U64 :=
  match image.entry with
  | some (.main fileOffset _) => .ok (image.textVmaddr + slide + fileOffset)
  | some (.thread vmaddr) => .ok (vmaddr + slide)
  | none => .error (.machO "image has no entry point")

/-- Enter a lazy bind in the table, if its segment is mapped. -/
def addLazyBind (segRuntime : List (Option U64)) (table : SortedMap U64 (String × U64))
    (lb : LazyBind) : SortedMap U64 (String × U64) :=
  match segBase segRuntime lb.segIndex with
  | some base => table.insert lb.offset (lb.symbol, base + lb.segOffset)
  | none => table

/-- The table of lazy binds, by the offsets of their sequences. -/
def lazyTable (p : Profile) (image : MachOImage) (bytes : List U8)
    (segRuntime : List (Option U64)) : MemM (SortedMap U64 (String × U64)) := do
  match image.dyldInfo with
  | none => return .empty
  | some info =>
    if info.lazyBindSize = 0 then return .empty
    else
      let entries ← readStream p bytes info.lazyBindOff info.lazyBindSize
        "lazy bind stream out of range" (parseLazyBindInfo p)
      return entries.foldl (addLazyBind segRuntime) .empty

/-! ## Before and after the trampolines -/

/-- Map the segments, relocate them and bind their imports. Returns the bases of the segments
and the resolver. -/
def bindImage (p : Profile) (image : MachOImage) (bytes : List U8) (cfg : LayoutConfig) :
    MemM (List (Option U64) × StubResolver) := do
  let segRuntime ← mapSegments p bytes cfg.slide image.segments
  rebase p image bytes cfg.slide segRuntime
  let resolver ← bindImports p image bytes segRuntime
    (.new cfg.trampolineBase cfg.trampolineStride)
  return (segRuntime, resolver)

/-- What is left when the page of trampolines is published. -/
def finish (b : Build) (image : MachOImage) (bytes : List U8) (cfg : LayoutConfig)
    (segRuntime : List (Option U64)) (resolver : StubResolver) (trampolineEnd : U64) :
    MemM ProcessImage := do
  restoreProtections b.target image segRuntime
  let initFuncs ← collectInitFuncs b.profile cfg.slide [] (initSlots image)
  let (sp, argRegs) ← initStack b cfg
  let entry ← Prog.ofResult (resolveEntry image cfg.slide)
  let lazyBinds ← lazyTable b.profile image bytes segRuntime
  return { entry, sp, argRegs, trampolines := resolver.reverse,
           trampolineBase := cfg.trampolineBase, trampolineEnd, initFuncs,
           symbolStubs := resolver.forward, lazyBinds }

end Process

open Process

/-- Lay an image out in the guest memory. -/
def buildProcess (b : Build) (image : MachOImage) (bytes : List U8) (cfg : LayoutConfig) :
    MemM ProcessImage := do
  if image.isEncrypted then
    Prog.fail (.dyld "executable is FairPlay-encrypted; supply a decrypted binary")
  else
    let (segRuntime, resolver) ← bindImage b.profile image bytes cfg
    let trampolineEnd ← publishStubs b cfg resolver
    finish b image bytes cfg segRuntime resolver trampolineEnd

end IosEmu
