import IosEmu.Machine

/-!
# The Objective-C runtime

`ObjcRuntime` knows the classes and the instances it has made by their addresses in the guest
heap. Classes are made on first use. `msgSend` reads the selector of a message as a C string
and answers the common ones; what it does not know is answered with `nil`.

A shim runs on the runtime and the `CallContext`, and may panic. What it only logs is left
out.
-/

open SysLib

namespace IosEmu

/-- A class of the runtime. -/
structure ClassInfo where
  name : String
  superclass : Option ℕ
  deriving DecidableEq

/-- The table of classes, and what is known of the addresses of classes and instances. -/
structure ObjcRuntime where
  classes : List ClassInfo
  classAddrByName : SortedMap String U64
  classIndexByAddr : SortedMap U64 ℕ
  instanceClass : SortedMap U64 ℕ
  retainCounts : SortedMap U64 (BitVec 64)

/-- A computation of a shim. -/
abbrev ShimM := Prog Empty Panic (ObjcRuntime × CallContext)

namespace ShimM

/-- `ctx.arg(n)`. -/
def arg (n : Fin 8) : ShimM U64 := do
  let s ← Prog.get
  return s.2.cpu.arg n

/-- `ctx.ret(v)`. -/
def ret (v : U64) : ShimM Unit :=
  Prog.modify fun s => (s.1, { s.2 with cpu := s.2.cpu.setRet v })

/-- Run a call on the memory, and look at its `Result`. -/
def onMem {α : Type} (x : MemM α) : ShimM (EmuResult α) :=
  Prog.attempt <|
    Prog.zoom (fun s : ObjcRuntime × CallContext => s.2.mem)
      (fun mem s => (s.1, { s.2 with mem })) x

/-- Read guest memory, and look at the `Result`. -/
def readMem {α : Type} (read : GuestMemory → EmuResult α) : ShimM (EmuResult α) := do
  let s ← Prog.get
  return read s.2.mem

/-- The runtime. -/
def runtime : ShimM ObjcRuntime := do
  let s ← Prog.get
  return s.1

/-- Change the runtime. -/
def modifyRuntime (f : ObjcRuntime → ObjcRuntime) : ShimM Unit :=
  Prog.modify fun s => (f s.1, s.2)

/-- Return a value to the guest. Every shim ends so. -/
def answer (x : ShimM U64) : ShimM Dispatch := do
  let v ← x
  ret v
  return .handled

end ShimM

open ShimM

namespace ObjcRuntime

def new : ObjcRuntime :=
  ⟨[], .empty, .empty, .empty, .empty⟩

def objHeaderSize : U64 := 16
def classMagic : U64 := 0x0b1c000000000000

/-! ## Classes -/

def classIndex (rt : ObjcRuntime) (name : String) : Option ℕ :=
  rt.classes.findIdx? fun c => c.name = name

/-- Reserve the slot of a root class. -/
def preload (rt : ObjcRuntime) (name : String) : ObjcRuntime :=
  if rt.classes.any fun c => c.name = name then rt
  else { rt with classes := rt.classes ++ [{ name, superclass := none }] }

def preloadRootClasses (rt : ObjcRuntime) : ObjcRuntime :=
  ["NSObject", "NSProxy"].foldl preload rt

/-- The slot of a class, made if there is none. -/
def classSlot (rt : ObjcRuntime) (name : String) : ℕ × ObjcRuntime :=
  match rt.classIndex name with
  | some index => (index, rt)
  | none =>
    (rt.classes.length,
      { rt with classes := rt.classes ++ [{ name, superclass := rt.classIndex "NSObject" }] })

/-- Enter the class object of a class. -/
def addClass (name : String) (addr : U64) (rt : ObjcRuntime) : ObjcRuntime :=
  let (index, rt) := rt.classSlot name
  { rt with
    classAddrByName := rt.classAddrByName.insert name addr
    classIndexByAddr := rt.classIndexByAddr.insert addr index }

/-- The class object of a class, allocated on first use. -/
def getOrCreateClass (p : Profile) (name : String) : ShimM (Option U64) := do
  let rt ← runtime
  match rt.classAddrByName.get? name with
  | some addr => return some addr
  | none =>
    match ← onMem (GuestMemory.heapAlloc p objHeaderSize 16) with
    | .error _ => return none
    | .ok addr =>
      match ← onMem (GuestMemory.writeU64 addr (classMagic ||| addr)) with
      | .error _ => return none
      | .ok _ =>
        modifyRuntime (addClass name addr)
        return some addr

/-- `self.classes[index].name`. -/
def className (rt : ObjcRuntime) (index : ℕ) : Except Panic String :=
  match rt.classes[index]? with
  | some c => .ok c.name
  | none => .error .indexOutOfBounds

/-! ## Instances -/

/-- Enter an instance, retained once. -/
def addInstance (obj : U64) (index : ℕ) (rt : ObjcRuntime) : ObjcRuntime :=
  { rt with
    instanceClass := rt.instanceClass.insert obj index
    retainCounts := rt.retainCounts.insert obj 1 }

/-- Allocate an instance of a class object. -/
def allocInstance (p : Profile) (classAddr : U64) : ShimM (Option U64) := do
  let rt ← runtime
  match rt.classIndexByAddr.get? classAddr with
  | none => return none
  | some index =>
    match ← onMem (GuestMemory.heapAlloc p objHeaderSize 16) with
    | .error _ => return none
    | .ok obj =>
      match ← onMem (GuestMemory.writeU64 obj classAddr) with
      | .error _ => return none
      | .ok _ =>
        modifyRuntime (addInstance obj index)
        return some obj

/-- Allocate an instance and return it to the guest. -/
def allocVia (p : Profile) (classAddr : U64) : ShimM Unit := do
  let obj ← allocInstance p classAddr
  ret (obj.getD 0)

/-- Add to the retain count of an instance, if it has one. -/
def countBy (p : Profile) (n : BitVec 64) (obj : U64) : ShimM Unit := do
  let rt ← runtime
  match rt.retainCounts.get? obj with
  | none => return ()
  | some c =>
    let c ← Prog.ofChecked (p.addSigned c n)
    modifyRuntime fun rt => { rt with retainCounts := rt.retainCounts.insert obj c }

/-- The class object of the class of an instance. A class is its own class. -/
def classOf (obj : U64) : ShimM U64 := do
  let rt ← runtime
  match rt.instanceClass.get? obj with
  | none => return obj
  | some index =>
    let name ← Prog.ofChecked (rt.className index)
    return (rt.classAddrByName.get? name).getD 0

/-! ## Messages -/

/-- The messages that are told apart. -/
inductive Message
  | alloc
  | new
  | init
  | retain
  | identity
  | release
  | retainCount
  | classObject
  | no
  | hash
  | other
  deriving DecidableEq

/-- The message of a selector. -/
def Message.ofSelector (sel : String) : Message :=
  if sel = "alloc" ∨ sel = "allocWithZone:" then .alloc
  else if sel = "new" then .new
  else if sel = "init" ∨ "initWith".toList <+: sel.toList then .init
  else if sel = "retain" then .retain
  else if sel = "self" ∨ sel = "autorelease" then .identity
  else if sel = "release" then .release
  else if sel = "retainCount" then .retainCount
  else if sel = "class" then .classObject
  else if sel = "respondsToSelector:" ∨ sel = "isKindOfClass:" ∨ sel = "conformsToProtocol:"
    then .no
  else if sel = "hash" then .hash
  else .other

/-- Answer a message. Only a class object can be asked for an instance. -/
def receive (p : Profile) (recv : U64) : Message → ShimM U64
  | .alloc | .new => do
    let rt ← runtime
    if (rt.classIndexByAddr.get? recv).isSome then
      let obj ← allocInstance p recv
      return obj.getD 0
    else return 0
  | .init | .identity | .hash => return recv
  | .retain => do
    countBy p 1 recv
    return recv
  | .release => do
    countBy p (-1) recv
    return 0
  | .retainCount => do
    let rt ← runtime
    return (rt.retainCounts.get? recv).getD 1
  | .classObject => classOf recv
  | .no | .other => return 0

/-- `objc_msgSend(self, _cmd, ...)`. A message to `nil`, or with a selector that cannot be
read, is answered with `nil`. -/
def msgSend (p : Profile) : ShimM Dispatch :=
  answer do
    let recv ← arg 0
    let selPtr ← arg 1
    if recv = 0 then return 0
    else
      match ← readMem fun m => m.readCstr selPtr 256 with
      | .ok sel => if sel = "" then return 0 else receive p recv (.ofSelector sel)
      | .error _ => return 0

end ObjcRuntime

end IosEmu
