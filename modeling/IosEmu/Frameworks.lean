import IosEmu.Objc

/-!
# The bundled frameworks

Each framework is a table of shims by name, and `installAll` enters all of them in one
registry. `hleEnvironment` is the environment that looks a symbol up there : what it does not
find is left to the machine, which answers zero.
-/

open SysLib

namespace IosEmu

open ShimM ObjcRuntime

/-- The shims of a framework, by name. -/
abbrev Shims := List (String × ShimM Dispatch)

namespace Frameworks

/-- Answer zero. -/
def stubZero : ShimM Dispatch :=
  answer (return 0)

/-- Names that are all answered with zero. -/
def stubs (names : List String) : Shims :=
  names.map fun name => (name, stubZero)

/-! ## `libobjc` -/

namespace ObjcRt

def objcGetClass (p : Profile) : ShimM Dispatch :=
  answer do
    let namePtr ← arg 0
    let name ← readMem fun m => m.readCstr namePtr 256
    let addr ← getOrCreateClass p (name.toOption.getD "")
    return addr.getD 0

/-- A selector is the pointer to its name. -/
def selRegisterName : ShimM Dispatch :=
  answer (arg 0)

def objcRetain : ShimM Dispatch :=
  answer (arg 0)

def objcRelease : ShimM Dispatch :=
  answer (return 0)

def objcAlloc (p : Profile) : ShimM Dispatch := do
  let cls ← arg 0
  allocVia p cls
  return .handled

def shims (p : Profile) : Shims :=
  [("objc_msgSend", msgSend p),
   ("objc_msgSendSuper", msgSend p),
   ("objc_msgSendSuper2", msgSend p),
   ("objc_getClass", objcGetClass p),
   ("objc_lookUpClass", objcGetClass p),
   ("objc_getRequiredClass", objcGetClass p),
   ("objc_getMetaClass", objcGetClass p),
   ("sel_registerName", selRegisterName),
   ("sel_getUid", selRegisterName),
   ("objc_retain", objcRetain),
   ("objc_release", objcRelease),
   ("objc_autorelease", objcRetain),
   ("objc_retainAutoreleasedReturnValue", objcRetain),
   ("objc_autoreleaseReturnValue", objcRetain),
   ("objc_alloc", objcAlloc p),
   ("objc_alloc_init", objcAlloc p)] ++
  stubs ["objc_storeStrong", "objc_autoreleasePoolPush", "objc_autoreleasePoolPop"]

end ObjcRt

/-! ## `libSystem` -/

namespace Libsystem

/-- `x.saturating_mul(y)`. -/
def saturatingMul (x y : U64) : U64 :=
  if x.toNat * y.toNat < 2 ^ 64 then x * y else BitVec.allOnes 64

/-- `a.cmp(b)` of byte slices. -/
def cmpBytes : List U8 → List U8 → Ordering
  | [], [] => .eq
  | [], _ :: _ => .lt
  | _ :: _, [] => .gt
  | a :: as, b :: bs => if a < b then .lt else if b < a then .gt else cmpBytes as bs

/-- `-1`, `0` or `1`. -/
def orderingWord : Ordering → U64
  | .lt => -1
  | .eq => 0
  | .gt => 1

def malloc (p : Profile) : ShimM Dispatch :=
  answer do
    let size ← arg 0
    let addr ← onMem (GuestMemory.heapAlloc p size 16)
    return addr.toOption.getD 0

/-- The heap is zero when it is mapped, so the block is not cleared. -/
def calloc (p : Profile) : ShimM Dispatch :=
  answer do
    let n ← arg 0
    let m ← arg 1
    let addr ← onMem (GuestMemory.heapAlloc p (saturatingMul n m) 16)
    return addr.toOption.getD 0

/-- Copy bytes that can be read, if they can be written. -/
def copyBytes (dst src : U64) (n : ℕ) : ShimM Unit := do
  Prog.ofChecked (allocBytes n)
  match ← readMem fun m => m.read src n with
  | .ok tmp =>
    let _written ← onMem (GuestMemory.write dst tmp)
    return ()
  | .error _ => return ()

/-- Allocate afresh, and copy as many bytes as are asked for. -/
def realloc (p : Profile) : ShimM Dispatch :=
  answer do
    let old ← arg 0
    let size ← arg 1
    match ← onMem (GuestMemory.heapAlloc p size 16) with
    | .error _ => return 0
    | .ok new =>
      if old ≠ 0 then copyBytes new old size.toNat
      return new

def free : ShimM Dispatch :=
  answer (return 0)

def memcpy : ShimM Dispatch :=
  answer do
    let dst ← arg 0
    let src ← arg 1
    let n ← arg 2
    copyBytes dst src n.toNat
    return dst

/-- Write `n` times the same byte, if they can be written. -/
def fillBytes (dst : U64) (byte : U8) (n : ℕ) : ShimM Unit := do
  Prog.ofChecked (allocBytes n)
  let _written ← onMem (GuestMemory.write dst (List.replicate n byte))
  return ()

def memset : ShimM Dispatch :=
  answer do
    let dst ← arg 0
    let byte ← arg 1
    let n ← arg 2
    fillBytes dst (byte.setWidth 8) n.toNat
    return dst

def bzero : ShimM Dispatch :=
  answer do
    let dst ← arg 0
    let n ← arg 1
    fillBytes dst 0 n.toNat
    return 0

/-- The bytes of a C string, none if it cannot be read. -/
def cstrArg (n : Fin 8) (max : ℕ) : ShimM (List U8) := do
  let ptr ← arg n
  let s ← readMem fun m => m.readCstr ptr max
  return utf8Bytes (s.toOption.getD "")

def strlen : ShimM Dispatch :=
  answer do
    let s ← cstrArg 0 (2 ^ 20)
    return BitVec.ofNat 64 s.length

def strcmp : ShimM Dispatch :=
  answer do
    let a ← cstrArg 0 (2 ^ 16)
    let b ← cstrArg 1 (2 ^ 16)
    return orderingWord (cmpBytes a b)

/-- The bytes of a buffer of `n` zeros that is read into, if it can be. -/
def readBuffer (addr : U64) (n : ℕ) : ShimM (List U8) := do
  let bytes ← readMem fun m => m.read addr n
  return bytes.toOption.getD (List.replicate n 0)

def memcmp : ShimM Dispatch :=
  answer do
    let a ← arg 0
    let b ← arg 1
    let n ← arg 2
    Prog.ofChecked (allocBytes n.toNat)
    let as ← readBuffer a n.toNat
    let bs ← readBuffer b n.toNat
    return orderingWord (cmpBytes as bs)

/-- The block is not called, and reported as done. -/
def pthreadOnce : ShimM Dispatch :=
  answer (return 0)

def shims (p : Profile) : Shims :=
  [("malloc", malloc p),
   ("calloc", calloc p),
   ("realloc", realloc p),
   ("free", free),
   ("memcpy", memcpy),
   ("memmove", memcpy),
   ("memset", memset),
   ("bzero", bzero),
   ("strlen", strlen),
   ("strcmp", strcmp),
   ("memcmp", memcmp),
   ("pthread_mutex_lock", stubZero),
   ("pthread_mutex_unlock", stubZero),
   ("pthread_mutex_init", stubZero),
   ("pthread_once", pthreadOnce),
   ("dispatch_once", pthreadOnce),
   ("__stack_chk_fail", stubZero)]

end Libsystem

/-! ## The other frameworks -/

/-- What `NSLog` reads is only logged. -/
def nsLog : ShimM Dispatch :=
  answer (return 0)

def foundation : Shims :=
  [("NSLog", nsLog), ("CFShow", nsLog)] ++
  stubs ["CFRetain", "CFRelease", "CFBridgingRetain", "CFBridgingRelease",
    "NSSearchPathForDirectoriesInDomains", "CFStringCreateWithCString",
    "CFAllocatorGetDefault", "NSStringFromClass", "objc_setAssociatedObject",
    "objc_getAssociatedObject"]

/-- It returns at once, so that a headless run ends. -/
def uiApplicationMain : ShimM Dispatch :=
  answer (return 0)

def uikit : Shims :=
  [("UIApplicationMain", uiApplicationMain)] ++
  stubs ["UIGraphicsGetCurrentContext", "UIGraphicsBeginImageContext",
    "UIGraphicsEndImageContext", "UIImagePNGRepresentation", "UIScreenMainScreen"]

def cgMainDisplayId : ShimM Dispatch :=
  answer (return 1)

def coregraphics : Shims :=
  stubs ["CGColorCreate", "CGColorRelease", "CGContextSetFillColorWithColor",
    "CGContextFillRect", "CGContextRef", "CGBitmapContextCreate",
    "CGColorSpaceCreateDeviceRGB", "CGColorSpaceRelease", "CGContextDrawImage",
    "CGImageRelease"] ++
  [("CGMainDisplayID", cgMainDisplayId)]

def gles : Shims :=
  stubs ["glClear", "glClearColor", "glViewport", "glGenBuffers", "glBindBuffer",
    "glBufferData", "glCreateShader", "glCompileShader", "glCreateProgram", "glUseProgram",
    "glDrawArrays", "glDrawElements", "glGetError", "glFlush", "glFinish"]

/-! ## The registry -/

/-- Every bundled framework, in the order in which they are installed. -/
def bundled (p : Profile) : Shims :=
  ObjcRt.shims p ++ Libsystem.shims p ++ foundation ++ uikit ++ coregraphics ++ gles

/-- The registry of shims : a later entry of a name replaces an earlier one. -/
def installAll (p : Profile) : SortedMap String (ShimM Dispatch) :=
  (bundled p).foldl (fun registry e => registry.insert e.1 e.2) .empty

end Frameworks

/-- Run the shim of a symbol, if it is in the registry. -/
def callShim (shims : SortedMap String (ShimM Dispatch)) (symbol : String) : ShimM Dispatch :=
  match shims.get? symbol with
  | some shim => shim
  | none => return .unhandled

/-- The environment of the bundled frameworks. -/
def hleEnvironment (p : Profile) : HostEnvironment ObjcRuntime where
  call _ symbol := callShim (Frameworks.installAll p) symbol
  onProcessStart _ := modifyRuntime preloadRootClasses

end IosEmu
