import IosEmu.Cpu
import IosEmu.GuestMemory
import IosEmu.Sandbox

/-!
# The Darwin system calls

`dispatch` services one system call : it decodes the selector in `x16` into a class and a
number, runs the handler of that number, and answers in the registers. A handler is a
program over the process and the host's files that ends with a value or an error number;
numbers without a handler get a default answer.

What the handlers do not control is in `Host` : the build, the kernel's answers, and the
clock.
-/

open SysLib

namespace IosEmu

/-! ## Error numbers -/

namespace Errno

def ENOENT : U32 := 2
def EIO : U32 := 5
def EBADF : U32 := 9
def ENOMEM : U32 := 12
def EACCES : U32 := 13
def EFAULT : U32 := 14
def EEXIST : U32 := 17
def EINVAL : U32 := 22
def ESPIPE : U32 := 29
def EROFS : U32 := 30
def EAGAIN : U32 := 35
def ENOSYS : U32 := 78

/-- The Darwin error number of a host error. -/
def fromIo : IoErrorKind → U32
  | .notFound => ENOENT
  | .permissionDenied => EACCES
  | .alreadyExists => EEXIST
  | .wouldBlock => EAGAIN
  | .invalidInput => EINVAL
  | .brokenPipe => ESPIPE
  | .other => EIO

end Errno

open Errno

/-! ## Descriptors -/

/-- What a guest descriptor refers to. -/
inductive FdObject
  | stdout
  | stderr
  | stdin
  | file (f : File)
  | dir
  deriving DecidableEq

/-- The descriptors of a process. -/
structure FdTable where
  slots : SortedMap (BitVec 32) FdObject
  next : BitVec 32

namespace FdTable

/-- The table with the standard streams. -/
def default : FdTable :=
  ⟨((SortedMap.empty.insert 0 .stdin).insert 1 .stdout).insert 2 .stderr, 3⟩

/-- The lowest free descriptor from `fd` on. There is one among as many candidates as there
are entries and one more. -/
def firstFree (p : Profile) (slots : SortedMap (BitVec 32) FdObject) :
    ℕ → BitVec 32 → Except Panic (BitVec 32)
  | 0, fd => .ok fd
  | fuel + 1, fd =>
    if (slots.get? fd).isSome then do
      let fd ← p.addSigned fd 1
      firstFree p slots fuel fd
    else .ok fd

/-- Insert `obj` at the lowest free descriptor from 3 on. -/
def insert (p : Profile) (t : FdTable) (obj : FdObject) : Except Panic (BitVec 32 × FdTable) := do
  let fd ← firstFree p t.slots (t.slots.entries.length + 1) 3
  let after ← p.addSigned fd 1
  let next := if t.next.toInt < after.toInt then after else t.next
  return (fd, ⟨t.slots.insert fd obj, next⟩)

/-- Close a descriptor. The standard streams stay open. -/
def close (t : FdTable) (fd : BitVec 32) : Bool × FdTable :=
  if fd = 0 ∨ fd = 1 ∨ fd = 2 then (true, t)
  else ((t.slots.get? fd).isSome, { t with slots := t.slots.erase fd })

end FdTable

/-! ## Handlers -/

/-- The time since the epoch. -/
structure Clock where
  secs : U64
  nanos : U32

/-- What a handler does not control. The clock is missing if it is before the epoch. -/
structure Host where
  build : Build
  kernel : Kernel
  clock : Option Clock

/-- What a handler may touch. -/
structure SyscallCtx where
  cpu : CpuContext
  mem : GuestMemory
  fds : FdTable
  exit : Option (BitVec 32)
  fs : HostFs

/-- A handler : its value, or an error number. -/
abbrev SysM := Prog U32 Panic SyscallCtx

namespace SyscallCtx

/-- Run a call on the guest memory, with `errno` for every error. -/
def onMem {α : Type} (errno : U32) (x : MemM α) : SysM α :=
  Prog.mapErr (fun _ => errno) (Prog.zoom SyscallCtx.mem (fun mem c => { c with mem }) x)

/-- Run a call on the host's files. -/
def onFs {α : Type} (x : FsM α) : SysM α :=
  Prog.mapErr fromIo (Prog.zoom SyscallCtx.fs (fun fs c => { c with fs }) x)

theorem onFs_eq_ok {α : Type} {x : FsM α} {c c' : SyscallCtx} {a : α} :
    onFs x c = .ok a c' ↔ ∃ fs, x c.fs = .ok a fs ∧ c' = { c with fs } := by
  unfold onFs Prog.mapErr Prog.zoom
  rcases x c.fs with ⟨b, fs⟩ | ⟨e, fs⟩ | e
  · simp only [Outcome.ok.injEq]
    exact ⟨fun ⟨h, h'⟩ => ⟨fs, ⟨h, rfl⟩, h'.symm⟩, fun ⟨_, ⟨h, h'⟩, h''⟩ => ⟨h, h' ▸ h''.symm⟩⟩
  · simp
  · simp

/-- Put an open file back at its descriptor. -/
def setFile (fd : BitVec 32) (f : File) : SysM Unit :=
  Prog.modify fun c =>
    { c with fds := { c.fds with slots := c.fds.slots.insert fd (.file f) } }

/-- Read guest memory. -/
def readMem {α : Type} (read : GuestMemory → EmuResult α) : SysM α := do
  let c ← Prog.get
  Prog.ofResult ((read c.mem).mapError fun _ => EFAULT)

theorem mapError_eq_ok {ε ε' α : Type} {f : ε → ε'} {x : Except ε α} {a : α} :
    x.mapError f = .ok a ↔ x = .ok a := by
  rcases x with e | b
  · exact iff_of_false (by rintro ⟨⟩) (by rintro ⟨⟩)
  · exact ⟨fun h => congrArg _ (Except.ok.inj h), fun h => congrArg _ (Except.ok.inj h)⟩

theorem readMem_eq_ok {α : Type} {read : GuestMemory → EmuResult α} {c c' : SyscallCtx} {a : α}
    (h : readMem read c = .ok a c') : read c.mem = .ok a ∧ c' = c := by
  rw [readMem, Prog.get_bind, Prog.ofResult_eq_ok] at h
  exact ⟨mapError_eq_ok.1 h.1, h.2⟩

end SyscallCtx

open SyscallCtx

/-- `vec![0u8; count]`. -/
def allocBytes (count : ℕ) : Except Panic Unit :=
  if count ≤ isizeMax then .ok () else .error .capacityOverflow

namespace Unix

def O_RDONLY : U64 := 0x0
def O_WRONLY : U64 := 0x1
def O_ACCMODE : U64 := 0x3
def O_APPEND : U64 := 0x8
def O_CREAT : U64 := 0x200
def O_TRUNC : U64 := 0x400
def O_EXCL : U64 := 0x800
def MAP_ANON : U64 := 0x1000

def sysExit : SysM U64 := do
  Prog.modify fun c => { c with exit := some ((c.cpu.arg 0).setWidth 32) }
  return 0

/-- The bytes a descriptor gives to a read of `count`. -/
def readBytes (host : Host) (fd : BitVec 32) (count : ℕ) : SysM (List U8) := do
  let c ← Prog.get
  match c.fds.slots.get? fd with
  | some (.file f) =>
    let (bytes, f) ← onFs (f.read host.kernel count)
    setFile fd f
    return bytes
  | some .stdin => return []
  | some _ => Prog.fail EINVAL
  | none => Prog.fail EBADF

def sysRead (host : Host) : SysM U64 := do
  let c ← Prog.get
  let count := (c.cpu.arg 2).toNat
  Prog.ofChecked (allocBytes count)
  let bytes ← readBytes host ((c.cpu.arg 0).setWidth 32) count
  onMem EFAULT (GuestMemory.write (c.cpu.arg 1) bytes)
  return BitVec.ofNat 64 bytes.length

/-- The common part of `write` and `writev`. -/
def writeBytes (host : Host) (fd : BitVec 32) (data : List U8) : SysM U64 := do
  let c ← Prog.get
  match c.fds.slots.get? fd with
  | some .stdout => return BitVec.ofNat 64 data.length
  | some .stderr => return BitVec.ofNat 64 data.length
  | some (.file f) => do
    let (f, result) ← onFs (f.writeAll host.kernel data)
    setFile fd f
    Prog.ofResult (result.mapError fromIo)
    return BitVec.ofNat 64 data.length
  | some _ => Prog.fail EINVAL
  | none => Prog.fail EBADF

def sysWrite (host : Host) : SysM U64 := do
  let c ← Prog.get
  let count := (c.cpu.arg 2).toNat
  Prog.ofChecked (allocBytes count)
  let data ← readMem fun m => m.read (c.cpu.arg 1) count
  writeBytes host ((c.cpu.arg 0).setWidth 32) data

/-- The loop of `writev` : `left` vectors from index `i` on. -/
def writevFrom (host : Host) (fd : BitVec 32) (iov : U64) : ℕ → U64 → U64 → SysM U64
  | 0, _, total => return total
  | left + 1, i, total => do
    let off ← Prog.ofChecked (host.build.profile.mul i 16)
    let baseAddr := iov + off
    let base ← readMem fun m => m.readU64 baseAddr
    let len ← readMem fun m => m.readU64 (baseAddr + 8)
    Prog.ofChecked (allocBytes len.toNat)
    let data ← readMem fun m => m.read base len.toNat
    let n ← writeBytes host fd data
    let total ← Prog.ofChecked (host.build.profile.add total n)
    writevFrom host fd iov left (i + 1) total

def sysWritev (host : Host) : SysM U64 := do
  let c ← Prog.get
  writevFrom host ((c.cpu.arg 0).setWidth 32) (c.cpu.arg 1) (c.cpu.arg 2).toNat 0 0

/-- The options `sysOpen` hands to the host. -/
def openOptions (flags : U64) : OpenOptions where
  read := flags &&& O_ACCMODE ≠ O_WRONLY
  write := flags &&& O_ACCMODE ≠ O_RDONLY
  create := flags &&& O_CREAT ≠ 0
  truncate := flags &&& O_TRUNC ≠ 0
  append := flags &&& O_APPEND ≠ 0
  createNew := flags &&& O_EXCL ≠ 0 ∧ flags &&& O_CREAT ≠ 0

def sysOpen (host : Host) (vfs : Sandbox) : SysM U64 := do
  let c ← Prog.get
  let flags := c.cpu.arg 1
  let iosPath ← readMem fun m => m.readCstr (c.cpu.arg 0) 1024
  let (path, readOnly) ← Prog.ofResult ((vfs.translate iosPath.toList).mapError fun _ => ENOENT)
  if readOnly ∧ flags &&& O_ACCMODE ≠ O_RDONLY then Prog.fail EROFS
  else
    let file ← onFs ((openOptions flags).openPath host.kernel path)
    let c ← Prog.get
    let (fd, fds) ← Prog.ofChecked (c.fds.insert host.build.profile (.file file))
    Prog.modify fun c => { c with fds }
    return fd.signExtend 64

def sysClose : SysM U64 := do
  let c ← Prog.get
  let (closed, fds) := c.fds.close ((c.cpu.arg 0).setWidth 32)
  Prog.modify fun c => { c with fds }
  if closed then return 0 else Prog.fail EBADF

/-- The position a `whence` and an offset name. -/
def seekTarget (whence offset : U64) : Except U32 SeekFrom :=
  match whence.toNat with
  | 0 => .ok (.start offset)
  | 1 => .ok (.current offset)
  | 2 => .ok (.fromEnd offset)
  | _ => .error EINVAL

def sysLseek (host : Host) : SysM U64 := do
  let c ← Prog.get
  let fd := (c.cpu.arg 0).setWidth 32
  match c.fds.slots.get? fd with
  | some (.file f) =>
    let target ← Prog.ofResult (seekTarget (c.cpu.arg 2) (c.cpu.arg 1))
    let (pos, f) ← onFs (f.seek host.kernel target)
    setFile fd f
    return pos
  | some _ => Prog.fail ESPIPE
  | none => Prog.fail EBADF

def sysAccess (host : Host) (vfs : Sandbox) : SysM U64 := do
  let c ← Prog.get
  let iosPath ← readMem fun m => m.readCstr (c.cpu.arg 0) 1024
  let (path, _) ← Prog.ofResult ((vfs.translate iosPath.toList).mapError fun _ => ENOENT)
  if c.fs.pathExists host.kernel path then return 0 else Prog.fail ENOENT

/-- The protection of a `PROT_*` word. -/
def protOf (prot : U64) : Protection :=
  ⟨(prot &&& 0b111).setWidth 8⟩

def sysMmap (host : Host) : SysM U64 := do
  let c ← Prog.get
  if c.cpu.arg 3 &&& MAP_ANON = 0 then Prog.fail ENOSYS
  else
    onMem ENOMEM (GuestMemory.mmapAnon host.build.profile (c.cpu.arg 1) (protOf (c.cpu.arg 2)))

def sysMprotect (host : Host) : SysM U64 := do
  let c ← Prog.get
  onMem EINVAL (GuestMemory.protect host.build.target (c.cpu.arg 0) (protOf (c.cpu.arg 2)))
  return 0

def sysGettimeofday (host : Host) : SysM U64 := do
  let c ← Prog.get
  let tv := c.cpu.arg 0
  if tv = 0 then return 0
  else
    let now := host.clock.getD ⟨0, 0⟩
    onMem EFAULT (GuestMemory.writeU64 tv now.secs)
    onMem EFAULT (GuestMemory.writeU32 (tv + 8) (now.nanos / 1000))
    return 0

/-- `n` words of the xorshift stream after `state`, as bytes. -/
def entropyBytes : ℕ → U64 → List U8
  | 0, _ => []
  | n + 1, state =>
    let state := state ^^^ state <<< 13
    let state := state ^^^ state >>> 7
    let state := state ^^^ state <<< 17
    toLeBytes64 state ++ entropyBytes n state

def sysGetentropy (host : Host) : SysM U64 := do
  let c ← Prog.get
  let len := (c.cpu.arg 1).toNat
  if 256 < len then Prog.fail EINVAL
  else
    let seed := match host.clock with
      | some now => now.secs * 1000000000 + now.nanos.setWidth 64
      | none => 0x9e3779b97f4a7c15
    let bytes := (entropyBytes ((len + 7) / 8) (seed ||| 1)).take len
    onMem EFAULT (GuestMemory.write (c.cpu.arg 0) bytes)
    return 0

/-- The BSD calls that are implemented. -/
inductive Call
  | exit
  | read
  | write
  | writev
  | openFile
  | close
  | lseek
  | access
  | mmap
  | munmap
  | mprotect
  | madvise
  | getpid
  | getuid
  | getgid
  | issetugid
  | gettimeofday
  | getentropy
  | fcntl
  deriving DecidableEq, Repr

/-- The call of a number of `syscalls.master`. The variants without cancellation, and the
effective ids, are not told apart. -/
def Call.ofNumber (number : U32) : Option Call :=
  match number.toNat with
  | 1 => some .exit
  | 3 | 396 => some .read
  | 4 | 397 => some .write
  | 121 => some .writev
  | 5 | 398 => some .openFile
  | 6 | 399 => some .close
  | 199 => some .lseek
  | 33 => some .access
  | 197 => some .mmap
  | 73 => some .munmap
  | 74 => some .mprotect
  | 75 => some .madvise
  | 20 => some .getpid
  | 24 | 25 => some .getuid
  | 47 | 43 => some .getgid
  | 327 => some .issetugid
  | 116 => some .gettimeofday
  | 500 => some .getentropy
  | 92 => some .fcntl
  | _ => none

/-- The handler of a BSD call. -/
def handle (host : Host) (vfs : Sandbox) : Call → SysM U64
  | .exit => sysExit
  | .read => sysRead host
  | .write => sysWrite host
  | .writev => sysWritev host
  | .openFile => sysOpen host vfs
  | .close => sysClose
  | .lseek => sysLseek host
  | .access => sysAccess host vfs
  | .mmap => sysMmap host
  | .munmap => pure 0
  | .mprotect => sysMprotect host
  | .madvise => pure 0
  | .getpid => pure 1
  | .getuid => pure 501
  | .getgid => pure 501
  | .issetugid => pure 0
  | .gettimeofday => sysGettimeofday host
  | .getentropy => sysGetentropy host
  | .fcntl => pure 0

end Unix

namespace Mach

/-- `_kernelrpc_mach_vm_allocate_trap`. -/
def vmAllocate (host : Host) : SysM U64 := do
  let c ← Prog.get
  let base ← Prog.attempt
    (onMem 0 (GuestMemory.mmapAnon host.build.profile (c.cpu.arg 2) .rw))
  match base with
  | .ok base =>
    match ← Prog.attempt (onMem 0 (GuestMemory.writeU64 (c.cpu.arg 1) base)) with
    | .ok _ => return 0
    | .error _ => return 4
  | .error _ => return 3

/-- The Mach traps that are implemented. -/
inductive Trap
  | taskSelf
  | hostSelf
  | threadSelf
  | replyPort
  | msg
  | semaphore
  | vmAllocate
  | vmDeallocate
  deriving DecidableEq, Repr

def Trap.ofNumber (number : U32) : Option Trap :=
  match number.toNat with
  | 28 => some .taskSelf
  | 29 => some .hostSelf
  | 27 => some .threadSelf
  | 26 => some .replyPort
  | 31 | 32 => some .msg
  | 33 | 36 => some .semaphore
  | 10 => some .vmAllocate
  | 12 => some .vmDeallocate
  | _ => none

/-- The handler of a Mach trap. Ports are made-up names. -/
def handle (host : Host) : Trap → SysM U64
  | .taskSelf => pure 0x103
  | .hostSelf => pure 0x203
  | .threadSelf => pure 0x303
  | .replyPort => pure 0x403
  | .msg => pure 0
  | .semaphore => pure 0
  | .vmAllocate => vmAllocate host
  | .vmDeallocate => pure 0

end Mach

/-! ## Dispatch -/

/-- The class and number of a selector. A negative one is a Mach trap. -/
def decode (p : Profile) (x16 : U64) : Except Panic (SyscallClass × U32) :=
  if x16.toInt < 0 then do
    let magnitude ← p.neg x16
    return (.mach, magnitude.setWidth 32)
  else
    let raw : U32 := x16.setWidth 32
    if raw &&& 0xff000000 ≠ 0 then
      let number := raw &&& 0x00ffffff
      match (raw >>> 24).toNat with
      | 1 => .ok (.mach, number)
      | 3 => .ok (.machDep, number)
      | 4 => .ok (.diag, number)
      | _ => .ok (.unix, number)
    else .ok (.unix, raw)

/-- Counters of the dispatcher. -/
structure SyscallDispatcher where
  serviced : U64
  stubbed : U64

/-- What a selector without a handler is answered. -/
def stubAnswer : SyscallClass → Except U32 U64
  | .unix => .error ENOSYS
  | _ => .ok 0

/-- The handler of a class and number. -/
def handlerOf (host : Host) (vfs : Sandbox) : SyscallClass → U32 → Option (SysM U64)
  | .unix, number => (Unix.Call.ofNumber number).map (Unix.handle host vfs)
  | .mach, number => (Mach.Trap.ofNumber number).map (Mach.handle host)
  | _, _ => none

/-- Service one system call. -/
def dispatch (host : Host) (vfs : Sandbox) (d : SyscallDispatcher) :
    Prog Empty Panic SyscallCtx SyscallDispatcher := do
  let serviced ← Prog.ofChecked (host.build.profile.add d.serviced 1)
  let c ← Prog.get
  let (cls, number) ← Prog.ofChecked (decode host.build.profile (c.cpu.x 16))
  match handlerOf host vfs cls number with
  | some handler =>
    let result ← Prog.attempt handler
    Prog.modify fun c => { c with cpu := c.cpu.setSyscallResult result }
    return { d with serviced }
  | none =>
    let stubbed ← Prog.ofChecked (host.build.profile.add d.stubbed 1)
    Prog.modify fun c => { c with cpu := c.cpu.setSyscallResult (stubAnswer cls) }
    return { serviced, stubbed }

/-- A system call is its handler, or the answer of a stub, and then an answer in the
registers. -/
theorem dispatch_cases {host : Host} {vfs : Sandbox} {d : SyscallDispatcher} {c c' : SyscallCtx}
    (h : (dispatch host vfs d c).state? = some c') :
    ∃ cls number, decode host.build.profile (c.cpu.x 16) = .ok (cls, number) ∧
      ((handlerOf host vfs cls number = none ∧
          c' = { c with cpu := c.cpu.setSyscallResult (stubAnswer cls) }) ∨
        ∃ handler c₁ result, handlerOf host vfs cls number = some handler ∧
          (handler c).state? = some c₁ ∧
          c' = { c₁ with cpu := c₁.cpu.setSyscallResult result }) := by
  unfold dispatch at h
  rcases Prog.state?_bind_eq_some h with ⟨serviced, c₁, hok, h₁⟩ | ⟨e, -⟩
  · obtain ⟨-, rfl⟩ := Prog.ofChecked_eq_ok.1 hok
    rw [Prog.get_bind] at h₁
    rcases Prog.state?_bind_eq_some h₁ with ⟨⟨cls, number⟩, c₂, hok, h₂⟩ | ⟨e, -⟩
    · obtain ⟨hdecode, rfl⟩ := Prog.ofChecked_eq_ok.1 hok
      refine ⟨cls, number, hdecode, ?_⟩
      rcases hh : handlerOf host vfs cls number with _ | handler <;> simp only [hh] at h₂
      · rcases Prog.state?_bind_eq_some h₂ with ⟨stubbed, c₃, hok, h₃⟩ | ⟨e, -⟩
        · obtain ⟨-, rfl⟩ := Prog.ofChecked_eq_ok.1 hok
          exact Or.inl ⟨rfl, (Option.some.inj h₃).symm⟩
        · exact e.elim
      · rcases Prog.state?_bind_eq_some h₂ with ⟨result, c₃, hok, h₃⟩ | ⟨e, -⟩
        · refine Or.inr ⟨handler, c₃, result, rfl, ?_, (Option.some.inj h₃).symm⟩
          rcases Prog.attempt_eq_ok.1 hok with ⟨a, hrun, -⟩ | ⟨e, hrun, -⟩
          · rw [hrun]
            rfl
          · rw [hrun]
            rfl
        · exact e.elim
    · exact e.elim
  · exact e.elim

/-- A selector with a handler is answered with the outcome of the handler. -/
theorem dispatch_of_handler {host : Host} {vfs : Sandbox} {d : SyscallDispatcher} {c : SyscallCtx}
    {serviced : U64} {cls : SyscallClass} {number : U32} {handler : SysM U64}
    (hadd : host.build.profile.add d.serviced 1 = .ok serviced)
    (hdecode : decode host.build.profile (c.cpu.x 16) = .ok (cls, number))
    (hh : handlerOf host vfs cls number = some handler) :
    dispatch host vfs d c =
      match handler c with
      | .ok v c' => .ok { d with serviced } { c' with cpu := c'.cpu.setSyscallResult (.ok v) }
      | .err e c' => .ok { d with serviced } { c' with cpu := c'.cpu.setSyscallResult (.error e) }
      | .panic e => .panic e := by
  unfold dispatch
  simp only [Prog.bind_apply, hadd, Prog.ofChecked_ok, Prog.get_apply, hdecode, hh, Prog.attempt]
  rcases handler c with ⟨v, c'⟩ | ⟨e, c'⟩ | e <;> rfl

end IosEmu
