import IosEmu.Common

/-!
# The register file

`CpuContext` is the user-mode state of an AArch64 thread. Arguments are read from `x0` to
`x7`, and a system call answers in `x0` with the carry flag set on an error.
-/

namespace IosEmu

instance neZeroRegisters : NeZero 29 :=
  ⟨by decide⟩

instance neZeroArguments : NeZero 8 :=
  ⟨by decide⟩

/-- The general registers `x0` to `x28`, and the rest of the thread state. -/
structure CpuContext where
  x : Fin 29 → U64
  fp : U64
  lr : U64
  sp : U64
  pc : U64
  nzcv : U64
  tpidrroEl0 : U64

namespace CpuContext

/-- All registers zero. -/
def default : CpuContext :=
  ⟨fun _ => 0, 0, 0, 0, 0, 0, 0⟩

/-- The registers at the entry of a function with four arguments. -/
def entry (pc sp : U64) (args : Fin 4 → U64) : CpuContext :=
  { default with
    x := fun i => if h : i.val < 4 then args ⟨i.val, h⟩ else 0
    sp
    pc }

/-- An argument register. The assertion that there are eight is in the type. -/
def arg (cpu : CpuContext) (n : Fin 8) : U64 :=
  cpu.x (n.castLE (by omega))

/-- Set the return value. -/
def setRet (cpu : CpuContext) (v : U64) : CpuContext :=
  { cpu with x := Function.update cpu.x 0 v }

@[simp] theorem arg_setRet (cpu : CpuContext) (v : U64) : (cpu.setRet v).arg 0 = v := by
  change Function.update cpu.x 0 v 0 = v
  rw [Function.update_self]

/-- The carry flag, which tells a system call's error from its value. -/
def carry : U64 := 1 <<< 29

/-- Answer a system call. -/
def setSyscallResult (cpu : CpuContext) : Except U32 U64 → CpuContext
  | .ok v => { cpu with x := Function.update cpu.x 0 v, nzcv := cpu.nzcv &&& ~~~carry }
  | .error errno =>
    { cpu with x := Function.update cpu.x 0 (errno.setWidth 64), nzcv := cpu.nzcv ||| carry }

end CpuContext

/-- Why the executor handed control back. -/
inductive ExecEvent
  | syscall (imm : BitVec 16)
  | trampolineCall (addr : U64)
  | breakpoint (imm : BitVec 16)
  | exited (code : BitVec 32)
  | fault (pc : U64) (reason : String)

end IosEmu
