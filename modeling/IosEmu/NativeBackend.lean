import IosEmu.Registers
import IosEmu.RunLoop
import IosEmu.SyscallTrap
import Mathlib.Tactic.IntervalCases

/-!
# The native backend

On device the guest runs on the processor of the host. `resume` loads its registers from its
context by a stub of machine code (`stub`), and the handler of the trap that ends its run puts
them back (`capture`). The stub needs a register that is not the guest's, first for the address of
the context and then for the address to go on at, and takes `x18`, which the platform of the guest
reserves. So the guest is resumed with the registers of its context but for `x18`, where it finds
the address it is resumed at (`installAndBranch_eq`).
-/

open SysLib

namespace IosEmu

namespace Native

/-! ## The stub -/

/-- The registers of the processor that user code sees. -/
structure Hardware where
  x : Fin 31 → U64
  sp : U64
  pc : U64
  pstate : U64

/-- The flags in the processor state. -/
def flags : U64 := 0xf0000000

/-- `guest_cpu_context`, as words. -/
def contextWords (ctx : CpuContext) : List U64 :=
  List.ofFn ctx.x ++ [ctx.fp, ctx.lr, ctx.sp, ctx.pc, ctx.nzcv, ctx.tpidrroEl0]

/-- The memory holds the context at `base`. -/
def HoldsContext (load : U64 → U64) (base : U64) (ctx : CpuContext) : Prop :=
  ∀ i w, (contextWords ctx)[i]? = some w → load (base + BitVec.ofNat 64 (8 * i)) = w

/-- The instructions of the stub. All loads are relative to `x18`. -/
inductive StubInsn
  | ldr (rt : Fin 31) (off : U64)
  | ldp (rt rt' : Fin 31) (off : U64)
  | movSp (rn : Fin 31)
  | msrNzcv (rn : Fin 31)
  | br (rn : Fin 31)

/-- What an instruction does to the registers. -/
def StubInsn.exec (load : U64 → U64) (hw : Hardware) : StubInsn → Hardware
  | ldr rt off => { hw with x := Function.update hw.x rt (load (hw.x 18 + off)) }
  | ldp rt rt' off =>
    { hw with
      x := Function.update (Function.update hw.x rt (load (hw.x 18 + off))) rt'
        (load (hw.x 18 + (off + 8))) }
  | movSp rn => { hw with sp := hw.x rn }
  | msrNzcv rn => { hw with pstate := hw.pstate &&& ~~~flags ||| hw.x rn &&& flags }
  | br rn => { hw with pc := hw.x rn }

/-- The stub, once the address of the context is in `x18`. -/
def stub : List StubInsn :=
  [.ldr 1 248, .movSp 1, .ldr 1 264, .msrNzcv 1, .ldp 0 1 0, .ldp 2 3 16, .ldp 4 5 32, .ldp 6 7 48,
    .ldp 8 9 64, .ldp 10 11 80, .ldp 12 13 96, .ldp 14 15 112, .ldp 16 17 128, .ldp 19 20 152,
    .ldp 21 22 168, .ldp 23 24 184, .ldp 25 26 200, .ldp 27 28 216, .ldr 29 232, .ldr 30 240,
    .ldr 18 256, .br 18]

/-- `install_and_branch`. -/
def installAndBranch (load : U64 → U64) (base : U64) (hw : Hardware) : Hardware :=
  stub.foldl (StubInsn.exec load) { hw with x := Function.update hw.x 18 base }

/-- The registers of the context, with `x18` as given. -/
def enter (hw : Hardware) (ctx : CpuContext) (x18 : U64) : Hardware where
  x i :=
    if h : i.val < 29 then if i.val = 18 then x18 else ctx.x ⟨i, h⟩
    else if i.val = 29 then ctx.fp else ctx.lr
  sp := ctx.sp
  pc := ctx.pc
  pstate := hw.pstate &&& ~~~flags ||| ctx.nzcv &&& flags

theorem getElem?_contextWords (ctx : CpuContext) {i : ℕ} (hi : i < 29) :
    (contextWords ctx)[i]? = some (ctx.x ⟨i, hi⟩) := by
  rw [contextWords, List.getElem?_append_left (by rwa [List.length_ofFn]),
    List.getElem?_ofFn, dif_pos hi]

theorem getElem?_contextWords_rest (ctx : CpuContext) (i : ℕ) :
    (contextWords ctx)[29 + i]? =
      [ctx.fp, ctx.lr, ctx.sp, ctx.pc, ctx.nzcv, ctx.tpidrroEl0][i]? := by
  rw [contextWords, List.getElem?_append_right (by rw [List.length_ofFn]; omega),
    List.length_ofFn, Nat.add_sub_cancel_left]

/-- The stub loads all registers of the context but `x18`, where it leaves the address it goes
to. -/
theorem installAndBranch_eq (load : U64 → U64) (base : U64) (hw : Hardware) (ctx : CpuContext)
    (h : HoldsContext load base ctx) :
    installAndBranch load base hw = enter hw ctx ctx.pc := by
  have hx : ∀ i (hi : i < 29), load (base + BitVec.ofNat 64 (8 * i)) = ctx.x ⟨i, hi⟩ :=
    fun i hi => h i _ (getElem?_contextWords ctx hi)
  have hfp : load (base + 232) = ctx.fp := h 29 _ (getElem?_contextWords_rest ctx 0)
  have hlr : load (base + 240) = ctx.lr := h 30 _ (getElem?_contextWords_rest ctx 1)
  have hsp : load (base + 248) = ctx.sp := h 31 _ (getElem?_contextWords_rest ctx 2)
  have hpc : load (base + 256) = ctx.pc := h 32 _ (getElem?_contextWords_rest ctx 3)
  have hnzcv : load (base + 264) = ctx.nzcv := h 33 _ (getElem?_contextWords_rest ctx 4)
  unfold installAndBranch stub
  simp only [List.foldl_cons, List.foldl_nil, StubInsn.exec, Function.update_self, ne_eq,
    Fin.reduceEq, not_false_eq_true, Function.update_of_ne, hfp, hlr, hsp, hpc, hnzcv]
  unfold enter
  congr 1
  ext1 ⟨k, hk⟩
  by_cases hlt : k < 29
  · have hload := hx k hlt
    interval_cases k
    all_goals first
      | exact hload
      -- `x18` is not loaded from its slot.
      | rfl
  · interval_cases k <;> rfl

/-! ## The way back -/

/-- `capture`. -/
def capture (mc : Hardware) (ctx : CpuContext) : CpuContext :=
  { ctx with
    x := fun i => mc.x (i.castLE (by decide))
    fp := mc.x 29
    lr := mc.x 30
    sp := mc.sp
    pc := mc.pc
    nzcv := mc.pstate &&& flags }

theorem flags_and (host cpu : U64) :
    (host &&& ~~~flags ||| cpu &&& flags) &&& flags = cpu &&& flags := by
  ext i hi
  simp only [BitVec.getElem_and, BitVec.getElem_or, BitVec.getElem_not]
  cases flags[i] <;> simp

theorem capture_enter (hw : Hardware) (ctx ctx' : CpuContext) (x18 : U64) :
    capture (enter hw ctx x18) ctx' =
      { ctx.setX18 x18 with nzcv := ctx.nzcv &&& flags, tpidrroEl0 := ctx'.tpidrroEl0 } := by
  have hx : (fun i : Fin 29 => (enter hw ctx x18).x (i.castLE (by decide))) =
      Function.update ctx.x 18 x18 := by
    ext1 i
    refine (dif_pos i.isLt).trans ?_
    by_cases hi : i = 18
    · subst hi
      rw [Function.update_self]
      rfl
    · rw [Function.update_of_ne hi]
      exact if_neg fun h => hi (Fin.ext h)
  unfold capture
  rw [hx]
  dsimp only [enter]
  rw [flags_and]
  rfl

/-- A trap at once finds the context that was loaded, but for `x18` and what is no flag. -/
theorem capture_installAndBranch (load : U64 → U64) (base : U64) (hw : Hardware)
    (ctx : CpuContext) (h : HoldsContext load base ctx) :
    capture (installAndBranch load base hw) ctx =
      { ctx.setX18 ctx.pc with nzcv := ctx.nzcv &&& flags } := by
  rw [installAndBranch_eq load base hw ctx h, capture_enter]
  rfl

/-- The context at an address, as memory. -/
def contextAt (base : U64) (ctx : CpuContext) (a : U64) : U64 :=
  (contextWords ctx).getD ((a - base).toNat / 8) 0

theorem holdsContext_contextAt (base : U64) (ctx : CpuContext) :
    HoldsContext (contextAt base ctx) base ctx := by
  intro i w hw
  have hlen : i < 35 := by
    have := (List.getElem?_eq_some_iff.1 hw).1
    simpa [contextWords] using this
  have hoff : (base + BitVec.ofNat 64 (8 * i) - base).toNat / 8 = i := by
    rw [BitVec.add_comm, BitVec.add_sub_cancel, BitVec.toNat_ofNat]
    omega
  rw [contextAt, hoff, List.getD_eq_getElem?_getD, hw]
  rfl

/-- The registers at the entry of a process, loaded and found again. -/
theorem capture_installAndBranch_entry :
    let ctx := CpuContext.entry 0x100004000 0x16fe00000 fun i => BitVec.ofNat 64 (i.val + 1)
    capture (installAndBranch (contextAt 0x7000 ctx) 0x7000 ⟨fun _ => 5, 0, 0, 0x1000⟩) ctx =
      { ctx.setX18 ctx.pc with nzcv := ctx.nzcv &&& flags } := by
  intro ctx
  exact capture_installAndBranch _ _ _ ctx (holdsContext_contextAt _ ctx)

/-! ## Resuming -/

/-- What ended a run of the guest : an access fault, or the word at its program counter. -/
structure Trap where
  accessFault : Bool
  insn : U32

/-- The processor with the guest's code, and a state `E` of whatever else the run of the guest
depends on. -/
structure Processor (E : Type) where
  /-- Run user code from these registers and pages to its next trap. -/
  run : E → Pages → Hardware → Trap × Hardware × Pages × E
  /-- The registers of the host when it resumes the guest. -/
  host : E → Hardware
  /-- The address of the context. -/
  base : E → U64
  kernel : E → Kernel
  clock : E → Option Clock

/-- The values of `ios_emu_event`. -/
def TrapEvent.discriminant : TrapEvent → U32
  | .syscall _ => 0
  | .trampoline _ => 1
  | .breakpoint _ => 2
  | .fault => 4

/-- `*g_out_imm`. -/
def TrapEvent.imm : TrapEvent → BitVec 16
  | .syscall imm => imm
  | .breakpoint imm => imm
  | _ => 0

/-- `*g_out_addr`. -/
def TrapEvent.addr : TrapEvent → U64
  | .trampoline addr => addr
  | _ => 0

/-- The event of a value of `ios_emu_event` and the values handed out with it. -/
def execEvent (cpu : CpuContext) (disc : U32) (imm : BitVec 16) (addr : U64) (code : BitVec 32) :
    ExecEvent :=
  match disc.toNat with
  | 0 => .syscall imm
  | 1 => .trampolineCall addr
  | 2 => .breakpoint imm
  | 3 => .exited code
  | _ => .fault cpu.pc "native backend fault"

/-- An executor that runs the guest in the native pages. -/
structure Backend (E : Type) where
  resume : E → Pages → CpuContext → Resumed × Pages × E

variable {E : Type}

/-- What is made of the trap that ended a run from the context `ctx`. -/
def handBack (tramp : U64 × U64) (proc : Processor E) (ctx : CpuContext) :
    Trap × Hardware × Pages × E → Resumed × Pages × E
  | (trap, mc, pages, e) =>
    let (event, pc) := trapHandler tramp trap.accessFault mc.pc trap.insn
    let cpu := { capture mc ctx with pc }
    (⟨execEvent cpu event.discriminant event.imm event.addr 0, cpu, proc.kernel e, proc.clock e⟩,
      pages, e)

/-- `NativeExecutor` : the stub loads the registers from the context in memory. -/
def native (tramp : U64 × U64) (proc : Processor E) : Backend E where
  resume e pages ctx :=
    handBack tramp proc ctx <| proc.run e pages <|
      installAndBranch (contextAt (proc.base e) ctx) (proc.base e) (proc.host e)

/-- An executor that loads all registers of the guest. -/
def dedicated (tramp : U64 × U64) (proc : Processor E) : Backend E where
  resume e pages ctx :=
    handBack tramp proc ctx (proc.run e pages (enter (proc.host e) ctx (ctx.x 18)))

/-- The same registers but for `x18`. -/
structure Agree (hw hw' : Hardware) : Prop where
  x_eq : ∀ i ≠ 18, hw'.x i = hw.x i
  sp_eq : hw'.sp = hw.sp
  pc_eq : hw'.pc = hw.pc
  pstate_eq : hw'.pstate = hw.pstate

/-- The same run, but for what is left in `x18`. -/
structure SameRun (r r' : Trap × Hardware × Pages × E) : Prop where
  trap_eq : r'.1 = r.1
  agree : Agree r.2.1 r'.2.1
  rest_eq : r'.2.2 = r.2.2

/-- The code of the guest leaves `x18` to the platform : it runs the same whatever is there. -/
def SparesX18 (proc : Processor E) : Prop :=
  ∀ e pages hw hw', Agree hw hw' → SameRun (proc.run e pages hw) (proc.run e pages hw')

theorem setX18_eq_iff {ctx ctx' : CpuContext} :
    ctx'.setX18 0 = ctx.setX18 0 ↔ ctx' = ctx.setX18 (ctx'.x 18) := by
  constructor
  · intro h
    have hset := congrArg (fun c => CpuContext.setX18 (ctx'.x 18) c) h
    simpa only [CpuContext.setX18, Function.update_idem, Function.update_eq_self] using hset
  · intro h
    rw [h]
    simp only [CpuContext.setX18, Function.update_idem]

/-- Contexts that differ in `x18` are loaded into registers that differ in `x18`. -/
theorem agree_enter (hw : Hardware) {ctx ctx' : CpuContext} (h : ctx'.setX18 0 = ctx.setX18 0)
    (x18 x18' : U64) : Agree (enter hw ctx x18) (enter hw ctx' x18') := by
  rw [setX18_eq_iff] at h
  rw [h]
  refine ⟨fun i hi => ?_, rfl, rfl, rfl⟩
  have hval : i.val ≠ 18 := fun h => hi (Fin.ext h)
  unfold enter
  dsimp only
  split_ifs with hlt
  · exact Function.update_of_ne (fun h => hval (congrArg Fin.val h)) _ _
  · rfl
  · rfl

/-- Registers that differ in `x18` are stored in contexts that differ in `x18`. -/
theorem capture_agree {mc mc' : Hardware} {ctx ctx' : CpuContext} (h : Agree mc mc')
    (hctx : ctx'.setX18 0 = ctx.setX18 0) (pc : U64) :
    CpuContext.setX18 0 { capture mc' ctx' with pc } =
      CpuContext.setX18 0 { capture mc ctx with pc } := by
  have hx : Function.update (fun i : Fin 29 => mc'.x (i.castLE (by decide))) 18 0 =
      Function.update (fun i : Fin 29 => mc.x (i.castLE (by decide))) 18 0 := by
    ext1 i
    by_cases hi : i = 18
    · subst hi
      rw [Function.update_self, Function.update_self]
    · rw [Function.update_of_ne hi, Function.update_of_ne hi]
      exact h.x_eq _ fun hval => hi (Fin.ext (Fin.mk.inj hval))
  have htls : (ctx'.setX18 0).tpidrroEl0 = (ctx.setX18 0).tpidrroEl0 := by
    rw [hctx]
  change ctx'.tpidrroEl0 = ctx.tpidrroEl0 at htls
  unfold CpuContext.setX18 capture
  dsimp only
  rw [hx, h.x_eq 29 (by decide), h.x_eq 30 (by decide), h.sp_eq, h.pstate_eq, htls]

/-- What is handed back, but for `x18`. -/
structure SameEvent (r r' : Resumed) : Prop where
  event_eq : r'.event = r.event
  kernel_eq : r'.kernel = r.kernel
  clock_eq : r'.clock = r.clock
  cpu_eq : r'.cpu.setX18 0 = r.cpu.setX18 0

theorem execEvent_pc {cpu cpu' : CpuContext} (h : cpu'.pc = cpu.pc) (disc : U32)
    (imm : BitVec 16) (addr : U64) (code : BitVec 32) :
    execEvent cpu' disc imm addr code = execEvent cpu disc imm addr code := by
  unfold execEvent
  rw [h]

theorem handBack_alike (tramp : U64 × U64) (proc : Processor E) {ctx ctx' : CpuContext}
    (hctx : ctx'.setX18 0 = ctx.setX18 0) :
    ∀ {r r' : Trap × Hardware × Pages × E}, SameRun r r' →
      SameEvent (handBack tramp proc ctx r).1 (handBack tramp proc ctx' r').1 ∧
        (handBack tramp proc ctx' r').2 = (handBack tramp proc ctx r).2
  | (trap, mc, pages, e), (_, mc', _, _), ⟨rfl, hagree, rfl⟩ => by
    unfold handBack
    dsimp only
    rw [hagree.pc_eq]
    exact ⟨⟨execEvent_pc rfl _ _ _ _, rfl, rfl, capture_agree hagree hctx _⟩, rfl⟩

/-- The two executors hand back the same, but for `x18`. -/
theorem resume_alike (tramp : U64 × U64) {proc : Processor E} (hproc : SparesX18 proc) (e : E)
    (pages : Pages) {ctx ctx' : CpuContext} (hctx : ctx'.setX18 0 = ctx.setX18 0) :
    SameEvent ((native tramp proc).resume e pages ctx).1
        ((dedicated tramp proc).resume e pages ctx').1 ∧
      ((dedicated tramp proc).resume e pages ctx').2 =
        ((native tramp proc).resume e pages ctx).2 := by
  have hagree := agree_enter (proc.host e) hctx ctx.pc (ctx'.x 18)
  rw [← installAndBranch_eq _ _ (proc.host e) ctx
    (holdsContext_contextAt (proc.base e) ctx)] at hagree
  exact handBack_alike tramp proc hctx (hproc e pages _ _ hagree)

end Native

end IosEmu
