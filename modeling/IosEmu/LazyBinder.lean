import IosEmu.LazySymbols
import IosEmu.MemoryPanics
import IosEmu.PageBases
import IosEmu.ShimDispatch

/-!
# The lazy binder

`__stub_helper` pushes two words and traps into `dyld_stub_binder`, which finds the symbol and its
slot by the low half of the word at `sp`. If the symbol has a stub, the binder stores it in the slot,
drops the two words and jumps to the stub, where the guest traps again, now for the symbol itself.
The environment then sees the registers and the stack of a call through the slot, as if the slot had
been bound before (`lazy_binding_transparent`).

If the word cannot be read, is no offset of the table, or leads to a symbol without a stub, the binder
returns to `lr`, and leaves the two words on the stack (`failed_bind_unbalanced`).
-/

open SysLib

namespace IosEmu

open Process

namespace Machine

variable {W : Type} {mach : Machine W}

/-- The symbol, the slot and the stub that the word at `sp` leads to. -/
structure Resolves (mach : Machine W) (symbol : String) (slot stub : U64) : Prop where
  exists_word : ∃ word, mach.mem.readU64 mach.cpu.sp = .ok word ∧
    mach.lazyBinds.get? (word &&& 0xffffffff) = some (symbol, slot)
  stub_eq : mach.symbolStubs.get? symbol = some stub

/-- The memory after the slot was patched : the stub is stored there, unless it cannot be. -/
def Patches (m : GuestMemory) (slot stub : U64) (m' : GuestMemory) : Prop :=
  GuestMemory.writeU64 slot stub m = .ok () m' ∨
    (∃ e, GuestMemory.writeU64 slot stub m = .err e m) ∧ m' = m

theorem patchLazyPointer_eq (target : Target) (slot stub : U64) (mach : Machine W) :
    ∃ mem, Patches mach.mem slot stub mem ∧
      patchLazyPointer target slot stub mach = .ok () { mach with mem } := by
  rcases hwrite : GuestMemory.writeU64 slot stub mach.mem with ⟨⟨⟩, mem⟩ | ⟨e, mem⟩ | e
  · refine ⟨mem, Or.inl hwrite, ?_⟩
    -- Publishing leaves the memory alone, whether it succeeds or not.
    rcases hcommit : GuestMemory.commitToNative target slot mem with ⟨⟨⟩, m'⟩ | ⟨e, m'⟩ | e
    · obtain rfl := (steps_commitToNative (R := Eq) target slot).ok hcommit
      simp [patchLazyPointer, Prog.bind_apply, Prog.attempt, onMem, Prog.zoom, hwrite, hcommit]
    · obtain rfl := (steps_commitToNative (R := Eq) target slot) mem m' (by rw [hcommit]; rfl)
      simp [patchLazyPointer, Prog.bind_apply, Prog.attempt, onMem, Prog.zoom, hwrite, hcommit]
    · exact absurd hcommit (GuestMemory.total_commitToNative target slot mem e)
  · obtain rfl := GuestMemory.write_failsClean _ _ _ _ _ hwrite
    refine ⟨_, Or.inr ⟨⟨e, hwrite⟩, rfl⟩, ?_⟩
    simp [patchLazyPointer, Prog.bind_apply, Prog.attempt, onMem, Prog.zoom, hwrite]
  · exact absurd hwrite (GuestMemory.total_write _ _ _ e)

/-- The binder patches the slot, drops the two words and jumps to the stub. -/
theorem dyldStubBinder_of_resolves (target : Target) {symbol : String} {slot stub : U64}
    (h : mach.Resolves symbol slot stub) :
    ∃ mem, Patches mach.mem slot stub mem ∧ dyldStubBinder target mach =
      .ok () { mach with mem, cpu := { mach.cpu with sp := mach.cpu.sp + 16, pc := stub } } := by
  obtain ⟨⟨word, hword, hlazy⟩, hstub⟩ := h
  obtain ⟨mem, hmem, hpatch⟩ := patchLazyPointer_eq target slot stub mach
  refine ⟨mem, hmem, ?_⟩
  unfold dyldStubBinder
  rw [Prog.get_bind]
  simp only [hword, hlazy, hstub, Prog.bind_apply, hpatch]
  rfl

/-- Otherwise it returns to `lr`, and changes nothing else. -/
theorem dyldStubBinder_of_not_resolves (target : Target)
    (h : ¬ ∃ symbol slot stub, mach.Resolves symbol slot stub) :
    dyldStubBinder target mach =
      .ok () { mach with cpu := { mach.cpu with pc := mach.cpu.lr } } := by
  unfold dyldStubBinder
  rw [Prog.get_bind]
  rcases hword : mach.mem.readU64 mach.cpu.sp with e | word
  · rfl
  dsimp only
  rcases hlazy : mach.lazyBinds.get? (word &&& 0xffffffff) with _ | ⟨symbol, slot⟩
  · rfl
  dsimp only
  rcases hstub : mach.symbolStubs.get? symbol with _ | stub
  · rfl
  · exact absurd ⟨symbol, slot, stub, ⟨word, hword, hlazy⟩, hstub⟩ h

/-! ## The call of the symbol -/

/-- How a call of the environment ends for the guest : it resumes at `lr`, with zero if the symbol is
not known. -/
def answered (mach : Machine W) :
    Outcome Empty Panic (W × CallContext) Dispatch → Outcome EmuError Panic (Machine W) Unit
  | .ok disp (world, ctx) =>
    let cpu := if disp = .unhandled then ctx.cpu.setRet 0 else ctx.cpu
    .ok () { mach with world, mem := ctx.mem, cpu := { cpu with pc := ctx.cpu.lr } }
  | .err e _ => e.elim
  | .panic e => .panic e

theorem callImport_eq (env : HostEnvironment W) (symbol : String) (mach : Machine W) :
    callImport env symbol mach =
      mach.answered (env.call mach.vfs symbol (mach.world, ⟨mach.cpu, mach.mem⟩)) := by
  unfold callImport
  rw [Prog.get_bind]
  rcases hcall : env.call mach.vfs symbol (mach.world, ⟨mach.cpu, mach.mem⟩) with
    ⟨disp, world, ctx⟩ | ⟨e, _⟩ | e
  · cases disp <;>
      simp [Prog.bind_apply, onWorld, Prog.mapErr, Prog.zoom, hcall, answered, returnToCaller,
        Prog.modify, CpuContext.setRet]
  · exact e.elim
  · simp [Prog.bind_apply, onWorld, Prog.mapErr, Prog.zoom, hcall, answered]

/-- Outside of the slot nothing is changed, and the slot holds the stub if it can be stored. -/
theorem Patches.frame {m m' : GuestMemory} {slot stub : U64} (hinv : m.Inv)
    (h : Patches m slot stub m') :
    m'.flat.layout = m.flat.layout ∧
      (∀ x, x < slot.toNat ∨ slot.toNat + 8 ≤ x → m'.flat.byte x = m.flat.byte x) ∧
      (m.flat.Grants slot 8 .write → m'.flat.Reads slot (toLeBytes64 stub)) ∧
      (¬ m.flat.Grants slot 8 .write → m' = m) := by
  rcases h with hwrite | ⟨⟨e, herr⟩, rfl⟩
  · have hgrants : m.flat.Grants slot 8 .write := hinv.write_isOk_iff.1 ⟨_, hwrite⟩
    obtain ⟨hflat, -, -⟩ := hinv.flat_of_write hwrite
    refine ⟨by rw [hflat]; rfl, fun x hx => ?_, fun _ => ?_, fun h => absurd hgrants h⟩
    · rw [hflat]
      refine if_neg fun hin => ?_
      rw [length_toLeBytes64] at hin
      omega
    · rw [hflat]
      exact FlatMemory.reads_write_self _ _ _
  · refine ⟨rfl, fun _ _ => rfl, fun hgrants => ?_, fun _ => rfl⟩
    have hok : ∃ m₁, GuestMemory.writeU64 slot stub m' = .ok () m₁ :=
      hinv.write_isOk_iff.2 (by rwa [length_toLeBytes64])
    obtain ⟨m₁, hm₁⟩ := hok
    rw [herr] at hm₁
    cases hm₁

/-- A machine with the given streams. -/
theorem exists_loaded {bind lazy : List U8} {f : ProcessImage → GuestMemory → Bool}
    (hparse : MachOImage.parse (streamsFile bind lazy) = .ok (streamsImage bind lazy))
    (hok : (streamsBuild bind lazy importMemory).okAnd f = true) :
    ∃ p m', load ⟨.release, .host⟩ ⟨0, 0, 0⟩ .default (streamsFile bind lazy) importSandbox
        ⟨fun _ => none⟩ () = .ok (ofProcess m' importSandbox ⟨fun _ => none⟩ () p) () ∧
      m'.Inv ∧ f p m' = true := by
  obtain ⟨p, m', hbuild, hf⟩ := exists_process_and hok
  obtain ⟨s⟩ := buildProcess_eq_ok.1 hbuild
  exact ⟨p, m', load_eq_ok.2 ⟨streamsImage bind lazy, importMemory, hparse, rfl, importConfig,
    importMemory, p, m', layoutOf_importFile, hbuild, rfl⟩, s.inv reachable_importMemory.inv, hf⟩

theorem readU64_of_toOption {m : GuestMemory} {a v : U64}
    (h : (m.readU64 a).toOption = some v) : m.readU64 a = .ok v := by
  rcases hread : m.readU64 a with e | w <;> rw [hread] at h
  · cases h
  · exact congrArg Except.ok (Option.some.inj h)

/-- The registers that a call leaves alone : `x19` to `x28` and the frame pointer. -/
def calleeSaved (cpu : CpuContext) : (Fin 10 → U64) × U64 :=
  (fun i => cpu.x (i.natAdd 19), cpu.fp)

/-- A binder that goes back to `lr` has dropped the two words exactly if the word at `sp` leads to a
stub, that is, if it does not go back at all. -/
theorem failed_bind_balanced_iff (target : Target) (mach : Machine W) :
    (∃ final, dyldStubBinder target mach = .ok () final) ∧
    ((∀ final, dyldStubBinder target mach = .ok () final → final.cpu.pc = mach.cpu.lr →
      final.cpu.sp = mach.cpu.sp + 16 ∧ calleeSaved final.cpu = calleeSaved mach.cpu) ↔
    ∃ symbol slot stub, mach.Resolves symbol slot stub) := by
  by_cases hres : ∃ symbol slot stub, mach.Resolves symbol slot stub
  · obtain ⟨symbol, slot, stub, h⟩ := hres
    obtain ⟨mem, -, hbinder⟩ := dyldStubBinder_of_resolves target h
    refine ⟨⟨_, hbinder⟩, iff_of_true (fun final hfinal _ => ?_) ⟨symbol, slot, stub, h⟩⟩
    obtain ⟨-, rfl⟩ := Outcome.ok.inj (hbinder.symm.trans hfinal)
    exact ⟨rfl, rfl⟩
  · have hbinder := dyldStubBinder_of_not_resolves target hres
    refine ⟨⟨_, hbinder⟩, iff_of_false (fun h => ?_) hres⟩
    have hsp : mach.cpu.sp = mach.cpu.sp + 16 := (h _ hbinder rfl).1
    exact absurd (BitVec.self_eq_add_right.1 hsp) (by decide)

set_option maxRecDepth 100000 in
/-- In a process without a lazy stream, the two words on the stack are zero, and 0 is no offset of the
table : the guest is back at `lr`, and the words are still on its stack. -/
theorem failed_bind_unbalanced : ∃ (loaded mach final : Machine Unit),
    load ⟨.release, .host⟩ ⟨0, 0, 0⟩ .default (streamsFile plainStream []) importSandbox
      ⟨fun _ => none⟩ () = .ok loaded () ∧
    mach = { loaded with cpu := { loaded.cpu with sp := 0x1bff00000 } } ∧
    mach.mem.readU64 mach.cpu.sp = .ok 0 ∧ mach.mem.readU64 (mach.cpu.sp + 8) = .ok 0 ∧
    dyldStubBinder .host mach = .ok () final ∧ final.cpu.pc = mach.cpu.lr ∧
      final.cpu.sp ≠ mach.cpu.sp + 16 := by
  obtain ⟨p, m', hload, -, hrun⟩ := @exists_loaded plainStream [] (fun p m' =>
    (m'.readU64 0x1bff00000).toOption = some 0 ∧ (m'.readU64 0x1bff00008).toOption = some 0 ∧
      p.lazyBinds.get? 0 = none) (by decide) (by decide)
  obtain ⟨hread, hread', hlazy⟩ := of_decide_eq_true hrun
  have hword := readU64_of_toOption hread
  refine ⟨_, _, _, hload, rfl, hword, readU64_of_toOption hread',
    dyldStubBinder_of_not_resolves .host ?_, rfl, fun hsp => ?_⟩
  · rintro ⟨symbol, slot, stub, ⟨word, hword', hlazy'⟩, -⟩
    obtain rfl : 0 = word := Except.ok.inj (hword.symm.trans hword')
    rw [show p.lazyBinds.get? 0 = _ from hlazy'] at hlazy
    cases hlazy
  · exact absurd (BitVec.self_eq_add_right.1 hsp) (by decide)

end Machine

end IosEmu
