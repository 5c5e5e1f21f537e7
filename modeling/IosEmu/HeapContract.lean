import IosEmu.ObjcInvariant
import IosEmu.Services
import Mathlib.Data.List.Pairwise

/-!
# The guest heap

`malloc`, `calloc`, `realloc`, the classes and the instances all take their memory from the bump
allocator, and nothing is given back. Neither `calloc` nor `realloc` knows more than the cursor :
`calloc` does not clear what it hands out, and `realloc` copies as many bytes as the new block has,
whatever the size of the old one. Both rely on what `HeapInv` says, that everything from the cursor
up has never been written, and that a block ends below the cursor, so that its bytes can be read
up to the size of any block that still fits above it.

A call hands out nothing, or the next block with some bytes written to it (`Allots`); every step of
a run keeps the invariant, and `heap_contract` reads the contract of the heap off it.
-/

open SysLib

namespace IosEmu

open ShimM ObjcRuntime

/-! ## Runs of the heap -/

/-- A block that has been handed out, with the size that was asked for. -/
structure Block where
  addr : U64
  size : ℕ

/-- An address in the block. -/
def Block.Covers (b : Block) (x : ℕ) : Prop :=
  b.addr.toNat ≤ x ∧ x < b.addr.toNat + b.size

/-- Blocks that do not share an address. -/
def Block.Apart (b b' : Block) : Prop :=
  b.addr ≠ b'.addr ∧ ∀ x, b.Covers x → ¬b'.Covers x

/-- The calls that hand out memory, and `free`. -/
inductive HeapCall
  | malloc
  | calloc
  | realloc
  | free
  | objcGetClass
  | objcAlloc
  | msgSend

namespace HeapCall

def run (p : Profile) : HeapCall → ShimM Dispatch
  | .malloc => Frameworks.Libsystem.malloc p
  | .calloc => Frameworks.Libsystem.calloc p
  | .realloc => Frameworks.Libsystem.realloc p
  | .free => Frameworks.Libsystem.free
  | .objcGetClass => Frameworks.ObjcRt.objcGetClass p
  | .objcAlloc => Frameworks.ObjcRt.objcAlloc p
  | .msgSend => ObjcRuntime.msgSend p

/-- How many bytes a call asks for, if it is one that hands out memory. A class is created when
it is looked up for the first time, and an instance when `alloc` or `new` is sent. -/
def asks : HeapCall → ObjcRuntime × CallContext → Option ℕ
  | .malloc, s => some (s.2.cpu.arg 0).toNat
  | .calloc, s => some ((s.2.cpu.arg 0).toNat * (s.2.cpu.arg 1).toNat)
  | .realloc, s => some (s.2.cpu.arg 1).toNat
  | .free, _ => none
  | .objcGetClass, s =>
    let name := (s.2.mem.readCstr (s.2.cpu.arg 0) 256).toOption.getD ""
    if (s.1.classAddrByName.get? name).isSome then none else some 16
  | .objcAlloc, _ => some 16
  | .msgSend, s =>
    match s.2.mem.readCstr (s.2.cpu.arg 1) 256 with
    | .ok sel => if Message.ofSelector sel = .alloc ∨ Message.ofSelector sel = .new then some 16
      else none
    | .error _ => none

end HeapCall

/-- The state of a process, and the blocks it has been given. The last one comes first. -/
structure HeapState where
  shim : ObjcRuntime × CallContext
  blocks : List Block

namespace HeapState

def mem (s : HeapState) : GuestMemory :=
  s.shim.2.mem

/-- The byte at an address. -/
def byte (s : HeapState) (x : ℕ) : Option U8 :=
  s.mem.flat.byte x

/-- The result of the last call. -/
def result (s : HeapState) : U64 :=
  s.shim.2.cpu.arg 0

end HeapState

/-- Where the heap of a machine lies. -/
def heapStart : ℕ :=
  MachineConfig.default.heapBase.toNat

def heapEnd : ℕ :=
  MachineConfig.default.heapBase.toNat + MachineConfig.default.heapSize.toNat

/-- What happens in a run. -/
inductive HeapEvent
  | call (c : HeapCall)
  | store (b : Block) (addr : U64) (bytes : List U8)
  | elsewhere

/-- One step. The guest stores into a block it has been given; what else goes on keeps the runtime,
and keeps the region of the heap as it is : its protection, its bytes and the cursor. -/
inductive HeapStep (p : Profile) : HeapEvent → HeapState → HeapState → Prop
  | call (c : HeapCall) {s s' : HeapState} {d : Dispatch} (h : c.run p s.shim = .ok d s'.shim)
      (hblocks : s'.blocks = match c.asks s.shim with
        | some n => if s'.result = 0 then s.blocks else ⟨s'.result, n⟩ :: s.blocks
        | none => s.blocks) :
      HeapStep p (.call c) s s'
  | store (b : Block) (addr : U64) (bytes : List U8) {s s' : HeapState} (hb : b ∈ s.blocks)
      (hle : b.addr.toNat ≤ addr.toNat)
      (hend : addr.toNat + bytes.length ≤ b.addr.toNat + b.size)
      (h : GuestMemory.write addr bytes s.mem = .ok () s'.mem) (hrt : s'.shim.1 = s.shim.1)
      (hblocks : s'.blocks = s.blocks) :
      HeapStep p (.store b addr bytes) s s'
  | elsewhere {s s' : HeapState} (hrt : s'.shim.1 = s.shim.1) (hinv : s.mem.Inv → s'.mem.Inv)
      (hheap : s'.mem.heap = s.mem.heap)
      (hlayout : s'.mem.flat.layout MachineConfig.default.heapBase =
        s.mem.flat.layout MachineConfig.default.heapBase)
      (hbytes : ∀ x, heapStart ≤ x → x < heapEnd → s'.byte x = s.byte x)
      (hblocks : s'.blocks = s.blocks) :
      HeapStep p .elsewhere s s'

/-- A machine with the default heap, before it has handed anything out. -/
structure FreshHeap (p : Profile) (s : HeapState) : Prop where
  memory : GuestMemory.new p MachineConfig.default.heapBase MachineConfig.default.heapSize =
    .ok () s.mem
  blocks : s.blocks = []

/-- The runs of the heap. -/
abbrev HeapRun (p : Profile) : HeapState → HeapState → Prop :=
  Relation.ReflTransGen fun s s' => ∃ e, HeapStep p e s s'

/-! ## The invariant -/

/-- The heap's region is there and may be used, nothing has been written from the cursor up, and
the blocks lie below the cursor, one above the other. -/
structure HeapInv (s : HeapState) : Prop where
  memory : s.mem.Inv
  region : ∃ sh, s.mem.flat.layout MachineConfig.default.heapBase = some sh ∧
    sh.size = MachineConfig.default.heapSize.toNat ∧ sh.prot = .rw
  limit : s.mem.heap.limit.toNat = heapEnd
  start_le : heapStart ≤ s.mem.heap.cursor.toNat
  le_limit : s.mem.heap.cursor.toNat ≤ heapEnd
  zero : ∀ x, s.mem.heap.cursor.toNat ≤ x → x < heapEnd → s.byte x = some 0
  inside : ∀ b ∈ s.blocks, b.addr.toNat % 16 = 0 ∧ heapStart ≤ b.addr.toNat ∧
    b.addr.toNat + max b.size 1 ≤ s.mem.heap.cursor.toNat
  apart : s.blocks.Pairwise fun b b' => b'.addr.toNat + max b'.size 1 ≤ b.addr.toNat

theorem heap_values : heapStart = 0x120000000 ∧ heapEnd = 0x124000000 := by
  decide

/-- The sizes of the heap are multiples of a page, so nothing is rounded. -/
theorem alignUp_heapSize {p : Profile} {size s : U64}
    (hsize : alignUp p MachineConfig.default.heapSize pageSize = .ok size)
    (hs : alignUp p (max size 1) pageSize = .ok s) : s = MachineConfig.default.heapSize := by
  obtain rfl := alignUp_eq_ok hsize
  obtain rfl := alignUp_eq_ok hs
  decide

theorem FreshHeap.inv {p : Profile} {s : HeapState} (h : FreshHeap p s) : HeapInv s := by
  obtain ⟨hheap, -⟩ := GuestMemory.heap_of_new h.memory
  have hinv := GuestMemory.inv_new h.memory
  obtain ⟨size, hsize, hmap⟩ := Prog.ofChecked_bind_eq_ok.1 h.memory
  obtain ⟨t, ht, -, hcap, hmem⟩ := GuestMemory.map_eq_ok.1 hmap
  obtain rfl := alignUp_heapSize hsize ht
  have hregion : s.mem.regions.get? MachineConfig.default.heapBase =
      some ⟨MachineConfig.default.heapBase, .rw, .heap, "heap", Buffer.replicate _ 0 hcap⟩ := by
    rw [hmem]
    exact SortedMap.get?_insert_self _ _ _
  refine ⟨hinv, ⟨_, GuestMemory.layout_flat_eq_some.2 ⟨_, hregion, rfl⟩, rfl, rfl⟩, ?_, ?_, ?_,
    fun x hle hlt => ?_, ?_, ?_⟩
  · rw [hheap]
    decide
  · rw [hheap]
    decide
  · rw [hheap]
    decide
  · rw [hheap] at hle
    have hlt' : x < MachineConfig.default.heapBase.toNat + MachineConfig.default.heapSize.toNat := hlt
    have hle' : MachineConfig.default.heapBase.toNat ≤ x := hle
    change s.mem.flat.byte x = some 0
    rw [hinv.byte_flat hregion hle' hlt']
    exact Buffer.get?_replicate (by omega)
  · simp [h.blocks]
  · simp [h.blocks]

section Invariant

variable {s s' : HeapState}

/-- The heap has room to be rounded up to. -/
theorem HeapInv.ready (h : HeapInv s) : s.mem.heap.Ready := by
  have hle := h.le_limit
  rw [heap_values.2] at hle
  unfold BumpAllocator.Ready
  omega

theorem HeapInv.fits_iff (h : HeapInv s) {size : U64} :
    s.mem.heap.Fits size ↔ s.mem.heap.next + max size.toNat 1 ≤ heapEnd := by
  rw [BumpAllocator.Fits, h.limit]

/-- What lies in the heap may be read and written. -/
theorem HeapInv.grants (h : HeapInv s) {a : U64} {n : ℕ} {need : Protection}
    (hneed : Protection.rw.contains need = true) (hle : heapStart ≤ a.toNat)
    (hlt : a.toNat < heapEnd) (hend : a.toNat + n ≤ heapEnd) : s.mem.flat.Grants a n need := by
  obtain ⟨sh, hsh, hsize, hprot⟩ := h.region
  obtain ⟨r, hr, rfl⟩ := GuestMemory.layout_flat_eq_some.1 hsh
  have hend' : MachineConfig.default.heapBase.toNat + r.data.size = heapEnd := by
    rw [show r.data.size = _ from hsize]
    rfl
  have hlast := h.memory.lastLE_of_mem hr (BitVec.le_def.2 hle) (by omega)
  refine ⟨_, _, GuestMemory.nearest_flat.2 ⟨r, hlast, rfl⟩, ?_, ?_⟩
  · change _ ≤ _ + r.data.size
    omega
  · rw [hprot, hneed]

end Invariant

/-! ## Handing out a block -/

/-- What a call that asks for `n` bytes can do to the memory : refuse, or hand out the next block
with some bytes written to it. -/
inductive Allots (m : GuestMemory) (n : ℕ) : U64 → GuestMemory → Prop
  | refused : Allots m n 0 m
  | granted (d : List U8) (m' : GuestMemory) (hfits : m.heap.next + max n 1 ≤ heapEnd)
      (hlen : d.length ≤ n) (hinv : m'.Inv)
      (hflat : m'.flat = m.flat.write (BitVec.ofNat 64 m.heap.next) d)
      (hcursor : m'.heap.cursor.toNat = m.heap.next + max n 1)
      (hlimit : m'.heap.limit = m.heap.limit) :
      Allots m n (BitVec.ofNat 64 m.heap.next) m'

/-- The bytes outside of what is written stay. -/
theorem FlatMemory.byte_write_of_not_mem {f : FlatMemory} {a : U64} {d : List U8} {x : ℕ}
    (hx : x < a.toNat ∨ a.toNat + d.length ≤ x) : (f.write a d).byte x = f.byte x := by
  dsimp only [FlatMemory.write]
  rw [if_neg (by omega)]

section Allots

variable {s s' : HeapState} {n : ℕ} {a : U64}

theorem HeapInv.next_ne_zero (h : HeapInv s) : BitVec.ofNat 64 s.mem.heap.next ≠ 0 := by
  intro hzero
  have hnext := BumpAllocator.toNat_next h.ready
  have hle := h.start_le.trans s.mem.heap.next_spec.1
  rw [heap_values.1] at hle
  rw [hzero] at hnext
  have : (0 : U64).toNat = 0 := rfl
  omega

/-- Handing out a block keeps the invariant, and the bytes of the blocks before it. -/
theorem HeapInv.allots (h : HeapInv s) (halloc : Allots s.mem n a s'.mem)
    (hblocks : s'.blocks = if a = 0 then s.blocks else ⟨a, n⟩ :: s.blocks) :
    HeapInv s' ∧ ∀ b ∈ s.blocks, ∀ x, b.Covers x → s'.byte x = s.byte x := by
  generalize hm : s'.mem = m' at halloc
  cases halloc with
  | refused =>
    rw [if_pos rfl] at hblocks
    have hbyte : ∀ x, s'.byte x = s.byte x := fun x => by rw [HeapState.byte, hm]; rfl
    refine ⟨⟨?_, ?_, ?_, ?_, ?_, ?_, ?_, ?_⟩, fun _ _ x _ => hbyte x⟩
    all_goals simp only [hm, hblocks, hbyte]
    exacts [h.memory, h.region, h.limit, h.start_le, h.le_limit, h.zero, h.inside, h.apart]
  | granted d m' hfits hlen hinv hflat hcursor hlimit =>
    obtain rfl := hm
    rw [if_neg (h.next_ne_zero)] at hblocks
    have hnext := BumpAllocator.toNat_next h.ready
    obtain ⟨hle, -, hmod⟩ := s.mem.heap.next_spec
    have hstart := h.start_le
    have hbyte : ∀ x, x < s.mem.heap.next ∨ s.mem.heap.next + d.length ≤ x →
        s'.byte x = s.byte x := by
      intro x hx
      rw [HeapState.byte, hflat]
      exact FlatMemory.byte_write_of_not_mem (by omega)
    refine ⟨⟨hinv, ?_, ?_, ?_, ?_, ?_, ?_, ?_⟩, fun b hb x hx => hbyte x (Or.inl ?_)⟩
    · rw [hflat]
      exact h.region
    · rw [hlimit, h.limit]
    · omega
    · omega
    · intro x hx hlt
      rw [hbyte x (by omega)]
      exact h.zero x (by omega) hlt
    · intro b hb
      rw [hblocks] at hb
      rcases List.mem_cons.1 hb with rfl | hb
      · dsimp only
        omega
      · obtain ⟨hmod', hle', hend'⟩ := h.inside b hb
        omega
    · rw [hblocks, List.pairwise_cons]
      refine ⟨fun b hb => ?_, h.apart⟩
      obtain ⟨-, -, hend'⟩ := h.inside b hb
      dsimp only
      omega
    · obtain ⟨-, -, hend'⟩ := h.inside b hb
      obtain ⟨-, hx⟩ := hx
      omega

/-- Nothing is written to a block that is only taken. -/
theorem HeapInv.allots_after (h : HeapInv s) {size : U64} (hfits : s.mem.heap.Fits size)
    (hsize : size.toNat = n) :
    Allots s.mem n (BitVec.ofNat 64 s.mem.heap.next)
      { s.mem with heap := s.mem.heap.after size } := by
  obtain rfl := hsize
  refine .granted [] _ (h.fits_iff.1 hfits) (Nat.zero_le _) (h.memory.change (.heap _)) ?_
    (BumpAllocator.toNat_cursor_after hfits) rfl
  ext x
  · rfl
  · rw [FlatMemory.byte_write_of_not_mem (by simp; omega)]
    rfl

/-- What is written to the next block once it is taken can be written, if it is not larger. -/
theorem HeapInv.write_next (h : HeapInv s) {size : U64} (hfits : s.mem.heap.Fits size)
    {d : List U8} (hlen : d.length ≤ size.toNat) :
    ∃ m', GuestMemory.write (BitVec.ofNat 64 s.mem.heap.next) d
        { s.mem with heap := s.mem.heap.after size } = .ok () m' ∧
      m'.flat = s.mem.flat.write (BitVec.ofNat 64 s.mem.heap.next) d ∧
      Allots s.mem size.toNat (BitVec.ofNat 64 s.mem.heap.next) m' := by
  have hinv : GuestMemory.Inv { s.mem with heap := s.mem.heap.after size } :=
    h.memory.change (.heap _)
  have hnext := BumpAllocator.toNat_next h.ready
  have hle := h.start_le.trans s.mem.heap.next_spec.1
  have hend := h.fits_iff.1 hfits
  have hgrants : s.mem.flat.Grants (BitVec.ofNat 64 s.mem.heap.next) d.length .write :=
    h.grants (by decide) (by omega) (by omega) (by omega)
  obtain ⟨m', hm'⟩ := hinv.write_isOk_iff.2 hgrants
  obtain ⟨hflat, -, hheap⟩ := hinv.flat_of_write hm'
  refine ⟨m', hm', hflat, .granted d m' hend hlen (hinv.of_write hm') hflat ?_ ?_⟩
  · rw [hheap]
    exact BumpAllocator.toNat_cursor_after hfits
  · rw [hheap]
    rfl

end Allots

/-! ## The calls -/

section Calls

variable {p : Profile} {s s' : HeapState}

/-- A shim that computes a value hands it to the guest. -/
theorem answer_of_ok {x : ShimM U64} {t t' : ObjcRuntime × CallContext} {v : U64}
    (h : x t = .ok v t') :
    answer x t = .ok .handled (t'.1, { t'.2 with cpu := t'.2.cpu.setRet v }) := by
  rw [answer, Prog.bind_apply, h]
  rfl

theorem ok_of_answer {x : ShimM U64} {t t' : ObjcRuntime × CallContext} {d : Dispatch}
    (h : answer x t = .ok d t') :
    ∃ v t₁, x t = .ok v t₁ ∧ t' = (t₁.1, { t₁.2 with cpu := t₁.2.cpu.setRet v }) := by
  obtain ⟨v, t₁, hx, h⟩ := Prog.bind_eq_ok.1 h
  exact ⟨v, t₁, hx, (Outcome.ok.inj h).2.symm⟩

/-- Taking a block of the heap. -/
def takeBlock (p : Profile) (size : U64) : ShimM U64 := do
  let addr ← onMem (GuestMemory.heapAlloc p size 16)
  return addr.toOption.getD 0

theorem takeBlock_of_fits (h : HeapInv s) {size : U64} (hfits : s.mem.heap.Fits size) :
    takeBlock p size s.shim = .ok (BitVec.ofNat 64 s.mem.heap.next)
      (s.shim.1, { s.shim.2 with mem := { s.mem with heap := s.mem.heap.after size } }) := by
  rw [takeBlock, Prog.bind_apply, onMem_of_fits h.ready hfits]
  rfl

theorem takeBlock_of_not_fits (h : HeapInv s) {size : U64} (hfits : ¬s.mem.heap.Fits size) :
    takeBlock p size s.shim = .ok 0 s.shim := by
  obtain ⟨e, he⟩ := onMem_of_not_fits (p := p) h.ready hfits
  rw [takeBlock, Prog.bind_apply, he]
  rfl

theorem allots_of_takeBlock (h : HeapInv s) {size v : U64} {n : ℕ}
    {t : ObjcRuntime × CallContext} (hsize : s.mem.heap.Fits size → size.toNat = n)
    (htake : takeBlock p size s.shim = .ok v t) : Allots s.mem n v t.2.mem := by
  by_cases hfits : s.mem.heap.Fits size
  · rw [takeBlock_of_fits h hfits] at htake
    obtain ⟨rfl, rfl⟩ := Outcome.ok.inj htake
    exact h.allots_after hfits (hsize hfits)
  · rw [takeBlock_of_not_fits h hfits] at htake
    obtain ⟨rfl, rfl⟩ := Outcome.ok.inj htake
    exact .refused

/-- A product that does not fit in a word does not fit in the heap either. -/
theorem HeapInv.fits_saturatingMul (h : HeapInv s) (x y : U64) :
    (s.mem.heap.Fits (Frameworks.Libsystem.saturatingMul x y) ↔
      s.mem.heap.next + max (x.toNat * y.toNat) 1 ≤ heapEnd) ∧
    (s.mem.heap.Fits (Frameworks.Libsystem.saturatingMul x y) →
      (Frameworks.Libsystem.saturatingMul x y).toNat = x.toNat * y.toNat) := by
  rw [h.fits_iff]
  unfold Frameworks.Libsystem.saturatingMul
  have hvalue := heap_values.2
  split_ifs with hlt
  · have hmul : (x * y).toNat = x.toNat * y.toNat := by
      rw [BitVec.toNat_mul, Nat.mod_eq_of_lt hlt]
    rw [hmul]
    exact ⟨Iff.rfl, fun _ => rfl⟩
  · have hones : (BitVec.allOnes 64).toNat = 2 ^ 64 - 1 := by
      decide
    rw [hones]
    refine ⟨⟨fun hle => ?_, fun hle => ?_⟩, fun hle => ?_⟩
    all_goals omega

/-- `calloc` hands out zeros, or nothing. -/
theorem calloc_spec (p : Profile) (h : HeapInv s) :
    ∃ t, Frameworks.Libsystem.calloc p s.shim = .ok .handled t ∧
      if s.mem.heap.next + max ((s.shim.2.cpu.arg 0).toNat * (s.shim.2.cpu.arg 1).toNat) 1 ≤ heapEnd
      then t.2.cpu.arg 0 ≠ 0 ∧
        ∀ i < (s.shim.2.cpu.arg 0).toNat * (s.shim.2.cpu.arg 1).toNat,
          t.2.mem.flat.byte ((t.2.cpu.arg 0).toNat + i) = some 0
      else t.2.cpu.arg 0 = 0 ∧ t.2.mem = s.mem := by
  obtain ⟨hfits, -⟩ := h.fits_saturatingMul (s.shim.2.cpu.arg 0) (s.shim.2.cpu.arg 1)
  split_ifs with hend
  · refine ⟨_, answer_of_ok (takeBlock_of_fits h (hfits.2 hend)), ?_⟩
    dsimp only
    rw [CpuContext.arg_setRet]
    refine ⟨h.next_ne_zero, fun i hi => ?_⟩
    have hle := s.mem.heap.next_spec.1
    rw [BumpAllocator.toNat_next h.ready]
    exact h.zero _ (by omega) (by omega)
  · exact ⟨_, answer_of_ok (takeBlock_of_not_fits h (mt hfits.1 hend)), CpuContext.arg_setRet _ _, rfl⟩

/-- A block can be read as far as a new one above it would reach. -/
theorem HeapInv.read_block (h : HeapInv s) {b : Block} (hb : b ∈ s.blocks) {size : U64}
    (hfits : s.mem.heap.Fits size) :
    ∃ l, GuestMemory.read { s.mem with heap := s.mem.heap.after size } b.addr size.toNat = .ok l ∧
      l.length = size.toNat ∧ s.mem.flat.Reads b.addr l := by
  have hinv : GuestMemory.Inv { s.mem with heap := s.mem.heap.after size } :=
    h.memory.change (.heap _)
  obtain ⟨-, hle, hend⟩ := h.inside b hb
  have hnext := s.mem.heap.next_spec.1
  have hlimit := h.fits_iff.1 hfits
  have hgrants : s.mem.flat.Grants b.addr size.toNat .read :=
    h.grants (by decide) hle (by omega) (by omega)
  obtain ⟨k, r, hlast, hbase, hin, hprot⟩ := h.memory.grants_flat.1 hgrants
  have hread : GuestMemory.read { s.mem with heap := s.mem.heap.after size } b.addr size.toNat =
      .ok _ :=
    GuestMemory.read_eq_ok.2 ⟨k, r, hlast, hbase, hin, hprot, rfl⟩
  obtain ⟨-, hlen, hreads⟩ := hinv.read_eq_ok_iff.1 hread
  exact ⟨_, hread, hlen, hreads⟩

/-- Copying bytes : nothing happens if they cannot be read. -/
theorem copyBytes_of_error {t : ObjcRuntime × CallContext} {dst src : U64} {n : ℕ} {e : EmuError}
    (hn : n ≤ isizeMax) (hread : t.2.mem.read src n = .error e) :
    Frameworks.Libsystem.copyBytes dst src n t = .ok () t := by
  rw [Frameworks.Libsystem.copyBytes, allocBytes, if_pos hn, Prog.ofChecked_ok_bind,
    Prog.bind_apply, readMem, Prog.get_bind, Prog.pure_apply]
  simp only [hread]
  rfl

theorem copyBytes_of_ok {t : ObjcRuntime × CallContext} {dst src : U64} {n : ℕ} {l : List U8}
    {m' : GuestMemory} (hn : n ≤ isizeMax) (hread : t.2.mem.read src n = .ok l)
    (hwrite : GuestMemory.write dst l t.2.mem = .ok () m') :
    Frameworks.Libsystem.copyBytes dst src n t = .ok () (t.1, { t.2 with mem := m' }) := by
  rw [Frameworks.Libsystem.copyBytes, allocBytes, if_pos hn, Prog.ofChecked_ok_bind,
    Prog.bind_apply, readMem, Prog.get_bind, Prog.pure_apply]
  simp only [hread, Prog.bind_apply, onMem, Prog.attempt, Prog.zoom, hwrite]
  rfl

/-- The steps of `realloc` after a block has been taken. -/
theorem realloc_of_fits (h : HeapInv s) (hfits : s.mem.heap.Fits (s.shim.2.cpu.arg 1))
    {t : ObjcRuntime × CallContext}
    (hcopy : (if s.shim.2.cpu.arg 0 ≠ 0 then
        Frameworks.Libsystem.copyBytes (BitVec.ofNat 64 s.mem.heap.next) (s.shim.2.cpu.arg 0)
          (s.shim.2.cpu.arg 1).toNat
      else pure ()) (s.shim.1, { s.shim.2 with
        mem := { s.mem with heap := s.mem.heap.after (s.shim.2.cpu.arg 1) } }) = .ok () t) :
    Frameworks.Libsystem.realloc p s.shim = .ok .handled
      (t.1, { t.2 with cpu := t.2.cpu.setRet (BitVec.ofNat 64 s.mem.heap.next) }) := by
  refine answer_of_ok ?_
  have halloc := onMem_of_fits (p := p) h.ready hfits
  simp only [arg, Prog.bind_apply, Prog.get_apply, Prog.pure_apply, halloc]
  split_ifs at hcopy ⊢ with hold
  · exact Prog.bind_eq_ok.2 ⟨(), t, hcopy, rfl⟩
  · obtain ⟨-, rfl⟩ := Outcome.ok.inj hcopy
    rfl

theorem realloc_of_not_fits (h : HeapInv s) (hfits : ¬s.mem.heap.Fits (s.shim.2.cpu.arg 1)) :
    Frameworks.Libsystem.realloc p s.shim =
      .ok .handled (s.shim.1, { s.shim.2 with cpu := s.shim.2.cpu.setRet 0 }) := by
  refine answer_of_ok ?_
  obtain ⟨e, he⟩ := onMem_of_not_fits (p := p) h.ready hfits
  simp only [arg, Prog.bind_apply, Prog.get_apply, Prog.pure_apply, he]

/-- `realloc` hands out a block, with the bytes of the old one if that is a block. -/
theorem realloc_spec (p : Profile) (h : HeapInv s) :
    ∃ t, Frameworks.Libsystem.realloc p s.shim = .ok .handled t ∧
      Allots s.mem (s.shim.2.cpu.arg 1).toNat (t.2.cpu.arg 0) t.2.mem ∧
      ∀ b ∈ s.blocks, s.shim.2.cpu.arg 0 = b.addr →
        (t.2.cpu.arg 0 = 0 ∧ t.2.mem = s.mem) ∨
        (t.2.cpu.arg 0 ≠ 0 ∧ ∀ i < (s.shim.2.cpu.arg 1).toNat,
          t.2.mem.flat.byte ((t.2.cpu.arg 0).toNat + i) = s.byte (b.addr.toNat + i)) := by
  by_cases hfits : s.mem.heap.Fits (s.shim.2.cpu.arg 1)
  · have hcap : (s.shim.2.cpu.arg 1).toNat ≤ isizeMax := by
      have := h.fits_iff.1 hfits
      rw [heap_values.2] at this
      unfold isizeMax
      omega
    have hnext := BumpAllocator.toNat_next h.ready
    by_cases hold : s.shim.2.cpu.arg 0 = 0
    · refine ⟨_, realloc_of_fits h hfits (by rw [if_neg (not_not_intro hold)]; rfl), ?_, ?_⟩
      · rw [CpuContext.arg_setRet]
        exact h.allots_after hfits rfl
      · intro b hb hbold
        obtain ⟨-, hle, -⟩ := h.inside b hb
        rw [← hbold, hold, heap_values.1] at hle
        cases hle
    · rcases hread : GuestMemory.read { s.mem with heap := s.mem.heap.after (s.shim.2.cpu.arg 1) }
          (s.shim.2.cpu.arg 0) (s.shim.2.cpu.arg 1).toNat with e | l
      · refine ⟨_, realloc_of_fits h hfits (by
          rw [if_pos hold]
          exact copyBytes_of_error hcap hread), ?_, ?_⟩
        · rw [CpuContext.arg_setRet]
          exact h.allots_after hfits rfl
        · intro b hb hbold
          obtain ⟨l, hl, -⟩ := h.read_block hb hfits
          rw [← hbold, hread] at hl
          cases hl
      · have hlen : l.length = (s.shim.2.cpu.arg 1).toNat :=
          (GuestMemory.Inv.read_eq_ok_iff (h.memory.change (.heap _))).1 hread |>.2.1
        obtain ⟨m', hwrite, hflat, hallots⟩ := h.write_next hfits hlen.le
        refine ⟨_, realloc_of_fits h hfits (by
          rw [if_pos hold]
          exact copyBytes_of_ok hcap hread hwrite), ?_, ?_⟩
        · rw [CpuContext.arg_setRet]
          exact hallots
        · intro b hb hbold
          obtain ⟨l', hl', -, hreads⟩ := h.read_block hb hfits
          rw [← hbold, hread] at hl'
          obtain rfl := Except.ok.inj hl'
          refine Or.inr ⟨?_, fun i hi => ?_⟩
          · rw [CpuContext.arg_setRet]
            exact h.next_ne_zero
          · rw [CpuContext.arg_setRet]
            dsimp only
            rw [hflat, FlatMemory.reads_write_self _ _ _ i (hlen ▸ hi)]
            exact (hreads i (hlen ▸ hi)).symm
  · refine ⟨_, realloc_of_not_fits h hfits, ?_, fun b _ _ => Or.inl ⟨?_, rfl⟩⟩
    · rw [CpuContext.arg_setRet]
      exact .refused
    · rw [CpuContext.arg_setRet]

/-- An object is a block of sixteen bytes, with a word written to it. -/
theorem allots_of_place (h : HeapInv s) {word : U64 → U64} {enter : U64 → ObjcRuntime → ObjcRuntime}
    {r : Option U64} {t : ObjcRuntime × CallContext} (hplace : place p word enter s.shim = .ok r t) :
    Allots s.mem 16 (r.getD 0) t.2.mem := by
  obtain ⟨r', t', hplace', hcases⟩ := places_place (p := p) h.ready word enter
  rw [hplace] at hplace'
  obtain ⟨rfl, rfl⟩ := Outcome.ok.inj hplace'
  cases hcases with
  | exhausted => exact .refused
  | refused e hfits hwrite =>
    obtain ⟨m', hwrite', -⟩ := h.write_next hfits
      (d := toLeBytes64 (word (BitVec.ofNat 64 s.mem.heap.next))) (by rw [length_toLeBytes64]; decide)
    cases hwrite.symm.trans hwrite'
  | placed m hfits hwrite =>
    obtain ⟨m', hwrite', -, hallots⟩ := h.write_next hfits
      (d := toLeBytes64 (word (BitVec.ofNat 64 s.mem.heap.next))) (by rw [length_toLeBytes64]; decide)
    obtain ⟨-, rfl⟩ := Outcome.ok.inj (hwrite.symm.trans hwrite')
    exact hallots

theorem allots_of_allocInstance (h : HeapInv s) {classAddr : U64} {r : Option U64}
    {t : ObjcRuntime × CallContext} (halloc : allocInstance p classAddr s.shim = .ok r t) :
    Allots s.mem 16 (r.getD 0) t.2.mem := by
  rw [allocInstance_apply] at halloc
  cases hindex : s.shim.1.classIndexByAddr.get? classAddr with
  | none =>
    rw [hindex] at halloc
    obtain ⟨rfl, rfl⟩ := Outcome.ok.inj halloc
    exact .refused
  | some index =>
    rw [hindex] at halloc
    exact allots_of_place h halloc

/-- What a call does to the memory, after how many bytes it asks for. -/
def HeapCall.Effect (asked : Option ℕ) (m : GuestMemory) (v : U64) (m' : GuestMemory) : Prop :=
  match asked with
  | some n => Allots m n v m'
  | none => m' = m

theorem effect_objcGetClass (h : HeapInv s) {d : Dispatch} {t : ObjcRuntime × CallContext}
    (hrun : Frameworks.ObjcRt.objcGetClass p s.shim = .ok d t) :
    HeapCall.Effect (HeapCall.objcGetClass.asks s.shim) s.mem (t.2.cpu.arg 0) t.2.mem := by
  obtain ⟨v, t₁, hbody, rfl⟩ := ok_of_answer hrun
  rw [CpuContext.arg_setRet]
  simp only [arg, readMem, Prog.bind_apply, Prog.get_apply, Prog.pure_apply] at hbody
  rw [getOrCreateClass_apply] at hbody
  simp only [HeapCall.asks]
  generalize (s.shim.2.mem.readCstr (s.shim.2.cpu.arg 0) 256).toOption.getD "" = name at hbody ⊢
  cases hname : s.shim.1.classAddrByName.get? name with
  | some addr =>
    rw [hname] at hbody
    obtain ⟨-, rfl⟩ := Outcome.ok.inj hbody
    rfl
  | none =>
    simp only [hname] at hbody
    obtain ⟨r, t', hplace, hbody⟩ := Prog.bind_eq_ok.1 hbody
    obtain ⟨rfl, rfl⟩ := Outcome.ok.inj hbody
    exact allots_of_place h hplace

theorem effect_objcAlloc (h : HeapInv s) {d : Dispatch} {t : ObjcRuntime × CallContext}
    (hrun : Frameworks.ObjcRt.objcAlloc p s.shim = .ok d t) :
    HeapCall.Effect (HeapCall.objcAlloc.asks s.shim) s.mem (t.2.cpu.arg 0) t.2.mem := by
  obtain ⟨cls, t₀, hcls, hrun⟩ := Prog.bind_eq_ok.1 hrun
  obtain ⟨rfl, rfl⟩ := Outcome.ok.inj hcls
  obtain ⟨u, t₁, hvia, hrun⟩ := Prog.bind_eq_ok.1 hrun
  obtain ⟨-, rfl⟩ := Outcome.ok.inj hrun
  obtain ⟨r, t₂, halloc, hret⟩ := Prog.bind_eq_ok.1 hvia
  obtain ⟨-, rfl⟩ := Outcome.ok.inj hret
  have hallots := allots_of_allocInstance h halloc
  rw [CpuContext.arg_setRet]
  exact hallots

/-- A message is answered with an instance, or without the memory. -/
theorem effect_receive (h : HeapInv s) {recv v : U64} {msg : Message}
    {t : ObjcRuntime × CallContext} (hrun : receive p recv msg s.shim = .ok v t) :
    HeapCall.Effect (if msg = .alloc ∨ msg = .new then some 16 else none) s.mem v t.2.mem := by
  have halloc : (do
      let rt ← runtime
      if (rt.classIndexByAddr.get? recv).isSome then
        let obj ← allocInstance p recv
        return obj.getD 0
      else return 0 : ShimM U64) s.shim = .ok v t → Allots s.mem 16 v t.2.mem := by
    intro hrun
    rw [runtime_bind] at hrun
    split_ifs at hrun
    · obtain ⟨r, t₁, halloc, hret⟩ := Prog.bind_eq_ok.1 hrun
      obtain ⟨rfl, rfl⟩ := Outcome.ok.inj hret
      exact allots_of_allocInstance h halloc
    · obtain ⟨rfl, rfl⟩ := Outcome.ok.inj hrun
      exact .refused
  have hkeep : ∀ {x : ShimM U64}, x.Steps (InvImage Eq shimMem) → x s.shim = .ok v t →
      t.2.mem = s.mem := fun hx hrun => (hx.ok hrun).symm
  cases msg with
  | alloc => exact halloc hrun
  | new => exact halloc hrun
  | retain => exact hkeep ((steps_countBy p 1 recv).bind fun _ => Prog.steps_pure _) hrun
  | release => exact hkeep ((steps_countBy p (-1) recv).bind fun _ => Prog.steps_pure _) hrun
  | retainCount => exact hkeep (steps_runtime.bind fun _ => Prog.steps_pure _) hrun
  | classObject => exact hkeep (steps_classOf recv) hrun
  | init | identity | hash | no | other => exact hkeep (Prog.steps_pure _) hrun

theorem effect_msgSend (h : HeapInv s) {d : Dispatch} {t : ObjcRuntime × CallContext}
    (hrun : msgSend p s.shim = .ok d t) :
    HeapCall.Effect (HeapCall.msgSend.asks s.shim) s.mem (t.2.cpu.arg 0) t.2.mem := by
  obtain ⟨v, t₁, hbody, rfl⟩ := ok_of_answer hrun
  rw [CpuContext.arg_setRet]
  simp only [HeapCall.asks]
  have hnothing : ∀ asked, v = 0 → t₁ = s.shim → HeapCall.Effect asked s.mem v t₁.2.mem := by
    rintro (_ | n) rfl rfl
    · rfl
    · exact .refused
  simp only [arg, Prog.bind_apply, Prog.get_apply, Prog.pure_apply] at hbody
  split_ifs at hbody
  · obtain ⟨rfl, rfl⟩ := Outcome.ok.inj hbody
    exact hnothing _ rfl rfl
  · rw [Prog.bind_apply, readMem, Prog.get_bind] at hbody
    rcases hsel : s.shim.2.mem.readCstr (s.shim.2.cpu.arg 1) 256 with e | sel
    · simp only [Prog.pure_apply, hsel] at hbody
      obtain ⟨rfl, rfl⟩ := Outcome.ok.inj hbody
      exact hnothing _ rfl rfl
    · simp only [Prog.pure_apply, hsel] at hbody
      split_ifs at hbody
      · obtain ⟨rfl, rfl⟩ := Outcome.ok.inj hbody
        exact hnothing _ rfl rfl
      · exact effect_receive h hbody

/-- A call hands out what it asks for, or nothing, and leaves the rest of the memory alone. -/
theorem effect_run (h : HeapInv s) (c : HeapCall) {d : Dispatch} {t : ObjcRuntime × CallContext}
    (hrun : c.run p s.shim = .ok d t) :
    HeapCall.Effect (c.asks s.shim) s.mem (t.2.cpu.arg 0) t.2.mem := by
  cases c with
  | malloc =>
    obtain ⟨v, t₁, htake, rfl⟩ := ok_of_answer hrun
    have hallots : Allots s.mem _ v t₁.2.mem := allots_of_takeBlock h (fun _ => rfl) htake
    rw [CpuContext.arg_setRet]
    exact hallots
  | calloc =>
    obtain ⟨v, t₁, htake, rfl⟩ := ok_of_answer hrun
    have hallots : Allots s.mem _ v t₁.2.mem :=
      allots_of_takeBlock h (h.fits_saturatingMul _ _).2 htake
    rw [CpuContext.arg_setRet]
    exact hallots
  | realloc =>
    obtain ⟨t', hrun', hallots, -⟩ := realloc_spec p h
    obtain ⟨-, rfl⟩ := Outcome.ok.inj (hrun'.symm.trans hrun)
    exact hallots
  | free =>
    obtain ⟨v, t₁, hbody, rfl⟩ := ok_of_answer hrun
    obtain ⟨-, rfl⟩ := Outcome.ok.inj hbody
    rfl
  | objcGetClass => exact effect_objcGetClass h hrun
  | objcAlloc => exact effect_objcAlloc h hrun
  | msgSend => exact effect_msgSend h hrun

end Calls

/-! ## Runs -/

section Runs

variable {p : Profile} {s s' : HeapState}

/-- Where memory and blocks are the same, the invariant is. -/
theorem HeapInv.congr (h : HeapInv s) (hinv : s'.mem.Inv) (hheap : s'.mem.heap = s.mem.heap)
    (hlayout : s'.mem.flat.layout MachineConfig.default.heapBase =
      s.mem.flat.layout MachineConfig.default.heapBase)
    (hzero : ∀ x, s.mem.heap.cursor.toNat ≤ x → x < heapEnd → s'.byte x = s.byte x)
    (hblocks : s'.blocks = s.blocks) : HeapInv s' := by
  refine ⟨hinv, ?_, ?_, ?_, ?_, fun x hle hlt => ?_, ?_, ?_⟩
  · rw [hlayout]
    exact h.region
  · rw [hheap, h.limit]
  · rw [hheap]
    exact h.start_le
  · rw [hheap]
    exact h.le_limit
  · rw [hheap] at hle
    rw [hzero x hle hlt]
    exact h.zero x hle hlt
  · rw [hheap, hblocks]
    exact h.inside
  · rw [hblocks]
    exact h.apart

instance : Std.Symm Block.Apart where
  symm _ _ h := ⟨h.1.symm, fun x hx hx' => h.2 x hx' hx⟩

theorem HeapInv.pairwise_apart (h : HeapInv s) : s.blocks.Pairwise Block.Apart := by
  refine h.apart.imp fun {b b'} hle => ⟨fun heq => ?_, fun x hx hx' => ?_⟩
  · rw [heq] at hle
    omega
  · unfold Block.Covers at hx hx'
    omega

/-- Every step keeps the invariant, and the bytes of every block that is not stored to. -/
theorem HeapStep.keeps {e : HeapEvent} (hstep : HeapStep p e s s') (h : HeapInv s) :
    HeapInv s' ∧ ∀ b ∈ s.blocks, (∀ addr bytes, e ≠ .store b addr bytes) →
      ∀ x, b.Covers x → s'.byte x = s.byte x := by
  cases hstep with
  | call c hrun hblocks =>
    have heffect := effect_run h c hrun
    cases hasks : c.asks s.shim with
    | none =>
      rw [hasks] at heffect hblocks
      have hmem : s'.mem = s.mem := heffect
      have hbyte : ∀ x, s'.byte x = s.byte x := fun x => by rw [HeapState.byte, hmem]; rfl
      refine ⟨h.congr ?_ ?_ ?_ (fun x _ _ => hbyte x) hblocks, fun _ _ _ x _ => hbyte x⟩
      · rw [hmem]
        exact h.memory
      · rw [hmem]
      · rw [hmem]
    | some n =>
      rw [hasks] at heffect hblocks
      obtain ⟨hinv, hbytes⟩ := h.allots heffect hblocks
      exact ⟨hinv, fun b hb _ => hbytes b hb⟩
  | store b addr bytes hb hle hend hwrite hrt hblocks =>
    obtain ⟨hflat, -, hheap⟩ := h.memory.flat_of_write hwrite
    have hbyte : ∀ x, ¬b.Covers x → s'.byte x = s.byte x := by
      intro x hx
      unfold Block.Covers at hx
      rw [HeapState.byte, hflat]
      exact FlatMemory.byte_write_of_not_mem (by omega)
    obtain ⟨-, -, hbelow⟩ := h.inside b hb
    refine ⟨h.congr (h.memory.of_write hwrite) hheap (by rw [hflat]; rfl) (fun x hx _ => ?_)
      hblocks, fun b' hb' hne x hx => hbyte x ?_⟩
    · refine hbyte x fun hcovers => ?_
      obtain ⟨-, hlt⟩ := hcovers
      omega
    · have hbb : b' ≠ b := by
        rintro rfl
        exact hne addr bytes rfl
      exact (h.pairwise_apart.forall hb' hb hbb).2 x hx
  | elsewhere hrt hinv hheap hlayout hbytes hblocks =>
    have hstart := h.start_le
    refine ⟨h.congr (hinv h.memory) hheap hlayout (fun x hx hlt => hbytes x (by omega) hlt)
      hblocks, fun b hb _ x hx => hbytes x ?_ ?_⟩
    · obtain ⟨-, hle, -⟩ := h.inside b hb
      exact hle.trans hx.1
    · obtain ⟨-, -, hend⟩ := h.inside b hb
      obtain ⟨-, hlt⟩ := hx
      have := h.le_limit
      omega

/-- And so does a run. -/
theorem HeapRun.inv (hrun : HeapRun p s s') (h : HeapInv s) : HeapInv s' := by
  induction hrun with
  | refl => exact h
  | tail _ hstep ih =>
    obtain ⟨e, hstep⟩ := hstep
    exact (hstep.keeps ih).1

end Runs

/-- The contract of the heap : where the blocks lie, that only a store to a block changes it, that
`calloc` hands out zeros, and that `realloc` keeps the bytes of the block. -/
theorem heap_contract {p : Profile} {s₀ s : HeapState} (hnew : FreshHeap p s₀)
    (hrun : HeapRun p s₀ s) :
    (∀ b ∈ s.blocks, b.addr.toNat % 16 = 0 ∧ heapStart ≤ b.addr.toNat ∧
      b.addr.toNat + max b.size 1 ≤ heapEnd) ∧
    s.blocks.Pairwise Block.Apart ∧
    (∀ e s', HeapStep p e s s' → ∀ b ∈ s.blocks, (∀ addr bytes, e ≠ .store b addr bytes) →
      ∀ x, b.Covers x → s'.byte x = s.byte x) ∧
    (∃ t, Frameworks.Libsystem.calloc p s.shim = .ok .handled t ∧
      if s.mem.heap.next + max ((s.shim.2.cpu.arg 0).toNat * (s.shim.2.cpu.arg 1).toNat) 1 ≤ heapEnd
      then t.2.cpu.arg 0 ≠ 0 ∧
        ∀ i < (s.shim.2.cpu.arg 0).toNat * (s.shim.2.cpu.arg 1).toNat,
          t.2.mem.flat.byte ((t.2.cpu.arg 0).toNat + i) = some 0
      else t.2.cpu.arg 0 = 0 ∧ t.2.mem = s.mem) ∧
    ∀ b ∈ s.blocks, s.shim.2.cpu.arg 0 = b.addr →
      ∃ t, Frameworks.Libsystem.realloc p s.shim = .ok .handled t ∧
        ((t.2.cpu.arg 0 = 0 ∧ t.2.mem = s.mem) ∨
        (t.2.cpu.arg 0 ≠ 0 ∧
          (⟨t.2.cpu.arg 0, (s.shim.2.cpu.arg 1).toNat⟩ :: s.blocks).Pairwise Block.Apart ∧
          ∀ i < min b.size (s.shim.2.cpu.arg 1).toNat,
            t.2.mem.flat.byte ((t.2.cpu.arg 0).toNat + i) = s.byte (b.addr.toNat + i))) := by
  have h : HeapInv s := hrun.inv hnew.inv
  refine ⟨fun b hb => ?_, h.pairwise_apart, fun e s' hstep => (hstep.keeps h).2, calloc_spec p h,
    fun b hb hold => ?_⟩
  · obtain ⟨hmod, hle, hend⟩ := h.inside b hb
    exact ⟨hmod, hle, hend.trans h.le_limit⟩
  · obtain ⟨t, hcall, hallots, hcopy⟩ := realloc_spec p h
    refine ⟨t, hcall, (hcopy b hb hold).imp_right fun ⟨hne, hbytes⟩ => ⟨hne, ?_, fun i hi => ?_⟩⟩
    · have hblock : HeapInv ⟨t, ⟨t.2.cpu.arg 0, (s.shim.2.cpu.arg 1).toNat⟩ :: s.blocks⟩ :=
        (h.allots hallots (by rw [if_neg hne])).1
      exact hblock.pairwise_apart
    · exact hbytes i (hi.trans_le (min_le_right _ _))

/-- The registers of a call with two arguments. -/
def callCpu (a b : U64) : CpuContext :=
  { CpuContext.default with x := fun i => if i = 0 then a else if i = 1 then b else 0 }

set_option maxRecDepth 10000 in
/-- Two blocks are handed out, three bytes are stored in the first, and it is given to `realloc`. -/
theorem calls_default_heap :
    ((GuestMemory.new .release MachineConfig.default.heapBase
      MachineConfig.default.heapSize).okAnd fun _ m =>
        (Frameworks.Libsystem.malloc .release (ObjcRuntime.new, ⟨callCpu 24 0, m⟩)).okAnd
          fun _ t₁ => t₁.2.cpu.arg 0 == 0x120000000 &&
        (Frameworks.Libsystem.malloc .release (t₁.1, ⟨callCpu 40 0, t₁.2.mem⟩)).okAnd
          fun _ t₂ => t₂.2.cpu.arg 0 == 0x120000020 &&
        (GuestMemory.write 0x120000000 [1, 2, 3] t₂.2.mem).okAnd fun _ m₃ =>
          m₃.flat.byte 0x120000002 == some 3 &&
        (Frameworks.Libsystem.realloc .release
          (t₂.1, ⟨callCpu 0x120000000 64, m₃⟩)).okAnd fun _ t =>
            t.2.cpu.arg 0 == 0x120000050) = true := by
  decide

/-- A machine that has been given two blocks and has stored three bytes in the first. A larger block
in its place has them too. -/
theorem heap_contract_realloc :
    ∃ s₀ s : HeapState, FreshHeap .release s₀ ∧ HeapRun .release s₀ s ∧
      s.blocks = [⟨0x120000020, 40⟩, ⟨0x120000000, 24⟩] ∧ s.blocks.Pairwise Block.Apart ∧
      ∃ t, Frameworks.Libsystem.realloc .release s.shim = .ok .handled t ∧
        t.2.cpu.arg 0 = 0x120000050 ∧ t.2.mem.flat.byte 0x120000052 = some 3 := by
  obtain ⟨⟨⟩, m, hm, hcalls⟩ := Outcome.okAnd_iff.1 calls_default_heap
  obtain ⟨d₁, t₁, hmalloc₁, hcalls⟩ := Outcome.okAnd_iff.1 hcalls
  obtain ⟨haddr₁, hcalls⟩ := Bool.and_eq_true_iff.1 hcalls
  obtain ⟨d₂, t₂, hmalloc₂, hcalls⟩ := Outcome.okAnd_iff.1 hcalls
  obtain ⟨haddr₂, hcalls⟩ := Bool.and_eq_true_iff.1 hcalls
  obtain ⟨⟨⟩, m₃, hstore, hcalls⟩ := Outcome.okAnd_iff.1 hcalls
  obtain ⟨hbyte, hcalls⟩ := Bool.and_eq_true_iff.1 hcalls
  obtain ⟨d, t', hrealloc', haddr⟩ := Outcome.okAnd_iff.1 hcalls
  rw [beq_iff_eq] at haddr₁ haddr₂ hbyte haddr
  let s₀ : HeapState := ⟨(ObjcRuntime.new, ⟨callCpu 24 0, m⟩), []⟩
  let s₁ : HeapState := ⟨t₁, [⟨0x120000000, 24⟩]⟩
  let s₁' : HeapState := ⟨(t₁.1, ⟨callCpu 40 0, t₁.2.mem⟩), [⟨0x120000000, 24⟩]⟩
  let s₂ : HeapState := ⟨t₂, [⟨0x120000020, 40⟩, ⟨0x120000000, 24⟩]⟩
  let s : HeapState :=
    ⟨(t₂.1, ⟨callCpu 0x120000000 64, m₃⟩), [⟨0x120000020, 40⟩, ⟨0x120000000, 24⟩]⟩
  have hnew : FreshHeap .release s₀ := ⟨hm, rfl⟩
  have hfirst : HeapStep .release (.call .malloc) s₀ s₁ := by
    refine .call .malloc hmalloc₁ ?_
    simp only [HeapCall.asks, HeapState.result, s₁, haddr₁]
    rfl
  have hregisters : HeapStep .release .elsewhere s₁ s₁' :=
    .elsewhere rfl id rfl rfl (fun _ _ _ => rfl) rfl
  have hsecond : HeapStep .release (.call .malloc) s₁' s₂ := by
    refine .call .malloc hmalloc₂ ?_
    simp only [HeapCall.asks, HeapState.result, s₂, haddr₂]
    rfl
  have hthird : HeapStep .release (.store ⟨0x120000000, 24⟩ 0x120000000 [1, 2, 3]) s₂ s :=
    .store _ _ _ (by simp [s₂]) le_rfl (by decide) hstore rfl rfl
  have hrun : HeapRun .release s₀ s :=
    .tail (.tail (.tail (.single ⟨_, hfirst⟩) ⟨_, hregisters⟩) ⟨_, hsecond⟩) ⟨_, hthird⟩
  obtain ⟨-, hapart, -, -, hcopies⟩ := heap_contract hnew hrun
  obtain ⟨t, hrealloc, hresult⟩ := hcopies ⟨0x120000000, 24⟩ (by simp [s]) rfl
  obtain ⟨rfl, rfl⟩ := Outcome.ok.inj (hrealloc'.symm.trans hrealloc)
  refine ⟨s₀, s, hnew, hrun, rfl, hapart, t', hrealloc, haddr, ?_⟩
  obtain ⟨hzero, -⟩ | ⟨-, -, hsame⟩ := hresult
  · rw [haddr] at hzero
    cases hzero
  · have hthere := hsame 2 (show 2 < min 24 (BitVec.toNat (64 : U64)) by decide)
    rw [haddr] at hthere
    exact hthere.trans hbyte

end IosEmu
