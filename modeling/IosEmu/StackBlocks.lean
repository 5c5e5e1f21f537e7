import IosEmu.Binding

/-!
# The blocks of the stack

`build_stack` copies the path of the executable below the top of the stack and lays three
arrays of pointers out below it : `apple`, `envp` and `argv`. Every address is found by
subtracting from the one before and rounding down to 16 bytes.

The path starts at a multiple of 16 whatever its length is, so the arrays are at fixed
distances below it, and `build_stack` is a sequence of stores of blocks that are apart
(`buildStack_eq`, `apart_stackBlocks`). Stores of blocks that are apart all succeed where they
are granted, and none changes what another has stored (`Inv.writeBlocks_ok`).
-/

open SysLib

namespace IosEmu

namespace GuestMemory

/-! ## Blocks -/

/-- Bytes that are stored at an address. -/
structure Block where
  addr : U64
  bytes : List U8

/-- No byte of one block is a byte of the other. -/
def Block.Apart (b c : Block) : Prop :=
  b.addr.toNat + b.bytes.length ≤ c.addr.toNat ∨ c.addr.toNat + c.bytes.length ≤ b.addr.toNat

/-- The block lies in `[lo, hi)`. -/
def Block.Within (lo hi : ℕ) (b : Block) : Prop :=
  lo ≤ b.addr.toNat ∧ b.addr.toNat + b.bytes.length ≤ hi

/-- Store blocks in turn. -/
def writeBlocks (blocks : List Block) : MemM Unit :=
  Prog.forEach blocks fun b => write b.addr b.bytes

theorem writeBlocks_nil_bind {α : Type} (f : Unit → MemM α) : (writeBlocks [] >>= f) = f () :=
  rfl

theorem writeBlocks_cons_bind {α : Type} (b : Block) (blocks : List Block)
    (f : Unit → MemM α) :
    (writeBlocks (b :: blocks) >>= f) =
      write b.addr b.bytes >>= fun _ => writeBlocks blocks >>= f :=
  Prog.bind_bind _ _ _

/-- Blocks that are apart can be stored where each is granted. All of them are there
afterwards, and no other byte has changed. -/
theorem Inv.writeBlocks_ok : ∀ {blocks : List Block} {m : GuestMemory}, m.Inv →
    (∀ b ∈ blocks, m.flat.Grants b.addr b.bytes.length .write) →
    blocks.Pairwise Block.Apart →
    ∃ m', writeBlocks blocks m = .ok () m' ∧ m'.Inv ∧ m'.flat.layout = m.flat.layout ∧
      (∀ b ∈ blocks, m'.flat.Reads b.addr b.bytes) ∧
      ∀ x, (∀ b ∈ blocks, x < b.addr.toNat ∨ b.addr.toNat + b.bytes.length ≤ x) →
        m'.flat.byte x = m.flat.byte x
  | [], m, hinv, _, _ => ⟨m, rfl, hinv, rfl, fun _ h => absurd h List.not_mem_nil, fun _ _ => rfl⟩
  | b :: blocks, m, hinv, hgrants, hapart => by
    obtain ⟨hfirst, hrest⟩ := List.pairwise_cons.1 hapart
    obtain ⟨m₁, hw⟩ := hinv.write_isOk_iff.2 (hgrants b List.mem_cons_self)
    obtain ⟨hflat, -, -⟩ := hinv.flat_of_write hw
    have hlayout : m₁.flat.layout = m.flat.layout := by
      rw [hflat]
      rfl
    obtain ⟨m', hrun, hinv', hlayout', hreads, hframe⟩ := writeBlocks_ok (hinv.of_write hw)
      (fun c hc => (FlatMemory.grants_congr hlayout).2 (hgrants c (List.mem_cons_of_mem b hc)))
      hrest
    refine ⟨m', Prog.bind_eq_ok.2 ⟨(), m₁, hw, hrun⟩, hinv', hlayout'.trans hlayout, ?_, ?_⟩
    · intro c hc
      rcases List.mem_cons.1 hc with rfl | hc
      · -- The blocks that follow leave the first one alone.
        intro i hi
        rw [hframe _ fun c' hc' => ?_, hflat]
        · exact FlatMemory.reads_write_self _ _ _ i hi
        · have : c.Apart c' := hfirst c' hc'
          unfold Block.Apart at this
          omega
      · exact hreads c hc
    · intro x hx
      rw [hframe x fun c hc => hx c (List.mem_cons_of_mem b hc), hflat]
      have := hx b List.mem_cons_self
      exact if_neg (by omega)

end GuestMemory

namespace Process

open GuestMemory

variable {p : Profile}

/-! ## The blocks of the stack -/

theorem toNat_add8 {x : U64} (h : x.toNat + 8 < 2 ^ 64) : (x + 8).toNat = x.toNat + 8 :=
  (BitVec.toNat_add x 8).trans (Nat.mod_eq_of_lt h)

/-- Rounding an address down to a multiple of 16. -/
theorem toNat_align16 (x : U64) : (x &&& ~~~0xf).toNat = x.toNat / 16 * 16 :=
  toNat_and_not_mask 4 x

/-- What is stored on the stack, in the order of the source : the path at `str`, and the
arrays `apple`, `envp` and `argv` below it. -/
def stackBlocks (str : U64) (path : List U8) : List Block :=
  [⟨str, path⟩, ⟨str + BitVec.ofNat 64 path.length, [0]⟩,
    ⟨str - 16, toLeBytes64 str⟩, ⟨str - 16 + 8, toLeBytes64 0⟩,
    ⟨str - 32, toLeBytes64 0⟩,
    ⟨str - 48, toLeBytes64 str⟩, ⟨str - 48 + 8, toLeBytes64 0⟩]

theorem sub_of_le {x y : U64} {n : ℕ} (hy : y.toNat = n) (h : n ≤ x.toNat) :
    p.sub x y = .ok (x - y) := by
  obtain ⟨z, hz⟩ := Profile.sub_isOk_iff.2 fun _ : p = .debug => BitVec.le_def.2 (hy ▸ h)
  rw [hz, Profile.sub_eq_ok hz]

theorem toNat_sub_of_eq {x y : U64} {n : ℕ} (hy : y.toNat = n) (h : n ≤ x.toNat) :
    (x - y).toNat = x.toNat - n := by
  rw [BitVec.toNat_sub_of_le (BitVec.le_def.2 (hy ▸ h)), hy]

/-- Below a multiple of 16, subtracting and rounding down subtracts a multiple of 16. -/
theorem sub_align16 {x y z : U64} {n k : ℕ} (hx : x.toNat % 16 = 0) (hy : y.toNat = n)
    (hz : z.toNat = k) (hround : (n + 15) / 16 * 16 = k) (hk : k ≤ x.toNat) :
    (x - y) &&& ~~~0xf = x - z := by
  apply BitVec.eq_of_toNat_eq
  rw [toNat_align16, toNat_sub_of_eq hy (by omega), toNat_sub_of_eq hz hk]
  omega

/-- With room for the path, `build_stack` stores its blocks. -/
theorem buildStack_eq (p : Profile) (cfg : LayoutConfig)
    (hfit : 48 ≤ (cfg.stackTop.toNat - ((utf8Bytes cfg.argv0).length + 17)) / 16 * 16) :
    ∃ str : U64, str.toNat = (cfg.stackTop.toNat - ((utf8Bytes cfg.argv0).length + 17)) / 16 * 16 ∧
      buildStack p cfg = (writeBlocks (stackBlocks str (utf8Bytes cfg.argv0)) >>= fun _ =>
        pure (str - 48, ![1, str - 48, str - 32, str - 16])) := by
  have htop := cfg.stackTop.isLt
  unfold buildStack
  generalize utf8Bytes cfg.argv0 = path at hfit ⊢
  have hlen : (BitVec.ofNat 64 path.length).toNat = path.length := by
    rw [BitVec.toNat_ofNat]
    omega
  have h16 : (16 : U64).toNat = 16 := rfl
  have h8 : (8 : U64).toNat = 8 := rfl
  -- The address of the path.
  have htop₁ := toNat_sub_of_eq h16 (show 16 ≤ cfg.stackTop.toNat by omega)
  have hstart₁ := toNat_sub_of_eq hlen (show path.length ≤ (cfg.stackTop - 16).toNat by omega)
  rw [sub_of_le h16 (by omega), Prog.ofChecked_ok_bind, sub_of_le hlen (by omega),
    Prog.ofChecked_ok_bind, sub_of_le (n := 1) rfl (by omega), Prog.ofChecked_ok_bind]
  have hstr := toNat_align16 (cfg.stackTop - 16 - BitVec.ofNat 64 path.length - 1)
  rw [toNat_sub_of_eq (n := 1) rfl (by omega), hstart₁, htop₁] at hstr
  generalize (cfg.stackTop - 16 - BitVec.ofNat 64 path.length - 1) &&& ~~~0xf = str at hstr ⊢
  refine ⟨str, by omega, ?_⟩
  -- The arrays are at fixed distances below it.
  have happle : (str - 16) &&& ~~~0xf = str - 16 := sub_align16 (by omega) h16 h16 rfl (by omega)
  have happle₁ := toNat_sub_of_eq h16 (show 16 ≤ str.toNat by omega)
  have henvp : (str - 16 - 8) &&& ~~~0xf = str - 32 := by
    rw [sub_align16 (z := 16) (by omega) h8 h16 rfl (by omega), BitVec.sub_sub]
    rfl
  have henvp₁ := toNat_sub_of_eq (n := 32) (y := 32) rfl (show 32 ≤ str.toNat by omega)
  have hargv : (str - 32 - 16) &&& ~~~0xf = str - 48 := by
    rw [sub_align16 (z := 16) (by omega) h16 h16 rfl (by omega), BitVec.sub_sub]
    rfl
  have hsp : (str - 48) &&& ~~~0xf = str - 48 :=
    sub_align16 (n := 48) (k := 48) (by omega) rfl rfl rfl (by omega)
  simp only [sub_of_le h16 (show 16 ≤ str.toNat by omega), Prog.ofChecked_ok_bind, happle,
    sub_of_le h8 (show 8 ≤ (str - 16).toNat by omega), henvp,
    sub_of_le h16 (show 16 ≤ (str - 32).toNat by omega), hargv, hsp, stackBlocks,
    writeBlocks_cons_bind, writeBlocks_nil_bind, writeU64]

/-- Where the blocks are, in terms of the address of the path. -/
structure BlockAddrs (str : U64) (path : List U8) : Prop where
  nul : (str + BitVec.ofNat 64 path.length).toNat = str.toNat + path.length
  apple : (str - 16).toNat = str.toNat - 16
  apple₁ : (str - 16 + 8).toNat = str.toNat - 8
  envp : (str - 32).toNat = str.toNat - 32
  argv : (str - 48).toNat = str.toNat - 48
  argv₁ : (str - 48 + 8).toNat = str.toNat - 40

theorem blockAddrs {str : U64} {path : List U8} (hlo : 48 ≤ str.toNat)
    (hhi : str.toNat + path.length < 2 ^ 64) : BlockAddrs str path := by
  have happle := toNat_sub_of_eq (y := 16) (n := 16) rfl (show 16 ≤ str.toNat by omega)
  have henvp := toNat_sub_of_eq (y := 32) (n := 32) rfl (show 32 ≤ str.toNat by omega)
  have hargv := toNat_sub_of_eq (y := 48) (n := 48) rfl hlo
  refine ⟨?_, happle, ?_, henvp, hargv, ?_⟩
  · rw [BitVec.toNat_add, BitVec.toNat_ofNat]
    omega
  · rw [toNat_add8 (by omega)]
    omega
  · rw [toNat_add8 (by omega)]
    omega

/-- Every block lies between `argv` and the NUL of the path. -/
theorem within_stackBlocks {str : U64} {path : List U8} (hlo : 48 ≤ str.toNat)
    (hhi : str.toNat + path.length < 2 ^ 64) {b : Block} (hb : b ∈ stackBlocks str path) :
    b.Within (str.toNat - 48) (str.toNat + path.length + 1) := by
  obtain ⟨hnul, happle, happle₁, henvp, hargv, hargv₁⟩ := blockAddrs hlo hhi
  simp only [stackBlocks, List.mem_cons, List.not_mem_nil, or_false] at hb
  unfold Block.Within
  rcases hb with rfl | rfl | rfl | rfl | rfl | rfl | rfl <;>
    simp only [length_toLeBytes64, List.length_singleton] <;> omega

/-- No two blocks overlap. -/
theorem apart_stackBlocks {str : U64} {path : List U8} (hlo : 48 ≤ str.toNat)
    (hhi : str.toNat + path.length < 2 ^ 64) :
    (stackBlocks str path).Pairwise Block.Apart := by
  obtain ⟨hnul, happle, happle₁, henvp, hargv, hargv₁⟩ := blockAddrs hlo hhi
  simp only [stackBlocks, List.pairwise_cons, List.forall_mem_cons, Block.Apart,
    length_toLeBytes64, List.length_singleton, List.not_mem_nil, false_imp_iff, implies_true,
    List.Pairwise.nil, and_true]
  omega

end Process

end IosEmu
