import IosEmu.MemoryPanics
import IosEmu.Streams
import Mathlib.Data.Fintype.Fin
import Mathlib.Logic.Relation
import Mathlib.Tactic.FinCases

/-!
# When a decoder panics

In a debug build a decoder panics in an operand that goes on for too long : `read_sleb` shifts by
70 for its eleventh byte, and the shift of `read_uleb` overflows after 613566756 bytes. In both
builds the decoders of binds and rebases panic where the opcodes have emitted more than a vector
can hold. `safe_loop_iff` says once for the three decoders that a stream is decoded without a panic
exactly if every opcode it gets to is.
-/

open SysLib Relation

namespace IosEmu

open Prog

/-! ## Operands -/

/-- More than `n` bytes, and the first `n` ask for another one. -/
def LongOperand (n : ℕ) (l : List U8) : Prop :=
  n < l.length ∧ ∀ b ∈ l.take n, b &&& 0x80 ≠ 0

theorem longOperand_nil (n : ℕ) : ¬ LongOperand n [] :=
  fun h => Nat.not_lt_zero n h.1

theorem longOperand_zero (b : U8) (l : List U8) : LongOperand 0 (b :: l) :=
  ⟨Nat.succ_pos _, by simp⟩

theorem longOperand_succ {n : ℕ} {b : U8} {l : List U8} :
    LongOperand (n + 1) (b :: l) ↔ b &&& 0x80 ≠ 0 ∧ LongOperand n l := by
  unfold LongOperand
  rw [List.take_succ_cons, List.forall_mem_cons, List.length_cons, Nat.add_lt_add_iff_right]
  exact and_left_comm

theorem ulebFrom_release {msg : String} : ∀ (l : List U8) (shift : U32) (result : U64) (e : Panic),
    ulebFrom .release msg l shift result ≠ .panic e
  | [], _, _, _ => by rintro ⟨⟩
  | b :: rest, shift, result, e => by
    unfold ulebFrom
    simp only [Profile.add_release]
    by_cases hlast : b &&& 0x80 = 0
    · simp only [if_pos hlast]
      rintro ⟨⟩
    · simp only [if_neg hlast]
      exact ulebFrom_release rest _ _ e

/-- The count of bits goes up by seven, also where it wraps. -/
theorem shift_add (k : ℕ) : BitVec.ofNat 32 (7 * k) + 7 = BitVec.ofNat 32 (7 * (k + 1)) := by
  rw [Nat.mul_add, BitVec.ofNat_add]
  rfl

theorem add_seven {k : ℕ} (hk : k < 613566756) :
    Profile.debug.add (BitVec.ofNat 32 (7 * k)) 7 = .ok (BitVec.ofNat 32 (7 * (k + 1))) := by
  rw [← shift_add]
  refine if_pos ?_
  rw [BitVec.toNat_ofNat, Nat.mod_eq_of_lt (by omega)]
  change 7 * k + 7 < 2 ^ 32
  omega

/-- From the byte with number `k` on. -/
theorem ulebFrom_debug {msg : String} : ∀ {l : List U8} {k : ℕ} {result : U64}, k ≤ 613566756 →
    ((∀ e, ulebFrom .debug msg l (BitVec.ofNat 32 (7 * k)) result ≠ .panic e) ↔
      ¬ LongOperand (613566756 - k) l)
  | [], k, result, _ => iff_of_true (by rintro e ⟨⟩) (longOperand_nil _)
  | b :: rest, k, result, hk => by
    unfold ulebFrom
    rcases Nat.eq_or_lt_of_le hk with rfl | hlt
    · refine iff_of_false (fun h => h .arithmeticOverflow ?_) fun h => h (longOperand_zero b rest)
      rfl
    · have hadd := add_seven hlt
      rw [show 613566756 - k = 613566756 - (k + 1) + 1 by omega, longOperand_succ]
      simp only [hadd]
      by_cases hlast : b &&& 0x80 = 0
      · simp only [if_pos hlast]
        exact iff_of_true (by rintro e ⟨⟩) fun h => h.1 hlast
      · simp only [if_neg hlast]
        rw [ulebFrom_debug (Nat.succ_le_of_lt hlt)]
        exact ⟨fun h h' => h h'.2, fun h h' => h ⟨hlast, h'⟩⟩

/-- The `read_uleb` at the front of a stream does not panic. -/
def UlebFits (p : Profile) (l : List U8) : Prop :=
  p = .debug → ¬ LongOperand 613566756 l

/-- The `read_sleb` at the front of a stream does not panic. -/
def SlebFits (p : Profile) (l : List U8) : Prop :=
  p = .debug → ¬ LongOperand 10 l

theorem ulebFrom_fits {p : Profile} {msg : String} {l : List U8} :
    (∀ e, ulebFrom p msg l 0 0 ≠ .panic e) ↔ UlebFits p l := by
  cases p with
  | release => exact iff_of_true (ulebFrom_release l 0 0) (by rintro ⟨⟩)
  | debug => exact (ulebFrom_debug (Nat.zero_le _)).trans ⟨fun h _ => h, fun h => h rfl⟩

theorem slebFrom_release : ∀ (l : List U8) (shift : U32) (result : U64) (e : Panic),
    slebFrom .release l shift result ≠ .panic e
  | [], _, _, _ => by rintro ⟨⟩
  | b :: rest, shift, result, e => by
    unfold slebFrom
    simp only [Profile.shl, Profile.add_release]
    split_ifs
    · exact slebFrom_release rest _ _ e
    · rintro ⟨⟩
    · rintro ⟨⟩

theorem slebFrom_debug : ∀ {l : List U8} {k : ℕ} {result : U64}, k ≤ 10 →
    ((∀ e, slebFrom .debug l (BitVec.ofNat 32 (7 * k)) result ≠ .panic e) ↔
      ¬ LongOperand (10 - k) l)
  | [], k, result, _ => iff_of_true (by rintro e ⟨⟩) (longOperand_nil _)
  | b :: rest, k, result, hk => by
    have hshift : (BitVec.ofNat 32 (7 * k)).toNat = 7 * k := by
      rw [BitVec.toNat_ofNat]
      omega
    unfold slebFrom
    rcases Nat.eq_or_lt_of_le hk with rfl | hlt
    · refine iff_of_false (fun h => h .arithmeticOverflow ?_) fun h => h (longOperand_zero b rest)
      rfl
    · have hshl : Profile.debug.shl ((b &&& 0x7f).setWidth 64) (BitVec.ofNat 32 (7 * k)) =
          .ok ((b &&& 0x7f).setWidth 64 <<< (7 * k)) := by
        rw [Profile.shl, hshift]
        exact if_pos (by omega)
      rw [show 10 - k = 10 - (k + 1) + 1 by omega, longOperand_succ]
      simp only [hshl, add_seven (show k < 613566756 by omega)]
      by_cases hmore : b &&& 0x80 ≠ 0
      · simp only [if_pos hmore]
        rw [slebFrom_debug (Nat.succ_le_of_lt hlt)]
        exact ⟨fun h h' => h h'.2, fun h h' => h ⟨hmore, h'⟩⟩
      · simp only [if_neg hmore]
        refine iff_of_true (fun e => ?_) fun h => hmore h.1
        split_ifs <;> rintro ⟨⟩

theorem safe_readSleb_iff {p : Profile} {l : List U8} : (readSleb p).Safe l ↔ SlebFits p l := by
  cases p with
  | release => exact iff_of_true (slebFrom_release l 0 0) (by rintro ⟨⟩)
  | debug => exact (slebFrom_debug (Nat.zero_le _)).trans ⟨fun h _ => h, fun h => h rfl⟩

theorem total_readSymbol : readSymbol.Total := by
  intro l e h
  unfold readSymbol at h
  split at h <;> cases h

/-! ## Opcodes -/

/-- An opcode is the high half of a byte. -/
theorem exists_opcode : ∀ byte : U8, ∃ k : Fin 16, (byte &&& 0xf0).toNat = 16 * k := by
  decide

namespace Bind

theorem safe_readUleb_iff {p : Profile} {l : List U8} : (readUleb p).Safe l ↔ UlebFits p l :=
  ulebFrom_fits

/-- The operands after an opcode can be read without a panic. -/
def OpFits (p : Profile) (byte : U8) (tail : List U8) : Prop :=
  match (byte &&& 0xf0).toNat with
  | 0x20 | 0x70 | 0x80 | 0xa0 => UlebFits p tail
  | 0x60 => SlebFits p tail
  | 0xc0 => UlebFits p tail ∧
      ∀ count rest, readUleb p tail = .ok count rest → UlebFits p rest
  | _ => True

theorem safe_readOp_iff {p : Profile} {byte : U8} {tail : List U8} :
    (readOp p byte).Safe tail ↔ OpFits p byte tail := by
  have huleb : ∀ f : U64 → BindOp,
      (readUleb p >>= fun v => pure (f v) : StreamM BindOp).Safe tail ↔ UlebFits p tail :=
    fun f => (safe_bind_total_iff fun v => total_pure (f v)).trans safe_readUleb_iff
  obtain ⟨k, hk⟩ := exists_opcode byte
  unfold readOp OpFits
  rw [hk]
  fin_cases k
  · exact iff_of_true (total_pure _ tail) trivial
  · exact iff_of_true (total_pure _ tail) trivial
  · exact huleb _
  · exact iff_of_true (total_pure _ tail) trivial
  · exact iff_of_true (total_readSymbol.bind (fun _ => total_pure _) tail) trivial
  · exact iff_of_true (total_pure _ tail) trivial
  · exact (safe_bind_total_iff fun _ => total_pure _).trans safe_readSleb_iff
  · exact huleb _
  · exact huleb _
  · exact iff_of_true (total_pure _ tail) trivial
  · exact huleb _
  · exact iff_of_true (total_pure _ tail) trivial
  · refine Prog.safe_bind_iff.trans (and_congr safe_readUleb_iff ?_)
    refine forall_congr' fun count => forall_congr' fun rest => imp_congr_right fun _ => ?_
    exact (safe_bind_total_iff fun _ => total_pure _).trans safe_readUleb_iff
  · exact iff_of_true (total_fail _ tail) trivial
  · exact iff_of_true (total_fail _ tail) trivial
  · exact iff_of_true (total_fail _ tail) trivial

end Bind

namespace LazyBind

/-- The operands after an opcode can be read without a panic. -/
def OpFits (p : Profile) (byte : U8) (tail : List U8) : Prop :=
  match (byte &&& 0xf0).toNat with
  | 0x20 | 0x70 | 0x80 => UlebFits p tail
  | 0x60 => SlebFits p tail
  | _ => True

theorem safe_readOp_iff {p : Profile} {byte : U8} {tail : List U8} :
    (readOp p byte).Safe tail ↔ OpFits p byte tail := by
  have huleb : ∀ f : U64 → LazyOp,
      (Bind.readUleb p >>= fun v => pure (f v) : StreamM LazyOp).Safe tail ↔ UlebFits p tail :=
    fun f => (safe_bind_total_iff fun v => total_pure (f v)).trans Bind.safe_readUleb_iff
  obtain ⟨k, hk⟩ := exists_opcode byte
  unfold readOp OpFits
  rw [hk]
  fin_cases k
  · exact iff_of_true (total_pure _ tail) trivial
  · exact iff_of_true (total_pure _ tail) trivial
  · exact huleb _
  · exact iff_of_true (total_pure _ tail) trivial
  · exact iff_of_true (total_readSymbol.bind (fun _ => total_pure _) tail) trivial
  · exact iff_of_true (total_pure _ tail) trivial
  · exact (safe_bind_total_iff fun _ => total_pure _).trans safe_readSleb_iff
  · exact huleb _
  · exact huleb _
  all_goals exact iff_of_true (total_pure _ tail) trivial

end LazyBind

namespace Rebase

theorem safe_readUleb_iff {p : Profile} {l : List U8} : (readUleb p).Safe l ↔ UlebFits p l :=
  ulebFrom_fits

/-- The operands after an opcode can be read without a panic. -/
def OpFits (p : Profile) (byte : U8) (tail : List U8) : Prop :=
  match (byte &&& 0xf0).toNat with
  | 0x20 | 0x30 | 0x60 | 0x70 => UlebFits p tail
  | 0x80 => UlebFits p tail ∧
      ∀ count rest, readUleb p tail = .ok count rest → UlebFits p rest
  | _ => True

theorem safe_readOp_iff {p : Profile} {byte : U8} {tail : List U8} :
    (readOp p byte).Safe tail ↔ OpFits p byte tail := by
  have huleb : ∀ f : U64 → RebaseOp,
      (readUleb p >>= fun v => pure (f v) : StreamM RebaseOp).Safe tail ↔ UlebFits p tail :=
    fun f => (safe_bind_total_iff fun v => total_pure (f v)).trans safe_readUleb_iff
  obtain ⟨k, hk⟩ := exists_opcode byte
  unfold readOp OpFits
  rw [hk]
  fin_cases k
  · exact iff_of_true (total_pure _ tail) trivial
  · exact iff_of_true (total_pure _ tail) trivial
  · exact huleb _
  · exact huleb _
  · exact iff_of_true (total_pure _ tail) trivial
  · exact iff_of_true (total_pure _ tail) trivial
  · exact huleb _
  · exact huleb _
  · refine Prog.safe_bind_iff.trans (and_congr safe_readUleb_iff ?_)
    refine forall_congr' fun count => forall_congr' fun rest => imp_congr_right fun _ => ?_
    exact (safe_bind_total_iff fun _ => total_pure _).trans safe_readUleb_iff
  all_goals exact iff_of_true (total_fail _ tail) trivial

end Rebase

/-! ## Streams -/

/-- A decoder only leaves less of the stream. -/
abbrev Shrinks {α : Type} (x : StreamM α) : Prop :=
  x.Steps (InvImage (· ≥ ·) List.length)

theorem length_ulebFrom {p : Profile} {msg : String} :
    ∀ {l l' : List U8} {shift : U32} {result : U64},
      (ulebFrom p msg l shift result).state? = some l' → l'.length ≤ l.length
  | [], l', _, _, h => by
    obtain rfl : [] = l' := Option.some.inj h
    exact le_rfl
  | b :: rest, l', shift, result, h => by
    unfold ulebFrom at h
    rcases hadd : p.add shift 7 with e | shift' <;> simp only [hadd] at h
    · cases h
    · by_cases hlast : b &&& 0x80 = 0
      · simp only [if_pos hlast] at h
        obtain rfl : rest = l' := Option.some.inj h
        exact Nat.le_succ _
      · simp only [if_neg hlast] at h
        exact (length_ulebFrom h).trans (Nat.le_succ _)

theorem length_slebFrom {p : Profile} :
    ∀ {l l' : List U8} {shift : U32} {result : U64},
      (slebFrom p l shift result).state? = some l' → l'.length ≤ l.length
  | [], l', _, _, h => by
    obtain rfl : [] = l' := Option.some.inj h
    exact le_rfl
  | b :: rest, l', shift, result, h => by
    unfold slebFrom at h
    rcases hshl : p.shl ((b &&& 0x7f).setWidth 64) shift with e | digit <;>
      rcases hadd : p.add shift 7 with e' | shift' <;> simp only [hshl, hadd] at h
    · cases h
    · cases h
    · cases h
    · split_ifs at h
      · exact (length_slebFrom h).trans (Nat.le_succ _)
      · obtain rfl : rest = l' := Option.some.inj h
        exact Nat.le_succ _
      · obtain rfl : rest = l' := Option.some.inj h
        exact Nat.le_succ _

theorem shrinks_readSymbol : Shrinks readSymbol := by
  intro l l' h
  have hsuffix := List.dropWhile_suffix (fun b : U8 => decide (b ≠ 0)) (l := l)
  unfold readSymbol at h
  rcases hdrop : l.dropWhile (· ≠ 0) with _ | ⟨b, rest⟩ <;> simp only [hdrop] at h
  · obtain rfl : [] = l' := Option.some.inj h
    exact Nat.zero_le _
  · obtain rfl : rest = l' := Option.some.inj h
    rw [hdrop] at hsuffix
    exact (Nat.le_succ _).trans hsuffix.length_le

theorem Bind.shrinks_readUleb (p : Profile) : Shrinks (Bind.readUleb p) :=
  fun _ _ h => length_ulebFrom h

theorem Rebase.shrinks_readUleb (p : Profile) : Shrinks (Rebase.readUleb p) :=
  fun _ _ h => length_ulebFrom h

theorem shrinks_readSleb (p : Profile) : Shrinks (readSleb p) :=
  fun _ _ h => length_slebFrom h

theorem Bind.shrinks_readOp (p : Profile) (byte : U8) : Shrinks (Bind.readOp p byte) := by
  have huleb : ∀ f : U64 → BindOp, Shrinks (readUleb p >>= fun v => pure (f v)) :=
    fun f => (Bind.shrinks_readUleb p).bind fun v => steps_pure (f v)
  obtain ⟨k, hk⟩ := exists_opcode byte
  unfold Bind.readOp
  rw [hk]
  fin_cases k
  · exact steps_pure _
  · exact steps_pure _
  · exact huleb _
  · exact steps_pure _
  · exact shrinks_readSymbol.bind fun _ => steps_pure _
  · exact steps_pure _
  · exact (shrinks_readSleb p).bind fun _ => steps_pure _
  · exact huleb _
  · exact huleb _
  · exact steps_pure _
  · exact huleb _
  · exact steps_pure _
  · exact (Bind.shrinks_readUleb p).bind fun _ => (Bind.shrinks_readUleb p).bind fun _ =>
      steps_pure _
  all_goals exact steps_fail _

theorem LazyBind.shrinks_readOp (p : Profile) (byte : U8) : Shrinks (LazyBind.readOp p byte) := by
  have huleb : ∀ f : U64 → LazyOp, Shrinks (Bind.readUleb p >>= fun v => pure (f v)) :=
    fun f => (Bind.shrinks_readUleb p).bind fun v => steps_pure (f v)
  obtain ⟨k, hk⟩ := exists_opcode byte
  unfold LazyBind.readOp
  rw [hk]
  fin_cases k
  · exact steps_pure _
  · exact steps_pure _
  · exact huleb _
  · exact steps_pure _
  · exact shrinks_readSymbol.bind fun _ => steps_pure _
  · exact steps_pure _
  · exact (shrinks_readSleb p).bind fun _ => steps_pure _
  · exact huleb _
  · exact huleb _
  all_goals exact steps_pure _

theorem Rebase.shrinks_readOp (p : Profile) (byte : U8) : Shrinks (Rebase.readOp p byte) := by
  have huleb : ∀ f : U64 → RebaseOp, Shrinks (Rebase.readUleb p >>= fun v => pure (f v)) :=
    fun f => (Rebase.shrinks_readUleb p).bind fun v => steps_pure (f v)
  obtain ⟨k, hk⟩ := exists_opcode byte
  unfold Rebase.readOp
  rw [hk]
  fin_cases k
  · exact steps_pure _
  · exact steps_pure _
  · exact huleb _
  · exact huleb _
  · exact steps_pure _
  · exact steps_pure _
  · exact huleb _
  · exact huleb _
  · exact (Rebase.shrinks_readUleb p).bind fun _ => (Rebase.shrinks_readUleb p).bind fun _ =>
      steps_pure _
  all_goals exact steps_fail _

/-- One more opcode is read. What was emitted is counted, beside what is left of the stream. -/
def ReadsOp {α : Type} (readOp : U8 → StreamM α) (count : α → ℕ) (s s' : ℕ × List U8) : Prop :=
  ∃ byte tail op, s.2 = byte :: tail ∧ readOp byte tail = .ok op s'.2 ∧ s'.1 = s.1 + count op

/-- Every opcode that a decoder gets to fits behind what it has emitted. -/
def OpsFit {α : Type} (readOp : U8 → StreamM α) (count : α → ℕ) (fits : ℕ → U8 → List U8 → Prop)
    (emitted : ℕ) (l : List U8) : Prop :=
  ∀ n byte tail, ReflTransGen (ReadsOp readOp count) (emitted, l) (n, byte :: tail) →
    fits n byte tail

/-- A loop that reads opcodes until the stream is empty, with at least as many turns as there
are bytes, does not panic exactly if no opcode that it gets to does. -/
theorem safe_loop_iff {α β τ : Type} {readOp : U8 → StreamM α} {count : α → ℕ}
    {fits : ℕ → U8 → List U8 → Prop} {loop : ℕ → τ → StreamM β} {next : τ → α → List U8 → τ}
    {size : τ → ℕ} (hshrinks : ∀ byte, Shrinks (readOp byte))
    (hsize : ∀ t op l', size (next t op l') = size t + count op)
    (hnil : ∀ n t, (loop n t).Safe [])
    (hcons : ∀ n t byte tail, (loop (n + 1) t).Safe (byte :: tail) ↔
      fits (size t) byte tail ∧ ∀ op l', readOp byte tail = .ok op l' →
        (loop n (next t op l')).Safe l') :
    ∀ {n : ℕ} {t : τ} {l : List U8}, l.length ≤ n →
      ((loop n t).Safe l ↔ OpsFit readOp count fits (size t) l)
  | n, t, [], _ => by
    refine iff_of_true (hnil n t) fun k byte tail h => ?_
    rcases ReflTransGen.cases_head h with h | ⟨_, ⟨_, _, _, h, _⟩, _⟩
    · cases (Prod.mk.inj h).2
    · cases h
  | n + 1, t, byte :: tail, hlen => by
    have htail : ∀ {op l'}, readOp byte tail = .ok op l' →
        ((loop n (next t op l')).Safe l' ↔ OpsFit readOp count fits (size t + count op) l') := by
      intro op l' hop
      have hshort : l'.length ≤ tail.length := (hshrinks byte).ok hop
      rw [← hsize t op l']
      exact safe_loop_iff hshrinks hsize hnil hcons
        (hshort.trans (Nat.le_of_succ_le_succ hlen))
    rw [hcons]
    constructor
    · rintro ⟨hop, hrest⟩ k byte' tail' h
      rcases ReflTransGen.cases_head h with h | ⟨⟨k', l'⟩, ⟨_, _, op, heq, hread, hcount⟩, h⟩
      · obtain ⟨rfl, heq⟩ := Prod.mk.inj h
        obtain ⟨rfl, rfl⟩ := List.cons.inj heq
        exact hop
      · obtain ⟨rfl, rfl⟩ := List.cons.inj heq
        dsimp only at hread hcount
        subst hcount
        exact (htail hread).1 (hrest op l' hread) k byte' tail' h
    · intro h
      refine ⟨h _ byte tail .refl, fun op l' hread => (htail hread).2 fun k byte' tail' hl' => ?_⟩
      exact h k byte' tail' (ReflTransGen.head ⟨byte, tail, op, rfl, hread, rfl⟩ hl')

theorem safe_nextByte_bind_iff {α : Type} {f : Option U8 → StreamM α} {byte : U8}
    {tail : List U8} : (nextByte >>= f).Safe (byte :: tail) ↔ (f (some byte)).Safe tail :=
  Iff.rfl

theorem safe_vecRoom_bind_iff {ε σ α : Type} {elementSize len n : ℕ}
    {f : Unit → Prog ε Panic σ α} {s : σ} :
    (Prog.ofChecked (vecRoom elementSize len n) >>= f).Safe s ↔
      len + n ≤ vecLimit elementSize ∧ (f ()).Safe s := by
  rw [safe_ofChecked_bind_iff, ← vecRoom_eq_ok]
  exact ⟨fun ⟨_, hroom, h⟩ => ⟨hroom, h⟩, fun ⟨hroom, h⟩ => ⟨(), hroom, h⟩⟩

/-- A turn of a loop that makes room before and after it reads the operands. -/
theorem safe_turn_iff {α β : Type} {elementSize len first : ℕ} {readOp : StreamM α}
    {count : α → ℕ} {f : α → StreamM β} {l : List U8} :
    (Prog.ofChecked (vecRoom elementSize len first) >>= fun _ => readOp >>= fun op =>
        Prog.ofChecked (vecRoom elementSize len (count op)) >>= fun _ => f op).Safe l ↔
      (len + first ≤ vecLimit elementSize ∧ readOp.Safe l ∧
        ∀ op l', readOp l = .ok op l' → len + count op ≤ vecLimit elementSize) ∧
      ∀ op l', readOp l = .ok op l' → (f op).Safe l' := by
  rw [safe_vecRoom_bind_iff, Prog.safe_bind_iff]
  simp only [safe_vecRoom_bind_iff, imp_and, forall_and, and_assoc]

theorem Bind.length_emitTimes (skip : U64) : ∀ (n : ℕ) (cur : BindRecord),
    (Bind.emitTimes skip n cur).1.length = n
  | 0, _ => rfl
  | n + 1, _ => congrArg Nat.succ (Bind.length_emitTimes skip n _)

theorem Bind.length_step (cur : BindRecord) (op : BindOp) :
    (Bind.step cur op).1.length = op.count := by
  cases op with
  | doBindTimes count skip => exact Bind.length_emitTimes skip count.toNat cur
  | _ => rfl

theorem Rebase.length_emitTimes (skip : U64) : ∀ (n : ℕ) (cur : RebaseLocation),
    (Rebase.emitTimes skip n cur).1.length = n
  | 0, _ => rfl
  | n + 1, _ => congrArg Nat.succ (Rebase.length_emitTimes skip n _)

theorem Rebase.length_step (cur : RebaseLocation) (op : RebaseOp) :
    (Rebase.step cur op).1.length = op.count := by
  cases op with
  | rebaseTimes count skip => exact Rebase.length_emitTimes skip count.toNat cur
  | _ => rfl

/-- Behind `n` records, the next opcode of a bind stream can be read, and has room for what it
emits. -/
def Bind.Fits (p : Profile) (n : ℕ) (byte : U8) (tail : List U8) : Prop :=
  n + Bind.pushedFirst byte ≤ vecLimit Bind.recordSize ∧ Bind.OpFits p byte tail ∧
    ∀ op rest, Bind.readOp p byte tail = .ok op rest → n + op.count ≤ vecLimit Bind.recordSize

/-- Behind `n` locations, the next opcode of a rebase stream can be read, and has room for what it
emits. -/
def Rebase.Fits (p : Profile) (n : ℕ) (byte : U8) (tail : List U8) : Prop :=
  n + Rebase.pushedFirst byte ≤ vecLimit Rebase.locationSize ∧ Rebase.OpFits p byte tail ∧
    ∀ op rest, Rebase.readOp p byte tail = .ok op rest → n + op.count ≤ vecLimit Rebase.locationSize

theorem safe_parseBindInfo_iff {p : Profile} {stream : List U8} :
    (parseBindInfo p).Safe stream ↔
      OpsFit (Bind.readOp p) BindOp.count (Bind.Fits p) 0 stream := by
  refine @safe_loop_iff _ _ _ _ _ _ (fun n (t : BindRecord × List BindRecord) =>
    Bind.loop p n t.1 t.2) (fun t op _ => ((Bind.step t.1 op).2, t.2 ++ (Bind.step t.1 op).1))
    (fun t => t.2.length) (Bind.shrinks_readOp p) ?_ ?_ ?_ stream.length
    (Bind.start, []) stream le_rfl
  · intro t op l'
    rw [List.length_append, Bind.length_step]
  · rintro (_ | n) t
    · exact total_pure _ _
    · exact safe_of_ok rfl
  · intro n t byte tail
    refine safe_nextByte_bind_iff.trans (safe_turn_iff.trans ?_)
    rw [Bind.Fits, Bind.safe_readOp_iff]

theorem safe_parseRebaseInfo_iff {p : Profile} {stream : List U8} :
    (parseRebaseInfo p).Safe stream ↔
      OpsFit (Rebase.readOp p) RebaseOp.count (Rebase.Fits p) 0 stream := by
  refine @safe_loop_iff _ _ _ _ _ _ (fun n (t : RebaseLocation × List RebaseLocation) =>
    Rebase.loop p n t.1 t.2)
    (fun t op _ => ((Rebase.step t.1 op).2, t.2 ++ (Rebase.step t.1 op).1))
    (fun t => t.2.length) (Rebase.shrinks_readOp p) ?_ ?_ ?_ stream.length
    (⟨0, 0, 1⟩, []) stream le_rfl
  · intro t op l'
    rw [List.length_append, Rebase.length_step]
  · rintro (_ | n) t
    · exact total_pure _ _
    · exact safe_of_ok rfl
  · intro n t byte tail
    refine safe_nextByte_bind_iff.trans (safe_turn_iff.trans ?_)
    rw [Rebase.Fits, Rebase.safe_readOp_iff]

theorem safe_parseLazyBindInfo_iff {p : Profile} {stream : List U8} :
    (parseLazyBindInfo p).Safe stream ↔
      OpsFit (LazyBind.readOp p) (fun _ => 0) (fun _ => LazyBind.OpFits p) 0 stream := by
  refine @safe_loop_iff _ _ _ _ _ _ (fun n (t : LazyBind × List LazyBind) =>
    LazyBind.loop p stream.length n t.1 t.2)
    (fun t op rest => ((LazyBind.step (BitVec.ofNat 64 (stream.length - rest.length)) t.1 op).2,
      t.2 ++ (LazyBind.step (BitVec.ofNat 64 (stream.length - rest.length)) t.1 op).1))
    (fun _ => 0) (LazyBind.shrinks_readOp p) (fun _ _ _ => rfl) ?_ ?_ stream.length
    (⟨0, 0, 0, ""⟩, []) stream le_rfl
  · rintro (_ | n) t
    · exact total_pure _ _
    · exact safe_of_ok rfl
  · intro n t byte tail
    rw [← LazyBind.safe_readOp_iff]
    exact safe_nextByte_bind_iff.trans Prog.safe_bind_iff

end IosEmu
