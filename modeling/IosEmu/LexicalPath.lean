import Mathlib.Data.List.Basic
import Mathlib.Data.List.Infix

/-!
# Lexical paths

A path is pieces between separators, and a piece stays in a directory, goes up, or goes down
into a name (`Piece`). `resolve` is where the pieces lead from a directory; the root is above
itself. `Stays d` says of pieces that they never climb further than `d` names : in no initial
part are there more steps up than that and the steps down.

A path that does not climb leads to the same names below every directory
(`resolve_of_stays`), so a directory with such a path behind it resolves to the directory with
these names behind it (`lexical_append_of_stays`). If the letters are encoded such that no
separator and no dot appears (`KeepsMarks`), the names of the encoded path are the encoded names
(`lexical_flatMap`).
-/

namespace SysLib

/-- What a piece of a path says. -/
inductive Piece (ν : Type*)
  | stay
  | up
  | down (name : ν)
  deriving DecidableEq

namespace Piece

variable {ν μ : Type*}

/-- The piece with another name. -/
def map (f : ν → μ) : Piece ν → Piece μ
  | stay => stay
  | up => up
  | down name => down (f name)

/-- Where a piece leads from a directory. -/
def walk (dir : List ν) : Piece ν → List ν
  | stay => dir
  | up => dir.dropLast
  | down name => dir ++ [name]

/-- Where pieces lead from a directory. -/
def resolve (dir : List ν) (pieces : List (Piece ν)) : List ν :=
  pieces.foldl walk dir

/-- The piece goes up. -/
def isUp : Piece ν → Bool
  | up => true
  | _ => false

/-- The piece goes down. -/
def isDown : Piece ν → Bool
  | down _ => true
  | _ => false

/-- The pieces never climb above the directory `depth` names up. -/
def Stays (depth : ℕ) (pieces : List (Piece ν)) : Prop :=
  ∀ pre ∈ pieces.inits, pre.countP isUp ≤ depth + pre.countP isDown

instance (depth : ℕ) (pieces : List (Piece ν)) : Decidable (Stays depth pieces) :=
  inferInstanceAs (Decidable (∀ pre ∈ pieces.inits, _))

variable {depth : ℕ} {pieces : List (Piece ν)}

@[simp] theorem stays_nil : Stays depth ([] : List (Piece ν)) := by simp [Stays]

theorem stays_cons {p : Piece ν} : Stays depth (p :: pieces) ↔ ∀ pre ∈ pieces.inits,
    pre.countP isUp + (if isUp p then 1 else 0) ≤
      depth + (pre.countP isDown + if isDown p then 1 else 0) := by
  simp only [Stays, List.inits_cons, List.mem_cons, List.mem_map, forall_eq_or_imp,
    forall_exists_index, and_imp, forall_apply_eq_imp_iff₂, List.countP_nil, Nat.zero_le, true_and,
    List.countP_cons]

@[simp] theorem stays_stay_cons : Stays depth (stay :: pieces) ↔ Stays depth pieces := by
  simp [Stays, isUp, isDown]

@[simp] theorem stays_down_cons {name : ν} :
    Stays depth (down name :: pieces) ↔ Stays (depth + 1) pieces := by
  rw [stays_cons]
  simp [Stays, isUp, isDown, Nat.add_assoc, Nat.add_comm 1]

@[simp] theorem stays_up_cons :
    Stays depth (up :: pieces) ↔ 0 < depth ∧ Stays (depth - 1) pieces := by
  rw [stays_cons]
  simp only [isUp, isDown, if_true, Bool.false_eq_true, if_false, Nat.add_zero]
  constructor
  · intro h
    have hpos : 0 < depth := Nat.succ_le_iff.1 (by simpa using h [] (by simp))
    exact ⟨hpos, fun pre hpre => by have := h pre hpre; omega⟩
  · rintro ⟨hpos, h⟩ pre hpre
    have := h pre hpre
    omega

/-- A piece, and then the pieces from where it leads. -/
theorem stays_length_cons {dir : List ν} {p : Piece ν} :
    Stays dir.length (p :: pieces) ↔ (p = up → dir ≠ []) ∧ Stays (walk dir p).length pieces := by
  rcases p with _ | _ | name
  · simp [walk]
  · simp [walk, List.length_pos_iff]
  · simp [walk]

theorem stays_of_up_notMem : ∀ {pieces : List (Piece ν)} (depth : ℕ), up ∉ pieces →
    Stays depth pieces
  | [], _, _ => stays_nil
  | stay :: pieces, depth, h => stays_stay_cons.2 (stays_of_up_notMem depth (by simpa using h))
  | up :: pieces, depth, h => absurd List.mem_cons_self h
  | down name :: pieces, depth, h =>
    stays_down_cons.2 (stays_of_up_notMem (depth + 1) (by simpa using h))

theorem resolve_append (dir : List ν) (ps qs : List (Piece ν)) :
    resolve dir (ps ++ qs) = resolve (resolve dir ps) qs :=
  List.foldl_append

/-- What does not climb above a directory leads to names below it, wherever the directory is. -/
theorem resolve_of_stays : ∀ {pieces : List (Piece ν)} {out : List ν} (dir : List ν),
    Stays out.length pieces → resolve (dir ++ out) pieces = dir ++ resolve out pieces
  | [], _, _, _ => rfl
  | stay :: pieces, out, dir, h => by
    have ih := @resolve_of_stays pieces out dir (stays_stay_cons.1 h)
    exact ih
  | up :: pieces, out, dir, h => by
    obtain ⟨hpos, h⟩ := stays_up_cons.1 h
    have hout : out ≠ [] := List.ne_nil_of_length_pos hpos
    have ih := @resolve_of_stays pieces out.dropLast dir (by simpa using h)
    rw [resolve, List.foldl_cons, walk, List.dropLast_append_of_ne_nil hout]
    exact ih
  | down name :: pieces, out, dir, h => by
    have ih := @resolve_of_stays pieces (out ++ [name]) dir (by simpa using h)
    rw [resolve, List.foldl_cons, walk, List.append_assoc]
    exact ih

theorem resolve_map (f : ν → μ) : ∀ (pieces : List (Piece ν)) (dir : List ν),
    resolve (dir.map f) (pieces.map (map f)) = (resolve dir pieces).map f
  | [], _ => rfl
  | p :: pieces, dir => by
    have hwalk : walk (dir.map f) (p.map f) = (walk dir p).map f := by
      rcases p with _ | _ | name <;> simp [walk, map, List.map_dropLast]
    rw [resolve, resolve, List.map_cons, List.foldl_cons, List.foldl_cons, hwalk]
    exact resolve_map f pieces (walk dir p)

end Piece

/-! ## Paths over an alphabet -/

section Alphabet

variable {α : Type*} [DecidableEq α]

open Piece

/-- The piece that is written as `text` : nothing and `.` stay, `..` goes up. -/
def piece (dot : α) (text : List α) : Piece (List α) :=
  if text = [] ∨ text = [dot] then stay else if text = [dot, dot] then up else down text

/-- The pieces of a path. -/
def pieces (sep dot : α) (path : List α) : List (Piece (List α)) :=
  (path.splitOn sep).map (piece dot)

/-- The names that a path leads to from the root. -/
def lexical (sep dot : α) (path : List α) : List (List α) :=
  resolve [] (pieces sep dot path)

variable {sep dot : α}

theorem piece_eq_up_iff {text : List α} : piece dot text = .up ↔ text = [dot, dot] := by
  unfold piece
  split_ifs with hstay hup
  · rcases hstay with rfl | rfl <;> simp
  · simp [hup]
  · simp [hup]

theorem pieces_append_sep (dir rest : List α) :
    pieces sep dot (dir ++ sep :: rest) = pieces sep dot dir ++ pieces sep dot rest := by
  rw [pieces, List.splitOn_append_cons_self, List.map_append]
  rfl

/-- The letters of a path, but for the separators, are those between them. -/
theorem mem_splitOn_iff {x : α} (hx : x ≠ sep) : ∀ {path : List α},
    (∃ text ∈ path.splitOn sep, x ∈ text) ↔ x ∈ path
  | [] => by simp
  | y :: path => by
    have ih := @mem_splitOn_iff x hx path
    obtain ⟨first, rest, hsplit⟩ := List.exists_cons_of_ne_nil (List.splitOn_ne_nil sep path)
    rw [List.splitOn_cons_eq_if_modifyHead]
    rw [hsplit] at ih ⊢
    by_cases hy : y = sep
    · simpa [hy, hx] using ih
    · simp only [List.mem_cons, exists_eq_or_imp] at ih
      simp only [beq_iff_eq, hy, if_false, List.modifyHead_cons, List.mem_cons, exists_eq_or_imp,
        or_assoc, ih]

/-- A path behind a directory that does not climb above it. -/
theorem lexical_append_of_stays {dir rest : List α} (h : Stays 0 (pieces sep dot rest)) :
    lexical sep dot (dir ++ sep :: rest) = lexical sep dot dir ++ lexical sep dot rest := by
  have hrest := @resolve_of_stays _ _ [] (lexical sep dot dir) h
  rw [List.append_nil] at hrest
  rw [lexical, pieces_append_sep, resolve_append]
  exact hrest

end Alphabet

/-! ## Encoded paths -/

section Encoding

variable {α β : Type*} [DecidableEq α] [DecidableEq β]

open Piece

/-- The letters of a path are encoded such that separators and dots stand for themselves. -/
structure KeepsMarks (f : α → List β) (sep dot : α) (sep' dot' : β) : Prop where
  ne_nil : ∀ x, f x ≠ []
  sep_eq : f sep = [sep']
  dot_eq : f dot = [dot']
  eq_sep : ∀ x, sep' ∈ f x → x = sep
  eq_dot : ∀ x, dot' ∈ f x → x = dot

theorem splitOn_append_of_notMem {sep : β} {m : List β} : ∀ {u : List β}, sep ∉ u →
    (u ++ m).splitOn sep = (m.splitOn sep).modifyHead (u ++ ·)
  | [], _ => by
    rw [List.nil_append]
    rcases m.splitOn sep with _ | _ <;> rfl
  | b :: u, h => by
    obtain ⟨hb, hu⟩ := not_or.1 (mt List.mem_cons.2 h)
    rw [List.cons_append, List.splitOn_cons_eq_if_modifyHead, splitOn_append_of_notMem hu,
      if_neg (by simpa using Ne.symm hb), List.modifyHead_modifyHead]
    rfl

namespace KeepsMarks

variable {f : α → List β} {sep dot : α} {sep' dot' : β}

theorem splitOn_flatMap (h : KeepsMarks f sep dot sep' dot') : ∀ path : List α,
    (path.flatMap f).splitOn sep' = (path.splitOn sep).map (List.flatMap f)
  | [] => by simp
  | x :: path => by
    have ih := h.splitOn_flatMap path
    obtain ⟨first, rest, hsplit⟩ := List.exists_cons_of_ne_nil (List.splitOn_ne_nil sep path)
    rw [List.flatMap_cons, List.splitOn_cons_eq_if_modifyHead]
    by_cases hx : x = sep
    · simp [hx, h.sep_eq, List.splitOn_cons_eq_if_modifyHead, ih]
    · rw [splitOn_append_of_notMem (mt (h.eq_sep x) hx), ih, if_neg (by simpa using hx), hsplit]
      simp

omit [DecidableEq α] [DecidableEq β] in
theorem flatMap_eq_replicate_iff (h : KeepsMarks f sep dot sep' dot') {n : ℕ} {text : List α} :
    text.flatMap f = List.replicate n dot' ↔ text = List.replicate n dot := by
  have hdots : ∀ k, (List.replicate k dot).flatMap f = List.replicate k dot' := by
    intro k
    simp [List.flatMap_replicate, h.dot_eq]
  constructor
  · intro heq
    have hall : ∀ x ∈ text, x = dot := by
      intro x hx
      obtain ⟨b, l, hb⟩ := List.exists_cons_of_ne_nil (h.ne_nil x)
      have hmem : b ∈ f x := by simp [hb]
      have hdot : b ∈ List.replicate n dot' := heq ▸ List.mem_flatMap.2 ⟨x, hx, hmem⟩
      exact h.eq_dot x (List.eq_of_mem_replicate hdot ▸ hmem)
    rw [List.eq_replicate_of_mem hall, hdots] at heq
    rw [List.eq_replicate_of_mem hall, ← List.length_replicate (n := n) (a := dot'), ← heq,
      List.length_replicate]
  · rintro rfl
    exact hdots n

/-- The names of an encoded path are the encoded names. -/
theorem lexical_flatMap (h : KeepsMarks f sep dot sep' dot') (path : List α) :
    lexical sep' dot' (path.flatMap f) = (lexical sep dot path).map (List.flatMap f) := by
  have hpiece : ∀ text : List α, piece dot' (text.flatMap f) = (piece dot text).map (List.flatMap f) := by
    intro text
    have h₀ := @flatMap_eq_replicate_iff _ _ _ _ _ _ _ h 0 text
    have h₁ := @flatMap_eq_replicate_iff _ _ _ _ _ _ _ h 1 text
    have h₂ := @flatMap_eq_replicate_iff _ _ _ _ _ _ _ h 2 text
    simp only [List.replicate] at h₀ h₁ h₂
    unfold piece
    simp only [h₀, h₁, h₂]
    split_ifs <;> rfl
  have hpieces : pieces sep' dot' (path.flatMap f) =
      (pieces sep dot path).map (Piece.map (List.flatMap f)) := by
    rw [pieces, h.splitOn_flatMap, List.map_map, pieces, List.map_map]
    exact List.map_congr_left fun text _ => hpiece text
  rw [lexical, hpieces]
  exact resolve_map _ _ []

end KeepsMarks

end Encoding

end SysLib
