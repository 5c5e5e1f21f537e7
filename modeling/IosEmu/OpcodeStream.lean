import IosEmu.Outcome
import Mathlib.Data.Nat.Notation

/-!
# Streams of opcodes

A stream is read opcode by opcode : `read` is given the first element of an opcode and reads what
follows it. `Items read stream ops` says that `ops` are the opcodes of the stream, each with what
was left of the stream behind it, and that nothing is left over at the end. A loop over the opcodes
is a function of them, if they pass its tests.

The grammar of the opcodes is a family of codes with their encodings. A reader is sound if what it
reads is an encoding, and complete if it reads every encoding; then the opcodes of a stream are
those of the codes it is put together from (`exists_codes_of_items`, `items_codes`).
-/

namespace SysLib

variable {ε π α ω κ : Type}

/-- The opcodes of a stream, and how many elements are left behind each. -/
inductive Items (read : α → Prog ε π (List α) ω) : List α → List (ω × ℕ) → Prop
  | nil : Items read [] []
  | cons {a : α} {front rest : List α} {op : ω} {ops : List (ω × ℕ)} :
      read a front = .ok op rest → Items read rest ops →
      Items read (a :: front) ((op, rest.length) :: ops)

section Items

variable {read : α → Prog ε π (List α) ω}

/-- A stream is read in one way. -/
theorem Items.unique {stream : List α} {ops ops' : List (ω × ℕ)} (h : Items read stream ops)
    (h' : Items read stream ops') : ops = ops' := by
  induction h generalizing ops' with
  | nil =>
    cases h' with
    | nil => rfl
  | cons hread _ ih =>
    cases h' with
    | cons hread' hrest =>
      obtain ⟨rfl, rfl⟩ := Outcome.ok.inj (hread.symm.trans hread')
      rw [ih hrest]

/-- A stream that starts with an element has a first opcode. -/
theorem items_cons_iff {a : α} {front : List α} {ops : List (ω × ℕ)} :
    Items read (a :: front) ops ↔
      ∃ op rest ops', read a front = .ok op rest ∧ Items read rest ops' ∧
        ops = (op, rest.length) :: ops' := by
  constructor
  · intro h
    cases h with
    | cons hread hrest => exact ⟨_, _, _, hread, hrest, rfl⟩
  · rintro ⟨op, rest, ops', hread, hrest, rfl⟩
    exact .cons hread hrest

variable {τ β : Type} {loop : ℕ → τ → Prog ε π (List α) β} {next : τ → ω → ℕ → τ}
  {passes : τ → ω → Prop} {result : τ → β}

/-- Every opcode passes the test of the loop in the state that those before it lead to. -/
def AllPass (next : τ → ω → ℕ → τ) (passes : τ → ω → Prop) : τ → List (ω × ℕ) → Prop
  | _, [] => True
  | t, x :: ops => passes t x.1 ∧ AllPass next passes (next t x.1 x.2) ops

theorem allPass_true : ∀ (t : τ) (ops : List (ω × ℕ)), AllPass next (fun _ _ => True) t ops
  | _, [] => trivial
  | t, x :: ops => ⟨trivial, allPass_true (next t x.1 x.2) ops⟩

/-- A test that bounds a size : the opcodes pass it if the size at the end is in bounds. -/
theorem allPass_le_iff (size : τ → ℕ) {count : ω → ℕ} {limit : ℕ}
    (hsize : ∀ t op left, size (next t op left) = size t + count op) :
    ∀ {t : τ} {ops : List (ω × ℕ)}, size t ≤ limit →
      (AllPass next (fun t op => size t + count op ≤ limit) t ops ↔
        size (ops.foldl (fun t x => next t x.1 x.2) t) ≤ limit)
  | _, [], ht => iff_of_true trivial ht
  | t, x :: ops, _ => by
    have hgrows : ∀ (ops : List (ω × ℕ)) (t : τ),
        size t ≤ size (ops.foldl (fun t x => next t x.1 x.2) t) := by
      intro ops
      induction ops with
      | nil => exact fun t => Nat.le_refl _
      | cons y ops ih =>
        intro t
        exact Nat.le_trans (Nat.le_trans (Nat.le_add_right _ _) (Nat.le_of_eq (hsize t y.1 y.2).symm))
          (ih (next t y.1 y.2))
    rw [AllPass, List.foldl_cons, ← hsize t x.1 x.2]
    constructor
    · rintro ⟨hx, hops⟩
      exact (allPass_le_iff size hsize hx).1 hops
    · intro hend
      have hx := Nat.le_trans (hgrows ops (next t x.1 x.2)) hend
      exact ⟨hx, (allPass_le_iff size hsize hx).2 hend⟩

/-- A loop that reads opcodes until the stream is at its end, with at least as many turns as there
are elements, goes over all opcodes of the stream. -/
theorem loop_eq_ok_iff
    (hshrinks : ∀ a front op rest, read a front = .ok op rest → rest.length ≤ front.length)
    (hnil : ∀ n t, loop n t [] = .ok (result t) [])
    (hcons : ∀ n t a front out rest, loop (n + 1) t (a :: front) = .ok out rest ↔
      ∃ op rest', read a front = .ok op rest' ∧ passes t op ∧
        loop n (next t op rest'.length) rest' = .ok out rest) :
    ∀ {n : ℕ} {t : τ} {stream rest : List α} {out : β}, stream.length ≤ n →
      (loop n t stream = .ok out rest ↔ rest = [] ∧ ∃ ops, Items read stream ops ∧
        AllPass next passes t ops ∧ out = result (ops.foldl (fun t x => next t x.1 x.2) t))
  | n, t, [], rest, out, _ => by
    rw [hnil]
    constructor
    · intro h
      obtain ⟨rfl, rfl⟩ := Outcome.ok.inj h
      exact ⟨rfl, [], .nil, trivial, rfl⟩
    · rintro ⟨rfl, ops, hops, -, rfl⟩
      cases hops with
      | nil => rfl
  | n + 1, t, a :: front, rest, out, hlen => by
    have hrest : ∀ {op rest'}, read a front = .ok op rest' →
        (loop n (next t op rest'.length) rest' = .ok out rest ↔ rest = [] ∧
          ∃ ops, Items read rest' ops ∧ AllPass next passes (next t op rest'.length) ops ∧
            out = result (ops.foldl (fun t x => next t x.1 x.2) (next t op rest'.length))) :=
      fun hread => loop_eq_ok_iff hshrinks hnil hcons
        (Nat.le_trans (hshrinks _ _ _ _ hread) (Nat.le_of_succ_le_succ hlen))
    rw [hcons]
    constructor
    · rintro ⟨op, rest', hread, hpass, hloop⟩
      obtain ⟨hend, ops, hops, hpasses, hout⟩ := (hrest hread).1 hloop
      exact ⟨hend, _, .cons hread hops, ⟨hpass, hpasses⟩, hout⟩
    · rintro ⟨hend, ops, hops, hpasses, hout⟩
      obtain ⟨op, rest', ops', hread, hops', rfl⟩ := items_cons_iff.1 hops
      obtain ⟨hpass, hpasses⟩ := hpasses
      exact ⟨op, rest', hread, hpass, (hrest hread).2 ⟨hend, ops', hops', hpasses, hout⟩⟩

/-- Where an opcode of the stream does not pass its test, the loop panics as it does at that one. -/
theorem loop_eq_panic {e : π} [∀ t op, Decidable (passes t op)]
    (hshrinks : ∀ a front op rest, read a front = .ok op rest → rest.length ≤ front.length)
    (hcons : ∀ n t a front op rest, read a front = .ok op rest → loop (n + 1) t (a :: front) =
      if passes t op then loop n (next t op rest.length) rest else .panic e)
    {stream : List α} {ops : List (ω × ℕ)} (h : Items read stream ops) :
    ∀ {n : ℕ} {t : τ}, stream.length ≤ n → ¬ AllPass next passes t ops →
      loop n t stream = .panic e := by
  induction h with
  | nil => exact fun _ hnot => absurd trivial hnot
  | @cons a front rest op ops hread hops ih =>
    rintro (_ | n) t hlen hnot
    · exact absurd hlen (Nat.not_succ_le_zero _)
    rw [hcons n t a front op rest hread]
    by_cases hop : passes t op
    · rw [if_pos hop]
      exact ih (Nat.le_trans (hshrinks a front op rest hread) (Nat.le_of_succ_le_succ hlen))
        fun hops => hnot ⟨hop, hops⟩
    · exact if_neg hop

end Items

/-! ## Opcodes that emit -/

section Emit

variable {ρ χ : Type} {step : χ → ω → List ρ × χ}

/-- What a row of opcodes emits, from the running values on. -/
def emitted (step : χ → ω → List ρ × χ) : χ → List ω → List ρ
  | _, [] => []
  | cur, op :: ops => (step cur op).1 ++ emitted step (step cur op).2 ops

theorem foldl_emitted : ∀ (ops : List (ω × ℕ)) (cur : χ) (out : List ρ),
    (ops.foldl (fun t x => ((step t.1 x.1).2, t.2 ++ (step t.1 x.1).1)) (cur, out)).2 =
      out ++ emitted step cur (ops.map Prod.fst)
  | [], _, out => (List.append_nil out).symm
  | x :: ops, cur, out => by
    rw [List.foldl_cons, foldl_emitted ops, List.map_cons, emitted, List.append_assoc]

variable {count : ω → ℕ} {limit : ℕ}

/-- There is room for what every opcode emits if there is room for all of it. -/
theorem allPass_emitted_iff (hcount : ∀ cur op, (step cur op).1.length = count op) (cur : χ)
    (ops : List (ω × ℕ)) :
    AllPass (fun (t : χ × List ρ) op _ => ((step t.1 op).2, t.2 ++ (step t.1 op).1))
      (fun (t : χ × List ρ) op => t.2.length + count op ≤ limit) (cur, []) ops ↔
      (emitted step cur (ops.map Prod.fst)).length ≤ limit := by
  refine Iff.trans (allPass_le_iff (fun t : χ × List ρ => t.2.length) (fun t op _ => ?_)
    (Nat.zero_le _)) ?_
  · rw [List.length_append, hcount]
  · rw [foldl_emitted, List.nil_append]

variable {read : α → Prog ε π (List α) ω} {loop : ℕ → χ → List ρ → Prog ε π (List α) (List ρ)}

/-- A loop that collects what the opcodes emit, as long as there is room, has collected all of it at
the end. -/
theorem collect_eq_ok_iff (hcount : ∀ cur op, (step cur op).1.length = count op)
    (hshrinks : ∀ a front op rest, read a front = .ok op rest → rest.length ≤ front.length)
    (hnil : ∀ n cur recs, loop n cur recs [] = .ok recs [])
    (hcons : ∀ n cur recs a front out rest, loop (n + 1) cur recs (a :: front) = .ok out rest ↔
      ∃ op rest', read a front = .ok op rest' ∧ recs.length + count op ≤ limit ∧
        loop n (step cur op).2 (recs ++ (step cur op).1) rest' = .ok out rest)
    {n : ℕ} {cur : χ} {stream rest : List α} {out : List ρ} (hlen : stream.length ≤ n) :
    loop n cur [] stream = .ok out rest ↔ rest = [] ∧ ∃ ops, Items read stream ops ∧
      out.length ≤ limit ∧ out = emitted step cur (ops.map Prod.fst) := by
  have hiff := @loop_eq_ok_iff _ _ _ _ read _ _ (fun n (t : χ × List ρ) => loop n t.1 t.2)
    (fun t op _ => ((step t.1 op).2, t.2 ++ (step t.1 op).1))
    (fun (t : χ × List ρ) op => t.2.length + count op ≤ limit) Prod.snd hshrinks
    (fun n t => hnil n t.1 t.2) (fun n t => hcons n t.1 t.2) n (cur, []) stream rest out hlen
  refine hiff.trans (and_congr_right fun _ => exists_congr fun ops => and_congr_right fun _ => ?_)
  rw [allPass_emitted_iff hcount, foldl_emitted, List.nil_append]
  exact and_congr_left fun hout => by rw [hout]

/-- It panics if there is not. -/
theorem collect_eq_panic {e : π} (hcount : ∀ cur op, (step cur op).1.length = count op)
    (hshrinks : ∀ a front op rest, read a front = .ok op rest → rest.length ≤ front.length)
    (hcons : ∀ n cur recs a front op rest, read a front = .ok op rest →
      loop (n + 1) cur recs (a :: front) = if recs.length + count op ≤ limit then
        loop n (step cur op).2 (recs ++ (step cur op).1) rest else .panic e)
    {n : ℕ} {cur : χ} {stream : List α} {ops : List (ω × ℕ)} (hlen : stream.length ≤ n)
    (hops : Items read stream ops)
    (hroom : ¬ (emitted step cur (ops.map Prod.fst)).length ≤ limit) :
    loop n cur [] stream = .panic e := by
  refine @loop_eq_panic _ _ _ _ read _ _ (fun n (t : χ × List ρ) => loop n t.1 t.2)
    (fun t op _ => ((step t.1 op).2, t.2 ++ (step t.1 op).1))
    (fun (t : χ × List ρ) op => t.2.length + count op ≤ limit) e _ hshrinks
    (fun n t => hcons n t.1 t.2) _ _ hops n (cur, []) hlen ?_
  rwa [allPass_emitted_iff hcount]

end Emit

/-! ## Codes -/

/-- The opcodes of codes that stand one behind the other. -/
def marks (enc : κ → List α) (op : κ → ω) : List κ → List (ω × ℕ)
  | [] => []
  | c :: cs => (op c, (cs.flatMap enc).length) :: marks enc op cs

theorem map_fst_marks (enc : κ → List α) (op : κ → ω) :
    ∀ cs : List κ, (marks enc op cs).map Prod.fst = cs.map op
  | [] => rfl
  | c :: cs => congrArg (op c :: ·) (map_fst_marks enc op cs)

/-- What is read is the encoding of a code. -/
def Sound (read : α → Prog ε π (List α) ω) (enc : κ → List α) : Prop :=
  ∀ a front op rest, read a front = .ok op rest → ∃ c, a :: front = enc c ++ rest

/-- The codes that are `Ok` are read. -/
def Complete (read : α → Prog ε π (List α) ω) (enc : κ → List α) (op : κ → ω) (Ok : κ → Prop) :
    Prop :=
  ∀ c rest, Ok c → ∃ a front, enc c = a :: front ∧ read a (front ++ rest) = .ok (op c) rest

section Codes

variable {read : α → Prog ε π (List α) ω} {enc : κ → List α} {op : κ → ω} {Ok : κ → Prop}

theorem exists_codes_of_items (hsound : Sound read enc) {stream : List α} {ops : List (ω × ℕ)}
    (h : Items read stream ops) : ∃ codes : List κ, stream = codes.flatMap enc := by
  induction h with
  | nil => exact ⟨[], rfl⟩
  | cons hread _ ih =>
    obtain ⟨codes, hcodes⟩ := ih
    obtain ⟨c, hc⟩ := hsound _ _ _ _ hread
    refine ⟨c :: codes, ?_⟩
    rw [List.flatMap_cons, hc, hcodes]

theorem items_codes (hcomplete : Complete read enc op Ok) :
    ∀ {codes : List κ}, (∀ c ∈ codes, Ok c) →
      Items read (codes.flatMap enc) (marks enc op codes)
  | [], _ => .nil
  | c :: codes, hok => by
    obtain ⟨a, front, hc, hread⟩ := hcomplete c (codes.flatMap enc) (hok c List.mem_cons_self)
    rw [List.flatMap_cons, hc, List.cons_append]
    exact .cons hread (items_codes hcomplete fun c' hc' => hok c' (List.mem_cons_of_mem c hc'))

theorem length_enc_le {c : κ} : ∀ {codes : List κ}, c ∈ codes →
    (enc c).length ≤ (codes.flatMap enc).length
  | c' :: codes, h => by
    rw [List.flatMap_cons, List.length_append]
    rcases List.mem_cons.1 h with rfl | h
    · exact Nat.le_add_right _ _
    · exact Nat.le_trans (length_enc_le h) (Nat.le_add_left _ _)

end Codes

end SysLib
