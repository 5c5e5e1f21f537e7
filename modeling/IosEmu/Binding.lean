import IosEmu.FlatMemory
import IosEmu.ProcessStages
import Mathlib.Data.List.Perm.Subperm

/-!
# Binding imports

The resolver hands out trampolines 16 bytes apart, in the order in which it first meets the
symbols : `Serves` says so of its two maps, which are then inverse to each other. Binding is
a fold of `bindOne` over the records of the eager and the lazy stream. A step of the fold
stores one pointer at most and moves no region (`bindOne_cases`), so whether a record can be
stored is known before the first one is (`Inv.grants_of_fold`).
-/

open SysLib

namespace IosEmu

/-! ## The resolver -/

namespace StubResolver

variable {p : Profile} {r r' : StubResolver} {syms : List String}

/-- The trampoline with number `k`. -/
def slot (base : U64) (k : ℕ) : U64 :=
  base + BitVec.ofNat 64 (16 * k)

theorem slot_inj {base : U64} {j k : ℕ} (hj : 16 * j < 2 ^ 64) (hk : 16 * k < 2 ^ 64)
    (h : slot base j = slot base k) : j = k := by
  have hword := congrArg BitVec.toNat ((BitVec.add_right_inj base).1 h)
  rw [BitVec.toNat_ofNat, BitVec.toNat_ofNat, Nat.mod_eq_of_lt hj, Nat.mod_eq_of_lt hk] at hword
  omega

theorem getElem?_concat_eq_some {s t : String} {k : ℕ} :
    (syms ++ [s])[k]? = some t ↔ syms[k]? = some t ∨ k = syms.length ∧ t = s := by
  rcases lt_trichotomy k syms.length with hlt | rfl | hgt
  · rw [List.getElem?_append_left hlt]
    simp [hlt.ne]
  · simp [eq_comm]
  · rw [List.getElem?_eq_none (by simpa using Nat.succ_le_of_lt hgt), List.getElem?_eq_none hgt.le]
    simp [hgt.ne']

/-- The resolver has given its trampolines to the symbols `syms`, in this order. -/
structure Serves (r : StubResolver) (syms : List String) : Prop where
  stride_eq : r.stride = 16
  nodup : syms.Nodup
  next_eq : r.next = slot r.base syms.length
  forward_iff : ∀ s a, r.forward.get? s = some a ↔ ∃ k, syms[k]? = some s ∧ a = slot r.base k
  reverse_iff : ∀ a s, r.reverse.get? a = some s ↔ ∃ k, syms[k]? = some s ∧ a = slot r.base k

theorem serves_new (base : U64) : (new base 16).Serves [] := by
  refine ⟨rfl, List.nodup_nil, ?_, fun s a => ?_, fun a s => ?_⟩
  · simp [new, slot]
  · simp [new]
  · simp [new]

/-- The two maps are inverse to each other. -/
theorem Serves.forward_iff_reverse (h : r.Serves syms) (s : String) (a : U64) :
    r.forward.get? s = some a ↔ r.reverse.get? a = some s := by
  rw [h.forward_iff, h.reverse_iff]

theorem Serves.mem_iff (h : r.Serves syms) {s : String} :
    s ∈ syms ↔ ∃ a, r.forward.get? s = some a := by
  simp only [List.mem_iff_getElem?, h.forward_iff]
  exact ⟨fun ⟨k, hk⟩ => ⟨_, k, hk, rfl⟩, fun ⟨_, k, hk, _⟩ => ⟨k, hk⟩⟩

/-- A symbol that is asked for again keeps its trampoline. -/
theorem resolve_of_some {s : String} {a : U64} (h : r.forward.get? s = some a) :
    r.resolve p s = .ok (a, r) := by
  unfold resolve
  rw [h]

/-- A symbol that is asked for the first time gets the next trampoline. -/
theorem resolve_of_none {s : String} {a : U64} (hnone : r.forward.get? s = none)
    (h : r.resolve p s = .ok (a, r')) :
    a = r.next ∧ r' = { r with
      next := r.next + r.stride
      forward := r.forward.insert s r.next
      reverse := r.reverse.insert r.next s } := by
  unfold resolve at h
  rw [hnone] at h
  obtain ⟨next, hnext, h⟩ := except_bind_eq_ok.1 h
  obtain rfl := Profile.add_eq_ok hnext
  obtain ⟨rfl, rfl⟩ : r.next = a ∧ _ = r' := by simpa [pure, Except.pure] using h
  exact ⟨rfl, rfl⟩

/-- A symbol that has been resolved is in the forward map, and no other entry is lost. -/
theorem resolve_forward {s : String} {a : U64} (hr : r.resolve p s = .ok (a, r')) :
    r'.base = r.base ∧ r'.forward.get? s = some a ∧
      ∀ t b, r.forward.get? t = some b → r'.forward.get? t = some b := by
  rcases hget : r.forward.get? s with _ | b
  · obtain ⟨rfl, rfl⟩ := resolve_of_none hget hr
    refine ⟨rfl, SortedMap.get?_insert_self _ _ _, fun t b hb => ?_⟩
    rw [SortedMap.get?_insert_of_ne _ _ (by rintro rfl; rw [hget] at hb; cases hb)]
    exact hb
  · rw [resolve_of_some hget] at hr
    obtain ⟨rfl, rfl⟩ : b = a ∧ r = r' := by simpa using hr
    exact ⟨rfl, hget, fun _ _ hb => hb⟩

/-- Resolving a symbol appends it, unless it is there. -/
theorem Serves.resolve_append (h : r.Serves syms) (hlen : 16 * syms.length < 2 ^ 64) {s : String}
    {a : U64} (hr : r.resolve p s = .ok (a, r')) :
    r'.Serves (if s ∈ syms then syms else syms ++ [s]) := by
  rcases hget : r.forward.get? s with _ | b
  · obtain ⟨-, rfl⟩ := resolve_of_none hget hr
    have hnew : s ∉ syms := fun hs => by
      obtain ⟨b, hb⟩ := h.mem_iff.1 hs
      rw [hget] at hb
      cases hb
    rw [if_neg hnew]
    refine ⟨h.stride_eq, ?_, ?_, fun t b => ?_, fun b t => ?_⟩
    · exact List.nodup_append.2 ⟨h.nodup, List.nodup_singleton s, fun x hx y hy => by
        rintro rfl
        exact hnew (List.mem_singleton.1 hy ▸ hx)⟩
    · change r.next + r.stride = _
      rw [h.next_eq, h.stride_eq, slot, slot, List.length_append, List.length_singleton,
        Nat.mul_add, BitVec.ofNat_add, BitVec.add_assoc]
      rfl
    · dsimp only
      rw [SortedMap.get?_insert]
      simp only [getElem?_concat_eq_some]
      split_ifs with hts
      · subst hts
        simp only [Option.some.injEq]
        refine ⟨fun hb => ⟨_, Or.inr ⟨rfl, trivial⟩, by rw [← hb, h.next_eq]⟩, ?_⟩
        rintro ⟨k, hk | ⟨rfl, -⟩, rfl⟩
        · exact absurd (List.mem_of_getElem? hk) hnew
        · exact h.next_eq
      · rw [h.forward_iff]
        simp [hts]
    · dsimp only
      rw [SortedMap.get?_insert]
      simp only [getElem?_concat_eq_some]
      split_ifs with hbn
      · simp only [Option.some.injEq]
        rw [hbn, h.next_eq]
        refine ⟨fun hs => ⟨_, Or.inr ⟨rfl, hs.symm⟩, rfl⟩, ?_⟩
        rintro ⟨k, hk | ⟨-, rfl⟩, hslot⟩
        · have hlt := (List.getElem?_eq_some_iff.1 hk).1
          have := slot_inj hlen (by omega) hslot
          omega
        · rfl
      · rw [h.reverse_iff]
        refine exists_congr fun k => ⟨fun ⟨hk, hb⟩ => ⟨Or.inl hk, hb⟩, ?_⟩
        rintro ⟨hk | ⟨rfl, -⟩, rfl⟩
        · exact ⟨hk, rfl⟩
        · exact absurd h.next_eq.symm hbn
  · rw [resolve_of_some hget] at hr
    obtain ⟨rfl, rfl⟩ : b = a ∧ r = r' := by simpa using hr
    rwa [if_pos (h.mem_iff.2 ⟨b, hget⟩)]

/-- The symbols served afterwards. -/
theorem Serves.resolve (h : r.Serves syms) (hlen : 16 * syms.length < 2 ^ 64) {s : String}
    {a : U64} (hr : r.resolve p s = .ok (a, r')) :
    ∃ syms', r'.Serves syms' ∧ ∀ t, t ∈ syms' ↔ t ∈ syms ∨ t = s := by
  refine ⟨_, h.resolve_append hlen hr, fun t => ?_⟩
  split_ifs with hs
  · refine ⟨Or.inl, ?_⟩
    rintro (ht | rfl)
    · exact ht
    · exact hs
  · simp

end StubResolver

/-! ## One record -/

namespace Process

variable {p : Profile} {segRuntime : List (Option U64)} {r r' : StubResolver}
  {m m' : GuestMemory}

/-- Where a record stores its pointer. -/
def target (segRuntime : List (Option U64)) (rec : BindRecord) : Option U64 :=
  (segBase segRuntime rec.segIndex).map fun base => base + rec.segOffset

/-- The record can be stored at `a`. -/
def Storable (m : GuestMemory) (segRuntime : List (Option U64)) (rec : BindRecord) (a : U64) :
    Prop :=
  target segRuntime rec = some a ∧ m.flat.Grants a 8 .write

/-- What binding a record can do : nothing if its segment is not mapped; else its symbol is
resolved, and the pointer is stored if it can be. -/
theorem bindOne_cases {rec : BindRecord} (h : bindOne p segRuntime r rec m = .ok r' m') :
    (target segRuntime rec = none ∧ r' = r ∧ m' = m) ∨
      ∃ a stub, target segRuntime rec = some a ∧ r.resolve p rec.symbol = .ok (stub, r') ∧
        (GuestMemory.writeU64 a (stub + rec.addend) m = .ok () m' ∨
          (∃ e, GuestMemory.writeU64 a (stub + rec.addend) m = .err e m') ∧ m' = m) := by
  unfold bindOne at h
  unfold target
  rcases hseg : segBase segRuntime rec.segIndex with _ | base <;> simp only [hseg] at h
  · obtain ⟨rfl, rfl⟩ : r = r' ∧ m = m' := by simpa using h
    exact Or.inl ⟨rfl, rfl, rfl⟩
  · obtain ⟨⟨stub, r₁⟩, hstub, h⟩ := Prog.ofChecked_bind_eq_ok.1 h
    obtain ⟨value, hvalue, h⟩ := Prog.ofChecked_bind_eq_ok.1 h
    obtain rfl := Profile.addSigned_eq_ok hvalue
    obtain ⟨written, m₁, hw, h⟩ := Prog.bind_eq_ok.1 h
    obtain ⟨rfl, rfl⟩ : r₁ = r' ∧ m₁ = m' := by simpa using h
    refine Or.inr ⟨_, stub, rfl, hstub, ?_⟩
    rcases Prog.attempt_eq_ok.1 hw with ⟨u, hok, -⟩ | ⟨e, herr, -⟩
    · exact Or.inl hok
    · exact Or.inr ⟨⟨e, herr⟩, GuestMemory.write_failsClean _ _ _ _ _ herr⟩

/-- Binding a record changes only the bytes it can store. -/
theorem bindOne_frame {rec : BindRecord} (hinv : m.Inv)
    (h : bindOne p segRuntime r rec m = .ok r' m') :
    m'.Inv ∧ m'.flat.layout = m.flat.layout ∧
      ∀ x, (∀ a, Storable m segRuntime rec a → x < a.toNat ∨ a.toNat + 8 ≤ x) →
        m'.flat.byte x = m.flat.byte x := by
  rcases bindOne_cases h with ⟨-, -, rfl⟩ | ⟨a, stub, hat, -, hw | ⟨-, rfl⟩⟩
  · exact ⟨hinv, rfl, fun _ _ => rfl⟩
  · obtain ⟨hflat, -, -⟩ := hinv.flat_of_write hw
    refine ⟨hinv.of_write hw, by rw [hflat]; rfl, fun x hx => ?_⟩
    have hgrant : m.flat.Grants a 8 .write := hinv.write_isOk_iff.1 ⟨_, hw⟩
    rw [hflat]
    refine if_neg fun hin => ?_
    rw [length_toLeBytes64] at hin
    have := hx a ⟨hat, hgrant⟩
    omega
  · exact ⟨hinv, rfl, fun _ _ => rfl⟩

/-- A record that can be stored is : its pointer is the trampoline of its symbol, plus the
addend. -/
theorem bindOne_stores {rec : BindRecord} {a : U64} (hinv : m.Inv)
    (h : bindOne p segRuntime r rec m = .ok r' m') (ha : Storable m segRuntime rec a) :
    ∃ stub, r.resolve p rec.symbol = .ok (stub, r') ∧
      m'.flat.Reads a (toLeBytes64 (stub + rec.addend)) := by
  obtain ⟨hat, hgrant⟩ := ha
  rcases bindOne_cases h with ⟨hnone, -, -⟩ | ⟨a', stub, hat', hr, hw⟩
  · rw [hat] at hnone
    cases hnone
  · obtain rfl : a = a' := Option.some.inj (hat.symm.trans hat')
    have hok : ∃ m₁, GuestMemory.writeU64 a (stub + rec.addend) m = .ok () m₁ :=
      hinv.write_isOk_iff.2 (by rwa [length_toLeBytes64])
    have hstored : GuestMemory.writeU64 a (stub + rec.addend) m = .ok () m' := by
      rcases hw with hw | ⟨⟨e, herr⟩, -⟩
      · exact hw
      · obtain ⟨m₁, hm₁⟩ := hok
        rw [herr] at hm₁
        cases hm₁
    refine ⟨stub, hr, ?_⟩
    rw [(hinv.flat_of_write hstored).1]
    exact FlatMemory.reads_write_self _ _ _

/-! ## All records -/

/-- Binding moves no region. -/
theorem fold_layout {recs : List BindRecord} (hinv : m.Inv)
    (h : recs.foldlM (bindOne p segRuntime) r m = .ok r' m') :
    m'.Inv ∧ m'.flat.layout = m.flat.layout :=
  Prog.foldlM_induct (I := fun _ m₁ => m₁.Inv ∧ m₁.flat.layout = m.flat.layout)
    (fun _ _ _ _ _ _ ⟨hi, hl⟩ h₁ =>
      have hf := bindOne_frame hi h₁
      ⟨hf.1, hf.2.1.trans hl⟩)
    ⟨hinv, rfl⟩ h

theorem storable_congr {rec : BindRecord} {a : U64} (h : m'.flat.layout = m.flat.layout) :
    Storable m' segRuntime rec a ↔ Storable m segRuntime rec a := by
  rw [Storable, Storable, FlatMemory.grants_congr h]

/-- Binding changes only bytes that one of the records can store. -/
theorem fold_byte {recs : List BindRecord} (hinv : m.Inv)
    (h : recs.foldlM (bindOne p segRuntime) r m = .ok r' m') {x : ℕ}
    (hx : ∀ rec ∈ recs, ∀ a, Storable m segRuntime rec a → x < a.toNat ∨ a.toNat + 8 ≤ x) :
    m'.flat.byte x = m.flat.byte x := by
  have hrun := Prog.foldlM_induct
    (I := fun _ m₁ => m₁.Inv ∧ m₁.flat.layout = m.flat.layout ∧
      m₁.flat.byte x = m.flat.byte x)
    (fun rec hrec _ _ _ _ ⟨hi, hl, hb⟩ h₁ => by
      obtain ⟨hi', hl', hb'⟩ := bindOne_frame hi h₁
      refine ⟨hi', hl'.trans hl, (hb' x fun a ha => hx rec hrec a ?_).trans hb⟩
      exact (storable_congr hl).1 ha)
    ⟨hinv, rfl, rfl⟩ h
  exact hrun.2.2

/-- No trampoline is lost or changed. -/
theorem fold_forward {recs : List BindRecord}
    (h : recs.foldlM (bindOne p segRuntime) r m = .ok r' m') :
    r'.base = r.base ∧ ∀ t b, r.forward.get? t = some b → r'.forward.get? t = some b :=
  Prog.foldlM_induct
    (I := fun r₁ _ => r₁.base = r.base ∧
      ∀ t b, r.forward.get? t = some b → r₁.forward.get? t = some b)
    (fun _ _ _ _ _ _ ⟨hbase, hkeep⟩ h₁ => by
      rcases bindOne_cases h₁ with ⟨-, rfl, -⟩ | ⟨a, stub, -, hr, -⟩
      · exact ⟨hbase, hkeep⟩
      · obtain ⟨hbase', -, hkeep'⟩ := StubResolver.resolve_forward hr
        exact ⟨hbase'.trans hbase, fun t b hb => hkeep' t b (hkeep t b hb)⟩)
    ⟨rfl, fun _ _ hb => hb⟩ h

/-- Every record with a mapped segment has its symbol resolved. -/
theorem fold_resolves {recs : List BindRecord} {rec : BindRecord}
    (h : recs.foldlM (bindOne p segRuntime) r m = .ok r' m') (hrec : rec ∈ recs)
    (hat : (target segRuntime rec).isSome) : ∃ stub, r'.forward.get? rec.symbol = some stub := by
  obtain ⟨before, after, rfl⟩ := List.append_of_mem hrec
  obtain ⟨r₁, m₁, -, h⟩ := (Prog.foldlM_append_eq_ok _).1 h
  obtain ⟨r₂, m₂, hone, hafter⟩ := Prog.foldlM_cons_eq_ok.1 h
  rcases bindOne_cases hone with ⟨hnone, -, -⟩ | ⟨a, stub, -, hr, -⟩
  · rw [hnone] at hat
    cases hat
  · exact ⟨stub, (fold_forward hafter).2 _ _ (StubResolver.resolve_forward hr).2.1⟩

/-- The symbols after one more record : its symbol is new, or its segment is not mapped. -/
def addSymbol (segRuntime : List (Option U64)) (syms : List String) (rec : BindRecord) :
    List String :=
  if (target segRuntime rec).isSome then
    if rec.symbol ∈ syms then syms else syms ++ [rec.symbol]
  else syms

theorem mem_foldl_addSymbol {t : String} : ∀ {recs : List BindRecord} {syms : List String},
    t ∈ recs.foldl (addSymbol segRuntime) syms ↔ t ∈ syms ∨
      ∃ rec ∈ recs, (target segRuntime rec).isSome ∧ rec.symbol = t
  | [], syms => by simp
  | rec :: recs, syms => by
    rw [List.foldl_cons, mem_foldl_addSymbol, List.exists_mem_cons_iff, ← or_assoc]
    refine or_congr_left ?_
    unfold addSymbol
    split_ifs with hat hmem
    · refine ⟨Or.inl, ?_⟩
      rintro (ht | ⟨-, rfl⟩)
      · exact ht
      · exact hmem
    · simp [hat, eq_comm]
    · simp [hat]

/-- The resolver serves the symbols of all records with a mapped segment, in the order in which
they first occur. As long as few symbols occur, no trampoline is given twice. -/
theorem fold_serves {occurring : List String} (hfew : 16 * occurring.length < 2 ^ 64) :
    ∀ {recs : List BindRecord} {r : StubResolver} {m : GuestMemory} {syms : List String},
      r.Serves syms → syms ⊆ occurring → (∀ rec ∈ recs, rec.symbol ∈ occurring) →
      recs.foldlM (bindOne p segRuntime) r m = .ok r' m' →
      r'.Serves (recs.foldl (addSymbol segRuntime) syms)
  | [], r, m, syms, hs, _, _, h => by
    obtain ⟨rfl, rfl⟩ : r = r' ∧ m = m' := by simpa using h
    exact hs
  | rec :: recs, r, m, syms, hs, hsub, hocc, h => by
    obtain ⟨r₁, m₁, h₁, h₂⟩ := Prog.foldlM_cons_eq_ok.1 h
    have hocc' : ∀ rec' ∈ recs, rec'.symbol ∈ occurring := fun rec' hrec =>
      hocc rec' (List.mem_cons_of_mem _ hrec)
    rw [List.foldl_cons, addSymbol]
    rcases bindOne_cases h₁ with ⟨hnone, rfl, rfl⟩ | ⟨a, stub, hat, hr, -⟩
    · rw [if_neg (by simp [hnone])]
      exact fold_serves hfew hs hsub hocc' h₂
    · have hlen : syms.length ≤ occurring.length := (hs.nodup.subperm hsub).length_le
      rw [if_pos (by simp [hat])]
      refine fold_serves hfew (hs.resolve_append (by omega) hr) (fun t ht => ?_) hocc' h₂
      split_ifs at ht with hmem
      · exact hsub ht
      · rcases List.mem_append.1 ht with ht | ht
        · exact hsub ht
        · rw [List.mem_singleton.1 ht]
          exact hocc rec List.mem_cons_self

/-- The turn of one record. -/
theorem fold_split {before after : List BindRecord} {rec : BindRecord} (hinv : m.Inv)
    (h : (before ++ rec :: after).foldlM (bindOne p segRuntime) r m = .ok r' m') :
    ∃ r₁ m₁ r₂ m₂, before.foldlM (bindOne p segRuntime) r m = .ok r₁ m₁ ∧
      bindOne p segRuntime r₁ rec m₁ = .ok r₂ m₂ ∧
      after.foldlM (bindOne p segRuntime) r₂ m₂ = .ok r' m' ∧
      m₁.Inv ∧ m₁.flat.layout = m.flat.layout ∧ m₂.Inv ∧ m₂.flat.layout = m.flat.layout := by
  obtain ⟨r₁, m₁, hbefore, h⟩ := (Prog.foldlM_append_eq_ok _).1 h
  obtain ⟨r₂, m₂, hrec, hafter⟩ := Prog.foldlM_cons_eq_ok.1 h
  obtain ⟨hinv₁, hl₁⟩ := fold_layout hinv hbefore
  obtain ⟨hinv₂, hl₂, -⟩ := bindOne_frame hinv₁ hrec
  exact ⟨r₁, m₁, r₂, m₂, hbefore, hrec, hafter, hinv₁, hl₁, hinv₂, hl₂.trans hl₁⟩

/-- A record with no addend that can be stored leaves the trampoline of its symbol in its
slot, if no later record stores over it. -/
theorem fold_stores {before after : List BindRecord} {rec : BindRecord} {a : U64}
    (hinv : m.Inv)
    (h : (before ++ rec :: after).foldlM (bindOne p segRuntime) r m = .ok r' m')
    (ha : Storable m segRuntime rec a) (hadd : rec.addend = 0)
    (hlater : ∀ rec' ∈ after, ∀ a', Storable m segRuntime rec' a' →
      a.toNat + 8 ≤ a'.toNat ∨ a'.toNat + 8 ≤ a.toNat) :
    ∃ stub, r'.forward.get? rec.symbol = some stub ∧ m'.flat.Reads a (toLeBytes64 stub) := by
  obtain ⟨r₁, m₁, r₂, m₂, -, hrec, hafter, hinv₁, hl₁, hinv₂, hl₂⟩ := fold_split hinv h
  obtain ⟨stub, hstub, hreads⟩ := bindOne_stores hinv₁ hrec ((storable_congr hl₁).2 ha)
  have hvalue : stub + rec.addend = stub := by
    rw [hadd]
    exact BitVec.add_zero stub
  rw [hvalue] at hreads
  have hfwd := (StubResolver.resolve_forward hstub).2.1
  refine ⟨stub, (fold_forward hafter).2 _ _ hfwd, fun i hi => ?_⟩
  rw [length_toLeBytes64] at hi
  rw [fold_byte hinv₂ hafter fun rec' hr a' ha' => ?_]
  · exact hreads i (by simpa using hi)
  · have := hlater rec' hr a' ((storable_congr hl₂).1 ha')
    omega

end Process

/-! ## The resolver of a build -/

open Process

/-- After binding with trampolines 16 bytes apart, the resolver serves the symbols of the
records with a mapped segment, and few of them. -/
theorem serves_boundSymbols {p : Profile} {image : MachOImage} {bytes : List U8}
    {bases : List (Option U64)} {base : U64} {r : StubResolver} {m m' : GuestMemory}
    (h : bindImports p image bytes bases (.new base 16) m = .ok r m') {recs : List BindRecord}
    (hrecs : ImageRecords p image bytes recs) :
    r.base = base ∧ r.Serves (recs.foldl (addSymbol bases) []) ∧
      (recs.foldl (addSymbol bases) []).length ≤ 2 ^ 33 := by
  obtain ⟨recs', hrecs', hfold⟩ := bindImports_eq_ok.1 h
  obtain rfl := hrecs.unique hrecs'
  obtain ⟨occurring, hlen, hocc⟩ := hrecs.symbols
  have hs := fold_serves (by omega) (StubResolver.serves_new base) (List.nil_subset _) hocc hfold
  refine ⟨(fold_forward hfold).1, hs, (hs.nodup.subperm fun t ht => ?_).length_le.trans hlen⟩
  obtain ⟨rec, hrec, -, rfl⟩ := (mem_foldl_addSymbol.1 ht).resolve_left List.not_mem_nil
  exact hocc rec hrec

theorem serves_of_bindImports {p : Profile} {image : MachOImage} {bytes : List U8}
    {bases : List (Option U64)} {base : U64} {r : StubResolver} {m m' : GuestMemory}
    (h : bindImports p image bytes bases (.new base 16) m = .ok r m') :
    r.base = base ∧ ∃ syms : List String, r.Serves syms ∧ syms.length ≤ 2 ^ 33 ∧
      ∀ recs, ImageRecords p image bytes recs →
        ∀ t, t ∈ syms ↔ ∃ rec ∈ recs, (target bases rec).isSome ∧ rec.symbol = t := by
  obtain ⟨recs, hrecs, -⟩ := bindImports_eq_ok.1 h
  obtain ⟨hbase, hs, hlen⟩ := serves_boundSymbols h hrecs
  refine ⟨hbase, _, hs, hlen, fun recs' hrecs' t => ?_⟩
  obtain rfl := hrecs.unique hrecs'
  rw [mem_foldl_addSymbol]
  simp

/-- The bytes of the trampolines handed out. -/
theorem StubResolver.Serves.toNat_used {r : StubResolver} {syms : List String}
    (hs : r.Serves syms) (hlen : syms.length ≤ 2 ^ 33) :
    (r.next - r.base).toNat = 16 * syms.length := by
  rw [hs.next_eq, slot, BitVec.add_comm, BitVec.add_sub_cancel, BitVec.toNat_ofNat]
  omega

end IosEmu
