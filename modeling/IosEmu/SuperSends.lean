import IosEmu.HeapContract
import IosEmu.ShimDispatch

/-!
# Messages to `super`

`objc_msgSendSuper` and `objc_msgSendSuper2` are given the address of a structure of a receiver and
a class, and `objc_msgSend` a receiver. All three run `msgSend`, which takes its first argument for
the receiver, so a message to `super` is sent to the address of the structure.

What a message does to the runtime and answers depends on what the tables have for its receiver
(`replied`), and `SentAlike` compares this for two receivers, message by message. The structure and
its receiver are answered alike exactly if it holds of them (`super_send_iff`).
-/

open SysLib

namespace IosEmu.ObjcRuntime

open ShimM Frameworks

/-! ## What a message does -/

/-- The runtime that a shim leaves, and what it returns to the guest. -/
def effect {α : Type} :
    Outcome Empty Panic (ObjcRuntime × CallContext) α → Except Panic (ObjcRuntime × U64)
  | .ok _ s => .ok (s.1, s.2.cpu.arg 0)
  | .panic q => .error q

/-- The class that `x` is the class object of. -/
def indexAt (rt : ObjcRuntime) (x : U64) : Option ℕ :=
  if x = 0 then none else rt.classIndexByAddr.get? x

/-- The count of `x`. -/
def countAt (rt : ObjcRuntime) (x : U64) : Option (BitVec 64) :=
  if x = 0 then none else rt.retainCounts.get? x

/-- What `retainCount` reports for `x`. -/
def reportedAt (rt : ObjcRuntime) (x : U64) : U64 :=
  if x = 0 then 0 else (rt.retainCounts.get? x).getD 1

/-- What `class` finds for `x`. -/
def classAt (rt : ObjcRuntime) (x : U64) : U64 :=
  if x = 0 then 0
  else match rt.instanceClass.get? x with
    | none => x
    | some index => ((rt.classes[index]?).bind fun c => rt.classAddrByName.get? c.name).getD 0

/-- The runtime after `n` has been added to the count of `x`. -/
def counted (p : Profile) (n : BitVec 64) (rt : ObjcRuntime) (x : U64) :
    Except Panic ObjcRuntime :=
  match rt.countAt x with
  | none => .ok rt
  | some c =>
    (p.addSigned c n).map fun c => { rt with retainCounts := rt.retainCounts.insert x c }

/-- There is room for an object, and its first word can be written. -/
def Placeable (m : GuestMemory) : Prop :=
  m.heap.Fits objHeaderSize ∧ m.flat.Grants (BitVec.ofNat 64 m.heap.next) 8 .write

open Classical in
/-- What a message to `x` does to the runtime, and its answer. -/
noncomputable def replied (p : Profile) (s : ObjcRuntime × CallContext) (x : U64) :
    Message → Except Panic (ObjcRuntime × U64)
  | .alloc | .new =>
    match s.1.indexAt x with
    | none => .ok (s.1, 0)
    | some index =>
      if Placeable s.2.mem then
        .ok (addInstance (BitVec.ofNat 64 s.2.mem.heap.next) index s.1,
          BitVec.ofNat 64 s.2.mem.heap.next)
      else .ok (s.1, 0)
  | .init | .identity | .hash => .ok (s.1, x)
  | .retain => (counted p 1 s.1 x).map fun rt => (rt, x)
  | .release => (counted p (-1) s.1 x).map fun rt => (rt, 0)
  | .retainCount => .ok (s.1, s.1.reportedAt x)
  | .classObject => .ok (s.1, s.1.classAt x)
  | .no | .other => .ok (s.1, 0)

section Effect

variable {p : Profile} {s : ObjcRuntime × CallContext} {x : U64}

theorem effect_answer (y : ShimM U64) (s : ObjcRuntime × CallContext) :
    effect (answer y s) = match y s with
      | .ok v s' => .ok (s'.1, v)
      | .panic q => .error q := by
  rw [answer, Prog.bind_apply]
  cases y s with
  | ok v s' => exact congrArg Except.ok (Prod.ext rfl (CpuContext.arg_setRet s'.2.cpu v))
  | err e => cases e
  | panic q => rfl

theorem effect_answer_pure (v : U64) : effect (answer (return v) s) = .ok (s.1, v) :=
  effect_answer _ _

/-- Placing an object either enters it, or leaves the runtime alone. -/
theorem effect_place (hs : Sound s) (hx : x ≠ 0) :
    effect (answer (do
      let rt ← runtime
      if (rt.classIndexByAddr.get? x).isSome then
        let obj ← allocInstance p x
        return obj.getD 0
      else return 0) s) = replied p s x .alloc := by
  rw [effect_answer, runtime_bind, replied, indexAt, if_neg hx]
  cases hindex : s.1.classIndexByAddr.get? x with
  | none => rfl
  | some index =>
    rw [Option.isSome_some, if_pos rfl, Prog.bind_apply, allocInstance_apply, hindex]
    obtain ⟨r, s₁, hplace, hcases⟩ := places_place (p := p) hs.tables.ready (fun _ => x)
      (fun obj => addInstance obj index)
    have hinv : GuestMemory.Inv { s.2.mem with heap := s.2.mem.heap.after objHeaderSize } :=
      hs.memory.change (.heap _)
    simp only [hplace]
    cases hcases with
    | exhausted hfits => rw [if_neg fun h => hfits h.1]; rfl
    | refused e hfits hwrite =>
      rw [if_neg]
      · rfl
      · intro h
        obtain ⟨m', hm'⟩ := hinv.write_isOk_iff (d := toLeBytes64 x).2 h.2
        cases hwrite.symm.trans hm'
    | placed m hfits hwrite =>
      rw [if_pos ⟨hfits, hinv.write_isOk_iff.1 ⟨m, hwrite⟩⟩]
      rfl

theorem effect_countBy {n : BitVec 64} (hx : x ≠ 0) (v : U64) :
    effect (answer (do
      countBy p n x
      return v) s) = (counted p n s.1 x).map fun rt => (rt, v) := by
  rw [effect_answer, Prog.bind_apply, countBy, runtime_bind, counted, countAt, if_neg hx]
  cases s.1.retainCounts.get? x with
  | none => rfl
  | some c => cases hc : p.addSigned c n <;> simp only [hc] <;> rfl

/-- The class of an instance is found. -/
theorem classOf_eq (hs : Sound s) (hx : x ≠ 0) : classOf x s = .ok (s.1.classAt x) s := by
  rw [classAt, if_neg hx]
  cases hinstance : s.1.instanceClass.get? x with
  | none =>
    rw [classOf, runtime_bind, hinstance]
    rfl
  | some index =>
    obtain ⟨a, ha⟩ := hs.tables.instances hinstance
    obtain ⟨c, hc, haddr⟩ := hs.tables.indexed ha
    rw [classOf_apply hinstance hc haddr]
    simp [hc, haddr]

/-- A message does what `replied` says. -/
theorem effect_receive (hs : Sound s) (hx : x ≠ 0) (msg : Message) :
    effect (answer (receive p x msg) s) = replied p s x msg := by
  cases msg with
  | alloc => exact effect_place hs hx
  | new => exact effect_place hs hx
  | retain => exact effect_countBy hx x
  | release => exact effect_countBy hx 0
  | retainCount =>
    rw [receive, effect_answer, runtime_bind, replied, reportedAt, if_neg hx]
    rfl
  | classObject =>
    rw [receive, effect_answer, classOf_eq hs hx]
    rfl
  | _ => exact effect_answer_pure _

/-- `nil` answers every message with `nil`. -/
theorem replied_nil (msg : Message) : replied p s 0 msg = .ok (s.1, 0) := by
  cases msg <;> simp [replied, indexAt, counted, countAt, reportedAt, classAt, Except.map]

theorem effect_reply (hs : Sound s) (x : U64) {sel : String} (hsel : sel ≠ "") :
    effect (answer (reply p x (.ok sel)) s) = replied p s x (.ofSelector sel) := by
  by_cases hx : x = 0
  · subst hx
    rw [replied_nil, reply, if_pos (Or.inl rfl)]
    exact effect_answer_pure 0
  · rw [reply, if_neg (not_or.2 ⟨hx, hsel⟩)]
    exact effect_receive hs hx _

end Effect

/-! ## Receivers that are answered alike -/

/-- Adding to the count of `x` leaves its range. -/
def CountFails (p : Profile) (n : BitVec 64) (rt : ObjcRuntime) (x : U64) : Prop :=
  ∃ c, rt.countAt x = some c ∧ ∀ c', p.addSigned c n ≠ .ok c'

/-- What two receivers must agree on to be answered alike. -/
def SentAlike (p : Profile) (s : ObjcRuntime × CallContext) (x y : U64) : Message → Prop
  | .alloc | .new => s.1.indexAt x = s.1.indexAt y ∨ ¬Placeable s.2.mem
  | .init | .identity | .hash => x = y
  | .retain => x = y ∨ CountFails p 1 s.1 x ∧ CountFails p 1 s.1 y
  | .release => x = y ∨ (s.1.countAt x = none ∧ s.1.countAt y = none) ∨
      CountFails p (-1) s.1 x ∧ CountFails p (-1) s.1 y
  | .retainCount => s.1.reportedAt x = s.1.reportedAt y
  | .classObject => s.1.classAt x = s.1.classAt y
  | .no | .other => True

section Alike

variable {p : Profile} {s : ObjcRuntime × CallContext} {x y : U64}

theorem overflow_of_addSigned {w : ℕ} {a b : BitVec w} {q : Panic}
    (h : p.addSigned a b = .error q) : q = .arithmeticOverflow := by
  cases p with
  | release => cases h
  | debug =>
    simp only [Profile.addSigned] at h
    split_ifs at h
    exact (Except.error.inj h).symm

theorem counted_of_fails {n : BitVec 64} {rt : ObjcRuntime} (h : CountFails p n rt x) :
    counted p n rt x = .error .arithmeticOverflow := by
  obtain ⟨c, hc, hfail⟩ := h
  rw [counted, hc]
  cases hadd : p.addSigned c n with
  | ok c' => exact absurd hadd (hfail c')
  | error q =>
    obtain rfl := overflow_of_addSigned hadd
    simp only [hadd]
    rfl

theorem counted_cases (p : Profile) (n : BitVec 64) (rt : ObjcRuntime) (x : U64) :
    (rt.countAt x = none ∧ counted p n rt x = .ok rt) ∨
      (CountFails p n rt x ∧ counted p n rt x = .error .arithmeticOverflow) ∨
      ∃ c, rt.retainCounts.get? x = some c ∧
        counted p n rt x = .ok { rt with retainCounts := rt.retainCounts.insert x (c + n) } := by
  rw [counted]
  cases hcount : rt.countAt x with
  | none => exact .inl ⟨rfl, rfl⟩
  | some c =>
    have hget : rt.retainCounts.get? x = some c := by
      rw [countAt] at hcount
      split_ifs at hcount
      exact hcount
    cases hc : p.addSigned c n with
    | ok c' =>
      obtain rfl := Profile.addSigned_eq_ok hc
      exact .inr (.inr ⟨c, hget, by simp only [hc]; rfl⟩)
    | error q =>
      have hfail : CountFails p n rt x := ⟨c, hcount, fun c' h => by rw [hc] at h; cases h⟩
      have herr := counted_of_fails hfail
      rw [counted, hcount] at herr
      exact .inr (.inl ⟨hfail, herr⟩)

/-- A count that changes tells the two receivers apart. -/
theorem counted_eq_iff {n : BitVec 64} (hn : n ≠ 0) (rt : ObjcRuntime) :
    counted p n rt x = counted p n rt y ↔
      x = y ∨ (rt.countAt x = none ∧ rt.countAt y = none) ∨
        CountFails p n rt x ∧ CountFails p n rt y := by
  have hchange : ∀ {z z'} {c c' : BitVec 64}, rt.retainCounts.get? z = some c → z ≠ z' →
      (rt.retainCounts.insert z (c + n)).get? z ≠ (rt.retainCounts.insert z' c').get? z := by
    intro z z' c c' hz hne h
    rw [SortedMap.get?_insert_self, SortedMap.get?_insert_of_ne _ _ hne, hz] at h
    exact hn (BitVec.add_right_eq_self.1 (Option.some.inj h))
  have hkeep : ∀ {z} {c : BitVec 64}, rt.retainCounts.get? z = some c →
      { rt with retainCounts := rt.retainCounts.insert z (c + n) } ≠ rt := by
    intro z c hz h
    have hget := congrArg (fun rt : ObjcRuntime => rt.retainCounts.get? z) h
    simp only [SortedMap.get?_insert_self, hz] at hget
    exact hn (BitVec.add_right_eq_self.1 (Option.some.inj hget))
  constructor
  · intro h
    by_cases hxy : x = y
    · exact .inl hxy
    obtain ⟨hx, hx'⟩ | ⟨hx, hx'⟩ | ⟨c, hx, hx'⟩ := counted_cases p n rt x <;>
      obtain ⟨hy, hy'⟩ | ⟨hy, hy'⟩ | ⟨c', hy, hy'⟩ := counted_cases p n rt y <;>
      rw [hx', hy'] at h
    · exact .inr (.inl ⟨hx, hy⟩)
    · cases h
    · exact absurd (Except.ok.inj h).symm (hkeep hy)
    · cases h
    · exact .inr (.inr ⟨hx, hy⟩)
    · cases h
    · exact absurd (Except.ok.inj h) (hkeep hx)
    · cases h
    · have hget := congrArg (fun rt : ObjcRuntime => rt.retainCounts.get? x) (Except.ok.inj h)
      exact absurd hget (hchange hx hxy)
  · rintro (rfl | ⟨hx, hy⟩ | ⟨⟨c, hx, hfail⟩, c', hy, hfail'⟩)
    · rfl
    · rw [counted, counted, hx, hy]
    · rw [counted_of_fails ⟨c, hx, hfail⟩, counted_of_fails ⟨c', hy, hfail'⟩]

/-- An answer that names its receiver tells the two apart, unless there is none. -/
theorem retained_eq_iff (rt : ObjcRuntime) :
    (counted p 1 rt x).map (fun rt => (rt, x)) = (counted p 1 rt y).map (fun rt => (rt, y)) ↔
      x = y ∨ CountFails p 1 rt x ∧ CountFails p 1 rt y := by
  constructor
  · intro h
    obtain ⟨-, hx⟩ | ⟨hfails, hx⟩ | ⟨_, -, hx⟩ := counted_cases p 1 rt x <;>
      obtain ⟨-, hy⟩ | ⟨hfails', hy⟩ | ⟨_, -, hy⟩ := counted_cases p 1 rt y <;>
      rw [hx, hy] at h
    · exact .inl (Prod.ext_iff.1 (Except.ok.inj h)).2
    · cases h
    · exact .inl (Prod.ext_iff.1 (Except.ok.inj h)).2
    · cases h
    · exact .inr ⟨hfails, hfails'⟩
    · cases h
    · exact .inl (Prod.ext_iff.1 (Except.ok.inj h)).2
    · cases h
    · exact .inl (Prod.ext_iff.1 (Except.ok.inj h)).2
  · rintro (rfl | ⟨hx, hy⟩)
    · rfl
    · rw [counted_of_fails hx, counted_of_fails hy]
      rfl

/-- A new instance can be told from none, and from one of another class. -/
theorem placed_eq_iff (hs : Sound s) :
    replied p s x .alloc = replied p s y .alloc ↔
      s.1.indexAt x = s.1.indexAt y ∨ ¬Placeable s.2.mem := by
  by_cases hplace : Placeable s.2.mem
  · have hfresh := hs.tables.fresh (a := BitVec.ofNat 64 s.2.mem.heap.next) (by
      rw [BumpAllocator.toNat_next hs.tables.ready]
      exact s.2.mem.heap.next_spec.1)
    have hget : ∀ {i}, (addInstance (BitVec.ofNat 64 s.2.mem.heap.next) i s.1).instanceClass.get?
        (BitVec.ofNat 64 s.2.mem.heap.next) = some i := SortedMap.get?_insert_self _ _ _
    refine ⟨fun h => .inl ?_, fun h => ?_⟩
    · simp only [replied, if_pos hplace] at h
      have hinst := congrArg (fun e : Except Panic (ObjcRuntime × U64) =>
        e.map fun r => r.1.instanceClass.get? (BitVec.ofNat 64 s.2.mem.heap.next)) h
      rcases hi : s.1.indexAt x with _ | i <;> rcases hj : s.1.indexAt y with _ | j <;>
        simp only [hi, hj, Except.map, hget, hfresh.2, Except.ok.injEq, reduceCtorEq] at hinst ⊢
      exact hinst
    · rw [or_iff_left (not_not.2 hplace)] at h
      simp only [replied, h]
  · simp only [replied, or_true, hplace, not_false_eq_true, iff_true]
    cases s.1.indexAt x <;> cases s.1.indexAt y <;> rfl

/-- Two receivers are answered alike exactly if what a message looks at is alike. -/
theorem replied_eq_iff (hs : Sound s) (msg : Message) :
    replied p s x msg = replied p s y msg ↔ SentAlike p s x y msg := by
  have hvalue : ∀ {v w : U64}, (Except.ok (s.1, v) : Except Panic _) = .ok (s.1, w) ↔ v = w :=
    fun {v w} => by simp
  cases msg with
  | alloc => exact placed_eq_iff (p := p) hs
  | new => exact placed_eq_iff (p := p) hs
  | retain => exact retained_eq_iff s.1
  | release =>
    rw [SentAlike, ← counted_eq_iff (by decide) s.1]
    refine ⟨fun h => ?_, fun h => by rw [replied, replied, h]⟩
    simp only [replied] at h
    rcases hx : counted p (-1) s.1 x with q | rt <;>
      rcases hy : counted p (-1) s.1 y with q' | rt' <;> rw [hx, hy] at h
    · exact congrArg _ (Except.error.inj h)
    · cases h
    · cases h
    · exact congrArg _ (Prod.ext_iff.1 (Except.ok.inj h)).1
  | no => exact iff_of_true rfl trivial
  | other => exact iff_of_true rfl trivial
  | _ => exact hvalue

end Alike

/-! ## The calls -/

/-- A structure of a receiver and a class. -/
def HoldsSuper (m : GuestMemory) (addr receiver cls : U64) : Prop :=
  m.readU64 addr = .ok receiver ∧ m.readU64 (addr + 8) = .ok cls

/-- The call with another receiver. -/
def withReceiver (receiver : U64) (s : ObjcRuntime × CallContext) : ObjcRuntime × CallContext :=
  (s.1, { s.2 with cpu := s.2.cpu.setRet receiver })

theorem get?_msgSend {p : Profile} {name : String}
    (h : name ∈ ["objc_msgSend", "objc_msgSendSuper", "objc_msgSendSuper2"]) :
    (installAll p).get? name = some (msgSend p) := by
  refine get?_installAll.2 (List.mem_append_left _ ?_)
  simp only [List.mem_cons, List.not_mem_nil, or_false] at h
  obtain rfl | rfl | rfl := h <;> simp [ObjcRt.shims]

theorem effect_msgSend {p : Profile} {s : ObjcRuntime × CallContext} (hs : Sound s) :
    effect (msgSend p s) =
      match s.2.mem.readCstr (s.2.cpu.arg 1) 256 with
      | .ok sel => if sel = "" then .ok (s.1, 0) else replied p s (s.2.cpu.arg 0) (.ofSelector sel)
      | .error _ => .ok (s.1, 0) := by
  rw [msgSend_apply]
  cases s.2.mem.readCstr (s.2.cpu.arg 1) 256 with
  | error e => exact effect_answer_pure 0
  | ok sel =>
    dsimp only
    split_ifs with hsel
    · rw [reply, if_pos (Or.inr hsel)]
      exact effect_answer_pure 0
    · exact effect_reply hs _ hsel

/-- A message to `super` is answered like one to the receiver exactly if the address of the
structure and the receiver are alike for its selector. -/
theorem super_send_iff (p : Profile) (s₀ s : ObjcRuntime × CallContext) (name : String)
    (hnew : Fresh p s₀) (hrun : Session p s₀ s)
    (hname : name = "objc_msgSendSuper" ∨ name = "objc_msgSendSuper2") :
    ∃ super send, (installAll p).get? name = some super ∧
      (installAll p).get? "objc_msgSend" = some send ∧
      ∀ receiver cls, HoldsSuper s.2.mem (s.2.cpu.arg 0) receiver cls →
        (effect (super s) = effect (send (withReceiver receiver s)) ↔
          ∀ sel, s.2.mem.readCstr (s.2.cpu.arg 1) 256 = .ok sel → sel ≠ "" →
            SentAlike p s (s.2.cpu.arg 0) receiver (.ofSelector sel)) := by
  have hs : Sound s := (keeps_of_session hrun hnew.sound).1
  refine ⟨_, _, get?_msgSend (by simp only [List.mem_cons]; tauto), get?_msgSend (by simp),
    fun receiver cls _ => ?_⟩
  have hs' : Sound (withReceiver receiver s) := ⟨hs.tables, hs.memory⟩
  have hsend : effect (msgSend p (withReceiver receiver s)) =
      match s.2.mem.readCstr (s.2.cpu.arg 1) 256 with
      | .ok sel => if sel = "" then .ok (s.1, 0) else replied p s receiver (.ofSelector sel)
      | .error _ => .ok (s.1, 0) := by
    rw [effect_msgSend hs', withReceiver, CpuContext.arg_setRet]
    rfl
  rw [hsend, effect_msgSend hs]
  cases s.2.mem.readCstr (s.2.cpu.arg 1) 256 with
  | error e => simp
  | ok sel =>
    by_cases hsel : sel = ""
    · simp [hsel]
    · simp only [if_neg hsel, replied_eq_iff hs, Except.ok.injEq]
      exact ⟨fun h _ heq _ => heq ▸ h, fun h => h sel rfl hsel⟩

/-! ## A structure of an instance and its class -/

/-- The structure, and the selectors `init` and `retainCount` behind it. -/
def superBytes : List U8 :=
  toLeBytes64 0x120000010 ++ toLeBytes64 0x120000000 ++
    [0x69, 0x6e, 0x69, 0x74, 0, 0x72, 0x65, 0x74, 0x61, 0x69, 0x6e, 0x43, 0x6f, 0x75, 0x6e, 0x74, 0]

/-- The registers for a message to `super` with the selector at `sel`. -/
def superCpu (sel : U64) : CpuContext :=
  .entry 0 0 ![0x120000100, sel, 0, 0]

theorem exists_super : ∃ s₀ rt m, Fresh .release s₀ ∧
    (∀ cpu, Session .release s₀ (rt, ⟨cpu, m⟩)) ∧ HoldsSuper m 0x120000100 0x120000010 0x120000000 ∧
    m.readCstr 0x120000110 256 = .ok "init" ∧ m.readCstr 0x120000115 256 = .ok "retainCount" ∧
    rt.reportedAt 0x120000100 = rt.reportedAt 0x120000010 := by
  have hrun : (GuestMemory.new .release 0x120000000 0x4000).okAnd (fun _ m₀ =>
      (getOrCreateClass .release "NSObject" (ObjcRuntime.new, ⟨CpuContext.default, m₀⟩)).okAnd
        fun _ s => (allocVia .release 0x120000000 s).okAnd fun _ s₁ =>
          (GuestMemory.write 0x120000100 superBytes s₁.2.mem).okAnd fun _ m =>
            m.readU64 0x120000100 = .ok 0x120000010 ∧ m.readU64 0x120000108 = .ok 0x120000000 ∧
              m.readCstr 0x120000110 256 = .ok "init" ∧
              m.readCstr 0x120000115 256 = .ok "retainCount" ∧
              s₁.1.reportedAt 0x120000100 = s₁.1.reportedAt 0x120000010) = true := by
    decide
  obtain ⟨_, m₀, hnew, hrun⟩ := Outcome.okAnd_iff.1 hrun
  obtain ⟨cls, s, hclass, hrun⟩ := Outcome.okAnd_iff.1 hrun
  obtain ⟨obj, s₁, halloc, hrun⟩ := Outcome.okAnd_iff.1 hrun
  obtain ⟨_, m, hwrite, hrun⟩ := Outcome.okAnd_iff.1 hrun
  obtain ⟨hreceiver, hcls, hinit, hcount, hreported⟩ := of_decide_eq_true hrun
  have hfresh : Fresh .release (ObjcRuntime.new, ⟨CpuContext.default, m₀⟩) := ⟨rfl, _, _, hnew⟩
  have hfirst : SessionStep .release (ObjcRuntime.new, ⟨CpuContext.default, m₀⟩) s :=
    .call (.getOrCreateClass "NSObject") (by
      change ((getOrCreateClass .release "NSObject" >>= fun _ => pure ()) _).state? = _
      rw [Prog.bind_apply, hclass]
      rfl)
  have hsecond : SessionStep .release s s₁ :=
    .call (.allocVia 0x120000000) (by
      change (allocVia .release 0x120000000 s).state? = _
      rw [halloc]
      rfl)
  have hs₁ := (hsecond.keeps (hfirst.keeps hfresh.sound).1).1
  have hheap := (hs₁.memory.flat_of_write hwrite).2.2
  refine ⟨_, s₁.1, m, hfresh, fun cpu => ?_, ⟨hreceiver, hcls⟩, hinit, hcount, hreported⟩
  refine .tail (.tail (.single hfirst) hsecond)
    (.guest rfl (fun h => h.of_write hwrite) ?_ ?_)
  · rw [hheap]
  · rw [hheap]
    exact id

/-- A structure has no count, and its new receiver a count of one : `retainCount` is one. -/
theorem super_send_retainCount : ∃ s super send,
    (installAll .release).get? "objc_msgSendSuper" = some super ∧
    (installAll .release).get? "objc_msgSend" = some send ∧
    HoldsSuper s.2.mem (s.2.cpu.arg 0) 0x120000010 0x120000000 ∧
    s.2.mem.readCstr (s.2.cpu.arg 1) 256 = .ok "retainCount" ∧
    effect (super s) = effect (send (withReceiver 0x120000010 s)) := by
  obtain ⟨s₀, rt, m, hfresh, hrun, hsuper, -, hsel, hreported⟩ := exists_super
  obtain ⟨super, send, hget, hget', hiff⟩ := super_send_iff .release s₀ _ "objc_msgSendSuper"
    hfresh (hrun (superCpu 0x120000115)) (.inl rfl)
  refine ⟨(rt, ⟨superCpu 0x120000115, m⟩), super, send, hget, hget', hsuper, hsel,
    (hiff _ _ hsuper).2 fun sel hread _ => ?_⟩
  obtain rfl := Except.ok.inj (hsel.symm.trans hread)
  have hmessage : Message.ofSelector "retainCount" = .retainCount := by decide
  rw [hmessage]
  exact hreported

/-- `[super init]` returns the address of the structure. -/
theorem super_init_structure : ∃ s₀ s super send, Fresh .release s₀ ∧ Session .release s₀ s ∧
    (installAll .release).get? "objc_msgSendSuper" = some super ∧
    (installAll .release).get? "objc_msgSend" = some send ∧
    HoldsSuper s.2.mem (s.2.cpu.arg 0) 0x120000010 0x120000000 ∧
    s.2.mem.readCstr (s.2.cpu.arg 1) 256 = .ok "init" ∧
    effect (super s) = .ok (s.1, 0x120000100) ∧
    effect (send (withReceiver 0x120000010 s)) = .ok (s.1, 0x120000010) := by
  obtain ⟨s₀, rt, m, hfresh, hrun, hsuper, hsel, -, -⟩ := exists_super
  have hs : ∀ cpu, Sound (rt, ⟨cpu, m⟩) := fun cpu => (keeps_of_session (hrun cpu) hfresh.sound).1
  have hne : ("init" : String) ≠ "" := by decide
  have hmessage : Message.ofSelector "init" = .init := by decide
  refine ⟨s₀, (rt, ⟨superCpu 0x120000110, m⟩), _, _, hfresh, hrun _, get?_msgSend (by simp),
    get?_msgSend (by simp), hsuper, hsel, ?_, ?_⟩
  · rw [effect_msgSend (hs _)]
    simp only [show (superCpu 0x120000110).arg 1 = 0x120000110 from rfl, hsel, if_neg hne, hmessage]
    rfl
  · change effect (msgSend .release (rt, ⟨(superCpu 0x120000110).setRet 0x120000010, m⟩)) = _
    rw [effect_msgSend (hs _)]
    simp only [show ((superCpu 0x120000110).setRet 0x120000010).arg 1 = 0x120000110 from rfl, hsel,
      if_neg hne, hmessage]
    rfl

end IosEmu.ObjcRuntime
