import IosEmu.HeapContract

/-!
# Retain counts

An instance is retained and released by messages, and by calls of `objc_retain` and `objc_release`.
Only the messages reach the table of counts : `objcRetain` and `objcRelease` answer, and leave the
runtime alone. So along every run the count of an instance is one more than the balance of its
messages, and it is one more than the balance of everything exactly if the calls of the functions
are balanced (`retain_count_iff`).
-/

open SysLib

namespace IosEmu.ObjcRuntime

open ShimM

/-! ## Runs -/

/-- How an instance is retained or released. -/
inductive Interface
  | message
  | function
  deriving DecidableEq

/-- What is done to the count of an instance. -/
inductive Counting
  | retain
  | release
  deriving DecidableEq

namespace Counting

def selector : Counting → String
  | .retain => "retain"
  | .release => "release"

/-- The function that does it. -/
def shim : Counting → ShimM Dispatch
  | .retain => Frameworks.ObjcRt.objcRetain
  | .release => Frameworks.ObjcRt.objcRelease

def amount : Counting → ℤ
  | .retain => 1
  | .release => -1

end Counting

/-- A retain or release of an object. -/
structure CountEvent where
  via : Interface
  op : Counting
  obj : U64

/-- The guest has set up the call : the object is the first argument, and the selector of a message
the second. -/
def CountEvent.Sent (e : CountEvent) (s : ObjcRuntime × CallContext) : Prop :=
  s.2.cpu.arg 0 = e.obj ∧
    (e.via = .message → s.2.mem.readCstr (s.2.cpu.arg 1) 256 = .ok e.op.selector)

def CountEvent.run (p : Profile) (e : CountEvent) : ShimM Dispatch :=
  match e.via with
  | .message => msgSend p
  | .function => e.op.shim

/-- A step of a run, with the retain or release it performs. Messages of other selectors, the other
calls of the runtime and the guest in between perform none. -/
inductive LifeStep (p : Profile) :
    List CountEvent → ObjcRuntime × CallContext → ObjcRuntime × CallContext → Prop
  | count (e : CountEvent) {s s' : ObjcRuntime × CallContext} {d : Dispatch} (hsent : e.Sent s)
      (h : e.run p s = .ok d s') : LifeStep p [e] s s'
  | call (c : Call) {s s' : ObjcRuntime × CallContext}
      (hother : ∀ op : Counting, c = .msgSend →
        s.2.mem.readCstr (s.2.cpu.arg 1) 256 ≠ .ok op.selector)
      (h : (c.run p s).state? = some s') : LifeStep p [] s s'
  | guest {s s' : ObjcRuntime × CallContext} (hrt : s'.1 = s.1)
      (hinv : s.2.mem.Inv → s'.2.mem.Inv)
      (hheap : s.2.mem.heap.cursor.toNat ≤ s'.2.mem.heap.cursor.toNat)
      (hready : s.2.mem.heap.Ready → s'.2.mem.heap.Ready) : LifeStep p [] s s'

/-- A run, with the retains and releases in their order. -/
inductive LifeRun (p : Profile) :
    List CountEvent → ObjcRuntime × CallContext → ObjcRuntime × CallContext → Prop
  | refl (s : ObjcRuntime × CallContext) : LifeRun p [] s s
  | head {es rest : List CountEvent} {s s₁ s' : ObjcRuntime × CallContext}
      (hstep : LifeStep p es s s₁) (hrest : LifeRun p rest s₁ s') : LifeRun p (es ++ rest) s s'

/-- Retains less releases of an object. -/
def balance (obj : U64) (events : List CountEvent) : ℤ :=
  ((events.filter fun e => e.obj = obj).map fun e => e.op.amount).sum

/-- The ones that go through an interface. -/
def throughOnly (via : Interface) (events : List CountEvent) : List CountEvent :=
  events.filter fun e => e.via = via

@[simp] theorem balance_nil (obj : U64) : balance obj [] = 0 :=
  rfl

theorem balance_cons (obj : U64) (e : CountEvent) (events : List CountEvent) :
    balance obj (e :: events) = (if e.obj = obj then e.op.amount else 0) + balance obj events := by
  unfold balance
  split_ifs with h <;> simp [h]

@[simp] theorem balance_append (obj : U64) (es es' : List CountEvent) :
    balance obj (es ++ es') = balance obj es + balance obj es' := by
  simp [balance]

/-- Every event goes through one of the two interfaces. -/
theorem balance_interfaces (obj : U64) (events : List CountEvent) :
    balance obj events =
      balance obj (throughOnly .message events) + balance obj (throughOnly .function events) := by
  induction events with
  | nil => rfl
  | cons e events ih =>
    obtain ⟨via, op, o⟩ := e
    cases via <;> simp only [throughOnly, List.filter_cons, decide_true, if_true, balance_cons, ih,
      reduceCtorEq, decide_false, Bool.false_eq_true, if_false]
    all_goals ring

/-! ## Calls that do not count -/

/-- The tables are kept, and with them the counts of the instances. -/
def KeepsCounts (s s' : ObjcRuntime × CallContext) : Prop :=
  Keeps s s' ∧ (Sound s → ∀ o i, s.1.instanceClass.get? o = some i →
    s'.1.retainCounts.get? o = s.1.retainCounts.get? o)

instance : IsPreorder (ObjcRuntime × CallContext) KeepsCounts where
  refl s := ⟨refl_of Keeps s, fun _ _ _ _ => rfl⟩
  trans _ _ _ h h' := by
    refine ⟨trans_of Keeps h.1 h'.1, fun hs o i ho => ?_⟩
    obtain ⟨hs', hext⟩ := h.1 hs
    rw [h'.2 hs' o i (hext.instances ho), h.2 hs o i ho]

section Calls

variable {p : Profile} {s s' : ObjcRuntime × CallContext}

/-- A new object is none of the instances. -/
theorem Sound.ne_next (hs : Sound s) {o : U64} {i : ℕ} (ho : s.1.instanceClass.get? o = some i) :
    o ≠ BitVec.ofNat 64 s.2.mem.heap.next := by
  rintro rfl
  have hbelow := hs.tables.below (Or.inr ho)
  have hle := s.2.mem.heap.next_spec.1
  rw [BumpAllocator.toNat_next hs.tables.ready] at hbelow
  omega

theorem keepsCounts_allocInstance (p : Profile) (classAddr : U64) :
    (allocInstance p classAddr).Steps KeepsCounts := by
  intro s s' h
  refine ⟨keeps_allocInstance p classAddr s s' h, fun hs o i ho => ?_⟩
  rw [allocInstance_apply] at h
  cases hindex : s.1.classIndexByAddr.get? classAddr with
  | none =>
    rw [hindex] at h
    obtain rfl := Option.some.inj h
    rfl
  | some index =>
    obtain ⟨r, s₁, hplace, hcases⟩ := places_place (p := p) hs.tables.ready (fun _ => classAddr)
      (fun obj => addInstance obj index)
    simp only [hindex, hplace] at h
    obtain rfl := Option.some.inj h
    cases hcases with
    | exhausted => rfl
    | refused => rfl
    | placed m => exact SortedMap.get?_insert_of_ne _ _ (hs.ne_next ho)

theorem retainCounts_addClass (rt : ObjcRuntime) (name : String) (addr : U64) :
    (addClass name addr rt).retainCounts = rt.retainCounts := by
  unfold addClass classSlot
  cases rt.classIndex name <;> rfl

theorem keepsCounts_getOrCreateClass (p : Profile) (name : String) :
    (getOrCreateClass p name).Steps KeepsCounts := by
  intro s s' h
  refine ⟨keeps_getOrCreateClass p name s s' h, fun hs o i ho => ?_⟩
  rw [getOrCreateClass_apply] at h
  cases hname : s.1.classAddrByName.get? name with
  | some addr =>
    rw [hname] at h
    obtain rfl := Option.some.inj h
    rfl
  | none =>
    obtain ⟨r, s₁, hplace, hcases⟩ := places_place (p := p) hs.tables.ready (classMagic ||| ·)
      (addClass name)
    simp only [hname, hplace] at h
    obtain rfl := Option.some.inj h
    cases hcases with
    | exhausted => rfl
    | refused => rfl
    | placed m => rw [retainCounts_addClass]

theorem retainCounts_preload (rt : ObjcRuntime) (name : String) :
    (rt.preload name).retainCounts = rt.retainCounts := by
  unfold preload
  split_ifs <;> rfl

theorem keepsCounts_preloadRootClasses :
    (modifyRuntime preloadRootClasses).Steps KeepsCounts := by
  intro s s' h
  refine ⟨keeps_preloadRootClasses s s' h, fun _ o i _ => ?_⟩
  obtain rfl := Option.some.inj h
  change ((s.1.preload "NSObject").preload "NSProxy").retainCounts.get? o = _
  rw [retainCounts_preload, retainCounts_preload]

theorem keepsCounts_ret (v : U64) : (ret v).Steps KeepsCounts := by
  intro s s' h
  refine ⟨keeps_ret v s s' h, fun _ o i _ => ?_⟩
  obtain rfl := Option.some.inj h
  rfl

theorem keepsCounts_classOf (obj : U64) : (classOf obj).Steps KeepsCounts := by
  refine Prog.Steps.bind (Prog.steps_get.bind fun _ => Prog.steps_pure _) fun rt => ?_
  cases rt.instanceClass.get? obj with
  | none => exact Prog.steps_pure _
  | some index => exact (Prog.steps_ofChecked _).bind fun _ => Prog.steps_pure _

/-- Only `retain` and `release` count. -/
theorem keepsCounts_receive (p : Profile) (recv : U64) {msg : Message} (hretain : msg ≠ .retain)
    (hrelease : msg ≠ .release) : (receive p recv msg).Steps KeepsCounts := by
  have halloc : (do
      let rt ← runtime
      if (rt.classIndexByAddr.get? recv).isSome then
        let obj ← allocInstance p recv
        return obj.getD 0
      else return 0 : ShimM U64).Steps KeepsCounts := by
    refine Prog.Steps.bind (Prog.steps_get.bind fun _ => Prog.steps_pure _) fun rt => ?_
    split_ifs
    · exact (keepsCounts_allocInstance p recv).bind fun _ => Prog.steps_pure _
    · exact Prog.steps_pure _
  cases msg with
  | alloc => exact halloc
  | new => exact halloc
  | retain => exact absurd rfl hretain
  | release => exact absurd rfl hrelease
  | retainCount =>
    exact (Prog.Steps.bind (Prog.steps_get.bind fun _ => Prog.steps_pure _) fun _ =>
      Prog.steps_pure _)
  | classObject => exact keepsCounts_classOf recv
  | _ => exact Prog.steps_pure _

theorem ofSelector_eq_retain {sel : String} (h : Message.ofSelector sel = .retain) :
    sel = "retain" := by
  unfold Message.ofSelector at h
  split_ifs at h
  assumption

theorem ofSelector_eq_release {sel : String} (h : Message.ofSelector sel = .release) :
    sel = "release" := by
  unfold Message.ofSelector at h
  split_ifs at h
  assumption

theorem keepsCounts_reply (p : Profile) (recv : U64) {sel : EmuResult String}
    (hsel : ∀ op : Counting, sel ≠ .ok op.selector) : (reply p recv sel).Steps KeepsCounts := by
  cases sel with
  | error e => exact Prog.steps_pure _
  | ok sel =>
    simp only [reply]
    split_ifs
    · exact Prog.steps_pure _
    · refine keepsCounts_receive p recv (fun h => hsel .retain ?_) fun h => hsel .release ?_
      · rw [ofSelector_eq_retain h]
        rfl
      · rw [ofSelector_eq_release h]
        rfl

theorem keepsCounts_answer {x : ShimM U64} (h : x.Steps KeepsCounts) :
    (answer x).Steps KeepsCounts :=
  h.bind fun v => (keepsCounts_ret v).bind fun _ => Prog.steps_pure _

theorem keepsCounts_run {c : Call} (hother : ∀ op : Counting, c = .msgSend →
      s.2.mem.readCstr (s.2.cpu.arg 1) 256 ≠ .ok op.selector)
    (h : (c.run p s).state? = some s') : KeepsCounts s s' := by
  cases c with
  | preloadRootClasses => exact keepsCounts_preloadRootClasses s s' h
  | getOrCreateClass name =>
    exact ((keepsCounts_getOrCreateClass p name).bind fun _ => Prog.steps_pure _) s s' h
  | allocVia classAddr =>
    exact ((keepsCounts_allocInstance p classAddr).bind fun _ => keepsCounts_ret _) s s' h
  | msgSend =>
    have hreply := keepsCounts_reply p (s.2.cpu.arg 0) fun op => hother op rfl
    change ((msgSend p >>= fun _ => pure ()) s).state? = some s' at h
    rw [Prog.bind_apply, msgSend_apply, ← Prog.bind_apply] at h
    exact ((keepsCounts_answer hreply).bind fun _ => Prog.steps_pure _) s s' h

/-! ## Calls that count -/

/-- The functions leave the runtime alone. -/
theorem keepsCounts_shim (op : Counting) : op.shim.Steps KeepsCounts := by
  cases op with
  | retain => exact keepsCounts_answer (Prog.steps_get.bind fun _ => Prog.steps_pure _)
  | release => exact keepsCounts_answer (Prog.steps_pure _)

theorem get?_of_countBy {n : BitVec 64} {obj o : U64} (h : countBy p n obj s = .ok () s') :
    s'.1.retainCounts.get? o =
      if o = obj then (s.1.retainCounts.get? o).map (· + n) else s.1.retainCounts.get? o := by
  rw [countBy, runtime_bind] at h
  cases hcount : s.1.retainCounts.get? obj with
  | none =>
    rw [hcount] at h
    obtain ⟨-, rfl⟩ := Outcome.ok.inj h
    split_ifs with ho
    · rw [ho, hcount]
      rfl
    · rfl
  | some c =>
    simp only [hcount] at h
    obtain ⟨c', hc', h⟩ := Prog.ofChecked_bind_eq_ok.1 h
    obtain ⟨-, rfl⟩ := Outcome.ok.inj h
    obtain rfl := Profile.addSigned_eq_ok hc'
    change (s.1.retainCounts.insert obj _).get? o = _
    rw [SortedMap.get?_insert]
    split_ifs with ho
    · rw [ho, hcount]
      rfl
    · rfl

theorem reply_counting (p : Profile) (op : Counting) {recv : U64} (hrecv : recv ≠ 0) :
    ∃ v, reply p recv (.ok op.selector) =
      (countBy p (BitVec.ofInt 64 op.amount) recv >>= fun _ => return v) := by
  cases op with
  | retain =>
    rw [reply, if_neg (not_or.2 ⟨hrecv, by decide⟩), show Message.ofSelector _ = .retain from
      by decide]
    exact ⟨recv, rfl⟩
  | release =>
    rw [reply, if_neg (not_or.2 ⟨hrecv, by decide⟩), show Message.ofSelector _ = .release from
      by decide]
    exact ⟨0, rfl⟩

/-- A message counts for its receiver, if that is not `nil`. -/
theorem get?_of_message {op : Counting} {d : Dispatch} {o : U64} (ho : o ≠ 0)
    (hsel : s.2.mem.readCstr (s.2.cpu.arg 1) 256 = .ok op.selector)
    (h : msgSend p s = .ok d s') :
    s'.1.retainCounts.get? o = if s.2.cpu.arg 0 = o
      then (s.1.retainCounts.get? o).map (· + BitVec.ofInt 64 op.amount)
      else s.1.retainCounts.get? o := by
  rw [msgSend_apply, hsel] at h
  obtain ⟨v, s₁, hreply, rfl⟩ := ok_of_answer h
  change s₁.1.retainCounts.get? o = _
  by_cases hrecv : s.2.cpu.arg 0 = 0
  · rw [reply, if_pos (Or.inl hrecv)] at hreply
    obtain ⟨-, rfl⟩ := Outcome.ok.inj hreply
    rw [hrecv, if_neg (Ne.symm ho)]
  · obtain ⟨w, hw⟩ := reply_counting p op hrecv
    rw [hw] at hreply
    obtain ⟨_, s₂, hcount, hrest⟩ := Prog.bind_eq_ok.1 hreply
    obtain ⟨-, rfl⟩ := Outcome.ok.inj hrest
    rw [get?_of_countBy hcount]
    simp only [eq_comm]

/-- One step adds the message it performs to the count, and no more. -/
theorem LifeStep.counted {events : List CountEvent} {obj : U64} {i : ℕ} {c : BitVec 64}
    (h : LifeStep p events s s') (hs : Sound s) (hobj : obj ≠ 0)
    (hi : s.1.instanceClass.get? obj = some i) (hc : s.1.retainCounts.get? obj = some c) :
    Keeps s s' ∧ s'.1.retainCounts.get? obj =
      some (c + BitVec.ofInt 64 (balance obj (throughOnly .message events))) := by
  have hnone : ∀ {s'}, KeepsCounts s s' → Keeps s s' ∧ s'.1.retainCounts.get? obj =
      some (c + BitVec.ofInt 64 0) := fun hk => ⟨hk.1, by
    rw [hk.2 hs obj i hi, hc, show BitVec.ofInt 64 0 = 0#64 from rfl,
      BitVec.add_zero]⟩
  cases h with
  | guest hrt hinv hheap hready =>
    exact hnone ⟨(SessionStep.guest (p := p) hrt hinv hheap hready).keeps, fun _ o i _ => by
      rw [hrt]⟩
  | call c' hother h => exact hnone (keepsCounts_run hother h)
  | @count e _ _ d hsent h =>
    obtain ⟨via, op, o⟩ := e
    cases via with
    | function => exact hnone (keepsCounts_shim op s s' (by rw [show op.shim s = _ from h]; rfl))
    | message =>
      refine ⟨keeps_msgSend p s s' (by rw [show msgSend p s = _ from h]; rfl), ?_⟩
      rw [get?_of_message hobj (hsent.2 rfl) h, hc]
      obtain rfl : s.2.cpu.arg 0 = o := hsent.1
      rw [throughOnly, List.filter_cons_of_pos (by simp), balance_cons]
      split_ifs <;> simp

/-- A run adds all its messages. -/
theorem LifeRun.counted {events : List CountEvent} {obj : U64} {i : ℕ} {c : BitVec 64}
    (h : LifeRun p events s s') (hs : Sound s) (hobj : obj ≠ 0)
    (hi : s.1.instanceClass.get? obj = some i) (hc : s.1.retainCounts.get? obj = some c) :
    s'.1.retainCounts.get? obj =
      some (c + BitVec.ofInt 64 (balance obj (throughOnly .message events))) := by
  induction h generalizing c with
  | refl s => simpa [throughOnly] using hc
  | head hstep _ ih =>
    obtain ⟨hkeeps, hc'⟩ := hstep.counted hs hobj hi hc
    obtain ⟨hs', hext⟩ := hkeeps hs
    rw [ih hs' (hext.instances hi) hc', throughOnly, throughOnly, throughOnly, List.filter_append,
      balance_append, BitVec.ofInt_add, BitVec.add_assoc]

/-- Sending `retainCount` answers with the count. -/
theorem msgSend_retainCount {obj : U64} {c : BitVec 64} (hobj : obj ≠ 0)
    (hrecv : s.2.cpu.arg 0 = obj)
    (hsel : s.2.mem.readCstr (s.2.cpu.arg 1) 256 = .ok "retainCount")
    (hc : s.1.retainCounts.get? obj = some c) :
    msgSend p s = .ok .handled (s.1, { s.2 with cpu := s.2.cpu.setRet c }) := by
  have hmessage : Message.ofSelector "retainCount" = .retainCount := by
    decide
  rw [msgSend_apply, hsel, hrecv, reply, if_neg (not_or.2 ⟨hobj, by decide⟩), hmessage]
  refine answer_of_ok ?_
  rw [receive, runtime_bind, hc]
  rfl

/-- A new instance is in the tables, and its count is one. -/
theorem count_of_allocInstance {c obj : U64} (hs : Sound s)
    (h : allocInstance p c s = .ok (some obj) s') : s'.1.retainCounts.get? obj = some 1 := by
  rw [allocInstance_apply] at h
  cases hindex : s.1.classIndexByAddr.get? c with
  | none =>
    rw [hindex] at h
    cases (Outcome.ok.inj h).1
  | some index =>
    obtain ⟨r, s₁, hplace, hcases⟩ := places_place (p := p) hs.tables.ready (fun _ => c)
      (fun obj => addInstance obj index)
    simp only [hindex, hplace] at h
    obtain ⟨rfl, rfl⟩ := Outcome.ok.inj h
    cases hcases with
    | placed m => exact SortedMap.get?_insert_self _ _ _

/-- After a run, `retainCount` is one more than the balance of the messages. -/
theorem retainCount_of_run {s₀ s₁ s₂ : ObjcRuntime × CallContext} {c obj : U64}
    {events : List CountEvent} (hnew : Fresh p s₀) (hrun : Session p s₀ s)
    (halloc : allocInstance p c s = .ok (some obj) s₁) (hlife : LifeRun p events s₁ s₂)
    (hrecv : s₂.2.cpu.arg 0 = obj)
    (hsel : s₂.2.mem.readCstr (s₂.2.cpu.arg 1) 256 = .ok "retainCount") :
    ∃ s₃, msgSend p s₂ = .ok .handled s₃ ∧
      s₃.2.cpu.arg 0 = BitVec.ofInt 64 (1 + balance obj (throughOnly .message events)) := by
  have hs := (keeps_of_session hrun hnew.sound).1
  have hs₁ := (keeps_allocInstance p c s s₁ (by rw [halloc]; rfl) hs).1
  obtain ⟨hobj, -, i, -, hi, -, -⟩ := spec_of_allocInstance hs halloc
  have hcount := hlife.counted hs₁ hobj hi (count_of_allocInstance hs halloc)
  refine ⟨_, msgSend_retainCount hobj hrecv hsel hcount, ?_⟩
  rw [CpuContext.arg_setRet, BitVec.ofInt_add]
  rfl

theorem ofInt_add_eq_iff (x y : ℤ) :
    BitVec.ofInt 64 (x + y) = BitVec.ofInt 64 x ↔ (2 ^ 64 : ℤ) ∣ y := by
  rw [BitVec.ofInt_add, ← BitVec.add_zero (BitVec.ofInt 64 x), BitVec.add_assoc,
    BitVec.add_right_inj, BitVec.zero_add, ← BitVec.toInt_inj, BitVec.toInt_ofInt,
    BitVec.toInt_zero, ← Int.dvd_iff_bmod_eq_zero (a := 2 ^ 64)]
  rfl

end Calls

/-- Along every run, `retainCount` answers with one more than the balance of all retains and
releases exactly if the calls of the functions are balanced. -/
theorem retain_count_iff (p : Profile) (s₀ s s₁ s₂ : ObjcRuntime × CallContext) (c obj : U64)
    (events : List CountEvent) (hnew : Fresh p s₀) (hrun : Session p s₀ s)
    (halloc : allocInstance p c s = .ok (some obj) s₁) (hlife : LifeRun p events s₁ s₂)
    (hrecv : s₂.2.cpu.arg 0 = obj)
    (hsel : s₂.2.mem.readCstr (s₂.2.cpu.arg 1) 256 = .ok "retainCount") :
    ∃ s₃, msgSend p s₂ = .ok .handled s₃ ∧
      (s₃.2.cpu.arg 0 = BitVec.ofInt 64 (1 + balance obj events) ↔
        (2 ^ 64 : ℤ) ∣ balance obj (throughOnly .function events)) := by
  obtain ⟨s₃, hsend, hret⟩ := retainCount_of_run hnew hrun halloc hlife hrecv hsel
  refine ⟨s₃, hsend, ?_⟩
  rw [hret, balance_interfaces obj events, ← add_assoc, eq_comm, ofInt_add_eq_iff]

/-! ## An instance that is retained by a call -/

/-- The selectors `retain` and `retainCount`. -/
def lifeSelectors : List U8 :=
  [0x72, 0x65, 0x74, 0x61, 0x69, 0x6e, 0, 0x72, 0x65, 0x74, 0x61, 0x69, 0x6e, 0x43, 0x6f, 0x75,
    0x6e, 0x74, 0]

/-- The registers for a call on the instance, with the selector `retainCount`. -/
def lifeCpu : CpuContext :=
  .entry 0 0 ![0x120000010, 0x120000107, 0, 0]

theorem lifeStep_retain (rt : ObjcRuntime) (m : GuestMemory) :
    LifeStep .release [⟨.function, .retain, 0x120000010⟩] (rt, ⟨lifeCpu, m⟩)
      (rt, ⟨lifeCpu.setRet 0x120000010, m⟩) :=
  .count ⟨.function, .retain, 0x120000010⟩ ⟨rfl, nofun⟩ rfl

theorem lifeStep_release (rt : ObjcRuntime) (m : GuestMemory) :
    LifeStep .release [⟨.function, .release, 0x120000010⟩] (rt, ⟨lifeCpu.setRet 0x120000010, m⟩)
      (rt, ⟨(lifeCpu.setRet 0x120000010).setRet 0, m⟩) :=
  .count ⟨.function, .release, 0x120000010⟩ ⟨rfl, nofun⟩ rfl

/-- The state with the instance, and the memory with the selectors. -/
theorem exists_life : ∃ s₀ s s₁ m, Fresh .release s₀ ∧ Session .release s₀ s ∧
    allocInstance .release 0x120000000 s = .ok (some 0x120000010) s₁ ∧
    (∀ cpu cpu', LifeStep .release [] (s₁.1, ⟨cpu, m⟩) (s₁.1, ⟨cpu', m⟩)) ∧
    LifeStep .release [] s₁ (s₁.1, ⟨lifeCpu, m⟩) ∧
    m.readCstr 0x120000107 256 = .ok "retainCount" := by
  have hrun : (GuestMemory.new .release 0x120000000 0x4000).okAnd (fun _ m₀ =>
      (getOrCreateClass .release "NSObject" (ObjcRuntime.new, ⟨CpuContext.default, m₀⟩)).okAnd
        fun _ s => (allocInstance .release 0x120000000 s).okAnd fun obj s₁ =>
          obj = some 0x120000010 ∧ (GuestMemory.write 0x120000100 lifeSelectors s₁.2.mem).okAnd
            fun _ m => m.readCstr 0x120000107 256 = .ok "retainCount") = true := by
    decide
  obtain ⟨_, m₀, hnew, hrun⟩ := Outcome.okAnd_iff.1 hrun
  obtain ⟨cls, s, hclass, hrun⟩ := Outcome.okAnd_iff.1 hrun
  obtain ⟨obj, s₁, halloc, hrun⟩ := Outcome.okAnd_iff.1 hrun
  obtain ⟨rfl, hmem⟩ := of_decide_eq_true hrun
  obtain ⟨_, m, hwrite, hsel⟩ := Outcome.okAnd_iff.1 hmem
  have hfresh : Fresh .release (ObjcRuntime.new, ⟨CpuContext.default, m₀⟩) := ⟨rfl, _, _, hnew⟩
  have hsession : Session .release (ObjcRuntime.new, ⟨CpuContext.default, m₀⟩) s :=
    .single (.call (.getOrCreateClass "NSObject") (by
      change ((getOrCreateClass .release "NSObject" >>= fun _ => pure ()) _).state? = _
      rw [Prog.bind_apply, hclass]
      rfl))
  have hs := (keeps_of_session hsession hfresh.sound).1
  have hs₁ := (keeps_allocInstance _ _ s s₁ (by rw [halloc]; rfl) hs).1
  have hheap := (hs₁.memory.flat_of_write hwrite).2.2
  refine ⟨_, s, s₁, m, hfresh, hsession, halloc, fun cpu cpu' => ?_, ?_, of_decide_eq_true hsel⟩
  · exact .guest rfl id le_rfl id
  · refine .guest rfl (fun h => h.of_write hwrite) ?_ ?_
    · rw [hheap]
    · rw [hheap]
      exact id

/-- Calls that are balanced leave the count as it is expected. -/
theorem retain_count_balanced : ∃ s₁ s₂ s₃ obj,
    LifeRun .release [⟨.function, .retain, obj⟩, ⟨.function, .release, obj⟩] s₁ s₂ ∧
    msgSend .release s₂ = .ok .handled s₃ ∧ s₃.2.cpu.arg 0 = 1 := by
  obtain ⟨s₀, s, s₁, m, hfresh, hsession, halloc, hguest, hstart, hsel⟩ := exists_life
  have hlife : LifeRun .release
      [⟨.function, .retain, 0x120000010⟩, ⟨.function, .release, 0x120000010⟩] s₁
      (s₁.1, ⟨lifeCpu, m⟩) :=
    .head hstart (.head (lifeStep_retain _ _) (.head (lifeStep_release _ _)
      (.head (hguest _ lifeCpu) (.refl _))))
  obtain ⟨s₃, hsend, hiff⟩ := retain_count_iff .release s₀ s s₁ _ _ _ _ hfresh hsession halloc
    hlife rfl hsel
  exact ⟨s₁, _, s₃, _, hlife, hsend, hiff.2 (by decide)⟩

/-- After a call of `objc_retain` alone, `retainCount` is one too low. -/
theorem objc_retain_not_counted : ∃ s₀ s s₁ s₂ s₃ obj, Fresh .release s₀ ∧
    Session .release s₀ s ∧ allocInstance .release 0x120000000 s = .ok (some obj) s₁ ∧
    LifeRun .release [⟨.function, .retain, obj⟩] s₁ s₂ ∧ s₂.2.cpu.arg 0 = obj ∧
    s₂.2.mem.readCstr (s₂.2.cpu.arg 1) 256 = .ok "retainCount" ∧
    msgSend .release s₂ = .ok .handled s₃ ∧
    s₃.2.cpu.arg 0 ≠ BitVec.ofInt 64 (1 + balance obj [⟨.function, .retain, obj⟩]) := by
  obtain ⟨s₀, s, s₁, m, hfresh, hsession, halloc, hguest, hstart, hsel⟩ := exists_life
  have hlife : LifeRun .release [⟨.function, .retain, 0x120000010⟩] s₁ (s₁.1, ⟨lifeCpu, m⟩) :=
    .head hstart (.head (lifeStep_retain _ _) (.head (hguest _ lifeCpu) (.refl _)))
  obtain ⟨s₃, hsend, hret⟩ := retainCount_of_run hfresh hsession halloc hlife rfl hsel
  refine ⟨s₀, s, s₁, _, s₃, _, hfresh, hsession, halloc, hlife, rfl, hsel, hsend, ?_⟩
  rw [hret]
  decide

end IosEmu.ObjcRuntime
