import IosEmu.BumpHeap
import IosEmu.Objc
import IosEmu.Safe

/-!
# The tables of the Objective-C runtime agree

The runtime keeps a table of classes and four maps, and each call changes some of them. What
relates them is `Consistent` : names are distinct, the two maps of class objects are inverse to
each other through the table, an instance's class has a class object, and every object lies
below the heap's cursor. A new object starts at or above the cursor, so it is in no map yet and
nothing that is known changes (`Extends`). A call that fails in the middle, with the heap full
or the header not writable, has not touched the tables.

The class of an instance goes from the instance to an index, a name and an address; along any
run after its allocation this is the class object it was allocated from (`session_tables`).
-/

open SysLib

namespace IosEmu.ObjcRuntime

open ShimM

/-! ## Placing an object -/

section Place

variable {p : Profile} {s s' : ObjcRuntime × CallContext}

/-- Take a header from the heap, store a word in it and enter it into the tables. Both kinds of
objects are made so. -/
def place (p : Profile) (word : U64 → U64) (enter : U64 → ObjcRuntime → ObjcRuntime) :
    ShimM (Option U64) := do
  match ← onMem (GuestMemory.heapAlloc p objHeaderSize 16) with
  | .error _ => return none
  | .ok addr =>
    match ← onMem (GuestMemory.writeU64 addr (word addr)) with
    | .error _ => return none
    | .ok _ =>
      modifyRuntime (enter addr)
      return some addr

/-- What placing an object can come to. -/
inductive Places (word : U64 → U64) (enter : U64 → ObjcRuntime → ObjcRuntime)
    (s : ObjcRuntime × CallContext) : Option U64 → ObjcRuntime × CallContext → Prop
  | exhausted : ¬s.2.mem.heap.Fits objHeaderSize → Places word enter s none s
  | refused (e : EmuError) : s.2.mem.heap.Fits objHeaderSize →
      GuestMemory.writeU64 (BitVec.ofNat 64 s.2.mem.heap.next)
        (word (BitVec.ofNat 64 s.2.mem.heap.next))
        { s.2.mem with heap := s.2.mem.heap.after objHeaderSize } =
          .err e { s.2.mem with heap := s.2.mem.heap.after objHeaderSize } →
      Places word enter s none
        (s.1, { s.2 with mem := { s.2.mem with heap := s.2.mem.heap.after objHeaderSize } })
  | placed (m : GuestMemory) : s.2.mem.heap.Fits objHeaderSize →
      GuestMemory.writeU64 (BitVec.ofNat 64 s.2.mem.heap.next)
        (word (BitVec.ofNat 64 s.2.mem.heap.next))
        { s.2.mem with heap := s.2.mem.heap.after objHeaderSize } = .ok () m →
      Places word enter s (some (BitVec.ofNat 64 s.2.mem.heap.next))
        (enter (BitVec.ofNat 64 s.2.mem.heap.next) s.1, { s.2 with mem := m })

theorem onMem_of_fits {size : U64} (hready : s.2.mem.heap.Ready) (hfits : s.2.mem.heap.Fits size) :
    onMem (GuestMemory.heapAlloc p size 16) s =
      .ok (.ok (BitVec.ofNat 64 s.2.mem.heap.next))
        (s.1, { s.2 with mem := { s.2.mem with heap := s.2.mem.heap.after size } }) := by
  simp only [onMem, Prog.attempt, Prog.zoom, GuestMemory.heapAlloc_of_fits hready hfits]

theorem onMem_of_not_fits {size : U64} (hready : s.2.mem.heap.Ready)
    (hfits : ¬s.2.mem.heap.Fits size) :
    ∃ e, onMem (GuestMemory.heapAlloc p size 16) s = .ok (.error e) s := by
  obtain ⟨e, he⟩ := GuestMemory.heapAlloc_of_not_fits (p := p) hready hfits
  refine ⟨e, ?_⟩
  simp only [onMem, Prog.attempt, Prog.zoom, he]

theorem places_place (hready : s.2.mem.heap.Ready) (word : U64 → U64)
    (enter : U64 → ObjcRuntime → ObjcRuntime) :
    ∃ r s', place p word enter s = .ok r s' ∧ Places word enter s r s' := by
  by_cases hfits : s.2.mem.heap.Fits objHeaderSize
  · have halloc := onMem_of_fits (p := p) hready hfits
    rcases hwrite : GuestMemory.writeU64 (BitVec.ofNat 64 s.2.mem.heap.next)
        (word (BitVec.ofNat 64 s.2.mem.heap.next))
        { s.2.mem with heap := s.2.mem.heap.after objHeaderSize } with ⟨u, m⟩ | ⟨e, m⟩ | q
    · refine ⟨_, _, ?_, .placed m hfits hwrite⟩
      simp only [place, Prog.bind_apply, halloc]
      simp only [onMem, Prog.attempt, Prog.zoom, hwrite]
      rfl
    · obtain rfl := GuestMemory.write_failsClean _ _ _ _ _ hwrite
      refine ⟨_, _, ?_, .refused e hfits hwrite⟩
      simp only [place, Prog.bind_apply, halloc]
      simp only [onMem, Prog.attempt, Prog.zoom, hwrite]
      rfl
    · exact absurd hwrite (GuestMemory.write_ne_panic _ _ _ _)
  · obtain ⟨e, he⟩ := onMem_of_not_fits (p := p) hready hfits
    refine ⟨none, s, ?_, .exhausted hfits⟩
    simp only [place, Prog.bind_apply, he]
    rfl

end Place

theorem runtime_bind {α : Type} (f : ObjcRuntime → ShimM α) (s : ObjcRuntime × CallContext) :
    (runtime >>= f) s = f s.1 s :=
  rfl

/-- A class that is known is found; another one is placed. -/
theorem getOrCreateClass_apply (p : Profile) (name : String) (s : ObjcRuntime × CallContext) :
    getOrCreateClass p name s =
      match s.1.classAddrByName.get? name with
      | some addr => .ok (some addr) s
      | none => place p (classMagic ||| ·) (addClass name) s := by
  rw [getOrCreateClass, runtime_bind]
  cases s.1.classAddrByName.get? name <;> rfl

/-- An instance of a class object is placed; nothing else has instances. -/
theorem allocInstance_apply (p : Profile) (classAddr : U64) (s : ObjcRuntime × CallContext) :
    allocInstance p classAddr s =
      match s.1.classIndexByAddr.get? classAddr with
      | none => .ok none s
      | some index => place p (fun _ => classAddr) (fun obj => addInstance obj index) s := by
  rw [allocInstance, runtime_bind]
  cases s.1.classIndexByAddr.get? classAddr <;> rfl

/-- The answer to a message, with the receiver and what is read of its selector. -/
def reply (p : Profile) (recv : U64) : EmuResult String → ShimM U64
  | .ok sel => if recv = 0 ∨ sel = "" then return 0 else receive p recv (.ofSelector sel)
  | .error _ => return 0

theorem answer_congr {x y : ShimM U64} {s : ObjcRuntime × CallContext} (h : x s = y s) :
    answer x s = answer y s := by
  simp only [answer, Prog.bind_apply, h]

theorem msgSend_apply (p : Profile) (s : ObjcRuntime × CallContext) :
    msgSend p s = answer (reply p (s.2.cpu.arg 0) (s.2.mem.readCstr (s.2.cpu.arg 1) 256)) s := by
  refine answer_congr ?_
  simp only [arg, readMem, Prog.bind_apply, Prog.get_apply, Prog.pure_apply]
  by_cases hrecv : s.2.cpu.arg 0 = 0
  · rw [if_pos hrecv]
    cases s.2.mem.readCstr (s.2.cpu.arg 1) 256 <;> simp [hrecv, reply]
  · rw [if_neg hrecv, Prog.bind_apply, Prog.bind_apply, Prog.get_apply]
    simp only [Prog.pure_apply]
    cases s.2.mem.readCstr (s.2.cpu.arg 1) 256 with
    | ok sel => simp only [reply, hrecv, false_or]
    | error e => rfl

/-! ## The tables -/

/-- What relates the tables to each other and to the heap. -/
structure Consistent (rt : ObjcRuntime) (heap : BumpAllocator) : Prop where
  ready : heap.Ready
  names : (rt.classes.map ClassInfo.name).Nodup
  indexed : ∀ {a i}, rt.classIndexByAddr.get? a = some i →
    ∃ c, rt.classes[i]? = some c ∧ rt.classAddrByName.get? c.name = some a
  named : ∀ {n a}, rt.classAddrByName.get? n = some a →
    ∃ i c, rt.classIndexByAddr.get? a = some i ∧ rt.classes[i]? = some c ∧ c.name = n
  instances : ∀ {o i}, rt.instanceClass.get? o = some i → ∃ a, rt.classIndexByAddr.get? a = some i
  apart : ∀ {a i}, rt.classIndexByAddr.get? a = some i → rt.instanceClass.get? a = none
  below : ∀ {a i}, rt.classIndexByAddr.get? a = some i ∨ rt.instanceClass.get? a = some i →
    a.toNat + 16 ≤ heap.cursor.toNat

/-- What is known stays known. -/
structure Extends (rt rt' : ObjcRuntime) : Prop where
  classes : ∀ {i : ℕ} {c}, rt.classes[i]? = some c → rt'.classes[i]? = some c
  addrs : ∀ {n a}, rt.classAddrByName.get? n = some a → rt'.classAddrByName.get? n = some a
  instances : ∀ {o i}, rt.instanceClass.get? o = some i → rt'.instanceClass.get? o = some i

instance : IsPreorder ObjcRuntime Extends where
  refl _ := ⟨fun h => h, fun h => h, fun h => h⟩
  trans _ _ _ h h' := ⟨fun hc => h'.classes (h.classes hc), fun ha => h'.addrs (h.addrs ha),
    fun hi => h'.instances (h.instances hi)⟩

section Tables

variable {rt : ObjcRuntime} {heap : BumpAllocator}

theorem classIndex_eq_some {name : String} {i : ℕ} (h : rt.classIndex name = some i) :
    ∃ c, rt.classes[i]? = some c ∧ c.name = name := by
  obtain ⟨hi, hname, -⟩ := List.findIdx?_eq_some_iff_getElem.1 h
  exact ⟨rt.classes[i], List.getElem?_eq_getElem hi, by simpa using hname⟩

theorem classIndex_eq_none {name : String} (h : rt.classIndex name = none) :
    name ∉ rt.classes.map ClassInfo.name := by
  intro hmem
  obtain ⟨c, hc, hname⟩ := List.mem_map.1 hmem
  have := List.findIdx?_eq_none_iff.1 h c hc
  simp [hname] at this

/-- The slot of a class : its index has its name, and no other slot changes. -/
theorem classSlot_spec (hnames : (rt.classes.map ClassInfo.name).Nodup) (name : String) :
    ∃ c, (rt.classSlot name).2.classes[(rt.classSlot name).1]? = some c ∧ c.name = name ∧
      ((rt.classSlot name).2.classes.map ClassInfo.name).Nodup ∧
      (∀ {i : ℕ} {c}, rt.classes[i]? = some c → (rt.classSlot name).2.classes[i]? = some c) ∧
      (rt.classSlot name).2 = { rt with classes := (rt.classSlot name).2.classes } := by
  unfold classSlot
  cases hindex : rt.classIndex name with
  | some index =>
    obtain ⟨c, hc, hname⟩ := classIndex_eq_some hindex
    exact ⟨c, hc, hname, hnames, fun h => h, rfl⟩
  | none =>
    refine ⟨_, List.getElem?_concat_length, rfl, ?_, fun {i c} hi => ?_, rfl⟩
    · rw [List.map_append, List.nodup_append']
      refine ⟨hnames, by simp, ?_⟩
      simpa using classIndex_eq_none hindex
    · rw [List.getElem?_append_left (List.getElem?_eq_some_iff.1 hi).1]
      exact hi

/-- An address above the cursor is in no table. -/
theorem Consistent.fresh (h : Consistent rt heap) {a : U64} (ha : heap.cursor.toNat ≤ a.toNat) :
    rt.classIndexByAddr.get? a = none ∧ rt.instanceClass.get? a = none := by
  constructor
  · rw [Option.eq_none_iff_forall_not_mem]
    intro i hi
    have := h.below (Or.inl hi)
    omega
  · rw [Option.eq_none_iff_forall_not_mem]
    intro i hi
    have := h.below (Or.inr hi)
    omega

/-- The heap after a header has been taken from it. -/
theorem ready_after (hready : heap.Ready) (hfits : heap.Fits objHeaderSize) :
    (BitVec.ofNat 64 heap.next).toNat = heap.next ∧ heap.cursor.toNat ≤ heap.next ∧
      (heap.after objHeaderSize).cursor.toNat = heap.next + 16 ∧
      (heap.after objHeaderSize).Ready := by
  have hnext := heap.next_spec
  have hcursor : (heap.after objHeaderSize).cursor.toNat = heap.next + 16 :=
    BumpAllocator.toNat_cursor_after hfits
  have hlt := (heap.after objHeaderSize).cursor.isLt
  refine ⟨BumpAllocator.toNat_next hready, hnext.1, hcursor, ?_⟩
  unfold BumpAllocator.Ready
  omega

/-- A full or unwilling heap changes no table. -/
theorem Consistent.after (h : Consistent rt heap) (hfits : heap.Fits objHeaderSize) :
    Consistent rt (heap.after objHeaderSize) := by
  obtain ⟨-, hle, hcursor, hready⟩ := ready_after h.ready hfits
  exact { h with
    ready := hready
    below := fun ha => by have := h.below ha; omega }

theorem Consistent.addClass (h : Consistent rt heap) (hfits : heap.Fits objHeaderSize)
    {name : String} (hname : rt.classAddrByName.get? name = none) :
    Consistent (addClass name (BitVec.ofNat 64 heap.next) rt) (heap.after objHeaderSize) ∧
      Extends rt (ObjcRuntime.addClass name (BitVec.ofNat 64 heap.next) rt) := by
  obtain ⟨haddr, hle, hcursor, hready⟩ := ready_after h.ready hfits
  generalize BitVec.ofNat 64 heap.next = addr at haddr ⊢
  obtain ⟨hfreshClass, hfreshInstance⟩ := h.fresh (a := addr) (by omega)
  obtain ⟨c, hc, rfl, hnodup, hkeep, hslot⟩ := classSlot_spec h.names name
  unfold ObjcRuntime.addClass
  generalize rt.classSlot c.name = slot at hc hnodup hkeep hslot ⊢
  obtain ⟨index, rt'⟩ := slot
  simp only at hc hnodup hkeep hslot ⊢
  obtain ⟨hbyName, hbyAddr, hinst⟩ : rt'.classAddrByName = rt.classAddrByName ∧
      rt'.classIndexByAddr = rt.classIndexByAddr ∧ rt'.instanceClass = rt.instanceClass := by
    rw [hslot]
    exact ⟨rfl, rfl, rfl⟩
  rw [hbyName, hbyAddr, hinst]
  refine ⟨⟨hready, hnodup, fun {a i} hi => ?_, fun {n a} ha => ?_, fun {o i} ho => ?_,
    fun {a i} hi => ?_, fun {a i} ha => ?_⟩, ⟨hkeep, fun {n a} ha => ?_, fun ho => ho⟩⟩
  · rw [SortedMap.get?_insert] at hi
    split_ifs at hi with haa
    · obtain rfl := Option.some.inj hi
      exact ⟨c, hc, by rw [SortedMap.get?_insert, if_pos rfl, haa]⟩
    · obtain ⟨c', hc', ha⟩ := h.indexed hi
      have hne : c'.name ≠ c.name := fun heq => by rw [heq, hname] at ha; cases ha
      exact ⟨c', hkeep hc', by rw [SortedMap.get?_insert_of_ne _ _ hne, ha]⟩
  · rw [SortedMap.get?_insert] at ha
    split_ifs at ha with hnn
    · obtain rfl := Option.some.inj ha
      exact ⟨index, c, by rw [SortedMap.get?_insert, if_pos rfl], hc, hnn.symm⟩
    · obtain ⟨i, c', hi, hc', hn⟩ := h.named ha
      have hne : a ≠ addr := fun heq => by rw [heq, hfreshClass] at hi; cases hi
      exact ⟨i, c', by rw [SortedMap.get?_insert_of_ne _ _ hne, hi], hkeep hc', hn⟩
  · obtain ⟨a, ha⟩ := h.instances ho
    have hne : a ≠ addr := fun heq => by rw [heq, hfreshClass] at ha; cases ha
    exact ⟨a, by rw [SortedMap.get?_insert_of_ne _ _ hne, ha]⟩
  · rw [SortedMap.get?_insert] at hi
    split_ifs at hi with haa
    · rw [haa, hfreshInstance]
    · exact h.apart hi
  · rw [SortedMap.get?_insert] at ha
    split_ifs at ha with haa
    · rw [haa, hcursor]
      omega
    · have := h.below ha
      omega
  · have hne : n ≠ c.name := fun heq => by rw [heq, hname] at ha; cases ha
    rw [SortedMap.get?_insert_of_ne _ _ hne, ha]

theorem Consistent.addInstance (h : Consistent rt heap) (hfits : heap.Fits objHeaderSize)
    {classAddr : U64} {index : ℕ} (hindex : rt.classIndexByAddr.get? classAddr = some index) :
    Consistent (addInstance (BitVec.ofNat 64 heap.next) index rt) (heap.after objHeaderSize) ∧
      Extends rt (ObjcRuntime.addInstance (BitVec.ofNat 64 heap.next) index rt) := by
  obtain ⟨haddr, hle, hcursor, hready⟩ := ready_after h.ready hfits
  generalize BitVec.ofNat 64 heap.next = obj at haddr ⊢
  obtain ⟨hfreshClass, hfreshInstance⟩ := h.fresh (a := obj) (by omega)
  unfold ObjcRuntime.addInstance
  refine ⟨⟨hready, h.names, h.indexed, h.named, fun {o i} ho => ?_, fun {a i} ha => ?_,
    fun {a i} ha => ?_⟩, ⟨fun hc => hc, fun ha => ha, fun {o i} ho => ?_⟩⟩
  · rw [SortedMap.get?_insert] at ho
    split_ifs at ho with hoo
    · obtain rfl := Option.some.inj ho
      exact ⟨classAddr, hindex⟩
    · exact h.instances ho
  · have hne : a ≠ obj := fun heq => by rw [heq, hfreshClass] at ha; cases ha
    rw [SortedMap.get?_insert_of_ne _ _ hne]
    exact h.apart ha
  · rw [SortedMap.get?_insert] at ha
    split_ifs at ha with haa
    · rw [haa, hcursor]
      omega
    · have := h.below ha
      omega
  · have hne : o ≠ obj := fun heq => by rw [heq, hfreshInstance] at ho; cases ho
    rw [SortedMap.get?_insert_of_ne _ _ hne, ho]

/-- A root class takes a slot and nothing else. -/
theorem Consistent.preload (h : Consistent rt heap) (name : String) :
    Consistent (rt.preload name) heap ∧ Extends rt (rt.preload name) := by
  unfold ObjcRuntime.preload
  split_ifs with hany
  · exact ⟨h, refl_of Extends rt⟩
  · have hkeep : ∀ {i : ℕ} {c}, rt.classes[i]? = some c →
        (rt.classes ++ [{ name, superclass := none }])[i]? = some c := fun {i c} hi => by
      rw [List.getElem?_append_left (List.getElem?_eq_some_iff.1 hi).1]
      exact hi
    have hnotMem : name ∉ rt.classes.map ClassInfo.name := by
      simpa using hany
    refine ⟨⟨h.ready, ?_, fun ha => ?_, fun ha => ?_, h.instances, h.apart, h.below⟩,
      ⟨hkeep, fun ha => ha, fun ho => ho⟩⟩
    · rw [List.map_append, List.nodup_append']
      exact ⟨h.names, by simp, by simpa using hnotMem⟩
    · obtain ⟨c, hc, ha⟩ := h.indexed ha
      exact ⟨c, hkeep hc, ha⟩
    · obtain ⟨i, c, hi, hc, hn⟩ := h.named ha
      exact ⟨i, c, hi, hkeep hc, hn⟩

end Tables

/-! ## Calls -/

/-- The tables are consistent, and the memory is an address space. -/
structure Sound (s : ObjcRuntime × CallContext) : Prop where
  tables : Consistent s.1 s.2.mem.heap
  memory : s.2.mem.Inv

/-- The state stays sound, and what is known stays known. -/
def Keeps (s s' : ObjcRuntime × CallContext) : Prop :=
  Sound s → Sound s' ∧ Extends s.1 s'.1

instance : IsPreorder (ObjcRuntime × CallContext) Keeps where
  refl s h := ⟨h, refl_of Extends s.1⟩
  trans _ _ _ h h' hs := by
    obtain ⟨hs, he⟩ := h hs
    obtain ⟨hs, he'⟩ := h' hs
    exact ⟨hs, trans_of Extends he he'⟩

section Calls

variable {p : Profile} {s s' : ObjcRuntime × CallContext}

/-- Placing an object keeps the tables if entering it does. -/
theorem keeps_of_places {word : U64 → U64} {enter : U64 → ObjcRuntime → ObjcRuntime}
    {r : Option U64} (h : Places word enter s r s') (hs : Sound s)
    (henter : s.2.mem.heap.Fits objHeaderSize →
      Consistent (enter (BitVec.ofNat 64 s.2.mem.heap.next) s.1)
        (s.2.mem.heap.after objHeaderSize) ∧
        Extends s.1 (enter (BitVec.ofNat 64 s.2.mem.heap.next) s.1)) :
    Sound s' ∧ Extends s.1 s'.1 := by
  have hmem : GuestMemory.Inv { s.2.mem with heap := s.2.mem.heap.after objHeaderSize } :=
    hs.memory.change (.heap _)
  cases h with
  | exhausted => exact ⟨hs, refl_of Extends s.1⟩
  | refused e hfits => exact ⟨⟨hs.tables.after hfits, hmem⟩, refl_of Extends s.1⟩
  | placed m hfits hwrite =>
    have hheap : m.heap = s.2.mem.heap.after objHeaderSize := (hmem.flat_of_write hwrite).2.2
    rw [← hheap] at henter
    obtain ⟨htables, hextends⟩ := henter hfits
    exact ⟨⟨htables, hmem.of_write hwrite⟩, hextends⟩

theorem keeps_getOrCreateClass (p : Profile) (name : String) :
    (getOrCreateClass p name).Steps Keeps := by
  intro s s' h hs
  rw [getOrCreateClass_apply] at h
  cases hname : s.1.classAddrByName.get? name with
  | some addr =>
    rw [hname] at h
    obtain rfl := Option.some.inj h
    exact ⟨hs, refl_of Extends s.1⟩
  | none =>
    obtain ⟨r, s₁, hplace, hcases⟩ := places_place (p := p) hs.tables.ready (classMagic ||| ·)
      (addClass name)
    simp only [hname, hplace] at h
    obtain rfl := Option.some.inj h
    exact keeps_of_places hcases hs fun hfits => hs.tables.addClass hfits hname

theorem keeps_allocInstance (p : Profile) (classAddr : U64) :
    (allocInstance p classAddr).Steps Keeps := by
  intro s s' h hs
  rw [allocInstance_apply] at h
  cases hindex : s.1.classIndexByAddr.get? classAddr with
  | none =>
    rw [hindex] at h
    obtain rfl := Option.some.inj h
    exact ⟨hs, refl_of Extends s.1⟩
  | some index =>
    obtain ⟨r, s₁, hplace, hcases⟩ := places_place (p := p) hs.tables.ready (fun _ => classAddr)
      (fun obj => addInstance obj index)
    simp only [hindex, hplace] at h
    obtain rfl := Option.some.inj h
    exact keeps_of_places hcases hs fun hfits => hs.tables.addInstance hfits hindex

theorem keeps_ret (v : U64) : (ret v).Steps Keeps := by
  intro s s' h
  obtain rfl := Option.some.inj h
  exact fun hs => ⟨⟨hs.tables, hs.memory⟩, refl_of Extends s.1⟩

theorem keeps_countBy (p : Profile) (n : BitVec 64) (obj : U64) :
    (countBy p n obj).Steps Keeps := by
  refine Prog.Steps.bind (Prog.steps_get.bind fun _ => Prog.steps_pure _) fun rt => ?_
  cases rt.retainCounts.get? obj with
  | none => exact Prog.steps_pure _
  | some c =>
    refine (Prog.steps_ofChecked _).bind fun c' => fun s s' h => ?_
    obtain rfl := Option.some.inj h
    exact fun hs => ⟨⟨{ hs.tables with }, hs.memory⟩, ⟨fun hc => hc, fun ha => ha, fun ho => ho⟩⟩

theorem keeps_classOf (obj : U64) : (classOf obj).Steps Keeps := by
  refine Prog.Steps.bind (Prog.steps_get.bind fun _ => Prog.steps_pure _) fun rt => ?_
  cases rt.instanceClass.get? obj with
  | none => exact Prog.steps_pure _
  | some index => exact (Prog.steps_ofChecked _).bind fun _ => Prog.steps_pure _

theorem keeps_receive (p : Profile) (recv : U64) (msg : Message) :
    (receive p recv msg).Steps Keeps := by
  have halloc : (do
      let rt ← runtime
      if (rt.classIndexByAddr.get? recv).isSome then
        let obj ← allocInstance p recv
        return obj.getD 0
      else return 0 : ShimM U64).Steps Keeps := by
    refine Prog.Steps.bind (Prog.steps_get.bind fun _ => Prog.steps_pure _) fun rt => ?_
    split_ifs
    · exact (keeps_allocInstance p recv).bind fun _ => Prog.steps_pure _
    · exact Prog.steps_pure _
  cases msg with
  | alloc => exact halloc
  | new => exact halloc
  | retain => exact (keeps_countBy p 1 recv).bind fun _ => Prog.steps_pure _
  | release => exact (keeps_countBy p (-1) recv).bind fun _ => Prog.steps_pure _
  | retainCount =>
    exact (Prog.Steps.bind (Prog.steps_get.bind fun _ => Prog.steps_pure _) fun _ =>
      Prog.steps_pure _)
  | classObject => exact keeps_classOf recv
  | _ => exact Prog.steps_pure _

theorem keeps_msgSend (p : Profile) : (msgSend p).Steps Keeps := by
  refine Prog.Steps.bind ?_ fun v => (keeps_ret v).bind fun _ => Prog.steps_pure _
  have harg : ∀ n, (arg n).Steps Keeps := fun n => Prog.steps_get.bind fun _ => Prog.steps_pure _
  refine (harg 0).bind fun recv => (harg 1).bind fun selPtr => ?_
  split_ifs
  · exact Prog.steps_pure _
  refine Prog.Steps.bind (Prog.steps_get.bind fun _ => Prog.steps_pure _) fun sel => ?_
  cases sel with
  | error e => exact Prog.steps_pure _
  | ok sel =>
    dsimp only
    split_ifs
    · exact Prog.steps_pure _
    · exact keeps_receive p recv _

theorem keeps_preloadRootClasses : (modifyRuntime preloadRootClasses).Steps Keeps := by
  intro s s' h hs
  obtain rfl := Option.some.inj h
  obtain ⟨h₁, e₁⟩ := hs.tables.preload "NSObject"
  obtain ⟨h₂, e₂⟩ := h₁.preload "NSProxy"
  exact ⟨⟨h₂, hs.memory⟩, trans_of Extends e₁ e₂⟩

end Calls

/-! ## Sessions -/

/-- The calls of the runtime. -/
inductive Call
  | preloadRootClasses
  | getOrCreateClass (name : String)
  | allocVia (classAddr : U64)
  | msgSend

def Call.run (p : Profile) : Call → ShimM Unit
  | .preloadRootClasses => modifyRuntime ObjcRuntime.preloadRootClasses
  | .getOrCreateClass name => do
    let _ ← ObjcRuntime.getOrCreateClass p name
  | .allocVia classAddr => ObjcRuntime.allocVia p classAddr
  | .msgSend => do
    let _ ← ObjcRuntime.msgSend p

/-- A step of a session : a call, or what goes on in the guest between calls. The guest sets its
registers and its memory as it likes, and may be handed blocks of the heap, but not rewind it. -/
inductive SessionStep (p : Profile) (s s' : ObjcRuntime × CallContext) : Prop
  | call (c : Call) (h : (c.run p s).state? = some s')
  | guest (hrt : s'.1 = s.1) (hinv : s.2.mem.Inv → s'.2.mem.Inv)
      (hheap : s.2.mem.heap.cursor.toNat ≤ s'.2.mem.heap.cursor.toNat)
      (hready : s.2.mem.heap.Ready → s'.2.mem.heap.Ready)

/-- A new runtime, with a new memory. -/
def Fresh (p : Profile) (s : ObjcRuntime × CallContext) : Prop :=
  s.1 = ObjcRuntime.new ∧
    ∃ heapBase heapSize, GuestMemory.new p heapBase heapSize = .ok () s.2.mem

/-- The steps of a session. -/
abbrev Session (p : Profile) : ObjcRuntime × CallContext → ObjcRuntime × CallContext → Prop :=
  Relation.ReflTransGen (SessionStep p)

section Session

variable {p : Profile} {s s' : ObjcRuntime × CallContext}

theorem keeps_run (p : Profile) (c : Call) : (c.run p).Steps Keeps := by
  cases c with
  | preloadRootClasses => exact keeps_preloadRootClasses
  | getOrCreateClass name => exact (keeps_getOrCreateClass p name).bind fun _ => Prog.steps_pure _
  | allocVia classAddr =>
    exact (keeps_allocInstance p classAddr).bind fun obj => keeps_ret _
  | msgSend => exact (keeps_msgSend p).bind fun _ => Prog.steps_pure _

/-- One step keeps the tables. -/
theorem SessionStep.keeps (h : SessionStep p s s') : Keeps s s' := by
  cases h with
  | call c h => exact keeps_run p c s s' h
  | guest hrt hinv hheap hready =>
    intro hs
    refine ⟨⟨?_, hinv hs.memory⟩, ?_⟩
    · rw [hrt]
      exact { hs.tables with
        ready := hready hs.tables.ready
        below := fun ha => (hs.tables.below ha).trans hheap }
    · rw [hrt]
      exact refl_of Extends s.1

/-- And so does a whole session. -/
theorem keeps_of_session (h : Session p s s') : Keeps s s' := by
  induction h with
  | refl => exact refl_of Keeps s
  | tail _ hstep ih => exact trans_of Keeps ih hstep.keeps

/-- In a new runtime there is nothing to agree on, and the heap is at its start. -/
theorem Fresh.sound (h : Fresh p s) : Sound s := by
  obtain ⟨hrt, heapBase, heapSize, hnew⟩ := h
  refine ⟨?_, GuestMemory.inv_new hnew⟩
  rw [hrt]
  exact ⟨(GuestMemory.heap_of_new hnew).2, List.nodup_nil, by simp [ObjcRuntime.new],
    by simp [ObjcRuntime.new], by simp [ObjcRuntime.new], by simp [ObjcRuntime.new],
    by simp [ObjcRuntime.new]⟩

/-- A class object that a lookup returns is in the tables from then on. -/
theorem addr_of_getOrCreateClass {name : String} {a : U64} (hs : Sound s)
    (h : getOrCreateClass p name s = .ok (some a) s') :
    s'.1.classAddrByName.get? name = some a := by
  rw [getOrCreateClass_apply] at h
  cases hname : s.1.classAddrByName.get? name with
  | some addr =>
    rw [hname] at h
    obtain ⟨hsome, rfl⟩ := Outcome.ok.inj h
    rw [hname, hsome]
  | none =>
    obtain ⟨r, s₁, hplace, hcases⟩ := places_place (p := p) hs.tables.ready (classMagic ||| ·)
      (addClass name)
    simp only [hname, hplace] at h
    obtain ⟨rfl, rfl⟩ := Outcome.ok.inj h
    cases hcases with
    | placed m hfits hwrite =>
      obtain ⟨c, -, -, -, -, hslot⟩ := classSlot_spec hs.tables.names name
      simp only [addClass]
      rw [SortedMap.get?_insert, if_pos rfl]

/-- A new instance : its entry, its first word, and its address. -/
theorem spec_of_allocInstance {c obj : U64} (hs : Sound s)
    (h : allocInstance p c s = .ok (some obj) s') :
    obj ≠ 0 ∧ s'.2.mem.flat.Reads obj (toLeBytes64 c) ∧
      ∃ index cls, s'.1.instanceClass.get? obj = some index ∧ s'.1.classes[index]? = some cls ∧
        s'.1.classAddrByName.get? cls.name = some c := by
  rw [allocInstance_apply] at h
  cases hindex : s.1.classIndexByAddr.get? c with
  | none =>
    rw [hindex] at h
    cases (Outcome.ok.inj h).1
  | some index =>
    obtain ⟨r, s₁, hplace, hcases⟩ := places_place (p := p) hs.tables.ready (fun _ => c)
      (fun obj => addInstance obj index)
    simp only [hindex, hplace] at h
    obtain ⟨rfl, rfl⟩ := Outcome.ok.inj h
    cases hcases with
    | placed m hfits hwrite =>
      have hmem : GuestMemory.Inv { s.2.mem with heap := s.2.mem.heap.after objHeaderSize } :=
        hs.memory.change (.heap _)
      obtain ⟨cls, hcls, haddr⟩ := hs.tables.indexed hindex
      refine ⟨?_, ?_, index, cls, ?_, hcls, haddr⟩
      · -- the class object lies below the instance
        intro hzero
        have hbelow := hs.tables.below (Or.inl hindex)
        obtain ⟨hnext, hle, -, -⟩ := ready_after hs.tables.ready hfits
        rw [hzero] at hnext
        have : (0 : U64).toNat = 0 := rfl
        omega
      · rw [(hmem.flat_of_write hwrite).1]
        exact FlatMemory.reads_write_self _ _ _
      · simp only [addInstance]
        rw [SortedMap.get?_insert, if_pos rfl]

/-- The class of an instance is read off the tables. -/
theorem classOf_apply {obj addr : U64} {index : ℕ} {cls : ClassInfo}
    (hinstance : s.1.instanceClass.get? obj = some index) (hcls : s.1.classes[index]? = some cls)
    (haddr : s.1.classAddrByName.get? cls.name = some addr) : classOf obj s = .ok addr s := by
  rw [classOf, runtime_bind]
  simp only [hinstance, className, hcls, Prog.ofChecked_ok_bind, haddr]
  rfl

/-- Sending `class` to an object answers with what `classOf` finds. -/
theorem msgSend_class {obj addr : U64} (hobj : obj ≠ 0) (hrecv : s.2.cpu.arg 0 = obj)
    (hsel : s.2.mem.readCstr (s.2.cpu.arg 1) 256 = .ok "class")
    (hclass : classOf obj s = .ok addr s) :
    msgSend p s = .ok .handled (s.1, { s.2 with cpu := s.2.cpu.setRet addr }) := by
  have hmessage : Message.ofSelector "class" = .classObject := by
    decide
  have hne : ("class" : String) ≠ "" := by
    decide
  simp only [msgSend, answer, arg, readMem, ret, Prog.bind_apply, Prog.get_apply,
    Prog.pure_apply, hrecv, if_neg hobj, hsel, if_neg hne, hmessage, receive, hclass,
    Prog.modify_apply]

/-- Placing an object does not panic. -/
theorem safe_allocInstance (hs : Sound s) (classAddr : U64) :
    (allocInstance p classAddr).Safe s := by
  intro q h
  rw [allocInstance_apply] at h
  cases hindex : s.1.classIndexByAddr.get? classAddr with
  | none =>
    rw [hindex] at h
    cases h
  | some index =>
    obtain ⟨r, s₁, hplace, -⟩ := places_place (p := p) hs.tables.ready (fun _ => classAddr)
      (fun obj => addInstance obj index)
    simp only [hindex, hplace] at h
    cases h

theorem panic_of_countBy {n : BitVec 64} {obj : U64} {q : Panic}
    (h : countBy p n obj s = .panic q) : q = .arithmeticOverflow := by
  rw [countBy, runtime_bind] at h
  cases hcount : s.1.retainCounts.get? obj with
  | none =>
    rw [hcount] at h
    cases h
  | some c =>
    simp only [hcount] at h
    cases p with
    | release => cases h
    | debug =>
      simp only [Profile.addSigned] at h
      split_ifs at h
      · cases h
      · exact (Outcome.panic.inj h).symm

/-- The class of an instance has a slot and an address. -/
theorem safe_classOf (hs : Sound s) (obj : U64) : (classOf obj).Safe s := by
  intro q h
  rw [classOf, runtime_bind] at h
  cases hinstance : s.1.instanceClass.get? obj with
  | none =>
    rw [hinstance] at h
    cases h
  | some index =>
    obtain ⟨a, ha⟩ := hs.tables.instances hinstance
    obtain ⟨c, hc, -⟩ := hs.tables.indexed ha
    simp only [hinstance, className, hc] at h
    cases h

/-- A retain count that leaves its range is the only thing a message can panic over. -/
theorem panic_of_receive (hs : Sound s) {recv : U64} {msg : Message} {q : Panic}
    (h : receive p recv msg s = .panic q) : q = .arithmeticOverflow := by
  have halloc : ¬(do
      let rt ← runtime
      if (rt.classIndexByAddr.get? recv).isSome then
        let obj ← allocInstance p recv
        return obj.getD 0
      else return 0 : ShimM U64) s = .panic q := by
    intro h
    rw [runtime_bind] at h
    split_ifs at h
    · obtain h | ⟨_, _, -, h⟩ := Prog.panic_of_bind h
      · exact safe_allocInstance hs recv q h
      · cases h
    · cases h
  cases msg with
  | alloc => exact absurd h halloc
  | new => exact absurd h halloc
  | retain =>
    obtain h | ⟨_, _, -, h⟩ := Prog.panic_of_bind h
    · exact panic_of_countBy h
    · cases h
  | release =>
    obtain h | ⟨_, _, -, h⟩ := Prog.panic_of_bind h
    · exact panic_of_countBy h
    · cases h
  | classObject => exact absurd h (safe_classOf hs recv q)
  | _ => cases h

theorem panic_of_msgSend (hs : Sound s) {q : Panic} (h : msgSend p s = .panic q) :
    q = .arithmeticOverflow := by
  obtain h | ⟨_, _, -, h⟩ := Prog.panic_of_bind h
  · simp only [arg, readMem, Prog.bind_apply, Prog.get_apply, Prog.pure_apply] at h
    split_ifs at h
    · cases h
    · rw [Prog.bind_apply, Prog.bind_apply, Prog.get_apply] at h
      rcases hsel : s.2.mem.readCstr (s.2.cpu.arg 1) 256 with e | sel
      · simp only [Prog.pure_apply, hsel] at h
        cases h
      · simp only [Prog.pure_apply, hsel] at h
        split_ifs at h
        · cases h
        · exact panic_of_receive hs h
  · cases h

end Session

/-- Along every session the tables agree, and the class of an instance is the class object it
was allocated from. -/
theorem session_tables {p : Profile} {s₀ s : ObjcRuntime × CallContext} (hnew : Fresh p s₀)
    (hrun : Session p s₀ s) :
    (s.1.classes.map ClassInfo.name).Nodup ∧
      (∀ n n' a, s.1.classAddrByName.get? n = some a → s.1.classAddrByName.get? n' = some a →
        n = n') ∧
      (∀ n a, s.1.classAddrByName.get? n = some a ↔
        ∃ i c, s.1.classIndexByAddr.get? a = some i ∧ s.1.classes[i]? = some c ∧ c.name = n) ∧
      (∀ a, s.1.classIndexByAddr.get? a = none ∨ s.1.instanceClass.get? a = none) ∧
      (∀ o i, s.1.instanceClass.get? o = some i →
        i < s.1.classes.length ∧ ∃ name, s.1.className i = .ok name) ∧
      msgSend p s ≠ .panic .indexOutOfBounds ∧
      (∀ name a a' s₁ s₂ s₃, getOrCreateClass p name s = .ok (some a) s₁ → Session p s₁ s₂ →
        getOrCreateClass p name s₂ = .ok (some a') s₃ → a' = a) ∧
      ∀ c obj s₁, allocInstance p c s = .ok (some obj) s₁ →
        s₁.2.mem.flat.Reads obj (toLeBytes64 c) ∧
          ∀ s₂, Session p s₁ s₂ → s₂.2.cpu.arg 0 = obj →
            s₂.2.mem.readCstr (s₂.2.cpu.arg 1) 256 = .ok "class" →
            ∃ s₃, msgSend p s₂ = .ok .handled s₃ ∧ s₃.2.cpu.arg 0 = c := by
  have hsound : Sound s := (keeps_of_session hrun hnew.sound).1
  refine ⟨hsound.tables.names, ?_, ?_, ?_, ?_, ?_, ?_, ?_⟩
  · intro n n' a hn hn'
    obtain ⟨i, c, hi, hc, rfl⟩ := hsound.tables.named hn
    obtain ⟨i', c', hi', hc', rfl⟩ := hsound.tables.named hn'
    rw [hi, Option.some.injEq] at hi'
    rw [hi', hc', Option.some.injEq] at hc
    rw [hc]
  · intro n a
    refine ⟨hsound.tables.named, ?_⟩
    rintro ⟨i, c, hi, hc, rfl⟩
    obtain ⟨c', hc', ha⟩ := hsound.tables.indexed hi
    rw [hc, Option.some.injEq] at hc'
    rw [hc', ha]
  · intro a
    rcases hi : s.1.classIndexByAddr.get? a with _ | i
    · exact .inl rfl
    · exact .inr (hsound.tables.apart hi)
  · intro o i ho
    obtain ⟨a, ha⟩ := hsound.tables.instances ho
    obtain ⟨c, hc, -⟩ := hsound.tables.indexed ha
    refine ⟨(List.getElem?_eq_some_iff.1 hc).1, c.name, ?_⟩
    rw [className, hc]
  · intro h
    cases panic_of_msgSend hsound h
  · intro name a a' s₁ s₂ s₃ h hrun' h'
    have hstep : Sound s₁ := (keeps_getOrCreateClass p name s s₁ (by rw [h]; rfl) hsound).1
    have haddr := addr_of_getOrCreateClass hsound h
    obtain ⟨hsound₂, hextends⟩ := keeps_of_session hrun' hstep
    rw [getOrCreateClass_apply, hextends.addrs haddr] at h'
    exact (Option.some.inj (Outcome.ok.inj h').1).symm
  · intro c obj s₁ h
    have hstep : Sound s₁ := (keeps_allocInstance p c s s₁ (by rw [h]; rfl) hsound).1
    obtain ⟨hobj, hisa, index, cls, hinstance, hcls, haddr⟩ := spec_of_allocInstance hsound h
    refine ⟨hisa, fun s₂ hrun' hrecv hsel => ?_⟩
    obtain ⟨hsound₂, hextends⟩ := keeps_of_session hrun' hstep
    have hclass := classOf_apply (hextends.instances hinstance) (hextends.classes hcls)
      (hextends.addrs haddr)
    exact ⟨_, msgSend_class hobj hrecv hsel hclass, CpuContext.arg_setRet _ _⟩

set_option maxRecDepth 10000 in
/-- On a heap of one page, a class and an instance of it are made, and the guest stores the name of a
selector. -/
theorem calls_page :
    ((GuestMemory.new .release 0x120000000 0x4000).okAnd fun _ m =>
      (getOrCreateClass .release "Foo"
        (ObjcRuntime.new.preloadRootClasses, ⟨CpuContext.default, m⟩)).okAnd fun c s =>
          c == some 0x120000000 &&
      (allocInstance .release 0x120000000 s).okAnd fun obj s₁ =>
        obj == some 0x120000010 &&
      (GuestMemory.write 0x120000100 (utf8Bytes "class") s₁.2.mem).okAnd fun _ m' =>
        (m'.readCstr 0x120000100 256).toOption == some "class") = true := by
  decide

/-- An instance that is asked for its class answers with the class object it was made from. -/
theorem session_tables_class :
    ∃ s₀ s s₁ s₂ s₃, Fresh .release s₀ ∧ Session .release s₀ s ∧
      s.1.classAddrByName.get? "Foo" = some 0x120000000 ∧
      allocInstance .release 0x120000000 s = .ok (some 0x120000010) s₁ ∧
      Session .release s₁ s₂ ∧ s₂.2.cpu.arg 0 = 0x120000010 ∧
      s₂.2.mem.readCstr (s₂.2.cpu.arg 1) 256 = .ok "class" ∧
      msgSend .release s₂ = .ok .handled s₃ ∧ s₃.2.cpu.arg 0 = 0x120000000 := by
  obtain ⟨⟨⟩, m, hm, hcalls⟩ := Outcome.okAnd_iff.1 calls_page
  obtain ⟨c, s, hclass, hcalls⟩ := Outcome.okAnd_iff.1 hcalls
  obtain ⟨hc, hcalls⟩ := Bool.and_eq_true_iff.1 hcalls
  obtain rfl := beq_iff_eq.1 hc
  obtain ⟨obj, s₁, halloc, hcalls⟩ := Outcome.okAnd_iff.1 hcalls
  obtain ⟨hobj, hcalls⟩ := Bool.and_eq_true_iff.1 hcalls
  obtain rfl := beq_iff_eq.1 hobj
  obtain ⟨⟨⟩, m', hstore, hsel⟩ := Outcome.okAnd_iff.1 hcalls
  rw [beq_iff_eq] at hsel
  let cpu : CpuContext :=
    { CpuContext.default with x := fun i => if i = 0 then 0x120000010 else 0x120000100 }
  let s₀ : ObjcRuntime × CallContext := (ObjcRuntime.new, ⟨CpuContext.default, m⟩)
  let s₂ : ObjcRuntime × CallContext := (s₁.1, ⟨cpu, m'⟩)
  have hfresh : Fresh .release s₀ := ⟨rfl, _, _, hm⟩
  have hpreload : Session .release s₀
      (ObjcRuntime.new.preloadRootClasses, ⟨CpuContext.default, m⟩) :=
    .single (.call .preloadRootClasses rfl)
  have haddr := addr_of_getOrCreateClass (keeps_of_session hpreload hfresh.sound).1 hclass
  have hrun : Session .release s₀ s := by
    refine .tail hpreload (.call (.getOrCreateClass "Foo") ?_)
    simp only [Call.run, Prog.bind_apply]
    rw [hclass]
    rfl
  have hsound : Sound s := (keeps_of_session hrun hfresh.sound).1
  have hsound₁ : Sound s₁ :=
    (keeps_allocInstance .release 0x120000000 s s₁ (by rw [halloc]; rfl) hsound).1
  have hguest : Session .release s₁ s₂ := by
    obtain ⟨-, -, hheap⟩ := hsound₁.memory.flat_of_write hstore
    refine .single (.guest rfl (fun hinv => hinv.of_write hstore) ?_ ?_)
    · exact le_of_eq (congrArg (fun h => h.cursor.toNat) hheap.symm)
    · exact fun hready => hheap.symm ▸ hready
  have hread : s₂.2.mem.readCstr (s₂.2.cpu.arg 1) 256 = .ok "class" := by
    rcases hcstr : m'.readCstr 0x120000100 256 with e | text
    · rw [hcstr] at hsel
      cases hsel
    · rw [hcstr] at hsel
      exact hcstr.trans (congrArg _ (Option.some.inj hsel))
  obtain ⟨-, -, -, -, -, -, -, hinstances⟩ := session_tables hfresh hrun
  obtain ⟨-, hclassOf⟩ := hinstances _ _ _ halloc
  obtain ⟨s₃, hsend, hanswer⟩ := hclassOf s₂ hguest rfl hread
  exact ⟨s₀, s, s₁, s₂, s₃, hfresh, hrun, haddr, halloc, hguest, rfl, hread, hsend, hanswer⟩

end IosEmu.ObjcRuntime
