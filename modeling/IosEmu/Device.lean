import IosEmu.Machine
import IosEmu.Refine
import IosEmu.Reservation

/-!
# The device

On device a region exists twice : as the buffer of the host, which the loader and the services
read and write, and as the native pages, which the guest reads, writes and executes.
`DeviceMemory` is the two of them. `protect` and `commitToNative` copy the buffer of a region
to its pages; nothing copies back. The copy is a bare `memcpy` : where the pages are not reserved, or
not writable any more, it faults. The handler of the signal then jumps to where the guest was last
resumed from, a frame that is gone, so a run ends there (`Panic.nativeFault`).

The stages of a build that call one of the two are written out here over both copies. Seen
through the buffers they are the stages of `buildProcess`, unless a copy faults
(`refines_buildProcess`).
-/

open SysLib

namespace IosEmu

/-- What the native pages hold and allow, by address. Nothing is allowed where no page is
reserved. -/
structure Pages where
  bytes : ℕ → U8
  rights : ℕ → Protection

instance : CoeFun Pages fun _ => ℕ → U8 := ⟨Pages.bytes⟩

namespace Pages

/-- No page is reserved. -/
def unreserved : Pages :=
  ⟨fun _ => 0, fun _ => .none⟩

/-- The pages, with the bytes stored that are not `none`. -/
def store (pages : Pages) (stores : ℕ → Option U8) : Pages :=
  { pages with bytes := fun x => (stores x).getD (pages x) }

/-- The pages, with the rights that the kernel gives to the `n` bytes from `base` on. -/
def protect (pages : Pages) (base : U64) (n : ℕ) (prot : Protection) : Pages :=
  { pages with
    rights := fun x => if base.toNat ≤ x ∧ x < base.toNat + n then prot else pages.rights x }

/-- The `n` bytes from `dst` on can be stored. -/
def Writable (pages : Pages) (dst : U64) (n : ℕ) : Prop :=
  ∀ i < n, (pages.rights (dst.toNat + i)).contains .write = true

instance (pages : Pages) (dst : U64) (n : ℕ) : Decidable (pages.Writable dst n) :=
  inferInstanceAs (Decidable (∀ i < n, _))

/-- `ios_emu_native_map_region`, if the kernel picks `base`. -/
def mapRegion (pages : Pages) (base : U64) (len : ℕ) : Pages :=
  pages.protect base len .rw

theorem writable_mapRegion (pages : Pages) (base : U64) (len : ℕ) :
    (pages.mapRegion base len).Writable base len := by
  intro i hi
  dsimp only [mapRegion, protect]
  rw [if_pos (by omega)]
  rfl

/-- What is reserved stays reserved. -/
theorem Writable.mapRegion {pages : Pages} {dst : U64} {n : ℕ} (h : pages.Writable dst n)
    (base : U64) (len : ℕ) : (pages.mapRegion base len).Writable dst n := by
  intro i hi
  dsimp only [Pages.mapRegion, protect]
  split_ifs
  · rfl
  · exact h i hi

theorem Writable.mono {pages : Pages} {dst : U64} {n n' : ℕ} (h : pages.Writable dst n)
    (hle : n' ≤ n) : pages.Writable dst n' :=
  fun i hi => h i (by omega)

end Pages

/-- The kinds of region that are reserved natively. -/
def RegionKind.reserved (kind : RegionKind) : Prop :=
  kind = .segment ∨ kind = .stack

/-- The buffers of the host and the native pages. -/
structure DeviceMemory where
  mem : GuestMemory
  pages : Pages

/-- A method of the memory on device. -/
abbrev DevM := Prog EmuError Panic DeviceMemory

/-- `mprotect` of the kernel. -/
abbrev NativeProtect := U64 → ℕ → U32 → BitVec 32

namespace Device

variable {α : Type}

/-- The pages with a whole buffer in them. -/
def copied (pages : Pages) (dst : U64) (src : ByteVec) : Pages :=
  pages.store fun x => if dst.toNat ≤ x then src.get? (x - dst.toNat) else none

/-- `ios_emu_native_copy_in`, of a whole buffer. -/
def copyIn (pages : Pages) (dst : U64) (src : ByteVec) : Except Panic Pages :=
  if pages.Writable dst src.size then .ok (copied pages dst src) else .error .nativeFault

/-- A call that does not touch the pages. -/
def onHost (x : MemM α) : DevM α :=
  Prog.zoom DeviceMemory.mem (fun mem d => { d with mem }) x

/-- Change the protection of the region that holds `addr` : its buffer is copied to its pages,
and then the kernel is asked. A call that fails sets no right. -/
def protect (nativeProtect : NativeProtect) (addr : U64) (prot : Protection) : DevM Unit := do
  let d ← Prog.get
  let base ← Prog.ofResult (d.mem.regionBase addr)
  let region ← Prog.ofChecked (d.mem.unwrapRegion base)
  onHost (Prog.modify fun m => { m with regions := m.regions.insert base { region with prot } })
  let pages ← Prog.ofChecked (copyIn d.pages base region.data)
  if nativeProtect base region.data.size (prot.bits.setWidth 32) ≠ 0 then do
    Prog.modify fun d => { d with pages }
    Prog.fail (.memory base "native mprotect failed")
  else
    Prog.modify fun d => { d with pages := pages.protect base region.data.size prot }

/-- Copy the buffer of the region that holds `addr` to its pages. -/
def commitToNative (addr : U64) : DevM Unit := do
  let d ← Prog.get
  let base ← Prog.ofResult (d.mem.regionBase addr)
  let region ← Prog.ofChecked (d.mem.unwrapRegion base)
  let pages ← Prog.ofChecked (copyIn d.pages base region.data)
  Prog.modify fun d => { d with pages }

/-! ## The build -/

def publishStubs (p : Profile) (nativeProtect : NativeProtect) (cfg : LayoutConfig)
    (resolver : StubResolver) : DevM U64 := do
  let used ← Prog.ofChecked (resolver.used p)
  let size ← Prog.ofChecked (alignUp p (max used pageSize) pageSize)
  onHost (GuestMemory.map p cfg.trampolineBase size .rw .segment "__stubs")
  onHost (Prog.forEach (List.range (size.toNat / 4)) fun i =>
    GuestMemory.writeU32 (cfg.trampolineBase + BitVec.ofNat 64 (4 * i)) Process.brk0)
  protect nativeProtect cfg.trampolineBase .rx
  return cfg.trampolineBase + size

def restoreProtections (nativeProtect : NativeProtect) (image : MachOImage)
    (segRuntime : List (Option U64)) : DevM Unit :=
  Prog.forEach (image.segments.zip segRuntime) fun (seg, base?) =>
    match base? with
    | some base => protect nativeProtect base (Process.runProt seg)
    | none => pure ()

def initStack (p : Profile) (cfg : LayoutConfig) : DevM (U64 × (Fin 4 → U64)) := do
  let stackBase ← Prog.ofChecked (p.sub cfg.stackTop cfg.stackSize)
  onHost (GuestMemory.map p stackBase cfg.stackSize .rw .stack "stack")
  let frame ← onHost (Process.buildStack p cfg)
  commitToNative stackBase
  return frame

def finish (p : Profile) (nativeProtect : NativeProtect) (image : MachOImage) (bytes : List U8)
    (cfg : LayoutConfig) (segRuntime : List (Option U64)) (resolver : StubResolver)
    (trampolineEnd : U64) : DevM ProcessImage := do
  restoreProtections nativeProtect image segRuntime
  let initFuncs ← onHost (Process.collectInitFuncs p cfg.slide [] (Process.initSlots image))
  let (sp, argRegs) ← initStack p cfg
  let entry ← Prog.ofResult (Process.resolveEntry image cfg.slide)
  let lazyBinds ← onHost (Process.lazyTable p image bytes segRuntime)
  return { entry, sp, argRegs, trampolines := resolver.reverse,
           trampolineBase := cfg.trampolineBase, trampolineEnd, initFuncs,
           symbolStubs := resolver.forward, lazyBinds }

/-- Lay an image out in the guest memory and its native pages. -/
def buildProcess (p : Profile) (nativeProtect : NativeProtect) (image : MachOImage)
    (bytes : List U8) (cfg : LayoutConfig) : DevM ProcessImage := do
  if image.isEncrypted then
    Prog.fail (.dyld "executable is FairPlay-encrypted; supply a decrypted binary")
  else
    let (segRuntime, resolver) ← onHost (Process.bindImage p image bytes cfg)
    let trampolineEnd ← publishStubs p nativeProtect cfg resolver
    finish p nativeProtect image bytes cfg segRuntime resolver trampolineEnd

/-! ## Refinement -/

section Refines

open Prog

variable {p : Profile} {nativeProtect : NativeProtect}

theorem refines_onHost (x : MemM α) : Refines DeviceMemory.mem (onHost x) x :=
  refines_zoom x fun _ _ => rfl

theorem copyIn_eq_error {pages : Pages} {dst : U64} {src : ByteVec} {e : Panic}
    (h : copyIn pages dst src = .error e) : e = .nativeFault := by
  unfold copyIn at h
  split_ifs at h
  exact (Except.error.inj h).symm

/-- Both copies of the memory, seen through the buffers. -/
abbrev RefinesMem (x : DevM α) (y : MemM α) : Prop :=
  RefinesUnless .nativeFault DeviceMemory.mem x y

theorem refines_protect (addr : U64) (prot : Protection) :
    RefinesMem (protect nativeProtect addr prot)
      (GuestMemory.protect (.android nativeProtect) addr prot) := by
  refine RefinesUnless.get_bind fun d => (refines_ofResult _).unless.bind fun base =>
    (refines_ofChecked _).unless.bind fun region => (refines_onHost _).unless.bind fun _ =>
    RefinesUnless.check (fun _ => copyIn_eq_error) fun pages => ?_
  dsimp only
  split_ifs
  · exact RefinesUnless.skip (fun _ => rfl) (refines_fail _).unless
  · exact RefinesUnless.skip (fun _ => rfl) (refines_pure ()).unless

theorem refines_commitToNative (addr : U64) :
    RefinesMem (commitToNative addr)
      (GuestMemory.commitToNative (.android nativeProtect) addr) :=
  RefinesUnless.get_bind fun _ => (refines_ofResult _).unless.bind fun _ =>
    (refines_ofChecked _).unless.bind fun _ =>
    RefinesUnless.check (fun _ => copyIn_eq_error) fun _ =>
    RefinesUnless.skip (fun _ => rfl) (refines_pure ()).unless

variable (p nativeProtect)

theorem refines_publishStubs (cfg : LayoutConfig) (r : StubResolver) :
    RefinesMem (publishStubs p nativeProtect cfg r)
      (Process.publishStubs ⟨p, .android nativeProtect⟩ cfg r) :=
  (refines_ofChecked _).unless.bind fun _ => (refines_ofChecked _).unless.bind fun _ =>
    (refines_onHost _).unless.bind fun _ => (refines_onHost _).unless.bind fun _ =>
    (refines_protect _ _).bind fun _ => (refines_pure _).unless

theorem refines_restoreProtections (image : MachOImage) (segRuntime : List (Option U64)) :
    RefinesMem (restoreProtections nativeProtect image segRuntime)
      (Process.restoreProtections (.android nativeProtect) image segRuntime) := by
  refine RefinesUnless.forEach fun ⟨seg, base?⟩ _ => ?_
  rcases base? with _ | base
  · exact (refines_pure ()).unless
  · exact refines_protect _ _

theorem refines_initStack (cfg : LayoutConfig) :
    RefinesMem (initStack p cfg) (Process.initStack ⟨p, .android nativeProtect⟩ cfg) :=
  (refines_ofChecked _).unless.bind fun _ => (refines_onHost _).unless.bind fun _ =>
    (refines_onHost _).unless.bind fun _ => (refines_commitToNative _).bind fun _ =>
    (refines_pure _).unless

/-- Seen through the buffers, a build on device is a build, unless a copy faults. -/
theorem refines_buildProcess (image : MachOImage) (bytes : List U8) (cfg : LayoutConfig) :
    RefinesMem (buildProcess p nativeProtect image bytes cfg)
      (IosEmu.buildProcess ⟨p, .android nativeProtect⟩ image bytes cfg) := by
  unfold buildProcess IosEmu.buildProcess
  split_ifs
  · exact (refines_fail _).unless
  · exact (refines_onHost _).unless.bind fun ⟨_, _⟩ => (refines_publishStubs _ _ _ _).bind fun _ =>
      (refines_restoreProtections _ _ _).bind fun _ => (refines_onHost _).unless.bind fun _ =>
      (refines_initStack _ _ _).bind fun ⟨_, _⟩ => (refines_ofResult _).unless.bind fun _ =>
      (refines_onHost _).unless.bind fun _ => (refines_pure _).unless

end Refines

/-! ## Copies -/

theorem copyIn_eq_ok {pages pages' : Pages} {dst : U64} {src : ByteVec} :
    copyIn pages dst src = .ok pages' ↔
      pages.Writable dst src.size ∧ pages' = copied pages dst src := by
  unfold copyIn
  split_ifs with h
  · simp [h, eq_comm]
  · simp [h]

theorem copied_of_mem {pages : Pages} {dst : U64} {src : ByteVec} {i : ℕ} (hi : i < src.size) :
    src.get? i = some (copied pages dst src (dst.toNat + i)) := by
  unfold copied Pages.store
  dsimp only
  rw [if_pos (Nat.le_add_right _ _), Nat.add_sub_cancel_left, Buffer.get?_of_lt hi,
    Option.getD_some]

theorem copied_of_notMem {pages : Pages} {dst : U64} {src : ByteVec} {x : ℕ}
    (hx : x < dst.toNat ∨ dst.toNat + src.size ≤ x) : copied pages dst src x = pages x := by
  unfold copied Pages.store
  dsimp only
  split_ifs with hle
  · rw [Buffer.get?_eq_none_iff.2 (by omega), Option.getD_none]
  · rfl

variable {nativeProtect : NativeProtect} {d d' : DeviceMemory} {a : U64} {prot : Protection}

/-- What `protect` leaves behind : nothing happened, or the region is copied, and its rights are set
if the kernel does so. -/
theorem protect_cases (h : (protect nativeProtect a prot d).state? = some d') :
    d' = d ∨ ∃ k r, d.mem.regionBase a = .ok k ∧ d.mem.regions.get? k = some r ∧
      d'.mem = { d.mem with regions := d.mem.regions.insert k { r with prot } } ∧
      d'.pages.bytes = (copied d.pages k r.data).bytes := by
  unfold protect at h
  rw [Prog.get_bind, Prog.bind_apply] at h
  rcases hb : d.mem.regionBase a with e | k <;> rw [hb] at h
  · exact Or.inl (Option.some.inj h).symm
  · rw [Prog.ofResult_ok] at h
    dsimp only at h
    rw [Prog.bind_apply] at h
    rcases hr : d.mem.unwrapRegion k with e | r <;> rw [hr] at h
    · cases h
    · refine Or.inr ⟨k, r, rfl, GuestMemory.unwrapRegion_eq_ok.1 hr, ?_⟩
      change ((Prog.ofChecked (copyIn d.pages k r.data) >>= fun pages =>
        if nativeProtect k r.data.size (prot.bits.setWidth 32) ≠ 0 then
          Prog.modify (fun d : DeviceMemory => { d with pages }) >>= fun _ =>
            Prog.fail (.memory k "native mprotect failed")
        else Prog.modify fun d : DeviceMemory =>
          { d with pages := pages.protect k r.data.size prot })
        (DeviceMemory.mk { d.mem with regions := d.mem.regions.insert k { r with prot } }
          d.pages) : Outcome EmuError Panic DeviceMemory Unit).state? = some d' at h
      rcases hcopy : copyIn d.pages k r.data with e | pages <;> rw [hcopy] at h
      · cases h
      · obtain ⟨-, rfl⟩ := copyIn_eq_ok.1 hcopy
        rw [Prog.ofChecked_ok_bind] at h
        split_ifs at h
        · obtain rfl := Option.some.inj h
          exact ⟨rfl, rfl⟩
        · obtain rfl := Option.some.inj h
          exact ⟨rfl, rfl⟩

/-! ## Published regions -/

/-- The pages of the region at `k` hold its buffer. -/
def Published (d : DeviceMemory) (k : U64) : Prop :=
  ∀ r, d.mem.regions.get? k = some r → ∀ i < r.data.size,
    r.data.get? i = some (d.pages (k.toNat + i))

/-- A protection does not count. -/
theorem published_setProt {m : GuestMemory} {pages : Pages} {key k : U64} {r : Region}
    (hr : m.regions.get? key = some r) :
    Published ⟨{ m with regions := m.regions.insert key { r with prot } }, pages⟩ k ↔
      Published ⟨m, pages⟩ k := by
  unfold Published
  dsimp only
  rw [SortedMap.get?_insert]
  split_ifs with hk
  · subst hk
    simp only [hr, Option.some.injEq, forall_eq']
  · rfl

/-- The rights of the pages do not count either. -/
theorem published_congr (h : d'.mem = d.mem) (hpages : d'.pages.bytes = d.pages.bytes) (k : U64) :
    Published d' k ↔ Published d k := by
  unfold Published
  rw [h, hpages]

/-- A region whose buffer is copied is published, and no other is spoilt. -/
theorem published_copied {m : GuestMemory} {pages : Pages} {key : U64} {r : Region}
    (hinv : m.Inv) (hr : m.regions.get? key = some r) :
    Published ⟨m, copied pages key r.data⟩ key ∧
      ∀ k, Published ⟨m, pages⟩ k → Published ⟨m, copied pages key r.data⟩ k := by
  have hkey : Published ⟨m, copied pages key r.data⟩ key := by
    intro r' hr' i hi
    obtain rfl : r = r' := Option.some.inj (hr.symm.trans hr')
    exact copied_of_mem hi
  refine ⟨hkey, fun k hk => ?_⟩
  rcases lt_trichotomy k key with hlt | rfl | hlt
  · intro r' hr' i hi
    have hend := hinv.end_le hr' hr hlt
    dsimp only
    rw [copied_of_notMem (by omega)]
    exact hk r' hr' i hi
  · exact hkey
  · intro r' hr' i hi
    have hend := hinv.end_le hr hr' hlt
    dsimp only
    rw [copied_of_notMem (by omega)]
    exact hk r' hr' i hi

end Device

end IosEmu
