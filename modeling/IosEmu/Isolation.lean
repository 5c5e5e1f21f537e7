import IosEmu.RefineOn
import IosEmu.Registers
import IosEmu.SystemImage

/-!
# What an app can see of the host

A path that a guest names leads into its container or into a tree of the system image. So of the
host's tree the services look at these, and at the directories above them, and at nothing else : a
process runs alike on two hosts that agree in them (`host_unseen`). And they change nothing that is
neither in the container nor in the image (`host_untouched`).

So two apps with containers apart run side by side, in any order of their services, as if each were
alone on the host (`apps_apart`). What this needs of them is that they do not write to the image
they share, which they can, by opening a file of it for reading with `O_APPEND`.
-/

open SysLib Prog Relation

namespace IosEmu

/-! ## A part of the host's tree -/

section Restrict

variable {V : List Component → Prop} [DecidablePred V]

/-- The tree with nothing but the paths in `V`. -/
def HostFs.restrict (V : List Component → Prop) [DecidablePred V] (fs : HostFs) : HostFs where
  node path := if V path then fs.node path else none

/-- The path that a request is about. -/
def HostRequest.path : HostRequest → List Component
  | stat path => path.components
  | mkdir path => path
  | openFile path _ _ => path.components
  | read file _ => file.path
  | seek file => file.path

/-- What the kernel answers about a path in `V` depends on the paths in `V` only. -/
structure Kernel.LooksIn (V : List Component → Prop) [DecidablePred V] (kernel : Kernel) :
    Prop where
  refuses_eq : ∀ fs (request : HostRequest), V request.path →
    kernel.refuses (fs.restrict V) request = kernel.refuses fs request
  shortRead_eq : ∀ fs (f : File) n, V f.path →
    kernel.shortRead (fs.restrict V) f n = kernel.shortRead fs f n
  writeFault_eq : ∀ fs (f : File) data, V f.path →
    kernel.writeFault (fs.restrict V) f data = kernel.writeFault fs f data

theorem Kernel.looksIn_willing : Kernel.willing.LooksIn V :=
  ⟨fun _ _ _ => rfl, fun _ _ _ _ => rfl, fun _ _ _ _ => rfl⟩

namespace HostFs

variable {path : List Component} (h : V path)

include h

theorem node_restrict (fs : HostFs) : (fs.restrict V).node path = fs.node path :=
  if_pos h

theorem isDir_restrict (fs : HostFs) : (fs.restrict V).isDir path = fs.isDir path := by
  rw [isDir, node_restrict h, isDir]

theorem content_restrict (fs : HostFs) : (fs.restrict V).content path = fs.content path := by
  rw [content, node_restrict h, content]

theorem restrict_set (fs : HostFs) (node : Node) :
    (fs.set path node).restrict V = (fs.restrict V).set path node := by
  refine congrArg HostFs.mk (funext fun q => ?_)
  by_cases hq : q = path
  · subst hq
    simp only [set, if_pos h, if_true]
  · simp only [set, restrict, if_neg hq]

theorem refines_ask {kernel : Kernel} (hk : kernel.LooksIn V) {request : HostRequest}
    (hpath : request.path = path) :
    Refines (restrict V) (ask kernel request) (ask kernel request) := by
  refine Refines.get_bind fun fs => ?_
  rw [hk.refuses_eq fs request (hpath ▸ h)]
  rcases kernel.refuses fs request with _ | e
  · exact refines_pure _
  · exact refines_fail _

end HostFs

theorem HostFs.pathExists_restrict {kernel : Kernel} (hk : kernel.LooksIn V) {path : UnixPath}
    (h : V path.components) (fs : HostFs) :
    (fs.restrict V).pathExists kernel path = fs.pathExists kernel path := by
  rw [pathExists, hk.refuses_eq fs (.stat path) h, node_restrict h, pathExists]

namespace File

variable {kernel : Kernel} (hk : kernel.LooksIn V) {f : File} (h : V f.path)

include hk h

theorem refines_read (count : ℕ) :
    Refines (HostFs.restrict V) (f.read kernel count) (f.read kernel count) := by
  unfold File.read
  split_ifs
  · exact refines_fail _
  · refine (HostFs.refines_ask h hk rfl).bind fun _ => Refines.get_bind fun fs => ?_
    rw [HostFs.node_restrict h]
    rcases fs.node f.path with _ | _ | content
    · exact refines_fail _
    · exact refines_fail _
    · dsimp only
      rw [hk.shortRead_eq _ _ _ h]
      exact refines_pure _

theorem refines_seek (target : SeekFrom) :
    Refines (HostFs.restrict V) (f.seek kernel target) (f.seek kernel target) := by
  refine (HostFs.refines_ask h hk rfl).bind fun _ => Refines.get_bind fun fs => ?_
  rw [HostFs.content_restrict h]
  cases target <;> dsimp only <;> split_ifs
  all_goals first | exact refines_pure _ | exact refines_fail _

omit hk in
theorem refines_put (data : List U8) :
    Refines (HostFs.restrict V) (f.put data) (f.put data) := by
  refine Refines.get_bind fun fs => ?_
  simp only [writePos, HostFs.content_restrict h]
  split_ifs
  all_goals first
    | exact refines_pure _
    | refine Refines.bind (refines_modify fun fs => ?_) fun _ => refines_pure _
      rw [HostFs.restrict_set h, HostFs.content_restrict h]

theorem refines_writeAll (data : List U8) :
    Refines (HostFs.restrict V) (f.writeAll kernel data) (f.writeAll kernel data) := by
  unfold File.writeAll
  split_ifs
  · exact refines_pure _
  · exact refines_pure _
  · refine Refines.get_bind fun fs => ?_
    rw [hk.writeFault_eq fs f data h]
    rcases kernel.writeFault fs f data with _ | ⟨n, e⟩
    · exact (refines_put h _).bind fun _ => refines_pure _
    · exact (refines_put h _).bind fun _ => refines_pure _

end File

namespace OpenOptions

theorem refines_openNode {path : List Component} (h : V path) (hdir : V path.dropLast)
    (access : AccessMode) (creation : CreationMode) :
    Refines (HostFs.restrict V) (openNode path access creation)
      (openNode path access creation) := by
  have hempty : Refines (HostFs.restrict V)
      (do
        Prog.modify fun fs => fs.set path (.file [])
        return ⟨path, access.read, access.write, access.append, 0⟩ : FsM File)
      (do
        Prog.modify fun fs => fs.set path (.file [])
        return ⟨path, access.read, access.write, access.append, 0⟩) :=
    Refines.bind (refines_modify fun fs => HostFs.restrict_set h fs _) fun _ => refines_pure _
  refine Refines.get_bind fun fs => ?_
  rw [HostFs.node_restrict h, HostFs.isDir_restrict hdir]
  rcases fs.node path with _ | _ | content <;> dsimp only <;> split_ifs
  all_goals first | exact hempty | exact refines_pure _ | exact refines_fail _

theorem refines_openPath {kernel : Kernel} (hk : kernel.LooksIn V) {path : UnixPath}
    (h : V path.components) (hdir : V path.components.dropLast) (o : OpenOptions) :
    Refines (HostFs.restrict V) (o.openPath kernel path) (o.openPath kernel path) := by
  unfold openPath
  split_ifs
  · exact refines_fail _
  · exact (refines_ofResult _).bind fun _ => (refines_ofResult _).bind fun _ =>
      (HostFs.refines_ask h hk rfl).bind fun _ => refines_openNode h hdir _ _

end OpenOptions

end Restrict

/-! ## System calls -/

section Sight

variable {V : List Component → Prop} [DecidablePred V]

/-- Every open file is in `V`. -/
def FdTable.In (V : List Component → Prop) (t : FdTable) : Prop :=
  ∀ fd f, t.slots.get? fd = some (.file f) → V f.path

omit [DecidablePred V] in
theorem FdTable.In.insert {t fds : FdTable} (h : t.In V) {fd : BitVec 32} {f : File}
    (hslots : fds.slots = t.slots.insert fd (.file f)) (hf : V f.path) : fds.In V := by
  intro fd' f' hget
  rw [hslots, SortedMap.get?_insert] at hget
  split_ifs at hget
  · obtain rfl := FdObject.file.inj (Option.some.inj hget)
    exact hf
  · exact h fd' f' hget

omit [DecidablePred V] in
theorem FdTable.In.close {t : FdTable} (h : t.In V) (fd : BitVec 32) : (t.close fd).2.In V := by
  intro fd' f hget
  unfold FdTable.close at hget
  split_ifs at hget
  · exact h fd' f hget
  · exact h fd' f (SortedMap.get?_erase_eq_some_iff.1 hget).2

omit [DecidablePred V] in
theorem FdTable.in_default : FdTable.default.In V := by
  intro fd f hget
  simp only [FdTable.default, SortedMap.get?_insert, SortedMap.get?_empty] at hget
  split_ifs at hget <;> simp at hget

/-- The base directories that guest paths are translated below. -/
def Sandbox.bases (sb : Sandbox) : List (List Component) :=
  sb.hostRoot.components :: systemTrees.map fun tree => (sb.systemBase tree).components

/-- The path is in a base directory, or above one. -/
def Sandbox.InSight (sb : Sandbox) (path : List Component) : Prop :=
  ∃ base ∈ sb.bases, base <+: path ∨ path <+: base

instance (sb : Sandbox) : DecidablePred sb.InSight :=
  fun path => inferInstanceAs (Decidable (∃ base ∈ sb.bases, base <+: path ∨ path <+: base))

theorem Sandbox.base_of_translate {sb : Sandbox} {iosPath : List Char} {host : UnixPath}
    {ro : Bool} (h : sb.translate iosPath = .ok (host, ro)) :
    ∃ base ∈ sb.bases, base <+: host.components := by
  rcases below_translate h with ⟨-, comps, -, -, heq⟩ | ⟨-, tree, htree, comps, -, -, heq⟩
  · exact ⟨_, List.mem_cons_self, heq ▸ List.prefix_append _ _⟩
  · exact ⟨_, List.mem_cons_of_mem _ (List.mem_map_of_mem htree), heq ▸ List.prefix_append _ _⟩

theorem Sandbox.inSight_of_translate {sb : Sandbox} {iosPath : List Char} {host : UnixPath}
    {ro : Bool} (h : sb.translate iosPath = .ok (host, ro)) :
    sb.InSight host.components ∧ sb.InSight host.components.dropLast := by
  obtain ⟨base, hmem, hbase⟩ := base_of_translate h
  exact ⟨⟨base, hmem, Or.inl hbase⟩, base, hmem,
    List.prefix_or_prefix_of_prefix hbase (List.dropLast_prefix _)⟩

namespace SyscallCtx

/-- The context on a host with nothing but the paths in `V`. -/
def restrict (V : List Component → Prop) [DecidablePred V] (c : SyscallCtx) : SyscallCtx :=
  { c with fs := c.fs.restrict V }

/-- The program does the same on a host with nothing but the paths in `V`, and opens no others. -/
def Unseeing (V : List Component → Prop) [DecidablePred V] {ε α : Type} (Q : α → Prop)
    (x : Prog ε Panic SyscallCtx α) : Prop :=
  RefinesOn (fun c => c.fds.In V) (restrict V) Q x x

theorem unseeing_onFs {α : Type} {Q : α → Prop} {x : FsM α}
    (hx : Refines (HostFs.restrict V) x x) (hQ : ∀ fs a fs', x fs = .ok a fs' → Q a) :
    Unseeing V Q (onFs x) := by
  have hon : RefinesOn (fun _ => True) (HostFs.restrict V) Q x x :=
    fun fs _ => ⟨hx fs, fun _ _ => trivial, hQ fs⟩
  exact RefinesOn.mapErr (hon.zoom (by intro _; rfl) (by intro _ _; rfl) (by intro _ _; trivial)
    (by intro _ _ h _; exact h)) _

theorem unseeing_setFile (fd : BitVec 32) {f : File} (hf : V f.path) :
    Unseeing V (fun _ => True) (setFile fd f) :=
  refinesOn_modify (fun _ => rfl) fun _ h => h.insert rfl hf

theorem unseeing_readMem {α : Type} (read : GuestMemory → EmuResult α) :
    Unseeing V (fun _ => True) (readMem read) :=
  RefinesOn.get_bind fun _ _ => (refinesOn_ofResult _).mono fun _ _ => trivial

theorem unseeing_sysClose : Unseeing V (fun _ => True) Unix.sysClose := by
  refine RefinesOn.get_bind fun c hc => ?_
  have hfds := hc.close ((c.cpu.arg 0).setWidth 32)
  have hsame : (c.restrict V).fds.close (((c.restrict V).cpu.arg 0).setWidth 32) =
      c.fds.close ((c.cpu.arg 0).setWidth 32) := rfl
  rw [hsame]
  generalize c.fds.close ((c.cpu.arg 0).setWidth 32) = closing at hfds ⊢
  obtain ⟨closed, fds⟩ := closing
  refine RefinesOn.bind (refinesOn_modify (fun _ => rfl) fun _ _ => hfds) fun _ _ => ?_
  cases closed
  · exact refinesOn_fail _
  · exact refinesOn_pure trivial

section Handlers

variable {host : Host} (hk : host.kernel.LooksIn V)

include hk

theorem unseeing_readBytes (fd : BitVec 32) (count : ℕ) :
    Unseeing V (fun _ => True) (Unix.readBytes host fd count) := by
  refine RefinesOn.get_bind fun c hc => ?_
  dsimp only [restrict]
  rcases hget : c.fds.slots.get? fd with _ | _ | _ | _ | f | _
  case some.file =>
    have hf := hc fd f hget
    refine RefinesOn.bind (Q := fun r => V r.2.path)
      (unseeing_onFs (f.refines_read hk hf count) ?_) fun r hr =>
        (unseeing_setFile fd hr).bind fun _ _ => refinesOn_pure trivial
    rintro fs ⟨bytes, f'⟩ fs' hread
    obtain ⟨⟨pos, rfl⟩, -⟩ := File.read_eq_ok hread
    exact hf
  case some.stdin => exact refinesOn_pure trivial
  all_goals exact refinesOn_fail _

theorem unseeing_writeBytes (fd : BitVec 32) (data : List U8) :
    Unseeing V (fun _ => True) (Unix.writeBytes host fd data) := by
  refine RefinesOn.get_bind fun c hc => ?_
  dsimp only [restrict]
  rcases hget : c.fds.slots.get? fd with _ | _ | _ | _ | f | _
  case some.file =>
    have hf := hc fd f hget
    refine RefinesOn.bind (Q := fun r => V r.1.path)
      (unseeing_onFs (f.refines_writeAll hk hf data) ?_) fun r hr =>
        (unseeing_setFile fd hr).bind fun _ _ => (refinesOn_ofResult _).bind fun _ _ =>
          refinesOn_pure trivial
    rintro fs ⟨f', result⟩ fs' hwrite
    rcases f.writeAll_apply host.kernel data fs with ⟨r, h⟩ | ⟨-, pos, content, r, h⟩
    · obtain ⟨hpair, -⟩ := Outcome.ok.inj (h.symm.trans hwrite)
      obtain ⟨rfl, -⟩ := Prod.mk.inj hpair
      exact hf
    · obtain ⟨hpair, -⟩ := Outcome.ok.inj (h.symm.trans hwrite)
      obtain ⟨rfl, -⟩ := Prod.mk.inj hpair
      exact hf
  case some.stdout => exact refinesOn_pure trivial
  case some.stderr => exact refinesOn_pure trivial
  all_goals exact refinesOn_fail _

theorem unseeing_sysLseek : Unseeing V (fun _ => True) (Unix.sysLseek host) := by
  refine RefinesOn.get_bind fun c hc => ?_
  dsimp only [restrict]
  rcases hget : c.fds.slots.get? ((c.cpu.arg 0).setWidth 32) with _ | _ | _ | _ | f | _
  case some.file =>
    have hf := hc _ f hget
    refine (refinesOn_ofResult _).bind fun target _ =>
      RefinesOn.bind (Q := fun r => V r.2.path)
        (unseeing_onFs (f.refines_seek hk hf target) ?_) fun r hr =>
          (unseeing_setFile _ hr).bind fun _ _ => refinesOn_pure trivial
    rintro fs ⟨pos, f'⟩ fs' hseek
    obtain ⟨pos', rfl⟩ := File.seek_eq_ok hseek
    exact hf
  all_goals exact refinesOn_fail _

end Handlers

section Paths

variable {host : Host} {vfs : Sandbox} (hk : host.kernel.LooksIn vfs.InSight)

include hk

theorem unseeing_sysOpen : Unseeing vfs.InSight (fun _ => True) (Unix.sysOpen host vfs) := by
  refine RefinesOn.get_bind fun c hc => (unseeing_readMem _).bind fun iosPath _ =>
    (refinesOn_ofResult _).bind fun ⟨path, ro⟩ htranslate => ?_
  obtain ⟨hpath, hdir⟩ := Sandbox.inSight_of_translate (mapError_eq_ok.1 htranslate)
  have hcpu : (c.restrict vfs.InSight).cpu = c.cpu := rfl
  simp only [hcpu]
  split_ifs
  · exact refinesOn_fail _
  · refine RefinesOn.bind (Q := fun f => vfs.InSight f.path)
      (unseeing_onFs (OpenOptions.refines_openPath hk hpath hdir _) ?_) fun f hf => ?_
    · intro fs f fs' hopen
      obtain ⟨access, creation, -, -, rfl, -⟩ := OpenOptions.openPath_eq_ok hopen
      exact hpath
    · refine RefinesOn.get_bind fun c' hc' => RefinesOn.bind (refinesOn_ofChecked _) ?_
      rintro ⟨fd, fds⟩ hinsert
      have hfds : fds.In vfs.InSight := hc'.insert (slots_of_insert hinsert) hf
      refine RefinesOn.bind (refinesOn_modify (fun _ => rfl) fun _ _ => hfds) fun _ _ => ?_
      exact refinesOn_pure trivial

theorem unseeing_sysAccess : Unseeing vfs.InSight (fun _ => True) (Unix.sysAccess host vfs) := by
  refine RefinesOn.get_bind fun c hc => (unseeing_readMem _).bind fun iosPath _ =>
    (refinesOn_ofResult _).bind fun ⟨path, ro⟩ htranslate => ?_
  obtain ⟨hpath, -⟩ := Sandbox.inSight_of_translate (mapError_eq_ok.1 htranslate)
  have hexists : (c.restrict vfs.InSight).fs.pathExists host.kernel path =
      c.fs.pathExists host.kernel path :=
    HostFs.pathExists_restrict hk hpath c.fs
  simp only [hexists]
  split_ifs
  · exact refinesOn_pure trivial
  · exact refinesOn_fail _

/-- Every handler keeps to what is in sight. -/
theorem callRules_unseeing :
    CallRules host vfs fun {_} x => Unseeing vfs.InSight (fun _ => True) x where
  pure _ := refinesOn_pure trivial
  bind hx hf := RefinesOn.bind hx fun a _ => hf a
  fail _ := refinesOn_fail _
  ofResult _ := (refinesOn_ofResult _).mono fun _ _ => trivial
  ofChecked _ := (refinesOn_ofChecked _).mono fun _ _ => trivial
  attempt hx := RefinesOn.attempt hx
  get hf hsame := RefinesOn.get_bind fun c _ => by
    rw [hsame c (c.restrict vfs.InSight) (fun _ => rfl) rfl]
    exact hf c
  onMem _ x := by
    have hx : RefinesOn (fun _ => True) id (fun _ => True) x x :=
      (refines_id x).refinesOn fun _ _ _ _ => trivial
    exact RefinesOn.mapErr (hx.zoom (by intro _; rfl) (by intro _ _; rfl)
      (by intro _ _; trivial) (by intro _ _ h _; exact h)) _
  readBytes := unseeing_readBytes hk
  writeBytes := unseeing_writeBytes hk
  openFile := unseeing_sysOpen hk
  close := unseeing_sysClose
  lseek := unseeing_sysLseek hk
  access := unseeing_sysAccess hk
  exit := RefinesOn.bind (refinesOn_modify (by intro _; rfl) (by intro _ h; exact h)) fun _ _ =>
    refinesOn_pure trivial

theorem unseeing_dispatch (d : SyscallDispatcher) :
    Unseeing vfs.InSight (fun _ => True) (dispatch host vfs d) := by
  refine (refinesOn_ofChecked _).bind fun serviced _ => RefinesOn.get_bind fun c _ =>
    (refinesOn_ofChecked _).bind fun ⟨cls, number⟩ _ => ?_
  dsimp only
  rcases hh : handlerOf host vfs cls number with _ | handler
  · exact (refinesOn_ofChecked _).bind fun _ _ => RefinesOn.bind
      (refinesOn_modify (by intro _; rfl) (by intro _ h; exact h)) fun _ _ =>
        refinesOn_pure trivial
  · exact (RefinesOn.attempt ((callRules_unseeing hk).handlerOf hh)).bind fun result _ =>
      RefinesOn.bind (refinesOn_modify (by intro _; rfl) (by intro _ h; exact h)) fun _ _ =>
        refinesOn_pure trivial

end Paths

end SyscallCtx

end Sight

/-! ## Services -/

namespace Machine

variable {W : Type}

section Trampolines

/-! ### Trampolines and the files -/

/-- What a trampoline has no part in. -/
def outside (mach : Machine W) : Sandbox × Files :=
  (mach.vfs, ⟨mach.fds, mach.fs⟩)

/-- The machine on a host with nothing but the paths in `V`. -/
def restrict (V : List Component → Prop) [DecidablePred V] (mach : Machine W) : Machine W :=
  { mach with fs := mach.fs.restrict V }

/-- The program leaves the files alone. -/
def Spares (x : MachM W Unit) : Prop :=
  x.Steps (InvImage Eq outside)

variable (V : List Component → Prop) [DecidablePred V]

theorem restrict_patchLazyPointer (target : Target) (laPtr resolved : U64) :
    Refines (restrict V) (patchLazyPointer target laPtr resolved : MachM W Unit)
      (patchLazyPointer target laPtr resolved) := by
  have honMem : ∀ x : MemM Unit, Refines (restrict V) (onMem x : MachM W Unit) (onMem x) :=
    fun x => Refines.zoom (refines_id x) (by intro _; rfl) (by intro _ _; rfl)
  refine (honMem _).attempt.bind fun r => ?_
  rcases r with e | u
  · exact refines_pure _
  · exact (honMem _).attempt.bind fun _ => refines_pure _

theorem spares_patchLazyPointer (target : Target) (laPtr resolved : U64) :
    Spares (patchLazyPointer target laPtr resolved : MachM W Unit) := by
  have honMem : ∀ x : MemM Unit, Spares (onMem x : MachM W Unit) :=
    fun x => steps_zoom_of_eq x fun _ _ => rfl
  refine Steps.bind (Steps.attempt (honMem _)) fun r => ?_
  rcases r with e | u
  · exact steps_pure _
  · exact Steps.bind (Steps.attempt (honMem _)) fun _ => steps_pure _

theorem restrict_returnToCaller :
    Refines (restrict V) (returnToCaller : MachM W Unit) returnToCaller :=
  refines_modify fun _ => rfl

theorem spares_returnToCaller : Spares (returnToCaller : MachM W Unit) :=
  steps_modify_of_eq fun _ => rfl

theorem restrict_dyldStubBinder (target : Target) :
    Refines (restrict V) (dyldStubBinder target : MachM W Unit) (dyldStubBinder target) := by
  refine Refines.get_bind fun mach => ?_
  dsimp only [restrict]
  rcases mach.mem.readU64 mach.cpu.sp with e | word
  · exact restrict_returnToCaller V
  dsimp only
  rcases mach.lazyBinds.get? (word &&& 0xffffffff) with _ | ⟨symbol, laPtr⟩
  · exact restrict_returnToCaller V
  dsimp only
  rcases mach.symbolStubs.get? symbol with _ | resolved
  · exact restrict_returnToCaller V
  · exact (restrict_patchLazyPointer V target laPtr resolved).bind fun _ =>
      refines_modify fun _ => rfl

theorem spares_dyldStubBinder (target : Target) :
    Spares (dyldStubBinder target : MachM W Unit) := by
  refine Steps.bind steps_get fun mach => ?_
  rcases mach.mem.readU64 mach.cpu.sp with e | word
  · exact spares_returnToCaller
  dsimp only
  rcases mach.lazyBinds.get? (word &&& 0xffffffff) with _ | ⟨symbol, laPtr⟩
  · exact spares_returnToCaller
  dsimp only
  rcases mach.symbolStubs.get? symbol with _ | resolved
  · exact spares_returnToCaller
  · exact Steps.bind (spares_patchLazyPointer target laPtr resolved) fun _ =>
      steps_modify_of_eq fun _ => rfl

theorem restrict_callImport (env : HostEnvironment W) (symbol : String) :
    Refines (restrict V) (callImport env symbol) (callImport env symbol) := by
  refine Refines.get_bind fun mach => Refines.bind (Refines.mapErr (Refines.zoom (refines_id _)
    (by intro _; rfl) (by intro _ _; rfl)) _) fun disp => ?_
  split_ifs
  · exact Refines.bind (refines_modify fun _ => rfl) fun _ => restrict_returnToCaller V
  · exact restrict_returnToCaller V

theorem spares_callImport (env : HostEnvironment W) (symbol : String) :
    Spares (callImport env symbol) := by
  refine Steps.bind steps_get fun mach => Steps.bind (Steps.mapErr (steps_zoom_of_eq _ ?_) _)
    fun disp => ?_
  · exact fun _ _ => rfl
  · split_ifs
    · exact Steps.bind (steps_modify_of_eq fun _ => rfl) fun _ => spares_returnToCaller
    · exact spares_returnToCaller

theorem restrict_serviceTrampoline (target : Target) (env : HostEnvironment W) (addr : U64) :
    Refines (restrict V) (serviceTrampoline target env addr)
      (serviceTrampoline target env addr) := by
  refine Refines.get_bind fun mach => ?_
  dsimp only [restrict]
  rcases mach.trampolines.get? addr with _ | symbol
  · exact restrict_returnToCaller V
  · dsimp only
    split_ifs
    · exact restrict_dyldStubBinder V target
    · exact restrict_callImport V env symbol

theorem spares_serviceTrampoline (target : Target) (env : HostEnvironment W) (addr : U64) :
    Spares (serviceTrampoline target env addr) := by
  refine Steps.bind steps_get fun mach => ?_
  rcases mach.trampolines.get? addr with _ | symbol
  · exact spares_returnToCaller
  · dsimp only
    split_ifs
    · exact spares_dyldStubBinder target
    · exact spares_callImport env symbol

end Trampolines

/-! ### What is in sight -/

/-- A machine of the sandbox `vfs`, with no file open that is out of sight. -/
structure Confined (vfs : Sandbox) (mach : Machine W) : Prop where
  vfs_eq : mach.vfs = vfs
  fds_in : mach.fds.In vfs.InSight

variable {vfs : Sandbox}

theorem Confined.of_restrict {mach mach' : Machine W} (h : mach.Confined vfs)
    (hsame : mach'.restrict vfs.InSight = mach.restrict vfs.InSight) : mach'.Confined vfs := by
  have hvfs : (mach'.restrict vfs.InSight).vfs = (mach.restrict vfs.InSight).vfs := by rw [hsame]
  have hfds : (mach'.restrict vfs.InSight).fds = (mach.restrict vfs.InSight).fds := by rw [hsame]
  change mach'.vfs = mach.vfs at hvfs
  change mach'.fds = mach.fds at hfds
  exact ⟨hvfs.trans h.vfs_eq, hfds ▸ h.fds_in⟩

theorem refinesOn_serviceSyscall {host : Host} (hk : host.kernel.LooksIn vfs.InSight) :
    RefinesOn (Confined vfs) (restrict vfs.InSight) (fun _ => True)
      (serviceSyscall host : MachM W Unit) (serviceSyscall host) := by
  refine RefinesOn.get_bind fun mach hmach => ?_
  obtain rfl := hmach.vfs_eq
  refine RefinesOn.bind (RefinesOn.mapErr (RefinesOn.zoom
    (SyscallCtx.unseeing_dispatch hk mach.dispatcher) (by intro _; rfl) (by intro _ _; rfl)
    (fun _ h => h.fds_in) ?_) _) fun _ _ => ?_
  · exact fun _ _ h hc => ⟨h.vfs_eq, hc⟩
  · exact refinesOn_modify (by intro _; rfl) (by intro _ h; exact ⟨h.vfs_eq, h.fds_in⟩)

theorem refinesOn_serviceTrampoline (target : Target) (env : HostEnvironment W) (addr : U64) :
    RefinesOn (Confined vfs) (restrict vfs.InSight) (fun _ => True)
      (serviceTrampoline target env addr) (serviceTrampoline target env addr) := by
  refine (restrict_serviceTrampoline vfs.InSight target env addr).refinesOn ?_
  refine (spares_serviceTrampoline target env addr).mono fun mach mach' heq h => ?_
  obtain ⟨hvfs, hfiles⟩ := Prod.mk.inj heq
  obtain ⟨hfds, -⟩ := Files.mk.inj hfiles
  exact ⟨hvfs ▸ h.vfs_eq, hfds ▸ h.fds_in⟩

theorem refinesOn_turn {host : Host} (hk : host.kernel.LooksIn vfs.InSight)
    (env : HostEnvironment W) (event : ExecEvent) :
    RefinesOn (Confined vfs) (restrict vfs.InSight) (fun _ => True) (turn host env event)
      (turn host env event) := by
  cases event with
  | «syscall» imm =>
    exact (refinesOn_serviceSyscall hk).bind fun _ _ => RefinesOn.get_bind fun _ _ =>
      refinesOn_pure trivial
  | trampolineCall addr =>
    exact (refinesOn_serviceTrampoline _ env addr).bind fun _ _ => refinesOn_pure trivial
  | exited code => exact refinesOn_pure trivial
  | breakpoint imm => exact refinesOn_pure trivial
  | fault pc reason => exact refinesOn_fail _

end Machine

section Runs

variable {b : Build} {vfs : Sandbox} {l : List Service} {mach mach' : Machine ObjcRuntime}

theorem Service.run_restrict {s : Service} (hk : s.kernel.LooksIn vfs.InSight)
    (h : mach.Confined vfs) :
    (s.run b mach).mapState (Machine.restrict vfs.InSight) =
        s.run b (mach.restrict vfs.InSight) ∧
      ∀ mach', (s.run b mach).state? = some mach' → mach'.Confined vfs := by
  have henter : (s.enter mach).Confined vfs := ⟨h.vfs_eq, h.fds_in⟩
  have hk' : (s.host b).kernel.LooksIn vfs.InSight := hk
  obtain ⟨heq, hkeep, -⟩ := Machine.refinesOn_turn hk' (hleEnvironment b.profile) s.event
    (s.enter mach) henter
  exact ⟨heq, hkeep⟩

/-- A process runs as on a host with nothing but what it has in sight. -/
theorem runServices_restrict : ∀ {l : List Service} {mach : Machine ObjcRuntime},
    (∀ s ∈ l, s.kernel.LooksIn vfs.InSight) → mach.Confined vfs →
      (runServices b l mach).map (Machine.restrict vfs.InSight) =
          runServices b l (mach.restrict vfs.InSight) ∧
        ∀ mach', runServices b l mach = some mach' → mach'.Confined vfs
  | [], mach, _, h => by
    refine ⟨rfl, ?_⟩
    rintro _ ⟨⟩
    exact h
  | s :: l, mach, hl, h => by
    obtain ⟨heq, hkeep⟩ := Service.run_restrict (b := b) (hl s List.mem_cons_self) h
    unfold runServices
    rw [← heq]
    rcases hrun : s.run b mach with ⟨v, next⟩ | ⟨e, next⟩ | e <;> rw [hrun] at hkeep
    · exact runServices_restrict (fun t ht => hl t (List.mem_cons_of_mem _ ht)) (hkeep next rfl)
    · exact runServices_restrict (fun t ht => hl t (List.mem_cons_of_mem _ ht)) (hkeep next rfl)
    · refine ⟨rfl, ?_⟩
      rintro _ ⟨⟩

/-- A process runs alike on two hosts that agree in what it has in sight : it panics alike, and
leaves behind the same machine on hosts that agree again. -/
theorem host_unseen (b : Build) (l : List Service) (mach mach' : Machine ObjcRuntime)
    (hl : ∀ s ∈ l, s.kernel.LooksIn mach.vfs.InSight) (hfds : mach.fds.In mach.vfs.InSight)
    (hsame : mach'.restrict mach.vfs.InSight = mach.restrict mach.vfs.InSight) :
    (runServices b l mach').map (Machine.restrict mach.vfs.InSight) =
      (runServices b l mach).map (Machine.restrict mach.vfs.InSight) := by
  have hmach : mach.Confined mach.vfs := ⟨rfl, hfds⟩
  rw [(runServices_restrict hl (hmach.of_restrict hsame)).1, (runServices_restrict hl hmach).1,
    hsame]

/-- A system call with three arguments. -/
def callService (number a b c : U64) : Service where
  kernel := .willing
  clock := none
  cpu :=
    { CpuContext.default with
      x := fun i => if i = 16 then number else if i = 0 then a else if i = 1 then b
        else if i = 2 then c else 0 }
  trampoline := none

/-- A guest that makes the file whose name is at the start of the heap, writes the first byte of the
name to it, goes back and reads. -/
def fileCalls : List Service :=
  [callService 5 0x100000000 0x202 0, callService 4 3 0x100000000 1, callService 199 3 0 0,
    callService 3 3 0x100000100 1]

/-- A process with the text at the start of its heap. -/
def textMachine (vfs : Sandbox) (fs : HostFs) (text : String) : Machine ObjcRuntime :=
  { plainMachine with vfs, fs, mem := (testCall 0 0 0 0 text).mem }

/-- A tree with these directories and nothing else. -/
def dirTree (dirs : List UnixPath) : HostFs where
  node path := if path ∈ dirs.map UnixPath.components then some .dir else none

theorem node_dirTree_cons {dir : UnixPath} {dirs : List UnixPath} {path : List Component}
    (h : path ≠ UnixPath.components dir) :
    (dirTree (dir :: dirs)).node path = (dirTree dirs).node path := by
  simp only [dirTree, List.map_cons, List.mem_cons, h, false_or]

/-- An app that makes a file in its bundle. -/
def fileMachine : Machine ObjcRuntime :=
  textMachine testSandbox (dirTree ["/c/Applications/U/A.app".toList]) "x"

theorem run_fileCalls : ∃ last, runServices ⟨.release, .host⟩ fileCalls fileMachine = some last ∧
    last.mem.flat.byte 0x100000100 = some 0x78 ∧
    last.fs.node (UnixPath.components "/c/Applications/U/A.app/x".toList) =
      some (.file [0x78]) := by
  have hrun : (runServices ⟨.release, .host⟩ fileCalls fileMachine).any (fun last =>
      last.mem.flat.byte 0x100000100 == some 0x78 &&
        decide (last.fs.node (UnixPath.components "/c/Applications/U/A.app/x".toList) =
          some (.file [0x78]))) = true := by
    decide +kernel
  obtain ⟨last, hlast, hcheck⟩ := (Option.any_eq_true _ _).1 hrun
  rw [Bool.and_eq_true, beq_iff_eq, decide_eq_true_iff] at hcheck
  exact ⟨last, hlast, hcheck⟩

/-- The file reads back, and a directory that no path of the app leads to is not seen. -/
theorem host_unseen_files :
    (∃ last, runServices ⟨.release, .host⟩ fileCalls fileMachine = some last ∧
      last.mem.flat.byte 0x100000100 = some 0x78) ∧
    (runServices ⟨.release, .host⟩ fileCalls { fileMachine with
        fs := dirTree ["/secret".toList, "/c/Applications/U/A.app".toList] }).map
        (Machine.restrict testSandbox.InSight) =
      (runServices ⟨.release, .host⟩ fileCalls fileMachine).map
        (Machine.restrict testSandbox.InSight) := by
  obtain ⟨last, hlast, hread, -⟩ := run_fileCalls
  refine ⟨⟨last, hlast, hread⟩,
    host_unseen ⟨.release, .host⟩ fileCalls fileMachine _ ?_ FdTable.in_default ?_⟩
  · intro s hs
    simp only [fileCalls, List.mem_cons, List.not_mem_nil, or_false] at hs
    rcases hs with rfl | rfl | rfl | rfl <;> exact Kernel.looksIn_willing
  · refine congrArg (fun node => { fileMachine with fs := ⟨node⟩ }) (funext fun path => ?_)
    by_cases hin : fileMachine.vfs.InSight path
    · have hpath : path ≠ UnixPath.components "/secret".toList := by
        rintro rfl
        revert hin
        decide
      rw [if_pos hin, if_pos hin]
      exact node_dirTree_cons hpath
    · exact (if_neg hin).trans (if_neg hin).symm

end Runs

/-! ## What is not in the container and not in the image -/

/-- No open file outside of `W` is writable, and outside of it the tree is that of `fs₀`. -/
structure WritesIn (W : List Component → Prop) (fs₀ : HostFs) (s : Files) : Prop where
  fds : ∀ fd f, s.fds.slots.get? fd = some (.file f) → f.writable = true → W f.path
  tree : ∀ path, ¬W path → s.fs.node path = fs₀.node path

/-- What is opened outside of `W` is not writable, not created and not truncated. -/
def OpensIn (W : List Component → Prop) (opens : UnixPath → OpenOptions → Prop) : Prop :=
  ∀ path o access creation, opens path o → o.accessMode = .ok access →
    o.creationMode = .ok creation → ¬W path.components →
      access.write = false ∧ creation.create = false ∧ creation.truncate = false

namespace WritesIn

variable {W : List Component → Prop} {fs₀ : HostFs} {s s' : Files}

theorem insert (h : WritesIn W fs₀ s) {fd : BitVec 32} {f : File} {fds : FdTable} {fs : HostFs}
    (hslots : fds.slots = s.fds.slots.insert fd (.file f))
    (hf : f.writable = true → W f.path)
    (hfs : ∀ path, ¬W path → fs.node path = s.fs.node path) : WritesIn W fs₀ ⟨fds, fs⟩ := by
  refine ⟨fun fd' f' hget => ?_, fun path hpath => (hfs path hpath).trans (h.tree path hpath)⟩
  dsimp only at hget
  rw [hslots, SortedMap.get?_insert] at hget
  split_ifs at hget
  · obtain rfl := FdObject.file.inj (Option.some.inj hget)
    exact hf
  · exact h.fds fd' f' hget

theorem node_set {path : List Component} (hpath : W path) (fs : HostFs) (node : Node)
    {q : List Component} (hq : ¬W q) : (fs.set path node).node q = fs.node q :=
  HostFs.node_set_of_ne fun heq => hq (heq ▸ hpath)

theorem step {opens : UnixPath → OpenOptions → Prop} (hopens : OpensIn W opens)
    (h : WritesIn W fs₀ s) (hstep : FileStep opens s s') : WritesIn W fs₀ s' := by
  cases hstep with
  | move fd f pos hget => exact h.insert rfl (h.fds fd f hget) fun _ _ => rfl
  | write fd f pos content hget hwritable =>
    have hf := h.fds fd f hget hwritable
    exact h.insert rfl (fun _ => hf) fun q hq => node_set hf _ _ hq
  | close fd =>
    refine ⟨fun fd' f hget => ?_, h.tree⟩
    unfold FdTable.close at hget
    split_ifs at hget
    · exact h.fds fd' f hget
    · exact h.fds fd' f (SortedMap.get?_erase_eq_some_iff.1 hget).2
  | opened path o access creation p fd fds fs ho haccess hcreation hinsert htree =>
    have hsafe := hopens path o access creation ho haccess hcreation
    have hslots := slots_of_insert hinsert
    have hwrite : access.write = true → W path.components := fun hw => by
      by_contra hout
      rw [(hsafe hout).1] at hw
      cases hw
    rcases htree with rfl | ⟨hmade, rfl⟩
    · exact h.insert hslots hwrite fun _ _ => rfl
    · have hin : W path.components := by
        by_contra hout
        obtain ⟨-, hcreate, htruncate⟩ := hsafe hout
        simp [hcreate, htruncate] at hmade
      exact h.insert hslots hwrite fun q hq => node_set hin _ _ hq

theorem steps {opens : UnixPath → OpenOptions → Prop} (hopens : OpensIn W opens)
    (h : WritesIn W fs₀ s) (hsteps : ReflTransGen (FileStep opens) s s') : WritesIn W fs₀ s' := by
  induction hsteps with
  | refl => exact h
  | tail _ hstep ih => exact ih.step hopens hstep

end WritesIn

section Runs

variable {b : Build} {l : List Service} {mach mach' : Machine ObjcRuntime}

/-- The paths that the service opens. -/
def Service.Opens (b : Build) (s : Service) (mach : Machine ObjcRuntime) (path : UnixPath)
    (o : OpenOptions) : Prop :=
  s.trampoline = none ∧ (s.enter mach).syscallCtx.IsOpen b.profile ∧
    (s.enter mach).syscallCtx.Opens mach.vfs path o

theorem Service.writesIn {W : List Component → Prop} {fs₀ : HostFs} {s : Service}
    (hopens : OpensIn W (s.Opens b mach)) (h : WritesIn W fs₀ ⟨mach.fds, mach.fs⟩)
    (hrun : (s.run b mach).state? = some mach') :
    mach'.vfs = mach.vfs ∧ WritesIn W fs₀ ⟨mach'.fds, mach'.fs⟩ := by
  rcases htramp : s.trampoline with _ | addr
  · have hcall := state?_syscall htramp hrun
    rw [serviceSyscall_eq] at hcall
    rcases hd : dispatch (s.host b) (s.enter mach).vfs (s.enter mach).dispatcher
      (s.enter mach).syscallCtx with ⟨d, c⟩ | ⟨e, c⟩ | e <;> simp only [hd] at hcall
    · obtain rfl := Option.some.inj hcall
      have hsteps := fileSteps_dispatch (congrArg Outcome.state? hd)
      refine ⟨rfl, h.steps (fun path o access creation ho => ?_) hsteps⟩
      exact hopens path o access creation ⟨htramp, ho⟩
    · exact e.elim
    · cases hcall
  · have heq := Machine.spares_serviceTrampoline _ _ addr _ _ (state?_trampoline htramp hrun)
    obtain ⟨hvfs, hfiles⟩ := Prod.mk.inj heq
    exact ⟨hvfs.symm, hfiles ▸ h⟩

/-- A run writes where its services do. -/
theorem runServices_writesIn {W : List Component → Prop} {fs₀ : HostFs} {vfs : Sandbox} :
    ∀ {l : List Service} {mach mach' : Machine ObjcRuntime},
      (∀ s ∈ l, ∀ mach : Machine ObjcRuntime, mach.vfs = vfs → OpensIn W (s.Opens b mach)) →
        mach.vfs = vfs → WritesIn W fs₀ ⟨mach.fds, mach.fs⟩ →
          runServices b l mach = some mach' → WritesIn W fs₀ ⟨mach'.fds, mach'.fs⟩
  | [], mach, mach', _, _, h, hrun => by
    obtain rfl := Option.some.inj hrun
    exact h
  | s :: l, mach, mach', hopens, hvfs, h, hrun => by
    obtain ⟨mid, hmid, hrun⟩ := Option.bind_eq_some_iff.1 hrun
    obtain ⟨hvfs', h'⟩ := Service.writesIn (hopens s List.mem_cons_self mach hvfs) h hmid
    exact runServices_writesIn (fun t ht => hopens t (List.mem_cons_of_mem _ ht))
      (hvfs'.trans hvfs) h' hrun

/-- The path is in the container, or in a tree of the image. -/
def Sandbox.Covers (sb : Sandbox) (path : List Component) : Prop :=
  ∃ base ∈ sb.bases, base <+: path

/-- Whatever its services do, a process changes no node that is neither in its container nor in
the image, and has none open for writing. -/
theorem host_untouched (b : Build) (l : List Service) (mach mach' : Machine ObjcRuntime)
    (hfds : mach.fds = FdTable.default) (hrun : runServices b l mach = some mach') :
    (∀ path, ¬mach.vfs.Covers path → mach'.fs.node path = mach.fs.node path) ∧
      ∀ fd f, mach'.fds.slots.get? fd = some (.file f) → f.writable = true →
        mach.vfs.Covers f.path := by
  have hstart : WritesIn mach.vfs.Covers mach.fs ⟨mach.fds, mach.fs⟩ := by
    rw [hfds]
    exact ⟨fun fd f hget _ => FdTable.in_default fd f hget, fun _ _ => rfl⟩
  have hopens : ∀ s ∈ l, ∀ m : Machine ObjcRuntime, m.vfs = mach.vfs →
      OpensIn mach.vfs.Covers (s.Opens b m) := by
    rintro s - m hm path o access creation ⟨-, -, iosPath, ro, -, htranslate, -⟩ - - hout
    rw [hm] at htranslate
    exact absurd (Sandbox.base_of_translate htranslate) hout
  have hend := runServices_writesIn hopens rfl hstart hrun
  exact ⟨hend.tree, hend.fds⟩

/-- The app's own file is written, and another path of the host is not. -/
theorem host_untouched_files :
    ∃ last, runServices ⟨.release, .host⟩ fileCalls fileMachine = some last ∧
      last.fs.node (UnixPath.components "/c/Applications/U/A.app/x".toList) =
        some (.file [0x78]) ∧
      last.fs.node (UnixPath.components "/secret".toList) =
        fileMachine.fs.node (UnixPath.components "/secret".toList) := by
  obtain ⟨last, hlast, -, hwritten⟩ := run_fileCalls
  have hout : ¬testSandbox.Covers (UnixPath.components "/secret".toList) := by
    unfold Sandbox.Covers
    decide
  exact ⟨last, hlast, hwritten, (host_untouched _ _ _ _ rfl hlast).1 _ hout⟩

end Runs

/-! ## Two apps on one host -/

/-- The service opens a path for reading, but with `O_APPEND`. -/
def Service.Appends (b : Build) (s : Service) : Prop :=
  s.trampoline = none ∧
    (∃ number, decode b.profile (s.cpu.x 16) = .ok (.unix, number) ∧
      Unix.Call.ofNumber number = some .openFile) ∧
    s.cpu.arg 1 &&& Unix.O_ACCMODE = Unix.O_RDONLY ∧ s.cpu.arg 1 &&& Unix.O_APPEND ≠ 0

/-- The path is in the container. -/
def Sandbox.Holds (sb : Sandbox) (path : List Component) : Prop :=
  sb.hostRoot.components <+: path

/-- Neither container has a part in the other sandbox. -/
structure Sandbox.Beside (sb sb' : Sandbox) : Prop where
  container : Apart sb.hostRoot sb'.hostRoot
  image : Apart sb.hostRoot sb'.systemRoot
  image' : Apart sb'.hostRoot sb.systemRoot

/-- The services of two processes that share a host, in the order they come. There is none after a
panic. -/
def runTogether (b : Build) : List (Service ⊕ Service) →
    Machine ObjcRuntime × Machine ObjcRuntime → Option (Machine ObjcRuntime × Machine ObjcRuntime)
  | [], machs => some machs
  | .inl s :: l, (mach, other) =>
    (s.run b mach).state?.bind fun mach => runTogether b l (mach, { other with fs := mach.fs })
  | .inr s :: l, (other, mach) =>
    (s.run b mach).state?.bind fun mach => runTogether b l ({ other with fs := mach.fs }, mach)

section Together

variable {b : Build} {sb sb' : Sandbox} {s : Service}
  {mach mach' alone : Machine ObjcRuntime}

theorem Sandbox.Beside.symm (h : sb.Beside sb') : sb'.Beside sb :=
  ⟨⟨h.container.2, h.container.1⟩, h.image', h.image⟩

/-- What one app has in sight is not in the container of another. -/
theorem Sandbox.Beside.not_holds (h : sb.Beside sb') {path : List Component}
    (hpath : sb'.InSight path) : ¬sb.Holds path := by
  intro hholds
  obtain ⟨base, hmem, hbase⟩ := hpath
  have hcomparable : sb.hostRoot.components <+: base ∨ base <+: sb.hostRoot.components := by
    rcases hbase with hbase | hbase
    · exact List.prefix_or_prefix_of_prefix hholds hbase
    · exact Or.inl (hholds.trans hbase)
  rcases List.mem_cons.1 hmem with rfl | hmem
  · exact hcomparable.elim h.container.1 h.container.2
  · obtain ⟨tree, htree, rfl⟩ := List.mem_map.1 hmem
    have hroot := sb'.prefix_systemBase htree
    rcases hcomparable with hle | hle
    · exact (List.prefix_or_prefix_of_prefix hle hroot).elim h.image.1 h.image.2
    · exact h.image.2 (hroot.trans hle)

/-- A service that does not append to what it opens for reading writes in its container. -/
theorem Service.opensIn_container (h : ¬s.Appends b) :
    OpensIn mach.vfs.Holds (s.Opens b mach) := by
  rintro path o access creation ⟨htramp, hopen, iosPath, ro, -, htranslate, hro, rfl⟩ haccess
    hcreation hout
  rcases Sandbox.below_translate htranslate with ⟨-, comps, -, -, heq⟩ | ⟨rfl, -⟩
  · exact absurd (heq ▸ List.prefix_append _ _) hout
  · have hread : s.cpu.arg 1 &&& Unix.O_ACCMODE = Unix.O_RDONLY := by
      by_contra hne
      exact hro ⟨rfl, hne⟩
    exact readOnly_openOptions hread (fun happend => absurd ⟨htramp, hopen, hread, happend⟩ h)
      haccess hcreation

/-- The process `mach` is where it would be, as far as it sees, if it were alone on the host. -/
structure AsAlone (sb : Sandbox) (mach alone : Machine ObjcRuntime) : Prop where
  confined : mach.Confined sb
  confined_alone : alone.Confined sb
  same : alone.restrict sb.InSight = mach.restrict sb.InSight
  writes : ∀ fd f, mach.fds.slots.get? fd = some (.file f) → f.writable = true → sb.Holds f.path

theorem asAlone_of_default (h : mach.fds = FdTable.default) : AsAlone mach.vfs mach mach := by
  refine ⟨⟨rfl, ?_⟩, ⟨rfl, ?_⟩, rfl, ?_⟩ <;> rw [h]
  · exact FdTable.in_default
  · exact FdTable.in_default
  · exact fun fd f hget _ => FdTable.in_default fd f hget

/-- A service of its own, and the same service when it is alone. -/
theorem AsAlone.own (h : AsAlone sb mach alone) (hk : s.kernel.LooksIn sb.InSight)
    (happend : ¬s.Appends b) (hrun : (s.run b mach).state? = some mach') :
    (∃ alone', (s.run b alone).state? = some alone' ∧ AsAlone sb mach' alone') ∧
      ∀ path, ¬sb.Holds path → mach'.fs.node path = mach.fs.node path := by
  have hstart : WritesIn sb.Holds mach.fs ⟨mach.fds, mach.fs⟩ := ⟨h.writes, fun _ _ => rfl⟩
  have hopens : OpensIn sb.Holds (s.Opens b mach) := by
    rw [← h.confined.vfs_eq]
    exact Service.opensIn_container happend
  obtain ⟨-, hwrites⟩ := Service.writesIn hopens hstart hrun
  obtain ⟨heq, hkeep⟩ := Service.run_restrict (b := b) hk h.confined
  obtain ⟨heq', hkeep'⟩ := Service.run_restrict (b := b) hk h.confined_alone
  have hboth : (s.run b alone).mapState (Machine.restrict sb.InSight) =
      (s.run b mach).mapState (Machine.restrict sb.InSight) := by
    rw [heq, heq', h.same]
  obtain ⟨alone', halone', hsame⟩ := Outcome.state?_of_mapState hboth hrun
  exact ⟨⟨alone', halone', hkeep mach' hrun, hkeep' alone' halone', hsame, hwrites.fds⟩,
    hwrites.tree⟩

/-- A service of another. -/
theorem AsAlone.other (h : AsAlone sb mach alone) {fs : HostFs}
    (hfs : ∀ path, sb.InSight path → fs.node path = mach.fs.node path) :
    AsAlone sb { mach with fs } alone := by
  have hrestrict : fs.restrict sb.InSight = mach.fs.restrict sb.InSight := by
    refine congrArg HostFs.mk (funext fun path => ?_)
    by_cases hpath : sb.InSight path
    · rw [if_pos hpath, if_pos hpath, hfs path hpath]
    · rw [if_neg hpath, if_neg hpath]
  refine ⟨⟨h.confined.vfs_eq, h.confined.fds_in⟩, h.confined_alone, ?_, h.writes⟩
  rw [h.same]
  exact congrArg (fun fs => { mach with fs }) hrestrict.symm

theorem asAlone_runTogether (hbeside : sb.Beside sb') :
    ∀ {l : List (Service ⊕ Service)} {first second first' second' : Machine ObjcRuntime}
      {alone alone' : Machine ObjcRuntime},
      (∀ s, .inl s ∈ l → s.kernel.LooksIn sb.InSight ∧ ¬s.Appends b) →
      (∀ s, .inr s ∈ l → s.kernel.LooksIn sb'.InSight ∧ ¬s.Appends b) →
      AsAlone sb first alone → AsAlone sb' second alone' → second.fs = first.fs →
      runTogether b l (first, second) = some (first', second') →
      (∃ last, runServices b (l.filterMap Sum.getLeft?) alone = some last ∧
        AsAlone sb first' last) ∧
      ∃ last, runServices b (l.filterMap Sum.getRight?) alone' = some last ∧
        AsAlone sb' second' last
  | [], first, second, first', second', alone, alone', _, _, h, h', _, hrun => by
    obtain ⟨rfl, rfl⟩ := Prod.mk.inj (Option.some.inj hrun)
    exact ⟨⟨alone, rfl, h⟩, alone', rfl, h'⟩
  | .inl s :: l, first, second, first', second', alone, alone', hl, hl', h, h', hfs, hrun => by
    obtain ⟨next, hnext, hrun⟩ := Option.bind_eq_some_iff.1 hrun
    obtain ⟨hk, happend⟩ := hl s List.mem_cons_self
    obtain ⟨⟨mid, hmid, hown⟩, hkept⟩ := h.own hk happend hnext
    have hagree : ∀ path, sb'.InSight path → next.fs.node path = second.fs.node path :=
      fun path hpath => by rw [hkept path (hbeside.not_holds hpath), hfs]
    obtain ⟨⟨last, hlast, hfirst⟩, hsecond⟩ := asAlone_runTogether hbeside
      (fun t ht => hl t (List.mem_cons_of_mem _ ht)) (fun t ht => hl' t (List.mem_cons_of_mem _ ht))
      hown (h'.other hagree) rfl hrun
    exact ⟨⟨last, Option.bind_eq_some_iff.2 ⟨mid, hmid, hlast⟩, hfirst⟩, hsecond⟩
  | .inr s :: l, first, second, first', second', alone, alone', hl, hl', h, h', hfs, hrun => by
    obtain ⟨next, hnext, hrun⟩ := Option.bind_eq_some_iff.1 hrun
    obtain ⟨hk, happend⟩ := hl' s List.mem_cons_self
    obtain ⟨⟨mid, hmid, hown⟩, hkept⟩ := h'.own hk happend hnext
    have hagree : ∀ path, sb.InSight path → next.fs.node path = first.fs.node path :=
      fun path hpath => by rw [hkept path (hbeside.symm.not_holds hpath), hfs]
    obtain ⟨hfirst, last, hlast, hsecond⟩ := asAlone_runTogether hbeside
      (fun t ht => hl t (List.mem_cons_of_mem _ ht)) (fun t ht => hl' t (List.mem_cons_of_mem _ ht))
      (h.other hagree) hown rfl hrun
    exact ⟨hfirst, last, Option.bind_eq_some_iff.2 ⟨mid, hmid, hlast⟩, hsecond⟩

/-- Two processes with containers apart that run on one host, in any order of their services, each
end as if the other were not there, as far as they see. -/
theorem apps_apart (b : Build) (l : List (Service ⊕ Service))
    (first second first' second' : Machine ObjcRuntime)
    (hbeside : first.vfs.Beside second.vfs)
    (hfirst : ∀ s, .inl s ∈ l → s.kernel.LooksIn first.vfs.InSight ∧ ¬s.Appends b)
    (hsecond : ∀ s, .inr s ∈ l → s.kernel.LooksIn second.vfs.InSight ∧ ¬s.Appends b)
    (hfds : first.fds = FdTable.default) (hfds' : second.fds = FdTable.default)
    (hfs : second.fs = first.fs)
    (hrun : runTogether b l (first, second) = some (first', second')) :
    (∃ last, runServices b (l.filterMap Sum.getLeft?) first = some last ∧
      last.restrict first.vfs.InSight = first'.restrict first.vfs.InSight) ∧
    ∃ last, runServices b (l.filterMap Sum.getRight?) second = some last ∧
      last.restrict second.vfs.InSight = second'.restrict second.vfs.InSight := by
  obtain ⟨⟨last, hlast, halone⟩, last', hlast', halone'⟩ := asAlone_runTogether hbeside hfirst
    hsecond (asAlone_of_default hfds) (asAlone_of_default hfds') hfs hrun
  exact ⟨⟨last, hlast, halone.same⟩, last', hlast', halone'.same⟩

end Together

/-- Another app on the same host. -/
def otherMachine : Machine ObjcRuntime :=
  textMachine (.ofContainer "/c".toList "/s".toList "B".toList "V".toList) fileMachine.fs "y"

/-- The host with the bundles of both. -/
def bothBundles : HostFs :=
  dirTree ["/c/Applications/U/A.app".toList, "/c/Applications/V/B.app".toList]

/-- Two apps that take turns, each with a file of its own in its bundle : both read back what they
wrote. -/
theorem apps_apart_files :
    let first := { fileMachine with fs := bothBundles }
    let second := { otherMachine with fs := bothBundles }
    let turns := fileCalls.flatMap fun s => [.inl s, .inr s]
    ∃ first' second', runTogether ⟨.release, .host⟩ turns (first, second) = some (first', second') ∧
      (first'.mem.flat.byte 0x100000100 = some 0x78 ∧
        second'.mem.flat.byte 0x100000100 = some 0x79) ∧
      (∃ last, runServices ⟨.release, .host⟩ fileCalls first = some last ∧
        last.restrict first.vfs.InSight = first'.restrict first.vfs.InSight) ∧
      ∃ last, runServices ⟨.release, .host⟩ fileCalls second = some last ∧
        last.restrict second.vfs.InSight = second'.restrict second.vfs.InSight := by
  intro first second turns
  have hsome : (runTogether ⟨.release, .host⟩ turns (first, second)).any (fun last =>
      last.1.mem.flat.byte 0x100000100 == some 0x78 &&
        last.2.mem.flat.byte 0x100000100 == some 0x79) = true := by
    decide +kernel
  obtain ⟨⟨first', second'⟩, hrun, hread⟩ := (Option.any_eq_true _ _).1 hsome
  rw [Bool.and_eq_true, beq_iff_eq, beq_iff_eq] at hread
  have hbeside : first.vfs.Beside second.vfs := by
    constructor <;> unfold Apart <;> decide
  have hcalls : ∀ s ∈ fileCalls, ¬s.Appends ⟨.release, .host⟩ := by
    rintro s hs ⟨-, -, -, happend⟩
    simp only [fileCalls, List.mem_cons, List.not_mem_nil, or_false] at hs
    rcases hs with rfl | rfl | rfl | rfl <;> exact happend (by decide)
  have hlooks : ∀ {V : List Component → Prop} [DecidablePred V], ∀ s ∈ fileCalls,
      s.kernel.LooksIn V := by
    intro V _ s hs
    simp only [fileCalls, List.mem_cons, List.not_mem_nil, or_false] at hs
    rcases hs with rfl | rfl | rfl | rfl <;> exact Kernel.looksIn_willing
  refine ⟨first', second', hrun, hread, apps_apart ⟨.release, .host⟩ turns first second first'
    second' hbeside ?_ ?_ rfl rfl rfl hrun⟩
  · intro s hs
    have hmem : s ∈ fileCalls := by simpa [turns] using hs
    exact ⟨hlooks s hmem, hcalls s hmem⟩
  · intro s hs
    have hmem : s ∈ fileCalls := by simpa [turns] using hs
    exact ⟨hlooks s hmem, hcalls s hmem⟩

end IosEmu
