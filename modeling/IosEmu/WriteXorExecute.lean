import IosEmu.Services

/-!
# Writable or executable

A region gets its protection when it is mapped or when `protect` sets it. `ProtsFrom ok` says
that every region has the protection it had, or one that satisfies `ok`; stores and heap
allocations give no region a new protection, so the relation is proved for the four calls that
do, and goes through the stages of a build and through the services from there.

A process starts with the protections of its segments, and from then on only `mmap` and
`mprotect` grant others. Neither looks at what is asked for : a region is both writable and
executable as soon as a segment or the guest asks for both. `Service.GrantsBoth` is the call
that does, and without one no region ever is (`not_both_of_run`).
-/

open SysLib

namespace IosEmu

open Process

/-- Writable and executable. -/
def Protection.both (p : Protection) : Bool :=
  p.contains .write && p.contains .exec

namespace GuestMemory

variable {ok : Protection → Prop} {m m' : GuestMemory}

/-- No region is writable and executable. -/
def NoBoth (m : GuestMemory) : Prop :=
  ∀ k r, m.regions.get? k = some r → r.prot.both = false

/-- Every region has the protection it had before, or one that is `ok`. -/
def ProtsFrom (ok : Protection → Prop) (m m' : GuestMemory) : Prop :=
  ∀ k r', m'.regions.get? k = some r' →
    ok r'.prot ∨ ∃ r, m.regions.get? k = some r ∧ r.prot = r'.prot

theorem NoBoth.of_protsFrom (h : m.NoBoth) (hfrom : ProtsFrom (fun p => p.both = false) m m') :
    m'.NoBoth := by
  intro k r' hk
  rcases hfrom k r' hk with hok | ⟨r, hr, hprot⟩
  · exact hok
  · rw [← hprot]
    exact h k r hr

theorem ProtsFrom.mono {ok' : Protection → Prop} (h : ProtsFrom ok m m')
    (himp : ∀ p, ok p → ok' p) : ProtsFrom ok' m m' :=
  fun k r' hk => (h k r' hk).imp_left (himp _)

instance isPreorderProtsFrom : IsPreorder GuestMemory (ProtsFrom ok) where
  refl _ _ r hk := Or.inr ⟨r, hk, rfl⟩
  trans _ _ _ h₁ h₂ k r'' hk := by
    rcases h₂ k r'' hk with hok | ⟨r', hr', hprot⟩
    · exact Or.inl hok
    · rw [← hprot]
      exact h₁ k r' hr'

/-! ## The calls that change the memory -/

/-- Placing or changing one region. -/
theorem protsFrom_insert {key : U64} {r : Region}
    (hr : ok r.prot ∨ ∃ old, m.regions.get? key = some old ∧ old.prot = r.prot)
    (hregions : m'.regions = m.regions.insert key r) : ProtsFrom ok m m' := by
  intro k r' hk
  rw [hregions, SortedMap.get?_insert] at hk
  split_ifs at hk with hkey
  · obtain rfl := Option.some.inj hk
    rw [hkey]
    exact hr
  · exact Or.inr ⟨r', hk, rfl⟩

theorem protsFrom_write (a : U64) (d : List U8) : (write a d).Steps (ProtsFrom ok) := by
  refine (write_failsClean _ _).steps (refl_of _) fun m u m' h => ?_
  obtain ⟨key, r, hl, -, -, -, rfl⟩ := write_eq_ok.1 h
  refine protsFrom_insert (r := { r with data := _ }) ?_ rfl
  exact Or.inr ⟨r, get?_of_lastLE hl, rfl⟩

theorem protsFrom_map {p : Profile} {base size : U64} {prot : Protection} {kind : RegionKind}
    {name : String} (hok : ok prot) : (map p base size prot kind name).Steps (ProtsFrom ok) := by
  refine (map_failsClean _ _ _ _ _ _).steps (refl_of _) fun m u m' h => ?_
  obtain ⟨s, -, -, hs, rfl⟩ := map_eq_ok.1 h
  exact protsFrom_insert (Or.inl hok) rfl

theorem protsFrom_mapWithData {p : Profile} {base size : U64} {data : List U8}
    {prot : Protection} {kind : RegionKind} {name : String} (hok : ok prot) :
    (mapWithData p base size data prot kind name).Steps (ProtsFrom ok) := by
  refine (mapWithData_failsClean _ _ _ _ _ _ _).steps (refl_of _) fun m u m' h => ?_
  obtain ⟨s, -, -, -, hs, rfl⟩ := mapWithData_eq_ok.1 h
  exact protsFrom_insert (Or.inl hok) rfl

theorem protsFrom_mmapAnon {p : Profile} {size : U64} {prot : Protection} (hok : ok prot) :
    (mmapAnon p size prot).Steps (ProtsFrom ok) := by
  refine (mmapAnon_failsClean _ _ _).steps (refl_of _) fun m base m' h => ?_
  obtain ⟨_, low, m₁, -, -, -, hmap, rfl⟩ := mmapAnon_eq_ok.1 h
  have hplace : ProtsFrom ok m m₁ := (protsFrom_map hok).ok hmap
  exact hplace

theorem protsFrom_protect {target : Target} {a : U64} {prot : Protection} (hok : ok prot) :
    (protect target a prot).Steps (ProtsFrom ok) := by
  intro m m' h
  rcases protect_cases h with rfl | ⟨key, r, hr, rfl⟩
  · exact refl_of _ _
  · exact protsFrom_insert (Or.inl hok) rfl

theorem protsFrom_heapAlloc (p : Profile) (size align : U64) :
    (heapAlloc p size align).Steps (ProtsFrom ok) := by
  intro m m' h
  unfold heapAlloc Prog.zoom at h
  rcases hx : BumpAllocator.alloc p size align m.heap with ⟨a, k⟩ | ⟨e, k⟩ | e <;> rw [hx] at h
  · obtain rfl := Option.some.inj h
    exact refl_of (ProtsFrom ok) m
  · obtain rfl := Option.some.inj h
    exact refl_of (ProtsFrom ok) m
  · cases h

end GuestMemory

open GuestMemory

/-! ## The build -/

/-- The protections of a process image : those the loader uses, and those of the segments. -/
def LoadProt (image : MachOImage) (p : Protection) : Prop :=
  p = .rw ∨ p = .rx ∨ ∃ seg ∈ image.segments, seg.name ≠ "__PAGEZERO" ∧ p = runProt seg

theorem Stages.protsFrom {b : Build} {image : MachOImage} {bytes : List U8} {cfg : LayoutConfig}
    {m m' : GuestMemory} {proc : ProcessImage} (s : Stages b image bytes cfg m proc m') :
    ProtsFrom (LoadProt image) m m' := by
  have hrw : LoadProt image .rw := Or.inl rfl
  exact s.steps protsFrom_write (fun _ _ _ _ _ => protsFrom_mapWithData hrw)
    (fun _ _ _ _ => protsFrom_map hrw) fun _ _ hprot => protsFrom_protect (Or.inr hprot)

/-- No segment asks for both. -/
def MachOImage.SegmentsApart (image : MachOImage) : Prop :=
  ∀ seg ∈ image.segments, seg.name ≠ "__PAGEZERO" → seg.initprot.both = false

theorem both_of_loadProt {image : MachOImage} (h : image.SegmentsApart) {p : Protection}
    (hp : LoadProt image p) : p.both = false := by
  rcases hp with rfl | rfl | ⟨seg, hseg, hname, rfl⟩
  · rfl
  · rfl
  · unfold runProt
    split_ifs
    · rfl
    · exact h seg hseg hname

theorem noBoth_new {p : Profile} {heapBase heapSize : U64} {m : GuestMemory}
    (h : GuestMemory.new p heapBase heapSize = .ok () m) : m.NoBoth := by
  obtain ⟨size, -, hmap⟩ := Prog.ofChecked_bind_eq_ok.1 h
  refine NoBoth.of_protsFrom ?_ ((protsFrom_map (by rfl)).ok hmap)
  intro k r hk
  rw [SortedMap.get?_empty] at hk
  cases hk

theorem layoutOf_const {b : Build} {os : Reservations} {cfg : MachineConfig} {image : MachOImage}
    {argv0 : String} : (layoutOf b os cfg image argv0).Steps Eq := by
  unfold layoutOf
  rcases b.target with _ | nativeProtect
  · exact Prog.steps_pure _
  · exact (Prog.steps_ofChecked _).bind fun _ => (Prog.steps_ofResult _).bind fun _ =>
      (Prog.steps_ofResult _).bind fun _ => (Prog.steps_ofResult _).bind fun _ =>
      (Prog.steps_ofChecked _).bind fun _ => Prog.steps_pure _

/-- A process whose segments do not ask for both has no region that is both. -/
theorem noBoth_of_load {W : Type} {b : Build} {os : Reservations} {cfg : MachineConfig}
    {bytes : List U8} {vfs : Sandbox} {fs : HostFs} {world : W} {mach : Machine W}
    {image : MachOImage} (hload : Machine.load b os cfg bytes vfs fs world = .ok mach ())
    (hparse : MachOImage.parse bytes = .ok image) (himage : image.SegmentsApart) :
    mach.mem.NoBoth := by
  obtain ⟨image', m₀, hparse', hnew, layout, m₁, proc, mem, hlayout, hproc, rfl⟩ :=
    Machine.load_eq_ok.1 hload
  obtain rfl : image' = image := Except.ok.inj (hparse'.symm.trans hparse)
  obtain rfl := layoutOf_const.ok hlayout
  obtain ⟨s⟩ := buildProcess_eq_ok.1 hproc
  exact (noBoth_new hnew).of_protsFrom (s.protsFrom.mono fun _ => both_of_loadProt himage)

/-! ## Services -/

namespace SyscallCtx

/-- `mmap` finds room for its mapping. -/
def HasRoom (c : SyscallCtx) : Prop :=
  ∃ low, checkedSub c.mem.mmapCursor (pageRound (max (c.cpu.arg 1) 1)) = some low ∧
    c.mem.checkFree (low &&& ~~~0x3fff)
      (pageRound (max (pageRound (max (c.cpu.arg 1) 1)) 1)) = .ok ()

/-- The call grants the protection in its third argument : `mmap` of anonymous memory that
there is room for, or `mprotect` of an address that is mapped. -/
def Grants (c : SyscallCtx) : Unix.Call → Prop
  | .mmap => c.cpu.arg 3 &&& Unix.MAP_ANON ≠ 0 ∧ c.HasRoom
  | .mprotect => ∃ base, c.mem.regionBase (c.cpu.arg 0) = .ok base
  | _ => False

end SyscallCtx

theorem alignDown_eq_ok {p : Profile} {addr base : U64} (h : alignDown p addr pageSize = .ok base) :
    base = addr &&& ~~~0x3fff := by
  obtain ⟨mask, hmask, h⟩ := except_bind_eq_ok.1 h
  obtain rfl := Profile.sub_eq_ok hmask
  exact (Except.ok.inj h).symm

/-- What a handler does to the memory with one call on it, that call does. -/
theorem state?_onMem {α : Type} {errno : U32} {x : MemM α} {c c' : SyscallCtx}
    (h : (SyscallCtx.onMem errno x c).state? = some c') : (x c.mem).state? = some c'.mem :=
  steps_onMem (R := fun m m' => (x m).state? = some m') (fun _ _ h => h) c c' h

theorem protsFrom_sysMmap {host : Host} {c c' : SyscallCtx} {ok : Protection → Prop}
    (hok : c.Grants .mmap → ok (Unix.protOf (c.cpu.arg 2)))
    (h : (Unix.sysMmap host c).state? = some c') : ProtsFrom ok c.mem c'.mem := by
  unfold Unix.sysMmap at h
  rw [Prog.get_bind] at h
  split_ifs at h with hanon
  · obtain rfl := Option.some.inj h
    exact refl_of _ _
  · have hmap := state?_onMem h
    rcases hx : mmapAnon host.build.profile (c.cpu.arg 1) (Unix.protOf (c.cpu.arg 2)) c.mem with
      ⟨base, m⟩ | ⟨e, m⟩ | e
    · obtain ⟨_, low, m₁, hs, hlow, hbase, hplace, -⟩ := mmapAnon_eq_ok.1 hx
      obtain ⟨_, hs', hfree, -⟩ := map_eq_ok.1 hplace
      obtain rfl := alignUp_eq_ok hs
      obtain rfl := alignUp_eq_ok hs'
      obtain rfl := alignDown_eq_ok hbase
      exact protsFrom_mmapAnon (hok ⟨hanon, low, hlow, hfree⟩) _ _ hmap
    · rw [hx] at hmap
      obtain rfl := Option.some.inj hmap
      rw [mmapAnon_failsClean _ _ _ _ _ _ hx]
      exact refl_of _ _
    · rw [hx] at hmap
      cases hmap

theorem protsFrom_sysMprotect {host : Host} {c c' : SyscallCtx} {ok : Protection → Prop}
    (hok : c.Grants .mprotect → ok (Unix.protOf (c.cpu.arg 2)))
    (h : (Unix.sysMprotect host c).state? = some c') : ProtsFrom ok c.mem c'.mem := by
  have hprotect : (protect host.build.target (c.cpu.arg 0) (Unix.protOf (c.cpu.arg 2))
      c.mem).state? = some c'.mem := by
    unfold Unix.sysMprotect at h
    rw [Prog.get_bind] at h
    rcases Prog.state?_bind_eq_some h with ⟨⟨⟩, c₁, hrun, h⟩ | ⟨e, hrun⟩
    · obtain rfl := Option.some.inj h
      exact state?_onMem (by rw [hrun]; rfl)
    · exact state?_onMem (by rw [hrun]; rfl)
  rcases hbase : c.mem.regionBase (c.cpu.arg 0) with e | base
  · unfold protect at hprotect
    rw [Prog.get_bind, hbase] at hprotect
    rw [← Option.some.inj hprotect]
    exact refl_of _ _
  · exact protsFrom_protect (hok ⟨base, hbase⟩) _ _ hprotect

/-- What a system call grants, it grants through `mmap` or `mprotect`; a Mach trap maps memory
that is readable and writable. -/
theorem protsFrom_handler {host : Host} {vfs : Sandbox} {cls : SyscallClass} {number : U32}
    {handler : SysM U64} {c c' : SyscallCtx} {ok : Protection → Prop} (hrw : ok .rw)
    (hh : handlerOf host vfs cls number = some handler)
    (hok : ∀ call, cls = .unix → Unix.Call.ofNumber number = some call → c.Grants call →
      ok (Unix.protOf (c.cpu.arg 2)))
    (h : (handler c).state? = some c') : ProtsFrom ok c.mem c'.mem := by
  cases cls with
  | unix =>
    obtain ⟨call, hcall, rfl⟩ := Option.map_eq_some_iff.1 hh
    by_cases hmmap : call = .mmap
    · subst hmmap
      exact protsFrom_sysMmap (hok _ rfl hcall) h
    · by_cases hprotect : call = .mprotect
      · subst hprotect
        exact protsFrom_sysMprotect (hok _ rfl hcall) h
      · exact steps_handle protsFrom_write host vfs hmmap hprotect c c' h
  | mach =>
    obtain ⟨trap, -, rfl⟩ := Option.map_eq_some_iff.1 hh
    exact steps_trap protsFrom_write host (fun _ => protsFrom_mmapAnon hrw) trap c c' h
  | machDep => cases hh
  | diag => cases hh

namespace Service

/-- The service is a system call that grants memory which is writable and executable. -/
def GrantsBoth (b : Build) (s : Service) (mach : Machine ObjcRuntime) : Prop :=
  s.trampoline = none ∧ (Unix.protOf (s.cpu.arg 2)).both = true ∧
    ∃ number call, decode b.profile (s.cpu.x 16) = .ok (.unix, number) ∧
      Unix.Call.ofNumber number = some call ∧ (s.enter mach).syscallCtx.Grants call

/-- One service. -/
theorem noBoth_run {b : Build} {s : Service} {mach mach' : Machine ObjcRuntime}
    (hmem : mach.mem.NoBoth) (hno : ¬s.GrantsBoth b mach)
    (h : (s.run b mach).state? = some mach') : mach'.mem.NoBoth := by
  have hfrom : ProtsFrom (fun p => p.both = false) (s.enter mach).mem mach'.mem := by
    rcases htramp : s.trampoline with _ | addr
    · have hsys := state?_syscall htramp h
      rcases mem_of_serviceSyscall hsys with heq | ⟨cls, number, handler, c', hdecode, hh, hrun, heq⟩
      · rw [heq]
        exact refl_of _ _
      · rw [heq]
        refine protsFrom_handler (by rfl) hh (fun call hcls hcall hgrants => ?_) hrun
        subst hcls
        rw [← Bool.not_eq_true]
        exact fun hboth => hno ⟨htramp, hboth, number, call, hdecode, hcall, hgrants⟩
    · have htrap := state?_trampoline htramp h
      exact steps_serviceTrampoline protsFrom_write
        (steps_hleEnvironment protsFrom_write (protsFrom_heapAlloc _)) _ _ _ _ htrap
  exact hmem.of_protsFrom hfrom

end Service

/-- Every service of the run meets the condition in the state it finds. -/
def NoGrantsBoth (b : Build) : List Service → Machine ObjcRuntime → Prop
  | [], _ => True
  | s :: l, mach =>
    ¬s.GrantsBoth b mach ∧ ∀ mach', (s.run b mach).state? = some mach' → NoGrantsBoth b l mach'

theorem noBoth_runServices {b : Build} :
    ∀ {l : List Service} {mach mach' : Machine ObjcRuntime}, mach.mem.NoBoth →
      NoGrantsBoth b l mach → runServices b l mach = some mach' → mach'.mem.NoBoth
  | [], mach, mach', hmem, _, hrun => by
    obtain rfl := Option.some.inj hrun
    exact hmem
  | s :: l, mach, mach', hmem, ⟨hs, hl⟩, hrun => by
    obtain ⟨mid, hmid, hrun⟩ := Option.bind_eq_some_iff.1 hrun
    exact noBoth_runServices (s.noBoth_run hmem hs hmid) (hl mid hmid) hrun

/-- In a run of a process whose segments do not ask for both, and whose guest is granted both by
no `mmap` or `mprotect`, no region is ever writable and executable. -/
theorem not_both_of_run (b : Build) (os : Reservations) (cfg : MachineConfig) (bytes : List U8)
    (vfs : Sandbox) (fs : HostFs) (world : ObjcRuntime) (loaded : Machine ObjcRuntime)
    (image : MachOImage)
    (hload : Machine.load b os cfg bytes vfs fs world = .ok loaded ())
    (hparse : MachOImage.parse bytes = .ok image) (himage : image.SegmentsApart)
    (l : List Service) (hl : NoGrantsBoth b l loaded) (mach : Machine ObjcRuntime)
    (hrun : runServices b l loaded = some mach) :
    ∀ k r, mach.mem.regions.get? k = some r →
      ¬(r.prot.contains .write = true ∧ r.prot.contains .exec = true) := by
  intro k r hk ⟨hwrite, hexec⟩
  have hboth := noBoth_runServices (noBoth_of_load hload hparse himage) hl hrun k r hk
  rw [Protection.both, hwrite, hexec] at hboth
  cases hboth

/-! ## A run that asks for both -/

/-- `mprotect(addr, 0x4000, prot)`. -/
def mprotectService (addr prot : U64) : Service where
  kernel := .willing
  clock := none
  cpu :=
    { CpuContext.default with
      x := fun i => if i = 16 then 74 else if i = 0 then addr else if i = 1 then 0x4000
        else if i = 2 then prot else 0 }
  trampoline := none

/-- The call sets the protection of the region. -/
theorem run_mprotectService {target : Target} {addr prot : U64} {mach : Machine ObjcRuntime}
    {m' : GuestMemory} (h : protect target addr (Unix.protOf prot) mach.mem = .ok () m') :
    ∃ mach', runServices ⟨.release, target⟩ [mprotectService addr prot] mach = some mach' ∧
      mach'.mem = m' := by
  have hhandler : Unix.sysMprotect ((mprotectService addr prot).host ⟨.release, target⟩)
      ((mprotectService addr prot).enter mach).syscallCtx =
      .ok 0 { ((mprotectService addr prot).enter mach).syscallCtx with mem := m' } := by
    unfold Unix.sysMprotect
    rw [Prog.get_bind]
    exact Prog.bind_eq_ok.2 ⟨(), _, onMem_of_ok h, rfl⟩
  have hdecode : decode .release ((mprotectService addr prot).cpu.x 16) = .ok (.unix, 74) :=
    show decode .release 74 = _ by decide
  obtain ⟨mach', hrun, hmem⟩ := Service.run_of_handler rfl
    (Profile.add_release mach.dispatcher.serviced 1) hdecode rfl hhandler
  exact ⟨mach', by rw [runServices, hrun]; rfl, hmem⟩

set_option maxRecDepth 100000 in
/-- The heap of the process of the file, after a call that asks for all three rights. -/
theorem protect_importFile :
    (((bindImage .release importImage importFile importConfig >>= fun x =>
      publishPage ⟨.release, .host⟩ importConfig x.2 >>= fun stop =>
        finish ⟨.release, .host⟩ importImage importFile importConfig x.1 x.2 stop)
      importMemory).okState?.bind fun m =>
        (protect .host 0x120000000 (Unix.protOf 7) m).okState?).bind (fun m =>
          (m.regions.get? 0x120000000).map Region.prot) = some ⟨7⟩ := by
  decide +kernel

theorem load_importFile_protect :
    ∃ mach m', Machine.load ⟨.release, .host⟩ ⟨0, 0, 0⟩ .default importFile importSandbox
        ⟨fun _ => none⟩ ObjcRuntime.new = .ok mach () ∧
      protect .host 0x120000000 (Unix.protOf 7) mach.mem = .ok () m' ∧
      (m'.regions.get? 0x120000000).map Region.prot = some ⟨7⟩ := by
  obtain ⟨m', hm', hprot⟩ := Option.bind_eq_some_iff.1 protect_importFile
  obtain ⟨m, hm, hprotect⟩ := Option.bind_eq_some_iff.1 hm'
  obtain ⟨proc, hbuild⟩ := Outcome.okState?_eq_some.1 hm
  obtain ⟨⟨⟩, hprotect⟩ := Outcome.okState?_eq_some.1 hprotect
  have hok : buildProcess ⟨.release, .host⟩ importImage importFile importConfig importMemory =
      .ok proc m :=
    buildProcess_of_page reachable_importMemory.inv isDefault_importConfig.stride_eq rfl hbuild
  exact ⟨_, m', Machine.load_eq_ok.2 ⟨importImage, importMemory, parse_importFile, rfl,
    importConfig, importMemory, proc, m, layoutOf_importFile, hok, rfl⟩, hprotect, hprot⟩

theorem segmentsApart_importImage : importImage.SegmentsApart := by
  intro seg hseg _
  obtain rfl := List.mem_singleton.1 hseg
  rfl

/-- The process of the file makes its heap read-only, and no region is both. -/
theorem not_both_of_run_importFile :
    ∃ loaded, Machine.load ⟨.release, .host⟩ ⟨0, 0, 0⟩ .default importFile importSandbox
        ⟨fun _ => none⟩ ObjcRuntime.new = .ok loaded () ∧
      ∀ mach, runServices ⟨.release, .host⟩ [mprotectService 0x120000000 1] loaded = some mach →
        ∀ k r, mach.mem.regions.get? k = some r →
          ¬(r.prot.contains .write = true ∧ r.prot.contains .exec = true) := by
  obtain ⟨loaded, hload⟩ := load_importFile
  refine ⟨loaded, hload, fun mach hrun => ?_⟩
  refine not_both_of_run ⟨.release, .host⟩ ⟨0, 0, 0⟩ .default importFile importSandbox
    ⟨fun _ => none⟩ ObjcRuntime.new loaded importImage hload parse_importFile
    segmentsApart_importImage [mprotectService 0x120000000 1] ?_ mach hrun
  refine ⟨?_, fun _ _ => trivial⟩
  rintro ⟨-, hboth, -⟩
  cases hboth

/-- `mprotect(heap, 0x4000, PROT_READ | PROT_WRITE | PROT_EXEC)` makes the heap writable and
executable. -/
theorem mprotect_both :
    ∃ loaded mach r, Machine.load ⟨.release, .host⟩ ⟨0, 0, 0⟩ .default importFile importSandbox
        ⟨fun _ => none⟩ ObjcRuntime.new = .ok loaded () ∧
      runServices ⟨.release, .host⟩ [mprotectService 0x120000000 7] loaded = some mach ∧
      mach.mem.regions.get? 0x120000000 = some r ∧
      r.prot.contains .write = true ∧ r.prot.contains .exec = true := by
  obtain ⟨loaded, m', hload, hprotect, hprot⟩ := load_importFile_protect
  obtain ⟨mach, hrun, rfl⟩ := run_mprotectService hprotect
  obtain ⟨r, hr, hbits⟩ := Option.map_eq_some_iff.1 hprot
  exact ⟨loaded, mach, r, hload, hrun, hr, by rw [hbits]; rfl, by rw [hbits]; rfl⟩

end IosEmu
