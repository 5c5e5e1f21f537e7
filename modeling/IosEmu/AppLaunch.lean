import IosEmu.Isolation
import IosEmu.Launch
import IosEmu.RunLoop

/-!
# A launch from end to end

`launch` inspects an archive, installs the app in a container of its own, reads the executable,
loads it and runs it. All of these come from outside : the archive, the bytes of the executable,
and what the guest does.

Whatever they are, and wherever the launch ends, nothing on the host is other than before but what
is in the container or in the system image, and missing directories above the container
(`launch_contained`). The image is kept too unless the guest opens a file for reading with
`O_APPEND`.
-/

open SysLib

namespace IosEmu

/-! ## Messages -/

def SyscallClass.display : SyscallClass → String
  | .unix => "unix"
  | .mach => "mach"
  | .machDep => "machdep"
  | .diag => "diag"

/-- `{:#018x}`. -/
def hex18 (n : ℕ) : String :=
  let digits := Nat.toDigits 16 n
  "0x" ++ String.ofList (List.replicate (16 - digits.length) '0' ++ digits)

/-- The text of an error. That of an error of the host is the platform's. -/
def EmuError.display (ioText : IoErrorKind → String) : EmuError → String
  | .machO m => "mach-o: " ++ m
  | .dyld m => "dyld: " ++ m
  | .memory addr reason => "memory fault @ " ++ hex18 addr.toNat ++ ": " ++ reason
  | .unsupportedSyscall cls number =>
    "unsupported " ++ cls.display ++ " syscall #" ++ toString number.toNat
  | .vfs m => "vfs: " ++ m
  | .plist m => "plist: " ++ m
  | .archive m => "archive: " ++ m
  | .objC m => "objc: " ++ m
  | .io kind => "io: " ++ ioText kind
  | .internal m => "internal: " ++ m

example : EmuError.display (fun _ => "") (.memory 0x4000 "unmapped") =
    "memory fault @ 0x0000000000004000: unmapped" := by decide

def LaunchError.display (ioText : IoErrorKind → String) : LaunchError → String
  | .stage e => e.display ioText
  | .readExecutable path e => "read executable " ++ String.ofList path ++ ": " ++ ioText e

/-! ## The launch -/

/-- Result of a launch attempt. -/
structure LaunchOutcome where
  exitCode : BitVec 32
  message : String

/-- The outcome of a launch that failed. -/
def LaunchOutcome.failed (message : String) : LaunchOutcome :=
  ⟨-1, message⟩

/-- How far a launch has come, with the host's tree. -/
inductive Launched (E : Type)
  | ended (outcome : LaunchOutcome) (fs : HostFs)
  | running (exec : E) (mach : Machine ObjcRuntime)
  | panicked

/-- The host's tree, unless the process went down. -/
def Launched.fs? {E : Type} : Launched E → Option HostFs
  | ended _ fs => some fs
  | running _ mach => some mach.fs
  | panicked => none

/-- Notify the environment that the image is mapped. -/
def Machine.startEnvironment {W : Type} (env : HostEnvironment W) : MachM W Unit := do
  let mach ← Prog.get
  Machine.onWorld (env.onProcessStart mach.vfs)

/-- What a run leaves of a launch. -/
def Launched.ofRun {E : Type} (ioText : IoErrorKind → String) :
    Progress E ObjcRuntime → Launched E
  | .running e mach => .running e mach
  | .returned _ (.ok code) mach => .ended ⟨code, "exited"⟩ mach.fs
  | .returned _ (.error error) mach => .ended (.failed (error.display ioText)) mach.fs
  | .panicked => .panicked

section Launch

variable {E : Type} (b : Build) (os : Reservations) (ioText : IoErrorKind → String)
  (exec : Executor E) (e : E) (n : ℕ)

/-- A launch from the bytes of the executable on, with `n` turns of the run. -/
def launchProcess (sandbox : Sandbox) (bytes : List U8) (fs : HostFs) : Launched E :=
  match Machine.load b os .default bytes sandbox fs ObjcRuntime.new with
  | .err error _ => .ended (.failed (error.display ioText)) fs
  | .panic _ => .panicked
  | .ok mach _ =>
    match Machine.startEnvironment (hleEnvironment b.profile) mach with
    | .err error mach => .ended (.failed (error.display ioText)) mach.fs
    | .panic _ => .panicked
    | .ok _ mach => .ofRun ioText (Machine.runFor b (hleEnvironment b.profile) exec n e mach)

/-- Launch the app in an archive. -/
def launch (kernel : Kernel) (ipaPath : OsPath) (containersRoot systemRoot : UnixPath)
    (nanos seq : U64) (pid : U32) (opened : EmuResult OpenArchive) (archive : EmuResult ZipArchive)
    (fs : HostFs) : Launched E :=
  match launchInner kernel b.profile ipaPath containersRoot systemRoot nanos seq pid opened
    archive fs with
  | .err error fs => .ended (.failed (error.display ioText)) fs
  | .panic _ => .panicked
  | .ok (sandbox, bytes) fs => launchProcess b os ioText exec e n sandbox bytes fs

end Launch

/-! ## Before the process -/

/-- Reading a file changes nothing. -/
theorem steps_readFile (kernel : Kernel) (path : UnixPath) :
    (HostFs.readFile kernel path).Steps Eq := by
  have hopen : (OpenOptions.openPath kernel ⟨true, false, false, false, false, false⟩ path).Steps
      Eq := by
    refine (OpenOptions.openPath_failsClean kernel _ path).steps (fun _ => rfl)
      fun fs file fs' hok => ?_
    obtain ⟨access, creation, -, hcreation, -, hsame | ⟨hmade, -⟩⟩ := OpenOptions.openPath_eq_ok hok
    · exact hsame.symm
    · obtain rfl := Except.ok.inj hcreation
      exact absurd hmade (by decide)
  refine hopen.bind fun file => Prog.steps_get.bind fun fs =>
    (HostFs.steps_ask kernel _).bind fun _ => ?_
  split
  · exact Prog.steps_pure _
  · exact Prog.steps_fail _

section Stages

variable {kernel : Kernel} {containersRoot systemRoot : UnixPath} {appName uuid : List Char}

theorem steps_install (huuid : UnixPath.Clean uuid) (archive : EmuResult ZipArchive)
    (bundleDir : List Char) :
    (install kernel containersRoot systemRoot appName uuid archive bundleDir).Steps
      (Confined (containerRoot containersRoot uuid)) := by
  intro fs fs' h
  rcases Prog.state?_bind_eq_some h with ⟨sandbox, fs₁, hprepare, h⟩ | ⟨e, hprepare⟩
  · obtain rfl := Sandbox.eq_of_prepare hprepare
    have hbundle : OneBelow (containerRoot containersRoot uuid)
        (Sandbox.ofContainer containersRoot systemRoot appName uuid).layout.bundleDir :=
      oneBelow_bundleDir huuid
    have hextract := (steps_extractApp hbundle kernel archive bundleDir).bind fun _ =>
      Prog.steps_pure (Sandbox.ofContainer containersRoot systemRoot appName uuid)
    exact trans_of (Confined _) ((steps_prepare huuid kernel).ok hprepare) (hextract fs₁ fs' h)
  · exact (steps_prepare huuid kernel).err hprepare

/-- A launch up to the bytes of the executable stays inside the container. -/
theorem steps_launchInner (kernel : Kernel) (p : Profile)
    (ipaPath : OsPath) (containersRoot systemRoot : UnixPath) (nanos seq : U64) (pid : U32)
    (opened : EmuResult OpenArchive) (archive : EmuResult ZipArchive) :
    (launchInner kernel p ipaPath containersRoot systemRoot nanos seq pid opened archive).Steps
      (Confined (containerRoot containersRoot (generateUuid nanos seq pid))) := by
  refine ((Prog.steps_within _).mapErr _).bind fun bundle => ?_
  refine ((steps_install (clean_generateUuid nanos seq pid) archive _).mapErr _).bind
    fun sandbox => ?_
  refine ((steps_readFile kernel _).mono ?_ |>.mapErr _).bind fun bytes => Prog.steps_pure _
  rintro fs _ rfl
  exact refl_of (Confined _) fs

end Stages

/-! ## The process -/

/-- What the executor hands back, as a service. -/
def Resumed.service? (r : Resumed) : Option Service :=
  match r.event with
  | .syscall _ => some ⟨r.kernel, r.clock, r.cpu, none⟩
  | .trampolineCall addr => some ⟨r.kernel, r.clock, r.cpu, some addr⟩
  | _ => none

/-- The machine of a run, unless it went down. -/
def Progress.mach? {E W : Type} : Progress E W → Option (Machine W)
  | running _ mach => some mach
  | returned _ _ mach => some mach
  | panicked => none

section Run

variable {E : Type} {b : Build} {exec : Executor E} {r : Resumed} {s : Service}
  {mach mach' : Machine ObjcRuntime}

theorem serve_of_service (h : r.service? = some s) :
    mach.serve b (hleEnvironment b.profile) r = s.run b mach := by
  rcases r with ⟨event, cpu, kernel, clock⟩
  cases event with
  | syscall imm =>
    obtain rfl := Option.some.inj h
    rfl
  | trampolineCall addr =>
    obtain rfl := Option.some.inj h
    rfl
  | exited code => cases h
  | breakpoint imm => cases h
  | fault pc reason => cases h

theorem serve_of_no_service (h : r.service? = none)
    (hrun : (mach.serve b (hleEnvironment b.profile) r).state? = some mach') :
    mach' = { mach with cpu := r.cpu } := by
  rcases r with ⟨event, cpu, kernel, clock⟩
  cases event with
  | syscall imm => cases h
  | trampolineCall addr => cases h
  | exited code => exact (Option.some.inj hrun).symm
  | breakpoint imm => exact (Option.some.inj hrun).symm
  | fault pc reason => exact (Option.some.inj hrun).symm

/-- One turn writes where its service does. -/
theorem writesIn_serve {W : List Component → Prop} {fs₀ : HostFs}
    (hopens : ∀ s, r.service? = some s → OpensIn W (s.Opens b mach))
    (h : WritesIn W fs₀ ⟨mach.fds, mach.fs⟩)
    (hrun : (mach.serve b (hleEnvironment b.profile) r).state? = some mach') :
    mach'.vfs = mach.vfs ∧ WritesIn W fs₀ ⟨mach'.fds, mach'.fs⟩ := by
  rcases hservice : r.service? with _ | s
  · obtain rfl := serve_of_no_service hservice hrun
    exact ⟨rfl, h⟩
  · rw [serve_of_service hservice] at hrun
    exact Service.writesIn (hopens s hservice) h hrun

/-- So does a run. -/
theorem writesIn_runFor {W : List Component → Prop} {fs₀ : HostFs} {vfs : Sandbox}
    (hopens : ∀ e cpu s (mach : Machine ObjcRuntime), (exec.resume e cpu).1.service? = some s →
      mach.vfs = vfs → OpensIn W (s.Opens b mach)) (n : ℕ) (e : E)
    (hvfs : mach.vfs = vfs) (h : WritesIn W fs₀ ⟨mach.fds, mach.fs⟩)
    (hrun : (Machine.runFor b (hleEnvironment b.profile) exec n e mach).mach? = some mach') :
    WritesIn W fs₀ ⟨mach'.fds, mach'.fs⟩ := by
  induction n generalizing e mach with
  | zero =>
    obtain rfl := Option.some.inj hrun
    exact h
  | succ n ih =>
    unfold Machine.runFor at hrun
    have hstep : ∀ mid, (mach.serve b (hleEnvironment b.profile)
        (exec.resume e mach.cpu).1).state? = some mid →
        mid.vfs = mach.vfs ∧ WritesIn W fs₀ ⟨mid.fds, mid.fs⟩ := fun mid hmid =>
      writesIn_serve (fun s hs => hopens e mach.cpu s mach hs hvfs) h hmid
    rcases hserve : mach.serve b (hleEnvironment b.profile) (exec.resume e mach.cpu).1 with
      ⟨_ | code, mid⟩ | ⟨error, mid⟩ | q <;> simp only [hserve] at hrun hstep
    · obtain ⟨hvfs', h'⟩ := hstep mid rfl
      exact ih _ (hvfs'.trans hvfs) h' hrun
    · obtain rfl := Option.some.inj hrun
      exact (hstep _ rfl).2
    · obtain rfl := Option.some.inj hrun
      exact (hstep _ rfl).2
    · cases hrun

end Run

/-! ## The whole launch -/

/-- The path is as it was, or a missing directory above `root` that was made. -/
def KeptOrMade (root : List Component) (fs fs' : HostFs) (path : List Component) : Prop :=
  fs'.node path = fs.node path ∨
    (path <+: root ∧ fs.node path = none ∧ fs'.node path = some .dir)

/-- The container of the launch. -/
def launchRoot (containersRoot : UnixPath) (nanos seq : U64) (pid : U32) : List Component :=
  containerRoot containersRoot (generateUuid nanos seq pid)

/-- The guest opens no file for reading with `O_APPEND`. -/
def NeverAppends {E : Type} (b : Build) (exec : Executor E) : Prop :=
  ∀ e cpu s, (exec.resume e cpu).1.service? = some s → ¬s.Appends b

section Process

variable {E : Type} {b : Build} {os : Reservations} {ioText : IoErrorKind → String}
  {exec : Executor E} {e : E} {n : ℕ} {sandbox : Sandbox} {bytes : List U8} {fs fs' : HostFs}

theorem startEnvironment_ok {p : Profile} {mach : Machine ObjcRuntime} :
    ∃ world, Machine.startEnvironment (hleEnvironment p) mach = .ok () { mach with world } :=
  ⟨_, rfl⟩

theorem fs_of_ofRun {run : Progress E ObjcRuntime}
    (h : (Launched.ofRun ioText run).fs? = some fs') :
    ∃ mach, run.mach? = some mach ∧ mach.fs = fs' := by
  rcases run with ⟨e, mach⟩ | ⟨last, _ | code, mach⟩ | _
  · exact ⟨mach, rfl, Option.some.inj h⟩
  · exact ⟨mach, rfl, Option.some.inj h⟩
  · exact ⟨mach, rfl, Option.some.inj h⟩
  · cases h

/-- A process writes where its services do. -/
theorem node_of_launchProcess {W : List Component → Prop}
    (hopens : ∀ e cpu s (mach : Machine ObjcRuntime), (exec.resume e cpu).1.service? = some s →
      mach.vfs = sandbox → OpensIn W (s.Opens b mach))
    (h : (launchProcess b os ioText exec e n sandbox bytes fs).fs? = some fs')
    {path : List Component} (hpath : ¬W path) : fs'.node path = fs.node path := by
  unfold launchProcess at h
  rcases hload : Machine.load b os .default bytes sandbox fs ObjcRuntime.new with
    ⟨mach, u⟩ | ⟨error, u⟩ | q <;> simp only [hload] at h
  · obtain ⟨world, hstart⟩ := @startEnvironment_ok b.profile mach
    simp only [hstart] at h
    obtain ⟨last, hlast, rfl⟩ := fs_of_ofRun h
    obtain ⟨image, m₀, -, -, layout, m₁, proc, mem, -, -, rfl⟩ := Machine.load_eq_ok.1 hload
    have hdefault : WritesIn W fs ⟨FdTable.default, fs⟩ :=
      ⟨fun fd f hget _ => False.elim (FdTable.in_default (V := fun _ => False) fd f hget),
        fun _ _ => rfl⟩
    exact (writesIn_runFor hopens n e rfl hdefault hlast).tree path hpath
  · obtain rfl := Option.some.inj h
    rfl
  · cases h

end Process

section Contained

variable {kernel : Kernel} {p : Profile} {ipaPath : OsPath}
  {containersRoot systemRoot : UnixPath}
  {nanos seq : U64} {pid : U32} {opened : EmuResult OpenArchive} {archive : EmuResult ZipArchive}
  {sandbox : Sandbox} {bytes : List U8} {fs fs' : HostFs} {path : List Component}

/-- The sandbox of the process is of the launch's own container. -/
theorem sandbox_of_launchInner
    (h : launchInner kernel p ipaPath containersRoot systemRoot nanos seq pid opened archive fs =
      .ok (sandbox, bytes) fs') :
    sandbox.hostRoot.components = launchRoot containersRoot nanos seq pid ∧
      sandbox.systemRoot = systemRoot := by
  obtain ⟨bundle, fs₀, -, h⟩ := Prog.bind_eq_ok.1 h
  obtain ⟨sb, fs₁, hinstall, h⟩ := Prog.bind_eq_ok.1 h
  obtain ⟨bytes', fs₂, -, h⟩ := Prog.bind_eq_ok.1 h
  obtain ⟨hpair, -⟩ := Outcome.ok.inj h
  obtain ⟨rfl, -⟩ := Prod.mk.inj hpair
  rw [eq_of_install (Prog.mapErr_eq_ok.1 hinstall)]
  exact ⟨components_hostRoot (clean_generateUuid nanos seq pid), rfl⟩

theorem keptOrMade_of_confined {root : List Component} (h : Confined root fs fs')
    (hpath : ¬root <+: path) : KeptOrMade root fs fs' path :=
  (h path).resolve_left fun ⟨_, _, heq⟩ => hpath (heq ▸ List.prefix_append _ _)

/-- What is neither in the container nor in the image is in no base of the sandbox. -/
theorem Sandbox.not_covers (hroot : ¬sandbox.hostRoot.components <+: path)
    (hsystem : ¬sandbox.systemRoot.components <+: path) : ¬sandbox.Covers path := by
  rintro ⟨base, hmem, hbase⟩
  rcases List.mem_cons.1 hmem with rfl | hmem
  · exact hroot hbase
  · obtain ⟨tree, htree, rfl⟩ := List.mem_map.1 hmem
    exact hsystem ((sandbox.prefix_systemBase htree).trans hbase)

end Contained

/-- Whatever is launched and wherever it ends, nothing on the host is other than before but what is
in the container or in the system image, and missing directories above the container. If the guest
opens no file for reading with `O_APPEND`, the image is as before too. -/
theorem launch_contained {E : Type} (b : Build) (os : Reservations)
    (ioText : IoErrorKind → String) (exec : Executor E) (e : E) (n : ℕ) (kernel : Kernel)
    (ipaPath : OsPath) (containersRoot systemRoot : UnixPath) (nanos seq : U64) (pid : U32)
    (opened : EmuResult OpenArchive) (archive : EmuResult ZipArchive) (fs fs' : HostFs)
    (h : (launch b os ioText exec e n kernel ipaPath containersRoot systemRoot nanos seq pid opened
      archive fs).fs? = some fs') :
    let root := launchRoot containersRoot nanos seq pid
    ∀ path, ¬root <+: path →
      (¬systemRoot.components <+: path ∨ NeverAppends b exec) → KeptOrMade root fs fs' path := by
  intro root path hpath himage
  have hbefore := steps_launchInner kernel b.profile ipaPath containersRoot systemRoot nanos seq pid
    opened archive
  unfold launch at h
  rcases hinner : launchInner kernel b.profile ipaPath containersRoot systemRoot nanos seq pid
    opened archive fs with ⟨⟨sandbox, bytes⟩, fs₁⟩ | ⟨error, fs₁⟩ | q <;> simp only [hinner] at h
  · obtain ⟨hroot, hsystem⟩ := sandbox_of_launchInner hinner
    have hinstalled : KeptOrMade root fs fs₁ path :=
      keptOrMade_of_confined (hbefore.ok hinner) hpath
    have hout : ¬sandbox.hostRoot.components <+: path := by
      rwa [hroot]
    have hprocess : fs'.node path = fs₁.node path := by
      rcases himage with himage | happends
      · refine node_of_launchProcess (W := sandbox.Covers) ?_ h
          (Sandbox.not_covers hout (hsystem ▸ himage))
        rintro e cpu s mach - rfl p o access creation ⟨-, -, iosPath, ro, -, htranslate, -⟩ - - hp
        exact absurd (Sandbox.base_of_translate htranslate) hp
      · refine node_of_launchProcess (W := sandbox.Holds) ?_ h hout
        rintro e cpu s mach hservice rfl
        exact Service.opensIn_container (happends e cpu s hservice)
    rwa [KeptOrMade, hprocess]
  · obtain rfl := Option.some.inj h
    exact keptOrMade_of_confined (hbefore.err hinner) hpath
  · cases h

/-- The launch of an archive whose executable is named by the path of a file of the host. -/
theorem launch_contained_hosts :
    let hosts := UnixPath.components "/etc/hosts".toList
    let fs : HostFs := ⟨fun path => if path = hosts then some (.file [1, 2, 3]) else none⟩
    ∃ fs', (launch ⟨.release, .host⟩ ⟨0, 0, 0⟩ (fun _ => "") (Machine.always (Machine.callOf 1 42))
        () 1 .willing testPath "/c".toList "/s".toList 0 0 0 (.ok (testIpa "/etc/hosts"))
        (.ok [.ok (testInfo "/etc/hosts")]) fs).fs? = some fs' ∧
      fs'.node hosts = some (.file [1, 2, 3]) := by
  intro hosts fs
  have hsome : (launch ⟨.release, .host⟩ ⟨0, 0, 0⟩ (fun _ => "")
      (Machine.always (Machine.callOf 1 42)) () 1 .willing testPath "/c".toList "/s".toList
      0 0 0 (.ok (testIpa "/etc/hosts")) (.ok [.ok (testInfo "/etc/hosts")]) fs).fs?.isSome =
        true := by
    decide +kernel
  obtain ⟨fs', hfs'⟩ := Option.isSome_iff_exists.1 hsome
  refine ⟨fs', hfs', ?_⟩
  rcases launch_contained _ _ _ _ _ _ _ _ _ _ _ _ _ _ _ _ _ hfs' hosts (by decide)
    (Or.inl (by decide)) with hkept | ⟨-, hnone, -⟩
  · rw [hkept]
    simp only [fs, if_true]
  · exact absurd hnone (by simp [fs])

end IosEmu
