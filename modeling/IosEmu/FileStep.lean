import Mathlib.Logic.Relation
import IosEmu.Syscall

/-!
# What a system call does to the files

`Files` is the part of a process that the calls on files share : the descriptors and the
host's tree. `FileStep` says what a call can do to it : move the offset of an open file,
change the bytes of a file that is open for writing, close a descriptor, or open a path.
`fileSteps_dispatch` says that servicing a call is a sequence of such steps, and that the
paths it opens are those `Opens` names : a translated path, with the options of the flag
word, past the check for read-only paths.
-/

open SysLib Relation

namespace IosEmu

/-- The descriptors of a process and the host's tree. -/
structure Files where
  fds : FdTable
  fs : HostFs

namespace SyscallCtx

/-- The files of a context. -/
def files (c : SyscallCtx) : Files :=
  ⟨c.fds, c.fs⟩

/-- The call in `c` opens `path` with the options `o`. -/
def Opens (vfs : Sandbox) (c : SyscallCtx) (path : UnixPath) (o : OpenOptions) : Prop :=
  ∃ iosPath ro, c.mem.readCstr (c.cpu.arg 0) 1024 = .ok iosPath ∧
    vfs.translate iosPath.toList = .ok (path, ro) ∧
    ¬(ro = true ∧ c.cpu.arg 1 &&& Unix.O_ACCMODE ≠ Unix.O_RDONLY) ∧
    o = Unix.openOptions (c.cpu.arg 1)

end SyscallCtx

open SyscallCtx

/-- One effect of a call that opens at most the paths in `opens`. -/
inductive FileStep (opens : UnixPath → OpenOptions → Prop) : Files → Files → Prop
  | move {s : Files} (fd : BitVec 32) (f : File) (pos : ℕ) :
      s.fds.slots.get? fd = some (.file f) →
      FileStep opens s
        ⟨{ s.fds with slots := s.fds.slots.insert fd (.file { f with pos }) }, s.fs⟩
  | write {s : Files} (fd : BitVec 32) (f : File) (pos : ℕ) (content : List U8) :
      s.fds.slots.get? fd = some (.file f) → f.writable = true →
      FileStep opens s
        ⟨{ s.fds with slots := s.fds.slots.insert fd (.file { f with pos }) },
          s.fs.set f.path (.file content)⟩
  | close {s : Files} (fd : BitVec 32) :
      FileStep opens s ⟨(s.fds.close fd).2, s.fs⟩
  | opened {s : Files} (path : UnixPath) (o : OpenOptions) (access : AccessMode)
      (creation : CreationMode) (p : Profile) (fd : BitVec 32) (fds : FdTable) (fs : HostFs) :
      opens path o → o.accessMode = .ok access → o.creationMode = .ok creation →
      s.fds.insert p (.file ⟨path.components, access.read, access.write, access.append, 0⟩)
        = .ok (fd, fds) →
      (fs = s.fs ∨ ((creation.create = true ∨ creation.truncate = true) ∧
        fs = s.fs.set path.components (.file []))) →
      FileStep opens s ⟨fds, fs⟩

/-- A call takes the files from those of `c` to those of `c'` in steps. -/
def FileSteps (opens : UnixPath → OpenOptions → Prop) (c c' : SyscallCtx) : Prop :=
  ReflTransGen (FileStep opens) c.files c'.files

instance (opens : UnixPath → OpenOptions → Prop) : IsPreorder SyscallCtx (FileSteps opens) where
  refl _ := .refl
  trans _ _ _ := .trans

section Handlers

variable {opens : UnixPath → OpenOptions → Prop}

/-! ## Calls on a part of the context -/

theorem fileSteps_onMem {α : Type} (errno : U32) (x : MemM α) :
    (onMem errno x).Steps (FileSteps opens) := by
  intro c c' h
  unfold onMem Prog.mapErr Prog.zoom at h
  rcases hx : x c.mem with ⟨a, mem⟩ | ⟨e, mem⟩ | e <;> simp only [hx] at h
  · obtain rfl := Option.some.inj h
    exact .refl
  · obtain rfl := Option.some.inj h
    exact .refl
  · cases h

theorem onFs_eq_err {α : Type} {x : FsM α} {c c' : SyscallCtx} {errno : U32}
    (h : onFs x c = .err errno c') : ∃ e fs, x c.fs = .err e fs ∧ c' = { c with fs } := by
  unfold onFs Prog.mapErr Prog.zoom at h
  rcases hx : x c.fs with ⟨b, fs⟩ | ⟨e, fs⟩ | e <;> simp only [hx] at h
  · cases h
  · obtain ⟨-, rfl⟩ := Outcome.err.inj h
    exact ⟨e, fs, rfl, rfl⟩
  · cases h

/-- A call that fails cleanly on the tree fails cleanly in the context. -/
theorem files_of_onFs_eq_err {α : Type} {x : FsM α} (hx : x.FailsClean) {c c' : SyscallCtx}
    {errno : U32} (h : onFs x c = .err errno c') : FileSteps opens c c' := by
  obtain ⟨e, fs, hfs, rfl⟩ := onFs_eq_err h
  obtain rfl := hx c.fs fs e hfs
  exact .refl

theorem fileSteps_readMem {α : Type} (read : GuestMemory → EmuResult α) :
    (readMem read).Steps (FileSteps opens) :=
  Prog.steps_get.bind fun _ => Prog.steps_ofResult _

/-- A change of the context besides the files. -/
theorem fileSteps_modify {ε : Type} {f : SyscallCtx → SyscallCtx}
    (hf : ∀ c, (f c).files = c.files) :
    (Prog.modify f : Prog ε Panic SyscallCtx Unit).Steps (FileSteps opens) := by
  intro c c' h
  obtain rfl := Option.some.inj h
  unfold FileSteps
  rw [hf c]

/-! ## Handlers that keep the tree -/

/-- Moving the offset of the file at a descriptor, after a call that keeps the tree. -/
theorem fileSteps_moveFile {α : Type} {x : FsM (α × File)} {fd : BitVec 32} {f : File}
    {c c' : SyscallCtx} (hget : c.fds.slots.get? fd = some (.file f)) (hx : x.Steps Eq)
    (hmove : ∀ fs a f' fs', x fs = .ok (a, f') fs' → ∃ pos, f' = { f with pos })
    (h : ((onFs x >>= fun r => setFile fd r.2 >>= fun _ => pure r.1) c).state? = some c') :
    FileSteps opens c c' := by
  rcases Prog.state?_bind_eq_some h with ⟨⟨a, f'⟩, c₁, hok, h⟩ | ⟨e, herr⟩
  · obtain ⟨fs, hfs, rfl⟩ := onFs_eq_ok.1 hok
    obtain rfl := hx.ok hfs
    obtain ⟨pos, rfl⟩ := hmove _ _ _ _ hfs
    obtain rfl := Option.some.inj h
    exact .single (.move fd f pos hget)
  · exact files_of_onFs_eq_err (.of_steps_eq hx) herr

theorem fileSteps_readBytes (host : Host) (fd : BitVec 32) (count : ℕ) :
    (Unix.readBytes host fd count).Steps (FileSteps opens) := by
  intro c c' h
  rw [Unix.readBytes, Prog.get_bind] at h
  rcases hget : c.fds.slots.get? fd with _ | _ | _ | _ | f | _ <;> simp only [hget] at h
  case some.file =>
    exact fileSteps_moveFile hget (f.steps_read _ _) (fun _ _ _ _ hr => (File.read_eq_ok hr).1) h
  all_goals
    obtain rfl := Option.some.inj h
    exact .refl

theorem fileSteps_sysRead (host : Host) : (Unix.sysRead host).Steps (FileSteps opens) :=
  Prog.steps_get.bind fun _ => (Prog.steps_ofChecked _).bind fun _ =>
    (fileSteps_readBytes _ _ _).bind fun _ => (fileSteps_onMem _ _).bind fun _ =>
      Prog.steps_pure _

theorem fileSteps_sysLseek (host : Host) : (Unix.sysLseek host).Steps (FileSteps opens) := by
  intro c c' h
  rw [Unix.sysLseek, Prog.get_bind] at h
  rcases hget : c.fds.slots.get? ((c.cpu.arg 0).setWidth 32) with _ | _ | _ | _ | f | _ <;>
    simp only [hget] at h
  case some.file =>
    rcases Prog.state?_bind_eq_some h with ⟨target, c₁, hok, h⟩ | ⟨e, herr⟩
    · obtain ⟨-, rfl⟩ := Prog.ofResult_eq_ok.1 hok
      exact fileSteps_moveFile hget (f.steps_seek _ _) (fun _ _ _ _ hr => File.seek_eq_ok hr) h
    · exact (Prog.steps_ofResult _).err herr
  all_goals
    obtain rfl := Option.some.inj h
    exact .refl

theorem fileSteps_sysClose : Unix.sysClose.Steps (FileSteps opens) := by
  intro c c' h
  rw [Unix.sysClose, Prog.get_bind] at h
  dsimp only at h
  rw [Prog.modify_bind] at h
  split_ifs at h
  · obtain rfl := Option.some.inj h
    exact .single (.close _)
  · obtain rfl := Option.some.inj h
    exact .single (.close _)

/-! ## Handlers that change it -/

/-- A write changes the file at the descriptor, if it is open for writing. -/
theorem fileSteps_writeBytes (host : Host) (fd : BitVec 32) (data : List U8) :
    (Unix.writeBytes host fd data).Steps (FileSteps opens) := by
  intro c c' h
  rw [Unix.writeBytes, Prog.get_bind] at h
  rcases hget : c.fds.slots.get? fd with _ | _ | _ | _ | f | _ <;> simp only [hget] at h
  case some.file =>
    rcases Prog.state?_bind_eq_some h with ⟨⟨f', r⟩, c₁, hok, h⟩ | ⟨e, herr⟩
    · obtain ⟨fs, hfs, rfl⟩ := onFs_eq_ok.1 hok
      rw [setFile, Prog.modify_bind] at h
      have htail := (Prog.steps_ofResult (R := FileSteps opens) _).bind
        (fun _ => Prog.steps_pure _) _ _ h
      rcases f.writeAll_apply host.kernel data c.fs with ⟨r', hw⟩ | ⟨hw, pos, content, r', hw'⟩
      · rw [hw] at hfs
        obtain ⟨hpair, rfl⟩ := Outcome.ok.inj hfs
        obtain ⟨rfl, -⟩ := Prod.mk.inj hpair
        exact .trans (.single (.move fd f f.pos hget)) htail
      · rw [hw'] at hfs
        obtain ⟨hpair, rfl⟩ := Outcome.ok.inj hfs
        obtain ⟨rfl, -⟩ := Prod.mk.inj hpair
        exact .trans (.single (.write fd f pos content hget hw)) htail
    · obtain ⟨e, fs, hfs, -⟩ := onFs_eq_err herr
      rcases f.writeAll_apply host.kernel data c.fs with ⟨r', hw⟩ | ⟨-, pos, content, r', hw'⟩
      · rw [hw] at hfs
        cases hfs
      · rw [hw'] at hfs
        cases hfs
  all_goals
    obtain rfl := Option.some.inj h
    exact .refl

theorem fileSteps_sysWrite (host : Host) : (Unix.sysWrite host).Steps (FileSteps opens) :=
  Prog.steps_get.bind fun _ => (Prog.steps_ofChecked _).bind fun _ =>
    (fileSteps_readMem _).bind fun _ => fileSteps_writeBytes _ _ _

/-- Every turn of the loop of `writev` is a write. -/
theorem fileSteps_writevFrom (host : Host) (fd : BitVec 32) (iov : U64) :
    ∀ (left : ℕ) (i total : U64),
      (Unix.writevFrom host fd iov left i total).Steps (FileSteps opens)
  | 0, _, total => Prog.steps_pure total
  | left + 1, i, _ =>
    (Prog.steps_ofChecked _).bind fun _ => (fileSteps_readMem _).bind fun _ =>
      (fileSteps_readMem _).bind fun _ => (Prog.steps_ofChecked _).bind fun _ =>
        (fileSteps_readMem _).bind fun _ => (fileSteps_writeBytes _ _ _).bind fun _ =>
          (Prog.steps_ofChecked _).bind fun total =>
            fileSteps_writevFrom host fd iov left (i + 1) total

theorem fileSteps_sysWritev (host : Host) : (Unix.sysWritev host).Steps (FileSteps opens) :=
  Prog.steps_get.bind fun _ => fileSteps_writevFrom _ _ _ _ _ _

/-- `sysOpen` opens the path of its arguments, or changes nothing. -/
theorem fileSteps_sysOpen (host : Host) (vfs : Sandbox) {c c' : SyscallCtx}
    (hopens : ∀ path o, c.Opens vfs path o → opens path o)
    (h : (Unix.sysOpen host vfs c).state? = some c') : FileSteps opens c c' := by
  rw [Unix.sysOpen, Prog.get_bind] at h
  rcases Prog.state?_bind_eq_some h with ⟨iosPath, c₁, hok, h⟩ | ⟨e, herr⟩
  · obtain ⟨hpath, rfl⟩ := readMem_eq_ok hok
    rcases Prog.state?_bind_eq_some h with ⟨⟨path, ro⟩, c₂, hok, h⟩ | ⟨e, herr⟩
    · obtain ⟨htranslate, rfl⟩ := Prog.ofResult_eq_ok.1 hok
      dsimp only at h
      split_ifs at h with hro
      · exact Prog.steps_fail _ _ _ h
      · rcases Prog.state?_bind_eq_some h with ⟨file, c₃, hok, h⟩ | ⟨e, herr⟩
        · obtain ⟨fs, hfs, rfl⟩ := onFs_eq_ok.1 hok
          obtain ⟨access, creation, haccess, hcreation, rfl, htree⟩ :=
            OpenOptions.openPath_eq_ok hfs
          rw [Prog.get_bind] at h
          rcases Prog.state?_bind_eq_some h with ⟨⟨fd, fds⟩, c₄, hok, h⟩ | ⟨e, herr⟩
          · obtain ⟨hinsert, rfl⟩ := Prog.ofChecked_eq_ok.1 hok
            rw [Prog.modify_bind] at h
            obtain rfl := Option.some.inj h
            have hpath : opens path (Unix.openOptions (c₂.cpu.arg 1)) := hopens _ _
              ⟨iosPath, ro, hpath, mapError_eq_ok.1 htranslate, hro, rfl⟩
            exact .single (.opened path _ access creation host.build.profile fd fds fs hpath
              haccess hcreation hinsert htree)
          · rcases hinsert : FdTable.insert _ _ _ with e | r <;> rw [hinsert] at herr <;>
              cases herr
        · exact files_of_onFs_eq_err (OpenOptions.openPath_failsClean _ _ _) herr
    · exact (Prog.steps_ofResult _).err herr
  · exact (fileSteps_readMem _).err herr

/-! ## The other handlers, and dispatch -/

theorem fileSteps_sysExit : Unix.sysExit.Steps (FileSteps opens) := by
  refine Prog.Steps.bind (fileSteps_modify fun c => ?_) fun _ => Prog.steps_pure _
  rfl

theorem fileSteps_sysAccess (host : Host) (vfs : Sandbox) :
    (Unix.sysAccess host vfs).Steps (FileSteps opens) := by
  refine Prog.steps_get.bind fun _ => (fileSteps_readMem _).bind fun _ =>
    (Prog.steps_ofResult _).bind fun _ => ?_
  dsimp only
  split_ifs
  · exact Prog.steps_pure _
  · exact Prog.steps_fail _

theorem fileSteps_sysMmap (host : Host) : (Unix.sysMmap host).Steps (FileSteps opens) := by
  refine Prog.steps_get.bind fun _ => ?_
  split_ifs
  · exact Prog.steps_fail _
  · exact fileSteps_onMem _ _

theorem fileSteps_sysMprotect (host : Host) : (Unix.sysMprotect host).Steps (FileSteps opens) :=
  Prog.steps_get.bind fun _ => (fileSteps_onMem _ _).bind fun _ => Prog.steps_pure _

theorem fileSteps_sysGettimeofday (host : Host) :
    (Unix.sysGettimeofday host).Steps (FileSteps opens) := by
  refine Prog.steps_get.bind fun _ => ?_
  dsimp only
  split_ifs
  · exact Prog.steps_pure _
  · exact (fileSteps_onMem _ _).bind fun _ => (fileSteps_onMem _ _).bind fun _ =>
      Prog.steps_pure _

theorem fileSteps_sysGetentropy (host : Host) :
    (Unix.sysGetentropy host).Steps (FileSteps opens) := by
  refine Prog.steps_get.bind fun _ => ?_
  dsimp only
  split_ifs
  · exact Prog.steps_fail _
  · exact (fileSteps_onMem _ _).bind fun _ => Prog.steps_pure _

theorem fileSteps_vmAllocate (host : Host) : (Mach.vmAllocate host).Steps (FileSteps opens) := by
  refine Prog.steps_get.bind fun _ => (fileSteps_onMem _ _).attempt.bind fun base => ?_
  rcases base with _ | base
  · exact Prog.steps_pure _
  · refine (fileSteps_onMem _ _).attempt.bind fun r => ?_
    rcases r with _ | _
    · exact Prog.steps_pure _
    · exact Prog.steps_pure _

theorem fileSteps_mach (host : Host) : ∀ trap, (Mach.handle host trap).Steps (FileSteps opens)
  | .vmAllocate => fileSteps_vmAllocate host
  | .taskSelf | .hostSelf | .threadSelf | .replyPort | .msg | .semaphore | .vmDeallocate =>
    Prog.steps_pure _

/-- A BSD call opens a path only if it is `open`. -/
theorem fileSteps_unix (host : Host) (vfs : Sandbox) {call : Unix.Call} {c c' : SyscallCtx}
    (hopens : call = .openFile → ∀ path o, c.Opens vfs path o → opens path o)
    (h : (Unix.handle host vfs call c).state? = some c') : FileSteps opens c c' := by
  cases call with
  | exit => exact fileSteps_sysExit _ _ h
  | read => exact fileSteps_sysRead _ _ _ h
  | write => exact fileSteps_sysWrite _ _ _ h
  | writev => exact fileSteps_sysWritev _ _ _ h
  | openFile => exact fileSteps_sysOpen host vfs (hopens rfl) h
  | close => exact fileSteps_sysClose _ _ h
  | lseek => exact fileSteps_sysLseek _ _ _ h
  | access => exact fileSteps_sysAccess _ _ _ _ h
  | mmap => exact fileSteps_sysMmap _ _ _ h
  | mprotect => exact fileSteps_sysMprotect _ _ _ h
  | gettimeofday => exact fileSteps_sysGettimeofday _ _ _ h
  | getentropy => exact fileSteps_sysGetentropy _ _ _ h
  | munmap | madvise | getpid | getuid | getgid | issetugid | fcntl =>
    exact Prog.steps_pure _ _ _ h

end Handlers

/-- The call in `c` is an `open`. -/
def SyscallCtx.IsOpen (p : Profile) (c : SyscallCtx) : Prop :=
  ∃ number, decode p (c.cpu.x 16) = .ok (.unix, number) ∧
    Unix.Call.ofNumber number = some .openFile

/-- The handler of a decoded selector. -/
theorem fileSteps_handler {host : Host} {vfs : Sandbox} {cls : SyscallClass} {number : U32}
    {handler : SysM U64} {c c' : SyscallCtx}
    (hdecode : decode host.build.profile (c.cpu.x 16) = .ok (cls, number))
    (hh : handlerOf host vfs cls number = some handler)
    (h : (handler c).state? = some c') :
    FileSteps (fun path o => c.IsOpen host.build.profile ∧ c.Opens vfs path o) c c' := by
  rcases cls with _ | _ | _ | _
  · obtain ⟨call, hcall, rfl⟩ := Option.map_eq_some_iff.1 hh
    refine fileSteps_unix host vfs (fun heq path o ho => ⟨⟨number, hdecode, ?_⟩, ho⟩) h
    rw [hcall, heq]
  · obtain ⟨trap, -, rfl⟩ := Option.map_eq_some_iff.1 hh
    exact fileSteps_mach host trap _ _ h
  · cases hh
  · cases hh

/-- Servicing a call takes the files through steps that open the path of the call, if it is
an `open`. -/
theorem fileSteps_dispatch {host : Host} {vfs : Sandbox} {d : SyscallDispatcher}
    {c c' : SyscallCtx} (h : (dispatch host vfs d c).state? = some c') :
    FileSteps (fun path o => c.IsOpen host.build.profile ∧ c.Opens vfs path o) c c' := by
  obtain ⟨cls, number, hdecode, ⟨-, rfl⟩ | ⟨handler, c₁, result, hh, hrun, rfl⟩⟩ := dispatch_cases h
  · exact .refl
  · change FileSteps _ c c₁
    exact fileSteps_handler hdecode hh hrun

end IosEmu
