import IosEmu.Common
import IosEmu.Outcome
import IosEmu.UnixPath

/-!
# The host filesystem

The part of `std::fs` the emulator uses, over a tree of directories and files. A file is
its bytes, and an open file is a path, the rights it was opened with and an offset.
`OpenOptions` follows the standard library on Unix : `append` grants writing by itself,
creation and truncation need `write` or `append`, and an inconsistent choice is an
invalid-input error before the kernel is asked.

The kernel may refuse a request for reasons of its own, return fewer bytes than were asked
for, or give up in the middle of a write. `Kernel` holds its answers, and every result is
about all of them.
-/

open SysLib

namespace IosEmu

/-- What a path leads to. -/
inductive Node
  | dir
  | file (content : List U8)
  deriving DecidableEq

/-- The tree of the host, by the components of a path. -/
structure HostFs where
  node : List Component → Option Node

/-- An open file. -/
structure File where
  path : List Component
  readable : Bool
  writable : Bool
  append : Bool
  pos : ℕ
  deriving DecidableEq

/-- The rights of an `open` call. -/
structure AccessMode where
  read : Bool
  write : Bool
  append : Bool
  deriving DecidableEq

/-- What an `open` call does to a file that is missing or that is there. -/
structure CreationMode where
  create : Bool
  truncate : Bool
  exclusive : Bool
  deriving DecidableEq

/-- A request to the kernel. -/
inductive HostRequest
  | stat (path : UnixPath)
  | mkdir (path : List Component)
  | openFile (path : UnixPath) (access : AccessMode) (creation : CreationMode)
  | read (file : File) (count : ℕ)
  | seek (file : File)

/-- The answers of the host kernel that the tree does not fix. -/
structure Kernel where
  /-- Requests it refuses, with the reason. -/
  refuses : HostFs → HostRequest → Option IoErrorKind
  /-- How many of the bytes there are it returns to a read. -/
  shortRead : HostFs → File → ℕ → ℕ
  /-- After how many bytes a write fails, and why. -/
  writeFault : HostFs → File → List U8 → Option (ℕ × IoErrorKind)

/-- The kernel that refuses nothing and reads and writes all it can. -/
def Kernel.willing : Kernel :=
  ⟨fun _ _ => none, fun _ _ n => n, fun _ _ _ => none⟩

/-- A call of `std::fs`. -/
abbrev FsM := Prog IoErrorKind Panic HostFs

namespace HostFs

/-- The tree with another node at `path`. -/
def set (fs : HostFs) (path : List Component) (node : Node) : HostFs where
  node q := if q = path then some node else fs.node q

def isDir (fs : HostFs) (path : List Component) : Bool :=
  match fs.node path with
  | some .dir => true
  | _ => false

def content (fs : HostFs) (path : List Component) : List U8 :=
  match fs.node path with
  | some (.file content) => content
  | _ => []

/-- `Path::exists`. -/
def pathExists (kernel : Kernel) (fs : HostFs) (path : UnixPath) : Bool :=
  !path.contains '\x00' && (kernel.refuses fs (.stat path)).isNone &&
    (fs.node path.components).isSome

/-- Fail if the kernel refuses the request. -/
def ask (kernel : Kernel) (request : HostRequest) : FsM Unit := do
  let fs ← Prog.get
  match kernel.refuses fs request with
  | some e => Prog.fail e
  | none => return ()

/-- Make one directory if it is missing. A file in its place is the error `blocked`. -/
def makeDir (kernel : Kernel) (blocked : IoErrorKind) (path : List Component) : FsM Unit := do
  let fs ← Prog.get
  match fs.node path with
  | some .dir => return ()
  | some (.file _) => Prog.fail blocked
  | none =>
    ask kernel (.mkdir path)
    Prog.modify fun fs => fs.set path .dir

/-- `std::fs::create_dir_all` : the directories above the path, then its own. -/
def createDirAll (kernel : Kernel) (path : UnixPath) : FsM Unit := do
  if path.contains '\x00' then Prog.fail .invalidInput
  else if path.isEmpty then return ()
  else
    Prog.forEach path.components.dropLast.inits.tail (makeDir kernel .other)
    makeDir kernel .alreadyExists path.components

end HostFs

/-- `std::fs::OpenOptions`. -/
structure OpenOptions where
  read : Bool
  write : Bool
  append : Bool
  truncate : Bool
  create : Bool
  createNew : Bool
  deriving DecidableEq

namespace OpenOptions

/-- `OpenOptions::get_access_mode`. -/
def accessMode (o : OpenOptions) : Except IoErrorKind AccessMode :=
  match o.read, o.write, o.append with
  | true, false, false => .ok ⟨true, false, false⟩
  | false, true, false => .ok ⟨false, true, false⟩
  | true, true, false => .ok ⟨true, true, false⟩
  | false, _, true => .ok ⟨false, true, true⟩
  | true, _, true => .ok ⟨true, true, true⟩
  | false, false, false => .error .invalidInput

/-- `OpenOptions::get_creation_mode`. -/
def creationMode (o : OpenOptions) : Except IoErrorKind CreationMode :=
  if !o.write && !o.append && (o.truncate || o.create || o.createNew) then .error .invalidInput
  else if o.append && o.truncate && !o.createNew then .error .invalidInput
  else if o.createNew then .ok ⟨true, false, true⟩
  else .ok ⟨o.create, o.truncate, false⟩

/-- The `open` system call : what it finds at the path decides. -/
def openNode (path : List Component) (access : AccessMode) (creation : CreationMode) :
    FsM File := do
  let fs ← Prog.get
  let file : File := ⟨path, access.read, access.write, access.append, 0⟩
  match fs.node path with
  | none =>
    if creation.create && fs.isDir path.dropLast then
      Prog.modify fun fs => fs.set path (.file [])
      return file
    else Prog.fail .notFound
  | some .dir =>
    if creation.exclusive then Prog.fail .alreadyExists
    else if access.write || creation.create || creation.truncate then Prog.fail .other
    else return file
  | some (.file _) =>
    if creation.exclusive then Prog.fail .alreadyExists
    else if creation.truncate then
      Prog.modify fun fs => fs.set path (.file [])
      return file
    else return file

/-- `OpenOptions::open`. -/
def openPath (kernel : Kernel) (o : OpenOptions) (path : UnixPath) : FsM File := do
  if path.contains '\x00' then Prog.fail .invalidInput
  else
    let access ← Prog.ofResult o.accessMode
    let creation ← Prog.ofResult o.creationMode
    HostFs.ask kernel (.openFile path access creation)
    openNode path.components access creation

end OpenOptions

/-- `std::io::SeekFrom`. -/
inductive SeekFrom
  | start (offset : U64)
  | current (offset : BitVec 64)
  | fromEnd (offset : BitVec 64)

namespace File

/-- The bytes of a file with `data` stored at `pos`, after zeros where it was shorter. -/
def splice (content : List U8) (pos : ℕ) (data : List U8) : List U8 :=
  (content ++ List.replicate (pos - content.length) 0).take pos ++ data ++
    content.drop (pos + data.length)

/-- `File::read` into a buffer of `count` bytes. Returns the bytes and the file after. -/
def read (kernel : Kernel) (f : File) (count : ℕ) : FsM (List U8 × File) := do
  if !f.readable then Prog.fail .other
  else
    HostFs.ask kernel (.read f count)
    let fs ← Prog.get
    match fs.node f.path with
    | some (.file content) =>
      let there := (content.drop f.pos).take count
      let bytes := there.take (kernel.shortRead fs f there.length)
      return (bytes, { f with pos := f.pos + bytes.length })
    | _ => Prog.fail .other

/-- Where a write goes. -/
def writePos (fs : HostFs) (f : File) : ℕ :=
  if f.append then (fs.content f.path).length else f.pos

/-- Store all of `data`, and the file after. -/
def put (f : File) (data : List U8) : FsM File := do
  let fs ← Prog.get
  let pos := f.writePos fs
  if data.isEmpty then return f
  else
    Prog.modify fun fs => fs.set f.path (.file (splice (fs.content f.path) pos data))
    return { f with pos := pos + data.length }

/-- `File::write_all`. If the kernel gives up, the bytes before are in the file, and the
offset is where it stopped. Returns the file after, and the error. -/
def writeAll (kernel : Kernel) (f : File) (data : List U8) :
    FsM (File × Except IoErrorKind Unit) := do
  if data.isEmpty then return (f, .ok ())
  else if !f.writable then return (f, .error .other)
  else
    let fs ← Prog.get
    match kernel.writeFault fs f data with
    | some (n, e) => return (← f.put (data.take n), .error e)
    | none => return (← f.put data, .ok ())

/-- `File::seek`. An offset below zero or past `i64::MAX` is refused. -/
def seek (kernel : Kernel) (f : File) (pos : SeekFrom) : FsM (U64 × File) := do
  HostFs.ask kernel (.seek f)
  let fs ← Prog.get
  let target : ℤ := match pos with
    | .start offset => offset.toInt
    | .current offset => f.pos + offset.toInt
    | .fromEnd offset => (fs.content f.path).length + offset.toInt
  if 0 ≤ target ∧ target < 2 ^ 63 then
    return (BitVec.ofInt 64 target, { f with pos := target.toNat })
  else Prog.fail .invalidInput

end File

/-! ## What the calls do -/

theorem HostFs.steps_ask (kernel : Kernel) (request : HostRequest) :
    (HostFs.ask kernel request).Steps Eq := by
  refine Prog.steps_get.bind fun fs => ?_
  split
  · exact Prog.steps_fail _
  · exact Prog.steps_pure _

namespace OpenOptions

/-- `open` changes nothing, or makes the file empty if it may create or truncate it. -/
theorem openNode_eq_ok {path : List Component} {access : AccessMode} {creation : CreationMode}
    {fs fs' : HostFs} {file : File} (h : openNode path access creation fs = .ok file fs') :
    file = ⟨path, access.read, access.write, access.append, 0⟩ ∧
      (fs' = fs ∨
        ((creation.create = true ∨ creation.truncate = true) ∧ fs' = fs.set path (.file []))) := by
  rw [openNode, Prog.get_bind] at h
  rcases hn : fs.node path with _ | _ | content <;> simp only [hn] at h
  · split_ifs at h with hcreate
    · obtain ⟨rfl, rfl⟩ := Outcome.ok.inj h
      exact ⟨rfl, Or.inr ⟨Or.inl (by simp_all), rfl⟩⟩
    · cases h
  · split_ifs at h
    · cases h
    · cases h
    · obtain ⟨rfl, rfl⟩ := Outcome.ok.inj h
      exact ⟨rfl, Or.inl rfl⟩
  · split_ifs at h with hexcl htrunc
    · cases h
    · obtain ⟨rfl, rfl⟩ := Outcome.ok.inj h
      exact ⟨rfl, Or.inr ⟨Or.inr htrunc, rfl⟩⟩
    · obtain ⟨rfl, rfl⟩ := Outcome.ok.inj h
      exact ⟨rfl, Or.inl rfl⟩

theorem openNode_failsClean (path : List Component) (access : AccessMode)
    (creation : CreationMode) : (openNode path access creation).FailsClean := by
  refine .bind_const Prog.steps_get fun fs => ?_
  split
  · split_ifs
    · exact .bind_total (Prog.failsClean_modify _) fun _ _ _ _ h => by cases h
    · exact .of_steps_eq (Prog.steps_fail _)
  · split_ifs
    · exact .of_steps_eq (Prog.steps_fail _)
    · exact .of_steps_eq (Prog.steps_fail _)
    · exact .of_steps_eq (Prog.steps_pure _)
  · split_ifs
    · exact .of_steps_eq (Prog.steps_fail _)
    · exact .bind_total (Prog.failsClean_modify _) fun _ _ _ _ h => by cases h
    · exact .of_steps_eq (Prog.steps_pure _)

/-- A file that is opened has the rights of the options, and is made empty only if they
allow it. -/
theorem openPath_eq_ok {kernel : Kernel} {o : OpenOptions} {path : UnixPath} {fs fs' : HostFs}
    {file : File} (h : o.openPath kernel path fs = .ok file fs') :
    ∃ access creation, o.accessMode = .ok access ∧ o.creationMode = .ok creation ∧
      file = ⟨path.components, access.read, access.write, access.append, 0⟩ ∧
      (fs' = fs ∨ ((creation.create = true ∨ creation.truncate = true) ∧
        fs' = fs.set path.components (.file []))) := by
  unfold openPath at h
  split_ifs at h
  · cases h
  obtain ⟨access, haccess, h⟩ := Prog.ofResult_bind_eq_ok.1 h
  obtain ⟨creation, hcreation, h⟩ := Prog.ofResult_bind_eq_ok.1 h
  obtain ⟨u, fs₁, hask, h⟩ := Prog.bind_eq_ok.1 h
  obtain rfl := (HostFs.steps_ask _ _).ok hask
  obtain ⟨hfile, hfs⟩ := openNode_eq_ok h
  exact ⟨access, creation, haccess, hcreation, hfile, hfs⟩

theorem openPath_failsClean (kernel : Kernel) (o : OpenOptions) (path : UnixPath) :
    (o.openPath kernel path).FailsClean := by
  unfold openPath
  split_ifs
  · exact .of_steps_eq (Prog.steps_fail _)
  · exact .bind_const (Prog.steps_ofResult _) fun _ =>
      .bind_const (Prog.steps_ofResult _) fun _ =>
        .bind_const (HostFs.steps_ask _ _) fun _ => openNode_failsClean _ _ _

end OpenOptions

namespace File

theorem steps_read (kernel : Kernel) (f : File) (count : ℕ) :
    (f.read kernel count).Steps Eq := by
  unfold File.read
  split_ifs
  · exact Prog.steps_fail _
  · refine (HostFs.steps_ask _ _).bind fun _ => Prog.steps_get.bind fun fs => ?_
    split
    · exact Prog.steps_pure _
    · exact Prog.steps_fail _

/-- A read moves the offset, and gives no more bytes than are asked for. -/
theorem read_eq_ok {kernel : Kernel} {f f' : File} {count : ℕ} {bytes : List U8}
    {fs fs' : HostFs} (h : f.read kernel count fs = .ok (bytes, f') fs') :
    (∃ pos, f' = { f with pos }) ∧ bytes.length ≤ count := by
  unfold File.read at h
  split_ifs at h
  · cases h
  obtain ⟨u, fs₁, -, h⟩ := Prog.bind_eq_ok.1 h
  rw [Prog.get_bind] at h
  rcases hn : fs₁.node f.path with _ | _ | content <;> simp only [hn] at h
  · cases h
  · cases h
  · obtain ⟨hpair, -⟩ := Outcome.ok.inj h
    obtain ⟨rfl, rfl⟩ := Prod.mk.inj hpair
    refine ⟨⟨_, rfl⟩, ?_⟩
    exact (List.length_take_le' _ _).trans (List.length_take_le _ _)

theorem steps_seek (kernel : Kernel) (f : File) (target : SeekFrom) :
    (f.seek kernel target).Steps Eq := by
  refine (HostFs.steps_ask _ _).bind fun _ => Prog.steps_get.bind fun fs => ?_
  dsimp only
  split_ifs
  · exact Prog.steps_pure _
  · exact Prog.steps_fail _

/-- A seek moves the offset. -/
theorem seek_eq_ok {kernel : Kernel} {f f' : File} {target : SeekFrom} {at' : U64}
    {fs fs' : HostFs} (h : f.seek kernel target fs = .ok (at', f') fs') :
    ∃ pos, f' = { f with pos } := by
  obtain ⟨u, fs₁, -, h⟩ := Prog.bind_eq_ok.1 h
  rw [Prog.get_bind] at h
  split_ifs at h
  · obtain ⟨hpair, -⟩ := Outcome.ok.inj h
    exact ⟨_, (Prod.mk.inj hpair).2.symm⟩
  · cases h

theorem put_apply (f : File) (data : List U8) (fs : HostFs) :
    f.put data fs = .ok f fs ∨
      ∃ pos content, f.put data fs = .ok { f with pos } (fs.set f.path (.file content)) := by
  rw [put, Prog.get_bind]
  split_ifs
  · exact Or.inl rfl
  · exact Or.inr ⟨_, _, rfl⟩

/-- A write does nothing, or it changes the bytes of its own file, which is writable. -/
theorem writeAll_apply (kernel : Kernel) (f : File) (data : List U8) (fs : HostFs) :
    (∃ r, f.writeAll kernel data fs = .ok (f, r) fs) ∨
      f.writable = true ∧ ∃ pos content r, f.writeAll kernel data fs =
        .ok ({ f with pos }, r) (fs.set f.path (.file content)) := by
  unfold writeAll
  split_ifs with hempty hwritable
  · exact Or.inl ⟨_, rfl⟩
  · exact Or.inl ⟨_, rfl⟩
  · rw [Prog.get_bind]
    have hw : f.writable = true := by simpa using hwritable
    rcases kernel.writeFault fs f data with _ | ⟨n, e⟩
    · rcases f.put_apply data fs with h | ⟨pos, content, h⟩
      · exact Or.inl ⟨.ok (), by dsimp only; rw [Prog.bind_apply, h]; rfl⟩
      · exact Or.inr ⟨hw, pos, content, .ok (), by dsimp only; rw [Prog.bind_apply, h]; rfl⟩
    · rcases f.put_apply (data.take n) fs with h | ⟨pos, content, h⟩
      · exact Or.inl ⟨.error e, by dsimp only; rw [Prog.bind_apply, h]; rfl⟩
      · exact Or.inr ⟨hw, pos, content, .error e, by dsimp only; rw [Prog.bind_apply, h]; rfl⟩

end File

end IosEmu
