import Mathlib.Data.List.Infix
import IosEmu.Plist
import IosEmu.Sandbox

/-!
# Installing an app

A launch names a new container, makes its directories and unpacks the bundle out of the
archive. Two schemes keep the paths inside : `sanitizeComponent` makes one clean name of the
app's name, and `extractApp` refuses an entry whose path is absolute or goes up before it
touches the disk.

Every path that is created or written is the container's with clean names behind it, or a
directory above the container that was missing. This is said of the tree (`Confined`) and of
what the kernel is asked (`AgreesInside`). If the unpacking succeeds, every file of the bundle
has the bytes of the last entry for its path : what comes later either names another path or
fails (`install_contained`).
-/

open SysLib

namespace IosEmu

/-! ## Container ids -/

/-- A hexadecimal digit of `{:X}`. -/
def hexDigit (d : ℕ) : Char :=
  Char.ofNat (if d < 10 then 0x30 + d else 0x37 + d)

/-- The `width` hexadecimal digits of a number that has no more. -/
def hexDigits : ℕ → ℕ → List Char
  | 0, _ => []
  | width + 1, n => hexDigits width (n / 16) ++ [hexDigit (n % 16)]

/-- `{:08X}-{:04X}-{:04X}-{:04X}-{:012X}`. -/
def uuidText (a b c d e : ℕ) : List Char :=
  hexDigits 8 a ++ '-' :: (hexDigits 4 b ++ '-' :: (hexDigits 4 c ++ '-' ::
    (hexDigits 4 d ++ '-' :: hexDigits 12 e)))

/-- A container id, from the time, a counter and the process. -/
def generateUuid (nanos seq : U64) (pid : U32) : List Char :=
  let a := nanos ^^^ (pid.setWidth 64 <<< 32)
  let b := nanos.rotateLeft 17 ^^^ seq * 0x9e3779b97f4a7c15
  uuidText ((a >>> 32).setWidth 32).toNat ((a >>> 16).setWidth 16).toNat (a.setWidth 16).toNat
    ((b >>> 48).setWidth 16).toNat (b &&& 0xffffffffffff).toNat

/-! ## Unpacking -/

/-- An entry of an archive : its name, the size it declares, and the bytes it unpacks to. -/
structure ZipEntry where
  name : List Char
  size : U64
  content : Except IoErrorKind (List U8)

/-- The entries of an archive. One that cannot be opened is an error. -/
abbrev ZipArchive := List (Except String ZipEntry)

/-- `std::fs::write`. -/
def HostFs.write (kernel : Kernel) (path : UnixPath) (data : List U8) : FsM Unit := do
  let file ← OpenOptions.openPath kernel ⟨false, true, false, true, true, false⟩ path
  let (_, result) ← file.writeAll kernel data
  Prog.ofResult result

/-- Make the directories above `path`. -/
def HostFs.createParent (kernel : Kernel) (path : UnixPath) : FsM Unit :=
  match path.parent with
  | some parent => HostFs.createDirAll kernel parent
  | none => pure ()

/-- Unpack the bytes of an entry to `out`. -/
def unpackFile (kernel : Kernel) (entry : ZipEntry) (out : UnixPath) :
    Prog EmuError Panic HostFs Unit := do
  Prog.mapErr EmuError.io (HostFs.createParent kernel out)
  Prog.ofChecked (withCapacity entry.size.toNat 1)
  let buf ← Prog.ofResult (entry.content.mapError EmuError.io)
  Prog.mapErr EmuError.io (HostFs.write kernel out buf)

/-- Unpack entry number `i`, if it is in the bundle. -/
def extractEntry (kernel : Kernel) (bundleDir : List Char) (destRoot : UnixPath)
    (entry : Except String ZipEntry) (i : ℕ) : Prog EmuError Panic HostFs Unit :=
  match entry with
  | .error e => Prog.fail (.archive ("entry " ++ toString i ++ ": " ++ e))
  | .ok entry =>
    match entry.name.dropPrefix? (bundleDir ++ ['/']) with
    | none => return ()
    | some rel =>
      if rel = [] then return ()
      else if rel.head? = some '/' ∨ ['.', '.'] ∈ rel.splitOn '/' then
        Prog.fail (.archive ("unsafe archive path: " ++ String.ofList entry.name))
      else if entry.name.getLast? = some '/' then
        Prog.mapErr EmuError.io (HostFs.createDirAll kernel (destRoot.join rel))
      else unpackFile kernel entry (destRoot.join rel)

/-- Unpack everything under `bundleDir` into `destRoot`. -/
def extractApp (kernel : Kernel) (archive : EmuResult ZipArchive) (bundleDir : List Char)
    (destRoot : UnixPath) : Prog EmuError Panic HostFs Unit := do
  let entries ← Prog.ofResult archive
  Prog.forEach entries.zipIdx fun e => extractEntry kernel bundleDir destRoot e.1 e.2

/-- The part of a launch that writes to the host : prepare the container, unpack the app. -/
def install (kernel : Kernel) (containersRoot systemRoot : UnixPath) (appName uuid : List Char)
    (archive : EmuResult ZipArchive) (bundleDir : List Char) :
    Prog EmuError Panic HostFs Sandbox := do
  let sandbox ← Sandbox.prepare kernel containersRoot systemRoot appName uuid
  extractApp kernel archive bundleDir sandbox.layout.bundleDir
  return sandbox

/-! ## Clean names -/

theorem sep_notMem_hexDigits : ∀ width n : ℕ, '/' ∉ hexDigits width n
  | 0, _ => List.not_mem_nil
  | width + 1, n => by
    have hdigit : ∀ d < 16, '/' ≠ hexDigit d := by decide
    rw [hexDigits, List.mem_append, List.mem_singleton, not_or]
    exact ⟨sep_notMem_hexDigits width _, hdigit _ (Nat.mod_lt n (by omega))⟩

theorem clean_uuidText (a b c d e : ℕ) : UnixPath.Clean (uuidText a b c d e) := by
  have hmem : '-' ∈ uuidText a b c d e := by
    simp [uuidText]
  refine ⟨List.ne_nil_of_mem hmem, ?_, ?_, ?_⟩
  · intro h
    rw [h] at hmem
    revert hmem
    decide
  · intro h
    rw [h] at hmem
    revert hmem
    decide
  · simp [uuidText, sep_notMem_hexDigits]

theorem clean_generateUuid (nanos seq : U64) (pid : U32) :
    UnixPath.Clean (generateUuid nanos seq pid) :=
  clean_uuidText _ _ _ _ _

/-- The bundle's directory is a clean name, whatever the app's name is. -/
theorem clean_bundleName (appName : List Char) :
    UnixPath.Clean (sanitizeComponent appName ++ ".app".toList) := by
  have hmem : 'p' ∈ sanitizeComponent appName ++ ".app".toList := by
    simp
  have hsep : '/' ∉ sanitizeComponent appName := by
    unfold sanitizeComponent
    simp only
    split_ifs
    · decide
    · intro h
      obtain ⟨c, -, hc⟩ := List.mem_map.1 h
      split_ifs at hc with hslash
      · cases hc
      · exact hslash (Or.inl hc)
  refine ⟨?_, ?_, ?_, ?_⟩
  · exact List.ne_nil_of_mem hmem
  · intro h
    rw [h] at hmem
    revert hmem
    decide
  · intro h
    rw [h] at hmem
    revert hmem
    decide
  · rw [List.mem_append, not_or]
    exact ⟨hsep, by decide⟩

/-! ## Staying inside -/

/-- `path` is `root` with clean names behind it. -/
def Inside (root path : List Component) : Prop :=
  ∃ names : List UnixPath, (∀ c ∈ names, UnixPath.Clean c) ∧
    path = root ++ names.map Component.normal

/-- Only paths inside `root` are other than before, and missing directories above it are made. -/
def Confined (root : List Component) (fs fs' : HostFs) : Prop :=
  ∀ path, Inside root path ∨ fs'.node path = fs.node path ∨
    (path <+: root ∧ fs.node path = none ∧ fs'.node path = some .dir)

instance (root : List Component) : IsPreorder HostFs (Confined root) where
  refl _ _ := Or.inr (Or.inl rfl)
  trans fs₁ fs₂ fs₃ h h' path := by
    rcases h path with h | h | ⟨hp, hnone, hdir⟩
    · exact Or.inl h
    · rcases h' path with h' | h' | ⟨hp, hnone, hdir⟩
      · exact Or.inl h'
      · exact Or.inr (Or.inl (h'.trans h))
      · exact Or.inr (Or.inr ⟨hp, h ▸ hnone, hdir⟩)
    · rcases h' path with h' | h' | ⟨-, hnone', -⟩
      · exact Or.inl h'
      · exact Or.inr (Or.inr ⟨hp, hnone, h'.trans hdir⟩)
      · rw [hdir] at hnone'
        cases hnone'

/-- What lies above a path inside is inside or above the root. -/
theorem inside_or_prefix {root path above : List Component} (h : Inside root path)
    (habove : above <+: path) : Inside root above ∨ above <+: root := by
  obtain ⟨names, hclean, rfl⟩ := h
  rw [List.prefix_iff_eq_take] at habove
  rcases Nat.le_total above.length root.length with hle | hle
  · rw [List.take_append_of_le_length hle] at habove
    exact Or.inr (habove ▸ List.take_prefix _ _)
  · rw [List.take_append, List.take_of_length_le hle, ← List.map_take] at habove
    exact Or.inl ⟨_, fun c hc => hclean c (List.mem_of_mem_take hc), habove⟩

/-- Making a directory changes nothing, or makes one that was missing. -/
theorem makeDir_state {kernel : Kernel} {blocked : IoErrorKind} {path : List Component}
    {fs fs' : HostFs} (h : (HostFs.makeDir kernel blocked path fs).state? = some fs') :
    fs' = fs ∨ fs.node path = none ∧ fs' = fs.set path .dir := by
  rw [HostFs.makeDir, Prog.get_bind] at h
  rcases hn : fs.node path with _ | _ | content <;> simp only [hn] at h
  · rcases Prog.state?_bind_eq_some h with ⟨u, fs₁, hask, h⟩ | ⟨e, hask⟩
    · obtain rfl := (HostFs.steps_ask _ _).ok hask
      exact Or.inr ⟨rfl, (Option.some.inj h).symm⟩
    · exact Or.inl ((HostFs.steps_ask _ _).err hask).symm
  · exact Or.inl (Option.some.inj h).symm
  · exact Or.inl (Option.some.inj h).symm

theorem confined_set {root path : List Component} (h : Inside root path) (fs : HostFs)
    (node : Node) : Confined root fs (fs.set path node) := by
  intro other
  by_cases hother : other = path
  · exact Or.inl (hother ▸ h)
  · exact Or.inr (Or.inl (if_neg hother))

theorem steps_makeDir {root path : List Component} (h : Inside root path ∨ path <+: root)
    (kernel : Kernel) (blocked : IoErrorKind) :
    (HostFs.makeDir kernel blocked path).Steps (Confined root) := by
  intro fs fs' hfs
  rcases makeDir_state hfs with rfl | ⟨hnone, rfl⟩
  · exact refl_of (Confined root) _
  rcases h with h | h
  · exact confined_set h fs .dir
  · intro other
    by_cases hother : other = path
    · subst hother
      exact Or.inr (Or.inr ⟨h, hnone, if_pos rfl⟩)
    · exact Or.inr (Or.inl (if_neg hother))

/-- The directories of a path inside are inside or above the root. -/
theorem inside_or_prefix_of_mem {root path above : List Component}
    (h : Inside root path ∨ path <+: root) (hmem : above ∈ path.dropLast.inits.tail) :
    Inside root above ∨ above <+: root := by
  have hle : above <+: path.dropLast := (List.mem_inits _ _).1 (List.mem_of_mem_tail hmem)
  have hle := hle.trans (List.dropLast_prefix _)
  exact h.elim (fun h => inside_or_prefix h hle) fun h => Or.inr (hle.trans h)

theorem steps_createDirAll {root : List Component} {path : UnixPath}
    (h : Inside root path.components ∨ path.components <+: root) (kernel : Kernel) :
    (HostFs.createDirAll kernel path).Steps (Confined root) := by
  unfold HostFs.createDirAll
  split_ifs
  · exact Prog.steps_fail _
  · exact Prog.steps_pure _
  · exact (Prog.Steps.forEach fun above hmem =>
      steps_makeDir (inside_or_prefix_of_mem h hmem) kernel .other).bind fun _ =>
        steps_makeDir h kernel .alreadyExists

/-- A write changes nothing but its own file. -/
theorem node_of_write {kernel : Kernel} {path : UnixPath} {data : List U8} {fs fs' : HostFs}
    (h : (HostFs.write kernel path data fs).state? = some fs') {other : List Component}
    (hother : other ≠ path.components) : fs'.node other = fs.node other := by
  rcases Prog.state?_bind_eq_some h with ⟨file, fs₁, hopen, h⟩ | ⟨e, hopen⟩
  · obtain ⟨access, creation, -, -, rfl, hfs₁⟩ := OpenOptions.openPath_eq_ok hopen
    have hnode₁ : fs₁.node other = fs.node other := by
      rcases hfs₁ with rfl | ⟨-, rfl⟩
      · rfl
      · exact if_neg hother
    rw [← hnode₁]
    rcases File.writeAll_apply kernel ⟨path.components, access.read, access.write, access.append, 0⟩
      data fs₁ with ⟨r, hr⟩ | ⟨-, pos, content, r, hr⟩
    · rw [Prog.bind_apply, hr] at h
      obtain rfl := (Prog.steps_ofResult r : Prog.Steps Eq _) _ _ h
      rfl
    · rw [Prog.bind_apply, hr] at h
      obtain rfl := (Prog.steps_ofResult r : Prog.Steps Eq _) _ _ h
      exact if_neg hother
  · rw [OpenOptions.openPath_failsClean _ _ _ _ _ _ hopen]

theorem steps_write {root : List Component} {path : UnixPath} (h : Inside root path.components)
    (kernel : Kernel) (data : List U8) :
    (HostFs.write kernel path data).Steps (Confined root) := by
  intro fs fs' hfs other
  by_cases hother : other = path.components
  · exact Or.inl (hother ▸ h)
  · exact Or.inr (Or.inl (node_of_write hfs hother))

theorem steps_createParent {root : List Component} {path : UnixPath}
    (h : Inside root path.components) (kernel : Kernel) :
    (HostFs.createParent kernel path).Steps (Confined root) := by
  unfold HostFs.createParent
  cases hparent : path.parent with
  | none => exact Prog.steps_pure _
  | some parent =>
    refine steps_createDirAll ?_ kernel
    rw [UnixPath.components_parent hparent]
    exact inside_or_prefix h (List.dropLast_prefix _)

/-- The path of an entry, if it is unpacked : what is behind the bundle's name. -/
theorem inside_out {destRoot : UnixPath} {rel : List Char} (hdest : destRoot ≠ [])
    (hsafe : ¬(rel.head? = some '/' ∨ ['.', '.'] ∈ rel.splitOn '/')) :
    (destRoot.join rel).components = destRoot.components ++ (UnixPath.names rel).map .normal ∧
      Inside destRoot.components (destRoot.join rel).components := by
  rw [not_or] at hsafe
  have habs : UnixPath.isAbsolute rel = false := by
    simpa [UnixPath.isAbsolute] using hsafe.1
  have hcomponents := UnixPath.components_push_names hdest habs hsafe.2
  exact ⟨hcomponents, UnixPath.names rel, UnixPath.clean_names hsafe.2, hcomponents⟩

/-- A directory exactly one name below the root. -/
def OneBelow (root : List Component) (destRoot : UnixPath) : Prop :=
  ∃ name, UnixPath.Clean name ∧ destRoot.components = root ++ [.normal name]

variable {root : List Component} {destRoot : UnixPath}

theorem OneBelow.ne_nil (h : OneBelow root destRoot) : destRoot ≠ [] := by
  rintro rfl
  obtain ⟨name, -, heq⟩ := h
  have hnil : UnixPath.components [] = [] := rfl
  rw [hnil] at heq
  simp at heq

theorem OneBelow.inside (h : OneBelow root destRoot) {path : List Component}
    (hpath : Inside destRoot.components path) : Inside root path := by
  obtain ⟨name, hname, heq⟩ := h
  obtain ⟨names, hnames, rfl⟩ := hpath
  refine ⟨name :: names, List.forall_mem_cons.2 ⟨hname, hnames⟩, ?_⟩
  rw [heq, List.append_assoc, List.map_cons, List.singleton_append]

/-- Unpacking an entry stays inside. -/
theorem steps_extractEntry (h : OneBelow root destRoot) (kernel : Kernel) (bundleDir : List Char)
    (entry : Except String ZipEntry) (i : ℕ) :
    (extractEntry kernel bundleDir destRoot entry i).Steps (Confined root) := by
  unfold extractEntry
  cases entry with
  | error e => exact Prog.steps_fail _
  | ok entry =>
    dsimp only
    split
    · exact Prog.steps_pure _
    · split_ifs with hempty hunsafe hslash
      · exact Prog.steps_pure _
      · exact Prog.steps_fail _
      · have hout := h.inside (inside_out h.ne_nil hunsafe).2
        exact (steps_createDirAll (Or.inl hout) kernel).mapErr _
      · have hout := h.inside (inside_out h.ne_nil hunsafe).2
        refine ((steps_createParent hout kernel).mapErr _).bind fun _ => ?_
        exact (Prog.steps_ofChecked _).bind fun _ => (Prog.steps_ofResult _).bind fun buf =>
          (steps_write hout kernel buf).mapErr _

theorem steps_extractApp (h : OneBelow root destRoot) (kernel : Kernel)
    (archive : EmuResult ZipArchive) (bundleDir : List Char) :
    (extractApp kernel archive bundleDir destRoot).Steps (Confined root) :=
  (Prog.steps_ofResult _).bind fun _ => Prog.Steps.forEach fun e _ =>
    steps_extractEntry h kernel bundleDir e.1 e.2

/-! ## What the kernel is asked -/

/-- The two kernels give the same answers about paths inside, and about directories above. -/
structure Kernel.AgreesInside (root : List Component) (kernel kernel' : Kernel) : Prop where
  mkdir : ∀ fs path, Inside root path ∨ path <+: root →
    kernel.refuses fs (.mkdir path) = kernel'.refuses fs (.mkdir path)
  openFile : ∀ fs path access creation, Inside root path.components →
    kernel.refuses fs (.openFile path access creation) =
      kernel'.refuses fs (.openFile path access creation)
  write : ∀ fs file data, Inside root file.path →
    kernel.writeFault fs file data = kernel'.writeFault fs file data

section Agrees

variable {kernel kernel' : Kernel}

theorem makeDir_congr (h : kernel.AgreesInside root kernel') {path : List Component}
    (hpath : Inside root path ∨ path <+: root) (blocked : IoErrorKind) :
    HostFs.makeDir kernel blocked path = HostFs.makeDir kernel' blocked path := by
  funext fs
  simp only [HostFs.makeDir, HostFs.ask, Prog.bind_apply, Prog.get, h.mkdir _ path hpath]

theorem createDirAll_congr (h : kernel.AgreesInside root kernel') {path : UnixPath}
    (hpath : Inside root path.components ∨ path.components <+: root) :
    HostFs.createDirAll kernel path = HostFs.createDirAll kernel' path := by
  have hloop := Prog.forEach_congr fun above hmem =>
    makeDir_congr h (inside_or_prefix_of_mem hpath hmem) .other
  simp only [HostFs.createDirAll, hloop, makeDir_congr h hpath .alreadyExists]

theorem createParent_congr (h : kernel.AgreesInside root kernel') {path : UnixPath}
    (hpath : Inside root path.components) :
    HostFs.createParent kernel path = HostFs.createParent kernel' path := by
  unfold HostFs.createParent
  cases hparent : path.parent with
  | none => rfl
  | some parent =>
    refine createDirAll_congr h ?_
    rw [UnixPath.components_parent hparent]
    exact inside_or_prefix hpath (List.dropLast_prefix _)

theorem write_congr (h : kernel.AgreesInside root kernel') {path : UnixPath}
    (hpath : Inside root path.components) (data : List U8) :
    HostFs.write kernel path data = HostFs.write kernel' path data := by
  funext fs
  refine Prog.bind_congr_at ?_ fun file fs₁ hopen => ?_
  · simp only [OpenOptions.openPath, HostFs.ask, h.openFile _ path _ _ hpath]
  · obtain ⟨access, creation, -, -, rfl, -⟩ := OpenOptions.openPath_eq_ok hopen
    have hfault := h.write fs₁ ⟨path.components, access.read, access.write, access.append, 0⟩ data
      hpath
    refine Prog.bind_congr_at ?_ fun _ _ _ => rfl
    unfold File.writeAll
    split_ifs
    · rfl
    · rfl
    · rw [Prog.get_bind, Prog.get_bind, hfault]

theorem unpackFile_congr (h : kernel.AgreesInside root kernel') {out : UnixPath}
    (hout : Inside root out.components) (entry : ZipEntry) :
    unpackFile kernel entry out = unpackFile kernel' entry out := by
  simp only [unpackFile, createParent_congr h hout, write_congr h hout]

theorem extractEntry_congr (h : kernel.AgreesInside root kernel') (hdest : OneBelow root destRoot)
    (bundleDir : List Char) (entry : Except String ZipEntry) (i : ℕ) :
    extractEntry kernel bundleDir destRoot entry i =
      extractEntry kernel' bundleDir destRoot entry i := by
  unfold extractEntry
  cases entry with
  | error e => rfl
  | ok entry =>
    dsimp only
    split
    · rfl
    · split_ifs with hempty hunsafe hslash
      · rfl
      · rfl
      · rw [createDirAll_congr h (Or.inl (hdest.inside (inside_out hdest.ne_nil hunsafe).2))]
      · exact unpackFile_congr h (hdest.inside (inside_out hdest.ne_nil hunsafe).2) entry

theorem extractApp_congr (h : kernel.AgreesInside root kernel') (hdest : OneBelow root destRoot)
    (archive : EmuResult ZipArchive) (bundleDir : List Char) :
    extractApp kernel archive bundleDir destRoot =
      extractApp kernel' archive bundleDir destRoot := by
  simp only [extractApp, extractEntry_congr h hdest]

end Agrees

/-! ## Every file is there -/

/-- The names of the path that an entry with bytes is for. -/
def ZipEntry.fileNames (bundleDir : List Char) (entry : ZipEntry) : Option (List UnixPath) :=
  match entry.name.dropPrefix? (bundleDir ++ ['/']) with
  | none => none
  | some rel =>
    if rel = [] ∨ entry.name.getLast? = some '/' then none else some (UnixPath.names rel)

/-- The file at `path` is left as it is. -/
def KeepsFile (path : List Component) (fs fs' : HostFs) : Prop :=
  ∀ content, fs.node path = some (.file content) → fs'.node path = some (.file content)

instance (path : List Component) : IsPreorder HostFs (KeepsFile path) where
  refl _ _ h := h
  trans _ _ _ h h' content hfs := h' content (h content hfs)

theorem keepsFile_createDirAll (kernel : Kernel) (dir : UnixPath) (path : List Component) :
    (HostFs.createDirAll kernel dir).Steps (KeepsFile path) := by
  have hmake : ∀ blocked above, (HostFs.makeDir kernel blocked above).Steps (KeepsFile path) := by
    intro blocked above fs fs' h content hcontent
    rcases makeDir_state h with rfl | ⟨hnone, rfl⟩
    · exact hcontent
    · have hne : path ≠ above := by
        rintro rfl
        rw [hnone] at hcontent
        cases hcontent
      rw [← hcontent]
      exact if_neg hne
  unfold HostFs.createDirAll
  split_ifs
  · exact Prog.steps_fail _
  · exact Prog.steps_pure _
  · exact (Prog.Steps.forEach fun above _ => hmake _ above).bind fun _ => hmake _ _

theorem keepsFile_createParent (kernel : Kernel) (out : UnixPath) (path : List Component) :
    (HostFs.createParent kernel out).Steps (KeepsFile path) := by
  unfold HostFs.createParent
  cases out.parent with
  | none => exact Prog.steps_pure _
  | some parent => exact keepsFile_createDirAll kernel parent path

/-- What `std::fs::write` opens is an empty file. -/
theorem open_of_write {kernel : Kernel} {path : UnixPath} {fs fs' : HostFs} {file : File}
    (h : OpenOptions.openPath kernel ⟨false, true, false, true, true, false⟩ path fs =
      .ok file fs') :
    file = ⟨path.components, false, true, false, 0⟩ ∧
      fs'.node path.components = some (.file []) := by
  unfold OpenOptions.openPath at h
  split_ifs at h
  · cases h
  obtain ⟨access, haccess, h⟩ := Prog.ofResult_bind_eq_ok.1 h
  obtain ⟨creation, hcreation, h⟩ := Prog.ofResult_bind_eq_ok.1 h
  obtain rfl := Except.ok.inj haccess
  obtain rfl := Except.ok.inj hcreation
  obtain ⟨u, fs₁, -, h⟩ := Prog.bind_eq_ok.1 h
  rw [OpenOptions.openNode, Prog.get_bind] at h
  rcases hn : fs₁.node path.components with _ | _ | content <;> simp only [hn] at h
  · split_ifs at h
    · obtain ⟨rfl, rfl⟩ := Outcome.ok.inj h
      exact ⟨rfl, if_pos rfl⟩
    · cases h
  · cases h
  · obtain ⟨rfl, rfl⟩ := Outcome.ok.inj h
    exact ⟨rfl, if_pos rfl⟩

/-- A successful write leaves its bytes. -/
theorem node_of_write_ok {kernel : Kernel} {path : UnixPath} {data : List U8} {fs fs' : HostFs}
    (h : HostFs.write kernel path data fs = .ok () fs') :
    fs'.node path.components = some (.file data) := by
  obtain ⟨file, fs₁, hopen, h⟩ := Prog.bind_eq_ok.1 h
  obtain ⟨rfl, hnode⟩ := open_of_write hopen
  obtain ⟨⟨file', result⟩, fs₂, hwrite, h⟩ := Prog.bind_eq_ok.1 h
  obtain ⟨rfl, rfl⟩ := Prog.ofResult_eq_ok.1 h
  unfold File.writeAll at hwrite
  cases data with
  | nil =>
    obtain ⟨-, rfl⟩ := Outcome.ok.inj hwrite
    exact hnode
  | cons b data =>
    rw [if_neg (by simp), if_neg (by simp), Prog.get_bind] at hwrite
    cases hfault : kernel.writeFault fs₁ ⟨path.components, false, true, false, 0⟩ (b :: data) with
    | some fault =>
      simp only [hfault] at hwrite
      obtain ⟨file₁, fs₃, -, hpure⟩ := Prog.bind_eq_ok.1 hwrite
      cases (Prod.mk.inj (Outcome.ok.inj hpure).1).2
    | none =>
      simp only [hfault] at hwrite
      obtain ⟨file₁, fs₃, hput, hpure⟩ := Prog.bind_eq_ok.1 hwrite
      obtain ⟨-, rfl⟩ := Outcome.ok.inj hpure
      obtain ⟨-, rfl⟩ := Outcome.ok.inj hput
      have hsplice : File.splice (fs₁.content path.components) 0 (b :: data) = b :: data := by
        simp [File.splice, HostFs.content, hnode]
      change (if path.components = path.components then
        some (Node.file (File.splice (fs₁.content path.components) 0 (b :: data))) else _) = _
      rw [if_pos rfl, hsplice]

theorem keepsFile_write {out : UnixPath} {path : List Component} (kernel : Kernel)
    (data : List U8) (hne : path ≠ out.components) :
    (HostFs.write kernel out data).Steps (KeepsFile path) := by
  intro fs fs' h content hcontent
  rw [node_of_write h hne, hcontent]

/-- The entries that are unpacked as files. -/
theorem fileNames_eq_some {entry : ZipEntry} {bundleDir : List Char} {names : List UnixPath} :
    entry.fileNames bundleDir = some names ↔
      ∃ rel, entry.name.dropPrefix? (bundleDir ++ ['/']) = some rel ∧ rel ≠ [] ∧
        entry.name.getLast? ≠ some '/' ∧ UnixPath.names rel = names := by
  unfold ZipEntry.fileNames
  cases entry.name.dropPrefix? (bundleDir ++ ['/']) with
  | none => simp
  | some rel =>
    by_cases h : rel = [] ∨ entry.name.getLast? = some '/'
    · simp only [if_pos h]
      constructor
      · intro hnone
        cases hnone
      · rintro ⟨rel', hrel, hne, hlast, -⟩
        obtain rfl := Option.some.inj hrel
        exact absurd h (not_or.2 ⟨hne, hlast⟩)
    · simp only [if_neg h, Option.some.injEq]
      rw [not_or] at h
      constructor
      · exact fun hnames => ⟨rel, rfl, h.1, h.2, hnames⟩
      · rintro ⟨rel', rfl, -, -, hnames⟩
        exact hnames

/-- An entry for another path leaves a file as it is. -/
theorem keepsFile_extractEntry (hdest : destRoot ≠ []) {kernel : Kernel} {bundleDir : List Char}
    {entry : Except String ZipEntry} {i : ℕ} {names : List UnixPath}
    (hother : ∀ e, entry = .ok e → e.fileNames bundleDir ≠ some names) :
    (extractEntry kernel bundleDir destRoot entry i).Steps
      (KeepsFile (destRoot.components ++ names.map .normal)) := by
  unfold extractEntry
  cases entry with
  | error e => exact Prog.steps_fail _
  | ok entry =>
    dsimp only
    cases hrel : entry.name.dropPrefix? (bundleDir ++ ['/']) with
    | none => exact Prog.steps_pure _
    | some rel =>
      dsimp only
      split_ifs with hempty hunsafe hslash
      · exact Prog.steps_pure _
      · exact Prog.steps_fail _
      · exact (keepsFile_createDirAll kernel _ _).mapErr _
      · -- the file that is written has another path
        have hne : destRoot.components ++ names.map .normal ≠ (destRoot.join rel).components := by
          rw [(inside_out hdest hunsafe).1]
          intro heq
          have hmap := List.map_injective_iff.2 (fun _ _ => Component.normal.inj)
            (List.append_cancel_left heq)
          exact hother entry rfl (fileNames_eq_some.2 ⟨rel, hrel, hempty, hslash, hmap.symm⟩)
        exact ((keepsFile_createParent kernel _ _).mapErr _).bind fun _ =>
          (Prog.steps_ofChecked _).bind fun _ => (Prog.steps_ofResult _).bind fun buf =>
            (keepsFile_write kernel buf hne).mapErr _

/-- An entry that is unpacked has its bytes at its path. -/
theorem node_of_extractEntry (hdest : destRoot ≠ []) {kernel : Kernel} {bundleDir : List Char}
    {entry : ZipEntry} {i : ℕ} {names : List UnixPath} {fs fs' : HostFs}
    (hnames : entry.fileNames bundleDir = some names)
    (h : extractEntry kernel bundleDir destRoot (.ok entry) i fs = .ok () fs') :
    ∃ content, entry.content = .ok content ∧
      fs'.node (destRoot.components ++ names.map .normal) = some (.file content) := by
  obtain ⟨rel, hrel, hempty, hslash, rfl⟩ := fileNames_eq_some.1 hnames
  unfold extractEntry at h
  simp only [hrel, if_neg hempty] at h
  split_ifs at h with hunsafe
  · cases h
  rw [← (inside_out hdest hunsafe).1]
  obtain ⟨-, fs₁, -, h⟩ := Prog.bind_eq_ok.1 h
  obtain ⟨-, -, h⟩ := Prog.ofChecked_bind_eq_ok.1 h
  obtain ⟨content, hcontent, h⟩ := Prog.ofResult_bind_eq_ok.1 h
  refine ⟨content, ?_, node_of_write_ok (Prog.mapErr_eq_ok.1 h)⟩
  cases hentry : entry.content with
  | error e =>
    rw [hentry] at hcontent
    cases hcontent
  | ok bytes =>
    rw [hentry] at hcontent
    exact congrArg _ (Except.ok.inj hcontent)

theorem exists_last {α : Type} {p : α → Prop} : ∀ {l : List α}, (∃ a ∈ l, p a) →
    ∃ before a after, l = before ++ a :: after ∧ p a ∧ ∀ b ∈ after, ¬p b
  | [], ⟨a, ha, _⟩ => absurd ha List.not_mem_nil
  | a :: l, h => by
    by_cases hl : ∃ b ∈ l, p b
    · obtain ⟨before, b, after, rfl, hb, hafter⟩ := exists_last hl
      exact ⟨a :: before, b, after, rfl, hb, hafter⟩
    · obtain ⟨b, hb, hpb⟩ := h
      rcases List.mem_cons.1 hb with rfl | hb
      · exact ⟨[], b, l, rfl, hpb, fun c hc hpc => hl ⟨c, hc, hpc⟩⟩
      · exact absurd ⟨b, hb, hpb⟩ hl

/-- After the loop every file has the bytes of the last entry for its path. -/
theorem node_of_extractApp (hdest : destRoot ≠ []) {kernel : Kernel} {bundleDir : List Char}
    {archive : EmuResult ZipArchive} {fs fs' : HostFs}
    (h : extractApp kernel archive bundleDir destRoot fs = .ok () fs') :
    ∃ entries, archive = .ok entries ∧
      ∀ {before after : ZipArchive} {entry : ZipEntry} {names : List UnixPath},
        entries = before ++ .ok entry :: after → entry.fileNames bundleDir = some names →
        (∀ e, .ok e ∈ after → e.fileNames bundleDir ≠ some names) →
        ∃ content, entry.content = .ok content ∧
          fs'.node (destRoot.components ++ names.map .normal) = some (.file content) := by
  obtain ⟨entries, harchive, h⟩ := Prog.ofResult_bind_eq_ok.1 h
  refine ⟨entries, harchive, ?_⟩
  rintro before after entry names rfl hnames hlast
  rw [List.zipIdx_append, List.zipIdx_cons] at h
  obtain ⟨fs₁, -, h⟩ := (Prog.forEach_append_eq_ok _).1 h
  rw [Prog.forEach_cons] at h
  obtain ⟨u, fs₂, hentry, h⟩ := Prog.bind_eq_ok.1 h
  obtain ⟨content, hcontent, hnode⟩ := node_of_extractEntry hdest hnames hentry
  have hkeep : (Prog.forEach (after.zipIdx (0 + before.length + 1)) fun e =>
      extractEntry kernel bundleDir destRoot e.1 e.2).Steps
        (KeepsFile (destRoot.components ++ names.map .normal)) := by
    refine Prog.Steps.forEach fun e he => keepsFile_extractEntry hdest fun e' he' => ?_
    refine hlast e' ?_
    rw [← he']
    exact List.fst_mem_of_mem_zipIdx he
  exact ⟨content, hcontent, hkeep.ok h content hnode⟩

/-! ## The whole installation -/

/-- `containers_root/Applications/<uuid>`. -/
def containerRoot (containersRoot : UnixPath) (uuid : List Char) : List Component :=
  containersRoot.components ++ [.normal "Applications".toList, .normal uuid]

section Container

variable {containersRoot systemRoot : UnixPath} {appName uuid : List Char}

theorem components_hostRoot (huuid : UnixPath.Clean uuid) :
    (Sandbox.ofContainer containersRoot systemRoot appName uuid).hostRoot.components =
      containerRoot containersRoot uuid := by
  have happs : UnixPath.Clean "Applications".toList := by decide
  change ((containersRoot.push _).push _).components = _
  rw [UnixPath.components_push huuid, UnixPath.components_push happs, List.append_assoc]
  rfl

theorem oneBelow_bundleDir (huuid : UnixPath.Clean uuid) :
    OneBelow (containerRoot containersRoot uuid)
      (Sandbox.ofContainer containersRoot systemRoot appName uuid).layout.bundleDir := by
  have hroot := @components_hostRoot containersRoot systemRoot appName uuid huuid
  refine ⟨_, clean_bundleName appName, ?_⟩
  rw [← hroot]
  exact UnixPath.components_push (clean_bundleName appName)

/-- A clean name in a directory inside is inside. -/
theorem inside_push {root : List Component} {path name : UnixPath}
    (h : Inside root path.components) (hname : UnixPath.Clean name) :
    Inside root (path.push name).components := by
  obtain ⟨names, hnames, heq⟩ := h
  refine ⟨names ++ [name], fun c hc => ?_, ?_⟩
  · rcases List.mem_append.1 hc with hc | hc
    · exact hnames c hc
    · rw [List.mem_singleton.1 hc]
      exact hname
  · rw [UnixPath.components_push hname, heq, List.append_assoc, List.map_append]
    rfl

/-- The directories that are made for a container. -/
theorem inside_layout (huuid : UnixPath.Clean uuid) :
    let layout := (Sandbox.ofContainer containersRoot systemRoot appName uuid).layout
    ∀ dir ∈ [layout.bundleDir, layout.documents, layout.caches, layout.preferences, layout.tmp],
      Inside (containerRoot containersRoot uuid) dir.components := by
  intro layout dir hdir
  have hroot : Inside (containerRoot containersRoot uuid)
      ((containersRoot.join "Applications".toList).join uuid).components :=
    ⟨[], by simp, by rw [List.map_nil, List.append_nil, ← @components_hostRoot containersRoot
      systemRoot appName uuid huuid]; rfl⟩
  have hdocuments : UnixPath.Clean "Documents".toList := by decide
  have hlibrary : UnixPath.Clean "Library".toList := by decide
  have hcaches : UnixPath.Clean "Caches".toList := by decide
  have hpreferences : UnixPath.Clean "Preferences".toList := by decide
  have htmp : UnixPath.Clean "tmp".toList := by decide
  simp only [layout, Sandbox.ofContainer, Sandbox.containerLayout, List.mem_cons,
    List.not_mem_nil, or_false] at hdir
  rcases hdir with rfl | rfl | rfl | rfl | rfl
  · exact inside_push hroot (clean_bundleName appName)
  · exact inside_push hroot hdocuments
  · exact inside_push (inside_push hroot hlibrary) hcaches
  · exact inside_push (inside_push hroot hlibrary) hpreferences
  · exact inside_push hroot htmp

theorem steps_prepare (huuid : UnixPath.Clean uuid) (kernel : Kernel) :
    (Sandbox.prepare kernel containersRoot systemRoot appName uuid).Steps
      (Confined (containerRoot containersRoot uuid)) :=
  (Prog.Steps.forEach fun dir hdir =>
    (steps_createDirAll (Or.inl (inside_layout huuid dir hdir)) kernel).mapErr _).bind fun _ =>
      Prog.steps_pure _

theorem prepare_congr (huuid : UnixPath.Clean uuid) {kernel kernel' : Kernel}
    (h : kernel.AgreesInside (containerRoot containersRoot uuid) kernel') :
    Sandbox.prepare kernel containersRoot systemRoot appName uuid =
      Sandbox.prepare kernel' containersRoot systemRoot appName uuid := by
  have hloop := Prog.forEach_congr fun dir hdir => congrArg (Prog.mapErr EmuError.io)
    (createDirAll_congr h (Or.inl (@inside_layout containersRoot systemRoot appName uuid huuid dir
      hdir)))
  simp only [Sandbox.prepare]
  rw [hloop]

end Container

/-- Installing an app stays inside its container, whatever the app's name, the archive and the
bundle's name in it : nothing but paths of the container is created or written, and missing
directories above it; the kernel is asked about no others. If it succeeds, every file of the
bundle has the bytes of the last entry for its path. -/
theorem install_contained (kernel : Kernel) (containersRoot systemRoot : UnixPath)
    (appName : List Char) (nanos seq : U64) (pid : U32) (archive : EmuResult ZipArchive)
    (bundleDir : List Char) :
    let uuid := generateUuid nanos seq pid
    let root := containerRoot containersRoot uuid
    let bundle := (Sandbox.ofContainer containersRoot systemRoot appName uuid).layout.bundleDir
    let run := fun kernel => install kernel containersRoot systemRoot appName uuid archive bundleDir
    OneBelow root bundle ∧ (run kernel).Steps (Confined root) ∧
      (∀ kernel' : Kernel, kernel.AgreesInside root kernel' → run kernel = run kernel') ∧
      ∀ fs fs' sandbox, run kernel fs = .ok sandbox fs' → ∃ entries, archive = .ok entries ∧
        ∀ entry names, .ok entry ∈ entries → entry.fileNames bundleDir = some names →
          ∃ before last after content, entries = before ++ .ok last :: after ∧
            last.fileNames bundleDir = some names ∧
            (∀ e, .ok e ∈ after → e.fileNames bundleDir ≠ some names) ∧
            last.content = .ok content ∧
            fs'.node (bundle.components ++ names.map .normal) = some (.file content) := by
  intro uuid root bundle run
  have huuid : UnixPath.Clean uuid := clean_generateUuid nanos seq pid
  have hbundle : OneBelow root bundle := oneBelow_bundleDir huuid
  refine ⟨hbundle, ?_, ?_, ?_⟩
  · -- the sandbox that is unpacked into is the one that was prepared
    intro fs fs' h
    rcases Prog.state?_bind_eq_some h with ⟨sandbox, fs₁, hprepare, h⟩ | ⟨e, hprepare⟩
    · obtain rfl := Sandbox.eq_of_prepare hprepare
      have hextract := (steps_extractApp hbundle kernel archive bundleDir).bind fun _ =>
        Prog.steps_pure (Sandbox.ofContainer containersRoot systemRoot appName uuid)
      exact trans_of (Confined root) ((steps_prepare huuid kernel).ok hprepare)
        (hextract fs₁ fs' h)
    · exact (steps_prepare huuid kernel).err hprepare
  · intro kernel' hagrees
    funext fs
    refine Prog.bind_congr_at (congrFun (prepare_congr huuid hagrees) fs) fun sandbox fs₁ h => ?_
    obtain rfl := Sandbox.eq_of_prepare h
    rw [extractApp_congr hagrees hbundle]
  · intro fs fs' sandbox h
    obtain ⟨sandbox', fs₁, hprepare, h⟩ := Prog.bind_eq_ok.1 h
    obtain rfl := Sandbox.eq_of_prepare hprepare
    obtain ⟨u, fs₂, hextract, h⟩ := Prog.bind_eq_ok.1 h
    obtain ⟨-, rfl⟩ := Outcome.ok.inj h
    obtain ⟨entries, harchive, hnode⟩ := node_of_extractApp hbundle.ne_nil hextract
    refine ⟨entries, harchive, fun entry names hmem hnames => ?_⟩
    obtain ⟨before, e, after, hsplit, ⟨last, rfl, hlast⟩, hafter⟩ :=
      exists_last (p := fun e => ∃ entry : ZipEntry, e = .ok entry ∧
        entry.fileNames bundleDir = some names) ⟨_, hmem, entry, rfl, hnames⟩
    have hafter' : ∀ e, .ok e ∈ after → e.fileNames bundleDir ≠ some names :=
      fun e he heq => hafter _ he ⟨e, rfl, heq⟩
    obtain ⟨content, hcontent, hfile⟩ := hnode hsplit hlast hafter'
    exact ⟨before, last, after, content, hsplit, hlast, hafter', hcontent, hfile⟩

/-- Two entries for one file. -/
def twiceArchive : ZipArchive :=
  [.ok ⟨"Payload/A.app/x".toList, 1, .ok [1]⟩, .ok ⟨"Payload/A.app/.//x".toList, 1, .ok [2]⟩]

-- an app called `..`, in a tree with nothing in it
example : ((install .willing "/d".toList "/s".toList "..".toList "U".toList (.ok twiceArchive)
    "Payload/A.app".toList ⟨fun _ => none⟩).okState?.map fun fs =>
      fs.node (containerRoot "/d".toList "U".toList ++
        [.normal "App.app".toList, .normal "x".toList])) = some (some (.file [2])) := by
  decide +kernel

end IosEmu
