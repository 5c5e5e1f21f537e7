import IosEmu.BundleWrites
import IosEmu.Discovery

/-!
# Launching an app

`launchInner` inspects the archive, installs the bundle in a container of its own and reads the
executable. Unpacking refuses the names of entries that are absolute or go up. The name of the
executable comes from `Info.plist`, and is joined to the bundle's directory as it is.

So the file that is read is the one that the entry of the executable is unpacked to, in the
bundle's directory, exactly if the name passes the test for entries (`executable_extracted_iff`).
An absolute name, or one with `..`, leads out of the bundle.
-/

open SysLib

namespace IosEmu

/-! ## The launch -/

/-- `std::fs::read`. -/
def HostFs.readFile (kernel : Kernel) (path : UnixPath) : FsM (List U8) := do
  let file ← OpenOptions.openPath kernel ⟨true, false, false, false, false, false⟩ path
  let fs ← Prog.get
  HostFs.ask kernel (.read file (fs.content file.path).length)
  match fs.node file.path with
  | some (.file content) => return content
  | _ => Prog.fail .other

/-- Why a launch fails, before the message is written. -/
inductive LaunchError
  | stage (e : EmuError)
  | readExecutable (path : UnixPath) (e : IoErrorKind)

/-- The path of the executable on the host. -/
def exeHost (sandbox : Sandbox) (bundle : IpaBundle) : UnixPath :=
  sandbox.layout.bundleDir.join bundle.metadata.executable

/-- A launch up to the bytes of the executable. The archive is opened twice, by `inspectIpa` and
by `extractApp`. -/
def launchInner (kernel : Kernel) (p : Profile) (ipaPath : OsPath)
    (containersRoot systemRoot : UnixPath) (nanos seq : U64) (pid : U32) (opened : EmuResult OpenArchive)
    (archive : EmuResult ZipArchive) : Prog LaunchError Panic HostFs (Sandbox × List U8) := do
  let bundle ← Prog.mapErr .stage (Prog.within () (inspectIpa p ipaPath opened))
  let uuid := generateUuid nanos seq pid
  let sandbox ← Prog.mapErr .stage
    (install kernel containersRoot systemRoot bundle.metadata.name uuid archive bundle.bundleDir)
  let bytes ← Prog.mapErr (.readExecutable (exeHost sandbox bundle))
    (HostFs.readFile kernel (exeHost sandbox bundle))
  return (sandbox, bytes)

/-- The test of `extractApp` for the name of an entry in the bundle. -/
def SafeName (name : List Char) : Prop :=
  name ≠ [] ∧ ¬(name.head? = some '/' ∨ ['.', '.'] ∈ name.splitOn '/')

instance (name : List Char) : Decidable (SafeName name) :=
  inferInstanceAs (Decidable (_ ∧ _))

/-- Where the entry is unpacked to, if it is. -/
def extractionTarget (bundleDir : List Char) (destRoot : UnixPath) (entryName : List Char) :
    Option UnixPath :=
  match entryName.dropPrefix? (bundleDir ++ ['/']) with
  | none => none
  | some rel => if SafeName rel then some (destRoot.join rel) else none

/-! ## The name of the executable -/

/-- The executable's name : what `Info.plist` says, or the bundle's name. -/
def executableName (plist : PlistValue) (bundleDir : List Char) : List Char :=
  let declared := stringOf plist "CFBundleExecutable"
  if declared = [] then defaultExecutableName bundleDir else declared

/-- The archive has `plist` as the `Info.plist` of the bundle. -/
def HasInfo (p : Profile) (archive : OpenArchive) (bundleDir : List Char) (plist : PlistValue) :
    Prop :=
  ∃ entry bytes, archive.byName (bundleDir ++ "/Info.plist".toList) = .ok entry ∧
    entry.content = .ok bytes ∧ Plist.parse p bytes () = .ok plist ()

theorem readEntry_eq_ok {archive : OpenArchive} {name : List Char} {buf : List U8}
    (h : readEntry archive name () = .ok (some buf) ()) :
    ∃ entry, archive.byName name = .ok entry ∧ entry.content = .ok buf := by
  rw [readEntry] at h
  rcases hentry : archive.byName name with (_ | e) | entry
  · simp [hentry] at h
  · simp [hentry] at h
  · simp only [hentry] at h
    obtain ⟨-, -, h⟩ := Prog.ofChecked_bind_eq_ok.1 h
    obtain ⟨bytes, hbytes, h⟩ := Prog.ofResult_bind_eq_ok.1 h
    obtain rfl : bytes = buf := by simpa using h
    exact ⟨entry, rfl, SyscallCtx.mapError_eq_ok.1 hbytes⟩

/-- What `inspectIpa` says of the executable. -/
theorem inspectIpa_eq_ok {p : Profile} {ipaPath : OsPath} {opened : EmuResult OpenArchive}
    {bundle : IpaBundle} (h : inspectIpa p ipaPath opened () = .ok bundle ()) :
    ∃ archive plist, opened = .ok archive ∧ HasInfo p archive bundle.bundleDir plist ∧
      bundle.metadata.executable = executableName plist bundle.bundleDir ∧
      bundle.executablePath = bundle.bundleDir ++ '/' :: bundle.metadata.executable := by
  obtain ⟨archive, harchive, h⟩ := Prog.ofResult_bind_eq_ok.1 h
  obtain ⟨bundleDir, -, h⟩ := Prog.ofResult_bind_eq_ok.1 h
  obtain ⟨info, ⟨⟩, hinfo, h⟩ := Prog.bind_eq_ok.1 h
  obtain ⟨bytes, hbytes, h⟩ := Prog.ofResult_bind_eq_ok.1 h
  obtain ⟨plist, ⟨⟩, hplist, h⟩ := Prog.bind_eq_ok.1 h
  obtain ⟨icon, ⟨⟩, -, h⟩ := Prog.bind_eq_ok.1 h
  obtain ⟨rfl, -⟩ := Outcome.ok.inj h
  obtain rfl : info = some bytes := by
    rcases info with _ | b
    · cases hbytes
    · exact congrArg some (Except.ok.inj hbytes)
  obtain ⟨entry, hentry, hcontent⟩ := readEntry_eq_ok hinfo
  exact ⟨archive, plist, harchive, ⟨entry, bytes, hentry, hcontent, Prog.mapErr_eq_ok.1 hplist⟩,
    rfl, rfl⟩

/-! ## Where the executable is read from -/

theorem extractionTarget_append (bundleDir rel : List Char) (destRoot : UnixPath) :
    extractionTarget bundleDir destRoot (bundleDir ++ '/' :: rel) =
      if SafeName rel then some (destRoot.join rel) else none := by
  have hdrop : (bundleDir ++ '/' :: rel).dropPrefix? (bundleDir ++ ['/']) = some rel := by
    rw [List.dropPrefix?_eq_some_iff]
    exact ⟨bundleDir ++ ['/'], by simp, by simp⟩
  rw [extractionTarget, hdrop]

/-- The host path is in the directory, by the text of both. -/
def LiesWithin (base host : UnixPath) : Prop :=
  host.isAbsolute = base.isAbsolute ∧ lexicalPath base <+: lexicalPath host

/-- The text of the bundle's directory is not empty and does not end in a separator. -/
theorem Sandbox.BundleBelow.bundleDir_ends {sb : Sandbox} {name : UnixPath}
    (h : sb.BundleBelow name) :
    sb.layout.bundleDir ≠ [] ∧ sb.layout.bundleDir.getLast? ≠ some '/' := by
  have hlast : ∀ p : UnixPath, (p ++ name).getLast? ≠ some '/' := by
    intro p hp
    rw [List.getLast?_append_of_ne_nil _ h.clean.ne_nil] at hp
    exact h.clean.sep_notMem (List.mem_of_getLast? hp)
  rw [h.bundle, UnixPath.push, h.clean.isAbsolute_eq]
  simp only [Bool.false_eq_true, if_false]
  split_ifs
  · exact ⟨by simp [h.clean.ne_nil], hlast _⟩
  · refine ⟨by simp, ?_⟩
    have hend := hlast (sb.hostRoot ++ ['/'])
    rwa [List.append_assoc] at hend

/-- A relative name is joined to the bundle's directory with one separator. -/
theorem Sandbox.BundleBelow.join_eq {sb : Sandbox} {name rel : UnixPath} (h : sb.BundleBelow name)
    (hrel : rel.isAbsolute = false) :
    sb.layout.bundleDir.join rel = sb.layout.bundleDir ++ '/' :: rel := by
  obtain ⟨hne, hlast⟩ := h.bundleDir_ends
  rw [UnixPath.join, UnixPath.push, hrel, if_neg Bool.false_ne_true,
    if_neg (not_or.2 ⟨mt List.getLast?_eq_none_iff.1 hne, hlast⟩)]

/-- A name that passes the test stays in the bundle's directory. -/
theorem liesWithin_of_safeName {sb : Sandbox} {name : UnixPath} (hbundle : sb.BundleBelow name)
    {rel : List Char} (h : SafeName rel) :
    LiesWithin sb.layout.bundleDir (sb.layout.bundleDir.join rel) := by
  obtain ⟨hnil, hunsafe⟩ := h
  obtain ⟨habs, hup⟩ := not_or.1 hunsafe
  have hrel : UnixPath.isAbsolute rel = false := by simpa [UnixPath.isAbsolute] using habs
  have hstays : Piece.Stays 0 (pathPieces rel) := by
    refine Piece.stays_of_up_notMem 0 fun hmem => ?_
    obtain ⟨text, htext, hpiece⟩ := List.mem_map.1 hmem
    rw [piece_eq_up_iff.1 hpiece] at htext
    exact hup htext
  have hnames : lexicalPath (sb.layout.bundleDir ++ '/' :: rel) =
      lexicalPath sb.layout.bundleDir ++ lexicalPath rel := lexical_append_of_stays hstays
  rw [hbundle.join_eq hrel]
  constructor
  · obtain ⟨x, l, hx⟩ := List.exists_cons_of_ne_nil hbundle.bundleDir_ends.1
    rw [hx]
    rfl
  · rw [hnames]
    exact List.prefix_append _ _

/-- The executable is read from the bundle's directory, from where its entry is unpacked to. -/
structure ReadsExtracted (sandbox : Sandbox) (bundle : IpaBundle) : Prop where
  within : LiesWithin sandbox.layout.bundleDir (exeHost sandbox bundle)
  target : extractionTarget bundle.bundleDir sandbox.layout.bundleDir bundle.executablePath =
    some (exeHost sandbox bundle)

theorem readsExtracted_iff {sb : Sandbox} {name : UnixPath} (hbundle : sb.BundleBelow name)
    {bundle : IpaBundle}
    (hpath : bundle.executablePath = bundle.bundleDir ++ '/' :: bundle.metadata.executable) :
    ReadsExtracted sb bundle ↔ SafeName bundle.metadata.executable := by
  have htarget := extractionTarget_append bundle.bundleDir bundle.metadata.executable
    sb.layout.bundleDir
  rw [← hpath] at htarget
  constructor
  · intro h
    by_contra hno
    rw [if_neg hno] at htarget
    exact Option.some_ne_none _ (h.target.symm.trans htarget)
  · intro h
    rw [if_pos h] at htarget
    exact ⟨liesWithin_of_safeName hbundle h, htarget⟩

theorem eq_of_install {kernel : Kernel} {containersRoot systemRoot : UnixPath}
    {appName uuid bundleDir : List Char} {archive : EmuResult ZipArchive} {fs fs' : HostFs}
    {sb : Sandbox}
    (h : install kernel containersRoot systemRoot appName uuid archive bundleDir fs = .ok sb fs') :
    sb = Sandbox.ofContainer containersRoot systemRoot appName uuid := by
  obtain ⟨sandbox, fs₁, hprepare, h⟩ := Prog.bind_eq_ok.1 h
  obtain ⟨u, fs₂, -, h⟩ := Prog.bind_eq_ok.1 h
  obtain ⟨rfl, -⟩ := Outcome.ok.inj h
  exact Sandbox.eq_of_prepare hprepare

section Launches

variable {kernel : Kernel} {p : Profile} {ipaPath : OsPath} {containersRoot systemRoot : UnixPath}
  {nanos seq : U64} {pid : U32} {opened : EmuResult OpenArchive} {archive : EmuResult ZipArchive}
  {fs fs' : HostFs} {bundle : IpaBundle} {sb : Sandbox}

/-- A launch that gets so far has read the executable at `exeHost`. -/
theorem launchInner_eq_ok (hinspect : inspectIpa p ipaPath opened () = .ok bundle ())
    {bytes : List U8}
    (h : launchInner kernel p ipaPath containersRoot systemRoot nanos seq pid opened archive fs =
      .ok (sb, bytes) fs') :
    sb = Sandbox.ofContainer containersRoot systemRoot bundle.metadata.name
      (generateUuid nanos seq pid) ∧
    ∃ fs₁, HostFs.readFile kernel (exeHost sb bundle) fs₁ = .ok bytes fs' := by
  obtain ⟨bundle', fs₀, hwithin, hrest⟩ := Prog.bind_eq_ok.1 h
  obtain ⟨⟨⟨⟩, hinspect'⟩, -⟩ := Prog.within_eq_ok.1 (Prog.mapErr_eq_ok.1 hwithin)
  obtain ⟨rfl, -⟩ := Outcome.ok.inj (hinspect.symm.trans hinspect')
  obtain ⟨sandbox, fs₁, hinstall, hrest⟩ := Prog.bind_eq_ok.1 hrest
  obtain ⟨bytes', fs₂, hread, hrest⟩ := Prog.bind_eq_ok.1 hrest
  obtain ⟨hpair, rfl⟩ := Outcome.ok.inj hrest
  obtain ⟨rfl, rfl⟩ := Prod.mk.inj hpair
  exact ⟨eq_of_install (Prog.mapErr_eq_ok.1 hinstall), fs₁, Prog.mapErr_eq_ok.1 hread⟩

/-- A launch that could not read the executable has asked for it at `exeHost`. -/
theorem launchInner_eq_readExecutable (hinspect : inspectIpa p ipaPath opened () = .ok bundle ())
    {path : UnixPath} {e : IoErrorKind}
    (h : launchInner kernel p ipaPath containersRoot systemRoot nanos seq pid opened archive fs =
      .err (.readExecutable path e) fs') :
    path = exeHost (Sandbox.ofContainer containersRoot systemRoot bundle.metadata.name
      (generateUuid nanos seq pid)) bundle ∧
    ∃ fs₁, HostFs.readFile kernel path fs₁ = .err e fs' := by
  rcases Prog.bind_eq_err.1 h with hwithin | ⟨bundle', fs₀, hwithin, hrest⟩
  · obtain ⟨e', -, hstage⟩ := Prog.mapErr_eq_err.1 hwithin
    cases hstage
  obtain ⟨⟨⟨⟩, hinspect'⟩, -⟩ := Prog.within_eq_ok.1 (Prog.mapErr_eq_ok.1 hwithin)
  obtain ⟨rfl, -⟩ := Outcome.ok.inj (hinspect.symm.trans hinspect')
  rcases Prog.bind_eq_err.1 hrest with hinstall | ⟨sandbox, fs₁, hinstall, hrest⟩
  · obtain ⟨e', -, hstage⟩ := Prog.mapErr_eq_err.1 hinstall
    cases hstage
  obtain rfl := eq_of_install (Prog.mapErr_eq_ok.1 hinstall)
  rcases Prog.bind_eq_err.1 hrest with hfail | ⟨bytes, fs₂, -, hrest⟩
  · obtain ⟨e', hread, herr⟩ := Prog.mapErr_eq_err.1 hfail
    obtain ⟨rfl, rfl⟩ := LaunchError.readExecutable.inj herr
    exact ⟨rfl, fs₁, hread⟩
  · cases hrest

end Launches

/-- For every archive : the executable is read from the bundle's directory, from the target of
the entry that `inspectIpa` reports, exactly if the name that `Info.plist` gives it passes the
test for entries. A launch reads the executable from this path, if it gets so far. -/
theorem executable_extracted_iff {p : Profile} {ipaPath : OsPath}
    {opened : EmuResult OpenArchive} {bundle : IpaBundle}
    (h : inspectIpa p ipaPath opened () = .ok bundle ()) :
    (∃ archive plist, opened = .ok archive ∧ HasInfo p archive bundle.bundleDir plist ∧
      bundle.metadata.executable = executableName plist bundle.bundleDir ∧
      ∀ containersRoot systemRoot uuid,
        ReadsExtracted (Sandbox.ofContainer containersRoot systemRoot bundle.metadata.name uuid)
          bundle ↔ SafeName (executableName plist bundle.bundleDir)) ∧
    ∀ kernel containersRoot systemRoot nanos seq pid archive fs,
      let sandbox := Sandbox.ofContainer containersRoot systemRoot bundle.metadata.name
        (generateUuid nanos seq pid)
      let launch :=
        launchInner kernel p ipaPath containersRoot systemRoot nanos seq pid opened archive fs
      (∀ sb bytes fs', launch = .ok (sb, bytes) fs' → sb = sandbox ∧
        ∃ fs₁, HostFs.readFile kernel (exeHost sb bundle) fs₁ = .ok bytes fs') ∧
      ∀ path e fs', launch = .err (.readExecutable path e) fs' → path = exeHost sandbox bundle ∧
        ∃ fs₁, HostFs.readFile kernel path fs₁ = .err e fs' := by
  refine ⟨?_, fun _ _ _ _ _ _ _ _ =>
    ⟨fun _ _ _ => launchInner_eq_ok h, fun _ _ _ => launchInner_eq_readExecutable h⟩⟩
  obtain ⟨archive, plist, harchive, hinfo, hname, hpath⟩ := inspectIpa_eq_ok h
  refine ⟨archive, plist, harchive, hinfo, hname, fun containersRoot systemRoot uuid => ?_⟩
  rw [← hname]
  exact readsExtracted_iff (Sandbox.bundleBelow_ofContainer _ _ _ _) hpath

/-- An `Info.plist` that names the executable. -/
def testInfo (executable : String) : ZipEntry where
  name := "Payload/A.app/Info.plist".toList
  size := 100
  content := .ok (utf8Encode ("<plist><dict><key>CFBundleExecutable</key><string>" ++
    executable ++ "</string></dict></plist>").toList)

/-- An archive with this entry. -/
def testIpa (executable : String) : OpenArchive where
  fileNames := [(testInfo executable).name]
  byName name := if name = (testInfo executable).name then .ok (testInfo executable)
    else .error .fileNotFound

/-- Where it lies. -/
def testPath : OsPath :=
  utf8Encode "/a.ipa".toList

/-- What `inspectIpa` finds in it. -/
def testBundle (executable : String) : IpaBundle where
  ipaPath := testPath
  bundleDir := "Payload/A.app".toList
  executablePath := "Payload/A.app/".toList ++ executable.toList
  metadata := ⟨[], [], [], executable.toList, none⟩

/-- A name that is the absolute path of another file : the launch reads that file, which is not
in the bundle and not the target of an entry. -/
theorem executable_outside :
    inspectIpa .release testPath (.ok (testIpa "/etc/hosts")) () =
        .ok (testBundle "/etc/hosts") () ∧
      (∃ sb fs, launchInner .willing .release testPath "/c".toList "/s".toList 0 0 0
        (.ok (testIpa "/etc/hosts")) (.ok [.ok (testInfo "/etc/hosts")])
        ⟨fun path => if path = UnixPath.components "/etc/hosts".toList then some (.file [1, 2, 3])
          else none⟩ = .ok (sb, [1, 2, 3]) fs ∧
        exeHost sb (testBundle "/etc/hosts") = "/etc/hosts".toList ∧
        ¬LiesWithin sb.layout.bundleDir "/etc/hosts".toList ∧
        extractionTarget "Payload/A.app".toList sb.layout.bundleDir
          (testBundle "/etc/hosts").executablePath = none ∧
        ¬ReadsExtracted sb (testBundle "/etc/hosts")) := by
  have hinspect : inspectIpa .release testPath (.ok (testIpa "/etc/hosts")) () =
      .ok (testBundle "/etc/hosts") () := rfl
  have hrun : (launchInner .willing .release testPath "/c".toList "/s".toList 0 0 0
      (.ok (testIpa "/etc/hosts")) (.ok [.ok (testInfo "/etc/hosts")])
      ⟨fun path => if path = UnixPath.components "/etc/hosts".toList then some (.file [1, 2, 3])
        else none⟩).okAnd (fun r _ => decide (r.2 = [1, 2, 3])) = true := by
    decide +kernel
  obtain ⟨⟨sb, bytes⟩, fs, hok, hbytes⟩ := Outcome.okAnd_iff.1 hrun
  obtain rfl : bytes = [1, 2, 3] := of_decide_eq_true hbytes
  obtain ⟨hsb, -⟩ := launchInner_eq_ok hinspect hok
  refine ⟨hinspect, sb, fs, hok, rfl, ?_, ?_, ?_⟩
  · rw [hsb, LiesWithin]
    decide +kernel
  · rw [hsb]
    decide
  · intro h
    have htarget := h.target
    rw [hsb] at htarget
    revert htarget
    decide

/-- A name without separators. -/
theorem executable_extracted_x :
    ReadsExtracted (Sandbox.ofContainer "/c".toList "/s".toList [] "U".toList) (testBundle "x") := by
  have hinspect : inspectIpa .release testPath (.ok (testIpa "x")) () =
      .ok (testBundle "x") () := rfl
  obtain ⟨archive, plist, -, -, hname, hiff⟩ := (executable_extracted_iff hinspect).1
  refine (hiff "/c".toList "/s".toList "U".toList).2 ?_
  rw [← hname]
  decide

end IosEmu
