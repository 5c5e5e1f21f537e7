import IosEmu.HostFs
import IosEmu.Text

/-!
# The app sandbox

Every app has a container directory on the host, and shares a system image with the other
apps. `translate` maps a guest path to a host path : paths under the container's own
prefix go to the container, five system trees go to the system image and are read only,
and everything else is refused.

`normalizeIosPath` resolves `.` and `..` by the text of the path and refuses to climb above
its root, so what is pushed onto the base is a list of clean names and the result stays
below the base (`translate_contained`).
-/

open SysLib

namespace IosEmu

/-! ## Normalisation -/

/-- Why a guest path could not be translated. -/
inductive TranslationError
  | escape
  | malformed
  deriving DecidableEq, Repr

/-- One turn of the loop of `normalizeIosPath` over the pieces of the path. -/
def normalizeStep (out : List UnixPath) (comp : UnixPath) :
    Except TranslationError (List UnixPath) :=
  if comp = [] ∨ comp = ['.'] then .ok out
  else if comp = ['.', '.'] then
    if out = [] then .error .escape else .ok out.dropLast
  else if comp.contains '\x00' then .error .malformed
  else .ok (out ++ [comp])

/-- The clean components of a path, with `.` dropped and `..` resolved by the text. -/
def normalizeIosPath (path : List Char) : Except TranslationError (List UnixPath) :=
  if path = [] then .error .malformed
  else (path.splitOn '/').foldlM normalizeStep []

example : normalizeIosPath "/var/./Documents/../a.txt".toList
    = .ok ["var".toList, "a.txt".toList] := by decide

/-! ## The sandbox -/

/-- The directories created inside every container. -/
structure SandboxLayout where
  bundleDir : UnixPath
  documents : UnixPath
  library : UnixPath
  caches : UnixPath
  preferences : UnixPath
  tmp : UnixPath

/-- An isolated filesystem of one app. -/
structure Sandbox where
  hostRoot : UnixPath
  iosPrefix : List Char
  uuid : List Char
  layout : SandboxLayout
  systemRoot : UnixPath

/-- Strip separators from a bundle name. -/
def sanitizeComponent (name : List Char) : List Char :=
  let cleaned := name.map fun c => if c = '/' ∨ c = '\\' ∨ c = '\x00' then '_' else c
  if cleaned = [] ∨ cleaned = ['.'] ∨ cleaned = ['.', '.'] then "App".toList else cleaned

/-- What follows the directory `dir` in `path`, if `path` is `dir` or lies below it. -/
def stripPrefixDir (path dir : List Char) : Option (List Char) :=
  match path.dropPrefix? dir with
  | none => none
  | some [] => some []
  | some ('/' :: sub) => some sub
  | some _ => none

example : stripPrefixDir "/usr/lib/x".toList "/usr".toList = some "lib/x".toList := by decide
example : stripPrefixDir "/usrlocal/x".toList "/usr".toList = none := by decide

namespace Sandbox

/-- The directories of a container at `hostRoot`. -/
def containerLayout (hostRoot : UnixPath) (appName : List Char) : SandboxLayout :=
  let bundleName := sanitizeComponent appName ++ ".app".toList
  let library := hostRoot.join "Library".toList
  { bundleDir := hostRoot.join bundleName
    documents := hostRoot.join "Documents".toList
    library
    caches := library.join "Caches".toList
    preferences := library.join "Preferences".toList
    tmp := hostRoot.join "tmp".toList }

/-- The sandbox of the app `appName` in the container `uuid`. -/
def ofContainer (containersRoot systemRoot : UnixPath) (appName uuid : List Char) : Sandbox :=
  let hostRoot := (containersRoot.join "Applications".toList).join uuid
  { hostRoot
    iosPrefix := "/var/mobile/Applications/".toList ++ uuid
    uuid
    layout := containerLayout hostRoot appName
    systemRoot }

/-- Make the directories of a container, and return its sandbox. -/
def prepare (kernel : Kernel) (containersRoot systemRoot : UnixPath)
    (appName uuid : List Char) : Prog EmuError Panic HostFs Sandbox := do
  let sb := ofContainer containersRoot systemRoot appName uuid
  let dirs := [sb.layout.bundleDir, sb.layout.documents, sb.layout.caches,
    sb.layout.preferences, sb.layout.tmp]
  Prog.forEach dirs fun dir => Prog.mapErr EmuError.io (HostFs.createDirAll kernel dir)
  return sb

/-- The path of the app bundle as the guest sees it. -/
def bundleIosPath (sb : Sandbox) : List Char :=
  sb.iosPrefix ++ '/' :: (sb.layout.bundleDir.fileName).getD "App.app".toList

/-- Normalise `rest` and push it onto `base`. -/
def joinChecked (base : UnixPath) (rest : List Char) : EmuResult UnixPath :=
  match normalizeIosPath rest with
  | .ok comps => .ok (base.pushAll comps)
  | .error .escape => .error (.vfs ("sandbox escape: " ++ String.ofList rest))
  | .error .malformed => .error (.vfs ("bad path: " ++ String.ofList rest))

/-- The system trees, which lead into the shared image. -/
def systemTrees : List String :=
  ["/System", "/usr", "/Library", "/private/var/db", "/Applications"]

/-- The directory of a system tree in the image. -/
def systemBase (sb : Sandbox) (tree : String) : UnixPath :=
  sb.systemRoot.join (tree.toList.dropWhile (· == '/'))

/-- The loop over the system trees. -/
def translateSystem (sb : Sandbox) (iosPath absolute : List Char) :
    List String → EmuResult (UnixPath × Bool)
  | [] => .error (.vfs ("path outside sandbox: " ++ String.ofList iosPath))
  | tree :: trees =>
    match stripPrefixDir absolute tree.toList with
    | some rest => do
      let host ← joinChecked (sb.systemBase tree) rest
      return (host, true)
    | none => translateSystem sb iosPath absolute trees

/-- A guest path made absolute : relative paths start from the bundle. -/
def absolutePath (sb : Sandbox) (iosPath : List Char) : List Char :=
  let path := trim iosPath
  if path.head? = some '/' then path else sb.bundleIosPath ++ '/' :: path

/-- Translate a guest path to a host path, and whether it is read only. -/
def translate (sb : Sandbox) (iosPath : List Char) : EmuResult (UnixPath × Bool) :=
  match stripPrefixDir (sb.absolutePath iosPath) sb.iosPrefix with
  | some rest => do
    let host ← joinChecked sb.hostRoot rest
    return (host, false)
  | none => sb.translateSystem iosPath (sb.absolutePath iosPath) systemTrees

end Sandbox

/-! ## Containment -/

/-- A name that is pushed onto a host path : one component, and no NUL. -/
def CleanName (c : UnixPath) : Prop :=
  UnixPath.Clean c ∧ '\x00' ∉ c

/-- One piece keeps the output clean. -/
theorem clean_normalizeStep {out out' : List UnixPath} {comp : UnixPath}
    (hout : ∀ c ∈ out, CleanName c) (hcomp : '/' ∉ comp)
    (h : normalizeStep out comp = .ok out') : ∀ c ∈ out', CleanName c := by
  unfold normalizeStep at h
  split_ifs at h with hskip hup hroot hnul
  · obtain rfl := Except.ok.inj h
    exact hout
  · obtain rfl := Except.ok.inj h
    exact fun c hc => hout c (List.dropLast_subset _ hc)
  · obtain rfl := Except.ok.inj h
    rw [not_or] at hskip
    intro c hc
    rcases List.mem_append.1 hc with hc | hc
    · exact hout c hc
    · obtain rfl := List.mem_singleton.1 hc
      exact ⟨⟨hskip.1, hskip.2, hup, hcomp⟩, by simpa using hnul⟩

/-- The loop over the pieces keeps the output clean. -/
theorem clean_foldlM_normalizeStep : ∀ (pieces out : List UnixPath) {out' : List UnixPath},
    (∀ piece ∈ pieces, '/' ∉ piece) → (∀ c ∈ out, CleanName c) →
      pieces.foldlM normalizeStep out = .ok out' → ∀ c ∈ out', CleanName c
  | [], out, out', _, hout, h => by
    obtain rfl := Except.ok.inj h
    exact hout
  | piece :: pieces, out, out', hsep, hout, h => by
    rw [List.foldlM_cons] at h
    obtain ⟨mid, hmid, h⟩ := except_bind_eq_ok.1 h
    have hpiece := clean_normalizeStep hout (hsep piece List.mem_cons_self) hmid
    exact clean_foldlM_normalizeStep pieces mid
      (fun q hq => hsep q (List.mem_cons_of_mem _ hq)) hpiece h

/-- A normalised path has clean components only. -/
theorem clean_normalizeIosPath {path : List Char} {comps : List UnixPath}
    (h : normalizeIosPath path = .ok comps) : ∀ c ∈ comps, CleanName c := by
  unfold normalizeIosPath at h
  split_ifs at h
  exact clean_foldlM_normalizeStep _ [] (fun _ => UnixPath.sep_notMem_of_mem_splitOn path)
    (fun c hc => absurd hc List.not_mem_nil) h

namespace Sandbox

/-- `host` is `base` with clean names pushed onto it. -/
def Below (base host : UnixPath) : Prop :=
  ∃ comps : List UnixPath, (∀ c ∈ comps, CleanName c) ∧ host = base.pushAll comps ∧
    host.components = base.components ++ comps.map Component.normal

theorem below_joinChecked {base host : UnixPath} {rest : List Char}
    (h : joinChecked base rest = .ok host) : Below base host := by
  unfold joinChecked at h
  rcases hn : normalizeIosPath rest with e | comps
  · rw [hn] at h
    cases e <;> cases h
  · rw [hn] at h
    obtain rfl := Except.ok.inj h
    have hclean := clean_normalizeIosPath hn
    exact ⟨comps, hclean, rfl,
      UnixPath.components_pushAll comps base fun c hc => (hclean c hc).1⟩

/-- A path found in the loop over the system trees is below one of them. -/
theorem below_translateSystem {sb : Sandbox} {iosPath absolute : List Char} {host : UnixPath}
    {ro : Bool} : ∀ trees : List String,
      sb.translateSystem iosPath absolute trees = .ok (host, ro) →
        ro = true ∧ ∃ tree ∈ trees, Below (sb.systemBase tree) host
  | [], h => by cases h
  | tree :: trees, h => by
    unfold translateSystem at h
    split at h
    · obtain ⟨host', hjoin, hpair⟩ := except_bind_eq_ok.1 h
      obtain ⟨rfl, rfl⟩ := Prod.mk.inj (Except.ok.inj hpair)
      exact ⟨rfl, tree, List.mem_cons_self, below_joinChecked hjoin⟩
    · obtain ⟨hro, tree', hmem, hbelow⟩ := below_translateSystem trees h
      exact ⟨hro, tree', List.mem_cons_of_mem _ hmem, hbelow⟩

/-- A translated path is below the container, or is read only and below a system tree. -/
theorem below_translate {sb : Sandbox} {iosPath : List Char} {host : UnixPath} {ro : Bool}
    (h : sb.translate iosPath = .ok (host, ro)) :
    (ro = false ∧ Below sb.hostRoot host) ∨
      (ro = true ∧ ∃ tree ∈ systemTrees, Below (sb.systemBase tree) host) := by
  unfold translate at h
  split at h
  · obtain ⟨host', hjoin, hpair⟩ := except_bind_eq_ok.1 h
    obtain ⟨rfl, rfl⟩ := Prod.mk.inj (Except.ok.inj hpair)
    exact Or.inl ⟨rfl, below_joinChecked hjoin⟩
  · exact Or.inr (below_translateSystem systemTrees h)

theorem prefix_components_push (p : UnixPath) {c : UnixPath} (h : UnixPath.Clean c) :
    p.components <+: (p.push c).components := by
  rw [UnixPath.components_push h]
  exact List.prefix_append _ _

/-- The directory of a system tree is below the image's root. -/
theorem prefix_systemBase (sb : Sandbox) {tree : String} (h : tree ∈ systemTrees) :
    sb.systemRoot.components <+: (sb.systemBase tree).components := by
  simp only [systemTrees, List.mem_cons, List.not_mem_nil, or_false] at h
  rcases h with rfl | rfl | rfl | rfl | rfl
  · exact prefix_components_push _ (c := "System".toList) (by decide)
  · exact prefix_components_push _ (c := "usr".toList) (by decide)
  · exact prefix_components_push _ (c := "Library".toList) (by decide)
  · have hdb : sb.systemBase "/private/var/db" =
        ((sb.systemRoot.push "private".toList).push "var".toList).push "db".toList := by
      rw [← UnixPath.push_append_sep (by decide) (by decide),
        ← UnixPath.push_append_sep (by decide) (by decide)]
      rfl
    rw [hdb]
    exact ((prefix_components_push _ (by decide)).trans (prefix_components_push _ (by decide))).trans
      (prefix_components_push _ (by decide))
  · exact prefix_components_push _ (c := "Applications".toList) (by decide)

theorem prefix_of_readOnly {sb : Sandbox} {iosPath : List Char} {path : UnixPath}
    (h : sb.translate iosPath = .ok (path, true)) :
    sb.systemRoot.components <+: path.components := by
  rcases below_translate h with ⟨hro, -⟩ | ⟨-, tree, hmem, comps, -, -, heq⟩
  · cases hro
  · rw [heq]
    exact (sb.prefix_systemBase hmem).trans (List.prefix_append _ _)

theorem eq_of_prepare {kernel : Kernel} {containersRoot systemRoot : UnixPath}
    {appName uuid : List Char} {fs fs' : HostFs} {sb : Sandbox}
    (h : prepare kernel containersRoot systemRoot appName uuid fs = .ok sb fs') :
    sb = ofContainer containersRoot systemRoot appName uuid := by
  obtain ⟨u, fs₁, -, hpure⟩ := Prog.bind_eq_ok.1 h
  exact (Outcome.ok.inj hpure).1.symm

/-- Whatever the names and the guest path, a path that `translate` returns is the container
or, read only, the directory of a system tree in the image, with clean names pushed onto it,
and so it stays below that base. -/
theorem translate_contained (kernel : Kernel) (containersRoot systemRoot : UnixPath)
    (appName uuid : List Char) (fs fs' : HostFs) (sb : Sandbox)
    (hprepare : prepare kernel containersRoot systemRoot appName uuid fs = .ok sb fs')
    (iosPath : List Char) (host : UnixPath) (ro : Bool)
    (h : sb.translate iosPath = .ok (host, ro)) :
    sb.hostRoot = (containersRoot.join "Applications".toList).join uuid ∧
      sb.systemRoot = systemRoot ∧
      ((ro = false ∧ Below sb.hostRoot host) ∨
        (ro = true ∧ ∃ dir ∈ ["System", "usr", "Library", "private/var/db", "Applications"],
          Below (sb.systemRoot.join dir.toList) host)) := by
  obtain rfl := eq_of_prepare hprepare
  refine ⟨rfl, rfl, (below_translate h).imp_right fun ⟨hro, tree, hmem, hbelow⟩ => ?_⟩
  have htrees : ∀ tree ∈ systemTrees,
      ∃ dir ∈ ["System", "usr", "Library", "private/var/db", "Applications"],
        tree.toList.dropWhile (· == '/') = dir.toList := by
    decide
  obtain ⟨dir, hdir, heq⟩ := htrees tree hmem
  rw [systemBase, heq] at hbelow
  exact ⟨hro, dir, hdir, hbelow⟩

/-- The container of the crate's test : a path with `..` stays inside it. -/
theorem translate_contained_documents :
    ∃ sb fs, prepare .willing "/data".toList "/sys".toList "My App".toList "ABCD-UUID".toList
        ⟨fun _ => none⟩ = .ok sb fs ∧
      sb.translate "/var/mobile/Applications/ABCD-UUID/tmp/../Documents/x.dat".toList
        = .ok ("/data/Applications/ABCD-UUID/Documents/x.dat".toList, false) ∧
      Below sb.hostRoot "/data/Applications/ABCD-UUID/Documents/x.dat".toList := by
  have hok : (prepare .willing "/data".toList "/sys".toList "My App".toList "ABCD-UUID".toList
      ⟨fun _ => none⟩).isOk = true := by
    decide +kernel
  obtain ⟨sb, fs, h⟩ := Outcome.isOk_iff.1 hok
  have htranslate : sb.translate
      "/var/mobile/Applications/ABCD-UUID/tmp/../Documents/x.dat".toList
        = .ok ("/data/Applications/ABCD-UUID/Documents/x.dat".toList, false) := by
    rw [eq_of_prepare h]
    decide +kernel
  obtain ⟨-, -, ⟨-, hbelow⟩ | ⟨hro, -⟩⟩ := translate_contained _ _ _ _ _ _ _ _ h _ _ _ htranslate
  · exact ⟨sb, fs, h, htranslate, hbelow⟩
  · cases hro

end Sandbox

end IosEmu
