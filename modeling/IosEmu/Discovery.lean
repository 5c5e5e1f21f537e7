import IosEmu.Install
import IosEmu.LeastElement
import IosEmu.PlistXml

/-!
# Finding the app in an archive

`inspectIpa` picks the bundle, reads its `Info.plist` and takes the app's names from it. The zip
library keeps the names of the entries in a hash map, so an opened archive yields them in an
order of its own : `OpenArchive` has them as a list, and a lookup by name.

`findBundleDir` takes the first of the shallowest bundles (`findBundleDir_eq`). It is the same
for every order exactly if there is only one (`bundle_choice_iff`).
-/

open SysLib

namespace IosEmu

/-! ## Property lists -/

/-- The message of an error. -/
def PlistError.display : PlistError → String
  | .truncated => "truncated plist"
  | .badTrailer => "bad binary plist trailer"
  | .badReference => "object reference out of range"
  | .unsupportedType t => "unsupported object marker 0x" ++
      String.ofList [Nat.digitChar (t.toNat / 16), Nat.digitChar (t.toNat % 16)]
  | .xml m => "xml plist: " ++ m
  | .notAPlist => "not a recognised plist"

namespace PlistValue

def asStr : PlistValue → Option (List Char)
  | .string s => some s.toList
  | _ => none

def asArray : PlistValue → Option (List PlistValue)
  | .array items => some items
  | _ => none

/-- Look up a key in a dictionary. -/
def get (key : String) : PlistValue → Option PlistValue
  | .dict entries => entries.lookup key
  | _ => none

end PlistValue

/-! ## The archive -/

/-- Why an entry is not opened. -/
inductive ZipError
  | fileNotFound
  | other (msg : String)

/-- An archive as the zip library opens it : the names in the order of this opening, and the
lookup of an entry. -/
structure OpenArchive where
  fileNames : List (List Char)
  byName : List Char → Except ZipError ZipEntry

/-- A path of the host as the host has it : bytes, which need not be UTF-8. -/
abbrev OsPath := List U8

/-- What the frontend shows of an app. -/
structure AppMetadata where
  name : List Char
  bundleIdentifier : List Char
  minimumOsVersion : List Char
  executable : List Char
  iconPng : Option (List U8)

/-- An app that was found, with the paths in the archive that the launch needs. -/
structure IpaBundle where
  ipaPath : OsPath
  bundleDir : List Char
  executablePath : List Char
  metadata : AppMetadata

/-- One turn of the loop of `findBundleDir` over the names. -/
def findBundleStep (best : Option (List Char)) (name : List Char) : Option (List Char) :=
  match name.dropSuffix? "/Info.plist".toList with
  | some dir =>
    if ".app".toList.isSuffixOf dir && "Payload/".toList.isPrefixOf dir then
      let depth := dir.count '/'
      let take : Bool := match best with
        | none => true
        | some b => depth < b.count '/'
      if take then some dir else best
    else best
  | none => best

/-- Locate the directory `Payload/<Name>.app` in the archive. -/
def findBundleDir (fileNames : List (List Char)) : EmuResult (List Char) :=
  match fileNames.foldl findBundleStep none with
  | some dir => .ok dir
  | none => .error (.archive "no Payload/*.app/Info.plist found")

/-- The calls of this module have no state. -/
abbrev IpaM := Prog EmuError Panic Unit

def readEntry (archive : OpenArchive) (name : List Char) : IpaM (Option (List U8)) :=
  match archive.byName name with
  | .ok f => do
    Prog.ofChecked (withCapacity f.size.toNat 1)
    let buf ← Prog.ofResult (f.content.mapError EmuError.io)
    return some buf
  | .error .fileNotFound => return none
  | .error (.other e) => Prog.fail (.archive ("read " ++ String.ofList name ++ ": " ++ e))

/-- The text of a key, empty if there is none. -/
def stringOf (plist : PlistValue) (key : String) : List Char :=
  ((plist.get key).bind PlistValue.asStr).getD []

def metadataFromPlist (plist : PlistValue) : AppMetadata where
  name :=
    let disp := stringOf plist "CFBundleDisplayName"
    if disp = [] then stringOf plist "CFBundleName" else disp
  bundleIdentifier := stringOf plist "CFBundleIdentifier"
  minimumOsVersion :=
    let v := stringOf plist "MinimumOSVersion"
    if v = [] then stringOf plist "LSMinimumSystemVersion" else v
  executable := stringOf plist "CFBundleExecutable"
  iconPng := none

/-- The last text of the list at `CFBundleIconFiles`. -/
def lastIconFile (plist : PlistValue) : Option (List Char) := do
  let files ← plist.get "CFBundleIconFiles"
  let items ← files.asArray
  let last ← items.getLast?
  last.asStr

/-- The icon's name, under the keys that have been in use. -/
def pickIconName (plist : PlistValue) : Option (List Char) :=
  match ((plist.get "CFBundleIcons").bind (·.get "CFBundlePrimaryIcon")).bind lastIconFile with
  | some primary => some primary
  | none =>
    match lastIconFile plist with
    | some name => some name
    | none => (plist.get "CFBundleIconFile").bind PlistValue.asStr

/-- `trim_end_matches` : drop the suffix as often as it is there. -/
def trimEndMatches (suffix : List Char) : ℕ → List Char → List Char
  | 0, text => text
  | fuel + 1, text =>
    match text.dropSuffix? suffix with
    | some rest => trimEndMatches suffix fuel rest
    | none => text

/-- The names that an icon may have in the archive. -/
def iconCandidates (base : List Char) : List (List Char) :=
  let stem := trimEndMatches ".png".toList base.length base
  [stem ++ "@2x.png".toList, stem ++ ".png".toList, stem ++ "@3x.png".toList, base]

example : iconCandidates "Icon.png".toList =
    ["Icon@2x.png".toList, "Icon.png".toList, "Icon@3x.png".toList, "Icon.png".toList] := by
  decide

/-- The bundle's name without its ending. -/
def defaultExecutableName (bundleDir : List Char) : List Char :=
  (((bundleDir.splitOn '/').getLast?).bind (·.dropSuffix? ".app".toList)).getD "App".toList

/-- The bytes of the first candidate that can be read. -/
def findIcon (archive : OpenArchive) (bundleDir : List Char) :
    List (List Char) → IpaM (Option (List U8))
  | [] => return none
  | candidate :: candidates => do
    match ← Prog.attempt (readEntry archive (bundleDir ++ '/' :: candidate)) with
    | .ok (some bytes) => return some bytes
    | _ => findIcon archive bundleDir candidates

/-- The app's icon, if one of its candidates is there. -/
def extractIcon (archive : OpenArchive) (bundleDir : List Char) (plist : PlistValue) :
    IpaM (Option (List U8)) :=
  match pickIconName plist with
  | some name => findIcon archive bundleDir (iconCandidates name)
  | none => return none

/-- Open an archive and pull out the app's metadata. -/
def inspectIpa (p : Profile) (ipaPath : OsPath) (opened : EmuResult OpenArchive) :
    IpaM IpaBundle := do
  let archive ← Prog.ofResult opened
  let bundleDir ← Prog.ofResult (findBundleDir archive.fileNames)
  let infoPath := bundleDir ++ "/Info.plist".toList
  let info ← readEntry archive infoPath
  let infoBytes ← Prog.ofResult (info.elim
    (.error (EmuError.archive ("missing " ++ String.ofList infoPath))) .ok)
  let plist ← Prog.mapErr (fun e => EmuError.plist e.display) (Plist.parse p infoBytes)
  let metadata := metadataFromPlist plist
  let executable :=
    if metadata.executable = [] then defaultExecutableName bundleDir else metadata.executable
  let icon ← extractIcon archive bundleDir plist
  return {
    ipaPath, bundleDir
    executablePath := bundleDir ++ '/' :: executable
    metadata := { metadata with executable, iconPng := icon } }

/-! ## The choice of the bundle -/

/-- The bundle whose `Info.plist` the name is. -/
def bundleOf (name : List Char) : Option (List Char) :=
  (name.dropSuffix? "/Info.plist".toList).filter fun dir =>
    ".app".toList.isSuffixOf dir && "Payload/".toList.isPrefixOf dir

/-- How deep a directory is. -/
def bundleDepth (dir : List Char) : ℕ :=
  dir.count '/'

theorem findBundleStep_eq (best : Option (List Char)) (name : List Char) :
    findBundleStep best name = (bundleOf name).elim best
      (List.argAux (fun b c => bundleDepth b < bundleDepth c) best) := by
  unfold findBundleStep bundleOf
  rcases name.dropSuffix? "/Info.plist".toList with _ | dir
  · rfl
  · rw [Option.filter_some]
    dsimp only
    by_cases hbundle : (".app".toList.isSuffixOf dir && "Payload/".toList.isPrefixOf dir) = true
    · rw [if_pos hbundle, if_pos hbundle]
      rcases best with _ | b
      · rfl
      · by_cases hlt : dir.count '/' < b.count '/' <;> simp [List.argAux, bundleDepth, hlt]
    · rw [if_neg hbundle, if_neg hbundle]
      rfl

/-- The loop keeps the first of the shallowest bundles. -/
theorem foldl_findBundleStep : ∀ (names : List (List Char)) (best : Option (List Char)),
    names.foldl findBundleStep best =
      (names.filterMap bundleOf).foldl
        (List.argAux fun b c => bundleDepth b < bundleDepth c) best
  | [], _ => rfl
  | name :: names, best => by
    rw [List.foldl_cons, foldl_findBundleStep names, findBundleStep_eq]
    rcases hname : bundleOf name with _ | dir
    · rw [List.filterMap_cons_none hname]
      rfl
    · rw [List.filterMap_cons_some hname]
      rfl

theorem findBundleDir_eq (names : List (List Char)) :
    findBundleDir names =
      match (names.filterMap bundleOf).argmin bundleDepth with
      | some dir => .ok dir
      | none => .error (.archive "no Payload/*.app/Info.plist found") := by
  rw [findBundleDir, foldl_findBundleStep]
  rfl

/-- A bundle of the archive such that no other is less deep. -/
def IsShallowest (names : List (List Char)) (dir : List Char) : Prop :=
  IsLeastIn bundleDepth (names.filterMap bundleOf) dir

theorem findBundleDir_eq_iff {xs ys : List (List Char)} :
    findBundleDir xs = findBundleDir ys ↔
      (xs.filterMap bundleOf).argmin bundleDepth = (ys.filterMap bundleOf).argmin bundleDepth := by
  rw [findBundleDir_eq, findBundleDir_eq]
  rcases (xs.filterMap bundleOf).argmin bundleDepth with _ | a <;>
    rcases (ys.filterMap bundleOf).argmin bundleDepth with _ | b <;> simp

/-- For every set of names : whatever the order, the choice is a shallowest bundle, and it is
the same for all orders exactly if there is only one. -/
theorem bundle_choice_iff (names : List (List Char)) :
    (∀ xs : List (List Char), xs.Perm names → ∀ dir, findBundleDir xs = .ok dir →
      IsShallowest names dir) ∧
    ((∀ xs ys : List (List Char), xs.Perm names → ys.Perm names →
        findBundleDir xs = findBundleDir ys) ↔
      ∀ a b, IsShallowest names a → IsShallowest names b → a = b) := by
  refine ⟨fun xs hxs dir hdir => ?_, ?_⟩
  · rw [findBundleDir_eq] at hdir
    rcases hchoice : (xs.filterMap bundleOf).argmin bundleDepth with _ | a
    · simp [hchoice] at hdir
    · obtain rfl : a = dir := by simpa [hchoice] using hdir
      exact (isLeastIn_of_argmin hchoice).perm (hxs.filterMap bundleOf)
  · simp only [findBundleDir_eq_iff]
    exact argmin_perm_iff

/-- Two bundles side by side : the first in the order is the choice. -/
theorem two_bundles_two_choices :
    findBundleDir ["Payload/A.app/Info.plist".toList, "Payload/B.app/Info.plist".toList] =
        .ok "Payload/A.app".toList ∧
      findBundleDir ["Payload/B.app/Info.plist".toList, "Payload/A.app/Info.plist".toList] =
        .ok "Payload/B.app".toList := by
  decide

/-- An app with a plugin. -/
theorem bundle_choice_plugin :
    findBundleDir ["Payload/A.app/PlugIns/P.app/Info.plist".toList,
        "Payload/A.app/Info.plist".toList] =
      findBundleDir ["Payload/A.app/Info.plist".toList,
        "Payload/A.app/PlugIns/P.app/Info.plist".toList] := by
  refine (bundle_choice_iff _).2.2 ?_ _ _ (List.Perm.refl _) (List.Perm.swap _ _ _)
  have hone : ∀ dir ∈ ["Payload/A.app/PlugIns/P.app/Info.plist".toList,
      "Payload/A.app/Info.plist".toList].filterMap bundleOf,
      bundleDepth dir ≤ bundleDepth "Payload/A.app".toList → dir = "Payload/A.app".toList := by
    decide +kernel
  have hmem : "Payload/A.app".toList ∈ ["Payload/A.app/PlugIns/P.app/Info.plist".toList,
      "Payload/A.app/Info.plist".toList].filterMap bundleOf := by
    decide
  intro a b ha hb
  rw [hone a ha.1 (ha.2 _ hmem), hone b hb.1 (hb.2 _ hmem)]

end IosEmu
