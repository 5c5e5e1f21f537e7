import IosEmu.AppList
import IosEmu.Launch
import IosEmu.LossyText
import Mathlib.Data.String.Basic

/-!
# The app library

The user interface lists a directory : every archive in it is inspected, what can be read of it is
sorted by the app's name, written as JSON and parsed again (`nativeScan`, `AppManager.parse`). An
archive that cannot be inspected is left out, and an error of the listing itself leaves nothing.
The row of an app holds the path of its archive as a text, by which the icon is asked for later.

So the rows are the apps of the archives that can be inspected, no more and no less, in the order
of their names, and each leads back to its own archive, exactly if the path is UTF-8
(`library_shown`). Directories are listed in any order. Of it the user sees the order of two apps
whose names are the same up to case, unless their rows are the same too (`library_order`).
-/

namespace SysLib

/-- `Path::extension` : what follows the last dot of the file name, if something stands before. -/
def UnixPath.extension (path : UnixPath) : Option (List Char) :=
  match path.fileName with
  | none => none
  | some file =>
    let pieces := file.splitOn '.'
    if pieces.length ≤ 1 ∨ pieces.dropLast = [[]] then none else pieces.getLast?

/-- A path of the host with every byte as a character of its own. What separates components and
extensions is single bytes, so they are found in it. -/
def latin1 (path : List Byte) : UnixPath :=
  path.map fun b => Char.ofNat b.toNat

end SysLib

open SysLib Json

namespace IosEmu

/-! ## Listing a directory -/

/-- The file name ends in `.ipa`, in whatever case. An extension that is not UTF-8 is none of
these. -/
def isIpa (path : OsPath) : Bool :=
  (latin1 path).extension.map (·.map Char.toLower) = some "ipa".toList

example : isIpa (utf8Encode "/IPAs/Demo.IPA".toList) = true := by decide
example : isIpa (utf8Encode "/IPAs/.ipa".toList) = false := by decide

/-- The archives of the host, as they are opened at the paths. -/
abbrev Archives := OsPath → EmuResult OpenArchive

/-- One turn of the loop over the entries of the directory. -/
def scanEntry (p : Profile) (archives : Archives) (out : List IpaBundle)
    (entry : Except IoErrorKind OsPath) : IpaM (List IpaBundle) := do
  let path ← Prog.ofResult (entry.mapError EmuError.io)
  if isIpa path then
    match ← Prog.attempt (inspectIpa p path (archives path)) with
    | .ok bundle => return out ++ [bundle]
    | .error _ => return out
  else return out

/-- The name that the apps are sorted by. `lower` is `str::to_lowercase`. -/
def sortName (lower : String → String) (bundle : IpaBundle) : String :=
  lower (String.ofList bundle.metadata.name)

def nameLe (lower : String → String) (a b : IpaBundle) : Bool :=
  decide (sortName lower a ≤ sortName lower b)

/-- `sort_by` is a stable sort. -/
def sortByName (lower : String → String) (bundles : List IpaBundle) : List IpaBundle :=
  bundles.mergeSort (nameLe lower)

/-- Find the apps in a directory. -/
def scanDirectory (p : Profile) (lower : String → String) (archives : Archives)
    (dir : Except IoErrorKind (List (Except IoErrorKind OsPath))) : IpaM (List IpaBundle) := do
  let entries ← Prog.ofResult (dir.mapError EmuError.io)
  let out ← entries.foldlM (scanEntry p archives) []
  return sortByName lower out

/-! ## Sessions -/

/-- What the frontend gets of a bundle : texts, so of a path that is not UTF-8 another one. -/
def IpaBundle.appInfo (bundle : IpaBundle) : AppInfo where
  name := String.ofList bundle.metadata.name
  bundleIdentifier := String.ofList bundle.metadata.bundleIdentifier
  minimumOsVersion := String.ofList bundle.metadata.minimumOsVersion
  ipaPath := fromUtf8Lossy bundle.ipaPath
  iconPng := bundle.metadata.iconPng

/-- Scan a directory. An error leaves an empty list. -/
def scan (p : Profile) (lower : String → String) (archives : Archives)
    (dir : Except IoErrorKind (List (Except IoErrorKind OsPath))) :
    Prog Empty Panic Unit (List AppInfo) := do
  match ← Prog.attempt (scanDirectory p lower archives dir) with
  | .ok bundles => return bundles.map IpaBundle.appInfo
  | .error _ => return []

/-- The list of apps as the frontend gets it. -/
def nativeScan (p : Profile) (lower : String → String) (archives : Archives)
    (dir : Except IoErrorKind (List (Except IoErrorKind OsPath))) :
    Prog Empty Panic Unit String := do
  let apps ← scan p lower archives dir
  return appsToJson apps

/-- The icon of the app in an archive, or no bytes. -/
def nativeIcon (p : Profile) (archives : Archives) (ipaPath : String) :
    Prog Empty Panic Unit (List U8) := do
  let path := utf8Bytes ipaPath
  match ← Prog.attempt (inspectIpa p path (archives path)) with
  | .ok bundle => return bundle.metadata.iconPng.getD []
  | .error _ => return []

/-! ## The loop -/

/-- The bundle in an archive, if there is one that can be read. -/
def readable (p : Profile) (archives : Archives) (path : OsPath) : Option IpaBundle :=
  if isIpa path then (inspectIpa p path (archives path) ()).value? else none

/-- The entries before the first that cannot be read. -/
def reached : List (Except IoErrorKind OsPath) → List OsPath
  | .ok path :: entries => path :: reached entries
  | _ => []

section Loop

variable {p : Profile} {archives : Archives} {path : OsPath}

/-- The inspection of the entry does not take the process down. -/
def Inspects (p : Profile) (archives : Archives) (path : OsPath) : Prop :=
  isIpa path = true → (inspectIpa p path (archives path)).Safe ()

theorem scanEntry_path (out : List IpaBundle) :
    scanEntry p archives out (.ok path) =
      if isIpa path then do
        match ← Prog.attempt (inspectIpa p path (archives path)) with
        | .ok bundle => return out ++ [bundle]
        | .error _ => return out
      else return out :=
  rfl

theorem scanEntry_eq (h : Inspects p archives path) (out : List IpaBundle) :
    scanEntry p archives out (.ok path) () =
      .ok (out ++ (readable p archives path).toList) () := by
  rw [scanEntry_path, readable]
  by_cases hipa : isIpa path = true
  · rw [if_pos hipa, if_pos hipa]
    rcases hrun : inspectIpa p path (archives path) () with ⟨bundle, u⟩ | ⟨e, u⟩ | q
    · simp [hrun, Prog.bind_apply, Prog.attempt, Outcome.value?]
    · simp [hrun, Prog.bind_apply, Prog.attempt, Outcome.value?]
    · exact absurd hrun (h hipa q)
  · rw [if_neg hipa, if_neg hipa, Option.toList_none, List.append_nil]
    rfl

theorem safe_scanEntry_iff {out : List IpaBundle} :
    (scanEntry p archives out (.ok path)).Safe () ↔ Inspects p archives path := by
  constructor
  · intro h hipa
    rw [scanEntry_path, if_pos hipa] at h
    exact Prog.safe_attempt_iff.1 (Prog.safe_bind_iff.1 h).1
  · exact fun h => Prog.safe_of_ok (scanEntry_eq h out)

/-- The error of the first entry that cannot be read. -/
def firstError (entries : List (Except IoErrorKind OsPath)) : Option IoErrorKind :=
  entries.findSome? fun entry =>
    match entry with
    | .ok _ => none
    | .error e => some e

/-- The loop collects what can be read, up to the first error. -/
theorem foldlM_scanEntry : ∀ (entries : List (Except IoErrorKind OsPath)) (out : List IpaBundle),
    (∀ path ∈ reached entries, Inspects p archives path) →
      entries.foldlM (scanEntry p archives) out () =
        match firstError entries with
        | none => .ok (out ++ (reached entries).filterMap (readable p archives)) ()
        | some e => .err (.io e) ()
  | [], out, _ => by simp [firstError, reached]
  | .error e :: entries, out, _ => rfl
  | .ok path :: entries, out, h => by
    obtain ⟨hpath, hrest⟩ := List.forall_mem_cons.1 h
    have ih := foldlM_scanEntry entries (out ++ (readable p archives path).toList) hrest
    have hlist : (out ++ (readable p archives path).toList) ++
        (reached entries).filterMap (readable p archives) =
          out ++ (path :: reached entries).filterMap (readable p archives) := by
      rw [List.append_assoc, List.filterMap_cons]
      rcases readable p archives path with _ | bundle <;> rfl
    rw [List.foldlM_cons, Prog.bind_apply, scanEntry_eq hpath, reached, ← hlist]
    exact ih

/-- The loop does not go down exactly if no inspection does that it comes to. -/
theorem safe_foldlM_scanEntry_iff {entries : List (Except IoErrorKind OsPath)} :
    ∀ {out : List IpaBundle}, (entries.foldlM (scanEntry p archives) out).Safe () ↔
      ∀ path ∈ reached entries, Inspects p archives path := by
  induction entries with
  | nil => exact fun {out} => iff_of_true (Prog.total_pure out ()) (by simp [reached])
  | cons entry entries ih =>
    intro out
    rcases entry with e | path
    · exact iff_of_true (Prog.safe_of_err (show _ = Outcome.err (.io e) () from rfl))
        (by simp [reached])
    · rw [List.foldlM_cons, Prog.safe_bind_iff, safe_scanEntry_iff, reached, List.forall_mem_cons]
      refine and_congr_right fun hpath => ?_
      constructor
      · exact fun h => ih.1 (h _ () (scanEntry_eq hpath out))
      · exact fun h a s _ => ih.2 h

end Loop

/-! ## What is shown -/

section Shown

variable {p : Profile} {lower : String → String} {archives : Archives}
  {entries : List (Except IoErrorKind OsPath)} {path : OsPath} {bundle : IpaBundle}

/-- The apps that a scan finds. -/
def found (p : Profile) (lower : String → String) (archives : Archives)
    (entries : List (Except IoErrorKind OsPath)) : List IpaBundle :=
  match firstError entries with
  | none => sortByName lower ((reached entries).filterMap (readable p archives))
  | some _ => []

theorem scanDirectory_ok : scanDirectory p lower archives (.ok entries) =
    entries.foldlM (scanEntry p archives) [] >>= fun out => pure (sortByName lower out) :=
  rfl

theorem nativeScan_eq (h : ∀ path ∈ reached entries, Inspects p archives path) :
    nativeScan p lower archives (.ok entries) () =
      .ok (appsToJson ((found p lower archives entries).map IpaBundle.appInfo)) () := by
  have hloop := foldlM_scanEntry entries [] h
  unfold found
  rcases hfirst : firstError entries with _ | e
  all_goals
    rw [hfirst] at hloop
    simp [nativeScan, scan, scanDirectory_ok, Prog.bind_apply, Prog.attempt, hloop]

theorem safe_nativeScan_iff : (nativeScan p lower archives (.ok entries)).Safe () ↔
    ∀ path ∈ reached entries, Inspects p archives path := by
  constructor
  · intro h
    have hscan := Prog.safe_attempt_iff.1 (Prog.safe_bind_iff.1 (Prog.safe_bind_iff.1 h).1).1
    rw [scanDirectory_ok] at hscan
    exact safe_foldlM_scanEntry_iff.1 (Prog.safe_bind_iff.1 hscan).1
  · exact fun h => Prog.safe_of_ok (nativeScan_eq h)

theorem readable_eq_some : readable p archives path = some bundle ↔
    isIpa path = true ∧ inspectIpa p path (archives path) () = .ok bundle () := by
  unfold readable
  split_ifs with hipa
  · rcases inspectIpa p path (archives path) () with ⟨b, u⟩ | ⟨e, u⟩ | q <;>
      simp [hipa, Outcome.value?]
  · simp [hipa]

/-- A bundle has the path that its archive was opened at. -/
theorem ipaPath_of_inspectIpa {opened : EmuResult OpenArchive}
    (h : inspectIpa p path opened () = .ok bundle ()) : bundle.ipaPath = path := by
  obtain ⟨archive, -, h⟩ := Prog.ofResult_bind_eq_ok.1 h
  obtain ⟨bundleDir, -, h⟩ := Prog.ofResult_bind_eq_ok.1 h
  obtain ⟨info, ⟨⟩, -, h⟩ := Prog.bind_eq_ok.1 h
  obtain ⟨bytes, -, h⟩ := Prog.ofResult_bind_eq_ok.1 h
  obtain ⟨plist, ⟨⟩, -, h⟩ := Prog.bind_eq_ok.1 h
  obtain ⟨icon, ⟨⟩, -, h⟩ := Prog.bind_eq_ok.1 h
  obtain ⟨rfl, -⟩ := Outcome.ok.inj h
  rfl

theorem ipaPath_of_readable (h : readable p archives path = some bundle) : bundle.ipaPath = path :=
  ipaPath_of_inspectIpa (readable_eq_some.1 h).2

/-- A path that the row holds leads back to the archive, and to the icon in it. -/
theorem nativeIcon_of_readable (h : readable p archives path = some bundle)
    (hpath : utf8Bytes bundle.appInfo.ipaPath = bundle.ipaPath) :
    nativeIcon p archives bundle.appInfo.ipaPath () = .ok (bundle.metadata.iconPng.getD []) () := by
  obtain ⟨-, hrun⟩ := readable_eq_some.1 h
  rw [ipaPath_of_inspectIpa hrun] at hpath
  unfold nativeIcon
  rw [hpath, Prog.bind_apply, Prog.attempt, hrun]
  rfl

theorem nameLe_trans (a b c : IpaBundle) (hab : nameLe lower a b = true)
    (hbc : nameLe lower b c = true) : nameLe lower a c = true :=
  decide_eq_true ((of_decide_eq_true hab).trans (of_decide_eq_true hbc))

theorem nameLe_total (a b : IpaBundle) : (nameLe lower a b || nameLe lower b a) = true := by
  unfold nameLe
  rw [Bool.or_eq_true, decide_eq_true_iff, decide_eq_true_iff]
  exact le_total _ _

theorem perm_sortByName (bundles : List IpaBundle) : (sortByName lower bundles).Perm bundles :=
  List.mergeSort_perm _ _

theorem pairwise_sortByName (bundles : List IpaBundle) :
    (sortByName lower bundles).Pairwise fun a b => sortName lower a ≤ sortName lower b := by
  exact (List.pairwise_mergeSort nameLe_trans nameLe_total bundles).imp
    fun h => of_decide_eq_true h

theorem firstError_ok : ∀ listing : List OsPath, firstError (listing.map .ok) = none
  | [] => rfl
  | _ :: listing => firstError_ok listing

theorem reached_ok : ∀ listing : List OsPath, reached (listing.map .ok) = listing
  | [] => rfl
  | path :: listing => congrArg (path :: ·) (reached_ok listing)

theorem found_ok (listing : List OsPath) : found p lower archives (listing.map .ok) =
    sortByName lower (listing.filterMap (readable p archives)) := by
  rw [found, firstError_ok, reached_ok]

theorem found_error {e : IoErrorKind} (h : .error e ∈ entries) :
    found p lower archives entries = [] := by
  have hsome : firstError entries ≠ none := by
    rw [firstError, Ne, List.findSome?_eq_none_iff]
    exact fun hnone => Option.some_ne_none e (hnone _ h)
  obtain ⟨e', he'⟩ := Option.ne_none_iff_exists'.1 hsome
  rw [found, he']

/-- What was found was inspected. -/
theorem readable_of_mem_found (h : bundle ∈ found p lower archives entries) :
    ∃ path, readable p archives path = some bundle := by
  unfold found at h
  rcases hfirst : firstError entries with _ | e
  · rw [hfirst] at h
    obtain ⟨path, -, hpath⟩ := List.mem_filterMap.1 ((perm_sortByName _).mem_iff.1 h)
    exact ⟨path, hpath⟩
  · rw [hfirst] at h
    cases h

theorem parse_appsToJson {parser : List Char → Option Json} (hparser : Conforming parser)
    (apps : List AppInfo) :
    AppManager.parse parser (appsToJson apps) = some (apps.map AppInfo.row) := by
  rw [AppManager.parse, hparser.read_eq (derives_appsToJson apps)]
  exact mapM_parseRow apps

/-- The rows of the user interface are the apps of the archives in the directory that can be
inspected, in the order of their names, or nothing if an entry of the directory cannot be read.
A row holds the path of its archive exactly if that is UTF-8, and then leads back to it. The scan
returns unless an inspection takes the process down. -/
theorem library_shown (p : Profile) (lower : String → String) (archives : Archives)
    (entries : List (Except IoErrorKind OsPath)) (parser : List Char → Option Json)
    (hparser : Conforming parser) :
    ((∃ json, nativeScan p lower archives (.ok entries) () = .ok json ()) ↔
      ∀ path ∈ reached entries, Inspects p archives path) ∧
    ∀ json, nativeScan p lower archives (.ok entries) () = .ok json () →
      ∃ bundles : List IpaBundle,
        AppManager.parse parser json = some (bundles.map fun b => b.appInfo.row) ∧
        (∀ e, .error e ∈ entries → bundles = []) ∧
        (∀ listing : List OsPath, entries = listing.map .ok →
          bundles.Perm (listing.filterMap (readable p archives)) ∧
          (bundles.Pairwise fun a b => sortName lower a ≤ sortName lower b)) ∧
        ∀ b ∈ bundles,
          (utf8Bytes b.appInfo.row.ipaPath = b.ipaPath ↔ ∃ text, b.ipaPath = utf8Encode text) ∧
          ((∃ text, b.ipaPath = utf8Encode text) →
            nativeIcon p archives b.appInfo.row.ipaPath () =
              .ok (b.metadata.iconPng.getD []) ()) := by
  refine ⟨⟨?_, fun h => ⟨_, nativeScan_eq h⟩⟩, fun json hjson => ?_⟩
  · rintro ⟨json, hjson⟩
    exact safe_nativeScan_iff.1 (Prog.safe_of_ok hjson)
  have hinspects := safe_nativeScan_iff.1 (Prog.safe_of_ok hjson)
  obtain ⟨rfl, -⟩ := Outcome.ok.inj ((nativeScan_eq hinspects).symm.trans hjson)
  refine ⟨found p lower archives entries, ?_, fun e he => found_error he, ?_, fun b hb => ?_⟩
  · rw [parse_appsToJson hparser, List.map_map]
    rfl
  · rintro listing rfl
    rw [found_ok]
    exact ⟨perm_sortByName _, pairwise_sortByName _⟩
  · obtain ⟨path, hpath⟩ := readable_of_mem_found hb
    exact ⟨utf8Bytes_fromUtf8Lossy_eq_iff, fun htext =>
      nativeIcon_of_readable hpath (utf8Bytes_fromUtf8Lossy_eq_iff.2 htext)⟩

/-- An archive with an app of this name, and with an icon or without. -/
def namedIpa (name : String) (icon : Option (List U8)) : OpenArchive where
  fileNames := ["Payload/A.app/Info.plist".toList]
  byName entry :=
    if entry = "Payload/A.app/Info.plist".toList then
      .ok ⟨entry, 100, .ok (utf8Encode ("<plist><dict><key>CFBundleName</key><string>" ++ name ++
        "</string><key>CFBundleIconFile</key><string>i</string></dict></plist>").toList)⟩
    else if entry = "Payload/A.app/i.png".toList then
      icon.elim (.error .fileNotFound) fun bytes => .ok ⟨entry, 3, .ok bytes⟩
    else .error .fileNotFound

/-- What is found in it. -/
def namedBundle (path : OsPath) (name : String) (icon : Option (List U8)) : IpaBundle where
  ipaPath := path
  bundleDir := "Payload/A.app".toList
  executablePath := "Payload/A.app/A".toList
  metadata := ⟨name.toList, [], [], ['A'], icon⟩

/-- Two archives with apps in them. All others are bad. -/
def testArchives : Archives := fun path =>
  if path = utf8Encode "/b.IPA".toList then .ok (namedIpa "B" (some [1, 2, 3]))
  else if path = utf8Encode "/c.ipa".toList then .ok (namedIpa "A" none)
  else .error (.archive "zip open")

set_option maxRecDepth 100000 in
theorem inspectIpa_testArchives (path : OsPath) :
    inspectIpa .release path (testArchives path) () =
      if path = utf8Encode "/b.IPA".toList then .ok (namedBundle path "B" (some [1, 2, 3])) ()
      else if path = utf8Encode "/c.ipa".toList then .ok (namedBundle path "A" none) ()
      else .err (.archive "zip open") () := by
  unfold testArchives
  split_ifs
  · rfl
  · rfl
  · rfl

theorem inspects_testArchives (path : OsPath) : Inspects .release testArchives path := by
  intro _
  have hrun := inspectIpa_testArchives path
  split_ifs at hrun
  · exact Prog.safe_of_ok hrun
  · exact Prog.safe_of_ok hrun
  · exact Prog.safe_of_err hrun

/-- A directory with two apps, a bad archive and a text. -/
def testListing : List OsPath :=
  ["/b.IPA", "/bad.ipa", "/t.txt", "/c.ipa"].map fun path => utf8Encode path.toList

theorem filterMap_testListing : testListing.filterMap (readable .release testArchives) =
    [namedBundle (utf8Encode "/b.IPA".toList) "B" (some [1, 2, 3]),
      namedBundle (utf8Encode "/c.ipa".toList) "A" none] := by
  have hb : readable .release testArchives (utf8Encode "/b.IPA".toList) =
      some (namedBundle (utf8Encode "/b.IPA".toList) "B" (some [1, 2, 3])) :=
    readable_eq_some.2 ⟨by decide, inspectIpa_testArchives _⟩
  have hbad : readable .release testArchives (utf8Encode "/bad.ipa".toList) = none := by
    rw [readable, inspectIpa_testArchives]
    decide
  have htext : readable .release testArchives (utf8Encode "/t.txt".toList) = none :=
    if_neg (by decide)
  have hc : readable .release testArchives (utf8Encode "/c.ipa".toList) =
      some (namedBundle (utf8Encode "/c.ipa".toList) "A" none) :=
    readable_eq_some.2 ⟨by decide, inspectIpa_testArchives _⟩
  simp only [testListing, List.map_cons, List.map_nil]
  rw [List.filterMap_cons_some hb, List.filterMap_cons_none hbad, List.filterMap_cons_none htext,
    List.filterMap_cons_some hc, List.filterMap_nil]

/-- The first of the apps in the listing has an icon, and is shown last. -/
theorem library_shown_two :
    ∃ json, nativeScan .release id testArchives (.ok (testListing.map .ok)) () = .ok json () ∧
      AppManager.parse Json.read json =
        some [⟨"A", "", "", "/c.ipa", false⟩, ⟨"B", "", "", "/b.IPA", true⟩] ∧
      nativeIcon .release testArchives "/b.IPA" () = .ok [1, 2, 3] () := by
  obtain ⟨hreturns, hshown⟩ := library_shown .release id testArchives (testListing.map .ok)
    Json.read conforming_read
  obtain ⟨json, hjson⟩ := hreturns.2 fun path _ => inspects_testArchives path
  obtain ⟨bundles, hrows, -, hlisting, hpaths⟩ := hshown json hjson
  obtain ⟨hperm, hsorted⟩ := hlisting testListing rfl
  rw [filterMap_testListing] at hperm
  set first := namedBundle (utf8Encode "/c.ipa".toList) "A" none with hfirst
  set last := namedBundle (utf8Encode "/b.IPA".toList) "B" (some [1, 2, 3]) with hlast
  have hlt : sortName id first < sortName id last := by decide
  have hmem : ∀ b ∈ bundles, b = last ∨ b = first := fun b hb => by
    simpa using hperm.mem_iff.1 hb
  have hbundles : bundles = [first, last] := by
    refine List.Perm.eq_of_pairwise (fun a b ha hb hab hba => ?_) hsorted
      (by simpa using hlt.le) (hperm.trans (List.Perm.swap _ _ _))
    rcases hmem a ha with rfl | rfl <;>
      rcases hmem b (hperm.mem_iff.2 (by simpa [or_comm] using hb)) with rfl | rfl
    · rfl
    · exact absurd hlt (not_lt_of_ge hab)
    · exact absurd hlt (not_lt_of_ge hba)
    · rfl
  rw [hbundles] at hrows
  refine ⟨json, hjson, ?_, ?_⟩
  · rw [hrows]
    decide
  · exact (hpaths last (by simp [hbundles])).2 ⟨_, rfl⟩

/-! ## The order of the listing -/

/-- The sort keeps the apps of one name in their order. -/
theorem filter_sortByName (bundles : List IpaBundle) (name : String) :
    (sortByName lower bundles).filter (sortName lower · = name) =
      bundles.filter (sortName lower · = name) := by
  have hsorted : (bundles.filter (sortName lower · = name)).Pairwise
      fun a b => nameLe lower a b = true := by
    refine List.pairwise_of_forall_mem_list fun a ha b hb => decide_eq_true ?_
    rw [List.mem_filter, decide_eq_true_iff] at ha hb
    rw [ha.2, hb.2]
  have hsub : (bundles.filter (sortName lower · = name)).Sublist (sortByName lower bundles) :=
    List.sublist_mergeSort nameLe_trans nameLe_total hsorted List.filter_sublist
  have hfilter := hsub.filter (sortName lower · = name)
  rw [List.filter_filter] at hfilter
  simp only [Bool.and_self] at hfilter
  exact (hfilter.eq_of_length ((perm_sortByName bundles).filter _).length_eq.symm).symm

theorem map_sortName_sortByName {bundles bundles' : List IpaBundle} (h : bundles.Perm bundles') :
    (sortByName lower bundles).map (sortName lower) =
      (sortByName lower bundles').map (sortName lower) := by
  have hperm : (sortByName lower bundles).Perm (sortByName lower bundles') :=
    (perm_sortByName bundles).trans (h.trans (perm_sortByName bundles').symm)
  refine (hperm.map _).eq_of_pairwise (fun _ _ _ _ => le_antisymm) ?_ ?_
  · exact List.pairwise_map.2 (pairwise_sortByName bundles)
  · exact List.pairwise_map.2 (pairwise_sortByName bundles')

/-- What depends on the name only is in the same order if the names are. -/
theorem map_eq_map_of_names {β γ : Type} {f : IpaBundle → β} {g : IpaBundle → γ} :
    ∀ {l l' : List IpaBundle}, l.map f = l'.map f →
      (∀ a ∈ l, ∀ b ∈ l', f a = f b → g a = g b) → l.map g = l'.map g
  | [], [], _, _ => rfl
  | [], _ :: _, h, _ => by cases h
  | _ :: _, [], h, _ => by cases h
  | a :: l, b :: l', h, hg => by
    obtain ⟨hhead, htail⟩ := List.cons.inj h
    rw [List.map_cons, List.map_cons, hg a (by simp) b (by simp) hhead,
      map_eq_map_of_names htail fun a ha b hb =>
        hg a (List.mem_cons_of_mem _ ha) b (List.mem_cons_of_mem _ hb)]

/-- The rows, in the order that the user interface has them in. -/
def shownRows (lower : String → String) (bundles : List IpaBundle) : List AppRow :=
  (sortByName lower bundles).map fun b => b.appInfo.row

/-- The apps of one name are the same in every order, for the user interface. -/
def SameRows (lower : String → String) (bundles : List IpaBundle) : Prop :=
  ∀ a ∈ bundles, ∀ b ∈ bundles, sortName lower a = sortName lower b →
    a.appInfo.row = b.appInfo.row

theorem shownRows_perm {bundles bundles' : List IpaBundle} (hsame : SameRows lower bundles)
    (h : bundles'.Perm bundles) : shownRows lower bundles' = shownRows lower bundles := by
  refine map_eq_map_of_names (map_sortName_sortByName h) fun a ha b hb hname => ?_
  exact hsame a (h.mem_iff.1 ((perm_sortByName _).mem_iff.1 ha)) b
    ((perm_sortByName _).mem_iff.1 hb) hname

/-- The rows of one name are in the order of the listing. -/
theorem filter_shownRows (bundles : List IpaBundle) (name : String) :
    (shownRows lower bundles).filter (fun row => lower row.name = name) =
      (bundles.filter (sortName lower · = name)).map fun b => b.appInfo.row := by
  rw [shownRows, List.filter_map, ← filter_sortByName]
  rfl

theorem head_filter_shownRows (bundle : IpaBundle) (bundles : List IpaBundle) :
    ((shownRows lower (bundle :: bundles)).filter
      fun row => lower row.name = sortName lower bundle).head? = some bundle.appInfo.row := by
  simp [filter_shownRows]

theorem rows_eq_of_json {bundles bundles' : List IpaBundle}
    (h : appsToJson ((sortByName lower bundles).map IpaBundle.appInfo) =
      appsToJson ((sortByName lower bundles').map IpaBundle.appInfo)) :
    shownRows lower bundles = shownRows lower bundles' := by
  have hrows := parse_appsToJson conforming_read ((sortByName lower bundles).map IpaBundle.appInfo)
  rw [h, parse_appsToJson conforming_read, Option.some.injEq, List.map_map, List.map_map] at hrows
  exact hrows.symm

theorem json_eq_of_rows {bundles bundles' : List IpaBundle}
    (h : shownRows lower bundles = shownRows lower bundles') :
    appsToJson ((sortByName lower bundles).map IpaBundle.appInfo) =
      appsToJson ((sortByName lower bundles').map IpaBundle.appInfo) := by
  refine appsToJson_congr ?_
  rw [List.map_map, List.map_map]
  exact h

/-- Where no two archives have one path, and the paths are texts, rows tell the apps apart. -/
theorem sameRows_iff_nodup {listing : List OsPath} (hnodup : listing.Nodup)
    (htexts : ∀ path ∈ listing, ∃ text, path = utf8Encode text) :
    SameRows lower (listing.filterMap (readable p archives)) ↔
      ((listing.filterMap (readable p archives)).map (sortName lower)).Nodup := by
  have hbundles : (listing.filterMap (readable p archives)).Nodup :=
    hnodup.filterMap fun path path' bundle hb hb' => by
      rw [← ipaPath_of_readable hb, ipaPath_of_readable hb']
  rw [List.nodup_map_iff_inj_on hbundles]
  refine forall₂_congr fun a ha => forall₂_congr fun b hb => imp_congr_right fun hname => ?_
  refine ⟨fun hrow => ?_, fun heq => by rw [heq]⟩
  obtain ⟨path, hpath, hreadable⟩ := List.mem_filterMap.1 ha
  obtain ⟨path', hpath', hreadable'⟩ := List.mem_filterMap.1 hb
  have htext : utf8Bytes (fromUtf8Lossy path) = path :=
    utf8Bytes_fromUtf8Lossy_eq_iff.2 (htexts path hpath)
  have htext' : utf8Bytes (fromUtf8Lossy path') = path' :=
    utf8Bytes_fromUtf8Lossy_eq_iff.2 (htexts path' hpath')
  have hlossy : fromUtf8Lossy path = fromUtf8Lossy path' := by
    rw [← ipaPath_of_readable hreadable, ← ipaPath_of_readable hreadable']
    exact congrArg AppRow.ipaPath hrow
  have hpaths : path = path' := by rw [← htext, hlossy, htext']
  rw [hpaths, hreadable'] at hreadable
  exact (Option.some.inj hreadable).symm

theorem nativeScan_listing {l listing : List OsPath}
    (hinspects : ∀ path ∈ listing, Inspects p archives path) (hl : l.Perm listing) :
    nativeScan p lower archives (.ok (l.map .ok)) () =
      .ok (appsToJson ((sortByName lower (l.filterMap (readable p archives))).map
        IpaBundle.appInfo)) () := by
  rw [nativeScan_eq, found_ok]
  rw [reached_ok]
  exact fun path hpath => hinspects path (hl.mem_iff.1 hpath)

/-- With the archive of an app first in the listing, the app is the first of its name that is
shown. So what is shown tells the order, unless the rows are equal. -/
theorem nativeScan_perm_iff {listing : List OsPath}
    (hinspects : ∀ path ∈ listing, Inspects p archives path) :
    (∀ l : List OsPath, l.Perm listing → nativeScan p lower archives (.ok (l.map .ok)) () =
        nativeScan p lower archives (.ok (listing.map .ok)) ()) ↔
      SameRows lower (listing.filterMap (readable p archives)) := by
  have hscan := fun l hl => @nativeScan_listing p lower archives l listing hinspects hl
  constructor
  · intro h a ha b hb hname
    have hfirst : ∀ c ∈ listing.filterMap (readable p archives),
        ((shownRows lower (listing.filterMap (readable p archives))).filter
          fun row => lower row.name = sortName lower c).head? = some c.appInfo.row := by
      intro c hc
      obtain ⟨path, hpath, hreadable⟩ := List.mem_filterMap.1 hc
      have hperm := (List.perm_cons_erase hpath).symm
      have hjson := (hscan _ hperm).symm.trans ((h _ hperm).trans (hscan _ (List.Perm.refl _)))
      rw [List.filterMap_cons_some hreadable] at hjson
      rw [← rows_eq_of_json (Outcome.ok.inj hjson).1]
      exact head_filter_shownRows c _
    have ha' := hfirst a ha
    rw [hname, hfirst b hb, Option.some.injEq] at ha'
    exact ha'.symm
  · intro h l hl
    rw [hscan l hl, hscan listing (List.Perm.refl _),
      json_eq_of_rows (shownRows_perm h (hl.filterMap _))]

/-- The apps are in the order of their names, and those of one name in the order of the listing.
So the listing can come in any order, and what is shown is the same, exactly if apps of one name
have equal rows. For paths that are texts and all different, that is exactly if no two apps have
one name. -/
theorem library_order (p : Profile) (lower : String → String) (archives : Archives)
    (listing : List OsPath) (hinspects : ∀ path ∈ listing, Inspects p archives path) :
    (∃ bundles : List IpaBundle,
      nativeScan p lower archives (.ok (listing.map .ok)) () =
        .ok (appsToJson (bundles.map IpaBundle.appInfo)) () ∧
      (bundles.Pairwise fun a b => sortName lower a ≤ sortName lower b) ∧
      ∀ name, bundles.filter (sortName lower · = name) =
        (listing.filterMap (readable p archives)).filter (sortName lower · = name)) ∧
    ((∀ l : List OsPath, l.Perm listing → nativeScan p lower archives (.ok (l.map .ok)) () =
        nativeScan p lower archives (.ok (listing.map .ok)) ()) ↔
      SameRows lower (listing.filterMap (readable p archives))) ∧
    (listing.Nodup → (∀ path ∈ listing, ∃ text, path = utf8Encode text) →
      ((∀ l : List OsPath, l.Perm listing → nativeScan p lower archives (.ok (l.map .ok)) () =
          nativeScan p lower archives (.ok (listing.map .ok)) ()) ↔
        ((listing.filterMap (readable p archives)).map (sortName lower)).Nodup)) := by
  exact ⟨⟨_, nativeScan_listing hinspects (List.Perm.refl _), pairwise_sortByName _,
    filter_sortByName _⟩, nativeScan_perm_iff hinspects, fun hnodup htexts =>
      (nativeScan_perm_iff hinspects).trans (sameRows_iff_nodup hnodup htexts)⟩

/-- Archives with an app of one name, up to case. -/
def twinArchives : Archives := fun path =>
  .ok (namedIpa (if path = utf8Encode "/b.ipa".toList then "B" else "b") none)

/-- Only ASCII letters are lowered. -/
def asciiLower (name : String) : String :=
  String.ofList (name.toList.map Char.toLower)

set_option maxRecDepth 100000 in
theorem inspectIpa_twinArchives (path : OsPath) :
    inspectIpa .release path (twinArchives path) () =
      .ok (namedBundle path (if path = utf8Encode "/b.ipa".toList then "B" else "b") none) () := by
  unfold twinArchives
  split_ifs
  · rfl
  · rfl

theorem readable_twinArchives {path : OsPath} (h : isIpa path = true) :
    readable .release twinArchives path =
      some (namedBundle path (if path = utf8Encode "/b.ipa".toList then "B" else "b") none) :=
  readable_eq_some.2 ⟨h, inspectIpa_twinArchives path⟩

/-- Two archives with apps of one name : the one listed first is shown first, so one listing of
them is shown in another order. -/
theorem library_order_twice :
    (∃ a b : AppInfo, a.ipaPath = "/b.ipa" ∧ b.ipaPath = "/a.ipa" ∧
      nativeScan .release asciiLower twinArchives
        (.ok (["/b.ipa", "/a.ipa"].map fun path => .ok (utf8Encode path.toList))) () =
          .ok (appsToJson [a, b]) ()) ∧
    ¬∀ l : List OsPath, l.Perm (["/b.ipa", "/a.ipa"].map fun path => utf8Encode path.toList) →
      nativeScan .release asciiLower twinArchives (.ok (l.map .ok)) () =
        nativeScan .release asciiLower twinArchives
          (.ok (["/b.ipa", "/a.ipa"].map fun path => .ok (utf8Encode path.toList))) () := by
  obtain ⟨⟨bundles, hscan, -, hnames⟩, hsame, -⟩ := library_order .release asciiLower twinArchives
    (["/b.ipa", "/a.ipa"].map fun path => utf8Encode path.toList)
    fun path _ _ => Prog.safe_of_ok (inspectIpa_twinArchives path)
  have hreadable : (["/b.ipa", "/a.ipa"].map fun path => utf8Encode path.toList).filterMap
      (readable .release twinArchives) =
        [namedBundle (utf8Encode "/b.ipa".toList) "B" none,
          namedBundle (utf8Encode "/a.ipa".toList) "b" none] := by
    simp only [List.map_cons, List.map_nil]
    rw [List.filterMap_cons_some (readable_twinArchives (by decide)),
      List.filterMap_cons_some (readable_twinArchives (by decide)), List.filterMap_nil]
    rfl
  rw [hreadable] at hnames hsame
  set B := namedBundle (utf8Encode "/b.ipa".toList) "B" none with hB
  set b := namedBundle (utf8Encode "/a.ipa".toList) "b" none with hb
  have hname : ∀ c ∈ [B, b], sortName asciiLower c = "b" := by
    rw [List.forall_mem_cons, List.forall_mem_singleton]
    decide
  have hmem : ∀ c ∈ bundles, c ∈ [B, b] := by
    intro c hc
    have hfilter : c ∈ bundles.filter (sortName asciiLower · = sortName asciiLower c) :=
      List.mem_filter.2 ⟨hc, decide_eq_true rfl⟩
    rw [hnames] at hfilter
    exact (List.mem_filter.1 hfilter).1
  have hbundles : bundles = [B, b] := by
    have hall := hnames "b"
    rwa [List.filter_eq_self.2 fun c hc => decide_eq_true (hname c (hmem c hc)),
      List.filter_eq_self.2 fun c hc => decide_eq_true (hname c hc)] at hall
  subst hbundles
  refine ⟨⟨B.appInfo, b.appInfo, by decide, by decide, hscan⟩, fun h => ?_⟩
  have hrow := hsame.1 h B (by simp) b (by simp) (by rw [hname B (by simp), hname b (by simp)])
  exact absurd (congrArg AppRow.name hrow) (by decide)

end Shown

end IosEmu
