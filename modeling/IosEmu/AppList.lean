import IosEmu.JsonGrammar

/-!
# The app list on its way to the user interface

The native library hands the list of apps over as a JSON text that it writes by hand
(`appsToJson`), and the app manager parses the text and reads the fields of each object by
their names (`AppManager.parse`). The parser is the one of the platform, so it is a parameter
here, and what is assumed of it is that it conforms to the grammar.

Every text that is written is JSON, whatever is in the strings, and what is read from it is
the list (`app_list_survives`).
-/

open SysLib

namespace IosEmu

/-! ## Writing -/

/-- What is shown of an app. -/
structure AppInfo where
  name : String
  bundleIdentifier : String
  minimumOsVersion : String
  ipaPath : String
  iconPng : Option (List U8)

/-- `{:04x}`. -/
def hex4 (n : ℕ) : String :=
  let digits := Nat.toDigits 16 n
  String.ofList (List.replicate (4 - digits.length) '0' ++ digits)

/-- A character as it is written in a string. -/
def jsonEscapeChar (c : Char) : String :=
  if c = '"' then "\\\""
  else if c = '\\' then "\\\\"
  else if c = '\n' then "\\n"
  else if c = '\r' then "\\r"
  else if c = '\t' then "\\t"
  else if c.toNat < 0x20 then "\\u" ++ hex4 c.toNat
  else String.singleton c

def jsonEscape (s : String) : String :=
  s.toList.foldl (fun out c => out ++ jsonEscapeChar c) ""

/-- The object of an app. -/
def appObject (a : AppInfo) : String :=
  "\x7b\"name\":\"" ++ jsonEscape a.name ++ "\",\"bundleId\":\"" ++
    jsonEscape a.bundleIdentifier ++ "\",\"minOs\":\"" ++ jsonEscape a.minimumOsVersion ++
    "\",\"ipaPath\":\"" ++ jsonEscape a.ipaPath ++ "\",\"hasIcon\":" ++
    (if a.iconPng.isSome then "true" else "false") ++ "\x7d"

def appsToJson (apps : List AppInfo) : String :=
  (apps.zipIdx.foldl (fun out p => (if 0 < p.2 then out.push ',' else out) ++ appObject p.1)
    "[").push ']'

/-! ## Reading -/

/-- A field of an object. If a name occurs more than once, the last one counts. -/
def opt (members : List (List Char × Json)) (name : String) : Option Json :=
  members.reverse.lookup name.toList

/-- `optString`. The text that a value of another kind is turned into is left out. -/
def optString (members : List (List Char × Json)) (name : String) : Option String :=
  match opt members name with
  | none => some ""
  | some (.str s) => some (String.ofList s)
  | some _ => none

def optBoolean (members : List (List Char × Json)) (name : String) (fallback : Bool) : Bool :=
  match opt members name with
  | some (.bool b) => b
  | some (.str s) =>
    if s.map Char.toLower = "true".toList then true
    else if s.map Char.toLower = "false".toList then false
    else fallback
  | _ => fallback

/-- What is read of an app, before a blank name is replaced. -/
structure AppRow where
  name : String
  bundleId : String
  minOs : String
  ipaPath : String
  hasIcon : Bool
  deriving DecidableEq

namespace AppManager

/-- `getJSONObject` throws at what is not an object. -/
def parseRow : Json → Option AppRow
  | .obj o => do
    let name ← optString o "name"
    let bundleId ← optString o "bundleId"
    let minOs ← optString o "minOs"
    let ipaPath ← optString o "ipaPath"
    return { name, bundleId, minOs, ipaPath, hasIcon := optBoolean o "hasIcon" false }
  | _ => none

/-- A text that is not an array is read as an empty list. -/
def parse (parser : List Char → Option Json) (json : String) : Option (List AppRow) :=
  match parser json.toList with
  | some (.arr l) => l.mapM parseRow
  | _ => some []

end AppManager

/-! ## Strings -/

open Json

theorem toList_foldl_append {α : Type} (f : α → String) : ∀ (l : List α) (out : String),
    (l.foldl (fun out a => out ++ f a) out).toList = out.toList ++ l.flatMap fun a => (f a).toList
  | [], out => by simp
  | a :: l, out => by
    rw [List.foldl_cons, toList_foldl_append f l, String.toList_append, List.flatMap_cons,
      List.append_assoc]

theorem toList_jsonEscape (s : String) :
    (jsonEscape s).toList = s.toList.flatMap fun c => (jsonEscapeChar c).toList :=
  toList_foldl_append jsonEscapeChar s.toList ""

theorem hexUnit_append {l s : List Char} {n : ℕ} (r : List Char) (h : hexUnit l = some (n, s)) :
    hexUnit (l ++ r) = some (n, s ++ r) := by
  match l, h with
  | a :: b :: c :: d :: l, h =>
    simp only [hexUnit, Option.bind_eq_bind, Option.bind_eq_some_iff, Option.pure_def,
      Option.some.injEq, Prod.mk.injEq] at h
    obtain ⟨_, ha, _, hb, _, hc, _, hd, rfl, rfl⟩ := h
    simp [hexUnit, ha, hb, hc, hd]

theorem hexUnit_hex4_nil : ∀ n < 0x20, hexUnit (hex4 n).toList = some (n, []) := by
  decide

/-- The escape of a control character is read back. -/
theorem hexUnit_hex4 {n : ℕ} (hn : n < 0x20) (r : List Char) :
    hexUnit ((hex4 n).toList ++ r) = some (n, r) :=
  hexUnit_append r (hexUnit_hex4_nil n hn)

/-- A character is read back from what is written for it. -/
theorem chars_jsonEscapeChar (c : Char) {s t r : List Char} (h : Chars s t r) :
    Chars ((jsonEscapeChar c).toList ++ s) (c :: t) r := by
  unfold jsonEscapeChar
  split_ifs with h₁ h₂ h₃ h₄ h₅ h₆
  · exact Chars.escape (by rw [h₁]; rfl) h
  · exact Chars.escape (by rw [h₂]; rfl) h
  · exact Chars.escape (by rw [h₃]; rfl) h
  · exact Chars.escape (by rw [h₄]; rfl) h
  · exact Chars.escape (by rw [h₅]; rfl) h
  · rw [String.toList_append, List.append_assoc]
    have hunit := hexUnit_hex4 h₆ s
    have hchars := Chars.unit hunit (by unfold IsHigh; omega) (by unfold IsLow; omega) h
    rwa [Char.ofNat_toNat] at hchars
  · rw [String.toList_singleton]
    exact Chars.plain ⟨not_lt.1 h₆, h₁, h₂⟩ h

/-- A string is read back up to its closing quote. -/
theorem chars_jsonEscape (s : String) (r : List Char) :
    Chars ((jsonEscape s).toList ++ '"' :: r) s.toList r := by
  rw [toList_jsonEscape]
  induction s.toList with
  | nil => exact Chars.close
  | cons c l ih =>
    rw [List.flatMap_cons, List.append_assoc]
    exact chars_jsonEscapeChar c ih

/-! ## Objects -/

/-- The value that is written for an app. -/
def AppInfo.json (a : AppInfo) : Json :=
  .obj [("name".toList, .str a.name.toList),
    ("bundleId".toList, .str a.bundleIdentifier.toList),
    ("minOs".toList, .str a.minimumOsVersion.toList), ("ipaPath".toList, .str a.ipaPath.toList),
    ("hasIcon".toList, .bool a.iconPng.isSome)]

/-- A name without escapes. -/
theorem chars_plain : ∀ (k : List Char) (r : List Char), (∀ c ∈ k, Unescaped c) →
    Chars (k ++ '"' :: r) k r
  | [], _, _ => Chars.close
  | c :: k, r, h => Chars.plain (h c List.mem_cons_self)
      (chars_plain k r fun d hd => h d (List.mem_cons_of_mem c hd))

/-- A field with a string, in front of others. -/
theorem members_string (k : List Char) (hk : ∀ c ∈ k, Unescaped c) (t : String)
    {s r : List Char} {l : List (List Char × Json)} (h : Members s l r) :
    Members ('"' :: (k ++ '"' :: ':' :: '"' :: ((jsonEscape t).toList ++ '"' :: ',' :: s)))
      ((k, .str t.toList) :: l) r :=
  .more .nil (chars_plain k _ hk) .nil .nil (.str (chars_jsonEscape t _)) .nil h

theorem value_bool (b : Bool) (r : List Char) :
    Value ((if b then "true" else "false").toList ++ r) (.bool b) r := by
  cases b with
  | false => exact .false
  | true => exact .true

/-- A field with a truth value, at the end. -/
theorem members_bool (k : List Char) (hk : ∀ c ∈ k, Unescaped c) (b : Bool) (r : List Char) :
    Members ('"' :: (k ++ '"' :: ':' :: ((if b then "true" else "false").toList ++ '}' :: r)))
      [(k, .bool b)] r :=
  .last .nil (chars_plain k _ hk) .nil .nil (value_bool b _) .nil

theorem unescaped_keys : ∀ k ∈ ["name", "bundleId", "minOs", "ipaPath", "hasIcon"],
    ∀ c ∈ k.toList, Unescaped c := by
  simp [Unescaped]

/-- The pieces of the format string around what it is filled with. -/
theorem toList_format (name bundleId minOs ipaPath hasIcon : String) (r : List Char) :
    ("\x7b\"name\":\"" ++ name ++ "\",\"bundleId\":\"" ++ bundleId ++ "\",\"minOs\":\"" ++
      minOs ++ "\",\"ipaPath\":\"" ++ ipaPath ++ "\",\"hasIcon\":" ++ hasIcon ++
      "\x7d").toList ++ r =
    '{' :: '"' :: ("name".toList ++ '"' :: ':' :: '"' :: (name.toList ++
    '"' :: ',' :: '"' :: ("bundleId".toList ++ '"' :: ':' :: '"' :: (bundleId.toList ++
    '"' :: ',' :: '"' :: ("minOs".toList ++ '"' :: ':' :: '"' :: (minOs.toList ++
    '"' :: ',' :: '"' :: ("ipaPath".toList ++ '"' :: ':' :: '"' :: (ipaPath.toList ++
    '"' :: ',' :: '"' :: ("hasIcon".toList ++ '"' :: ':' :: (hasIcon.toList ++
      '}' :: r)))))))))) := by
  simp [String.toList_append]

/-- The object of an app is read back. -/
theorem value_appObject (a : AppInfo) (r : List Char) :
    Value ((appObject a).toList ++ r) a.json r := by
  have hkeys := unescaped_keys
  simp only [List.forall_mem_cons] at hkeys
  obtain ⟨hname, hbundle, hos, hpath, hicon, -⟩ := hkeys
  unfold appObject
  rw [toList_format]
  exact .obj (members_string _ hname a.name (members_string _ hbundle a.bundleIdentifier
    (members_string _ hos a.minimumOsVersion (members_string _ hpath a.ipaPath
      (members_bool _ hicon a.iconPng.isSome r)))))

/-! ## The list -/

theorem toList_foldl_objects : ∀ (apps : List AppInfo) (k : ℕ) (out : String), 0 < k →
    ((apps.zipIdx k).foldl
      (fun out p => (if 0 < p.2 then out.push ',' else out) ++ appObject p.1) out).toList =
      out.toList ++ apps.flatMap fun a => ',' :: (appObject a).toList
  | [], _, out, _ => by simp
  | a :: apps, k, out, hk => by
    rw [List.zipIdx_cons, List.foldl_cons, toList_foldl_objects apps (k + 1) _ (Nat.succ_pos k)]
    simp [hk]

/-- The objects stand between brackets, with commas between them. -/
theorem toList_appsToJson_cons (a : AppInfo) (apps : List AppInfo) :
    (appsToJson (a :: apps)).toList = '[' :: ((appObject a).toList ++
      ((apps.flatMap fun a => ',' :: (appObject a).toList) ++ [']'])) := by
  rw [appsToJson, String.toList_push, List.zipIdx_cons, List.foldl_cons,
    toList_foldl_objects apps 1 _ Nat.one_pos]
  simp

theorem elements_objects : ∀ (a : AppInfo) (apps : List AppInfo),
    Elements ((appObject a).toList ++ ((apps.flatMap fun a => ',' :: (appObject a).toList) ++
      [']'])) ((a :: apps).map AppInfo.json) []
  | a, [] => .last .nil (value_appObject a _) .nil
  | a, b :: apps => by
    rw [List.flatMap_cons, List.append_assoc, List.map_cons]
    exact .more .nil (value_appObject a _) .nil (elements_objects b apps)

/-- What is written is JSON for the list of the objects. -/
theorem derives_appsToJson (apps : List AppInfo) :
    Derives (appsToJson apps).toList (.arr (apps.map AppInfo.json)) := by
  refine ⟨_, [], .nil, ?_, .nil⟩
  cases apps with
  | nil => exact .emptyArr .nil
  | cons a apps =>
    rw [toList_appsToJson_cons]
    exact .arr (elements_objects a apps)

/-- What is there to read of an app. -/
def AppInfo.row (a : AppInfo) : AppRow where
  name := a.name
  bundleId := a.bundleIdentifier
  minOs := a.minimumOsVersion
  ipaPath := a.ipaPath
  hasIcon := a.iconPng.isSome

/-- What is written depends on the rows only. -/
theorem appObject_congr {a b : AppInfo} (h : a.row = b.row) : appObject a = appObject b := by
  simp only [AppInfo.row, AppRow.mk.injEq] at h
  obtain ⟨hname, hbundle, hos, hpath, hicon⟩ := h
  unfold appObject
  rw [hname, hbundle, hos, hpath, hicon]

theorem appsToJson_congr {apps apps' : List AppInfo} (h : apps.map AppInfo.row = apps'.map
    AppInfo.row) : appsToJson apps = appsToJson apps' := by
  have hobjects : ∀ (l l' : List AppInfo) (k : ℕ) (out : String),
      l.map AppInfo.row = l'.map AppInfo.row →
        (l.zipIdx k).foldl (fun out p => (if 0 < p.2 then out.push ',' else out) ++
          appObject p.1) out =
        (l'.zipIdx k).foldl (fun out p => (if 0 < p.2 then out.push ',' else out) ++
          appObject p.1) out := by
    intro l
    induction l with
    | nil =>
      intro l' k out h
      rw [List.map_eq_nil_iff.1 h.symm]
    | cons a l ih =>
      intro l' k out h
      cases l' with
      | nil => cases h
      | cons b l' =>
        obtain ⟨hrow, hrest⟩ := List.cons.inj h
        rw [List.zipIdx_cons, List.zipIdx_cons, List.foldl_cons, List.foldl_cons,
          appObject_congr hrow, ih l' (k + 1) _ hrest]
  rw [appsToJson, appsToJson, hobjects apps apps' 0 "[" h]

theorem parseRow_json (a : AppInfo) : AppManager.parseRow a.json = some a.row := by
  have hstring (l : List (List Char × Json)) (name : String) (t : String)
      (h : opt l name = some (.str t.toList)) : optString l name = some t := by
    rw [optString, h]
    simp
  rw [AppInfo.json, AppManager.parseRow, hstring _ _ a.name rfl, hstring _ _ a.bundleIdentifier rfl,
    hstring _ _ a.minimumOsVersion rfl, hstring _ _ a.ipaPath rfl]
  rfl

theorem mapM_parseRow : ∀ apps : List AppInfo,
    (apps.map AppInfo.json).mapM AppManager.parseRow = some (apps.map AppInfo.row)
  | [] => rfl
  | a :: apps => by
    rw [List.map_cons, List.mapM_cons, parseRow_json, mapM_parseRow apps]
    rfl

/-- The list of apps is written as a JSON text, and a parser that conforms to the grammar gives
it back. -/
theorem app_list_survives (parser : List Char → Option Json) (hparser : Conforming parser)
    (apps : List AppInfo) :
    (∃ v, Derives (appsToJson apps).toList v) ∧
      AppManager.parse parser (appsToJson apps) = some (apps.map AppInfo.row) := by
  have hderives := derives_appsToJson apps
  refine ⟨⟨_, hderives⟩, ?_⟩
  rw [AppManager.parse, hparser.read_eq hderives]
  exact mapM_parseRow apps

/-- A name with a quote, a backslash and control characters closes no string and adds no
field. -/
theorem app_list_survives_hostile :
    Conforming Json.read ∧
      AppManager.parse Json.read (appsToJson
        [⟨"a\\\",\"ipaPath\":\"/etc", "com.\n\x00", "", "/IPAs/\t.ipa", some []⟩,
          ⟨"", "", "", "", none⟩]) =
        some [⟨"a\\\",\"ipaPath\":\"/etc", "com.\n\x00", "", "/IPAs/\t.ipa", true⟩,
          ⟨"", "", "", "", false⟩] :=
  ⟨conforming_read, (app_list_survives Json.read conforming_read _).2⟩

end IosEmu
