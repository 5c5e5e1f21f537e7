import IosEmu.CStrings
import IosEmu.Descriptors
import IosEmu.PathRouting

/-!
# Guest paths that share a host file

`sysOpen` takes the text of a path from guest memory : at most 1024 bytes, ill-formed UTF-8
replaced, without the white space around it. `translate` sends two texts to the same host path
exactly if they are below the same kind of directory and lead to the same names, or if the
container and the image overlap (`components_eq_iff`).

So two byte strings that differ only in what the cap, the decoder and the trimming drop are the
same host file. `distinct_files_iff` is the exact condition, and says that strings none of these
touches keep their files apart.
-/

open SysLib

namespace IosEmu

/-- UTF-8 keeps separators and dots. -/
theorem keepsMarks_utf8Char : KeepsMarks utf8Char '/' '.' (0x2f : U8) 0x2e where
  ne_nil c := List.ne_nil_of_length_pos (length_utf8Char_pos c)
  sep_eq := rfl
  dot_eq := rfl
  eq_sep c h := by
    have hmem := @mem_of_mem_utf8Encode 0x2f (by decide) [c] (by simpa using h)
    exact (List.mem_singleton.1 hmem).symm
  eq_dot c h := by
    have hmem := @mem_of_mem_utf8Encode 0x2e (by decide) [c] (by simpa using h)
    exact (List.mem_singleton.1 hmem).symm

/-- The call in `c` asks for the host path. -/
def SyscallCtx.Resolves (vfs : Sandbox) (c : SyscallCtx) (host : UnixPath) : Prop :=
  ∃ iosPath ro, c.mem.readCstr (c.cpu.arg 0) 1024 = .ok iosPath ∧
    vfs.translate iosPath.toList = .ok (host, ro)

namespace Sandbox

/-! ## When two texts share a host path -/

theorem components_of_spelledBelow {dir path : List Char} {comps : List UnixPath}
    (h : SpelledBelow dir path comps) (base : UnixPath) :
    (base.pushAll comps).components = base.components ++ comps.map Component.normal := by
  obtain ⟨rest, -, hn⟩ := spelledBelow_iff.1 h
  exact UnixPath.components_pushAll comps base fun c hc => (clean_normalizeIosPath hn c hc).1

theorem components_systemBase (sb : Sandbox) {tree : String} (h : tree ∈ systemTrees) :
    (sb.systemBase tree).components =
      sb.systemRoot.components ++ (lexicalPath tree.toList).map Component.normal := by
  simp only [systemTrees, List.mem_cons, List.not_mem_nil, or_false] at h
  rcases h with rfl | rfl | rfl | rfl | rfl
  · exact UnixPath.components_push (c := "System".toList) (by decide)
  · exact UnixPath.components_push (c := "usr".toList) (by decide)
  · exact UnixPath.components_push (c := "Library".toList) (by decide)
  · have hdb : sb.systemBase "/private/var/db" =
        sb.systemRoot.pushAll ["private".toList, "var".toList, "db".toList] := by
      rw [UnixPath.pushAll, List.foldl_cons, List.foldl_cons, List.foldl_cons, List.foldl_nil,
        ← UnixPath.push_append_sep (by decide) (by decide),
        ← UnixPath.push_append_sep (by decide) (by decide)]
      rfl
    rw [hdb]
    exact UnixPath.components_pushAll _ _ (by decide)
  · exact UnixPath.components_push (c := "Applications".toList) (by decide)

theorem spelledBelow_unique {dir path : List Char} {comps comps' : List UnixPath}
    (h : SpelledBelow dir path comps) (h' : SpelledBelow dir path comps') : comps = comps' :=
  List.append_cancel_left
    ((lexicalPath_of_spelledBelow h).symm.trans (lexicalPath_of_spelledBelow h'))

/-- No path is spelled below the container and below a system tree. -/
theorem not_inSystem_of_inContainer {sb : Sandbox} (hvar : "/v".toList <+: sb.iosPrefix)
    {p : List Char} (h : sb.SpelledInContainer p) : ¬SpelledInSystem p := by
  rintro ⟨tree, htree, comps', rest', heq', -⟩
  obtain ⟨comps, rest, heq, -⟩ := h
  have hcontainer : sb.IsRouted sb.iosPrefix := Or.inl rfl
  have hsystem : sb.IsRouted tree.toList := Or.inr ⟨tree, htree, rfl⟩
  have htake : p.take 2 = sb.iosPrefix.take 2 := by
    rw [heq, List.take_append_of_le_length (hcontainer.two_le hvar)]
  have htake' : p.take 2 = tree.toList.take 2 := by
    rw [heq', List.take_append_of_le_length (hsystem.two_le hvar)]
  refine (eq_of_take_two tree htree).2.1 ?_
  rw [← htake', htake]
  exact (List.prefix_iff_eq_take.1 hvar).symm

/-- A path of the container and one of the image that are the same host path, since the
directories on the host overlap. -/
def MeetsImage (sb : Sandbox) (p q : List Char) : Prop :=
  ∃ comps, SpelledBelow sb.iosPrefix p comps ∧
    ∃ tree ∈ systemTrees, ∃ comps', SpelledBelow tree.toList q comps' ∧
      sb.hostRoot.components ++ comps.map Component.normal =
        (sb.systemBase tree).components ++ comps'.map Component.normal

/-- Two absolute texts lead to the same host path : they are below the same kind of directory
and lead to the same names, or the directories overlap. -/
def Meets (sb : Sandbox) (p q : List Char) : Prop :=
  ((sb.SpelledInContainer p ↔ sb.SpelledInContainer q) ∧ lexicalPath p = lexicalPath q) ∨
    sb.MeetsImage p q ∨ sb.MeetsImage q p

section Meets

variable {sb : Sandbox} {p q : List Char} {comps comps' : List UnixPath}

theorem meets_container (hvar : "/v".toList <+: sb.iosPrefix)
    (hp : SpelledBelow sb.iosPrefix p comps) (hq : SpelledBelow sb.iosPrefix q comps') :
    sb.Meets p q ↔ comps = comps' := by
  have hno : ∀ {p q : List Char}, sb.SpelledInContainer q → ¬sb.MeetsImage p q := by
    rintro p q hq ⟨comps, -, tree, htree, comps', hspelled, -⟩
    exact not_inSystem_of_inContainer hvar hq ⟨tree, htree, comps', hspelled⟩
  rw [Meets, or_iff_left (not_or.2 ⟨hno ⟨_, hq⟩, hno ⟨_, hp⟩⟩),
    and_iff_right (iff_of_true ⟨_, hp⟩ ⟨_, hq⟩), lexicalPath_of_spelledBelow hp,
    lexicalPath_of_spelledBelow hq, List.append_cancel_left_eq]

theorem meets_system (hvar : "/v".toList <+: sb.iosPrefix) (hp : SpelledInSystem p)
    (hq : SpelledInSystem q) : sb.Meets p q ↔ lexicalPath p = lexicalPath q := by
  have hno : ∀ {p : List Char}, SpelledInSystem p → ¬sb.SpelledInContainer p := fun h h' =>
    not_inSystem_of_inContainer hvar h' h
  have hno' : ∀ {p q : List Char}, SpelledInSystem p → ¬sb.MeetsImage p q := by
    rintro p q hp ⟨comps, hspelled, -⟩
    exact hno hp ⟨comps, hspelled⟩
  rw [Meets, or_iff_left (not_or.2 ⟨hno' hp, hno' hq⟩), and_iff_right (iff_of_false (hno hp) (hno hq))]

theorem meets_mixed (hvar : "/v".toList <+: sb.iosPrefix)
    (hp : SpelledBelow sb.iosPrefix p comps) {tree : String} (htree : tree ∈ systemTrees)
    (hq : SpelledBelow tree.toList q comps') :
    sb.Meets p q ↔ sb.hostRoot.components ++ comps.map Component.normal =
      (sb.systemBase tree).components ++ comps'.map Component.normal := by
  have hcontainer : ¬sb.SpelledInContainer q := fun h =>
    not_inSystem_of_inContainer hvar h ⟨tree, htree, comps', hq⟩
  have hleft : ¬((sb.SpelledInContainer p ↔ sb.SpelledInContainer q) ∧
      lexicalPath p = lexicalPath q) := fun h => hcontainer (h.1.1 ⟨comps, hp⟩)
  have hright : ¬sb.MeetsImage q p := fun ⟨comps, hspelled, _⟩ => hcontainer ⟨comps, hspelled⟩
  rw [Meets, or_iff_right hleft, or_iff_left hright]
  constructor
  · rintro ⟨c, hc, tree', htree', c', hc', heq⟩
    obtain rfl := spelledBelow_unique hp hc
    obtain ⟨rfl, rfl⟩ := eq_of_spelledBelow rfl htree htree' hq hc'
    exact heq
  · intro heq
    exact ⟨comps, hp, tree, htree, comps', hq, heq⟩

theorem Meets.symm (h : sb.Meets p q) : sb.Meets q p := by
  rcases h with ⟨hkind, hlex⟩ | h | h
  · exact Or.inl ⟨hkind.symm, hlex.symm⟩
  · exact Or.inr (Or.inr h)
  · exact Or.inr (Or.inl h)

/-- Two texts that are translated lead to the same host path exactly if they meet. -/
theorem components_eq_iff (hvar : "/v".toList <+: sb.iosPrefix) {host host' : UnixPath}
    {ro ro' : Bool} (hp : sb.translate p = .ok (host, ro)) (hq : sb.translate q = .ok (host', ro')) :
    host.components = host'.components ↔ sb.Meets (sb.absolutePath p) (sb.absolutePath q) := by
  have hinj : Function.Injective (List.map Component.normal) :=
    List.map_injective_iff.2 fun _ _ => Component.normal.inj
  rcases ro with _ | _ <;> rcases ro' with _ | _
  · obtain ⟨comps, hsp, rfl⟩ := translate_container_iff.1 hp
    obtain ⟨comps', hsq, rfl⟩ := translate_container_iff.1 hq
    rw [meets_container hvar hsp hsq, components_of_spelledBelow hsp,
      components_of_spelledBelow hsq, List.append_cancel_left_eq, hinj.eq_iff]
  · obtain ⟨comps, hsp, rfl⟩ := translate_container_iff.1 hp
    obtain ⟨tree, htree, comps', hsq, rfl⟩ := (translate_system_iff hvar).1 hq
    rw [meets_mixed hvar hsp htree hsq, components_of_spelledBelow hsp,
      components_of_spelledBelow hsq]
  · obtain ⟨tree, htree, comps, hsp, rfl⟩ := (translate_system_iff hvar).1 hp
    obtain ⟨comps', hsq, rfl⟩ := translate_container_iff.1 hq
    rw [show sb.Meets _ _ ↔ sb.Meets _ _ from ⟨Meets.symm, Meets.symm⟩,
      meets_mixed hvar hsq htree hsp, components_of_spelledBelow hsp,
      components_of_spelledBelow hsq, eq_comm]
  · obtain ⟨tree, htree, comps, hsp, rfl⟩ := (translate_system_iff hvar).1 hp
    obtain ⟨tree', htree', comps', hsq, rfl⟩ := (translate_system_iff hvar).1 hq
    rw [meets_system hvar ⟨tree, htree, comps, hsp⟩ ⟨tree', htree', comps', hsq⟩,
      components_of_spelledBelow hsp, components_of_spelledBelow hsq, sb.components_systemBase htree,
      sb.components_systemBase htree', List.append_assoc, List.append_assoc,
      List.append_cancel_left_eq, ← List.map_append, ← List.map_append, hinj.eq_iff,
      lexicalPath_of_spelledBelow hsp, lexicalPath_of_spelledBelow hsq]

end Meets

/-! ## Byte strings -/

/-- A path as bytes, made absolute : relative paths start from the bundle. -/
def absoluteBytes (sb : Sandbox) (xs : List U8) : List U8 :=
  if xs.head? = some 0x2f then xs else utf8Encode sb.bundleIosPath ++ 0x2f :: xs

/-- The names that a path of the guest leads to. -/
def byteNames (sb : Sandbox) (xs : List U8) : List (List U8) :=
  lexical 0x2f 0x2e (sb.absoluteBytes xs)

/-- The absolute text that `sysOpen` makes of a path of the guest. -/
def openedText (sb : Sandbox) (xs : List U8) : List Char :=
  sb.absolutePath (lossyText (xs.take 1024))

/-- Nothing of the path is lost on the way : it is short, well formed, and without white space
around it. -/
def Plain (xs : List U8) : Prop :=
  xs.length ≤ 1024 ∧ ∃ text, utf8Encode text = xs ∧ trim text = text

theorem head_utf8Encode_iff {text : List Char} :
    (utf8Encode text).head? = some 0x2f ↔ text.head? = some '/' := by
  rcases text with _ | ⟨c, text⟩
  · simp
  · obtain ⟨b, l, hb⟩ := List.exists_cons_of_ne_nil (keepsMarks_utf8Char.ne_nil c)
    have hmark := keepsMarks_utf8Char.eq_sep c
    rw [utf8Encode_cons, hb, List.cons_append, List.head?_cons, List.head?_cons]
    constructor
    · intro h
      rw [hmark (by rw [hb, Option.some.inj h]; exact List.mem_cons_self)]
    · intro h
      rw [Option.some.inj h, keepsMarks_utf8Char.sep_eq] at hb
      rw [(List.cons.inj hb).1]

/-- The names of a plain path are those of the text that is opened. -/
theorem byteNames_of_plain (sb : Sandbox) {xs : List U8} (h : Plain xs) :
    sb.byteNames xs = (lexicalPath (sb.openedText xs)).map utf8Encode := by
  obtain ⟨hlength, text, rfl, htrim⟩ := h
  have habs : sb.absoluteBytes (utf8Encode text) = utf8Encode (sb.absolutePath text) := by
    unfold absoluteBytes absolutePath
    rw [htrim]
    simp only [head_utf8Encode_iff]
    split_ifs
    · rfl
    · rw [utf8Encode_append, utf8Encode_cons]
      rfl
  rw [byteNames, habs, openedText, List.take_of_length_le hlength, lossyText_utf8Encode]
  exact keepsMarks_utf8Char.lexical_flatMap _

/-- Container and image do not overlap, so a path of one is not a path of the other. -/
theorem not_meetsImage {sb : Sandbox} (hapart : Apart sb.hostRoot sb.systemRoot)
    (p q : List Char) : ¬sb.MeetsImage p q := by
  rintro ⟨comps, -, tree, htree, comps', -, heq⟩
  rw [sb.components_systemBase htree, List.append_assoc] at heq
  have hsystem : sb.systemRoot.components <+:
      sb.hostRoot.components ++ comps.map Component.normal := heq ▸ List.prefix_append _ _
  exact (List.prefix_or_prefix_of_prefix (List.prefix_append _ _) hsystem).elim hapart.1 hapart.2

theorem openedText_of_resolves {sb : Sandbox} {c : SyscallCtx} {xs : List U8} {host : UnixPath}
    (hxs : c.mem.HoldsCstr (c.cpu.arg 0) xs) (h : c.Resolves sb host) :
    ∃ ro, sb.translate (lossyText (xs.take 1024)) = .ok (host, ro) := by
  obtain ⟨iosPath, ro, hread, htranslate⟩ := h
  rw [GuestMemory.readCstr_of_holds hxs] at hread
  obtain rfl := Except.ok.inj hread
  exact ⟨ro, by rwa [fromUtf8Lossy, String.toList_ofList] at htranslate⟩

/-- A file that `sysOpen` returns is the one at the path that the call asks for. -/
theorem resolves_of_sysOpen {kernel : Host} {sb : Sandbox} {c c' : SyscallCtx} {v : U64}
    (h : Unix.sysOpen kernel sb c = .ok v c') :
    ∃ host fd f, c.Resolves sb host ∧ c'.fds.slots.get? fd = some (.file f) ∧
      f.path = host.components := by
  obtain ⟨file, fs, fd, fds, hopens, hinsert, rfl, -⟩ := sysOpen_eq_ok h
  obtain ⟨iosPath, path, ro, hread, htranslate, -, hopen⟩ := hopens
  obtain ⟨access, creation, -, -, hfile, -⟩ := OpenOptions.openPath_eq_ok hopen
  refine ⟨path, fd, file, ⟨iosPath, ro, hread, htranslate⟩, ?_, by rw [hfile]⟩
  rw [slots_of_insert hinsert]
  exact SortedMap.get?_insert_self _ _ _

/-- For two paths that are opened : sharing the host path makes them the same file for the guest
exactly if the texts that are opened meet only where the bytes name the same file. Plain paths
keep their files apart, and a file that is opened is the one at the host path. -/
theorem distinct_files_iff (containersRoot systemRoot : UnixPath) (appName uuid : List Char) :
    let sb := ofContainer containersRoot systemRoot appName uuid
    (∀ (c c' : SyscallCtx) (xs ys : List U8) (host host' : UnixPath),
      c.mem.HoldsCstr (c.cpu.arg 0) xs → c'.mem.HoldsCstr (c'.cpu.arg 0) ys →
      c.Resolves sb host → c'.Resolves sb host' →
        ((host.components = host'.components → sb.byteNames xs = sb.byteNames ys) ↔
          (sb.Meets (sb.openedText xs) (sb.openedText ys) → sb.byteNames xs = sb.byteNames ys)) ∧
        (Apart sb.hostRoot sb.systemRoot → Plain xs → Plain ys →
          host.components = host'.components → sb.byteNames xs = sb.byteNames ys)) ∧
    ∀ kernel c c' v, Unix.sysOpen kernel sb c = .ok v c' →
      ∃ host fd f, c.Resolves sb host ∧ c'.fds.slots.get? fd = some (.file f) ∧
        f.path = host.components := by
  intro sb
  refine ⟨fun c c' xs ys host host' hxs hys hhost hhost' => ?_, fun _ _ _ _ => resolves_of_sysOpen⟩
  obtain ⟨ro, htranslate⟩ := openedText_of_resolves hxs hhost
  obtain ⟨ro', htranslate'⟩ := openedText_of_resolves hys hhost'
  have hmeets := components_eq_iff (prefix_iosPrefix _ _ _ _) htranslate htranslate'
  refine ⟨imp_congr_left hmeets, fun hapart hplain hplain' heq => ?_⟩
  rcases hmeets.1 heq with ⟨-, hlex⟩ | himage | himage
  · rw [byteNames_of_plain sb hplain, byteNames_of_plain sb hplain', openedText, openedText, hlex]
  · exact absurd himage (not_meetsImage hapart _ _)
  · exact absurd himage (not_meetsImage hapart _ _)

/-- An `open` for reading of the path that stands at the start of the heap. -/
def openCall (text : String) : SyscallCtx :=
  (testCall 5 0x100000000 0 0 text).ctx ⟨FdTable.default, testTree⟩

/-- Two names that differ in a byte which is not UTF-8 are one host file. -/
theorem ill_formed_names_collide :
    (openCall "/usr/ÿ").mem.HoldsCstr 0x100000000 [0x2f, 0x75, 0x73, 0x72, 0x2f, 0xff] ∧
      (openCall "/usr/þ").mem.HoldsCstr 0x100000000 [0x2f, 0x75, 0x73, 0x72, 0x2f, 0xfe] ∧
      (openCall "/usr/ÿ").Resolves testSandbox "/s/usr/\uFFFD".toList ∧
      (openCall "/usr/þ").Resolves testSandbox "/s/usr/\uFFFD".toList ∧
      testSandbox.byteNames [0x2f, 0x75, 0x73, 0x72, 0x2f, 0xff] ≠
        testSandbox.byteNames [0x2f, 0x75, 0x73, 0x72, 0x2f, 0xfe] := by
  have hx : (openCall "/usr/ÿ").mem.HoldsCstr 0x100000000 [0x2f, 0x75, 0x73, 0x72, 0x2f, 0xff] :=
    ⟨rfl, by decide, rfl, by decide, rfl, by decide, rfl, by decide, rfl, by decide, rfl,
      by decide, rfl⟩
  have hy : (openCall "/usr/þ").mem.HoldsCstr 0x100000000 [0x2f, 0x75, 0x73, 0x72, 0x2f, 0xfe] :=
    ⟨rfl, by decide, rfl, by decide, rfl, by decide, rfl, by decide, rfl, by decide, rfl,
      by decide, rfl⟩
  refine ⟨hx, hy, ⟨_, true, GuestMemory.readCstr_of_holds hx, ?_⟩,
    ⟨_, true, GuestMemory.readCstr_of_holds hy, ?_⟩, by decide⟩ <;>
  decide

/-- Two spellings of one file of the image. -/
theorem distinct_files_usr :
    testSandbox.byteNames (utf8Encode "/usr/x".toList) =
      testSandbox.byteNames (utf8Encode "/usr/./x".toList) := by
  have hx : (openCall "/usr/x").mem.HoldsCstr 0x100000000 (utf8Encode "/usr/x".toList) :=
    ⟨rfl, by decide, rfl, by decide, rfl, by decide, rfl, by decide, rfl, by decide, rfl,
      by decide, rfl⟩
  have hy : (openCall "/usr/./x").mem.HoldsCstr 0x100000000 (utf8Encode "/usr/./x".toList) :=
    ⟨rfl, by decide, rfl, by decide, rfl, by decide, rfl, by decide, rfl, by decide, rfl,
      by decide, rfl, by decide, rfl, by decide, rfl⟩
  have hapart : Apart testSandbox.hostRoot testSandbox.systemRoot := by
    unfold Apart
    decide
  exact ((distinct_files_iff "/c".toList "/s".toList "A".toList "U".toList).1
    (openCall "/usr/x") (openCall "/usr/./x") _ _ "/s/usr/x".toList "/s/usr/x".toList hx hy
    ⟨_, true, GuestMemory.readCstr_of_holds hx, by decide +kernel⟩
    ⟨_, true, GuestMemory.readCstr_of_holds hy, by decide +kernel⟩).2 hapart
    ⟨by decide, _, rfl, by decide⟩ ⟨by decide, _, rfl, by decide⟩ rfl

end Sandbox

end IosEmu
