import IosEmu.LexicalPath
import IosEmu.SystemImage

/-!
# Where a guest path leads

`translate` compares the text of a path with the container's prefix and with the system trees,
and normalises only what follows. So a path leads somewhere exactly if it is spelled below one
of these directories (`SpelledBelow`) : the directory as it is written, a separator, and a rest
that is not empty and does not climb out of it (`translate_container_iff`,
`translate_system_iff`).

Two paths with the same names from the root are translated alike if they are spelled below the
same kind of directory, and not otherwise (`translation_lexical_iff`). The directories
themselves are rejected.
-/

open SysLib

namespace IosEmu

/-! ## Normalisation -/

/-- The pieces of a guest path. -/
abbrev pathPieces (path : List Char) : List (Piece UnixPath) :=
  pieces '/' '.' path

/-- The names that a guest path leads to from the root. -/
abbrev lexicalPath (path : List Char) : List UnixPath :=
  lexical '/' '.' path

theorem normalizeStep_eq_ok {out mid : List UnixPath} {comp : UnixPath} :
    normalizeStep out comp = .ok mid ↔
      '\x00' ∉ comp ∧ (piece '.' comp = .up → out ≠ []) ∧ mid = (piece '.' comp).walk out := by
  unfold normalizeStep piece
  split_ifs with hstay hup hroot hnul
  · have hclean : '\x00' ∉ comp := by rcases hstay with rfl | rfl <;> simp
    simp [hclean, Piece.walk, eq_comm]
  · simp [hroot]
  · simp [hup, hroot, Piece.walk, eq_comm]
  · have hmem : '\x00' ∈ comp := by simpa using hnul
    simp [hmem]
  · have hclean : '\x00' ∉ comp := by simpa using hnul
    simp [hclean, Piece.walk, eq_comm]

/-- The loop over the pieces. -/
theorem foldlM_normalizeStep_eq_ok : ∀ {comps out out' : List UnixPath},
    comps.foldlM normalizeStep out = .ok out' ↔
      (∀ comp ∈ comps, '\x00' ∉ comp) ∧ Piece.Stays out.length (comps.map (piece '.')) ∧
        out' = Piece.resolve out (comps.map (piece '.'))
  | [], out, out' => by
    simp [Piece.resolve, pure, Except.pure, eq_comm]
  | comp :: comps, out, out' => by
    rw [List.foldlM_cons, except_bind_eq_ok, List.map_cons, Piece.stays_length_cons]
    constructor
    · rintro ⟨mid, hmid, h⟩
      obtain ⟨hclean, hup, rfl⟩ := normalizeStep_eq_ok.1 hmid
      obtain ⟨hrest, hstays, rfl⟩ := foldlM_normalizeStep_eq_ok.1 h
      exact ⟨List.forall_mem_cons.2 ⟨hclean, hrest⟩, ⟨hup, hstays⟩, rfl⟩
    · rintro ⟨hclean, ⟨hup, hstays⟩, rfl⟩
      obtain ⟨hfirst, hrest⟩ := List.forall_mem_cons.1 hclean
      exact ⟨_, normalizeStep_eq_ok.2 ⟨hfirst, hup, rfl⟩,
        foldlM_normalizeStep_eq_ok.2 ⟨hrest, hstays, rfl⟩⟩

theorem normalizeIosPath_eq_ok {path : List Char} {comps : List UnixPath} :
    normalizeIosPath path = .ok comps ↔
      path ≠ [] ∧ '\x00' ∉ path ∧ Piece.Stays 0 (pathPieces path) ∧ comps = lexicalPath path := by
  unfold normalizeIosPath
  split_ifs with hnil
  · simp [hnil]
  · have hnul : (∀ comp ∈ path.splitOn '/', '\x00' ∉ comp) ↔ '\x00' ∉ path := by
      have hsep : '\x00' ≠ '/' := by decide
      rw [← mem_splitOn_iff hsep]
      simp
    rw [foldlM_normalizeStep_eq_ok, hnul]
    simp [hnil, pathPieces, lexicalPath, pieces, lexical]

/-! ## Spelling -/

/-- The path is written as the directory, a separator and a rest that does not climb out of the
directory, and leads to `comps` below it. -/
def SpelledBelow (dir path : List Char) (comps : List UnixPath) : Prop :=
  ∃ rest, path = dir ++ '/' :: rest ∧ rest ≠ [] ∧ '\x00' ∉ rest ∧
    Piece.Stays 0 (pathPieces rest) ∧ comps = lexicalPath rest

theorem stripPrefixDir_eq_some {path dir rest : List Char} :
    stripPrefixDir path dir = some rest ↔
      path = dir ∧ rest = [] ∨ path = dir ++ '/' :: rest := by
  have hdrop : ∀ s, path.dropPrefix? dir = some s ↔ path = dir ++ s := by
    intro s
    rw [List.dropPrefix?_eq_some_iff]
    simp
  unfold stripPrefixDir
  split
  · next h =>
    have hno : ∀ s, path ≠ dir ++ s := fun s hs => by simp [(hdrop s).2 hs] at h
    exact iff_of_false (by simp) (by
      rintro (⟨heq, -⟩ | heq)
      · exact hno [] (by simpa using heq)
      · exact hno _ heq)
  · next h =>
    obtain rfl : path = dir := by simpa using (hdrop []).1 h
    simp [eq_comm]
  · next sub h =>
    obtain rfl := (hdrop _).1 h
    simp [eq_comm]
  · next s hnil hsep h =>
    obtain rfl := (hdrop s).1 h
    refine iff_of_false (by simp) ?_
    rintro (⟨heq, -⟩ | heq)
    · exact hnil (by simpa using heq)
    · exact hsep rest (by simpa using heq)

theorem spelledBelow_iff {dir path : List Char} {comps : List UnixPath} :
    SpelledBelow dir path comps ↔
      ∃ rest, stripPrefixDir path dir = some rest ∧ normalizeIosPath rest = .ok comps := by
  unfold SpelledBelow
  simp only [stripPrefixDir_eq_some, normalizeIosPath_eq_ok]
  constructor
  · rintro ⟨rest, hpath, h⟩
    exact ⟨rest, Or.inr hpath, h⟩
  · rintro ⟨rest, ⟨-, rfl⟩ | hpath, h⟩
    · exact absurd rfl h.1
    · exact ⟨rest, hpath, h⟩

/-- A path that is spelled below a directory leads below it. -/
theorem lexicalPath_of_spelledBelow {dir path : List Char} {comps : List UnixPath}
    (h : SpelledBelow dir path comps) : lexicalPath path = lexicalPath dir ++ comps := by
  obtain ⟨rest, rfl, -, -, hstays, rfl⟩ := h
  exact lexical_append_of_stays hstays

theorem take_two_of_stripPrefixDir {dir path rest : List Char} (hdir : 2 ≤ dir.length)
    (h : stripPrefixDir path dir = some rest) : path.take 2 = dir.take 2 := by
  rcases stripPrefixDir_eq_some.1 h with ⟨rfl, -⟩ | rfl
  · rfl
  · exact List.take_append_of_le_length hdir

namespace Sandbox

/-! ## The two kinds of directories -/

theorem joinChecked_eq_ok {base host : UnixPath} {rest : List Char} :
    joinChecked base rest = .ok host ↔
      ∃ comps, normalizeIosPath rest = .ok comps ∧ host = base.pushAll comps := by
  unfold joinChecked
  rcases normalizeIosPath rest with (_ | _) | comps <;> simp [eq_comm]

/-- A path leads into the container exactly if it is spelled below its prefix. -/
theorem translate_container_iff {sb : Sandbox} {iosPath : List Char} {host : UnixPath} :
    sb.translate iosPath = .ok (host, false) ↔
      ∃ comps, SpelledBelow sb.iosPrefix (sb.absolutePath iosPath) comps ∧
        host = sb.hostRoot.pushAll comps := by
  unfold translate
  rcases hstrip : stripPrefixDir (sb.absolutePath iosPath) sb.iosPrefix with _ | rest
  · refine iff_of_false (fun h => ?_) ?_
    · exact absurd (below_translateSystem systemTrees h).1 Bool.false_ne_true
    · rintro ⟨comps, hspelled, -⟩
      obtain ⟨rest, hrest, -⟩ := spelledBelow_iff.1 hspelled
      simp [hstrip] at hrest
  · simp only [except_bind_eq_ok, joinChecked_eq_ok, spelledBelow_iff, hstrip]
    simp [pure, Except.pure, eq_comm]

/-- Trees that do not both stand at the start of the path are looked up like one. -/
theorem translateSystem_eq_ok {sb : Sandbox} {iosPath absolute : List Char} {host : UnixPath}
    {ro : Bool} : ∀ {trees : List String},
      (∀ tree ∈ trees, ∀ tree' ∈ trees, (stripPrefixDir absolute tree.toList).isSome →
        (stripPrefixDir absolute tree'.toList).isSome → tree = tree') →
      (sb.translateSystem iosPath absolute trees = .ok (host, ro) ↔
        ro = true ∧ ∃ tree ∈ trees, ∃ comps, SpelledBelow tree.toList absolute comps ∧
          host = (sb.systemBase tree).pushAll comps)
  | [], _ => by simp [translateSystem]
  | tree :: trees, hone => by
    have hmore : (∃ tree' ∈ tree :: trees, ∃ comps, SpelledBelow tree'.toList absolute comps ∧
          host = (sb.systemBase tree').pushAll comps) ↔
        (∃ comps, SpelledBelow tree.toList absolute comps ∧
          host = (sb.systemBase tree).pushAll comps) ∨
        ∃ tree' ∈ trees, ∃ comps, SpelledBelow tree'.toList absolute comps ∧
          host = (sb.systemBase tree').pushAll comps := by
      simp
    unfold translateSystem
    rw [hmore]
    rcases hstrip : stripPrefixDir absolute tree.toList with _ | rest
    · have ih := @translateSystem_eq_ok sb iosPath absolute host ro trees
        fun t ht t' ht' => hone t (List.mem_cons_of_mem _ ht) t' (List.mem_cons_of_mem _ ht')
      simp only [spelledBelow_iff, hstrip] at ih ⊢
      simpa using ih
    · -- A later tree that stands at the start of the path is this one.
      have hlater : (∃ tree' ∈ trees, ∃ comps, SpelledBelow tree'.toList absolute comps ∧
          host = (sb.systemBase tree').pushAll comps) →
          ∃ comps, SpelledBelow tree.toList absolute comps ∧
            host = (sb.systemBase tree).pushAll comps := by
        rintro ⟨tree', hmem, comps, hspelled, hhost⟩
        obtain ⟨rest', hrest', -⟩ := spelledBelow_iff.1 hspelled
        obtain rfl := hone tree List.mem_cons_self tree' (List.mem_cons_of_mem _ hmem)
          (by simp [hstrip]) (by simp [hrest'])
        exact ⟨comps, hspelled, hhost⟩
      rw [or_iff_left_of_imp hlater]
      simp only [except_bind_eq_ok, joinChecked_eq_ok, spelledBelow_iff, hstrip]
      constructor
      · rintro ⟨host', ⟨comps, hn, rfl⟩, hpair⟩
        obtain ⟨rfl, rfl⟩ := Prod.mk.inj (Except.ok.inj hpair)
        exact ⟨rfl, comps, ⟨rest, rfl, hn⟩, rfl⟩
      · rintro ⟨rfl, comps, ⟨rest', hrest', hn⟩, rfl⟩
        obtain rfl := Option.some.inj hrest'
        exact ⟨_, ⟨comps, hn, rfl⟩, rfl⟩

/-- The trees are told apart by their first letters. -/
theorem eq_of_take_two : ∀ tree ∈ systemTrees, 2 ≤ tree.toList.length ∧
    tree.toList.take 2 ≠ "/v".toList ∧
      ∀ tree' ∈ systemTrees, tree.toList.take 2 = tree'.toList.take 2 → tree = tree' := by
  decide

/-- A path leads into the image exactly if it is spelled below one of the system trees. -/
theorem translate_system_iff {sb : Sandbox} (hvar : "/v".toList <+: sb.iosPrefix)
    {iosPath : List Char} {host : UnixPath} :
    sb.translate iosPath = .ok (host, true) ↔
      ∃ tree ∈ systemTrees, ∃ comps, SpelledBelow tree.toList (sb.absolutePath iosPath) comps ∧
        host = (sb.systemBase tree).pushAll comps := by
  have htake : sb.iosPrefix.take 2 = "/v".toList := (List.prefix_iff_eq_take.1 hvar).symm
  unfold translate
  rcases hstrip : stripPrefixDir (sb.absolutePath iosPath) sb.iosPrefix with _ | rest
  · rw [translateSystem_eq_ok]
    · simp
    · intro tree htree tree' htree' h h'
      obtain ⟨rest, hrest⟩ := Option.isSome_iff_exists.1 h
      obtain ⟨rest', hrest'⟩ := Option.isSome_iff_exists.1 h'
      obtain ⟨hlen, -, hone⟩ := eq_of_take_two tree htree
      refine hone tree' htree' ?_
      rw [← take_two_of_stripPrefixDir hlen hrest,
        take_two_of_stripPrefixDir (eq_of_take_two tree' htree').1 hrest']
  · refine iff_of_false (by simp [except_bind_eq_ok, pure, Except.pure]) ?_
    rintro ⟨tree, htree, comps, hspelled, -⟩
    obtain ⟨rest', hrest', -⟩ := spelledBelow_iff.1 hspelled
    obtain ⟨hlen, hne, -⟩ := eq_of_take_two tree htree
    have hlen' : 2 ≤ sb.iosPrefix.length := hvar.length_le
    rw [← take_two_of_stripPrefixDir hlen hrest', take_two_of_stripPrefixDir hlen' hstrip] at hne
    exact hne htake

/-! ## Two paths with the same names -/

/-- The path is spelled below the container's prefix. -/
def SpelledInContainer (sb : Sandbox) (path : List Char) : Prop :=
  ∃ comps, SpelledBelow sb.iosPrefix path comps

/-- The path is spelled below one of the system trees. -/
def SpelledInSystem (path : List Char) : Prop :=
  ∃ tree ∈ systemTrees, ∃ comps, SpelledBelow tree.toList path comps

/-- Both paths translate to the same host path and flag, or none of them translates. -/
def TranslateAlike (sb : Sandbox) (p q : List Char) : Prop :=
  ∀ host ro, sb.translate p = .ok (host, ro) ↔ sb.translate q = .ok (host, ro)

theorem absolutePath_of_absolute {sb : Sandbox} {p : List Char} (habs : p.head? = some '/')
    (htrim : trim p = p) : sb.absolutePath p = p := by
  simp [absolutePath, htrim, habs]

theorem eq_of_lexicalPath_head : ∀ tree ∈ systemTrees, lexicalPath tree.toList ≠ [] ∧
    ∀ tree' ∈ systemTrees,
      (lexicalPath tree.toList).head? = (lexicalPath tree'.toList).head? → tree = tree' := by
  decide

/-- Below which tree a path is spelled, and where it leads below it, is read off its names. -/
theorem eq_of_spelledBelow {p q : List Char} (hlex : lexicalPath p = lexicalPath q)
    {tree tree' : String} (htree : tree ∈ systemTrees) (htree' : tree' ∈ systemTrees)
    {comps comps' : List UnixPath} (h : SpelledBelow tree.toList p comps)
    (h' : SpelledBelow tree'.toList q comps') : tree = tree' ∧ comps = comps' := by
  rw [lexicalPath_of_spelledBelow h, lexicalPath_of_spelledBelow h'] at hlex
  obtain ⟨hne, hone⟩ := eq_of_lexicalPath_head tree htree
  have hne' := (eq_of_lexicalPath_head tree' htree').1
  have hhead := congrArg List.head? hlex
  rw [List.head?_append_of_ne_nil _ hne, List.head?_append_of_ne_nil _ hne'] at hhead
  obtain rfl := hone tree' htree' hhead
  exact ⟨rfl, List.append_cancel_left hlex⟩

section Pair

variable {sb : Sandbox} {p q : List Char}

/-- Two paths with the same names, spelled below the container alike, are there alike. -/
theorem translate_container_of_alike (hp : sb.absolutePath p = p) (hq : sb.absolutePath q = q)
    (hlex : lexicalPath p = lexicalPath q)
    (h : sb.SpelledInContainer p → sb.SpelledInContainer q) {host : UnixPath}
    (htranslate : sb.translate p = .ok (host, false)) : sb.translate q = .ok (host, false) := by
  rw [translate_container_iff, hp] at htranslate
  obtain ⟨comps, hspelled, rfl⟩ := htranslate
  obtain ⟨comps', hspelled'⟩ := h ⟨comps, hspelled⟩
  rw [lexicalPath_of_spelledBelow hspelled, lexicalPath_of_spelledBelow hspelled'] at hlex
  obtain rfl := List.append_cancel_left hlex
  exact translate_container_iff.2 ⟨comps, by rwa [hq], rfl⟩

theorem translate_system_of_alike (hvar : "/v".toList <+: sb.iosPrefix)
    (hp : sb.absolutePath p = p) (hq : sb.absolutePath q = q)
    (hlex : lexicalPath p = lexicalPath q) (h : SpelledInSystem p → SpelledInSystem q)
    {host : UnixPath} (htranslate : sb.translate p = .ok (host, true)) :
    sb.translate q = .ok (host, true) := by
  rw [translate_system_iff hvar, hp] at htranslate
  obtain ⟨tree, htree, comps, hspelled, rfl⟩ := htranslate
  obtain ⟨tree', htree', comps', hspelled'⟩ := h ⟨tree, htree, comps, hspelled⟩
  obtain ⟨rfl, rfl⟩ := eq_of_spelledBelow hlex htree htree' hspelled hspelled'
  exact (translate_system_iff hvar).2 ⟨tree, htree, comps, by rwa [hq], rfl⟩

theorem spelledInContainer_iff (hp : sb.absolutePath p = p) :
    sb.SpelledInContainer p ↔ ∃ host, sb.translate p = .ok (host, false) := by
  simp only [translate_container_iff, hp]
  exact ⟨fun ⟨comps, h⟩ => ⟨_, comps, h, rfl⟩, fun ⟨_, comps, h, _⟩ => ⟨comps, h⟩⟩

theorem spelledInSystem_iff (hvar : "/v".toList <+: sb.iosPrefix)
    (hp : sb.absolutePath p = p) :
    SpelledInSystem p ↔ ∃ host, sb.translate p = .ok (host, true) := by
  simp only [translate_system_iff hvar, hp]
  exact ⟨fun ⟨tree, htree, comps, h⟩ => ⟨_, tree, htree, comps, h, rfl⟩,
    fun ⟨_, tree, htree, comps, h, _⟩ => ⟨tree, htree, comps, h⟩⟩

end Pair

/-! ## The directories themselves -/

/-- A directory that paths can lead into : the container's prefix or a system tree. -/
def IsRouted (sb : Sandbox) (dir : List Char) : Prop :=
  dir = sb.iosPrefix ∨ ∃ tree ∈ systemTrees, dir = tree.toList

theorem IsRouted.eq_of_take_two {sb : Sandbox} (hvar : "/v".toList <+: sb.iosPrefix)
    {dir dir' : List Char} (h : sb.IsRouted dir) (h' : sb.IsRouted dir')
    (htake : dir.take 2 = dir'.take 2) : dir = dir' := by
  have hcontainer : sb.iosPrefix.take 2 = "/v".toList := (List.prefix_iff_eq_take.1 hvar).symm
  rcases h with rfl | ⟨tree, htree, rfl⟩ <;> rcases h' with rfl | ⟨tree', htree', rfl⟩
  · rfl
  · exact absurd (htake.symm.trans hcontainer) (Sandbox.eq_of_take_two tree' htree').2.1
  · exact absurd (htake.trans hcontainer) (Sandbox.eq_of_take_two tree htree).2.1
  · rw [(Sandbox.eq_of_take_two tree htree).2.2 tree' htree' htake]

theorem IsRouted.two_le {sb : Sandbox} (hvar : "/v".toList <+: sb.iosPrefix) {dir : List Char}
    (h : sb.IsRouted dir) : 2 ≤ dir.length := by
  rcases h with rfl | ⟨tree, htree, rfl⟩
  · exact hvar.length_le
  · exact (Sandbox.eq_of_take_two tree htree).1

theorem translate_eq_ok {sb : Sandbox} (hvar : "/v".toList <+: sb.iosPrefix)
    {iosPath : List Char} {host : UnixPath} {ro : Bool}
    (h : sb.translate iosPath = .ok (host, ro)) :
    ∃ dir comps, sb.IsRouted dir ∧ SpelledBelow dir (sb.absolutePath iosPath) comps := by
  rcases ro with _ | _
  · obtain ⟨comps, hspelled, -⟩ := translate_container_iff.1 h
    exact ⟨_, comps, Or.inl rfl, hspelled⟩
  · obtain ⟨tree, htree, comps, hspelled, -⟩ := (translate_system_iff hvar).1 h
    exact ⟨_, comps, Or.inr ⟨tree, htree, rfl⟩, hspelled⟩

/-- The directories themselves are rejected : what follows them is empty, which is malformed. -/
theorem translate_ne_ok_of_isRouted {sb : Sandbox} (hvar : "/v".toList <+: sb.iosPrefix)
    {dir : List Char} (hdir : sb.IsRouted dir) (habs : sb.absolutePath dir = dir)
    (r : UnixPath × Bool) : sb.translate dir ≠ .ok r := by
  intro h
  obtain ⟨dir', comps, hdir', hspelled⟩ := translate_eq_ok hvar h
  rw [habs] at hspelled
  obtain ⟨rest, heq, -⟩ := hspelled
  obtain rfl : dir = dir' := by
    refine hdir.eq_of_take_two hvar hdir' ?_
    rw [heq, List.take_append_of_le_length (hdir'.two_le hvar)]
  simp at heq

/-- What the guest may write as an absolute path. -/
structure PlainPath (p : List Char) : Prop where
  absolute : p.head? = some '/'
  trimmed : trim p = p
  clean : '\x00' ∉ p

theorem prefix_iosPrefix (containersRoot systemRoot : UnixPath) (appName uuid : List Char) :
    "/v".toList <+: (ofContainer containersRoot systemRoot appName uuid).iosPrefix :=
  (List.prefix_append "/v".toList "ar/mobile/Applications/".toList).trans
    (List.prefix_append _ uuid)

/-- Two absolute paths with the same names from the root are translated alike exactly if both
are spelled below the container's prefix or none is, and both below a system tree or none is.
The directories themselves are rejected. -/
theorem translation_lexical_iff (containersRoot systemRoot : UnixPath)
    (appName uuid : List Char) :
    let sb := ofContainer containersRoot systemRoot appName uuid
    (∀ p q, PlainPath p → PlainPath q → lexicalPath p = lexicalPath q →
      (sb.TranslateAlike p q ↔ (sb.SpelledInContainer p ↔ sb.SpelledInContainer q) ∧
        (SpelledInSystem p ↔ SpelledInSystem q))) ∧
    ∀ dir, sb.IsRouted dir → PlainPath dir → ∀ r, sb.translate dir ≠ .ok r := by
  intro sb
  have hvar : "/v".toList <+: sb.iosPrefix := prefix_iosPrefix _ _ _ _
  refine ⟨fun p q hp hq hlex => ?_, fun dir hdir habs => translate_ne_ok_of_isRouted hvar hdir
    (absolutePath_of_absolute habs.absolute habs.trimmed)⟩
  have hp' : sb.absolutePath p = p := absolutePath_of_absolute hp.absolute hp.trimmed
  have hq' : sb.absolutePath q = q := absolutePath_of_absolute hq.absolute hq.trimmed
  constructor
  · intro h
    rw [spelledInContainer_iff hp', spelledInContainer_iff hq', spelledInSystem_iff hvar hp',
      spelledInSystem_iff hvar hq']
    exact ⟨exists_congr fun host => h host false, exists_congr fun host => h host true⟩
  · rintro ⟨hcontainer, hsystem⟩ host (_ | _)
    · exact ⟨translate_container_of_alike hp' hq' hlex hcontainer.1,
        translate_container_of_alike hq' hp' hlex.symm hcontainer.2⟩
    · exact ⟨translate_system_of_alike hvar hp' hq' hlex hsystem.1,
        translate_system_of_alike hvar hq' hp' hlex.symm hsystem.2⟩

/-- The directory `/usr` is rejected, and so is a path with a doubled separator before it, but
their other spellings lead into the image. -/
theorem spelling_decides :
    PlainPath "/usr".toList ∧ PlainPath "/usr/.".toList ∧
      lexicalPath "/usr".toList = lexicalPath "/usr/.".toList ∧
      (¬∃ r, testSandbox.translate "/usr".toList = .ok r) ∧
      testSandbox.translate "/usr/.".toList = .ok ("/s/usr".toList, true) ∧
      lexicalPath "//usr/lib".toList = lexicalPath "/usr/lib".toList ∧
      (¬∃ r, testSandbox.translate "//usr/lib".toList = .ok r) ∧
      testSandbox.translate "/usr/lib".toList = .ok ("/s/usr/lib".toList, true) ∧
      ¬testSandbox.TranslateAlike "/usr".toList "/usr/.".toList := by
  have hno : ∀ p : List Char, (testSandbox.translate p).toOption = none →
      ¬∃ r, testSandbox.translate p = .ok r := by
    rintro p hnone ⟨r, hr⟩
    rw [hr] at hnone
    cases hnone
  have husr := hno "/usr".toList (by decide)
  have hdot : testSandbox.translate "/usr/.".toList = .ok ("/s/usr".toList, true) := by
    decide
  exact ⟨⟨by decide, by decide +kernel, by decide⟩, ⟨by decide, by decide +kernel, by decide⟩,
    by decide +kernel, husr, hdot, by decide +kernel, hno _ (by decide +kernel), by decide +kernel,
    fun h => husr ⟨_, (h _ _).2 hdot⟩⟩

/-- Two spellings of a file in the image that differ behind the tree. -/
theorem translation_lexical_usr :
    testSandbox.TranslateAlike "/usr/lib/x".toList "/usr/.//lib/a/../x".toList := by
  have hiff := (translation_lexical_iff "/c".toList "/s".toList "A".toList "U".toList).1
    "/usr/lib/x".toList "/usr/.//lib/a/../x".toList ⟨by decide, by decide, by decide⟩
    ⟨by decide, by decide +kernel, by decide⟩ (by decide +kernel)
  have hsystem : ∀ rest : List Char, rest ≠ [] → '\x00' ∉ rest → Piece.Stays 0 (pathPieces rest) →
      SpelledInSystem ("/usr".toList ++ '/' :: rest) := fun rest hne hnul hstays =>
    ⟨"/usr", by decide, _, rest, rfl, hne, hnul, hstays, rfl⟩
  have hcontainer : ∀ rest : List Char,
      ¬SpelledInContainer (ofContainer "/c".toList "/s".toList "A".toList "U".toList)
        ("/usr".toList ++ rest) := by
    rintro rest ⟨comps, tail, heq, -⟩
    simp [ofContainer] at heq
  exact hiff.2 ⟨iff_of_false (hcontainer "/lib/x".toList) (hcontainer "/.//lib/a/../x".toList),
    iff_of_true (hsystem "lib/x".toList (by decide) (by decide) (by decide +kernel))
      (hsystem ".//lib/a/../x".toList (by decide) (by decide) (by decide +kernel))⟩

end Sandbox

end IosEmu
