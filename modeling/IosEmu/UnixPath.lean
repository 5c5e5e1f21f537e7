import Mathlib.Data.List.Basic

/-!
# Unix paths

Paths are lists of characters. `push`, `join`, `components` and `fileName` follow the Rust
standard library on Unix : pushing an absolute path replaces, empty and `.` pieces are
dropped from the components (but for a leading `.`), and `..` stays as it is written.

A piece is clean if it is a file name : not empty, not `.` or `..`, and without a
separator. Pushing clean pieces appends them to the components (`components_pushAll`), so
the result stays below the path it started from.
-/

namespace SysLib

/-- A path as it is written. -/
abbrev UnixPath := List Char

/-- A component of a path. -/
inductive Component
  | rootDir
  | curDir
  | parentDir
  | normal (name : List Char)
  deriving DecidableEq

namespace UnixPath

/-- `Path::is_absolute`. -/
def isAbsolute (p : UnixPath) : Bool :=
  p.head? == some '/'

/-- `PathBuf::push`. -/
def push (p q : UnixPath) : UnixPath :=
  if q.isAbsolute then q
  else if p.getLast? = none ∨ p.getLast? = some '/' then p ++ q
  else p ++ '/' :: q

/-- `Path::join`. -/
def join (p q : UnixPath) : UnixPath :=
  p.push q

/-- Push the pieces one after the other. -/
def pushAll (p : UnixPath) (pieces : List UnixPath) : UnixPath :=
  pieces.foldl push p

/-- The component of a piece between separators, if it has one. -/
def component (piece : List Char) : Option Component :=
  if piece = [] ∨ piece = ['.'] then none
  else if piece = ['.', '.'] then some .parentDir
  else some (.normal piece)

/-- The component a path starts with for being absolute, or relative with a leading `.`. -/
def leading (p : UnixPath) : List Component :=
  if p.isAbsolute then [.rootDir]
  else if (p.splitOn '/').head? = some ['.'] then [.curDir]
  else []

/-- `Path::components`. -/
def components (p : UnixPath) : List Component :=
  p.leading ++ (p.splitOn '/').filterMap component

/-- `Path::file_name`. -/
def fileName (p : UnixPath) : Option (List Char) :=
  match p.components.getLast? with
  | some (.normal name) => some name
  | _ => none

/-- `Path::parent` : the path up to its last component, without what separates the two. -/
def parent (p : UnixPath) : Option UnixPath :=
  match p.components.getLast? with
  | none => none
  | some .rootDir => none
  | some _ => p.inits.find? fun q => q.components = p.components.dropLast

example : components "/usr//lib/./x/".toList =
    [.rootDir, .normal "usr".toList, .normal "lib".toList, .normal "x".toList] := by decide

/-! ## Clean pieces -/

/-- A file name : one component that stays in its directory. -/
structure Clean (piece : List Char) : Prop where
  ne_nil : piece ≠ []
  ne_dot : piece ≠ ['.']
  ne_dotdot : piece ≠ ['.', '.']
  sep_notMem : '/' ∉ piece

variable {p c : List Char}

instance : Decidable (Clean c) :=
  decidable_of_iff (c ≠ [] ∧ c ≠ ['.'] ∧ c ≠ ['.', '.'] ∧ '/' ∉ c)
    ⟨fun h => ⟨h.1, h.2.1, h.2.2.1, h.2.2.2⟩, fun h => ⟨h.1, h.2, h.3, h.4⟩⟩

/-- No piece between separators holds one. -/
theorem sep_notMem_of_mem_splitOn {piece : List Char} :
    ∀ l : List Char, piece ∈ l.splitOn '/' → '/' ∉ piece := by
  intro l
  induction l generalizing piece with
  | nil =>
    rw [List.splitOn_nil, List.mem_singleton]
    rintro rfl
    exact List.not_mem_nil
  | cons x l ih =>
    rcases hl : l.splitOn '/' with _ | ⟨first, rest⟩
    · exact absurd hl (List.splitOn_ne_nil '/' l)
    · have hfirst : '/' ∉ first := ih (by rw [hl]; exact List.mem_cons_self)
      have hrest : ∀ {c}, c ∈ rest → '/' ∉ c := fun hc =>
        ih (by rw [hl]; exact List.mem_cons_of_mem _ hc)
      rw [List.splitOn_cons_eq_if_modifyHead, hl]
      by_cases hx : x = '/'
      · simp only [hx, beq_self_eq_true, if_true, List.mem_cons]
        rintro (rfl | rfl | hc)
        · exact List.not_mem_nil
        · exact hfirst
        · exact hrest hc
      · simp only [beq_iff_eq, hx, if_false, List.modifyHead_cons, List.mem_cons]
        rintro (rfl | hc)
        · simpa [Ne.symm hx] using hfirst
        · exact hrest hc

theorem Clean.component_eq (h : Clean c) : component c = some (.normal c) := by
  rw [component, if_neg (not_or.2 ⟨h.ne_nil, h.ne_dot⟩), if_neg h.ne_dotdot]

theorem Clean.splitOn_eq (h : Clean c) : c.splitOn '/' = [c] :=
  List.splitOn_eq_singleton h.sep_notMem

theorem Clean.isAbsolute_eq (h : Clean c) : isAbsolute c = false := by
  obtain ⟨x, l, rfl⟩ := List.exists_cons_of_ne_nil h.ne_nil
  have hx : x ≠ '/' := fun hx => h.sep_notMem (hx ▸ List.mem_cons_self ..)
  simpa [isAbsolute] using hx

theorem leading_append_sep (hp : p ≠ []) (q : List Char) :
    leading (p ++ '/' :: q) = leading p := by
  obtain ⟨x, l, rfl⟩ := List.exists_cons_of_ne_nil hp
  obtain ⟨s, ss, hs⟩ := List.exists_cons_of_ne_nil (List.splitOn_ne_nil '/' (x :: l))
  rw [leading, leading, List.splitOn_append_cons_self, hs]
  rfl

/-- Pushing a clean piece appends it to the components. -/
theorem components_push (h : Clean c) : components (push p c) = components p ++ [.normal c] := by
  rw [push, h.isAbsolute_eq, if_neg Bool.false_ne_true]
  have hc : (c.splitOn '/').filterMap component = [.normal c] := by
    rw [h.splitOn_eq, List.filterMap_cons_some h.component_eq, List.filterMap_nil]
  split_ifs with hsep
  · rcases hsep with hnil | hlast
    · obtain rfl := List.getLast?_eq_none_iff.1 hnil
      rw [List.nil_append, components, leading, h.isAbsolute_eq, h.splitOn_eq]
      simp [h.ne_dot, components, leading, isAbsolute, component, h.ne_nil, h.ne_dotdot]
    · obtain ⟨q, rfl⟩ := List.getLast?_eq_some_iff.1 hlast
      rw [List.append_assoc, List.singleton_append, components, components,
        List.splitOn_append_cons_self, List.splitOn_append_cons_self, List.filterMap_append,
        List.filterMap_append, hc]
      rcases eq_or_ne q [] with rfl | hq
      · rfl
      · rw [leading_append_sep hq, leading_append_sep hq]
        simp [component]
  · have hp : p ≠ [] := fun hp => hsep (Or.inl (by rw [hp, List.getLast?_nil]))
    rw [components, leading_append_sep hp, List.splitOn_append_cons_self,
      List.filterMap_append, hc, ← List.append_assoc, components]

/-- Pushing clean pieces stays below the path. -/
theorem components_pushAll : ∀ (pieces : List UnixPath) (p : UnixPath),
    (∀ c ∈ pieces, Clean c) →
      components (pushAll p pieces) = components p ++ pieces.map Component.normal
  | [], p, _ => by simp [pushAll]
  | c :: pieces, p, h => by
    have hc := h c (List.mem_cons_self ..)
    have ih := components_pushAll pieces (p.push c) fun d hd => h d (List.mem_cons_of_mem _ hd)
    rw [pushAll, List.foldl_cons]
    rw [pushAll] at ih
    rw [ih, components_push hc, List.append_assoc, List.map_cons, List.singleton_append]

/-- Pushing a path with a clean first piece pushes the piece and then the rest. -/
theorem push_append_sep (h : Clean c) {q : UnixPath} (hq : q.isAbsolute = false) :
    push p (c ++ '/' :: q) = push (push p c) q := by
  obtain ⟨x, l, rfl⟩ := List.exists_cons_of_ne_nil h.ne_nil
  have hlast : ∀ p' : UnixPath, ¬((p' ++ x :: l).getLast? = none ∨
      (p' ++ x :: l).getLast? = some '/') := by
    intro p'
    rw [List.getLast?_append_of_ne_nil _ (List.cons_ne_nil _ _), not_or]
    refine ⟨by simp, fun hmem => h.sep_notMem (List.mem_of_getLast? hmem)⟩
  have hlast' : ¬((p ++ '/' :: x :: l).getLast? = none ∨
      (p ++ '/' :: x :: l).getLast? = some '/') := by
    have := hlast (p ++ ['/'])
    rwa [List.append_assoc] at this
  have habs : isAbsolute (x :: l ++ '/' :: q) = false := h.isAbsolute_eq
  rw [push, habs, push, hq, push, h.isAbsolute_eq]
  simp only [Bool.false_eq_true, if_false]
  by_cases hsep : p.getLast? = none ∨ p.getLast? = some '/'
  · simp only [if_pos hsep, if_neg (hlast p)]
    simp
  · simp only [if_neg hsep, if_neg hlast']
    simp

theorem components_parent {q : UnixPath} (h : parent p = some q) :
    components q = (components p).dropLast := by
  unfold parent at h
  split at h
  · cases h
  · cases h
  · simpa using List.find?_some h

/-! ## Relative paths -/

/-- The names a relative path goes through. -/
def names (rel : UnixPath) : List UnixPath :=
  (rel.splitOn '/').filter fun piece => piece ≠ [] ∧ piece ≠ ['.']

theorem clean_names {rel : UnixPath} (h : ['.', '.'] ∉ rel.splitOn '/') :
    ∀ c ∈ rel.names, Clean c := by
  intro c hc
  obtain ⟨hmem, hc⟩ := List.mem_filter.1 hc
  rw [decide_eq_true_iff] at hc
  refine ⟨hc.1, hc.2, ?_, sep_notMem_of_mem_splitOn rel hmem⟩
  rintro rfl
  exact h hmem

theorem filterMap_component : ∀ {pieces : List (List Char)}, ['.', '.'] ∉ pieces →
    pieces.filterMap component =
      (pieces.filter fun piece => piece ≠ [] ∧ piece ≠ ['.']).map Component.normal
  | [], _ => rfl
  | piece :: pieces, h => by
    obtain ⟨hne, hrest⟩ := not_or.1 (mt List.mem_cons.2 h)
    have ih := filterMap_component hrest
    by_cases hskip : piece = [] ∨ piece = ['.']
    · rw [List.filterMap_cons_none (by rw [component, if_pos hskip]), ih, List.filter_cons_of_neg]
      simpa [← not_or] using hskip
    · have hpiece : component piece = some (.normal piece) := by
        rw [component, if_neg hskip, if_neg (Ne.symm hne)]
      rw [List.filterMap_cons_some hpiece, ih, List.filter_cons_of_pos, List.map_cons]
      simpa [← not_or] using hskip

/-- Pushing a relative path that does not go up appends its names. -/
theorem components_push_names {rel : UnixPath} (hp : p ≠ []) (hrel : rel.isAbsolute = false)
    (hup : ['.', '.'] ∉ rel.splitOn '/') :
    components (push p rel) = components p ++ rel.names.map Component.normal := by
  rw [push, hrel, if_neg Bool.false_ne_true]
  have hnames := filterMap_component hup
  split_ifs with hsep
  · obtain ⟨q, rfl⟩ : ∃ q, p = q ++ ['/'] := by
      rcases hsep with hnil | hlast
      · exact absurd (List.getLast?_eq_none_iff.1 hnil) hp
      · exact List.getLast?_eq_some_iff.1 hlast
    rw [List.append_assoc, List.singleton_append, components, components,
      List.splitOn_append_cons_self, List.splitOn_append_cons_self, List.filterMap_append,
      List.filterMap_append, hnames]
    rcases eq_or_ne q [] with rfl | hq
    · rfl
    · rw [leading_append_sep hq, leading_append_sep hq]
      simp [component, names]
  · rw [components, leading_append_sep hp, List.splitOn_append_cons_self, List.filterMap_append,
      hnames, ← List.append_assoc, components]
    rfl

theorem fileName_push (h : Clean c) : fileName (push p c) = some c := by
  rw [fileName, components_push h, List.getLast?_append_of_ne_nil _ (List.cons_ne_nil _ _)]
  rfl

end UnixPath

end SysLib
