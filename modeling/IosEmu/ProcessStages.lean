import IosEmu.Process
import IosEmu.Streams

/-!
# The stages of a build

`Stages` is a build that succeeded, stage by stage : the memory after each stage, and what
the stage returned. `buildProcess_eq_ok` splits a build into its stages and puts it together
again, so that what is said about a build is said about its stages.
-/

open SysLib

namespace IosEmu

namespace Process

variable {p : Profile} {m m' : GuestMemory}

/-! ## Bases -/

/-- Where the segments of an image are mapped. -/
def runtimeBases (slide : U64) (segs : List Segment) : List (Option U64) :=
  segs.map fun seg => if seg.name = "__PAGEZERO" then none else some (seg.vmaddr + slide)

/-- A mapping that succeeds maps every segment at its address, moved by the slide. -/
theorem mapSegments_bases {bytes : List U8} {slide : U64} :
    ∀ {segs : List Segment} {m m' : GuestMemory} {bases : List (Option U64)},
      mapSegments p bytes slide segs m = .ok bases m' → bases = runtimeBases slide segs
  | [], m, m', bases, h => by
    obtain ⟨rfl, -⟩ : [] = bases ∧ m = m' := by simpa [mapSegments] using h
    rfl
  | seg :: segs, m, m', bases, h => by
    obtain ⟨base?, m₁, hseg, h⟩ := Prog.bind_eq_ok.1 h
    obtain ⟨rest, m₂, hrest, h⟩ := Prog.bind_eq_ok.1 h
    obtain ⟨rfl, -⟩ : base? :: rest = bases ∧ m₂ = m' := by simpa using h
    rw [mapSegments_bases hrest, runtimeBases, runtimeBases, List.map_cons]
    congr 1
    unfold mapSegment at hseg
    split_ifs at hseg ⊢
    · exact (by simpa using hseg : none = base? ∧ m = m₁).1.symm
    · obtain ⟨base, hbase, hseg⟩ := Prog.ofChecked_bind_eq_ok.1 hseg
      obtain ⟨_, -, hseg⟩ := Prog.ofChecked_bind_eq_ok.1 hseg
      obtain ⟨_, m₃, -, hseg⟩ := Prog.bind_eq_ok.1 hseg
      rw [← Profile.add_eq_ok hbase]
      exact (by simpa using hseg : some base = base? ∧ m₃ = m₁).1.symm

/-! ## The bytes of a segment -/

/-- The bytes a segment is mapped with, if they can be sliced. -/
def fileData (bytes : List U8) (seg : Segment) : List U8 :=
  if 0 < seg.filesize ∧ (seg.fileoff + seg.filesize).toNat ≤ bytes.length then
    (bytes.drop seg.fileoff.toNat).take
      ((seg.fileoff + seg.filesize).toNat - seg.fileoff.toNat)
  else []

/-- The end of a segment in the file can be computed, and is not before its start if it is in
the file. -/
def DataFits (p : Profile) (bytes : List U8) (seg : Segment) : Prop :=
  (p = .debug → seg.fileoff.toNat + seg.filesize.toNat < 2 ^ 64) ∧
    (0 < seg.filesize → (seg.fileoff + seg.filesize).toNat ≤ bytes.length →
      seg.fileoff ≤ seg.fileoff + seg.filesize)

theorem segmentData_eq_ok {bytes data : List U8} {seg : Segment} :
    segmentData p bytes seg = .ok data ↔ DataFits p bytes seg ∧ data = fileData bytes seg := by
  unfold segmentData DataFits fileData
  rw [except_bind_eq_ok, Profile.add_bind_iff, and_assoc]
  refine and_congr_right fun _ => ?_
  split_ifs with hin hlt
  · exact iff_of_false (by rintro ⟨⟩) fun h => not_le.2 hlt (h.1 hin.1 hin.2)
  · simp only [Except.ok.injEq, not_lt.1 hlt, implies_true, true_and]
    exact eq_comm
  · simp only [Except.ok.injEq]
    exact ⟨fun h => ⟨fun hpos hle => absurd ⟨hpos, hle⟩ hin, h.symm⟩, fun h => h.2.symm⟩

/-- What a segment is mapped with, rounded up to a page. -/
def mappedSize (bytes : List U8) (seg : Segment) : U64 :=
  pageRound (max seg.vmsize (BitVec.ofNat 64 (fileData bytes seg).length))

/-! ## Streams -/

theorem readStream_eq_ok {α : Type} {bytes : List U8} {off size : U32} {msg : String}
    {parse : StreamM α} {a : α} :
    readStream p bytes off size msg parse m = .ok a m' ↔
      m' = m ∧ ∃ stream rest, streamAt p bytes off size = .ok (some stream) ∧
        parse stream = .ok a rest := by
  unfold readStream
  rw [Prog.ofChecked_bind_eq_ok]
  constructor
  · rintro ⟨_ | stream, hs, h⟩
    · cases h
    · obtain ⟨⟨rest, hrest⟩, rfl⟩ := Prog.within_eq_ok.1 h
      exact ⟨rfl, stream, rest, hs, hrest⟩
  · rintro ⟨rfl, stream, rest, hs, hrest⟩
    exact ⟨some stream, hs, Prog.within_eq_ok.2 ⟨⟨rest, hrest⟩, rfl⟩⟩

/-- A stream that is found is shorter than a word can say. -/
theorem length_streamAt {bytes stream : List U8} {off size : U32}
    (h : streamAt p bytes off size = .ok (some stream)) : stream.length < 2 ^ 32 := by
  obtain ⟨stop, -, hstop⟩ := except_bind_eq_ok.1 h
  have hlt := stop.isLt
  split_ifs at hstop with hin
  · obtain rfl : _ = stream := Option.some.inj (Except.ok.inj hstop)
    rw [List.length_take]
    omega
  · cases hstop

/-- The records of a stream of the file; an empty stream is not looked for. -/
def StreamRecords (p : Profile) (bytes : List U8) (off size : U32) (recs : List BindRecord) :
    Prop :=
  if size = 0 then recs = []
  else ∃ stream rest, streamAt p bytes off size = .ok (some stream) ∧
    parseBindInfo p stream = .ok recs rest

theorem streamRecords_eq_ok {bytes : List U8} {off size : U32} {recs : List BindRecord} :
    streamRecords p bytes off size m = .ok recs m' ↔
      m' = m ∧ StreamRecords p bytes off size recs := by
  unfold streamRecords StreamRecords
  split_ifs
  · simp only [Prog.pure_apply, Outcome.ok.injEq]
    exact ⟨fun ⟨h, h'⟩ => ⟨h'.symm, h.symm⟩, fun ⟨h, h'⟩ => ⟨h'.symm, h.symm⟩⟩
  · exact readStream_eq_ok

/-- The records of an image : those of its eager stream, then those of its lazy one. -/
def ImageRecords (p : Profile) (image : MachOImage) (bytes : List U8) (recs : List BindRecord) :
    Prop :=
  match image.dyldInfo with
  | none => recs = []
  | some info => ∃ eager lazy, StreamRecords p bytes info.bindOff info.bindSize eager ∧
      StreamRecords p bytes info.lazyBindOff info.lazyBindSize lazy ∧ recs = eager ++ lazy

/-- Binding is a fold over the records of the image. -/
theorem bindImports_eq_ok {image : MachOImage} {bytes : List U8}
    {segRuntime : List (Option U64)} {r r' : StubResolver} :
    bindImports p image bytes segRuntime r m = .ok r' m' ↔
      ∃ recs, ImageRecords p image bytes recs ∧
        recs.foldlM (bindOne p segRuntime) r m = .ok r' m' := by
  unfold bindImports ImageRecords
  rcases image.dyldInfo with _ | info
  · exact ⟨fun h => ⟨[], rfl, h⟩, fun ⟨_, hrecs, h⟩ => by rwa [hrecs] at h⟩
  · simp only [bindStream, Prog.bind_eq_ok, streamRecords_eq_ok]
    constructor
    · rintro ⟨r₁, m₁, ⟨eager, _, ⟨rfl, heager⟩, h₁⟩, lazy, _, ⟨rfl, hlazy⟩, h₂⟩
      exact ⟨eager ++ lazy, ⟨eager, lazy, heager, hlazy, rfl⟩,
        (Prog.foldlM_append_eq_ok _).2 ⟨r₁, _, h₁, h₂⟩⟩
    · rintro ⟨_, ⟨eager, lazy, heager, hlazy, rfl⟩, h⟩
      obtain ⟨r₁, m₁, h₁, h₂⟩ := (Prog.foldlM_append_eq_ok _).1 h
      exact ⟨r₁, m₁, ⟨eager, m, ⟨rfl, heager⟩, h₁⟩, lazy, m₁, ⟨rfl, hlazy⟩, h₂⟩

/-- A stream gives one list. -/
theorem parsed_unique {α : Type} {parse : StreamM (List α)} {bytes : List U8} {off size : U32}
    {l l' : List α}
    (h : ∃ stream rest, streamAt p bytes off size = .ok (some stream) ∧ parse stream = .ok l rest)
    (h' : ∃ stream rest, streamAt p bytes off size = .ok (some stream) ∧
      parse stream = .ok l' rest) : l = l' := by
  obtain ⟨stream, rest, hs, hp⟩ := h
  obtain ⟨stream', rest', hs', hp'⟩ := h'
  obtain rfl := Option.some.inj (Except.ok.inj (hs.symm.trans hs'))
  exact (Outcome.ok.inj (hp.symm.trans hp')).1

theorem StreamRecords.unique {bytes : List U8} {off size : U32} {recs recs' : List BindRecord}
    (h : StreamRecords p bytes off size recs) (h' : StreamRecords p bytes off size recs') :
    recs = recs' := by
  unfold StreamRecords at h h'
  split_ifs at h h'
  · rw [h, h']
  · exact parsed_unique h h'

theorem ImageRecords.unique {image : MachOImage} {bytes : List U8}
    {recs recs' : List BindRecord} (h : ImageRecords p image bytes recs)
    (h' : ImageRecords p image bytes recs') : recs = recs' := by
  unfold ImageRecords at h h'
  rcases hinfo : image.dyldInfo with _ | info <;> simp only [hinfo] at h h'
  · rw [h, h']
  · obtain ⟨eager, lazy, heager, hlazy, rfl⟩ := h
    obtain ⟨eager', lazy', heager', hlazy', rfl⟩ := h'
    rw [heager.unique heager', hlazy.unique hlazy']

/-- The locations to relocate by a slide : none without a slide, and an empty stream is not
looked for. -/
def ImageLocations (p : Profile) (image : MachOImage) (bytes : List U8) (slide : U64)
    (locs : List RebaseLocation) : Prop :=
  if slide = 0 then locs = []
  else
    match image.dyldInfo with
    | none => locs = []
    | some info =>
      if info.rebaseSize = 0 then locs = []
      else ∃ stream rest, streamAt p bytes info.rebaseOff info.rebaseSize = .ok (some stream) ∧
        parseRebaseInfo p stream = .ok locs rest

/-- Relocation is a loop over the locations of the image. -/
theorem rebase_eq_ok {image : MachOImage} {bytes : List U8} {slide : U64}
    {segRuntime : List (Option U64)} :
    rebase p image bytes slide segRuntime m = .ok () m' ↔
      ∃ locs, ImageLocations p image bytes slide locs ∧
        Prog.forEach locs (rebaseOne slide segRuntime) m = .ok () m' := by
  have hnone : (pure () : MemM Unit) m = .ok () m' ↔ ∃ locs : List RebaseLocation, locs = [] ∧
      Prog.forEach locs (rebaseOne slide segRuntime) m = .ok () m' := by
    simp
  unfold rebase ImageLocations
  split_ifs
  · exact hnone
  · rcases image.dyldInfo with _ | info
    · exact hnone
    · dsimp only
      split_ifs
      · exact hnone
      · simp only [Prog.bind_eq_ok, readStream_eq_ok]
        constructor
        · rintro ⟨locs, m₁, ⟨rfl, hlocs⟩, h⟩
          exact ⟨locs, hlocs, h⟩
        · rintro ⟨locs, hlocs, h⟩
          exact ⟨locs, m, ⟨rfl, hlocs⟩, h⟩

/-- Few symbols occur in the records of a stream. -/
theorem StreamRecords.symbols {bytes : List U8} {off size : U32} {recs : List BindRecord}
    (h : StreamRecords p bytes off size recs) :
    ∃ syms : List String, syms.length ≤ 2 ^ 32 ∧ ∀ rec ∈ recs, rec.symbol ∈ syms := by
  unfold StreamRecords at h
  split_ifs at h
  · exact ⟨[], Nat.zero_le _, by simp [h]⟩
  · obtain ⟨stream, rest, hs, hp⟩ := h
    obtain ⟨syms, hlen, hsyms⟩ := parseBindInfo_symbols hp
    exact ⟨syms, hlen.trans (length_streamAt hs), hsyms⟩

/-- Few symbols occur in the records of an image. -/
theorem ImageRecords.symbols {image : MachOImage} {bytes : List U8} {recs : List BindRecord}
    (h : ImageRecords p image bytes recs) :
    ∃ syms : List String, syms.length ≤ 2 ^ 33 ∧ ∀ rec ∈ recs, rec.symbol ∈ syms := by
  unfold ImageRecords at h
  rcases hinfo : image.dyldInfo with _ | info <;> simp only [hinfo] at h
  · exact ⟨[], Nat.zero_le _, by simp [h]⟩
  · obtain ⟨eager, lazy, heager, hlazy, rfl⟩ := h
    obtain ⟨syms₁, hlen₁, hsyms₁⟩ := heager.symbols
    obtain ⟨syms₂, hlen₂, hsyms₂⟩ := hlazy.symbols
    refine ⟨syms₁ ++ syms₂, ?_, fun rec hrec => ?_⟩
    · rw [List.length_append]
      omega
    · rcases List.mem_append.1 hrec with hrec | hrec
      · exact List.mem_append_left _ (hsyms₁ rec hrec)
      · exact List.mem_append_right _ (hsyms₂ rec hrec)

/-! ## Reading stages leave the memory alone -/

theorem collectInitFuncs_const (slide : U64) :
    ∀ funcs slots, (collectInitFuncs p slide funcs slots).Steps Eq
  | _, [] => Prog.steps_pure _
  | funcs, slot :: slots => by
    have hslot : (initFunc p slide slot).Steps Eq :=
      (Prog.steps_ofChecked _).bind fun _ => (Prog.steps_ofChecked _).bind fun _ =>
        (Prog.steps_ofChecked _).bind fun _ => Prog.steps_get.bind fun _ => Prog.steps_pure _
    exact hslot.bind fun func? => (Prog.steps_ofChecked _).bind fun _ =>
      collectInitFuncs_const slide (funcs ++ func?.toList) slots

/-- The entries of the lazy stream of an image; an empty stream is not looked for. -/
def LazyEntries (p : Profile) (image : MachOImage) (bytes : List U8) (entries : List LazyBind) :
    Prop :=
  match image.dyldInfo with
  | none => entries = []
  | some info =>
    if info.lazyBindSize = 0 then entries = []
    else ∃ stream rest, streamAt p bytes info.lazyBindOff info.lazyBindSize = .ok (some stream) ∧
      parseLazyBindInfo p stream = .ok entries rest

theorem lazyTable_eq_ok {image : MachOImage} {bytes : List U8} {segRuntime : List (Option U64)}
    {table : SortedMap U64 (String × U64)} :
    lazyTable p image bytes segRuntime m = .ok table m' ↔
      m' = m ∧ ∃ entries, LazyEntries p image bytes entries ∧
        table = entries.foldl (addLazyBind segRuntime) .empty := by
  have hempty : (pure .empty : MemM (SortedMap U64 (String × U64))) m = .ok table m' ↔
      m' = m ∧ ∃ entries : List LazyBind, entries = [] ∧
        table = entries.foldl (addLazyBind segRuntime) .empty := by
    simp only [Prog.pure_apply, Outcome.ok.injEq, exists_eq_left, List.foldl_nil]
    exact ⟨fun ⟨h, h'⟩ => ⟨h'.symm, h.symm⟩, fun ⟨h, h'⟩ => ⟨h'.symm, h.symm⟩⟩
  unfold lazyTable LazyEntries
  rcases image.dyldInfo with _ | info
  · exact hempty
  · dsimp only
    split_ifs
    · exact hempty
    · simp only [Prog.bind_eq_ok, readStream_eq_ok, Prog.pure_apply, Outcome.ok.injEq]
      constructor
      · rintro ⟨entries, m₁, ⟨rfl, stream, rest, hs, hp⟩, rfl, rfl⟩
        exact ⟨rfl, entries, ⟨stream, rest, hs, hp⟩, rfl⟩
      · rintro ⟨rfl, entries, ⟨stream, rest, hs, hp⟩, rfl⟩
        exact ⟨entries, m', ⟨rfl, stream, rest, hs, hp⟩, rfl, rfl⟩

/-! ## What the stages keep -/

section Steps

variable {R : GuestMemory → GuestMemory → Prop} [IsPreorder GuestMemory R]

theorem steps_readStream {α : Type} {bytes : List U8} {off size : U32} {msg : String}
    {parse : StreamM α} : (readStream p bytes off size msg parse).Steps R := by
  refine (Prog.steps_ofChecked _).bind fun stream? => ?_
  rcases stream? with _ | stream
  · exact Prog.steps_fail _
  · exact Prog.steps_within _

/-- What mapping a segment keeps, mapping all of them keeps. -/
theorem steps_mapSegments {bytes : List U8} {slide : U64} :
    ∀ segs : List Segment, (∀ seg ∈ segs, seg.name ≠ "__PAGEZERO" → ∀ size data,
      (GuestMemory.mapWithData p (seg.vmaddr + slide) size data .rw .segment seg.name).Steps R) →
      (mapSegments p bytes slide segs).Steps R
  | [], _ => Prog.steps_pure _
  | seg :: segs, hmap => by
    have hseg : (mapSegment p bytes slide seg).Steps R := by
      unfold mapSegment
      split_ifs with hname
      · exact Prog.steps_pure _
      · refine Prog.Steps.ofChecked_bind fun base hbase => (Prog.steps_ofChecked _).bind fun _ => ?_
        obtain rfl := Profile.add_eq_ok hbase
        exact (hmap seg List.mem_cons_self hname _ _).bind fun _ => Prog.steps_pure _
    exact hseg.bind fun _ => (steps_mapSegments segs fun seg' hmem =>
      hmap seg' (List.mem_cons_of_mem _ hmem)).bind fun _ => Prog.steps_pure _

variable (hwrite : ∀ a d, (GuestMemory.write a d).Steps R)

include hwrite

theorem steps_rebaseOne {slide : U64} {segRuntime : List (Option U64)} (loc : RebaseLocation) :
    (rebaseOne slide segRuntime loc).Steps R := by
  unfold rebaseOne
  split_ifs
  · exact Prog.steps_pure _
  · rcases segBase segRuntime loc.segIndex with _ | base
    · exact Prog.steps_pure _
    · refine Prog.steps_get.bind fun m => ?_
      rcases m.readU64 (base + loc.segOffset) with e | v
      · exact Prog.steps_pure _
      · exact hwrite _ _

/-- Relocation only writes. -/
theorem steps_rebase {image : MachOImage} {bytes : List U8} {slide : U64}
    {segRuntime : List (Option U64)} : (rebase p image bytes slide segRuntime).Steps R := by
  unfold rebase
  split_ifs
  · exact Prog.steps_pure _
  · rcases image.dyldInfo with _ | info
    · exact Prog.steps_pure _
    · dsimp only
      split_ifs
      · exact Prog.steps_pure _
      · exact steps_readStream.bind fun locs =>
          Prog.Steps.forEach fun loc _ => steps_rebaseOne hwrite loc

theorem steps_bindOne {segRuntime : List (Option U64)} (r : StubResolver) (rec : BindRecord) :
    (bindOne p segRuntime r rec).Steps R := by
  unfold bindOne
  rcases segBase segRuntime rec.segIndex with _ | base
  · exact Prog.steps_pure _
  · exact (Prog.steps_ofChecked _).bind fun q => (Prog.steps_ofChecked _).bind fun _ =>
      (hwrite _ _).attempt.bind fun _ => Prog.steps_pure _

theorem steps_bindStream {bytes : List U8} {segRuntime : List (Option U64)} {off size : U32}
    (r : StubResolver) : (bindStream p bytes segRuntime off size r).Steps R := by
  have hrecs : (streamRecords p bytes off size).Steps R := by
    unfold streamRecords
    split_ifs
    · exact Prog.steps_pure _
    · exact steps_readStream
  exact hrecs.bind fun recs => Prog.Steps.foldlM fun r rec _ => steps_bindOne hwrite r rec

/-- Binding only writes. -/
theorem steps_bindImports {image : MachOImage} {bytes : List U8} {segRuntime : List (Option U64)}
    (r : StubResolver) : (bindImports p image bytes segRuntime r).Steps R := by
  unfold bindImports
  rcases image.dyldInfo with _ | info
  · exact Prog.steps_pure _
  · exact (steps_bindStream hwrite r).bind fun r' => steps_bindStream hwrite r'

omit hwrite in
/-- The memory is protected segment by segment. -/
theorem steps_restoreProtections {target : Target} {image : MachOImage} {slide : U64}
    (hprotect : ∀ seg ∈ image.segments, seg.name ≠ "__PAGEZERO" →
      (GuestMemory.protect target (seg.vmaddr + slide) (runProt seg)).Steps R) :
    (restoreProtections target image (runtimeBases slide image.segments)).Steps R := by
  refine Prog.Steps.forEach fun ⟨seg, base?⟩ hmem => ?_
  rw [runtimeBases, List.zip_map_right, List.mem_map] at hmem
  obtain ⟨⟨seg', seg''⟩, hzip, heq⟩ := hmem
  obtain ⟨rfl, rfl⟩ := Prod.mk.inj heq
  obtain ⟨i, hi⟩ := List.mem_iff_getElem?.1 hzip
  obtain ⟨h₁, h₂⟩ := List.getElem?_zip_eq_some.1 hi
  obtain rfl : seg' = seg'' := Option.some.inj (h₁.symm.trans h₂)
  simp only [id_eq]
  split_ifs with hname
  · exact Prog.steps_pure _
  · exact hprotect _ (List.mem_of_getElem? h₁) hname

theorem steps_buildStack {cfg : LayoutConfig} : (buildStack p cfg).Steps R := by
  unfold buildStack
  exact (Prog.steps_ofChecked _).bind fun _ => (Prog.steps_ofChecked _).bind fun _ =>
    (Prog.steps_ofChecked _).bind fun _ => (hwrite _ _).bind fun _ => (hwrite _ _).bind fun _ =>
    (Prog.steps_ofChecked _).bind fun _ => (hwrite _ _).bind fun _ => (hwrite _ _).bind fun _ =>
    (Prog.steps_ofChecked _).bind fun _ => (hwrite _ _).bind fun _ =>
    (Prog.steps_ofChecked _).bind fun _ => (hwrite _ _).bind fun _ => (hwrite _ _).bind fun _ =>
    Prog.steps_pure _

theorem steps_publishStubs {b : Build} {cfg : LayoutConfig} (r : StubResolver)
    (hmap : ∀ size,
      (GuestMemory.map b.profile cfg.trampolineBase size .rw .segment "__stubs").Steps R)
    (hprotect : (GuestMemory.protect b.target cfg.trampolineBase .rx).Steps R) :
    (publishStubs b cfg r).Steps R :=
  (Prog.steps_ofChecked _).bind fun _ => (Prog.steps_ofChecked _).bind fun _ =>
    (hmap _).bind fun _ => (Prog.Steps.forEach fun _ _ => hwrite _ _).bind fun _ =>
    hprotect.bind fun _ => Prog.steps_pure _

omit hwrite in
/-- Publishing a region does not change the memory. -/
theorem steps_commitToNative (target : Target) (a : U64) :
    (GuestMemory.commitToNative target a).Steps R := by
  unfold GuestMemory.commitToNative
  rcases target with _ | nativeProtect
  · exact Prog.steps_pure _
  · exact Prog.steps_get.bind fun _ => (Prog.steps_ofResult _).bind fun _ =>
      (Prog.steps_ofChecked _).bind fun _ => Prog.steps_pure _

theorem steps_initStack {b : Build} {cfg : LayoutConfig}
    (hmap : (GuestMemory.map b.profile (cfg.stackTop - cfg.stackSize) cfg.stackSize .rw .stack
      "stack").Steps R) : (initStack b cfg).Steps R := by
  refine Prog.Steps.ofChecked_bind fun base hbase => ?_
  obtain rfl := Profile.sub_eq_ok hbase
  exact hmap.bind fun _ =>
    (steps_buildStack hwrite).bind fun _ => (steps_commitToNative _ _).bind fun _ =>
    Prog.steps_pure _

end Steps

end Process

open Process

/-! ## The whole build -/

/-- A build that succeeded, with the memory after each of its stages. -/
structure Stages (b : Build) (image : MachOImage) (bytes : List U8) (cfg : LayoutConfig)
    (m : GuestMemory) (p : ProcessImage) (m' : GuestMemory) where
  segRuntime : List (Option U64)
  resolver : StubResolver
  mapped : GuestMemory
  rebased : GuestMemory
  bound : GuestMemory
  stubbed : GuestMemory
  guarded : GuestMemory
  encrypted_eq : image.isEncrypted = false
  map_eq : mapSegments b.profile bytes cfg.slide image.segments m = .ok segRuntime mapped
  rebase_eq : rebase b.profile image bytes cfg.slide segRuntime mapped = .ok () rebased
  bind_eq : bindImports b.profile image bytes segRuntime
    (.new cfg.trampolineBase cfg.trampolineStride) rebased = .ok resolver bound
  publish_eq : publishStubs b cfg resolver bound = .ok p.trampolineEnd stubbed
  restore_eq : restoreProtections b.target image segRuntime stubbed = .ok () guarded
  init_eq : collectInitFuncs b.profile cfg.slide [] (initSlots image) guarded =
    .ok p.initFuncs guarded
  stack_eq : initStack b cfg guarded = .ok (p.sp, p.argRegs) m'
  entry_eq : resolveEntry image cfg.slide = .ok p.entry
  lazy_eq : lazyTable b.profile image bytes segRuntime m' = .ok p.lazyBinds m'
  trampolines_eq : p.trampolines = resolver.reverse
  base_eq : p.trampolineBase = cfg.trampolineBase
  stubs_eq : p.symbolStubs = resolver.forward

/-- A build succeeds exactly when its stages do. -/
theorem buildProcess_eq_ok {b : Build} {image : MachOImage} {bytes : List U8}
    {cfg : LayoutConfig} {m m' : GuestMemory} {p : ProcessImage} :
    buildProcess b image bytes cfg m = .ok p m' ↔
      Nonempty (Stages b image bytes cfg m p m') := by
  unfold buildProcess
  constructor
  · intro h
    split_ifs at h with henc
    · cases h
    · simp only [Prog.bind_eq_ok, bindImage, finish] at h
      obtain ⟨⟨_, _⟩, _, ⟨segRuntime, m₁, hmap, ⟨⟩, m₂, hrebase, resolver, m₃, hbind, hpair⟩, stop,
        m₄, hpub, ⟨⟩, m₅, hrestore, initFuncs, m₆, hinit, ⟨sp, argRegs⟩, m₇, hstack, entry, m₈,
        hentry, lazyBinds, m₉, hlazy, hret⟩ := h
      obtain ⟨⟨rfl, rfl⟩, rfl⟩ := by simpa using hpair
      obtain rfl := (collectInitFuncs_const _ _ _).ok hinit
      obtain ⟨hres, rfl⟩ := Prog.ofResult_eq_ok.1 hentry
      obtain ⟨rfl, -⟩ := lazyTable_eq_ok.1 hlazy
      obtain ⟨rfl, rfl⟩ : _ = p ∧ m₉ = m' := by simpa using hret
      exact ⟨{
        segRuntime, resolver, mapped := m₁, rebased := m₂, bound := m₃, stubbed := m₄,
        guarded := m₅, encrypted_eq := by simpa using henc, map_eq := hmap,
        rebase_eq := hrebase, bind_eq := hbind, publish_eq := hpub, restore_eq := hrestore,
        init_eq := hinit, stack_eq := hstack, entry_eq := hres, lazy_eq := hlazy,
        trampolines_eq := rfl, base_eq := rfl, stubs_eq := rfl }⟩
  · rintro ⟨s⟩
    rw [if_neg (by simp [s.encrypted_eq])]
    simp only [Prog.bind_eq_ok, bindImage, finish]
    refine ⟨_, _, ⟨_, _, s.map_eq, _, _, s.rebase_eq, _, _, s.bind_eq, rfl⟩, _, _, s.publish_eq,
      _, _, s.restore_eq, _, _, s.init_eq, _, _, s.stack_eq, _, _,
      Prog.ofResult_eq_ok.2 ⟨s.entry_eq, rfl⟩, _, _, s.lazy_eq, ?_⟩
    rw [← s.trampolines_eq, ← s.base_eq, ← s.stubs_eq]
    rfl

theorem Stages.segRuntime_eq {b : Build} {image : MachOImage} {bytes : List U8}
    {cfg : LayoutConfig} {m m' : GuestMemory} {p : ProcessImage}
    (s : Stages b image bytes cfg m p m') :
    s.segRuntime = runtimeBases cfg.slide image.segments :=
  mapSegments_bases s.map_eq

/-- The protections that a build gives to a region once it is mapped. -/
def FinalProt (image : MachOImage) (prot : Protection) : Prop :=
  prot = .rx ∨ ∃ seg ∈ image.segments, seg.name ≠ "__PAGEZERO" ∧ prot = runProt seg

/-- What storing, mapping writable memory and protecting it respect, a build respects. -/
theorem Stages.steps {b : Build} {image : MachOImage} {bytes : List U8} {cfg : LayoutConfig}
    {m m' : GuestMemory} {p : ProcessImage} {R : GuestMemory → GuestMemory → Prop}
    [IsPreorder GuestMemory R] (s : Stages b image bytes cfg m p m')
    (hwrite : ∀ a d, (GuestMemory.write a d).Steps R)
    (hdata : ∀ base size data kind name,
      (GuestMemory.mapWithData b.profile base size data .rw kind name).Steps R)
    (hmap : ∀ base size kind name, (GuestMemory.map b.profile base size .rw kind name).Steps R)
    (hprotect : ∀ a prot, FinalProt image prot → (GuestMemory.protect b.target a prot).Steps R) :
    R m m' := by
  have hmapped := (steps_mapSegments _ fun _ _ _ _ _ => hdata _ _ _ _ _).ok s.map_eq
  have hrebase := (steps_rebase hwrite).ok s.rebase_eq
  have hbind := (steps_bindImports hwrite _).ok s.bind_eq
  have hstubs := (steps_publishStubs hwrite _ (fun _ => hmap _ _ _ _)
    (hprotect _ _ (Or.inl rfl))).ok s.publish_eq
  have hrestore : R s.stubbed s.guarded := by
    have h := s.restore_eq
    rw [s.segRuntime_eq] at h
    exact (steps_restoreProtections fun seg hseg hname =>
      hprotect _ _ (Or.inr ⟨seg, hseg, hname, rfl⟩)).ok h
  have hstack := (steps_initStack hwrite (hmap _ _ _ _)).ok s.stack_eq
  exact trans_of _ hmapped (trans_of _ hrebase (trans_of _ hbind (trans_of _ hstubs
    (trans_of _ hrestore hstack))))

end IosEmu
