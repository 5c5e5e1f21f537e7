import IosEmu.ImportBinding
import IosEmu.StreamPanics

/-!
# When a build panics

The exact condition under which loading a file with the default layout ends without a panic,
stage by stage. A release build panics where the end of a segment in the file wraps to before its
start, where its span is free and larger than `isize::MAX`, and where a vector would have to grow
beyond `isize::MAX` bytes : a few bytes of a stream can ask for `2 ^ 64 - 1` records. A debug build
also panics where a sum overflows : an address and the slide, the bounds of a stream, an addend, the
address of an initialiser, and operands that are too long.

A stage is only reached if the ones before it return, so its condition is under that
hypothesis (`BuildFits`).
-/

open SysLib

namespace IosEmu

namespace Process

open Prog

variable {p : Profile} {bytes : List U8} {slide : U64} {m : GuestMemory}

/-! ## Segments -/

/-- The segment is mapped without a panic. -/
def SegmentFits (p : Profile) (bytes : List U8) (slide : U64) (seg : Segment)
    (m : GuestMemory) : Prop :=
  seg.name ≠ "__PAGEZERO" →
    (p = .debug → seg.vmaddr.toNat + slide.toNat < 2 ^ 64) ∧ DataFits p bytes seg ∧
      Rounds p (max seg.vmsize (BitVec.ofNat 64 (fileData bytes seg).length)) ∧
      ((fileData bytes seg).length ≤ (mappedSize bytes seg).toNat →
        m.Allocates (seg.vmaddr + slide) (mappedSize bytes seg))

theorem safe_mapSegment_iff {seg : Segment} :
    (mapSegment p bytes slide seg).Safe m ↔ SegmentFits p bytes slide seg m := by
  unfold mapSegment SegmentFits
  split_ifs with hname
  · exact iff_of_true (total_pure _ m) fun h => absurd hname h
  · rw [safe_ofChecked_bind_iff, Profile.add_bind_iff, safe_ofChecked_bind_iff]
    simp only [segmentData_eq_ok, and_assoc, exists_and_left, exists_eq_left,
      safe_bind_total_iff fun _ => total_pure _, GuestMemory.safe_mapWithData_iff]
    exact ⟨fun h _ => h, fun h => h hname⟩

/-- Every segment is mapped without a panic in the memory that it finds. -/
def SegmentsFit (p : Profile) (bytes : List U8) (slide : U64) :
    List Segment → GuestMemory → Prop
  | [], _ => True
  | seg :: segs, m => SegmentFits p bytes slide seg m ∧
      ∀ base m', mapSegment p bytes slide seg m = .ok base m' → SegmentsFit p bytes slide segs m'

theorem safe_mapSegments_iff : ∀ {segs : List Segment} {m : GuestMemory},
    (mapSegments p bytes slide segs).Safe m ↔ SegmentsFit p bytes slide segs m
  | [], m => iff_of_true (total_pure _ m) trivial
  | seg :: segs, m => by
    unfold mapSegments SegmentsFit
    rw [Prog.safe_bind_iff, safe_mapSegment_iff]
    refine and_congr_right fun _ => forall_congr' fun base => forall_congr' fun m' =>
      imp_congr_right fun _ => ?_
    rw [safe_bind_total_iff fun _ => total_pure _, safe_mapSegments_iff]

/-! ## Streams -/

/-- The bounds of a stream can be computed, and what is there fits. -/
def StreamFits (p : Profile) (bytes : List U8) (off size : U32) (fits : List U8 → Prop) : Prop :=
  (p = .debug → off.toNat + size.toNat < 2 ^ 32) ∧
    ∀ stream, streamAt p bytes off size = .ok (some stream) → fits stream

theorem safe_readStream_iff {α : Type} {off size : U32} {msg : String} {parse : StreamM α}
    {fits : List U8 → Prop} (hfits : ∀ stream, parse.Safe stream ↔ fits stream) :
    (readStream p bytes off size msg parse).Safe m ↔ StreamFits p bytes off size fits := by
  have hbounds : (∃ r, streamAt p bytes off size = .ok r) ↔
      (p = .debug → off.toNat + size.toNat < 2 ^ 32) := by
    rw [← Profile.add_isOk_iff]
    simp only [streamAt, except_bind_eq_ok]
    exact ⟨fun ⟨_, stop, hstop, _⟩ => ⟨stop, hstop⟩, fun ⟨stop, hstop⟩ => ⟨_, stop, hstop, rfl⟩⟩
  unfold readStream StreamFits
  rw [safe_ofChecked_bind_iff, ← hbounds]
  constructor
  · rintro ⟨stream?, hstream, h⟩
    refine ⟨⟨_, hstream⟩, fun stream hsome => ?_⟩
    obtain rfl := Except.ok.inj (hstream.symm.trans hsome)
    exact (hfits stream).1 (safe_within_iff.1 h)
  · rintro ⟨⟨_ | stream, hstream⟩, h⟩
    · exact ⟨none, hstream, total_fail _ m⟩
    · exact ⟨some stream, hstream, safe_within_iff.2 ((hfits stream).2 (h stream hstream))⟩

/-! ## Rebase -/

/-- The rebase stream is looked for and decoded without a panic. -/
def RebaseFits (p : Profile) (image : MachOImage) (bytes : List U8) (slide : U64) : Prop :=
  slide ≠ 0 → ∀ info, image.dyldInfo = some info → info.rebaseSize ≠ 0 →
    StreamFits p bytes info.rebaseOff info.rebaseSize
      (OpsFit (Rebase.readOp p) RebaseOp.count (Rebase.Fits p) 0)

theorem total_rebaseOne (slide : U64) (bases : List (Option U64)) (loc : RebaseLocation) :
    (rebaseOne slide bases loc).Total := by
  unfold rebaseOne
  split_ifs
  · exact total_pure _
  · rcases segBase bases loc.segIndex with _ | base
    · exact total_pure _
    · refine total_get.bind fun m => ?_
      rcases m.readU64 (base + loc.segOffset) with e | v
      · exact total_pure _
      · exact GuestMemory.total_write _ _

theorem safe_rebase_iff {image : MachOImage} {bases : List (Option U64)} :
    (rebase p image bytes slide bases).Safe m ↔ RebaseFits p image bytes slide := by
  unfold rebase RebaseFits
  split_ifs with hslide
  · exact iff_of_true (total_pure _ m) fun h => absurd hslide h
  · rcases image.dyldInfo with _ | info
    · exact iff_of_true (total_pure _ m) (by rintro _ _ ⟨⟩)
    · simp only [Option.some.injEq, forall_eq']
      split_ifs with hsize
      · exact iff_of_true (total_pure _ m) fun _ h => absurd hsize h
      · rw [safe_bind_total_iff fun locs => Total.forEach fun loc _ => total_rebaseOne slide bases loc,
          safe_readStream_iff fun _ => safe_parseRebaseInfo_iff]
        exact ⟨fun h _ _ => h, fun h => h hslide hsize⟩

/-! ## Bind -/

/-- The sums of the trampolines and the addends of the records are signed words. -/
def AddendsFit (p : Profile) (bases : List (Option U64)) : StubResolver → List BindRecord → Prop
  | _, [] => True
  | r, rec :: recs =>
    match segBase bases rec.segIndex with
    | none => AddendsFit p bases r recs
    | some _ => ∀ stub r', r.resolve p rec.symbol = .ok (stub, r') →
        (p = .debug → (stub + rec.addend).toInt = stub.toInt + rec.addend.toInt) ∧
          AddendsFit p bases r' recs

/-- A resolver that serves few symbols can be asked for one more. -/
theorem resolve_isOk {r : StubResolver} {syms : List String} (hs : r.Serves syms)
    (hroom : r.base.toNat + 16 * (syms.length + 1) < 2 ^ 64) (symbol : String) :
    ∃ stub r', r.resolve p symbol = .ok (stub, r') := by
  unfold StubResolver.resolve
  rcases r.forward.get? symbol with _ | stub
  · have hnext : r.next.toNat = r.base.toNat + 16 * syms.length := by
      rw [hs.next_eq, StubResolver.slot, BitVec.toNat_add, BitVec.toNat_ofNat,
        Nat.mod_eq_of_lt (show 16 * syms.length < 2 ^ 64 by omega),
        Nat.mod_eq_of_lt (show r.base.toNat + 16 * syms.length < 2 ^ 64 by omega)]
    obtain ⟨next, hadd⟩ : ∃ next, p.add r.next r.stride = .ok next := by
      refine Profile.add_isOk_iff.2 fun _ => ?_
      rw [hnext, hs.stride_eq]
      change _ + 16 < 2 ^ 64
      omega
    exact ⟨_, _, except_bind_eq_ok.2 ⟨next, hadd, rfl⟩⟩
  · exact ⟨stub, r, rfl⟩

theorem infallible_bindOne (bases : List (Option U64)) (r : StubResolver) (rec : BindRecord) :
    (bindOne p bases r rec).Infallible := by
  unfold bindOne
  rcases segBase bases rec.segIndex with _ | base
  · exact infallible_pure _
  · exact (infallible_ofChecked _).bind fun _ => (infallible_ofChecked _).bind fun _ =>
      infallible_attempt.bind fun _ => infallible_pure _

section Fold

variable {bases : List (Option U64)} {occurring : List String}

/-- The records are bound without a panic exactly if the addends fit. The resolver never runs
out of trampolines. -/
theorem safe_fold_iff : ∀ {recs : List BindRecord} {r : StubResolver} {syms : List String}
    {m : GuestMemory}, r.Serves syms → syms ⊆ occurring →
      (∀ rec ∈ recs, rec.symbol ∈ occurring) →
      r.base.toNat + 16 * (occurring.length + 1) < 2 ^ 64 →
      ((recs.foldlM (bindOne p bases) r).Safe m ↔ AddendsFit p bases r recs)
  | [], r, syms, m, _, _, _, _ => iff_of_true (total_pure _ m) trivial
  | rec :: recs, r, syms, m, hs, hsub, hocc, hroom => by
    have hlen : syms.length ≤ occurring.length := (hs.nodup.subperm hsub).length_le
    have hocc' : ∀ rec' ∈ recs, rec'.symbol ∈ occurring :=
      fun rec' h => hocc rec' (List.mem_cons_of_mem rec h)
    rw [List.foldlM_cons]
    unfold AddendsFit
    rcases hseg : segBase bases rec.segIndex with _ | base
    · have hpass : bindOne p bases r rec m = .ok r m := by
        unfold bindOne
        rw [hseg]
        rfl
      rw [Prog.safe_bind_iff, hpass]
      simp only [Outcome.ok.injEq, and_imp, forall_eq', forall_apply_eq_imp_iff]
      rw [safe_fold_iff hs hsub hocc' hroom]
      exact and_iff_right (safe_of_ok hpass)
    · obtain ⟨stub, r', hstub⟩ := resolve_isOk (p := p) hs (by omega) rec.symbol
      obtain ⟨syms', hs', hmem⟩ := hs.resolve (by omega) hstub
      have hbase := (StubResolver.resolve_forward hstub).1
      have hsub' : syms' ⊆ occurring := fun t ht => by
        rcases (hmem t).1 ht with ht | rfl
        · exact hsub ht
        · exact hocc rec List.mem_cons_self
      have hrest : ∀ m', (recs.foldlM (bindOne p bases) r').Safe m' ↔
          AddendsFit p bases r' recs := fun m' =>
        safe_fold_iff hs' hsub' hocc' (by rw [hbase]; exact hroom)
      have hone : (bindOne p bases r rec).Safe m ↔
          (p = .debug → (stub + rec.addend).toInt = stub.toInt + rec.addend.toInt) := by
        unfold bindOne
        simp only [hseg, hstub]
        rw [safe_ofChecked_bind_iff, ← Profile.addSigned_isOk_iff, ← safe_ofChecked_iff]
        simp only [Except.ok.injEq, exists_eq_left']
        exact safe_bind_total_iff fun _ => Total.bind
          (fun m' => safe_attempt_iff.2 (GuestMemory.total_write _ _ m')) fun _ => total_pure _
      have hnext : ∀ {r'' m'}, bindOne p bases r rec m = .ok r'' m' → r'' = r' := by
        intro r'' m' h
        rcases bindOne_cases h with ⟨hnone, -, -⟩ | ⟨a, stub', -, hstub', -⟩
        · unfold target at hnone
          rw [hseg] at hnone
          cases hnone
        · rw [hstub] at hstub'
          exact (Prod.mk.inj (Except.ok.inj hstub')).2.symm
      have hfits : (∀ stub' r'', r.resolve p rec.symbol = .ok (stub', r'') →
          (p = .debug → (stub' + rec.addend).toInt = stub'.toInt + rec.addend.toInt) ∧
            AddendsFit p bases r'' recs) ↔
          (p = .debug → (stub + rec.addend).toInt = stub.toInt + rec.addend.toInt) ∧
            AddendsFit p bases r' recs := by
        rw [hstub]
        simp only [Except.ok.injEq, Prod.mk.injEq, and_imp, forall_eq', forall_apply_eq_imp_iff]
      rw [Prog.safe_bind_iff, hfits, ← hone]
      constructor
      · rintro ⟨hsafe, h⟩
        obtain ⟨r'', m', hrun⟩ := (infallible_bindOne bases r rec).safe_iff.1 hsafe
        obtain rfl := hnext hrun
        exact ⟨hsafe, (hrest m').1 (h _ m' hrun)⟩
      · rintro ⟨hsafe, h⟩
        refine ⟨hsafe, fun r'' m' hrun => ?_⟩
        obtain rfl := hnext hrun
        exact (hrest m').2 h

end Fold

/-- A bind stream is looked for and decoded without a panic. -/
def RecordsFit (p : Profile) (bytes : List U8) (off size : U32) : Prop :=
  size ≠ 0 → StreamFits p bytes off size
    (OpsFit (Bind.readOp p) BindOp.count (Bind.Fits p) 0)

theorem safe_streamRecords_iff {off size : U32} :
    (streamRecords p bytes off size).Safe m ↔ RecordsFit p bytes off size := by
  unfold streamRecords RecordsFit
  split_ifs with hsize
  · exact iff_of_true (total_pure _ m) fun h => absurd hsize h
  · rw [safe_readStream_iff fun _ => safe_parseBindInfo_iff]
    exact ⟨fun h _ => h, fun h => h hsize⟩

theorem safe_bindStream_iff {bases : List (Option U64)} {off size : U32} {r : StubResolver} :
    (bindStream p bytes bases off size r).Safe m ↔
      RecordsFit p bytes off size ∧ ∀ recs, StreamRecords p bytes off size recs →
        (recs.foldlM (bindOne p bases) r).Safe m := by
  unfold bindStream
  rw [Prog.safe_bind_iff, safe_streamRecords_iff]
  refine and_congr_right fun _ => forall_congr' fun recs => ?_
  simp only [streamRecords_eq_ok, and_imp, forall_eq]

/-- The eager stream, and then the lazy one, are decoded and bound without a panic. -/
def BindFits (p : Profile) (image : MachOImage) (bytes : List U8) (bases : List (Option U64))
    (r : StubResolver) : Prop :=
  ∀ info, image.dyldInfo = some info →
    RecordsFit p bytes info.bindOff info.bindSize ∧
      ∀ eager, StreamRecords p bytes info.bindOff info.bindSize eager →
        AddendsFit p bases r eager ∧ RecordsFit p bytes info.lazyBindOff info.lazyBindSize ∧
          ∀ lazy, StreamRecords p bytes info.lazyBindOff info.lazyBindSize lazy →
            AddendsFit p bases r (eager ++ lazy)

theorem safe_bindImports_iff {image : MachOImage} {bases : List (Option U64)} {base : U64}
    (hbase : base.toNat < 2 ^ 63) :
    (bindImports p image bytes bases (.new base 16)).Safe m ↔
      BindFits p image bytes bases (.new base 16) := by
  have hfold : ∀ {recs : List BindRecord} {occurring : List String},
      occurring.length ≤ 2 ^ 33 → (∀ rec ∈ recs, rec.symbol ∈ occurring) →
      ((recs.foldlM (bindOne p bases) (.new base 16)).Safe m ↔
        AddendsFit p bases (.new base 16) recs) := fun hlen hocc =>
    safe_fold_iff (StubResolver.serves_new base) (List.nil_subset _) hocc
      (by change base.toNat + _ < _; omega)
  unfold bindImports BindFits
  rcases image.dyldInfo with _ | info
  · exact iff_of_true (total_pure _ m) (by rintro _ ⟨⟩)
  · simp only [Option.some.injEq, forall_eq']
    rw [Prog.safe_bind_iff, safe_bindStream_iff, and_assoc]
    have hboth : ∀ {eager lazy : List BindRecord},
        StreamRecords p bytes info.bindOff info.bindSize eager →
        StreamRecords p bytes info.lazyBindOff info.lazyBindSize lazy →
        (((eager ++ lazy).foldlM (bindOne p bases) (.new base 16)).Safe m ↔
          AddendsFit p bases (.new base 16) (eager ++ lazy)) := by
      intro eager lazy heager hlazy
      obtain ⟨occ, hlen, hocc⟩ := heager.symbols
      obtain ⟨occ', hlen', hocc'⟩ := hlazy.symbols
      refine @hfold _ (occ ++ occ') (by rw [List.length_append]; omega) fun rec hrec => ?_
      rcases List.mem_append.1 hrec with hrec | hrec
      · exact List.mem_append_left _ (hocc rec hrec)
      · exact List.mem_append_right _ (hocc' rec hrec)
    refine and_congr_right fun _ => ?_
    constructor
    · rintro ⟨hsafe, h⟩ eager heager
      obtain ⟨occ, hlen, hocc⟩ := heager.symbols
      have hrun := hsafe eager heager
      obtain ⟨r', m', hok⟩ := (Infallible.foldlM (infallible_bindOne bases)).safe_iff.1 hrun
      have hlazy := safe_bindStream_iff.1 (h r' m'
        (Prog.bind_eq_ok.2 ⟨eager, m, streamRecords_eq_ok.2 ⟨rfl, heager⟩, hok⟩))
      refine ⟨(hfold (by omega) hocc).1 hrun, hlazy.1, fun lazy hrecs => ?_⟩
      refine (hboth heager hrecs).1 (safe_foldlM_append_iff.2 ⟨hrun, fun r'' m'' hok' => ?_⟩)
      obtain ⟨rfl, rfl⟩ := Outcome.ok.inj (hok.symm.trans hok')
      exact hlazy.2 lazy hrecs
    · intro h
      refine ⟨fun eager heager => ?_, fun r' m' hstream => ?_⟩
      · obtain ⟨occ, hlen, hocc⟩ := heager.symbols
        exact (hfold (by omega) hocc).2 (h eager heager).1
      · obtain ⟨eager, _, hrecs, hok⟩ := Prog.bind_eq_ok.1 hstream
        obtain ⟨rfl, heager⟩ := streamRecords_eq_ok.1 hrecs
        refine safe_bindStream_iff.2 ⟨(h eager heager).2.1, fun lazy hlazy => ?_⟩
        have hsafe := (hboth heager hlazy).2 ((h eager heager).2.2 lazy hlazy)
        exact (safe_foldlM_append_iff.1 hsafe).2 r' m' hok

/-! ## Stages that do not panic -/

/-- Few trampolines are published without a panic. -/
theorem safe_publishStubs {b : Build} {cfg : LayoutConfig} {r : StubResolver} {syms : List String}
    (hs : r.Serves syms) (hlen : syms.length ≤ 2 ^ 33) (hbase : r.base.toNat < 2 ^ 63) :
    (publishStubs b cfg r).Safe m := by
  have hused : (r.next - r.base).toNat = 16 * syms.length := hs.toNat_used hlen
  have hle : r.base ≤ r.next := by
    rw [BitVec.le_def, hs.next_eq, StubResolver.slot, BitVec.toNat_add, BitVec.toNat_ofNat]
    omega
  have hsize : (pageRound (max (r.next - r.base) pageSize)).toNat ≤ 2 ^ 38 := by
    rw [toNat_pageRound, toNat_max, hused, show pageSize.toNat = 0x4000 from rfl]
    omega
  unfold publishStubs
  obtain ⟨used, hsub⟩ := Profile.sub_isOk_iff.2 fun _ : b.profile = .debug => hle
  refine safe_ofChecked_bind_iff.2 ⟨used, hsub, ?_⟩
  obtain rfl := Profile.sub_eq_ok hsub
  refine safe_ofChecked_bind_iff.2 (alignUp_bind_iff.2 ⟨fun _ => ?_, ?_⟩)
  · rw [toNat_max, hused, show pageSize.toNat = 0x4000 from rfl]
    omega
  · refine Prog.safe_bind_iff.2 ⟨GuestMemory.safe_map_iff.2 ⟨fun _ => ?_, fun _ => ?_⟩,
      fun _ m' _ => ?_⟩
    · rw [toNat_max]
      change max _ 1 + _ < _
      omega
    · rw [toNat_pageRound, toNat_max]
      change (max _ 1 + _) % _ / _ * _ ≤ 2 ^ 63 - 1
      omega
    · exact (Total.forEach fun i _ => GuestMemory.total_write _ _).bind
        (fun _ => (GuestMemory.total_protect _ _ _).bind fun _ => total_pure _) m'

theorem total_restoreProtections (target : Target) (image : MachOImage)
    (bases : List (Option U64)) : (restoreProtections target image bases).Total := by
  refine Total.forEach fun ⟨seg, base?⟩ _ => ?_
  rcases base? with _ | base
  · exact total_pure _
  · exact GuestMemory.total_protect _ _ _

/-- A short path is written far above address zero. -/
theorem total_buildStack {cfg : LayoutConfig} (htop : cfg.stackTop = 0x1c0000000)
    (hargv : (utf8Bytes cfg.argv0).length < 4096) : (buildStack p cfg).Total := by
  have hstack : cfg.stackTop.toNat = 0x1c0000000 := by rw [htop]; rfl
  obtain ⟨str, -, heq⟩ := buildStack_eq p cfg (by omega)
  rw [heq]
  exact (Total.forEach fun b _ => GuestMemory.total_write _ _).bind fun _ => total_pure _

theorem safe_initStack {b : Build} {cfg : LayoutConfig} (hcfg : cfg.IsDefault)
    (hargv : (utf8Bytes cfg.argv0).length < 4096) : (initStack b cfg).Safe m := by
  unfold initStack
  rw [hcfg.stackTop_eq, hcfg.stackSize_eq]
  obtain ⟨base, hbase⟩ : ∃ z, b.profile.sub (0x1c0000000 : U64) 0x800000 = .ok z :=
    Profile.sub_isOk_iff.2 fun _ => by decide
  refine safe_ofChecked_bind_iff.2 ⟨base, hbase, ?_⟩
  refine Prog.safe_bind_iff.2 ⟨GuestMemory.safe_map_iff.2 ⟨fun _ => by decide, fun _ => by decide⟩,
    fun _ m' _ => ?_⟩
  rw [Prog.safe_bind_iff]
  exact ⟨total_buildStack hcfg.stackTop_eq hargv m', fun _ m'' _ =>
    (GuestMemory.total_commitToNative _ _).bind (fun _ => total_pure _) m''⟩

/-! ## Initialisers and lazy binds -/

/-- The pointer that is read in a slot. -/
def readInit (slide : U64) (m : GuestMemory) (slot : Section × ℕ) : Option U64 :=
  (m.readU64 (slot.1.addr + slide + BitVec.ofNat 64 slot.2 * 8)).toOption

/-- The addresses of the slots of the initialisers are words, and there is room for the pointers
that can be read. -/
def InitFits (p : Profile) (image : MachOImage) (slide : U64) (m : GuestMemory) : Prop :=
  (p = .debug → ∀ slot ∈ initSlots image,
    slot.1.addr.toNat + slide.toNat + 8 * slot.2 < 2 ^ 64) ∧
  ((initSlots image).filterMap (readInit slide m)).length ≤ vecLimit initSize

theorem safe_initFunc_iff {slot : Section × ℕ} (hslot : 8 * slot.2 < 2 ^ 64) :
    (initFunc p slide slot).Safe m ↔
      (p = .debug → slot.1.addr.toNat + slide.toNat + 8 * slot.2 < 2 ^ 64) := by
  have hindex : (BitVec.ofNat 64 slot.2).toNat = slot.2 := by
    rw [BitVec.toNat_ofNat]
    omega
  have height : (8 : U64).toNat = 8 := rfl
  have hoff : (BitVec.ofNat 64 slot.2 * 8).toNat = 8 * slot.2 := by
    rw [BitVec.toNat_mul, hindex, height, mul_comm slot.2 8, Nat.mod_eq_of_lt hslot]
  unfold initFunc
  rw [safe_ofChecked_bind_iff, Profile.add_bind_iff, safe_ofChecked_bind_iff,
    Profile.mul_bind_iff, safe_bind_total_iff fun _ => total_get.bind fun _ => total_pure _,
    safe_ofChecked_iff, Profile.add_isOk_iff, hoff, hindex, height]
  constructor
  · rintro ⟨hstart, -, hsum⟩ hdebug
    have hsum := hsum hdebug
    rwa [BitVec.toNat_add, Nat.mod_eq_of_lt (hstart hdebug)] at hsum
  · intro h
    refine ⟨fun hdebug => ?_, fun _ => by omega, fun hdebug => ?_⟩
    · have := h hdebug
      omega
    · rw [BitVec.toNat_add, Nat.mod_eq_of_lt (by have := h hdebug; omega)]
      exact h hdebug

theorem infallible_initFunc (slot : Section × ℕ) : (initFunc p slide slot).Infallible :=
  (infallible_ofChecked _).bind fun _ => (infallible_ofChecked _).bind fun _ =>
    (infallible_ofChecked _).bind fun _ => infallible_get.bind fun _ => infallible_pure _

theorem initFunc_eq_ok {slot : Section × ℕ} {func? : Option U64} {m' : GuestMemory}
    (h : initFunc p slide slot m = .ok func? m') : m' = m ∧ func? = readInit slide m slot := by
  obtain ⟨start, hstart, h⟩ := Prog.ofChecked_bind_eq_ok.1 h
  obtain ⟨off, hoff, h⟩ := Prog.ofChecked_bind_eq_ok.1 h
  obtain ⟨addr, haddr, h⟩ := Prog.ofChecked_bind_eq_ok.1 h
  obtain rfl := Profile.add_eq_ok hstart
  obtain rfl := Profile.mul_eq_ok hoff
  obtain rfl := Profile.add_eq_ok haddr
  obtain ⟨rfl, rfl⟩ := Outcome.ok.inj h
  exact ⟨rfl, rfl⟩

theorem safe_collectInitFuncs_iff {m : GuestMemory} : ∀ {slots : List (Section × ℕ)}
    {funcs : List U64}, (∀ slot ∈ slots, 8 * slot.2 < 2 ^ 64) → funcs.length ≤ vecLimit initSize →
    ((collectInitFuncs p slide funcs slots).Safe m ↔
      (p = .debug → ∀ slot ∈ slots, slot.1.addr.toNat + slide.toNat + 8 * slot.2 < 2 ^ 64) ∧
      funcs.length + (slots.filterMap (readInit slide m)).length ≤ vecLimit initSize)
  | [], funcs, _, hroom => iff_of_true (total_pure _ m) ⟨by simp, hroom⟩
  | slot :: slots, funcs, hslots, hroom => by
    have hrest := fun funcs => @safe_collectInitFuncs_iff m slots funcs
      fun slot' h => hslots slot' (List.mem_cons_of_mem slot h)
    have hsafe := @safe_initFunc_iff p slide m slot (hslots slot List.mem_cons_self)
    have hread : (slot :: slots).filterMap (readInit slide m) =
        (readInit slide m slot).toList ++ slots.filterMap (readInit slide m) := by
      rw [List.filterMap_cons]
      rcases readInit slide m slot with _ | v <;> rfl
    unfold collectInitFuncs
    rw [Prog.safe_bind_iff, hsafe, hread, List.length_append, ← Nat.add_assoc,
      ← List.length_append, List.forall_mem_cons, imp_and, and_assoc]
    refine and_congr_right fun hslot => ?_
    obtain ⟨func?, m', hrun⟩ := (infallible_initFunc slot).safe_iff.1 (hsafe.2 hslot)
    obtain ⟨rfl, rfl⟩ := initFunc_eq_ok hrun
    constructor
    · intro h
      obtain ⟨hfirst, h⟩ := safe_vecRoom_bind_iff.1 (h _ _ hrun)
      rw [← List.length_append] at hfirst
      exact (hrest _ hfirst).1 h
    · rintro ⟨haddrs, hlen⟩ func? m' hrun
      obtain ⟨rfl, rfl⟩ := initFunc_eq_ok hrun
      have hfirst := (Nat.le_add_right _ _).trans hlen
      rw [List.length_append] at hfirst
      refine safe_vecRoom_bind_iff.2 ⟨hfirst, (hrest _ ?_).2 ⟨haddrs, hlen⟩⟩
      rwa [List.length_append]

theorem infallible_collectInitFuncs :
    ∀ funcs slots, (collectInitFuncs p slide funcs slots).Infallible
  | _, [] => infallible_pure _
  | funcs, slot :: slots => (infallible_initFunc slot).bind fun func? =>
      (infallible_ofChecked _).bind fun _ =>
        infallible_collectInitFuncs (funcs ++ func?.toList) slots

/-- The slots are in their sections. -/
theorem initSlots_lt {image : MachOImage} {slot : Section × ℕ} (h : slot ∈ initSlots image) :
    8 * slot.2 < 2 ^ 64 := by
  obtain ⟨sect, -, hslot⟩ := List.mem_flatMap.1 h
  obtain ⟨i, hi, rfl⟩ := List.mem_map.1 hslot
  have hlt := List.mem_range.1 hi
  have := sect.size.isLt
  dsimp only
  omega

/-- The lazy stream is looked for and decoded a second time without a panic. -/
def LazyFits (p : Profile) (image : MachOImage) (bytes : List U8) : Prop :=
  ∀ info, image.dyldInfo = some info → info.lazyBindSize ≠ 0 →
    StreamFits p bytes info.lazyBindOff info.lazyBindSize
      (OpsFit (LazyBind.readOp p) (fun _ => 0) (fun _ => LazyBind.OpFits p) 0)

theorem safe_lazyTable_iff {image : MachOImage} {bases : List (Option U64)} :
    (lazyTable p image bytes bases).Safe m ↔ LazyFits p image bytes := by
  unfold lazyTable LazyFits
  rcases image.dyldInfo with _ | info
  · exact iff_of_true (total_pure _ m) (by rintro _ ⟨⟩)
  · simp only [Option.some.injEq, forall_eq']
    split_ifs with hsize
    · exact iff_of_true (total_pure _ m) fun h => absurd hsize h
    · rw [safe_bind_total_iff fun _ => total_pure _,
        safe_readStream_iff fun _ => safe_parseLazyBindInfo_iff]
      exact ⟨fun h _ => h, fun h => h hsize⟩

end Process

/-! ## The whole build -/

open Process Prog

/-- A build does not panic : every stage that it gets to fits. -/
structure BuildFits (b : Build) (image : MachOImage) (bytes : List U8) (cfg : LayoutConfig)
    (m : GuestMemory) : Prop where
  segments : SegmentsFit b.profile bytes cfg.slide image.segments m
  rebase : ∀ bases mapped, mapSegments b.profile bytes cfg.slide image.segments m = .ok bases mapped →
    RebaseFits b.profile image bytes cfg.slide
  bind : ∀ bases mapped rebased,
    mapSegments b.profile bytes cfg.slide image.segments m = .ok bases mapped →
    Process.rebase b.profile image bytes cfg.slide bases mapped = .ok () rebased →
      BindFits b.profile image bytes bases (.new cfg.trampolineBase cfg.trampolineStride)
  init : ∀ bases r bound stop stubbed guarded,
    bindImage b.profile image bytes cfg m = .ok (bases, r) bound →
    publishStubs b cfg r bound = .ok stop stubbed →
    restoreProtections b.target image bases stubbed = .ok () guarded →
      InitFits b.profile image cfg.slide guarded
  lazy : ∀ bases r bound stop stubbed guarded frame stacked entry,
    bindImage b.profile image bytes cfg m = .ok (bases, r) bound →
    publishStubs b cfg r bound = .ok stop stubbed →
    restoreProtections b.target image bases stubbed = .ok () guarded →
    initStack b cfg guarded = .ok frame stacked → resolveEntry image cfg.slide = .ok entry →
      LazyFits b.profile image bytes

section Build

variable {b : Build} {image : MachOImage} {bytes : List U8} {cfg : LayoutConfig}
  {m : GuestMemory}

theorem safe_bindImage_iff (hcfg : cfg.IsDefault) :
    (bindImage b.profile image bytes cfg).Safe m ↔
      SegmentsFit b.profile bytes cfg.slide image.segments m ∧
      ∀ bases mapped, mapSegments b.profile bytes cfg.slide image.segments m = .ok bases mapped →
        RebaseFits b.profile image bytes cfg.slide ∧
        ∀ rebased, Process.rebase b.profile image bytes cfg.slide bases mapped = .ok () rebased →
          BindFits b.profile image bytes bases (.new cfg.trampolineBase cfg.trampolineStride) := by
  have hbind : ∀ (bases : List (Option U64)) m', (bindImports b.profile image bytes bases
      (.new cfg.trampolineBase cfg.trampolineStride)).Safe m' ↔
      BindFits b.profile image bytes bases (.new cfg.trampolineBase cfg.trampolineStride) := by
    intro bases m'
    rw [hcfg.stride_eq]
    exact safe_bindImports_iff (by rw [hcfg.base_eq]; decide)
  unfold bindImage
  simp only [Prog.safe_bind_iff, safe_mapSegments_iff, safe_rebase_iff, hbind]
  refine and_congr_right fun _ => forall_congr' fun bases => forall_congr' fun mapped =>
    imp_congr_right fun _ => and_congr_right fun _ => ?_
  exact ⟨fun h rebased hok => (h () rebased hok).1,
    fun h _ rebased hok => ⟨h rebased hok, fun _ m' _ => total_pure _ m'⟩⟩

theorem safe_finish_iff (hcfg : cfg.IsDefault) (hargv : (utf8Bytes cfg.argv0).length < 4096)
    {bases : List (Option U64)} {r : StubResolver} {stop : U64} :
    (finish b image bytes cfg bases r stop).Safe m ↔
      ∀ guarded, restoreProtections b.target image bases m = .ok () guarded →
        InitFits b.profile image cfg.slide guarded ∧
        ∀ frame stacked entry, initStack b cfg guarded = .ok frame stacked →
          resolveEntry image cfg.slide = .ok entry → LazyFits b.profile image bytes := by
  have hinit : ∀ m', (collectInitFuncs b.profile cfg.slide [] (initSlots image)).Safe m' ↔
      InitFits b.profile image cfg.slide m' := by
    intro m'
    refine (safe_collectInitFuncs_iff (fun slot hslot => initSlots_lt hslot)
      (Nat.zero_le _)).trans ?_
    rw [InitFits, List.length_nil, Nat.zero_add]
  unfold finish
  rw [(total_restoreProtections _ _ _).safe_bind_iff]
  constructor
  · intro h guarded hguarded
    obtain ⟨hsafe, h⟩ := Prog.safe_bind_iff.1 (h () guarded hguarded)
    refine ⟨(hinit guarded).1 hsafe, fun frame stacked entry hstack hentry => ?_⟩
    obtain ⟨funcs, m₁, hfuncs⟩ := (infallible_collectInitFuncs _ _).safe_iff.1 hsafe
    obtain rfl := (collectInitFuncs_const _ _ _).ok hfuncs
    have hrest := (Prog.safe_bind_iff.1 (h funcs guarded hfuncs)).2 frame stacked hstack
    have hlazy := safe_ofResult_bind_iff.1 hrest entry hentry
    exact safe_lazyTable_iff.1 ((safe_bind_total_iff fun _ => total_pure _).1 hlazy)
  · intro h _ guarded hguarded
    obtain ⟨hfits, h⟩ := h guarded hguarded
    refine Prog.safe_bind_iff.2 ⟨(hinit guarded).2 hfits, fun funcs m₁ hfuncs => ?_⟩
    obtain rfl := (collectInitFuncs_const _ _ _).ok hfuncs
    refine Prog.safe_bind_iff.2 ⟨safe_initStack hcfg hargv, fun frame stacked hstack => ?_⟩
    refine safe_ofResult_bind_iff.2 fun entry hentry => ?_
    exact (safe_bind_total_iff fun _ => total_pure _).2
      (safe_lazyTable_iff.2 (h frame stacked entry hstack hentry))

theorem safe_buildProcess_iff (hcfg : cfg.IsDefault)
    (hargv : (utf8Bytes cfg.argv0).length < 4096) (henc : image.isEncrypted = false) :
    (buildProcess b image bytes cfg).Safe m ↔ BuildFits b image bytes cfg m := by
  -- Whatever the records are, the resolver serves few symbols.
  have hpublish : ∀ {bases r bound}, bindImage b.profile image bytes cfg m = .ok (bases, r) bound →
      (publishStubs b cfg r).Safe bound := by
    intro bases r bound hbind
    simp only [bindImage, Prog.bind_eq_ok, Prog.pure_apply, Outcome.ok.injEq, Prod.mk.injEq] at hbind
    obtain ⟨bases', m₁, -, ⟨⟩, m₂, -, r', m₃, himports, ⟨-, rfl⟩, -⟩ := hbind
    rw [hcfg.stride_eq] at himports
    obtain ⟨hbase, syms, hs, hlen, -⟩ := serves_of_bindImports himports
    exact safe_publishStubs hs hlen (by rw [hbase, hcfg.base_eq]; decide)
  unfold buildProcess
  rw [if_neg (by simp [henc]), Prog.safe_bind_iff, safe_bindImage_iff hcfg]
  constructor
  · rintro ⟨⟨hsegs, himage⟩, h⟩
    have hfinish : ∀ {bases r bound stop stubbed},
        bindImage b.profile image bytes cfg m = .ok (bases, r) bound →
        publishStubs b cfg r bound = .ok stop stubbed →
        (finish b image bytes cfg bases r stop).Safe stubbed := fun hbind hstubs =>
      (Prog.safe_bind_iff.1 (h _ _ hbind)).2 _ _ hstubs
    exact {
      segments := hsegs
      rebase := fun bases mapped hmap => (himage bases mapped hmap).1
      bind := fun bases mapped rebased hmap => (himage bases mapped hmap).2 rebased
      init := fun _ _ _ _ _ guarded hbind hstubs hguarded =>
        ((safe_finish_iff hcfg hargv).1 (hfinish hbind hstubs) guarded hguarded).1
      lazy := fun _ _ _ _ _ guarded frame stacked entry hbind hstubs hguarded =>
        ((safe_finish_iff hcfg hargv).1 (hfinish hbind hstubs) guarded hguarded).2 frame stacked
          entry }
  · intro h
    refine ⟨⟨h.segments, fun bases mapped hmap => ⟨h.rebase bases mapped hmap, fun rebased =>
      h.bind bases mapped rebased hmap⟩⟩, ?_⟩
    rintro ⟨bases, r⟩ bound hbind
    refine Prog.safe_bind_iff.2 ⟨hpublish hbind, fun stop stubbed hstubs => ?_⟩
    exact (safe_finish_iff hcfg hargv).2 fun guarded hguarded =>
      ⟨h.init bases r bound stop stubbed guarded hbind hstubs hguarded,
        fun frame stacked entry => h.lazy bases r bound stop stubbed guarded frame stacked entry
          hbind hstubs hguarded⟩

end Build

/-- Parse the bytes of an executable and build its process. -/
def parseAndBuild (b : Build) (bytes : List U8) (cfg : LayoutConfig) : MemM ProcessImage := do
  let image ← ofResult (MachOImage.parse bytes)
  buildProcess b image bytes cfg

/-- Loading a file with the default layout, at any slide and into any memory, does not panic
exactly if it is not parsed, is encrypted, or every stage of its build that is reached fits. -/
theorem parseAndBuild_safe_iff (b : Build) (bytes : List U8) (cfg : LayoutConfig)
    (m : GuestMemory) (hcfg : cfg.IsDefault) (hargv : (utf8Bytes cfg.argv0).length < 4096) :
    (∀ e, parseAndBuild b bytes cfg m ≠ .panic e) ↔
      ∀ image, MachOImage.parse bytes = .ok image → image.isEncrypted = false →
        BuildFits b image bytes cfg m := by
  refine safe_ofResult_bind_iff.trans (forall_congr' fun image => imp_congr_right fun _ => ?_)
  by_cases henc : image.isEncrypted = true
  · refine iff_of_true ?_ fun h => absurd henc (by simp [h])
    unfold buildProcess
    rw [if_pos henc]
    exact total_fail _ m
  · have hclear : image.isEncrypted = false := by simpa using henc
    rw [safe_buildProcess_iff hcfg hargv hclear]
    exact ⟨fun h _ => h, fun h => h hclear⟩

/-! ## A file that panics -/

/-- The process of a file is built, and every stage fits. -/
theorem parseAndBuild_safe_importFile :
    importConfig.IsDefault ∧ (utf8Bytes importConfig.argv0).length < 4096 ∧
      BuildFits ⟨.release, .host⟩ importImage importFile importConfig importMemory := by
  have hargv : (utf8Bytes importConfig.argv0).length < 4096 := by decide
  refine ⟨isDefault_importConfig, hargv, (parseAndBuild_safe_iff ⟨.release, .host⟩ importFile
    importConfig importMemory isDefault_importConfig hargv).1 ?_ importImage parse_importFile rfl⟩
  obtain ⟨proc, m', hbuild⟩ := buildProcess_importFile
  have hok : parseAndBuild ⟨.release, .host⟩ importFile importConfig importMemory = .ok proc m' :=
    ofResult_bind_eq_ok.2 ⟨importImage, parse_importFile, hbuild⟩
  exact safe_of_ok hok

/-- A thin file with one segment, whose 16 bytes start 8 bytes before the end of the word. -/
def wrappedFile : List U8 :=
  leBytes 4 0xfeedfacf ++ leBytes 4 0x0100000c ++ leBytes 4 0 ++ leBytes 4 2 ++ leBytes 4 1 ++
    leBytes 4 72 ++ leBytes 4 0x200000 ++ leBytes 4 0 ++
    (leBytes 4 0x19 ++ leBytes 4 72 ++ leBytes 16 0x415441445f5f ++ leBytes 8 0x100000000 ++
      leBytes 8 0x4000 ++ leBytes 8 0xfffffffffffffff8 ++ leBytes 8 16 ++ leBytes 4 3 ++
      leBytes 4 3 ++ leBytes 4 0 ++ leBytes 4 0)

/-- The slice of the segment starts after its end. -/
theorem wrappedFile_panics :
    parseAndBuild ⟨.release, .host⟩ wrappedFile importConfig importMemory =
      .panic .sliceOutOfRange := by
  have hparse : MachOImage.parse wrappedFile = .ok
      { MachOImage.blank 0 2 0x200000 with
        segments := [⟨"__DATA", 0x100000000, 0x4000, 0xfffffffffffffff8, 16, .rw, .rw, []⟩] } := by
    decide
  unfold parseAndBuild
  rw [hparse]
  rfl

end IosEmu
