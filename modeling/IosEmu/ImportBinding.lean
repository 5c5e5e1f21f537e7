import IosEmu.Machine
import IosEmu.StubPage

/-!
# Imports and their trampolines

In a process that was built with the default layout, the maps from symbols to trampolines and
back are inverse to each other, the trampolines are numbered without gaps and lie in a page
full of traps, and a pointer that a record has stored is the trampoline of the symbol of
exactly that record. A call there is handed to the environment under that symbol
(`binding_faithful`).
-/

open SysLib

namespace IosEmu

open Process GuestMemory

variable {b : Build} {image : MachOImage} {bytes : List U8} {cfg : LayoutConfig}
  {m m' : GuestMemory} {p : ProcessImage}

/-! ## The maps -/

/-- Symbols and trampolines are mapped to each other. -/
theorem stubs_iff_trampolines (hstride : cfg.trampolineStride = 16)
    (hok : buildProcess b image bytes cfg m = .ok p m') (s : String) (a : U64) :
    p.symbolStubs.get? s = some a ↔ p.trampolines.get? a = some s := by
  obtain ⟨st⟩ := buildProcess_eq_ok.1 hok
  have hbind := st.bind_eq
  rw [hstride] at hbind
  obtain ⟨-, syms, hs, -, -⟩ := serves_of_bindImports hbind
  rw [st.stubs_eq, st.trampolines_eq]
  exact hs.forward_iff_reverse s a

/-- The trampolines are numbered by the symbols of the records with a mapped segment. -/
theorem stubs_numbered (hstride : cfg.trampolineStride = 16)
    (hok : buildProcess b image bytes cfg m = .ok p m') :
    ∃ syms : List String, syms.Nodup ∧ syms.length ≤ 2 ^ 33 ∧
      (∀ recs, ImageRecords b.profile image bytes recs → ∀ t, t ∈ syms ↔
        ∃ rec ∈ recs, (target (runtimeBases cfg.slide image.segments) rec).isSome ∧
          rec.symbol = t) ∧
      ∀ s a, p.symbolStubs.get? s = some a ↔
        ∃ k, syms[k]? = some s ∧ a = StubResolver.slot p.trampolineBase k := by
  obtain ⟨st⟩ := buildProcess_eq_ok.1 hok
  have hbind := st.bind_eq
  rw [hstride, st.segRuntime_eq] at hbind
  obtain ⟨hbase, syms, hs, hlen, hmem⟩ := serves_of_bindImports hbind
  refine ⟨syms, hs.nodup, hlen, hmem, fun s a => ?_⟩
  rw [st.stubs_eq, st.base_eq, ← hbase]
  exact hs.forward_iff s a

/-! ## The page -/

/-- Every trampoline lies in the page, and every word of the page is a trap. -/
theorem stubs_in_page (hm : m.Inv) (hcfg : cfg.IsDefault)
    (hargv : (utf8Bytes cfg.argv0).length < 4096)
    (hok : buildProcess b image bytes cfg m = .ok p m') :
    (∀ s a, p.symbolStubs.get? s = some a → p.trampolineBase ≤ a ∧ a < p.trampolineEnd) ∧
      ∀ i, 4 * i < (p.trampolineEnd - p.trampolineBase).toNat →
        m'.flat.Reads (p.trampolineBase + BitVec.ofNat 64 (4 * i)) (toLeBytes32 brk0) := by
  obtain ⟨st⟩ := buildProcess_eq_ok.1 hok
  have hbind := st.bind_eq
  rw [hcfg.stride_eq] at hbind
  obtain ⟨hbase, syms, hs, hlen, -⟩ := serves_of_bindImports hbind
  have hused := hs.toNat_used hlen
  obtain ⟨-, n, hend, hle, hfit, hreads⟩ := st.keepsBytes hcfg hargv hm
  have hpage : ∀ k, k ≤ 4 * n → (cfg.trampolineBase + BitVec.ofNat 64 k).toNat =
      cfg.trampolineBase.toNat + k := by
    intro k hk
    rw [BitVec.toNat_add, BitVec.toNat_ofNat]
    omega
  rw [st.base_eq, st.stubs_eq, hend]
  refine ⟨fun s a ha => ?_, fun i hi => ?_⟩
  · obtain ⟨k, hk, rfl⟩ := (hs.forward_iff s a).1 ha
    have hklt := (List.getElem?_eq_some_iff.1 hk).1
    rw [hbase, StubResolver.slot, BitVec.le_def, BitVec.lt_def, hpage _ (by omega),
      hpage _ (le_refl _)]
    omega
  · have hsub : (cfg.trampolineBase + BitVec.ofNat 64 (4 * n) - cfg.trampolineBase).toNat =
        4 * n := by
      rw [BitVec.add_comm, BitVec.add_sub_cancel, BitVec.toNat_ofNat]
      omega
    rw [hsub] at hi
    obtain ⟨k, rfl⟩ : ∃ k, n = i + 1 + k := ⟨n - (i + 1), by omega⟩
    rw [sled_mid] at hreads
    have hword := hreads.mid (by rw [length_sled]; omega)
    rwa [length_sled] at hword

/-! ## The stored pointers -/

/-- The state in which the imports are bound : the segments are mapped and relocated. -/
def BindState (b : Build) (image : MachOImage) (bytes : List U8) (cfg : LayoutConfig)
    (m m₁ : GuestMemory) : Prop :=
  ∃ bases m₀, mapSegments b.profile bytes cfg.slide image.segments m = .ok bases m₀ ∧
    rebase b.profile image bytes cfg.slide bases m₀ = .ok () m₁

theorem Stages.bindState_eq (s : Stages b image bytes cfg m p m') {m₁ : GuestMemory}
    (h : BindState b image bytes cfg m m₁) : s.rebased = m₁ := by
  obtain ⟨bases, m₀, hmap, hrebase⟩ := h
  have hmap' := s.map_eq
  rw [hmap] at hmap'
  obtain ⟨rfl, rfl⟩ : bases = s.segRuntime ∧ m₀ = s.mapped := by simpa using hmap'
  have hrebase' := s.rebase_eq
  rw [hrebase] at hrebase'
  exact (by simpa using hrebase' : m₁ = s.rebased).symm

/-- A record with no addend whose pointer can be stored, and is not stored over by a later
record, leaves the trampoline of its symbol in the final memory. -/
theorem stored_pointer (hm : m.Inv) (hcfg : cfg.IsDefault)
    (hargv : (utf8Bytes cfg.argv0).length < 4096)
    (hok : buildProcess b image bytes cfg m = .ok p m') {m₁ : GuestMemory}
    (hm₁ : BindState b image bytes cfg m m₁) {recs before after : List BindRecord}
    {rec : BindRecord} {a : U64} (hrecs : ImageRecords b.profile image bytes recs)
    (hsplit : recs = before ++ rec :: after) (hadd : rec.addend = 0)
    (ha : Storable m₁ (runtimeBases cfg.slide image.segments) rec a)
    (hlater : ∀ rec' ∈ after, ∀ a',
      Storable m₁ (runtimeBases cfg.slide image.segments) rec' a' →
        a.toNat + 8 ≤ a'.toNat ∨ a'.toNat + 8 ≤ a.toNat) :
    ∃ stub, p.symbolStubs.get? rec.symbol = some stub ∧ m'.flat.Reads a (toLeBytes64 stub) := by
  obtain ⟨st⟩ := buildProcess_eq_ok.1 hok
  obtain ⟨recs', hrecs', hfold⟩ := bindImports_eq_ok.1 st.bind_eq
  obtain rfl := hrecs.unique hrecs'
  obtain rfl := st.bindState_eq hm₁
  rw [hsplit, st.segRuntime_eq] at hfold
  obtain ⟨stub, hstub, hreads⟩ := fold_stores (st.inv_rebased hm) hfold ha hadd hlater
  rw [← st.stubs_eq] at hstub
  exact ⟨stub, hstub, (st.keepsBytes hcfg hargv hm).1.reads hreads⟩

/-- A call of a trampoline in the table is one of its symbol. -/
theorem serviceTrampoline_of_get {W : Type} {target : Target} {env : HostEnvironment W}
    {mach : Machine W} {a : U64} {s : String} (h : mach.trampolines.get? a = some s) :
    Machine.serviceTrampoline target env a mach =
      (if s = "dyld_stub_binder" then Machine.dyldStubBinder target
        else Machine.callImport env s) mach := by
  unfold Machine.serviceTrampoline
  rw [Prog.get_bind, h]

/-- Binding is faithful : the maps are inverse, the trampolines are numbered without gaps in a
page of traps, and a stored pointer is the trampoline of its record's symbol, to which a call
there is handed. -/
theorem binding_faithful (b : Build) (image : MachOImage) (bytes : List U8) (cfg : LayoutConfig)
    (m m' : GuestMemory) (p : ProcessImage) (hm : Reachable b.profile m) (hcfg : cfg.IsDefault)
    (hargv : (utf8Bytes cfg.argv0).length < 4096)
    (hok : buildProcess b image bytes cfg m = .ok p m') :
    (∀ s a, p.symbolStubs.get? s = some a ↔ p.trampolines.get? a = some s) ∧
    (∃ syms : List String, syms.Nodup ∧
      (∀ recs, ImageRecords b.profile image bytes recs → ∀ t, t ∈ syms ↔
        ∃ rec ∈ recs, (target (runtimeBases cfg.slide image.segments) rec).isSome ∧
          rec.symbol = t) ∧
      ∀ s a, p.symbolStubs.get? s = some a ↔
        ∃ k < syms.length, syms[k]? = some s ∧
          a = p.trampolineBase + BitVec.ofNat 64 (16 * k)) ∧
    (∀ s a, p.symbolStubs.get? s = some a → p.trampolineBase ≤ a ∧ a < p.trampolineEnd) ∧
    (∀ i, 4 * i < (p.trampolineEnd - p.trampolineBase).toNat →
      m'.flat.Reads (p.trampolineBase + BitVec.ofNat 64 (4 * i)) (toLeBytes32 brk0)) ∧
    ∀ m₁, BindState b image bytes cfg m m₁ →
      ∀ recs, ImageRecords b.profile image bytes recs →
      ∀ before rec after, recs = before ++ rec :: after → rec.addend = 0 →
      ∀ a, Storable m₁ (runtimeBases cfg.slide image.segments) rec a →
      (∀ rec' ∈ after, ∀ a', Storable m₁ (runtimeBases cfg.slide image.segments) rec' a' →
        a.toNat + 8 ≤ a'.toNat ∨ a'.toNat + 8 ≤ a.toNat) →
      ∃ stub, p.symbolStubs.get? rec.symbol = some stub ∧
        m'.flat.Reads a (toLeBytes64 stub) ∧
        ∀ (W : Type) (env : HostEnvironment W) (mach : Machine W),
          mach.trampolines = p.trampolines →
          Machine.serviceTrampoline b.target env stub mach =
            (if rec.symbol = "dyld_stub_binder" then Machine.dyldStubBinder b.target
              else Machine.callImport env rec.symbol) mach := by
  have hinverse := stubs_iff_trampolines hcfg.stride_eq hok
  obtain ⟨hrange, hbrk⟩ := stubs_in_page hm.inv hcfg hargv hok
  obtain ⟨syms, hnodup, -, hmem, hslots⟩ := stubs_numbered hcfg.stride_eq hok
  refine ⟨hinverse, ⟨syms, hnodup, hmem, fun s a => ?_⟩, hrange, hbrk, ?_⟩
  · rw [hslots]
    exact exists_congr fun k =>
      ⟨fun ⟨hk, ha⟩ => ⟨(List.getElem?_eq_some_iff.1 hk).1, hk, ha⟩, fun ⟨_, h⟩ => h⟩
  · intro m₁ hm₁ recs hrecs before rec after hsplit hadd a ha hlater
    obtain ⟨stub, hstub, hreads⟩ :=
      stored_pointer hm.inv hcfg hargv hok hm₁ hrecs hsplit hadd ha hlater
    refine ⟨stub, hstub, hreads, fun W env mach hmach => serviceTrampoline_of_get ?_⟩
    rw [hmach]
    exact (hinverse rec.symbol stub).1 hstub

/-! ## A process with one import -/

/-- A thin file whose bind stream stores `_malloc` at offset 256 of its only segment. -/
def importFile : List U8 :=
  leBytes 4 0xfeedfacf ++ leBytes 4 0x0100000c ++ leBytes 4 0 ++ leBytes 4 2 ++ leBytes 4 3 ++
    leBytes 4 144 ++ leBytes 4 0x200000 ++ leBytes 4 0 ++
    (leBytes 4 0x19 ++ leBytes 4 72 ++ leBytes 16 0x415441445f5f ++ leBytes 8 0x100000000 ++
      leBytes 8 0x4000 ++ leBytes 8 0 ++ leBytes 8 0 ++ leBytes 4 3 ++ leBytes 4 3 ++
      leBytes 4 0 ++ leBytes 4 0) ++
    (leBytes 4 0x80000022 ++ leBytes 4 48 ++ leBytes 8 0 ++ leBytes 4 176 ++ leBytes 4 14 ++
      leBytes 24 0) ++
    (leBytes 4 0x80000028 ++ leBytes 4 24 ++ leBytes 16 0) ++
    [0x40, 0x5f, 0x6d, 0x61, 0x6c, 0x6c, 0x6f, 0x63, 0x00, 0x70, 0x80, 0x02, 0x90, 0x00]

/-- Its image. -/
def importImage : MachOImage :=
  { MachOImage.blank 0 2 0x200000 with
    segments := [⟨"__DATA", 0x100000000, 0x4000, 0, 0, .rw, .rw, []⟩]
    entry := some (.main 0 0)
    dyldInfo := some ⟨0, 0, 176, 14, 0, 0, 0, 0⟩ }

/-- The default layout. -/
def importConfig : LayoutConfig where
  slide := 0
  stackTop := 0x1c0000000
  stackSize := 0x800000
  trampolineBase := 0x500000000
  trampolineStride := 16
  argv0 := "/var/mobile/Applications/0/App.app/Executable"

theorem isDefault_importConfig : importConfig.IsDefault :=
  ⟨rfl, rfl, rfl, rfl⟩

/-- The memory with the default heap. -/
def importMemory : GuestMemory where
  regions := SortedMap.empty.insert 0x120000000
    { base := 0x120000000, prot := .rw, kind := .heap, name := "heap",
      data := Buffer.replicate 0x4000000 0 (by decide) }
  mmapCursor := mmapTop
  heap := BumpAllocator.new 0x120000000 0x4000000

theorem reachable_importMemory : Reachable .release importMemory :=
  @Reachable.new _ 0x120000000 0x4000000 _ rfl

theorem parse_importFile : MachOImage.parse importFile = .ok importImage := by
  decide +kernel

set_option maxRecDepth 100000 in
theorem bindImage_importFile :
    ((bindImage .release importImage importFile importConfig >>= fun x =>
      publishPage ⟨.release, .host⟩ importConfig x.2 >>= fun stop =>
        finish ⟨.release, .host⟩ importImage importFile importConfig x.1 x.2 stop)
      importMemory).isOk = true := by
  decide +kernel

/-- The process of the file. -/
theorem buildProcess_importFile :
    ∃ p m', buildProcess ⟨.release, .host⟩ importImage importFile importConfig importMemory =
      .ok p m' := by
  obtain ⟨p, m', h⟩ := Outcome.isOk_iff.1 bindImage_importFile
  exact ⟨p, m', buildProcess_of_page reachable_importMemory.inv isDefault_importConfig.stride_eq rfl h⟩

/-- The record of the file. -/
def importRecord : BindRecord :=
  ⟨0, 0x100, "_malloc", 0, 0, .pointer, false⟩

theorem imageRecords_importFile : ImageRecords .release importImage importFile [importRecord] := by
  refine ⟨[importRecord], [], ?_, rfl, rfl⟩
  rw [StreamRecords, if_neg (by decide)]
  exact ⟨importFile.drop 176, [], by decide +kernel, by decide +kernel⟩

/-- Where the record is stored, before it is. -/
theorem storable_importFile :
    ∃ m₁, BindState ⟨.release, .host⟩ importImage importFile importConfig importMemory m₁ ∧
      Storable m₁ (runtimeBases 0 importImage.segments) importRecord 0x100000100 := by
  have hok : ((mapSegments .release importFile 0 importImage.segments >>= fun bases =>
      rebase .release importImage importFile 0 bases >>= fun _ =>
        write 0x100000100 (toLeBytes64 0)) importMemory).isOk = true := by
    decide
  obtain ⟨⟨⟩, m₂, h⟩ := Outcome.isOk_iff.1 hok
  obtain ⟨bases, m₀, hmap, h⟩ := Prog.bind_eq_ok.1 h
  obtain ⟨⟨⟩, m₁, hrebase, hwrite⟩ := Prog.bind_eq_ok.1 h
  have hinv := (keepsInv_rebase _ _ _ _ _).ok hrebase
    ((keepsInv_mapSegments _ _ _ _).ok hmap reachable_importMemory.inv)
  exact ⟨m₁, ⟨bases, m₀, hmap, hrebase⟩, by decide, hinv.write_isOk_iff.1 ⟨m₂, hwrite⟩⟩

/-- The process of the file has the trampoline of `_malloc` in the slot of the record. -/
theorem binding_faithful_importFile :
    Reachable .release importMemory ∧ importConfig.IsDefault ∧
      ∃ p m', buildProcess ⟨.release, .host⟩ importImage importFile importConfig importMemory =
          .ok p m' ∧
        ∃ stub, p.symbolStubs.get? "_malloc" = some stub ∧
          m'.flat.Reads 0x100000100 (toLeBytes64 stub) ∧
          ∀ (W : Type) (env : HostEnvironment W) (mach : Machine W),
            mach.trampolines = p.trampolines →
            Machine.serviceTrampoline .host env stub mach =
              Machine.callImport env "_malloc" mach := by
  obtain ⟨p, m', hok⟩ := buildProcess_importFile
  obtain ⟨m₁, hm₁, hstore⟩ := storable_importFile
  refine ⟨reachable_importMemory, isDefault_importConfig, p, m', hok, ?_⟩
  obtain ⟨-, -, -, -, hstored⟩ := binding_faithful ⟨.release, .host⟩ importImage importFile
    importConfig importMemory m' p reachable_importMemory isDefault_importConfig (by decide) hok
  obtain ⟨stub, hstub, hreads, hcall⟩ := hstored m₁ hm₁ _ imageRecords_importFile [] importRecord
    [] rfl rfl _ hstore fun _ hrec => absurd hrec List.not_mem_nil
  refine ⟨stub, hstub, hreads, fun W env mach hmach => ?_⟩
  exact (hcall W env mach hmach).trans (by rw [if_neg (by decide)]; rfl)

end IosEmu
