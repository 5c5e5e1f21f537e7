import IosEmu.Relocation

/-!
# The regions of a build

What the last stages of a build leave at an address, with the bytes. The page of trampolines
and the stack depend on the layout and on the number of imports, but not on the segments or on
where these are. The last segment at an address has its region with its own protection.
-/

open SysLib

namespace IosEmu

open GuestMemory

/-! ## Blocks -/

namespace GuestMemory

variable {m m' : GuestMemory} {k : U64} {r : Region}

/-- The region with blocks stored in it. -/
def Region.putBlocks (r : Region) (blocks : List Block) : Region :=
  { r with data := blocks.foldl (fun data b =>
      data.overwrite (b.addr.toNat - r.base.toNat) b.bytes) r.data }

@[simp] theorem Region.size_putBlocks (r : Region) (blocks : List Block) :
    (Region.putBlocks r blocks).data.size = r.data.size := by
  have hfold : ∀ (l : List Block) (data : Buffer U8 isizeMax), (l.foldl (fun data b =>
      data.overwrite (b.addr.toNat - r.base.toNat) b.bytes) data).size = data.size := by
    intro l
    induction l with
    | nil => exact fun _ => rfl
    | cons b l ih => exact fun data => (ih _).trans (Buffer.size_overwrite _ _ _)
  exact hfold blocks r.data

/-- Blocks that start in a region are stored there. -/
theorem Inv.regions_writeBlocks : ∀ {blocks : List Block} {m : GuestMemory} {r : Region}, m.Inv →
    m.regions.get? k = some r →
    (∀ b ∈ blocks, k.toNat ≤ b.addr.toNat ∧ b.addr.toNat < k.toNat + r.data.size) →
    writeBlocks blocks m = .ok () m' →
    m'.Inv ∧ m'.regions.get? k = some (Region.putBlocks r blocks) ∧
      ∀ k' ≠ k, m'.regions.get? k' = m.regions.get? k'
  | [], m, r, hinv, hr, _, h => by
    obtain ⟨-, rfl⟩ := Outcome.ok.inj h
    exact ⟨hinv, hr, fun _ _ => rfl⟩
  | b :: blocks, m, r, hinv, hr, hin, h => by
    obtain ⟨⟨⟩, m₁, hw, h⟩ := Prog.bind_eq_ok.1 h
    have hinv₁ := hinv.of_write hw
    obtain ⟨hle, hlt⟩ := hin b List.mem_cons_self
    obtain ⟨key, r', hlast, -, -, -, rfl⟩ := write_eq_ok.1 hw
    have hlast' := hinv.lastLE_of_mem hr (BitVec.le_def.2 hle) hlt
    obtain ⟨rfl, rfl⟩ := Prod.mk.inj (Option.some.inj (hlast'.symm.trans hlast))
    obtain ⟨hinv', hget, hframe⟩ := Inv.regions_writeBlocks hinv₁ (SortedMap.get?_insert_self _ _ _)
      (fun c hc => hin c (List.mem_cons_of_mem b hc)) h
    refine ⟨hinv', hget, fun k' hk' => (hframe k' hk').trans ?_⟩
    exact SortedMap.get?_insert_of_ne _ _ hk'

/-- A region that is mapped is the one that is made for it. -/
theorem regions_map {p : Profile} {base size : U64} {prot : Protection} {kind : RegionKind}
    {name : String} (h : map p base size prot kind name m = .ok () m') :
    ∃ r, Region.newZeroed base (pageRound (max size 1)) prot kind name = .ok r ∧
      r.data.size = (pageRound (max size 1)).toNat ∧
      m' = { m with regions := m.regions.insert base r } := by
  obtain ⟨s, hs, -, hcap, rfl⟩ := map_eq_ok.1 h
  obtain rfl := alignUp_eq_ok hs
  exact ⟨_, Region.newZeroed_eq_ok_iff.2 ⟨hcap, rfl⟩, rfl, rfl⟩

end GuestMemory

/-! ## Trampolines and stack -/

namespace Process

variable {b : Build} {cfg : LayoutConfig} {m m' m₁ m₁' : GuestMemory}

/-- The traps of the page of trampolines. -/
def stubBlocks (base size : U64) : List Block :=
  (List.range (size.toNat / 4)).map fun i => ⟨base + BitVec.ofNat 64 (4 * i), toLeBytes32 brk0⟩

/-- The page of trampolines is the same wherever the segments are. -/
theorem publishStubs_region {r : StubResolver} {stop : U64} (hinv : m.Inv)
    (h : publishStubs b cfg r m = .ok stop m') :
    m'.Inv ∧ (∀ v, m.byteAt cfg.trampolineBase ≠ some v) ∧
      (∀ k ≠ cfg.trampolineBase, m'.regions.get? k = m.regions.get? k) ∧
      ∃ used size region, r.used b.profile = .ok used ∧
        alignUp b.profile (max used pageSize) pageSize = .ok size ∧
        Region.newZeroed cfg.trampolineBase (pageRound (max size 1)) .rw .segment "__stubs" =
          .ok region ∧ stop = cfg.trampolineBase + size ∧ 0 < region.data.size ∧
        m'.regions.get? cfg.trampolineBase =
          some { Region.putBlocks region (stubBlocks cfg.trampolineBase size) with prot := .rx } := by
  obtain ⟨used, hused, h⟩ := Prog.ofChecked_bind_eq_ok.1 h
  obtain ⟨size, hsize, h⟩ := Prog.ofChecked_bind_eq_ok.1 h
  obtain ⟨⟨⟩, m₁, hmap, h⟩ := Prog.bind_eq_ok.1 h
  obtain ⟨⟨⟩, m₂, hloop, h⟩ := Prog.bind_eq_ok.1 h
  obtain ⟨⟨⟩, m₃, hprot, h⟩ := Prog.bind_eq_ok.1 h
  obtain ⟨rfl, rfl⟩ := Outcome.ok.inj h
  have hdvd : size.toNat % 0x4000 = 0 := by
    rw [alignUp_eq_ok hsize, toNat_pageRound]
    omega
  obtain ⟨hle, hpos⟩ := pageRound_max_one hdvd
  obtain ⟨hinv₁, -, -, hfree⟩ := hinv.keepsBytes_map hpos hmap
  obtain ⟨region, hnew, hsize₁, rfl⟩ := regions_map hmap
  have hself : SortedMap.get? (m.regions.insert cfg.trampolineBase region) cfg.trampolineBase =
      some region := SortedMap.get?_insert_self _ _ _
  have hfits := hinv₁.fits _ region hself
  unfold Region.Fits at hfits
  rw [hinv₁.base_eq _ region hself, hsize₁] at hfits
  have hfill : writeBlocks (stubBlocks cfg.trampolineBase size)
      { m with regions := m.regions.insert cfg.trampolineBase region } = .ok () m₂ := by
    rw [writeBlocks, stubBlocks, Prog.forEach_map]
    exact hloop
  have hin : ∀ b ∈ stubBlocks cfg.trampolineBase size,
      cfg.trampolineBase.toNat ≤ b.addr.toNat ∧
        b.addr.toNat < cfg.trampolineBase.toNat + region.data.size := by
    intro b hb
    obtain ⟨i, hi, rfl⟩ := List.mem_map.1 hb
    have hi := List.mem_range.1 hi
    dsimp only
    rw [BitVec.toNat_add, BitVec.toNat_ofNat, hsize₁]
    omega
  obtain ⟨hinv₂, hget₂, hframe₂⟩ := hinv₁.regions_writeBlocks hself hin hfill
  obtain ⟨-, rfl⟩ := hinv₂.regions_protect hget₂ hprot
  refine ⟨hinv₂.change (.setProt _ _ _ hget₂), fun v hv => ?_, fun k hk => ?_, used, size, region,
    hused, hsize, hnew, rfl, by omega, SortedMap.get?_insert_self _ _ _⟩
  · have := hfree _ v hv
    omega
  · refine (SortedMap.get?_insert_of_ne _ _ hk).trans ((hframe₂ k hk).trans ?_)
    exact SortedMap.get?_insert_of_ne _ _ hk

/-- The stack depends on the layout only. -/
theorem initStack_region {frame : U64 × (Fin 4 → U64)} (hinv : m.Inv) (hfits : StackFits cfg)
    (h : initStack b cfg m = .ok frame m') :
    m'.Inv ∧ (∀ v, m.byteAt (cfg.stackTop - cfg.stackSize) ≠ some v) ∧
      (∀ k ≠ cfg.stackTop - cfg.stackSize, m'.regions.get? k = m.regions.get? k) ∧
      ∃ str region, str.toNat =
          (cfg.stackTop.toNat - ((utf8Bytes cfg.argv0).length + 17)) / 16 * 16 ∧
        Region.newZeroed (cfg.stackTop - cfg.stackSize) (pageRound (max cfg.stackSize 1)) .rw
          .stack "stack" = .ok region ∧
        frame = (str - 48, ![1, str - 48, str - 32, str - 16]) ∧
        m'.regions.get? (cfg.stackTop - cfg.stackSize) =
          some (Region.putBlocks region (stackBlocks str (utf8Bytes cfg.argv0))) := by
  obtain ⟨stackBase, hbase, h⟩ := Prog.ofChecked_bind_eq_ok.1 h
  obtain ⟨⟨⟩, m₁, hmap, h⟩ := Prog.bind_eq_ok.1 h
  obtain ⟨frame₁, m₂, hstack, h⟩ := Prog.bind_eq_ok.1 h
  obtain ⟨⟨⟩, m₃, hcommit, h⟩ := Prog.bind_eq_ok.1 h
  obtain rfl := (steps_commitToNative (R := Eq) _ _).ok hcommit
  obtain ⟨rfl, rfl⟩ := Outcome.ok.inj h
  have hlen := hfits.path_le
  have hle := BitVec.le_def.1 hfits.size_le
  have hcap : cfg.stackSize.toNat ≤ 2 ^ 63 - 1 := hfits.alloc
  have htop := cfg.stackTop.isLt
  have hlo : stackBase.toNat = cfg.stackTop.toNat - cfg.stackSize.toNat := by
    rw [Profile.sub_eq_ok hbase]
    exact toNat_sub_of_eq rfl hle
  rw [← Profile.sub_eq_ok hbase]
  have hmax : (max cfg.stackSize 1).toNat = max cfg.stackSize.toNat 1 := toNat_max _ _
  obtain ⟨hround, -, -⟩ := pageRound_of_le (by omega : (max cfg.stackSize 1).toNat ≤ 2 ^ 63)
  obtain ⟨hinv₁, -, -, hfree⟩ := hinv.keepsBytes_map (by omega) hmap
  obtain ⟨region, hnew, hsize, rfl⟩ := regions_map hmap
  obtain ⟨str, hstr, heq⟩ := buildStack_eq b.profile cfg (by omega)
  rw [heq] at hstack
  obtain ⟨⟨⟩, m₄, hwrite, hstack⟩ := Prog.bind_eq_ok.1 hstack
  obtain ⟨rfl, rfl⟩ := Outcome.ok.inj hstack
  have hin : ∀ b ∈ stackBlocks str (utf8Bytes cfg.argv0),
      stackBase.toNat ≤ b.addr.toNat ∧ b.addr.toNat < stackBase.toNat + region.data.size := by
    intro b hb
    have := within_stackBlocks (by omega) (by omega) hb
    unfold Block.Within at this
    rw [hsize]
    omega
  obtain ⟨hinv', hget, hframe⟩ := hinv₁.regions_writeBlocks (SortedMap.get?_insert_self _ _ _) hin
    hwrite
  refine ⟨hinv', fun v hv => ?_, fun k hk => (hframe k hk).trans ?_, str, region, hstr, hnew, rfl,
    hget⟩
  · have := hfree _ v hv
    omega
  · exact SortedMap.get?_insert_of_ne _ _ hk

end Process

/-! ## Segments -/

open Process

section Stages

variable {b : Build} {image : MachOImage} {bytes : List U8} {cfg : LayoutConfig}
  {m₀ m : GuestMemory} {proc : ProcessImage}

/-- The last segment at an address has its region there when the imports are bound. -/
theorem Stages.region_bound (s : Stages b image bytes cfg m₀ proc m) (hinv : m₀.Inv) {a : U64}
    {seg : Segment} (hlast : lastAt a image.segments = some seg) :
    ∃ r, s.bound.regions.get? (a + cfg.slide) = some r ∧
      r.data.size = (mappedSize bytes seg).toNat := by
  obtain ⟨r, hr, hreg⟩ := (get?_mapSegments s.map_eq a).1 seg hlast
  have hlay := (s.patches (s.inv_mapped hinv)).2.1
  obtain ⟨r', hr', hshape⟩ := layout_flat_eq_some.1
    ((congrFun hlay (a + cfg.slide)).trans (layout_flat_eq_some.2 ⟨r, hr, rfl⟩))
  exact ⟨r', hr', (congrArg Shape.size hshape).trans hreg.size_eq⟩

/-- Restoring the protections needs the regions of all segments : one that is empty is only
there if the page of trampolines has taken its place. -/
theorem Stages.region_guarded (s : Stages b image bytes cfg m₀ proc m) (hinv : m₀.Inv) :
    s.guarded.Inv ∧
      (∀ a seg, lastAt a image.segments = some seg →
        ∃ r, s.guarded.regions.get? (a + cfg.slide) = some r ∧ 0 < r.data.size ∧
          r.prot = runProt seg ∧
          ((mappedSize bytes seg = 0 ∧ a + cfg.slide = cfg.trampolineBase) ∨
            (mappedSize bytes seg ≠ 0 ∧ a + cfg.slide ≠ cfg.trampolineBase ∧
              r.data.size = (mappedSize bytes seg).toNat))) ∧
      (lastAt (cfg.trampolineBase - cfg.slide) image.segments = none →
        s.guarded.regions.get? cfg.trampolineBase = s.stubbed.regions.get? cfg.trampolineBase) := by
  have hbound := (s.patches (s.inv_mapped hinv)).1
  obtain ⟨hstubbed, hfree, hframe, used, size, region, -, -, -, -, -, hstub⟩ :=
    publishStubs_region hbound s.publish_eq
  have hmapped : ∀ seg ∈ image.segments, seg.name ≠ "__PAGEZERO" →
      ∃ r, s.stubbed.regions.get? (seg.vmaddr + cfg.slide) = some r := by
    intro seg hseg hname
    by_cases hk : seg.vmaddr + cfg.slide = cfg.trampolineBase
    · rw [hk]
      exact ⟨_, hstub⟩
    · rw [hframe _ hk]
      rcases hlast : lastAt seg.vmaddr image.segments with _ | seg'
      · exact absurd rfl (lastAt_eq_none_iff.1 hlast seg hseg hname)
      · obtain ⟨r, hr, -⟩ := s.region_bound hinv hlast
        exact ⟨r, hr⟩
  have hrestore := s.restore_eq
  rw [s.segRuntime_eq] at hrestore
  obtain ⟨hguarded, hget⟩ := get?_restoreProtections hstubbed hmapped hrestore
  refine ⟨hguarded, fun a seg hlast => ?_, fun hnone => ?_⟩
  · obtain ⟨r, hr, hsize⟩ := s.region_bound hinv hlast
    obtain ⟨r', hr', hpos, hprot⟩ := (hget a).1 seg hlast
    refine ⟨_, hprot, hpos, rfl, ?_⟩
    by_cases hk : a + cfg.slide = cfg.trampolineBase
    · refine Or.inl ⟨?_, hk⟩
      -- The page of trampolines does not overlap a region, so the one at its base is empty.
      by_contra hne
      have hpos : 0 < r.data.size := by
        rw [hsize]
        exact Nat.pos_of_ne_zero fun h => hne (BitVec.eq_of_toNat_eq h)
      have hbyte := hbound.byteAt_region hr (c := a + cfg.slide) (by simpa using hpos)
      rw [Buffer.get?_of_lt (by simpa using hpos), hk] at hbyte
      exact hfree _ hbyte
    · rw [hframe _ hk, hr] at hr'
      obtain rfl := Option.some.inj hr'
      refine Or.inr ⟨fun hzero => ?_, hk, hsize⟩
      rw [hsize, hzero] at hpos
      exact absurd hpos (by simp)
  · have htramp := (hget (cfg.trampolineBase - cfg.slide)).2 hnone
    rwa [BitVec.sub_add_cancel] at htramp

/-- The stack takes the place of no region that has a byte. -/
theorem Stages.region_final (s : Stages b image bytes cfg m₀ proc m) (hinv : m₀.Inv)
    (hfits : StackFits cfg) {k : U64} {r : Region} (hr : s.guarded.regions.get? k = some r)
    (hpos : 0 < r.data.size) : m.regions.get? k = some r := by
  have hguarded := (s.region_guarded hinv).1
  obtain ⟨-, hfree, hframe, -⟩ := initStack_region hguarded hfits s.stack_eq
  rw [hframe k fun hk => ?_, hr]
  have hbyte := hguarded.byteAt_region hr (c := k) (by simpa using hpos)
  rw [Buffer.get?_of_lt (by simpa using hpos), hk] at hbyte
  exact hfree _ hbyte

end Stages

end IosEmu
