import IosEmu.StackBlocks

/-!
# What comes after binding

After the imports are bound, the builder maps the page of trampolines and the stack, and
sets protections. None of this touches a byte that is mapped by then : the two regions are
new, what is written lies in them, and a protection changes no byte (`Stages.keepsBytes`).

The page of trampolines is filled by a loop that writes one word after the other. Writes of
adjacent words are one write (`Inv.write_append`), so the whole page is one write too
(`publishStubs_eq_ok`).
-/

open SysLib

namespace IosEmu

namespace GuestMemory

variable {p : Profile} {m m' m'' : GuestMemory}

/-! ## Bytes that stay -/

/-- Every mapped byte keeps its value. -/
def KeepsBytes (m m' : GuestMemory) : Prop :=
  ∀ x v, m.flat.byte x = some v → m'.flat.byte x = some v

theorem KeepsBytes.trans (h : KeepsBytes m m') (h' : KeepsBytes m' m'') : KeepsBytes m m'' :=
  fun x v hx => h' x v (h x v hx)

theorem KeepsBytes.reads (h : KeepsBytes m m') {a : U64} {l : List U8}
    (hr : m.flat.Reads a l) : m'.flat.Reads a l := by
  intro i hi
  rw [List.getElem?_eq_getElem hi]
  exact h _ _ (by rw [hr i hi, List.getElem?_eq_getElem hi])

/-- Only bytes of `[lo, hi)` change. -/
def ChangesWithin (lo hi : ℕ) (m m' : GuestMemory) : Prop :=
  m.Inv → m'.Inv ∧ ∀ x, x < lo ∨ hi ≤ x → m'.flat.byte x = m.flat.byte x

instance (lo hi : ℕ) : IsPreorder GuestMemory (ChangesWithin lo hi) where
  refl _ h := ⟨h, fun _ _ => rfl⟩
  trans _ _ _ h₁ h₂ h :=
    ⟨(h₂ (h₁ h).1).1, fun x hx => ((h₂ (h₁ h).1).2 x hx).trans ((h₁ h).2 x hx)⟩

theorem changesWithin_write {lo hi : ℕ} {a : U64} {d : List U8} (hlo : lo ≤ a.toNat)
    (hhi : a.toNat + d.length ≤ hi) : (write a d).Steps (ChangesWithin lo hi) := by
  refine (write_failsClean a d).steps (refl_of (ChangesWithin lo hi)) fun m u m' hw hinv => ?_
  refine ⟨hinv.of_write hw, fun x hx => ?_⟩
  rw [(hinv.flat_of_write hw).1]
  exact if_neg (by omega)

/-- A protection changes no byte. -/
theorem Inv.byte_setProt (hinv : m.Inv) {key : U64} {r : Region} (hr : m.regions.get? key = some r)
    (prot : Protection) (x : ℕ) :
    (GuestMemory.flat { m with regions := m.regions.insert key { r with prot } }).byte x =
      m.flat.byte x := by
  have hinv' := hinv.change (.setProt key r prot hr)
  refine Option.ext fun v => ?_
  rw [hinv'.byte_flat_eq_some, hinv.byte_flat_eq_some]
  refine exists_congr fun k => ?_
  rw [SortedMap.get?_insert]
  split_ifs with hk
  · rw [hk, hr]
    simp
  · rfl

theorem changesWithin_protect (target : Target) (a : U64) (prot : Protection) :
    (protect target a prot).Steps (ChangesWithin 0 0) := by
  intro m m' h hinv
  rcases protect_cases h with rfl | ⟨key, r, hr, rfl⟩
  · exact ⟨hinv, fun _ _ => rfl⟩
  · exact ⟨hinv.change (.setProt key r prot hr), fun x _ => hinv.byte_setProt hr prot x⟩

theorem KeepsBytes.of_changesWithin {lo hi : ℕ} (hinv : m.Inv)
    (h : ChangesWithin lo hi m m') (hfree : ∀ x v, m.flat.byte x = some v → x < lo ∨ hi ≤ x) :
    KeepsBytes m m' :=
  fun x v hx => by rw [(h hinv).2 x (hfree x v hx), hx]

/-! ## New regions -/

/-- A mapping that is not empty adds bytes and changes none. -/
theorem Inv.keepsBytes_map (hinv : m.Inv) {base size : U64} {prot : Protection}
    {kind : RegionKind} {name : String} (hsize : 0 < (pageRound (max size 1)).toNat)
    (hmap : map p base size prot kind name m = .ok () m') :
    m'.Inv ∧ KeepsBytes m m' ∧
      (∃ r, m'.regions.get? base = some r ∧ r.base = base ∧ r.prot = prot ∧
        r.data.size = (pageRound (max size 1)).toNat) ∧
      ∀ x v, m.flat.byte x = some v →
        x < base.toNat ∨ base.toNat + (pageRound (max size 1)).toNat ≤ x := by
  have hinv' := hinv.change ((change_map p base size prot kind name).ok hmap)
  obtain ⟨s, hs, hfree, hcap, rfl⟩ := map_eq_ok.1 hmap
  obtain rfl := alignUp_eq_ok hs
  obtain ⟨stop, hstop, hlast⟩ := checkFree_eq_ok.1 hfree
  have hout : ∀ x v, m.flat.byte x = some v →
      x < base.toNat ∨ base.toNat + (pageRound (max size 1)).toNat ≤ x := by
    intro x v hx
    obtain ⟨k, r, hk, hle, hv⟩ := hinv.byte_flat_eq_some.1 hx
    have hlt : x - k.toNat < r.data.size := by
      by_contra hge
      rw [Buffer.get?_eq_none_iff.2 (not_lt.1 hge)] at hv
      cases hv
    have hend := (hinv.fits k r hk).toNat_endAddr
    rw [hinv.base_eq k r hk] at hend
    rcases hinv.tiles.free_of_lastLT (hinv.endAddr_le hlast) hk with ⟨-, hle'⟩ | hge
    · have := BitVec.le_def.1 hle'
      omega
    · have := BitVec.le_def.1 hge
      omega
  refine ⟨hinv', fun x v hx => ?_, ⟨_, SortedMap.get?_insert_self _ _ _, rfl, rfl, rfl⟩, hout⟩
  obtain ⟨k, r, hk, hle, hv⟩ := hinv.byte_flat_eq_some.1 hx
  refine hinv'.byte_flat_eq_some.2 ⟨k, r, ?_, hle, hv⟩
  rw [SortedMap.get?_insert_of_ne _ _ fun hkb => ?_]
  · exact hk
  · -- A region at the same base would overlap, as it holds `x`.
    subst hkb
    obtain ⟨-, hempty, -⟩ := (hinv.checkFree_at_base hk).1 hfree
    rcases hempty with hzero | hzero
    · rw [hzero] at hsize
      exact absurd hsize (lt_irrefl 0)
    · rw [Buffer.get?_eq_none_iff.2 (by omega)] at hv
      cases hv

/-! ## Adjacent writes -/

/-- A write into one region can be done in two parts. -/
theorem Inv.write_append (hinv : m.Inv) {a : U64} {d₁ d₂ : List U8} (hd : d₂ ≠ [])
    (hw : write a (d₁ ++ d₂) m = .ok () m') :
    ∃ m₁, write a d₁ m = .ok () m₁ ∧
      write (a + BitVec.ofNat 64 d₁.length) d₂ m₁ = .ok () m' := by
  obtain ⟨key, r, hl, hle, hend, hprot, rfl⟩ := write_eq_ok.1 hw
  have hkey := get?_of_lastLE hl
  have hbase := hinv.base_eq key r hkey
  have hfits := hinv.fits key r hkey
  have hpos : 0 < d₂.length := List.length_pos_iff.2 hd
  have hle' := BitVec.le_def.1 hle
  unfold Region.Fits at hfits
  rw [List.length_append] at hend
  have hadd : (a + BitVec.ofNat 64 d₁.length).toNat = a.toNat + d₁.length := by
    rw [BitVec.toNat_add, BitVec.toNat_ofNat]
    omega
  have hinv₁ := hinv.change (.store key r (a.toNat - r.base.toNat) d₁ hkey)
  have hkey₁ : (m.store key r (a.toNat - r.base.toNat) d₁).regions.get? key = some _ :=
    SortedMap.get?_insert_self _ _ _
  have hl₁ := hinv₁.lastLE_of_mem (a := a + BitVec.ofNat 64 d₁.length) hkey₁
    (BitVec.le_def.2 (by rw [hadd, ← hbase]; omega))
    (by rw [hadd, ← hbase, Buffer.size_overwrite]; omega)
  refine ⟨_, write_eq_ok.2 ⟨key, r, hl, hle, by omega, hprot, rfl⟩, write_eq_ok.2
    ⟨key, _, hl₁, BitVec.le_def.2 (by rw [hadd]; dsimp only; omega),
      by rw [hadd, Buffer.size_overwrite]; dsimp only; omega, hprot, ?_⟩⟩
  have hoff : a.toNat + d₁.length - r.base.toNat = a.toNat - r.base.toNat + d₁.length := by
    omega
  simp only [store, SortedMap.insert_insert, hadd, hoff, Buffer.overwrite_append]

/-- `n` times the bytes of a word. -/
def sled (v : U32) (n : ℕ) : List U8 :=
  (List.replicate n (toLeBytes32 v)).flatten

@[simp] theorem length_sled (v : U32) (n : ℕ) : (sled v n).length = 4 * n := by
  simp [sled, Nat.mul_comm]

theorem sled_succ (v : U32) (n : ℕ) : sled v (n + 1) = sled v n ++ toLeBytes32 v := by
  rw [sled, List.replicate_succ', List.flatten_concat]
  rfl

theorem sled_mid (v : U32) (i k : ℕ) :
    sled v (i + 1 + k) = sled v i ++ toLeBytes32 v ++ sled v k := by
  rw [← sled_succ, sled, List.replicate_add, List.flatten_append]
  rfl

/-- Writing a word over and over is one write. -/
theorem Inv.fill (a : U64) (v : U32) :
    ∀ (n : ℕ) {m m' : GuestMemory}, m.Inv →
      write a (sled v (n + 1)) m = .ok () m' →
      Prog.forEach (List.range (n + 1)) (fun i => writeU32 (a + BitVec.ofNat 64 (4 * i)) v) m =
        .ok () m'
  | 0, m, m', _, hw => by
    have ha : a + BitVec.ofNat 64 (4 * 0) = a := BitVec.add_zero a
    have hone : writeU32 (a + BitVec.ofNat 64 (4 * 0)) v m = .ok () m' := by
      rw [ha]
      exact hw
    exact Prog.bind_eq_ok.2 ⟨(), m', hone, rfl⟩
  | n + 1, m, m', hinv, hw => by
    rw [sled_succ] at hw
    obtain ⟨m₁, hfirst, hlast⟩ := hinv.write_append (by simp [toLeBytes32, leBytes]) hw
    rw [length_sled] at hlast
    rw [List.range_succ, Prog.forEach_append_eq_ok]
    exact ⟨m₁, Inv.fill a v n hinv hfirst, Prog.bind_eq_ok.2 ⟨(), m', hlast, rfl⟩⟩

end GuestMemory

open GuestMemory

namespace Process

variable {b : Build} {cfg : LayoutConfig} {m m' : GuestMemory}

/-! ## The page of trampolines -/

/-- The size of the page of trampolines. -/
theorem stubSize {used : U64} (hused : used.toNat ≤ 2 ^ 62) :
    used.toNat ≤ (pageRound (max used pageSize)).toNat ∧
      0 < (pageRound (max used pageSize)).toNat ∧
      (pageRound (max used pageSize)).toNat % 4 = 0 ∧
      pageRound (max (pageRound (max used pageSize)) 1) = pageRound (max used pageSize) := by
  have hmax : (max used pageSize).toNat = max used.toNat 0x4000 := toNat_max _ _
  have hbound : (max used pageSize).toNat ≤ 2 ^ 63 := by omega
  obtain ⟨hle, hlt, hdvd⟩ := pageRound_of_le hbound
  have hone : max (pageRound (max used pageSize)) 1 = pageRound (max used pageSize) :=
    max_eq_left (BitVec.le_def.2 (show 1 ≤ _ by omega))
  refine ⟨by omega, by omega, by omega, ?_⟩
  rw [hone, pageRound_of_dvd hdvd]

/-- Publish the page of trampolines, filled with one write. -/
def publishPage (b : Build) (cfg : LayoutConfig) (resolver : StubResolver) : MemM U64 := do
  let used ← Prog.ofChecked (resolver.used b.profile)
  let size ← Prog.ofChecked (alignUp b.profile (max used pageSize) pageSize)
  map b.profile cfg.trampolineBase size .rw .segment "__stubs"
  write cfg.trampolineBase (sled brk0 (size.toNat / 4))
  protect b.target cfg.trampolineBase .rx
  return cfg.trampolineBase + size

theorem publishPage_eq_ok {r : StubResolver} {stop : U64} :
    publishPage b cfg r m = .ok stop m' ↔
      ∃ used size m₁ m₂, r.used b.profile = .ok used ∧
        alignUp b.profile (max used pageSize) pageSize = .ok size ∧
        map b.profile cfg.trampolineBase size .rw .segment "__stubs" m = .ok () m₁ ∧
        write cfg.trampolineBase (sled brk0 (size.toNat / 4)) m₁ = .ok () m₂ ∧
        protect b.target cfg.trampolineBase .rx m₂ = .ok () m' ∧
        stop = cfg.trampolineBase + size := by
  unfold publishPage
  simp only [Prog.ofChecked_bind_eq_ok]
  simp only [Prog.bind_eq_ok, Prog.pure_apply, Outcome.ok.injEq]
  constructor
  · rintro ⟨used, hu, size, hs, ⟨⟩, m₁, hmap, ⟨⟩, m₂, hw, ⟨⟩, m₃, hprot, rfl, rfl⟩
    exact ⟨used, size, m₁, m₂, hu, hs, hmap, hw, hprot, rfl⟩
  · rintro ⟨used, size, m₁, m₂, hu, hs, hmap, hw, hprot, rfl⟩
    exact ⟨used, hu, size, hs, (), m₁, hmap, (), m₂, hw, (), m', hprot, rfl, rfl⟩

/-- The loop that fills the page does what one write does. -/
theorem publishStubs_eq_ok {r : StubResolver} {stop : U64} (hinv : m.Inv)
    (hused : (r.next - r.base).toNat ≤ 2 ^ 62) :
    publishStubs b cfg r m = .ok stop m' ↔ publishPage b cfg r m = .ok stop m' := by
  rw [publishPage_eq_ok]
  unfold publishStubs
  simp only [Prog.ofChecked_bind_eq_ok]
  simp only [Prog.bind_eq_ok, Prog.pure_apply, Outcome.ok.injEq]
  have hfill : ∀ {used size m₁}, r.used b.profile = .ok used →
      alignUp b.profile (max used pageSize) pageSize = .ok size →
      map b.profile cfg.trampolineBase size .rw .segment "__stubs" m = .ok () m₁ →
      ∃ m₂, write cfg.trampolineBase (sled brk0 (size.toNat / 4)) m₁ = .ok () m₂ ∧
        Prog.forEach (List.range (size.toNat / 4)) (fun i =>
          writeU32 (cfg.trampolineBase + BitVec.ofNat 64 (4 * i)) brk0) m₁ = .ok () m₂ := by
    intro used size m₁ hu hs hmap
    obtain rfl := Profile.sub_eq_ok hu
    obtain rfl := alignUp_eq_ok hs
    obtain ⟨-, hpos, hdvd, hround⟩ := stubSize hused
    obtain ⟨hinv₁, -, ⟨r₁, hr₁, hbase, hprot, hsize⟩, -⟩ :=
      hinv.keepsBytes_map (by rw [hround]; exact hpos) hmap
    rw [hround] at hsize
    have hl := hinv₁.lastLE_of_mem hr₁ (le_refl _) (by omega)
    obtain ⟨n, hn⟩ : ∃ n, (pageRound (max (r.next - r.base) pageSize)).toNat / 4 = n + 1 :=
      Nat.exists_eq_add_one.2 (by omega)
    have hw : write cfg.trampolineBase (sled brk0 (n + 1)) m₁ = .ok () _ := write_eq_ok.2
      ⟨_, r₁, hl, hbase ▸ le_refl _, by rw [hbase, length_sled]; omega, hprot ▸ rfl, rfl⟩
    rw [hn]
    exact ⟨_, hw, Inv.fill _ _ n hinv₁ hw⟩
  constructor
  · rintro ⟨used, hu, size, hs, ⟨⟩, m₁, hmap, ⟨⟩, m₂, hloop, ⟨⟩, m₃, hprot, rfl, rfl⟩
    obtain ⟨m₂', hw, hloop'⟩ := hfill hu hs hmap
    obtain rfl : m₂' = m₂ := by
      rw [hloop'] at hloop
      exact (by simpa using hloop : m₂' = m₂)
    exact ⟨used, size, m₁, m₂', hu, hs, hmap, hw, hprot, rfl⟩
  · rintro ⟨used, size, m₁, m₂, hu, hs, hmap, hw, hprot, rfl⟩
    obtain ⟨m₂', hw', hloop⟩ := hfill hu hs hmap
    obtain rfl : m₂' = m₂ := by
      rw [hw'] at hw
      exact (by simpa using hw : m₂' = m₂)
    exact ⟨used, hu, size, hs, (), m₁, hmap, (), m₂', hloop, (), m', hprot, rfl, rfl⟩

/-- Whatever the stride of the trampolines, their page is new and the traps lie in it. -/
theorem publishStubs_keepsBytes {r : StubResolver} {stop : U64} (hinv : m.Inv)
    (h : publishStubs b cfg r m = .ok stop m') : m'.Inv ∧ KeepsBytes m m' := by
  obtain ⟨used, -, h⟩ := Prog.ofChecked_bind_eq_ok.1 h
  obtain ⟨size, hsize, h⟩ := Prog.ofChecked_bind_eq_ok.1 h
  obtain ⟨⟨⟩, m₁, hmap, h⟩ := Prog.bind_eq_ok.1 h
  obtain ⟨⟨⟩, m₂, hloop, h⟩ := Prog.bind_eq_ok.1 h
  obtain ⟨⟨⟩, m₃, hprot, h⟩ := Prog.bind_eq_ok.1 h
  obtain ⟨-, rfl⟩ : cfg.trampolineBase + size = stop ∧ m₃ = m' := by simpa using h
  obtain rfl := alignUp_eq_ok hsize
  have hdvd : (pageRound (max used pageSize)).toNat % 0x4000 = 0 := by
    rw [toNat_pageRound]
    omega
  generalize pageRound (max used pageSize) = size at hmap hloop hdvd
  obtain ⟨hle, hpos⟩ := pageRound_max_one hdvd
  obtain ⟨hinv₁, hkeep, ⟨r₁, hr₁, hbase, -, hsize₁⟩, hfree⟩ := hinv.keepsBytes_map hpos hmap
  have hfits := hinv₁.fits _ r₁ hr₁
  unfold Region.Fits at hfits
  rw [hbase, hsize₁] at hfits
  have hwrites : ChangesWithin cfg.trampolineBase.toNat (cfg.trampolineBase.toNat + size.toNat)
      m₁ m₂ := by
    refine (Prog.Steps.forEach fun i hi => ?_).ok hloop
    have hi := List.mem_range.1 hi
    have hadd : (cfg.trampolineBase + BitVec.ofNat 64 (4 * i)).toNat =
        cfg.trampolineBase.toNat + 4 * i := by
      rw [BitVec.toNat_add, BitVec.toNat_ofNat]
      omega
    exact changesWithin_write (by omega) (by rw [length_toLeBytes32]; omega)
  have hprot' := (changesWithin_protect _ _ _).ok hprot (hwrites hinv₁).1
  refine ⟨hprot'.1, fun x v hx => ?_⟩
  have := hfree x v hx
  rw [hprot'.2 x (Or.inr (Nat.zero_le x)), (hwrites hinv₁).2 x (by omega)]
  exact hkeep x v hx

/-- The page of trampolines is new, holds all trampolines, and is full of traps. -/
theorem publishStubs_keeps {r : StubResolver} {stop : U64} (hinv : m.Inv)
    (hused : (r.next - r.base).toNat ≤ 2 ^ 62) (h : publishStubs b cfg r m = .ok stop m') :
    m'.Inv ∧ KeepsBytes m m' ∧ ∃ n, stop = cfg.trampolineBase + BitVec.ofNat 64 (4 * n) ∧
      (r.next - r.base).toNat ≤ 4 * n ∧ cfg.trampolineBase.toNat + 4 * n < 2 ^ 64 ∧
      m'.flat.Reads cfg.trampolineBase (sled brk0 n) := by
  obtain ⟨hinv', hkeep⟩ := publishStubs_keepsBytes hinv h
  obtain ⟨used, size, m₁, m₂, hu, hs, hmap, hw, hprot, rfl⟩ :=
    publishPage_eq_ok.1 ((publishStubs_eq_ok hinv hused).1 h)
  obtain rfl := Profile.sub_eq_ok hu
  obtain rfl := alignUp_eq_ok hs
  obtain ⟨hle, hpos, hdvd, hround⟩ := stubSize hused
  obtain ⟨hinv₁, -, ⟨r₁, hr₁, hbase, -, hsize⟩, -⟩ :=
    hinv.keepsBytes_map (by rw [hround]; exact hpos) hmap
  rw [hround] at hsize
  have hfits := hinv₁.fits _ r₁ hr₁
  unfold Region.Fits at hfits
  rw [hbase, hsize] at hfits
  have hprot' := (changesWithin_protect _ _ _).ok hprot (hinv₁.of_write hw)
  have hflat := (hinv₁.flat_of_write hw).1
  set size := pageRound (max (r.next - r.base) pageSize) with hsizedef
  have hfour : 4 * (size.toNat / 4) = size.toNat := by omega
  refine ⟨hinv', hkeep, size.toNat / 4, ?_, by omega, by omega, ?_⟩
  · rw [hfour, BitVec.ofNat_toNat, BitVec.setWidth_eq]
  · intro i hi
    rw [hprot'.2 _ (Or.inr (Nat.zero_le _)), hflat]
    exact FlatMemory.reads_write_self _ _ _ i hi

/-! ## Protections and the stack -/

theorem restoreProtections_keeps {image : MachOImage} {segRuntime : List (Option U64)}
    (hinv : m.Inv) (h : restoreProtections b.target image segRuntime m = .ok () m') :
    m'.Inv ∧ KeepsBytes m m' := by
  have hsteps : (restoreProtections b.target image segRuntime).Steps (ChangesWithin 0 0) := by
    refine Prog.Steps.forEach fun ⟨seg, base?⟩ _ => ?_
    rcases base? with _ | base
    · exact Prog.steps_pure ()
    · exact changesWithin_protect _ _ _
  have hrun := hsteps.ok h
  exact ⟨(hrun hinv).1, .of_changesWithin hinv hrun fun x _ _ => Or.inr (Nat.zero_le x)⟩

/-- What is written to the stack lies between `argv` and its top. -/
theorem changesWithin_buildStack {lo hi : ℕ} (p : Profile) (htop : cfg.stackTop.toNat = hi)
    (hlo : lo + 48 ≤ (hi - ((utf8Bytes cfg.argv0).length + 17)) / 16 * 16) :
    (buildStack p cfg).Steps (ChangesWithin lo hi) := by
  have hhi := cfg.stackTop.isLt
  obtain ⟨str, hstr, heq⟩ := buildStack_eq p cfg (by omega)
  rw [heq]
  refine (Prog.Steps.forEach fun b hb => ?_).bind fun _ => Prog.steps_pure _
  have := within_stackBlocks (by omega) (by omega) hb
  unfold Block.Within at this
  exact changesWithin_write (by omega) (by omega)

/-- The path and the arguments of the process fit into its stack : `argv` is 48 bytes below
the path, which is aligned to 16 bytes. -/
structure StackFits (cfg : LayoutConfig) : Prop where
  path_le : cfg.stackTop.toNat - cfg.stackSize.toNat + 48 ≤
    (cfg.stackTop.toNat - ((utf8Bytes cfg.argv0).length + 17)) / 16 * 16
  size_le : cfg.stackSize ≤ cfg.stackTop
  alloc : cfg.stackSize.toNat ≤ isizeMax

/-- The stack is new, and what is written lies in it. -/
theorem initStack_keeps {frame : U64 × (Fin 4 → U64)} (hinv : m.Inv) (hfits : StackFits cfg)
    (h : initStack b cfg m = .ok frame m') : m'.Inv ∧ KeepsBytes m m' := by
  obtain ⟨stackBase, hbase, h⟩ := Prog.ofChecked_bind_eq_ok.1 h
  obtain ⟨⟨⟩, m₁, hmap, h⟩ := Prog.bind_eq_ok.1 h
  obtain ⟨frame₁, m₂, hstack, h⟩ := Prog.bind_eq_ok.1 h
  obtain ⟨⟨⟩, m₃, hcommit, h⟩ := Prog.bind_eq_ok.1 h
  obtain rfl := (steps_commitToNative (R := Eq) _ _).ok hcommit
  obtain ⟨-, rfl⟩ : frame₁ = frame ∧ m₂ = m' := by simpa using h
  have hlen := hfits.path_le
  have hle := BitVec.le_def.1 hfits.size_le
  have hlo : stackBase.toNat = cfg.stackTop.toNat - cfg.stackSize.toNat := by
    rw [Profile.sub_eq_ok hbase]
    exact toNat_sub_of_eq rfl hle
  have hmax : (max cfg.stackSize 1).toNat = max cfg.stackSize.toNat 1 := toNat_max _ _
  have hcap : cfg.stackSize.toNat ≤ 2 ^ 63 - 1 := hfits.alloc
  obtain ⟨hround, -, -⟩ := pageRound_of_le (by omega : (max cfg.stackSize 1).toNat ≤ 2 ^ 63)
  obtain ⟨hinv₁, hkeep, -, hfree⟩ := hinv.keepsBytes_map (by omega) hmap
  have hwrites : ChangesWithin stackBase.toNat cfg.stackTop.toNat m₁ m₂ :=
    (changesWithin_buildStack b.profile rfl (by omega)).ok hstack
  refine ⟨(hwrites hinv₁).1, fun x v hx => ?_⟩
  have := hfree x v hx
  rw [(hwrites hinv₁).2 x (by omega)]
  exact hkeep x v hx

end Process

/-! ## The end of a build -/

open Process

/-- The layout of `MachineConfig`, with any slide. -/
structure LayoutConfig.IsDefault (cfg : LayoutConfig) : Prop where
  stackTop_eq : cfg.stackTop = 0x1c0000000
  stackSize_eq : cfg.stackSize = 0x800000
  base_eq : cfg.trampolineBase = 0x500000000
  stride_eq : cfg.trampolineStride = 16

theorem LayoutConfig.IsDefault.stackFits {cfg : LayoutConfig} (hcfg : cfg.IsDefault)
    (hargv : (utf8Bytes cfg.argv0).length < 4096) : StackFits cfg where
  path_le := by
    rw [hcfg.stackSize_eq, hcfg.stackTop_eq]
    change 0x1c0000000 - 0x800000 + 48 ≤ (0x1c0000000 - _) / 16 * 16
    omega
  size_le := by
    rw [hcfg.stackSize_eq, hcfg.stackTop_eq]
    decide
  alloc := by
    rw [hcfg.stackSize_eq]
    decide

/-- The invariant of the memory goes through a call. -/
def KeepsInv (m m' : GuestMemory) : Prop :=
  m.Inv → m'.Inv

instance : IsPreorder GuestMemory KeepsInv where
  refl _ h := h
  trans _ _ _ h₁ h₂ h := h₂ (h₁ h)

theorem keepsInv_of_change {α : Type} {x : MemM α} (h : x.Steps Change) : x.Steps KeepsInv :=
  h.mono fun _ _ hc hinv => hinv.change hc

theorem keepsInv_mapSegments (p : Profile) (bytes : List U8) (slide : U64) (segs : List Segment) :
    (mapSegments p bytes slide segs).Steps KeepsInv :=
  steps_mapSegments segs fun _ _ _ _ _ => keepsInv_of_change (change_mapWithData _ _ _ _ _ _ _)

theorem keepsInv_rebase (p : Profile) (image : MachOImage) (bytes : List U8) (slide : U64)
    (segRuntime : List (Option U64)) :
    (rebase p image bytes slide segRuntime).Steps KeepsInv :=
  steps_rebase fun _ _ => keepsInv_of_change (change_write _ _)

section Stages

variable {b : Build} {image : MachOImage} {bytes : List U8} {cfg : LayoutConfig}
  {m m' : GuestMemory} {p : ProcessImage}

theorem Stages.inv_rebased (s : Stages b image bytes cfg m p m') (hinv : m.Inv) :
    s.rebased.Inv :=
  (keepsInv_rebase _ _ _ _ _).ok s.rebase_eq ((keepsInv_mapSegments _ _ _ _).ok s.map_eq hinv)

theorem keepsInv_bindImports {p : Profile} {segRuntime : List (Option U64)}
    {r r' : StubResolver} (hinv : m.Inv)
    (h : bindImports p image bytes segRuntime r m = .ok r' m') : m'.Inv := by
  obtain ⟨recs, -, hfold⟩ := bindImports_eq_ok.1 h
  exact (fold_layout hinv hfold).1

/-- A build that fills the page of trampolines with one write can be done as the loader does
it. -/
theorem buildProcess_of_page (hinv : m.Inv) (hstride : cfg.trampolineStride = 16)
    (henc : image.isEncrypted = false)
    (h : (bindImage b.profile image bytes cfg >>= fun x => publishPage b cfg x.2 >>= fun stop =>
      finish b image bytes cfg x.1 x.2 stop) m = .ok p m') :
    buildProcess b image bytes cfg m = .ok p m' := by
  obtain ⟨⟨segRuntime, r⟩, m₁, hbind, h⟩ := Prog.bind_eq_ok.1 h
  obtain ⟨stop, m₂, hpage, h⟩ := Prog.bind_eq_ok.1 h
  unfold buildProcess
  rw [if_neg (by simp [henc])]
  refine Prog.bind_eq_ok.2 ⟨(segRuntime, r), m₁, hbind, Prog.bind_eq_ok.2 ⟨stop, m₂, ?_, h⟩⟩
  simp only [bindImage, Prog.bind_eq_ok, Prog.pure_apply, Outcome.ok.injEq, Prod.mk.injEq] at hbind
  obtain ⟨bases, m₃, hmap, ⟨⟩, m₄, hrebase, r', m₅, himports, ⟨-, rfl⟩, rfl⟩ := hbind
  have hinv₄ := (keepsInv_rebase _ _ _ _ _).ok hrebase
    ((keepsInv_mapSegments _ _ _ _).ok hmap hinv)
  rw [hstride] at himports
  obtain ⟨-, syms, hs, hlen, -⟩ := serves_of_bindImports himports
  refine (publishStubs_eq_ok (keepsInv_bindImports hinv₄ himports) ?_).2 hpage
  rw [hs.toNat_used hlen]
  omega

/-- No byte that is mapped when the imports are bound changes afterwards, and the page of
trampolines stays full of traps. -/
theorem Stages.keepsBytes (s : Stages b image bytes cfg m p m') (hcfg : cfg.IsDefault)
    (hargv : (utf8Bytes cfg.argv0).length < 4096) (hinv : m.Inv) :
    KeepsBytes s.bound m' ∧
      ∃ n, p.trampolineEnd = cfg.trampolineBase + BitVec.ofNat 64 (4 * n) ∧
        (s.resolver.next - s.resolver.base).toNat ≤ 4 * n ∧
        cfg.trampolineBase.toNat + 4 * n < 2 ^ 64 ∧
        m'.flat.Reads cfg.trampolineBase (sled brk0 n) := by
  have hbind := s.bind_eq
  rw [hcfg.stride_eq] at hbind
  obtain ⟨-, syms, hs, hlen, -⟩ := serves_of_bindImports hbind
  have hused := hs.toNat_used hlen
  obtain ⟨hinv₁, hkeep₁, n, hstop, hle, hfit, hreads⟩ :=
    publishStubs_keeps (keepsInv_bindImports (s.inv_rebased hinv) hbind) (by omega) s.publish_eq
  obtain ⟨hinv₂, hkeep₂⟩ := restoreProtections_keeps hinv₁ s.restore_eq
  obtain ⟨-, hkeep₃⟩ := initStack_keeps hinv₂ (hcfg.stackFits hargv) s.stack_eq
  exact ⟨hkeep₁.trans (hkeep₂.trans hkeep₃), n, hstop, hle, hfit,
    (hkeep₂.trans hkeep₃).reads hreads⟩

end Stages

end IosEmu
