import IosEmu.ImportBinding

/-!
# The initial stack

When the stack is mapped, every store of `build_stack` is granted and stays, since its blocks
are apart and lie in the stack. So the process finds `argv`, `envp` and `apple` as `main`
expects them, and its path is a C string (`initial_stack_layout`).
-/

open SysLib

namespace IosEmu

namespace FlatMemory

/-- Adjacent bytes are read as one list. -/
theorem Reads.append {f : FlatMemory} {a : U64} {l l' : List U8} (h : f.Reads a l)
    (h' : f.Reads (a + BitVec.ofNat 64 l.length) l') (hfit : a.toNat + l.length < 2 ^ 64) :
    f.Reads a (l ++ l') := by
  intro i hi
  rcases lt_or_ge i l.length with hlt | hge
  · rw [List.getElem?_append_left hlt]
    exact h i hlt
  · have hadd : (a + BitVec.ofNat 64 l.length).toNat = a.toNat + l.length := by
      rw [BitVec.toNat_add, BitVec.toNat_ofNat]
      omega
    rw [List.length_append] at hi
    have hrest := h' (i - l.length) (by omega)
    rw [hadd, Nat.add_assoc, Nat.add_sub_cancel' hge] at hrest
    rw [List.getElem?_append_right hge]
    exact hrest

end FlatMemory

namespace GuestMemory

variable {p : Profile} {m m' : GuestMemory}

/-! ## C strings -/

theorem readU8_of_read {a : U64} {b : U8} (h : m.read a 1 = .ok [b]) : m.readU8 a = .ok b := by
  rw [readU8, h]
  refine congrArg Except.ok (BitVec.eq_of_toNat_eq ?_)
  simp [fromLeBytes, leNat]

/-- Bytes without a NUL that are followed by one are a C string. -/
theorem Inv.cstrBytes_of_read (hinv : m.Inv) : ∀ {l : List U8} {a : U64} {max : ℕ},
    m.read a (l.length + 1) = .ok (l ++ [0]) → (0 : U8) ∉ l → l.length < max →
    m.cstrBytes max a = .ok l
  | [], a, max + 1, hread, _, _ => by
    rw [cstrBytes, readU8_of_read hread]
    rfl
  | b :: l, a, max + 1, hread, hnul, hmax => by
    obtain ⟨l₁, l₂, happ, hfirst, hrest⟩ := hinv.read_append (n := 1) (k := l.length + 1)
      (Nat.succ_pos _) (by rwa [Nat.add_comm 1])
    have hlen : l₁.length = 1 := (hinv.read_eq_ok_iff.1 hfirst).2.1
    have happ : [b] ++ (l ++ [0]) = l₁ ++ l₂ := happ
    obtain ⟨rfl, rfl⟩ := List.append_inj happ hlen.symm
    obtain ⟨hb, hl⟩ := not_or.1 (mt List.mem_cons.2 hnul)
    rw [cstrBytes, readU8_of_read hfirst]
    change (if b = 0 then _ else _) = _
    rw [if_neg (Ne.symm hb)]
    have ih := hinv.cstrBytes_of_read hrest hl (Nat.lt_of_succ_lt_succ hmax)
    change (m.cstrBytes max (a + 1) >>= fun rest => pure (b :: rest)) = _
    rw [show a + 1 = a + BitVec.ofNat 64 1 from rfl, ih]
    rfl

end GuestMemory

namespace Process

open GuestMemory

variable {p : Profile} {m : GuestMemory} {cfg : LayoutConfig}

/-! ## The stack in memory -/

/-- The stack of a layout is mapped : the region at its bottom can be read and written, and is
as large as the layout says. -/
def StackMapped (cfg : LayoutConfig) (m : GuestMemory) : Prop :=
  ∃ r, m.regions.get? (cfg.stackTop - cfg.stackSize) = some r ∧ r.prot = .rw ∧
    cfg.stackSize.toNat ≤ r.data.size

/-- `build_process` maps the stack. -/
theorem stackMapped_of_map {m' : GuestMemory} (hinv : m.Inv)
    (hsize : cfg.stackSize.toNat ≤ isizeMax)
    (hmap : map p (cfg.stackTop - cfg.stackSize) cfg.stackSize .rw .stack "stack" m = .ok () m') :
    StackMapped cfg m' := by
  have hmax : (max cfg.stackSize 1).toNat = max cfg.stackSize.toNat 1 := toNat_max _ _
  have hcap : cfg.stackSize.toNat ≤ 2 ^ 63 - 1 := hsize
  obtain ⟨hround, -, -⟩ := pageRound_of_le (by omega : (max cfg.stackSize 1).toNat ≤ 2 ^ 63)
  obtain ⟨-, -, ⟨r, hr, -, hprot, hlen⟩, -⟩ := hinv.keepsBytes_map (by omega) hmap
  exact ⟨r, hr, hprot, by omega⟩

/-- Every range of the stack can be read and written. -/
theorem StackMapped.grants (h : StackMapped cfg m) (hinv : m.Inv)
    (hsize : cfg.stackSize ≤ cfg.stackTop) {a : U64} {n : ℕ} {need : Protection}
    (hneed : Protection.rw.contains need = true)
    (hlo : cfg.stackTop.toNat - cfg.stackSize.toNat ≤ a.toNat) (hlt : a.toNat < cfg.stackTop.toNat)
    (hhi : a.toNat + n ≤ cfg.stackTop.toNat) : m.flat.Grants a n need := by
  obtain ⟨r, hr, hprot, hlen⟩ := h
  have hle := BitVec.le_def.1 hsize
  have hbase : (cfg.stackTop - cfg.stackSize).toNat = cfg.stackTop.toNat - cfg.stackSize.toNat :=
    toNat_sub_of_eq rfl hle
  have hlast := hinv.lastLE_of_mem hr (BitVec.le_def.2 (hbase.symm ▸ hlo)) (by omega)
  refine ⟨_, _, nearest_flat.2 ⟨r, hlast, rfl⟩, ?_, by rw [← hneed, ← hprot]; rfl⟩
  change _ ≤ _ + r.data.size
  omega

/-- The initial stack : the stores of `build_stack` are apart, lie in the stack and are all
there afterwards. `argv[0]` and `apple[0]` point to the path, which is a C string, the arrays
end with a null pointer, and the stack pointer is aligned and below everything stored. -/
theorem initial_stack_layout (p : Profile) (cfg : LayoutConfig) (m : GuestMemory)
    (hm : Reachable p m) (hmapped : StackMapped cfg m)
    (hfit : (utf8Bytes cfg.argv0).length + 128 ≤ cfg.stackSize.toNat)
    (hsize : cfg.stackSize ≤ cfg.stackTop) (hnul : (0 : U8) ∉ utf8Bytes cfg.argv0) :
    ∃ (sp argv envp apple str : U64) (blocks : List Block) (m' : GuestMemory),
      (buildStack p cfg = writeBlocks blocks >>= fun _ => pure (sp, ![1, argv, envp, apple])) ∧
      buildStack p cfg m = .ok (sp, ![1, argv, envp, apple]) m' ∧
      (m'.readU64 argv = .ok str ∧ m'.readU64 (argv + 8) = .ok 0 ∧
        m'.readU64 envp = .ok 0 ∧ m'.readU64 apple = .ok str ∧ m'.readU64 (apple + 8) = .ok 0) ∧
      m'.read str ((utf8Bytes cfg.argv0).length + 1) = .ok (utf8Bytes cfg.argv0 ++ [0]) ∧
      (∀ max, (utf8Bytes cfg.argv0).length < max →
        m'.cstrBytes max str = .ok (utf8Bytes cfg.argv0)) ∧
      blocks.Pairwise Block.Apart ∧ (∀ b ∈ blocks, m'.flat.Reads b.addr b.bytes) ∧
      (∀ b ∈ blocks, b.Within sp.toNat cfg.stackTop.toNat) ∧
      cfg.stackTop.toNat - cfg.stackSize.toNat ≤ sp.toNat ∧ sp.toNat % 16 = 0 ∧
      m'.flat.layout = m.flat.layout ∧
      ∀ x, x < sp.toNat ∨ cfg.stackTop.toNat ≤ x → m'.flat.byte x = m.flat.byte x := by
  have hle := BitVec.le_def.1 hsize
  have htop := cfg.stackTop.isLt
  obtain ⟨str, hstr, heq⟩ := buildStack_eq p cfg (by omega)
  generalize utf8Bytes cfg.argv0 = path at hfit hnul hstr heq ⊢
  have hlo : 48 ≤ str.toNat := by omega
  have hhi : str.toNat + path.length < 2 ^ 64 := by omega
  obtain ⟨-, happle, happle₁, henvp, hargv, hargv₁⟩ := blockAddrs hlo hhi
  have hwithin : ∀ b ∈ stackBlocks str path,
      b.Within (str - 48).toNat cfg.stackTop.toNat := by
    intro b hb
    have := within_stackBlocks hlo hhi hb
    unfold Block.Within at this ⊢
    omega
  have hgrants : ∀ need, Protection.rw.contains need = true → ∀ b ∈ stackBlocks str path,
      m.flat.Grants b.addr b.bytes.length need := by
    intro need hneed b hb
    have := within_stackBlocks hlo hhi hb
    unfold Block.Within at this
    exact hmapped.grants hm.inv hsize hneed (by omega) (by omega) (by omega)
  obtain ⟨m', hrun, hinv', hlayout, hreads, hframe⟩ :=
    hm.inv.writeBlocks_ok (hgrants .write rfl) (apart_stackBlocks hlo hhi)
  have hword : ∀ a v, ⟨a, toLeBytes64 v⟩ ∈ stackBlocks str path → m'.readU64 a = .ok v := by
    intro a v hb
    have hgrant := (FlatMemory.grants_congr hlayout).2 (hgrants .read rfl _ hb)
    rw [length_toLeBytes64] at hgrant
    exact readU64_of_read (hinv'.read_eq_ok_iff.2 ⟨hgrant, length_toLeBytes64 v, hreads _ hb⟩)
  have hpath : m'.read str (path.length + 1) = .ok (path ++ [0]) := by
    refine hinv'.read_eq_ok_iff.2 ⟨?_, by simp, ?_⟩
    · exact (FlatMemory.grants_congr hlayout).2
        (hmapped.grants hm.inv hsize rfl (by omega) (by omega) (by omega))
    · exact (hreads ⟨str, path⟩ (by simp [stackBlocks])).append
        (hreads ⟨_, [0]⟩ (by simp [stackBlocks])) hhi
  refine ⟨str - 48, str - 48, str - 32, str - 16, str, stackBlocks str path, m', heq, ?_,
    ⟨hword _ _ ?_, hword _ _ ?_, hword _ _ ?_, hword _ _ ?_, hword _ _ ?_⟩, hpath,
    fun max hmax => hinv'.cstrBytes_of_read hpath hnul hmax, apart_stackBlocks hlo hhi, hreads,
    hwithin, by omega, by omega, hlayout, ?_⟩
  · rw [heq]
    exact Prog.bind_eq_ok.2 ⟨(), m', hrun, rfl⟩
  · simp [stackBlocks]
  · simp [stackBlocks]
  · simp [stackBlocks]
  · simp [stackBlocks]
  · simp [stackBlocks]
  · intro x hx
    refine hframe x fun b hb => ?_
    have := hwithin b hb
    unfold Block.Within at this
    omega

/-- The stack of the default layout, mapped next to the heap. -/
theorem exists_stackMapped : ∃ m, Reachable .release m ∧ StackMapped importConfig m := by
  obtain ⟨⟨⟩, m, hmap⟩ := Outcome.isOk_iff.1 (show (map .release
    (importConfig.stackTop - importConfig.stackSize) importConfig.stackSize .rw .stack "stack"
    importMemory).isOk = true by decide)
  have hcall : (Call.map (importConfig.stackTop - importConfig.stackSize) importConfig.stackSize
      .rw .stack "stack").run .release importMemory = some m := congrArg Outcome.state? hmap
  exact ⟨m, .call _ reachable_importMemory hcall,
    stackMapped_of_map reachable_importMemory.inv (by decide) hmap⟩

/-- The stack of an application. -/
theorem initial_stack_layout_importConfig :
    ∃ (m m' : GuestMemory) (sp argv envp apple str : U64),
      Reachable .release m ∧ StackMapped importConfig m ∧
      (utf8Bytes importConfig.argv0).length + 128 ≤ importConfig.stackSize.toNat ∧
      importConfig.stackSize ≤ importConfig.stackTop ∧
      (0 : U8) ∉ utf8Bytes importConfig.argv0 ∧
      buildStack .release importConfig m = .ok (sp, ![1, argv, envp, apple]) m' ∧
      m'.readU64 argv = .ok str ∧ m'.readU64 apple = .ok str ∧
      m'.cstrBytes 1024 str = .ok (utf8Bytes importConfig.argv0) := by
  obtain ⟨m, hm, hmapped⟩ := exists_stackMapped
  have hfit : (utf8Bytes importConfig.argv0).length + 128 ≤ importConfig.stackSize.toNat := by
    decide
  have hsize : importConfig.stackSize ≤ importConfig.stackTop := by decide
  have hnul : (0 : U8) ∉ utf8Bytes importConfig.argv0 := by decide
  obtain ⟨sp, argv, envp, apple, str, -, m', -, hrun, ⟨hargv, -, -, happle, -⟩, -, hcstr, -⟩ :=
    initial_stack_layout .release importConfig m hm hmapped hfit hsize hnul
  exact ⟨m, m', sp, argv, envp, apple, str, hm, hmapped, hfit, hsize, hnul, hrun, hargv, happle,
    hcstr 1024 (by decide)⟩

end Process

end IosEmu
