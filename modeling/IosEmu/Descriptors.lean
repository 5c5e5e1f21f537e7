import IosEmu.NumberTable
import IosEmu.SyscallPanics
import IosEmu.SystemImage

/-!
# The descriptors follow a reference table

The table of descriptors, read as a `NumberTable` with the standard streams reserved. `insert`
searches upwards from 3 for a descriptor without an entry. If fewer than `2 ^ 31 - 3` of them
are taken there is a least free one, the search ends there, and no sum before it overflows, in
either profile (`firstFree_of_least`). The counter `next` is written and never read.

`Serves` is a successful `open` or any `close`, as the table sees it, with its answer. Every
run of such calls from the default table is a run of the reference
(`descriptors_refine_reference`).
-/

open SysLib NumberTable

namespace IosEmu

open SyscallCtx Prog

/-! ## The table as a map -/

namespace FdTable

/-- The object behind a number, if that is a descriptor. -/
def view (t : FdTable) : NumberTable FdObject := fun n =>
  if (BitVec.ofInt 32 n).toInt = n then t.slots.get? (BitVec.ofInt 32 n) else none

/-- How many descriptors besides the standard streams are open. -/
def live (t : FdTable) : ℕ :=
  (t.slots.entries.filter fun e => 3 ≤ e.1.toInt).length

@[simp] theorem view_toInt (t : FdTable) (fd : BitVec 32) : t.view fd.toInt = t.slots.get? fd := by
  simp [view]

/-- A number that is not a descriptor has no object. -/
theorem view_of_ne {t : FdTable} {n : ℤ} (h : ∀ fd : BitVec 32, fd.toInt ≠ n) :
    t.view n = none :=
  if_neg (h _)

/-- Two tables with the same entries but for one descriptor. -/
theorem view_eq_update {t t' : FdTable} {fd : BitVec 32} {r : Option FdObject}
    (hself : t'.slots.get? fd = r)
    (hother : ∀ fd', fd' ≠ fd → t'.slots.get? fd' = t.slots.get? fd') :
    t'.view = Function.update t.view fd.toInt r := by
  ext n : 1
  by_cases hn : ∃ fd' : BitVec 32, fd'.toInt = n
  · obtain ⟨fd', rfl⟩ := hn
    by_cases hfd : fd' = fd
    · simp [hfd, hself]
    · have hne : fd'.toInt ≠ fd.toInt := fun h => hfd (BitVec.toInt_inj.1 h)
      simp [Function.update_of_ne hne, hother fd' hfd]
  · have hout : ∀ fd' : BitVec 32, fd'.toInt ≠ n := fun fd' h => hn ⟨fd', h⟩
    rw [Function.update_of_ne (hout fd).symm, view_of_ne hout, view_of_ne hout]

theorem toInt_ofNat_of_lt {n : ℕ} (h : n < 2 ^ 31) : (BitVec.ofNat 32 n).toInt = n := by
  rw [BitVec.toInt_eq_toNat_cond, BitVec.toNat_ofNat]
  split_ifs <;> omega

/-! ## The least free descriptor -/

/-- The least free descriptor from 3 on. -/
structure IsFirstFree (t : FdTable) (n : ℕ) : Prop where
  three_le : 3 ≤ n
  lt : n < 2 ^ 31
  free : t.slots.get? (BitVec.ofNat 32 n) = none
  taken : Taken t.slots 3 n

/-- There is one if the descriptors are not all taken. -/
theorem exists_isFirstFree {t : FdTable} (h : t.live < 2 ^ 31 - 3) : ∃ n, t.IsFirstFree n := by
  have hkind : ∀ k : ℕ, 3 ≤ k → k < 2 ^ 31 → 3 ≤ (BitVec.ofNat 32 k).toInt := fun k hk hlt => by
    rw [toInt_ofNat_of_lt hlt]
    omega
  have hfree : ∃ n, 3 ≤ n ∧ n < 2 ^ 31 ∧ t.slots.get? (BitVec.ofNat 32 n) = none := by
    by_contra hall
    have htaken : Taken t.slots 3 (2 ^ 31) := fun k hk hlt => by
      rw [← Option.ne_none_iff_isSome]
      exact fun hnone => hall ⟨k, hk, hlt, hnone⟩
    have hle := htaken.le_filter (P := fun fd => 3 ≤ fd.toInt) le_rfl hkind
    exact absurd hle (not_le.2 h)
  classical
  obtain ⟨hle, hlt, hnone⟩ := Nat.find_spec hfree
  refine ⟨_, hle, hlt, hnone, fun k hk hk' => ?_⟩
  rw [← Option.ne_none_iff_isSome]
  exact fun hnone => Nat.find_min hfree hk' ⟨hk, hk'.trans hlt, hnone⟩

theorem IsFirstFree.le_length {t : FdTable} {n : ℕ} (h : t.IsFirstFree n) :
    n < 3 + (t.slots.entries.length + 1) := by
  have := h.taken.le_length h.lt.le
  omega

/-- The least free descriptor is the least free number. -/
theorem IsFirstFree.isLeast {t : FdTable} {n : ℕ} (h : t.IsFirstFree n) :
    IsLeast (t.view.free 3) n := by
  have hview : ∀ k : ℕ, k < 2 ^ 31 → t.view k = t.slots.get? (BitVec.ofNat 32 k) := by
    intro k hk
    rw [← toInt_ofNat_of_lt hk, view_toInt]
  refine ⟨⟨by exact_mod_cast h.three_le, by rw [hview n h.lt, h.free]⟩, ?_⟩
  rintro k ⟨hk, hnone⟩
  obtain ⟨k, rfl⟩ := Int.eq_ofNat_of_zero_le (by omega : 0 ≤ k)
  by_contra hlt
  have hkn : k < n := by omega
  have hsome := h.taken k (by omega) hkn
  rw [← hview k (hkn.trans h.lt), hnone] at hsome
  cases hsome

/-- Below `2 ^ 31 - 1` a descriptor is stepped over in either profile. -/
theorem addSigned_one_of_lt {p : Profile} {n : ℕ} (h : n + 1 < 2 ^ 31) :
    p.addSigned (BitVec.ofNat 32 n) 1 = .ok (BitVec.ofNat 32 (n + 1)) := by
  cases p with
  | release =>
    rw [Profile.addSigned_release, BitVec.ofNat_add]
    rfl
  | debug => exact (addSigned_one (by omega)).2 ⟨h, rfl⟩

/-- The search ends at the least free descriptor. The induction is on the candidates left. -/
theorem firstFree_of_least {p : Profile} {slots : SortedMap (BitVec 32) FdObject} {m : ℕ}
    (hm : m < 2 ^ 31) (hfree : slots.get? (BitVec.ofNat 32 m) = none) :
    ∀ {fuel n : ℕ}, n ≤ m → m < n + fuel → Taken slots n m →
      firstFree p slots fuel (BitVec.ofNat 32 n) = .ok (BitVec.ofNat 32 m)
  | 0, n, hle, hlt, _ => absurd hlt (by omega)
  | fuel + 1, n, hle, hlt, htaken => by
    rcases Nat.eq_or_lt_of_le hle with rfl | hnm
    · simp [firstFree, hfree]
    · have hsome := htaken n le_rfl hnm
      have hrest : firstFree p slots fuel (BitVec.ofNat 32 (n + 1)) = .ok (BitVec.ofNat 32 m) :=
        firstFree_of_least hm hfree hnm (by omega) fun k hk => htaken k (by omega)
      rw [firstFree, if_pos hsome, addSigned_one_of_lt (by omega)]
      exact hrest

theorem firstFree_insert {p : Profile} {t : FdTable} {n : ℕ} (h : t.IsFirstFree n) :
    firstFree p t.slots (t.slots.entries.length + 1) 3 = .ok (BitVec.ofNat 32 n) :=
  firstFree_of_least h.lt h.free h.three_le h.le_length h.taken

/-! ## One call -/

/-- An insertion is one of the reference. -/
theorem step_insert {p : Profile} {t t' : FdTable} {obj : FdObject} {fd : BitVec 32}
    (hlive : t.live < 2 ^ 31 - 3) (h : t.insert p obj = .ok (fd, t')) :
    Step 3 t.view (.insert obj) (.number fd.toInt) t'.view := by
  obtain ⟨n, hn⟩ := exists_isFirstFree hlive
  have hslots := slots_of_insert h
  obtain ⟨fd', hsearch, h⟩ := except_bind_eq_ok.1 h
  obtain ⟨after, -, h⟩ := except_bind_eq_ok.1 h
  rw [firstFree_insert hn] at hsearch
  obtain rfl := Except.ok.inj hsearch
  obtain ⟨rfl, -⟩ := Prod.mk.inj (Except.ok.inj h)
  have hview : t'.view = Function.update t.view n (some obj) := by
    rw [← toInt_ofNat_of_lt hn.lt]
    refine view_eq_update ?_ fun fd hne => ?_
    · rw [hslots, SortedMap.get?_insert_self]
    · rw [hslots, SortedMap.get?_insert_of_ne _ _ hne]
  rw [hview, toInt_ofNat_of_lt hn.lt]
  exact .insert hn.isLeast

theorem standard_iff {fd : BitVec 32} :
    (fd = 0 ∨ fd = 1 ∨ fd = 2) ↔ 0 ≤ fd.toInt ∧ fd.toInt < 3 := by
  rw [BitVec.toInt_eq_toNat_cond]
  split_ifs <;> bv_omega

/-- A close is one of the reference. -/
theorem step_close (t : FdTable) (fd : BitVec 32) :
    Step 3 t.view (.close fd.toInt) (.existed (t.close fd).1) (t.close fd).2.view := by
  unfold close
  split_ifs with hstandard
  · obtain ⟨h₀, hlt⟩ := standard_iff.1 hstandard
    exact .keep h₀ hlt
  · have herase : (t.slots.erase fd).get? fd = none := by
      rw [Option.eq_none_iff_forall_ne_some]
      exact fun obj hobj => (SortedMap.get?_erase_eq_some_iff.1 hobj).1 rfl
    have hother : ∀ fd', fd' ≠ fd → (t.slots.erase fd).get? fd' = t.slots.get? fd' := by
      intro fd' hne
      ext obj
      simp [SortedMap.get?_erase_eq_some_iff, hne]
    have hview : view { t with slots := t.slots.erase fd } =
        Function.update t.view fd.toInt none := view_eq_update herase hother
    rw [hview, ← view_toInt]
    exact .close fun h => hstandard (standard_iff.2 h)

end FdTable

/-! ## Runs of calls -/

/-- The call in `c` gets `file` from the host. -/
def OpensFile (host : Host) (vfs : Sandbox) (c : SyscallCtx) (file : File) (fs : HostFs) : Prop :=
  ∃ iosPath path readOnly, c.mem.readCstr (c.cpu.arg 0) 1024 = .ok iosPath ∧
    vfs.translate iosPath.toList = .ok (path, readOnly) ∧
    ¬(readOnly = true ∧ c.cpu.arg 1 &&& Unix.O_ACCMODE ≠ Unix.O_RDONLY) ∧
    (Unix.openOptions (c.cpu.arg 1)).openPath host.kernel path c.fs = .ok file fs

/-- An `open` that returns has put the host's file into the table. -/
theorem sysOpen_eq_ok {host : Host} {vfs : Sandbox} {c c' : SyscallCtx} {v : U64}
    (h : Unix.sysOpen host vfs c = .ok v c') :
    ∃ file fs fd fds, OpensFile host vfs c file fs ∧
      c.fds.insert host.build.profile (.file file) = .ok (fd, fds) ∧
      c' = { c with fs, fds } ∧ v = fd.signExtend 64 := by
  rw [Unix.sysOpen, get_bind] at h
  obtain ⟨iosPath, c₁, hread, h⟩ := bind_eq_ok.1 h
  obtain ⟨hpath, rfl⟩ := readMem_eq_ok hread
  obtain ⟨⟨path, readOnly⟩, htranslate, h⟩ := ofResult_bind_eq_ok.1 h
  dsimp only at h
  split_ifs at h with hro
  · cases h
  · obtain ⟨file, c₂, hopen, h⟩ := bind_eq_ok.1 h
    obtain ⟨fs, hfs, rfl⟩ := onFs_eq_ok.1 hopen
    rw [get_bind] at h
    obtain ⟨⟨fd, fds⟩, hinsert, h⟩ := ofChecked_bind_eq_ok.1 h
    obtain ⟨rfl, rfl⟩ := Outcome.ok.inj h
    exact ⟨file, fs, fd, fds, ⟨iosPath, path, readOnly, hpath, mapError_eq_ok.1 htranslate, hro,
      hfs⟩, hinsert, rfl, rfl⟩

theorem sysClose_apply (c : SyscallCtx) :
    Unix.sysClose c =
      if (c.fds.close ((c.cpu.arg 0).setWidth 32)).1 then
        .ok 0 { c with fds := (c.fds.close ((c.cpu.arg 0).setWidth 32)).2 }
      else .err Errno.EBADF { c with fds := (c.fds.close ((c.cpu.arg 0).setWidth 32)).2 } := by
  rw [Unix.sysClose, get_bind]
  dsimp only
  rw [modify_bind]
  split_ifs <;> rfl

/-- A successful `open`, or a `close` and whether it reports a descriptor. The context around
the table is any. -/
inductive Serves : FdTable → Call FdObject → Answer → FdTable → Prop
  | opened {host : Host} {vfs : Sandbox} {c c' : SyscallCtx} {v : U64} {file : File} :
      c.fds.live < 2 ^ 31 - 3 → OpensFile host vfs c file c'.fs →
      Unix.sysOpen host vfs c = .ok v c' →
      Serves c.fds (.insert (.file file)) (.number v.toInt) c'.fds
  | closed {c c' : SyscallCtx} {v : U64} :
      Unix.sysClose c = .ok v c' →
      Serves c.fds (.close ((c.cpu.arg 0).setWidth 32).toInt) (.existed true) c'.fds
  | absent {c c' : SyscallCtx} {e : U32} :
      Unix.sysClose c = .err e c' →
      Serves c.fds (.close ((c.cpu.arg 0).setWidth 32).toInt) (.existed false) c'.fds

/-- Every call that is served is one of the reference. -/
theorem Serves.step {t t' : FdTable} {call : Call FdObject} {answer : Answer}
    (h : Serves t call answer t') : Step 3 t.view call answer t'.view := by
  cases h with
  | opened hlive hfile hrun =>
    obtain ⟨file', fs, fd, fds, hfile', hinsert, rfl, rfl⟩ := sysOpen_eq_ok hrun
    obtain ⟨iosPath, path, readOnly, hpath, htranslate, -, hopen⟩ := hfile
    obtain ⟨iosPath', path', readOnly', hpath', htranslate', -, hopen'⟩ := hfile'
    obtain rfl := Except.ok.inj (hpath.symm.trans hpath')
    obtain ⟨rfl, -⟩ := Prod.mk.inj (Except.ok.inj (htranslate.symm.trans htranslate'))
    obtain ⟨rfl, -⟩ := Outcome.ok.inj (hopen.symm.trans hopen')
    rw [BitVec.toInt_signExtend_of_le (by omega)]
    exact FdTable.step_insert hlive hinsert
  | @closed c _ _ hrun =>
    have hstep := c.fds.step_close ((c.cpu.arg 0).setWidth 32)
    rw [sysClose_apply] at hrun
    split_ifs at hrun with hclosed
    obtain ⟨-, rfl⟩ := Outcome.ok.inj hrun
    rwa [hclosed] at hstep
  | @absent c _ _ hrun =>
    have hstep := c.fds.step_close ((c.cpu.arg 0).setWidth 32)
    rw [sysClose_apply] at hrun
    split_ifs at hrun with hclosed
    obtain ⟨-, rfl⟩ := Outcome.err.inj hrun
    rwa [Bool.eq_false_iff.2 hclosed] at hstep

/-- A run of calls from the default table. -/
inductive DescriptorRun : List (Call FdObject × Answer) → FdTable → Prop
  | start : DescriptorRun [] FdTable.default
  | call {trace : List (Call FdObject × Answer)} {t t' : FdTable} {call : Call FdObject}
      {answer : Answer} :
      DescriptorRun trace t → Serves t call answer t' →
      DescriptorRun (trace ++ [(call, answer)]) t'

theorem DescriptorRun.run {trace : List (Call FdObject × Answer)} {t : FdTable}
    (h : DescriptorRun trace t) : Run 3 FdTable.default.view trace t.view := by
  induction h with
  | start => exact .nil
  | call _ hserves ih => exact ih.snoc hserves.step

/-- In every run of successful opens and of closes the table is the reference map with the
same calls, and the answers are the same : an open gets the least free number from 3 on, a
close takes out its own number and reports whether it was there. The standard streams stay
bound, and no call changes the object behind another number. -/
theorem descriptors_refine_reference {trace : List (Call FdObject × Answer)} {t : FdTable}
    (h : DescriptorRun trace t) :
    Run 3 FdTable.default.view trace t.view ∧
      (∀ trace' m, Run 3 FdTable.default.view trace' m →
        trace'.map Prod.fst = trace.map Prod.fst → trace' = trace ∧ m = t.view) ∧
      (t.view 0 = some .stdin ∧ t.view 1 = some .stdout ∧ t.view 2 = some .stderr) ∧
      ∀ call answer t', Serves t call answer t' →
        ∀ n, n ≠ call.subject answer → t'.view n = t.view n := by
  refine ⟨h.run, fun trace' m hm hcalls => ?_, ⟨?_, ?_, ?_⟩, fun call answer t' hserves n hn =>
    hserves.step.frame hn⟩
  · exact hm.unique h.run hcalls
  · exact h.run.reserved (n := 0) (by omega) (by omega)
  · exact h.run.reserved (n := 1) (by omega) (by omega)
  · exact h.run.reserved (n := 2) (by omega) (by omega)

/-- A file is opened, and closed twice. -/
theorem descriptors_refine_reference_closed :
    ∃ file, ∃ t : FdTable, (t.view 0 = some .stdin ∧ t.view 1 = some .stdout ∧ t.view 2 = some .stderr) ∧
      Run 3 FdTable.default.view [(.insert (.file file), .number 3), (.close 3, .existed true),
        (.close 3, .existed false)] t.view := by
  let call := (testCall 5 0x100000000 0x208 0 "/usr/x").ctx ⟨FdTable.default, testTree⟩
  have hopen : (Unix.sysOpen ⟨⟨.release, .host⟩, .willing, none⟩ testSandbox call).okAnd
      (fun v c => v = 3 && (c.fds.close 3).1 && !((c.fds.close 3).2.close 3).1) = true := by
    decide
  obtain ⟨v, c, hrun, hc⟩ := Outcome.okAnd_iff.1 hopen
  simp only [Bool.and_eq_true, decide_eq_true_eq, Bool.not_eq_true'] at hc
  obtain ⟨⟨rfl, hclosed⟩, habsent⟩ := hc
  obtain ⟨file, fs, fd, fds, hfile, hinsert, rfl, hv⟩ := sysOpen_eq_ok hrun
  let closing := fun t : FdTable => (testCall 6 3 0 0 "").ctx ⟨t, testTree⟩
  have hfirst : Unix.sysClose (closing fds) = .ok 0 { closing fds with fds := (fds.close 3).2 } :=
    (sysClose_apply _).trans (if_pos hclosed)
  have hsecond : Unix.sysClose (closing (fds.close 3).2) = .err Errno.EBADF
      { closing (fds.close 3).2 with fds := ((fds.close 3).2.close 3).2 } :=
    (sysClose_apply _).trans (if_neg (by rw [Bool.not_eq_true]; exact habsent))
  have hopened : Serves FdTable.default (.insert (.file file)) (.number 3) fds :=
    .opened (c := call) (by decide) hfile hrun
  have hfirstServed : Serves fds (.close 3) (.existed true) (fds.close 3).2 :=
    .closed (c := closing fds) hfirst
  have hsecondServed : Serves (fds.close 3).2 (.close 3) (.existed false)
      ((fds.close 3).2.close 3).2 :=
    .absent (c := closing (fds.close 3).2) hsecond
  have hall := descriptors_refine_reference
    (((DescriptorRun.start.call hopened).call hfirstServed).call hsecondServed)
  exact ⟨file, _, hall.2.2.1, hall.1⟩

end IosEmu
