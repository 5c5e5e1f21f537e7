import IosEmu.MemoryPanics
import IosEmu.Services
import Mathlib.Logic.Relation

/-!
# When a system call panics

The exact condition, handler by handler, under which a system call ends without a panic. A
buffer is as long as a register says (`allocBytes`), so `read`, `write` and `writev` panic for
lengths past `isize::MAX`; `mmap` panics if it finds room for a mapping that long. The other
panics are overflows of a debug build : a counter of the dispatcher, the selector that cannot
be negated, the offset and the sum of `writev`, and the last descriptor.

`Unix.Fits` and `Mach.Fits` are the conditions of the handlers, and `safe_dispatch_iff` puts
them together.
-/

open SysLib Relation

namespace IosEmu

open Frameworks ObjcRuntime SyscallCtx Prog

/-! ## Descriptors -/

namespace FdTable

variable {slots : SortedMap (BitVec 32) FdObject}

/-- A descriptor from 3 on and below the last one is free. -/
def HasFree (t : FdTable) : Prop :=
  ∃ n, 3 ≤ n ∧ n < 2 ^ 31 - 1 ∧ t.slots.get? (BitVec.ofNat 32 n) = none

/-- The descriptors from `n` to `m` are all taken. -/
def Taken (slots : SortedMap (BitVec 32) FdObject) (n m : ℕ) : Prop :=
  ∀ k, n ≤ k → k < m → (slots.get? (BitVec.ofNat 32 k)).isSome

theorem addSigned_one {n : ℕ} (hn : n < 2 ^ 31) {z : BitVec 32} :
    Profile.debug.addSigned (BitVec.ofNat 32 n) 1 = .ok z ↔
      n + 1 < 2 ^ 31 ∧ z = BitVec.ofNat 32 (n + 1) := by
  have hsum : BitVec.ofNat 32 n + 1 = BitVec.ofNat 32 (n + 1) := (BitVec.ofNat_add n 1).symm
  have hok : ((BitVec.ofNat 32 (n + 1)).toInt = (BitVec.ofNat 32 n).toInt + 1) ↔
      n + 1 < 2 ^ 31 := by
    rw [BitVec.toInt_eq_toNat_cond, BitVec.toInt_eq_toNat_cond, BitVec.toNat_ofNat,
      BitVec.toNat_ofNat]
    split_ifs <;> omega
  simp only [Profile.addSigned, hsum]
  change (if _ = (BitVec.ofNat 32 n).toInt + 1 then _ else _) = _ ↔ _
  split_ifs with h
  · rw [hok] at h
    simp only [Except.ok.injEq, h, true_and]
    exact eq_comm
  · rw [hok] at h
    exact iff_of_false (by rintro ⟨⟩) fun hz => h hz.1

/-- The search ends at the lowest free descriptor, or where its candidates end. -/
theorem firstFree_eq_ok {fd : BitVec 32} : ∀ {fuel n : ℕ}, n < 2 ^ 31 →
    (firstFree .debug slots fuel (BitVec.ofNat 32 n) = .ok fd ↔
      ∃ m, n ≤ m ∧ m < 2 ^ 31 ∧ fd = BitVec.ofNat 32 m ∧ Taken slots n m ∧
        (m < n + fuel ∧ slots.get? (BitVec.ofNat 32 m) = none ∨ m = n + fuel))
  | 0, n, hn => by
    simp only [firstFree, Except.ok.injEq]
    constructor
    · rintro rfl
      exact ⟨n, le_rfl, hn, rfl, fun k h h' => by omega, Or.inr rfl⟩
    · rintro ⟨m, hle, -, rfl, -, ⟨hlt, -⟩ | rfl⟩
      · omega
      · rfl
  | fuel + 1, n, hn => by
    simp only [firstFree]
    split_ifs with htaken
    · simp only [except_bind_eq_ok, addSigned_one hn]
      constructor
      · rintro ⟨_, ⟨hlt, rfl⟩, h⟩
        obtain ⟨m, hle, hm, rfl, hall, hend⟩ := (firstFree_eq_ok hlt).1 h
        refine ⟨m, by omega, hm, rfl, fun k hk hkm => ?_,
          hend.imp (And.imp_left (by omega)) (by omega)⟩
        rcases Nat.eq_or_lt_of_le hk with rfl | hk
        · exact htaken
        · exact hall k hk hkm
      · rintro ⟨m, hle, hm, rfl, hall, hend⟩
        have hne : n ≠ m := by
          rintro rfl
          rcases hend with ⟨-, hnone⟩ | h
          · rw [hnone] at htaken
            exact absurd htaken (by simp)
          · omega
        refine ⟨_, ⟨by omega, rfl⟩, (firstFree_eq_ok (by omega)).2
          ⟨m, by omega, hm, rfl, fun k hk => hall k (by omega),
            hend.imp (And.imp_left (by omega)) (by omega)⟩⟩
    · simp only [Except.ok.injEq]
      constructor
      · rintro rfl
        exact ⟨n, le_rfl, hn, rfl, fun k h h' => by omega,
          Or.inl ⟨by omega, Option.not_isSome_iff_eq_none.1 htaken⟩⟩
      · rintro ⟨m, hle, hm, rfl, hall, -⟩
        rcases Nat.eq_or_lt_of_le hle with rfl | hlt
        · rfl
        · exact absurd (hall n le_rfl hlt) htaken

/-- There are no more taken descriptors of a kind than entries of that kind. -/
theorem Taken.le_filter {P : BitVec 32 → Prop} [DecidablePred P] {n m : ℕ} (h : Taken slots n m)
    (hm : m ≤ 2 ^ 31) (hP : ∀ k, n ≤ k → k < m → P (BitVec.ofNat 32 k)) :
    m - n ≤ (slots.entries.filter fun e => P e.1).length := by
  have hsub : (List.range' n (m - n)).map (BitVec.ofNat 32) ⊆
      (slots.entries.filter fun e => P e.1).map Prod.fst := by
    intro fd hfd
    obtain ⟨k, hk, rfl⟩ := List.mem_map.1 hfd
    rw [List.mem_range'_1] at hk
    obtain ⟨obj, hobj⟩ := Option.isSome_iff_exists.1 (h k hk.1 (by omega))
    refine List.mem_map_of_mem (List.mem_filter.2 ⟨SortedMap.get?_eq_some_iff.1 hobj, ?_⟩)
    exact decide_eq_true (hP k hk.1 (by omega))
  have hnodup : ((List.range' n (m - n)).map (BitVec.ofNat 32)).Nodup := by
    refine List.Nodup.map_on (fun i hi j hj hij => ?_) List.nodup_range'
    rw [List.mem_range'_1] at hi hj
    have := congrArg BitVec.toNat hij
    simp only [BitVec.toNat_ofNat] at this
    omega
  simpa using (hnodup.subperm hsub).length_le

/-- There are no more taken descriptors than entries. -/
theorem Taken.le_length {n m : ℕ} (h : Taken slots n m) (hm : m ≤ 2 ^ 31) :
    m - n ≤ slots.entries.length :=
  (h.le_filter (P := fun _ => True) hm fun _ _ _ => trivial).trans (List.length_filter_le _ _)

/-- In a debug build a descriptor can be inserted exactly if one is free. -/
theorem insert_isOk_iff {p : Profile} {t : FdTable} {obj : FdObject} :
    (∃ r, t.insert p obj = .ok r) ↔ (p = .debug → t.HasFree) := by
  cases p with
  | release =>
    have hsearch : ∀ fuel fd, ∃ fd', firstFree .release t.slots fuel fd = .ok fd' := by
      intro fuel
      induction fuel with
      | zero => exact fun fd => ⟨fd, rfl⟩
      | succ fuel ih =>
        intro fd
        simp only [firstFree]
        split_ifs
        · exact ih (fd + 1)
        · exact ⟨fd, rfl⟩
    obtain ⟨fd, hfd⟩ := hsearch (t.slots.entries.length + 1) 3
    refine iff_of_true ?_ (by rintro ⟨⟩)
    simp only [insert, except_bind_eq_ok]
    exact ⟨_, fd, hfd, fd + 1, rfl, rfl⟩
  | debug =>
    have hsearch := fun fd => @firstFree_eq_ok t.slots fd (t.slots.entries.length + 1) 3 (by omega)
    simp only [insert, except_bind_eq_ok, true_imp_iff]
    constructor
    · rintro ⟨_, _, hfd, _, hafter, -⟩
      obtain ⟨m, hle, hm, rfl, hall, hend⟩ := (hsearch _).1 hfd
      obtain ⟨hlast, -⟩ := (addSigned_one hm).1 hafter
      have hlen := hall.le_length (by omega)
      rcases hend with ⟨-, hfree⟩ | rfl
      · exact ⟨m, hle, by omega, hfree⟩
      · omega
    · intro hfree
      classical
      obtain ⟨hle, hlast, hnone⟩ := Nat.find_spec hfree
      have hall : Taken t.slots 3 (Nat.find hfree) := by
        intro k hk hlt
        by_contra hk'
        exact Nat.find_min hfree hlt
          ⟨hk, by omega, Option.not_isSome_iff_eq_none.1 hk'⟩
      have hlen := hall.le_length (by omega)
      exact ⟨_, _, (hsearch _).2 ⟨_, hle, by omega, rfl, hall, Or.inl ⟨by omega, hnone⟩⟩,
        _, (addSigned_one (by omega)).2 ⟨by omega, rfl⟩, rfl⟩

end FdTable

/-! ## Files -/

theorem total_ask (kernel : Kernel) (request : HostRequest) :
    (HostFs.ask kernel request).Total := by
  refine total_get.bind fun fs => ?_
  split
  · exact total_fail _
  · exact total_pure _

theorem total_fileRead (kernel : Kernel) (f : File) (count : ℕ) :
    (f.read kernel count).Total := by
  unfold File.read
  split_ifs
  · exact total_fail _
  · refine (total_ask _ _).bind fun _ => total_get.bind fun fs => ?_
    split
    · exact total_pure _
    · exact total_fail _

theorem total_seek (kernel : Kernel) (f : File) (target : SeekFrom) :
    (f.seek kernel target).Total := by
  refine (total_ask _ _).bind fun _ => total_get.bind fun fs => ?_
  dsimp only
  split_ifs
  · exact total_pure _
  · exact total_fail _

theorem total_writeAll (kernel : Kernel) (f : File) (data : List U8) :
    (f.writeAll kernel data).Total := by
  intro fs
  rcases f.writeAll_apply kernel data fs with ⟨r, h⟩ | ⟨-, pos, content, r, h⟩
  · exact safe_of_ok h
  · exact safe_of_ok h

theorem total_openPath (kernel : Kernel) (o : OpenOptions) (path : UnixPath) :
    (o.openPath kernel path).Total := by
  unfold OpenOptions.openPath
  split_ifs
  · exact total_fail _
  · refine (total_ofResult _).bind fun _ => (total_ofResult _).bind fun _ =>
      (total_ask _ _).bind fun _ => total_get.bind fun fs => ?_
    dsimp only
    split
    · split_ifs
      · exact (total_modify _).bind fun _ => total_pure _
      · exact total_fail _
    · split_ifs
      · exact total_fail _
      · exact total_fail _
      · exact total_pure _
    · split_ifs
      · exact total_fail _
      · exact (total_modify _).bind fun _ => total_pure _
      · exact total_pure _

theorem total_onFs {α : Type} {x : FsM α} (hx : x.Total) : (onFs x).Total :=
  fun c => safe_mapErr_iff.2 (safe_zoom_iff.2 (hx c.fs))

theorem safe_onMem_iff {α : Type} {errno : U32} {x : MemM α} {c : SyscallCtx} :
    (onMem errno x).Safe c ↔ x.Safe c.mem :=
  safe_mapErr_iff.trans safe_zoom_iff

theorem total_readMem {α : Type} (read : GuestMemory → EmuResult α) :
    (SyscallCtx.readMem read).Total :=
  total_get.bind fun _ => total_ofResult _

theorem safe_readMem_bind_iff {α β : Type} {read : GuestMemory → EmuResult α} {f : α → SysM β}
    {c : SyscallCtx} :
    (SyscallCtx.readMem read >>= f).Safe c ↔ ∀ a, read c.mem = .ok a → (f a).Safe c := by
  rw [(total_readMem read).safe_bind_iff]
  constructor
  · intro h a ha
    refine h a c ?_
    unfold SyscallCtx.readMem
    rw [get_bind, ha]
    rfl
  · intro h a c' ha
    obtain ⟨hread, rfl⟩ := readMem_eq_ok ha
    exact h a hread

theorem total_setFile (fd : BitVec 32) (f : File) : (setFile fd f).Total :=
  total_modify _

/-! ## System calls -/

namespace Unix

theorem total_readBytes (host : Host) (fd : BitVec 32) (count : ℕ) :
    (readBytes host fd count).Total := by
  refine total_get.bind fun c => ?_
  split
  · exact (total_onFs (total_fileRead _ _ _)).bind fun _ => (total_setFile _ _).bind fun _ =>
      total_pure _
  · exact total_pure _
  · exact total_fail _
  · exact total_fail _

theorem total_writeBytes (host : Host) (fd : BitVec 32) (data : List U8) :
    (writeBytes host fd data).Total := by
  refine total_get.bind fun c => ?_
  split
  · exact total_pure _
  · exact total_pure _
  · exact (total_onFs (total_writeAll _ _ _)).bind fun _ => (total_setFile _ _).bind fun _ =>
      (total_ofResult _).bind fun _ => total_pure _
  · exact total_fail _
  · exact total_fail _

theorem total_onMem_write (errno : U32) (a : U64) (d : List U8) :
    (onMem errno (GuestMemory.write a d)).Total :=
  fun c => safe_onMem_iff.2 (GuestMemory.total_write a d c.mem)

theorem allocBytes_iff {n : ℕ} : (∃ u, allocBytes n = .ok u) ↔ n ≤ isizeMax := by
  unfold allocBytes
  split_ifs with h <;> simp [h]

theorem safe_sysRead_iff {host : Host} {c : SyscallCtx} :
    (sysRead host).Safe c ↔ (c.cpu.arg 2).toNat ≤ isizeMax := by
  unfold sysRead
  rw [safe_get_bind_iff, safe_bind_total_iff, safe_ofChecked_iff, allocBytes_iff]
  exact fun _ => (total_readBytes _ _ _).bind fun _ => (total_onMem_write _ _ _).bind fun _ =>
    total_pure _

theorem safe_sysWrite_iff {host : Host} {c : SyscallCtx} :
    (sysWrite host).Safe c ↔ (c.cpu.arg 2).toNat ≤ isizeMax := by
  unfold sysWrite
  rw [safe_get_bind_iff, safe_bind_total_iff, safe_ofChecked_iff, allocBytes_iff]
  exact fun _ => (total_readMem _).bind fun _ => total_writeBytes _ _ _

/-! ### `writev` -/

/-- Where the loop of `writev` is : the index of the next vector, the bytes written so far,
and the context. -/
structure VectorState where
  index : ℕ
  total : ℕ
  ctx : SyscallCtx

/-- The base and the length of the next vector. -/
def VectorState.Next (iov : U64) (st : VectorState) (base len : U64) : Prop :=
  st.ctx.mem.readU64 (iov + BitVec.ofNat 64 (16 * st.index)) = .ok base ∧
    st.ctx.mem.readU64 (iov + BitVec.ofNat 64 (16 * st.index) + 8) = .ok len

/-- The next vector can be read, and the descriptor takes its bytes. -/
inductive VectorWritten (host : Host) (fd : BitVec 32) (iov : U64) :
    VectorState → VectorState → Prop
  | mk {st : VectorState} {base len n : U64} {data : List U8} {c : SyscallCtx} :
      st.Next iov base len → st.ctx.mem.read base len.toNat = .ok data →
      writeBytes host fd data st.ctx = .ok n c →
      VectorWritten host fd iov st ⟨st.index + 1, st.total + len.toNat, c⟩

/-- The next vector is no longer than a buffer can be, and in a debug build neither its offset
nor the sum of the lengths overflows. -/
def VectorState.Fits (host : Host) (fd : BitVec 32) (iov : U64) (st : VectorState) : Prop :=
  (host.build.profile = .debug → 16 * st.index < 2 ^ 64) ∧
    (∀ base len, st.Next iov base len → len.toNat ≤ isizeMax) ∧
    ∀ st', VectorWritten host fd iov st st' → host.build.profile = .debug → st'.total < 2 ^ 64

theorem index_le {host : Host} {fd : BitVec 32} {iov : U64} {st st' : VectorState}
    (h : ReflTransGen (VectorWritten host fd iov) st st') : st.index ≤ st'.index := by
  induction h with
  | refl => exact le_rfl
  | tail _ hstep ih =>
    cases hstep
    exact Nat.le_succ_of_le ih

/-- A write that returns says that it took all bytes. -/
theorem writeBytes_eq_ok {host : Host} {fd : BitVec 32} {data : List U8} {c c' : SyscallCtx}
    {n : U64} (h : writeBytes host fd data c = .ok n c') : n = BitVec.ofNat 64 data.length := by
  unfold writeBytes at h
  rw [get_bind] at h
  rcases hfd : c.fds.slots.get? fd with _ | _ | _ | _ | f | _ <;> simp only [hfd] at h
  · cases h
  · exact (Outcome.ok.inj h).1.symm
  · exact (Outcome.ok.inj h).1.symm
  · cases h
  · obtain ⟨r, c₁, -, h⟩ := bind_eq_ok.1 h
    obtain ⟨u, c₂, -, h⟩ := bind_eq_ok.1 h
    obtain ⟨u', -, h⟩ := ofResult_bind_eq_ok.1 h
    exact (Outcome.ok.inj h).1.symm
  · cases h

theorem mul_sixteen {p : Profile} {k : ℕ} (hk : k < 2 ^ 64) {P : U64 → Prop} :
    (∃ off, p.mul (BitVec.ofNat 64 k) 16 = .ok off ∧ P off) ↔
      (p = .debug → 16 * k < 2 ^ 64) ∧ P (BitVec.ofNat 64 (16 * k)) := by
  have hmul : BitVec.ofNat 64 k * 16 = BitVec.ofNat 64 (16 * k) := by
    rw [mul_comm 16 k, BitVec.ofNat_mul]
    rfl
  have htoNat : (BitVec.ofNat 64 k).toNat * (16 : U64).toNat = 16 * k := by
    rw [BitVec.toNat_ofNat, Nat.mod_eq_of_lt hk]
    exact mul_comm k 16
  rw [Profile.mul_bind_iff, hmul, htoNat]

/-- One turn of the loop. -/
theorem safe_writevFrom_succ_iff {host : Host} {fd : BitVec 32} {iov : U64} {left : ℕ}
    {st : VectorState} {total : U64} (hindex : st.index < 2 ^ 64)
    (htotal : host.build.profile = .debug → total.toNat = st.total) :
    (writevFrom host fd iov (left + 1) (BitVec.ofNat 64 st.index) total).Safe st.ctx ↔
      st.Fits host fd iov ∧
        ∀ base len data n c, st.Next iov base len → st.ctx.mem.read base len.toNat = .ok data →
          writeBytes host fd data st.ctx = .ok n c →
          (writevFrom host fd iov left (BitVec.ofNat 64 (st.index + 1)) (total + n)).Safe c := by
  have hadd : ∀ {data : List U8} {len n : U64} {c : SyscallCtx} {base : U64},
      st.ctx.mem.read base len.toNat = .ok data → writeBytes host fd data st.ctx = .ok n c →
      ((∃ z, host.build.profile.add total n = .ok z) ↔
        (host.build.profile = .debug → st.total + len.toNat < 2 ^ 64)) := by
    intro data len n c base hread hwrite
    have hn : n.toNat = len.toNat := by
      rw [writeBytes_eq_ok hwrite, GuestMemory.length_of_read hread, BitVec.toNat_ofNat,
        Nat.mod_eq_of_lt len.isLt]
    rw [Profile.add_isOk_iff, hn]
    refine forall_congr' fun hdebug => ?_
    rw [htotal hdebug]
  have hnext : BitVec.ofNat 64 st.index + 1 = BitVec.ofNat 64 (st.index + 1) :=
    (BitVec.ofNat_add st.index 1).symm
  rw [writevFrom, safe_ofChecked_bind_iff, mul_sixteen hindex]
  simp only [safe_readMem_bind_iff, safe_ofChecked_bind_iff,
    (total_writeBytes _ _ _).safe_bind_iff, hnext]
  constructor
  · rintro ⟨hoff, h⟩
    refine ⟨⟨hoff, fun base len hvec => ?_, ?_⟩, fun base len data n c hvec hread hwrite => ?_⟩
    · obtain ⟨u, hu, -⟩ := h base hvec.1 len hvec.2
      exact allocBytes_iff.1 ⟨u, hu⟩
    · rintro _ ⟨hvec, hread, hwrite⟩
      obtain ⟨u, -, hrest⟩ := h _ hvec.1 _ hvec.2
      obtain ⟨z, hz, -⟩ := hrest _ hread _ _ hwrite
      exact (hadd hread hwrite).1 ⟨z, hz⟩
    · obtain ⟨u, -, hrest⟩ := h base hvec.1 len hvec.2
      obtain ⟨z, hz, hsafe⟩ := hrest data hread n c hwrite
      obtain rfl := Profile.add_eq_ok hz
      exact hsafe
  · rintro ⟨⟨hoff, hlen, htot⟩, h⟩
    refine ⟨hoff, fun base hbase len hlen' => ?_⟩
    obtain ⟨u, hu⟩ := allocBytes_iff.2 (hlen base len ⟨hbase, hlen'⟩)
    refine ⟨u, hu, fun data hread n c hwrite => ?_⟩
    obtain ⟨z, hz⟩ := (hadd hread hwrite).2 (htot _ ⟨⟨hbase, hlen'⟩, hread, hwrite⟩)
    obtain rfl := Profile.add_eq_ok hz
    exact ⟨_, hz, h base len data n c ⟨hbase, hlen'⟩ hread hwrite⟩

/-- The loop of `writev` from a vector on is safe exactly if every vector that it gets to
fits. -/
theorem safe_writevFrom_iff {host : Host} {fd : BitVec 32} {iov : U64} :
    ∀ {left : ℕ} {st : VectorState} {total : U64}, st.index + left < 2 ^ 64 →
      (host.build.profile = .debug → total.toNat = st.total) →
      ((writevFrom host fd iov left (BitVec.ofNat 64 st.index) total).Safe st.ctx ↔
        ∀ st', ReflTransGen (VectorWritten host fd iov) st st' → st'.index < st.index + left →
          st'.Fits host fd iov)
  | 0, st, total, _, _ => by
    refine iff_of_true (total_pure _ _) fun st' hst' hlt => ?_
    have := index_le hst'
    omega
  | left + 1, st, total, hleft, htotal => by
    rw [safe_writevFrom_succ_iff (by omega) htotal]
    -- What is left after one vector, by the induction hypothesis at the state it leads to.
    have hrest : ∀ {base len n : U64} {data : List U8} {c : SyscallCtx}, st.Fits host fd iov →
        st.Next iov base len → st.ctx.mem.read base len.toNat = .ok data →
        writeBytes host fd data st.ctx = .ok n c →
        ((writevFrom host fd iov left (BitVec.ofNat 64 (st.index + 1)) (total + n)).Safe c ↔
          ∀ st', ReflTransGen (VectorWritten host fd iov)
            ⟨st.index + 1, st.total + len.toNat, c⟩ st' → st'.index < st.index + (left + 1) →
              st'.Fits host fd iov) := by
      intro base len n data c hfits hvec hread hwrite
      have hn : n.toNat = len.toNat := by
        rw [writeBytes_eq_ok hwrite, GuestMemory.length_of_read hread, BitVec.toNat_ofNat,
          Nat.mod_eq_of_lt len.isLt]
      have hsum : host.build.profile = .debug → (total + n).toNat = st.total + len.toNat := by
        intro hdebug
        have hlt := hfits.2.2 _ ⟨hvec, hread, hwrite⟩ hdebug
        rw [BitVec.toNat_add, hn, htotal hdebug]
        exact Nat.mod_eq_of_lt hlt
      have ih := @safe_writevFrom_iff host fd iov left
        ⟨st.index + 1, st.total + len.toNat, c⟩ (total + n) (by dsimp only; omega) hsum
      refine ih.trans (forall_congr' fun st' => imp_congr_right fun _ => ?_)
      rw [show st.index + 1 + left = st.index + (left + 1) by omega]
    constructor
    · rintro ⟨hfits, h⟩ st' hst' hlt
      rcases ReflTransGen.cases_head hst' with rfl | ⟨_, ⟨hvec, hread, hwrite⟩, htail⟩
      · exact hfits
      · exact (hrest hfits hvec hread hwrite).1 (h _ _ _ _ _ hvec hread hwrite) st' htail hlt
    · intro h
      have hfits : st.Fits host fd iov := h st .refl (by omega)
      refine ⟨hfits, fun base len data n c hvec hread hwrite => ?_⟩
      exact (hrest hfits hvec hread hwrite).2 fun st' hst' hlt =>
        h st' (ReflTransGen.head ⟨hvec, hread, hwrite⟩ hst') hlt

theorem safe_sysWritev_iff {host : Host} {c : SyscallCtx} :
    (sysWritev host).Safe c ↔
      ∀ st, ReflTransGen (VectorWritten host ((c.cpu.arg 0).setWidth 32) (c.cpu.arg 1))
        ⟨0, 0, c⟩ st → st.index < (c.cpu.arg 2).toNat →
          st.Fits host ((c.cpu.arg 0).setWidth 32) (c.cpu.arg 1) := by
  have hloop := @safe_writevFrom_iff host ((c.cpu.arg 0).setWidth 32) (c.cpu.arg 1)
    (c.cpu.arg 2).toNat ⟨0, 0, c⟩ 0
    (by simpa using (c.cpu.arg 2).isLt) (fun _ => rfl)
  simp only [zero_add] at hloop
  unfold sysWritev
  rw [safe_get_bind_iff]
  exact hloop

/-! ### The other calls -/

/-- The path that `open` is given can be opened. -/
def Opens (host : Host) (vfs : Sandbox) (c : SyscallCtx) : Prop :=
  ∃ iosPath path readOnly file fs, c.mem.readCstr (c.cpu.arg 0) 1024 = .ok iosPath ∧
    vfs.translate iosPath.toList = .ok (path, readOnly) ∧
    ¬ (readOnly ∧ c.cpu.arg 1 &&& O_ACCMODE ≠ O_RDONLY) ∧
    (openOptions (c.cpu.arg 1)).openPath host.kernel path c.fs = .ok file fs

theorem safe_sysOpen_iff {host : Host} {vfs : Sandbox} {c : SyscallCtx} :
    (sysOpen host vfs).Safe c ↔
      (host.build.profile = .debug → Opens host vfs c → c.fds.HasFree) := by
  have hinsert : ∀ (file : File) (c' : SyscallCtx),
      (ofChecked (c'.fds.insert host.build.profile (.file file)) >>= fun r =>
        (modify fun c => { c with fds := r.2 }) >>= fun _ =>
          pure (r.1.signExtend 64) : SysM U64).Safe c' ↔
      (host.build.profile = .debug → c'.fds.HasFree) := by
    intro file c'
    rw [safe_bind_total_iff, safe_ofChecked_iff, FdTable.insert_isOk_iff]
    exact fun r => (total_modify _).bind fun _ => total_pure _
  unfold sysOpen
  simp only [safe_get_bind_iff, safe_readMem_bind_iff, safe_ofResult_bind_iff, mapError_eq_ok]
  constructor
  · rintro h hdebug ⟨iosPath, path, readOnly, file, fs, hpath, htrans, hro, hopen⟩
    have hsafe := h iosPath hpath (path, readOnly) htrans
    rw [if_neg hro] at hsafe
    have hrest := ((total_onFs (total_openPath _ _ _)).safe_bind_iff.1 hsafe) file _
      (onFs_eq_ok.2 ⟨fs, hopen, rfl⟩)
    exact (hinsert file { c with fs }).1 hrest hdebug
  · rintro h iosPath hpath ⟨path, readOnly⟩ htrans
    dsimp only
    split_ifs with hro
    · exact total_fail _ c
    · refine (total_onFs (total_openPath _ _ _)).safe_bind_iff.2 fun file c' hrun => ?_
      obtain ⟨fs, hopen, rfl⟩ := onFs_eq_ok.1 hrun
      exact (hinsert file { c with fs }).2 fun hdebug =>
        h hdebug ⟨iosPath, path, readOnly, file, fs, hpath, htrans, hro, hopen⟩

theorem safe_sysMmap_iff {host : Host} {c : SyscallCtx} :
    (sysMmap host).Safe c ↔
      (c.cpu.arg 3 &&& MAP_ANON ≠ 0 → c.mem.AnonFits host.build.profile (c.cpu.arg 1)) := by
  unfold sysMmap
  rw [safe_get_bind_iff]
  split_ifs with hanon
  · exact iff_of_true (total_fail _ c) fun h => absurd hanon h
  · rw [safe_onMem_iff, GuestMemory.safe_mmapAnon_iff]
    exact ⟨fun h _ => h, fun h => h hanon⟩

theorem total_sysLseek (host : Host) : (sysLseek host).Total := by
  refine total_get.bind fun c => ?_
  dsimp only
  split
  · exact (total_ofResult _).bind fun _ => (total_onFs (total_seek _ _ _)).bind fun _ =>
      (total_setFile _ _).bind fun _ => total_pure _
  · exact total_fail _
  · exact total_fail _

theorem total_sysClose : sysClose.Total := by
  refine total_get.bind fun c => (total_modify _).bind fun _ => ?_
  dsimp only
  split_ifs
  · exact total_pure _
  · exact total_fail _

theorem total_sysAccess (host : Host) (vfs : Sandbox) : (sysAccess host vfs).Total := by
  refine total_get.bind fun c => (total_readMem _).bind fun _ => (total_ofResult _).bind fun _ => ?_
  dsimp only
  split_ifs
  · exact total_pure _
  · exact total_fail _

theorem total_sysMprotect (host : Host) : (sysMprotect host).Total :=
  total_get.bind fun _ =>
    Total.bind (fun c => safe_onMem_iff.2 (GuestMemory.total_protect _ _ _ c.mem)) fun _ =>
    total_pure _

theorem total_sysGettimeofday (host : Host) : (sysGettimeofday host).Total := by
  refine total_get.bind fun c => ?_
  dsimp only
  split_ifs
  · exact total_pure _
  · exact (total_onMem_write _ _ _).bind fun _ => (total_onMem_write _ _ _).bind fun _ =>
      total_pure _

theorem total_sysGetentropy (host : Host) : (sysGetentropy host).Total := by
  refine total_get.bind fun c => ?_
  dsimp only
  split_ifs
  · exact total_fail _
  · exact (total_onMem_write _ _ _).bind fun _ => total_pure _

/-- When the handler of a call does not panic. -/
def Fits (host : Host) (vfs : Sandbox) (c : SyscallCtx) : Call → Prop
  | .read | .write => (c.cpu.arg 2).toNat ≤ isizeMax
  | .writev =>
    ∀ st, ReflTransGen (VectorWritten host ((c.cpu.arg 0).setWidth 32) (c.cpu.arg 1))
      ⟨0, 0, c⟩ st → st.index < (c.cpu.arg 2).toNat →
        st.Fits host ((c.cpu.arg 0).setWidth 32) (c.cpu.arg 1)
  | .openFile => host.build.profile = .debug → Opens host vfs c → c.fds.HasFree
  | .mmap => c.cpu.arg 3 &&& MAP_ANON ≠ 0 → c.mem.AnonFits host.build.profile (c.cpu.arg 1)
  | _ => True

theorem safe_handle_iff {host : Host} {vfs : Sandbox} {c : SyscallCtx} (call : Call) :
    (handle host vfs call).Safe c ↔ Fits host vfs c call := by
  cases call with
  | read => exact safe_sysRead_iff
  | write => exact safe_sysWrite_iff
  | writev => exact safe_sysWritev_iff
  | openFile => exact safe_sysOpen_iff
  | mmap => exact safe_sysMmap_iff
  | exit => exact iff_of_true ((total_modify _).bind (fun _ => total_pure _) c) trivial
  | close => exact iff_of_true (total_sysClose c) trivial
  | lseek => exact iff_of_true (total_sysLseek host c) trivial
  | access => exact iff_of_true (total_sysAccess host vfs c) trivial
  | mprotect => exact iff_of_true (total_sysMprotect host c) trivial
  | gettimeofday => exact iff_of_true (total_sysGettimeofday host c) trivial
  | getentropy => exact iff_of_true (total_sysGetentropy host c) trivial
  | munmap | madvise | getpid | getuid | getgid | issetugid | fcntl =>
    exact iff_of_true (total_pure _ c) trivial

end Unix

namespace Mach

/-- When the handler of a trap does not panic. -/
def Fits (host : Host) (c : SyscallCtx) : Trap → Prop
  | .vmAllocate => c.mem.AnonFits host.build.profile (c.cpu.arg 2)
  | _ => True

theorem safe_vmAllocate_iff {host : Host} {c : SyscallCtx} :
    (vmAllocate host).Safe c ↔ c.mem.AnonFits host.build.profile (c.cpu.arg 2) := by
  unfold vmAllocate
  rw [safe_get_bind_iff, safe_bind_total_iff, safe_attempt_iff, safe_onMem_iff,
    GuestMemory.safe_mmapAnon_iff]
  intro base
  rcases base with e | base
  · exact total_pure _
  · refine (Unix.total_onMem_write _ _ _).attempt.bind fun r => ?_
    rcases r with e | u <;> exact total_pure _

theorem safe_handle_iff {host : Host} {c : SyscallCtx} (trap : Trap) :
    (handle host trap).Safe c ↔ Fits host c trap := by
  cases trap with
  | vmAllocate => exact safe_vmAllocate_iff
  | taskSelf | hostSelf | threadSelf | replyPort | msg | semaphore | vmDeallocate =>
    exact iff_of_true (total_pure _ c) trivial

end Mach

/-! ## Dispatch -/

/-- When the handler of a class and number does not panic. What has no handler is counted. -/
def SelectorFits (host : Host) (vfs : Sandbox) (d : SyscallDispatcher) (c : SyscallCtx) :
    SyscallClass → U32 → Prop
  | .unix, number =>
    match Unix.Call.ofNumber number with
    | some call => Unix.Fits host vfs c call
    | none => host.build.profile = .debug → d.stubbed.toNat + 1 < 2 ^ 64
  | .mach, number =>
    match Mach.Trap.ofNumber number with
    | some trap => Mach.Fits host c trap
    | none => host.build.profile = .debug → d.stubbed.toNat + 1 < 2 ^ 64
  | _, _ => host.build.profile = .debug → d.stubbed.toNat + 1 < 2 ^ 64

/-- When a system call does not panic : in a debug build its counter does not overflow and the
selector can be negated, and its handler does not panic. -/
def SyscallFits (host : Host) (vfs : Sandbox) (d : SyscallDispatcher) (c : SyscallCtx) : Prop :=
  (host.build.profile = .debug → d.serviced.toNat + 1 < 2 ^ 64 ∧ c.cpu.x 16 ≠ BitVec.intMin 64) ∧
    ∀ cls number, decode host.build.profile (c.cpu.x 16) = .ok (cls, number) →
      SelectorFits host vfs d c cls number

theorem neg_isOk_iff {p : Profile} {x : U64} :
    (∃ z, p.neg x = .ok z) ↔ (p = .debug → x ≠ BitVec.intMin 64) := by
  cases p with
  | release => simp [Profile.neg]
  | debug =>
    simp only [Profile.neg, true_imp_iff]
    split_ifs with h
    · refine iff_of_true ⟨_, rfl⟩ ?_
      rintro rfl
      exact absurd h (by decide)
    · refine iff_of_false (by rintro ⟨_, ⟨⟩⟩) fun hne => h (BitVec.toInt_neg_of_ne_intMin hne)

theorem decode_isOk_iff {p : Profile} {x16 : U64} :
    (∃ r, decode p x16 = .ok r) ↔ (p = .debug → x16 ≠ BitVec.intMin 64) := by
  unfold decode
  by_cases hneg : x16.toInt < 0
  · rw [if_pos hneg, ← neg_isOk_iff]
    simp only [except_bind_eq_ok]
    exact ⟨fun ⟨_, z, hz, _⟩ => ⟨z, hz⟩, fun ⟨z, hz⟩ => ⟨_, z, hz, rfl⟩⟩
  · rw [if_neg hneg]
    refine iff_of_true ?_ fun _ => ?_
    · dsimp only
      split_ifs
      · split <;> exact ⟨_, rfl⟩
      · exact ⟨_, rfl⟩
    · rintro rfl
      exact hneg (by decide)

/-- Once the selector is decoded, the handler decides, or the count of stubbed calls. -/
theorem safe_selector_iff {host : Host} {vfs : Sandbox} {d : SyscallDispatcher} {c : SyscallCtx}
    (cls : SyscallClass) (number : U32) (serviced : U64) :
    (match handlerOf host vfs cls number with
      | some handler => do
        let result ← attempt handler
        modify fun c => { c with cpu := c.cpu.setSyscallResult result }
        return { d with serviced }
      | none => do
        let stubbed ← ofChecked (host.build.profile.add d.stubbed 1)
        modify fun c => { c with cpu := c.cpu.setSyscallResult (stubAnswer cls) }
        return ⟨serviced, stubbed⟩ : Prog Empty Panic SyscallCtx SyscallDispatcher).Safe c ↔
      SelectorFits host vfs d c cls number := by
  have hstub : ∀ cls serviced, (ofChecked (host.build.profile.add d.stubbed 1) >>= fun stubbed =>
      (modify fun c => { c with cpu := c.cpu.setSyscallResult (stubAnswer cls) }) >>= fun _ =>
        pure ⟨serviced, stubbed⟩ : Prog Empty Panic SyscallCtx SyscallDispatcher).Safe c ↔
      (host.build.profile = .debug → d.stubbed.toNat + 1 < 2 ^ 64) := by
    intro cls serviced
    rw [safe_bind_total_iff fun _ => (total_modify _).bind fun _ => total_pure _,
      safe_ofChecked_iff, Profile.add_isOk_iff]
    rfl
  have hhandler : ∀ (handler : SysM U64) (serviced : U64),
      (attempt handler >>= fun result =>
        (modify fun c => { c with cpu := c.cpu.setSyscallResult result }) >>= fun _ =>
        pure { d with serviced } : Prog Empty Panic SyscallCtx SyscallDispatcher).Safe c ↔
      handler.Safe c := by
    intro handler serviced
    rw [safe_bind_total_iff fun _ => (total_modify _).bind fun _ => total_pure _,
      safe_attempt_iff]
  cases cls with
  | unix =>
    simp only [handlerOf, SelectorFits]
    rcases Unix.Call.ofNumber number with _ | call
    · exact hstub _ _
    · exact (hhandler _ _).trans (Unix.safe_handle_iff call)
  | mach =>
    simp only [handlerOf, SelectorFits]
    rcases Mach.Trap.ofNumber number with _ | trap
    · exact hstub _ _
    · exact (hhandler _ _).trans (Mach.safe_handle_iff trap)
  | machDep => exact hstub _ _
  | diag => exact hstub _ _

theorem safe_dispatch_iff {host : Host} {vfs : Sandbox} {d : SyscallDispatcher} {c : SyscallCtx} :
    (dispatch host vfs d).Safe c ↔ SyscallFits host vfs d c := by
  unfold dispatch SyscallFits
  rw [safe_ofChecked_bind_iff, Profile.add_bind_iff, safe_get_bind_iff, safe_ofChecked_bind_iff,
    imp_and, and_assoc, ← decode_isOk_iff]
  refine and_congr_right fun _ => ⟨?_, ?_⟩
  · rintro ⟨⟨cls, number⟩, hdecode, h⟩
    refine ⟨⟨_, hdecode⟩, fun cls' number' hdecode' => ?_⟩
    obtain ⟨rfl, rfl⟩ := Prod.mk.inj (Except.ok.inj (hdecode.symm.trans hdecode'))
    exact (safe_selector_iff _ _ _).1 h
  · rintro ⟨⟨⟨cls, number⟩, hdecode⟩, h⟩
    exact ⟨_, hdecode, (safe_selector_iff _ _ _).2 (h cls number hdecode)⟩

end IosEmu
