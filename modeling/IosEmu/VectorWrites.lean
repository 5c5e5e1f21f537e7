import IosEmu.FileWrites

/-!
# `writev` and the write of the concatenation

The loop of `sysWritev` reads a vector and its buffer, writes the buffer, and goes on. `buffers`
is what it can read, up to where the reading stops (`VectorStop`), and `loopOutcome` the outcome
of the loop as a function of the buffers : it fails at a buffer the descriptor does not take,
and otherwise has written all of them, also when the reading stops with a fault
(`writevFrom_apply`).

So a vector of buffers that can be read is written like their concatenation, but for an empty
vector, which succeeds on every descriptor, and for the overflows of a debug build. A fault
behind a buffer with bytes leaves these in the file. `writes_vector_iff` is the exact condition.
-/

open SysLib

namespace IosEmu

open SyscallCtx Prog

/-! ## The buffers of a vector -/

/-- Why the reading of the vectors stops : a vector or its buffer cannot be read, or the buffer
is longer than one of the host can be, which is a panic. -/
inductive VectorStop
  | fault
  | tooLong
  deriving DecidableEq

namespace GuestMemory

/-- The buffer that the vector at index `i` names. -/
def bufferAt (m : GuestMemory) (iov : U64) (i : ℕ) : Except VectorStop (List U8) :=
  match m.readU64 (iov + BitVec.ofNat 64 (16 * i)),
      m.readU64 (iov + BitVec.ofNat 64 (16 * i) + 8) with
  | .ok base, .ok len =>
    if len.toNat ≤ isizeMax then (m.read base len.toNat).mapError fun _ => .fault
    else .error .tooLong
  | _, _ => .error .fault

/-- The buffers of `left` vectors from index `i` on, up to where the reading stops. -/
def buffers (m : GuestMemory) (iov : U64) : ℕ → ℕ → List (List U8) × Option VectorStop
  | 0, _ => ([], none)
  | left + 1, i =>
    match m.bufferAt iov i with
    | .ok data => (data :: (m.buffers iov left (i + 1)).1, (m.buffers iov left (i + 1)).2)
    | .error stop => ([], some stop)

/-- The vectors from index `i` on can be read, and name the buffers `bs`. -/
def Vectors (m : GuestMemory) (iov : U64) : ℕ → List (List U8) → Prop
  | _, [] => True
  | i, b :: bs =>
    (∃ base len, m.readU64 (iov + BitVec.ofNat 64 (16 * i)) = .ok base ∧
      m.readU64 (iov + BitVec.ofNat 64 (16 * i) + 8) = .ok len ∧ m.read base len.toNat = .ok b) ∧
    m.Vectors iov (i + 1) bs

/-- A buffer that can be read is in a region, so it is not too long. -/
theorem bufferAt_eq_ok_iff {m : GuestMemory} {iov : U64} {i : ℕ} {b : List U8} :
    m.bufferAt iov i = .ok b ↔
      ∃ base len, m.readU64 (iov + BitVec.ofNat 64 (16 * i)) = .ok base ∧
        m.readU64 (iov + BitVec.ofNat 64 (16 * i) + 8) = .ok len ∧
        m.read base len.toNat = .ok b := by
  unfold bufferAt
  constructor
  · intro h
    split at h
    · next base len hbase hlen =>
      split_ifs at h
      exact ⟨base, len, hbase, hlen, mapError_eq_ok.1 h⟩
    · cases h
  · rintro ⟨base, len, hbase, hlen, hread⟩
    simp only [hbase, hlen, if_pos (le_isizeMax_of_read hread)]
    exact mapError_eq_ok.2 hread

theorem length_of_bufferAt {m : GuestMemory} {iov : U64} {i : ℕ} {b : List U8}
    (h : m.bufferAt iov i = .ok b) : b.length < 2 ^ 64 := by
  obtain ⟨base, len, -, -, hread⟩ := bufferAt_eq_ok_iff.1 h
  rw [length_of_read hread]
  exact len.isLt

theorem vectors_iff {m : GuestMemory} {iov : U64} : ∀ {bs : List (List U8)} {left i : ℕ},
    bs.length = left ∧ m.Vectors iov i bs ↔ m.buffers iov left i = (bs, none)
  | [], 0, i => by simp [buffers, Vectors]
  | b :: bs, 0, i => by simp [buffers]
  | [], left + 1, i => by
    rcases h : m.bufferAt iov i with stop | data <;> simp [buffers, h]
  | b :: bs, left + 1, i => by
    have ih := @vectors_iff m iov bs left (i + 1)
    rw [Vectors, ← bufferAt_eq_ok_iff]
    rcases h : m.bufferAt iov i with stop | data
    · simp [buffers, h]
    · simp only [Prod.ext_iff] at ih
      simp only [buffers, h, List.length_cons, Nat.succ.injEq, Except.ok.injEq, Prod.ext_iff,
        List.cons.injEq]
      tauto

end GuestMemory

/-! ## The loop -/

/-- Neither an offset nor a sum of the loop overflows in a debug build, as far as it gets. -/
def VectorFits (p : Profile) (takes : List U8 → Bool) :
    ℕ → ℕ → List (List U8) → Option VectorStop → Prop
  | i, _, [], stop => stop ≠ none → p = .debug → 16 * i < 2 ^ 64
  | i, total, b :: bs, stop =>
    (p = .debug → 16 * i < 2 ^ 64) ∧
      (takes b = true → (p = .debug → total + b.length < 2 ^ 64) ∧
        VectorFits p takes (i + 1) (total + b.length) bs stop)

/-- The outcome of the loop over the buffers. -/
def loopOutcome (c : SyscallCtx) (fd : BitVec 32) (total : ℕ) (bs : List (List U8))
    (stop : Option VectorStop) : Outcome U32 Panic SyscallCtx U64 :=
  if bs.all (c.Takes fd) then
    match stop with
    | none => .ok (BitVec.ofNat 64 (total + bs.flatten.length)) (c.written fd bs.flatten)
    | some .fault => .err Errno.EFAULT (c.written fd bs.flatten)
    | some .tooLong => .panic .capacityOverflow
  else .err (c.refusal fd) c

section Loop

variable {c : SyscallCtx} {fd : BitVec 32}

/-- A descriptor that takes some bytes and refuses others takes only the empty write. -/
theorem written_of_refused {b b' : List U8} (h : c.Takes fd b = true)
    (h' : c.Takes fd b' = false) : c.written fd b = c := by
  unfold Takes at h h'
  rcases hget : c.fds.slots.get? fd with _ | _ | _ | _ | f | _ <;> simp only [hget] at h h'
  case some.file =>
    have hb : b = [] := by simp_all
    rw [hb, written_nil]
  all_goals simp [written, hget]

/-- The buffers after the first one, in the context after it is written. -/
theorem loopOutcome_cons {b : List U8} (h : c.Takes fd b = true) (total : ℕ)
    (bs : List (List U8)) (stop : Option VectorStop) :
    loopOutcome (c.written fd b) fd (total + b.length) bs stop =
      loopOutcome c fd total (b :: bs) stop := by
  have htakes : (c.written fd b).Takes fd = c.Takes fd := funext (takes_written b)
  unfold loopOutcome
  rw [htakes, List.all_cons, h, Bool.true_and]
  split_ifs with hall
  · simp only [written_append, List.flatten_cons, List.length_append, Nat.add_assoc]
  · obtain ⟨b', -, hb'⟩ : ∃ b' ∈ bs, c.Takes fd b' = false := by simpa using hall
    rw [refusal_written, written_of_refused h hb']

theorem readMem_bind_of_ok {α β : Type} {read : GuestMemory → EmuResult α} {a : α}
    (h : read c.mem = .ok a) (f : α → SysM β) : (readMem read >>= f) c = f a c := by
  rw [bind_apply, readMem, bind_apply, get_apply]
  simp only [h, Except.mapError, ofResult_ok]

theorem readMem_bind_of_error {α β : Type} {read : GuestMemory → EmuResult α} {e : EmuError}
    (h : read c.mem = .error e) (f : α → SysM β) :
    (readMem read >>= f) c = .err Errno.EFAULT c := by
  rw [bind_apply, readMem, bind_apply, get_apply]
  simp only [h, Except.mapError, ofResult_error]

end Loop

namespace Unix

/-- One turn of the loop. -/
theorem writevFrom_succ {host : Host} (hk : ∀ fs f data, host.kernel.writeFault fs f data = none)
    (fd : BitVec 32) (iov : U64) (left i : ℕ) (total : U64) (c : SyscallCtx) :
    writevFrom host fd iov (left + 1) (BitVec.ofNat 64 i) total c =
      match host.build.profile.mul (BitVec.ofNat 64 i) 16 with
      | .error q => .panic q
      | .ok _ =>
        match c.mem.bufferAt iov i with
        | .error .fault => .err Errno.EFAULT c
        | .error .tooLong => .panic .capacityOverflow
        | .ok b =>
          if c.Takes fd b then
            match host.build.profile.add total (BitVec.ofNat 64 b.length) with
            | .error q => .panic q
            | .ok z => writevFrom host fd iov left (BitVec.ofNat 64 (i + 1)) z (c.written fd b)
          else .err (c.refusal fd) c := by
  have hnext : BitVec.ofNat 64 i + 1 = BitVec.ofNat 64 (i + 1) := (BitVec.ofNat_add i 1).symm
  rw [writevFrom, bind_apply]
  rcases hmul : host.build.profile.mul (BitVec.ofNat 64 i) 16 with q | off
  · rfl
  obtain rfl : off = BitVec.ofNat 64 (16 * i) := by
    rw [Profile.mul_eq_ok hmul, Nat.mul_comm, BitVec.ofNat_mul]
    rfl
  simp only [ofChecked_ok]
  unfold GuestMemory.bufferAt
  rcases hbase : c.mem.readU64 (iov + BitVec.ofNat 64 (16 * i)) with e | base
  · rw [readMem_bind_of_error hbase]
  rw [readMem_bind_of_ok hbase]
  rcases hlen : c.mem.readU64 (iov + BitVec.ofNat 64 (16 * i) + 8) with e | len
  · rw [readMem_bind_of_error hlen]
  rw [readMem_bind_of_ok hlen, bind_apply, allocBytes]
  by_cases hcap : len.toNat ≤ isizeMax
  swap
  · simp only [if_neg hcap, ofChecked_error]
  simp only [if_pos hcap, ofChecked_ok]
  rcases hread : c.mem.read base len.toNat with e | b
  · rw [readMem_bind_of_error hread, Except.mapError]
  rw [readMem_bind_of_ok hread, bind_apply, writeBytes_apply hk, Except.mapError, hnext]
  by_cases htakes : c.Takes fd b
  · simp only [if_pos htakes, bind_apply]
    rcases host.build.profile.add total (BitVec.ofNat 64 b.length) with q | z <;> rfl
  · simp only [if_neg htakes]

theorem mulIndex_isOk_iff {p : Profile} {i : ℕ} (hi : i < 2 ^ 64) :
    (∃ z, p.mul (BitVec.ofNat 64 i) 16 = .ok z) ↔ (p = .debug → 16 * i < 2 ^ 64) := by
  rw [Profile.mul_isOk_iff, BitVec.toNat_ofNat, Nat.mod_eq_of_lt hi, Nat.mul_comm]
  rfl

theorem addLength_isOk_iff {p : Profile} {total n : ℕ} (htotal : p = .debug → total < 2 ^ 64)
    (hn : n < 2 ^ 64) :
    (∃ z, p.add (BitVec.ofNat 64 total) (BitVec.ofNat 64 n) = .ok z) ↔
      (p = .debug → total + n < 2 ^ 64) := by
  rw [Profile.add_isOk_iff]
  refine forall_congr' fun h => ?_
  rw [BitVec.toNat_ofNat, BitVec.toNat_ofNat, Nat.mod_eq_of_lt (htotal h), Nat.mod_eq_of_lt hn]

/-- An operation that panics has not met the condition to return. -/
theorem not_of_error {x : Except Panic U64} {fits : Prop} {q : Panic}
    (h : (∃ z, x = .ok z) ↔ fits) (hx : x = .error q) : ¬ fits := by
  rw [← h, hx]
  simp

/-- The loop, as a function of the buffers it can read : by induction on the vectors left, with
the context after the first buffer. -/
theorem writevFrom_apply {host : Host} (hk : ∀ fs f data, host.kernel.writeFault fs f data = none)
    (fd : BitVec 32) (iov : U64) {left i total : ℕ} {c : SyscallCtx} {bs : List (List U8)}
    {stop : Option VectorStop} (hi : i + left ≤ 2 ^ 64)
    (htotal : host.build.profile = .debug → total < 2 ^ 64)
    (hbs : c.mem.buffers iov left i = (bs, stop)) :
    (VectorFits host.build.profile (c.Takes fd) i total bs stop →
      writevFrom host fd iov left (BitVec.ofNat 64 i) (BitVec.ofNat 64 total) c =
        loopOutcome c fd total bs stop) ∧
    (¬ VectorFits host.build.profile (c.Takes fd) i total bs stop →
      ∃ q, writevFrom host fd iov left (BitVec.ofNat 64 i) (BitVec.ofNat 64 total) c =
        .panic q) := by
  induction left generalizing i total c bs stop with
  | zero =>
    obtain ⟨rfl, rfl⟩ := Prod.ext_iff.1 hbs
    simp [VectorFits, writevFrom, loopOutcome, GuestMemory.buffers]
  | succ left ih =>
    have hmul := mulIndex_isOk_iff (p := host.build.profile) (show i < 2 ^ 64 by omega)
    rw [writevFrom_succ hk]
    rcases hb : c.mem.bufferAt iov i with stop' | b
    · simp only [GuestMemory.buffers, hb, Prod.mk.injEq] at hbs
      obtain ⟨rfl, rfl⟩ := hbs
      rcases hoff : host.build.profile.mul (BitVec.ofNat 64 i) 16 with q | off
      · exact ⟨fun h => absurd (h (by simp)) (not_of_error hmul hoff), fun _ => ⟨q, rfl⟩⟩
      · have hyes : host.build.profile = .debug → 16 * i < 2 ^ 64 := hmul.1 ⟨off, hoff⟩
        refine ⟨fun _ => ?_, fun h => absurd (fun _ => hyes) h⟩
        rcases stop' <;> simp [loopOutcome]
    · simp only [GuestMemory.buffers, hb, Prod.mk.injEq] at hbs
      obtain ⟨rfl, rfl⟩ := hbs
      rcases hoff : host.build.profile.mul (BitVec.ofNat 64 i) 16 with q | off
      · exact ⟨fun h => absurd h.1 (not_of_error hmul hoff), fun _ => ⟨q, rfl⟩⟩
      have hyes : host.build.profile = .debug → 16 * i < 2 ^ 64 := hmul.1 ⟨off, hoff⟩
      by_cases htakes : c.Takes fd b = true
      swap
      · refine ⟨fun _ => ?_, fun h => absurd ⟨hyes, fun h' => absurd h' htakes⟩ h⟩
        simp [loopOutcome, htakes]
      have hadd := @addLength_isOk_iff host.build.profile total b.length htotal
        (GuestMemory.length_of_bufferAt hb)
      have htakes' : (c.written fd b).Takes fd = c.Takes fd := funext (takes_written b)
      simp only [htakes, if_true]
      rcases hz : host.build.profile.add (BitVec.ofNat 64 total) (BitVec.ofNat 64 b.length) with
        q | z
      · exact ⟨fun h => absurd (h.2 htakes).1 (not_of_error hadd hz), fun _ => ⟨q, rfl⟩⟩
      · have hsum : host.build.profile = .debug → total + b.length < 2 ^ 64 := hadd.1 ⟨z, hz⟩
        obtain rfl : z = BitVec.ofNat 64 (total + b.length) := by
          rw [Profile.add_eq_ok hz, BitVec.ofNat_add]
        have hrest := @ih (i + 1) (total + b.length) (c.written fd b) _ _ (by omega) hsum rfl
        rw [written_mem, htakes', loopOutcome_cons htakes] at hrest
        exact ⟨fun h => hrest.1 (h.2 htakes).2,
          fun h => hrest.2 fun h' => h ⟨hyes, fun _ => ⟨hsum, h'⟩⟩⟩

theorem sysWritev_apply {host : Host} (hk : ∀ fs f data, host.kernel.writeFault fs f data = none)
    {c : SyscallCtx} {bs : List (List U8)} {stop : Option VectorStop}
    (hbs : c.mem.buffers (c.cpu.arg 1) (c.cpu.arg 2).toNat 0 = (bs, stop)) :
    (VectorFits host.build.profile (c.Takes c.fd) 0 0 bs stop →
      sysWritev host c = loopOutcome c c.fd 0 bs stop) ∧
    (¬ VectorFits host.build.profile (c.Takes c.fd) 0 0 bs stop →
      ∃ q, sysWritev host c = .panic q) := by
  have hlt := (c.cpu.arg 2).isLt
  have hloop : sysWritev host c =
      writevFrom host c.fd (c.cpu.arg 1) (c.cpu.arg 2).toNat (BitVec.ofNat 64 0)
        (BitVec.ofNat 64 0) c := by
    rw [sysWritev, get_bind]
    rfl
  rw [hloop]
  exact writevFrom_apply hk _ _ (by omega) (fun _ => by decide) hbs

end Unix

/-! ## When the vector is written like the concatenation -/

section Vector

variable {c : SyscallCtx} {fd : BitVec 32}

/-- The parts of a vector are taken if the whole is. An empty vector has no parts. -/
theorem all_takes {bs : List (List U8)} (h : bs ≠ []) :
    bs.all (c.Takes fd) = c.Takes fd bs.flatten := by
  rcases bs with _ | ⟨b, bs⟩
  · exact absurd rfl h
  unfold Takes
  rcases c.fds.slots.get? fd with _ | _ | _ | _ | f | _
  case some.file =>
    rcases hw : f.writable
    · rw [Bool.eq_iff_iff]
      simp [hw]
    · simp [hw]
  all_goals simp

/-- The bytes leave the file behind the descriptor as it is. -/
def FileKept (c : SyscallCtx) (fd : BitVec 32) (data : List U8) : Prop :=
  ∀ f, c.fds.slots.get? fd = some (.file f) →
    data = [] ∨ File.splice (c.fs.content f.path) (f.writePos c.fs) data = c.fs.content f.path

theorem written_fs_iff {data : List U8} : (c.written fd data).fs = c.fs ↔ FileKept c fd data := by
  by_cases hdata : data = []
  · exact iff_of_true (by rw [hdata, written_nil]) fun f _ => Or.inl hdata
  by_cases hfile : ∃ f, c.fds.slots.get? fd = some (.file f)
  · obtain ⟨f, hget⟩ := hfile
    rw [written_of_file hget hdata]
    constructor
    · intro h f' hget'
      obtain rfl : f = f' := by simpa [hget] using hget'
      refine Or.inr ?_
      calc File.splice (c.fs.content f.path) (f.writePos c.fs) data
          = (c.fs.set f.path (.file (File.splice (c.fs.content f.path) (f.writePos c.fs)
              data))).content f.path := (HostFs.content_set _ _ _).symm
        _ = c.fs.content f.path := congrArg (HostFs.content · f.path) h
    · intro h
      have hsame := (h f hget).resolve_left hdata
      have hfull : c.fs.content f.path ≠ [] := by
        rw [← hsame]
        simp [File.splice, hdata]
      show c.fs.set f.path _ = c.fs
      rw [hsame, HostFs.set_content hfull]
  · have hno : ∀ f, c.fds.slots.get? fd ≠ some (.file f) := fun f hget => hfile ⟨f, hget⟩
    exact iff_of_true (by rw [written_of_not_file hno]) fun f hget => absurd hget (hno f)

end Vector

/-- `writev` is the write of the concatenation if the buffers can be read, and no file changes
if it fails. -/
structure WritesVector (host : Host) (c : SyscallCtx) : Prop where
  whole : ∀ bs : List (List U8), bs.length = (c.cpu.arg 2).toNat →
    c.mem.Vectors (c.cpu.arg 1) 0 bs →
      Unix.sysWritev host c = Unix.writeBytes host c.fd bs.flatten c
  failed : ∀ e c', Unix.sysWritev host c = .err e c' → c'.fs = c.fs

/-- The condition for it on the machine before the call : a vector that can be read does not
overflow the sums of a debug build and, if it is empty, is for a descriptor that takes bytes;
and what lies before a fault leaves the file as it is. -/
def VectorSound (p : Profile) (c : SyscallCtx) : Prop :=
  match c.mem.buffers (c.cpu.arg 1) (c.cpu.arg 2).toNat 0 with
  | (bs, none) => VectorFits p (c.Takes c.fd) 0 0 bs none ∧ (bs = [] → c.Takes c.fd [])
  | (bs, some .fault) =>
    bs.all (c.Takes c.fd) → VectorFits p (c.Takes c.fd) 0 0 bs (some .fault) →
      FileKept c c.fd bs.flatten
  | (_, some .tooLong) => True

section Sound

variable {host : Host} {c : SyscallCtx} {bs : List (List U8)}

/-- A vector that can be read : nothing changes if the call fails. -/
theorem writesVector_iff_of_read (hk : ∀ fs f data, host.kernel.writeFault fs f data = none)
    (hbs : c.mem.buffers (c.cpu.arg 1) (c.cpu.arg 2).toNat 0 = (bs, none)) :
    WritesVector host c ↔
      VectorFits host.build.profile (c.Takes c.fd) 0 0 bs none ∧ (bs = [] → c.Takes c.fd []) := by
  obtain ⟨hlength, hvectors⟩ := GuestMemory.vectors_iff.2 hbs
  obtain ⟨hfits, hpanics⟩ := Unix.sysWritev_apply hk hbs
  have hwrite := Unix.writeBytes_apply hk c.fd bs.flatten c
  constructor
  · intro h
    have hsame := h.whole bs hlength hvectors
    rw [hwrite] at hsame
    have hfit : VectorFits host.build.profile (c.Takes c.fd) 0 0 bs none := by
      by_contra hno
      obtain ⟨q, hq⟩ := hpanics hno
      rw [hq] at hsame
      split_ifs at hsame
    refine ⟨hfit, ?_⟩
    rintro rfl
    by_contra hno
    rw [hfits hfit] at hsame
    simp [loopOutcome, hno] at hsame
  · rintro ⟨hfit, hempty⟩
    have hrun := hfits hfit
    have hall : bs.all (c.Takes c.fd) = c.Takes c.fd bs.flatten := by
      rcases eq_or_ne bs [] with rfl | hne
      · simpa using (hempty rfl).symm
      · exact all_takes hne
    rw [loopOutcome, hall, Nat.zero_add] at hrun
    refine ⟨fun bs' hlength' hvectors' => ?_, fun e c' herr => ?_⟩
    · obtain rfl : bs' = bs := by
        simpa [hbs, eq_comm] using GuestMemory.vectors_iff.1 ⟨hlength', hvectors'⟩
      rw [hrun, hwrite]
    · rw [hrun] at herr
      split_ifs at herr
      rw [(Outcome.err.inj herr).2]

/-- A fault behind the buffers `bs`. -/
theorem writesVector_iff_of_fault (hk : ∀ fs f data, host.kernel.writeFault fs f data = none)
    (hbs : c.mem.buffers (c.cpu.arg 1) (c.cpu.arg 2).toNat 0 = (bs, some .fault)) :
    WritesVector host c ↔
      (bs.all (c.Takes c.fd) → VectorFits host.build.profile (c.Takes c.fd) 0 0 bs (some .fault) →
        FileKept c c.fd bs.flatten) := by
  obtain ⟨hfits, hpanics⟩ := Unix.sysWritev_apply hk hbs
  constructor
  · intro h hall hfit
    have hrun := hfits hfit
    rw [loopOutcome, if_pos hall] at hrun
    exact written_fs_iff.1 (h.failed _ _ hrun)
  · intro h
    refine ⟨fun bs' hlength hvectors => ?_, fun e c' herr => ?_⟩
    · simpa [hbs] using GuestMemory.vectors_iff.1 ⟨hlength, hvectors⟩
    · by_cases hfit : VectorFits host.build.profile (c.Takes c.fd) 0 0 bs (some .fault)
      · rw [hfits hfit, loopOutcome] at herr
        split_ifs at herr with hall
        · rw [← (Outcome.err.inj herr).2]
          exact written_fs_iff.2 (h hall hfit)
        · rw [(Outcome.err.inj herr).2]
      · obtain ⟨q, hq⟩ := hpanics hfit
        rw [hq] at herr
        cases herr

theorem writesVector_of_tooLong (hk : ∀ fs f data, host.kernel.writeFault fs f data = none)
    (hbs : c.mem.buffers (c.cpu.arg 1) (c.cpu.arg 2).toNat 0 = (bs, some .tooLong)) :
    WritesVector host c := by
  obtain ⟨hfits, hpanics⟩ := Unix.sysWritev_apply hk hbs
  refine ⟨fun bs' hlength hvectors => ?_, fun e c' herr => ?_⟩
  · simpa [hbs] using GuestMemory.vectors_iff.1 ⟨hlength, hvectors⟩
  · by_cases hfit : VectorFits host.build.profile (c.Takes c.fd) 0 0 bs (some .tooLong)
    · rw [hfits hfit, loopOutcome] at herr
      split_ifs at herr
      rw [(Outcome.err.inj herr).2]
    · obtain ⟨q, hq⟩ := hpanics hfit
      rw [hq] at herr
      cases herr

/-- Exactly when `writev` is the write of the concatenation, and what that write is : the one of
a buffer that holds the bytes. -/
theorem writes_vector_iff (host : Host)
    (hk : ∀ fs f data, host.kernel.writeFault fs f data = none) :
    (∀ c, WritesVector host c ↔ VectorSound host.build.profile c) ∧
      ∀ (c : SyscallCtx) (data : List U8), c.mem.read (c.cpu.arg 1) (c.cpu.arg 2).toNat = .ok data →
        Unix.sysWrite host c = Unix.writeBytes host c.fd data c := by
  refine ⟨fun c => ?_, fun c data hread => Unix.sysWrite_of_read hread⟩
  unfold VectorSound
  split
  · next bs hbs => exact writesVector_iff_of_read hk hbs
  · next bs hbs => exact writesVector_iff_of_fault hk hbs
  · next bs hbs => exact iff_of_true (writesVector_of_tooLong hk hbs) trivial

end Sound

/-- The heap of the crate's tests with two vectors at its start, of two bytes and of one. The
address of the second buffer is the parameter. -/
def vectorMemory (second : U64) : GuestMemory :=
  (GuestMemory.Call.run .release GuestMemory.testMemory (.write 0x100000000
    (toLeBytes64 0x100000040 ++ toLeBytes64 2 ++ toLeBytes64 second ++ toLeBytes64 1 ++
      List.replicate 32 0 ++ [7, 8, 9]))).getD GuestMemory.testMemory

theorem reachable_vectorMemory (second : U64) :
    GuestMemory.Reachable .release (vectorMemory second) := by
  have htest := GuestMemory.reachable_testMemory .release
  unfold vectorMemory
  rcases hrun : GuestMemory.Call.run .release GuestMemory.testMemory _ with _ | m
  · exact htest
  · exact htest.call _ hrun

/-- A `writev` of these vectors to an empty file at descriptor 3. -/
def vectorCall (second : U64) : SyscallCtx where
  cpu := (testCall 121 3 0x100000000 2 "").cpu
  mem := vectorMemory second
  fds := { FdTable.default with
    slots := FdTable.default.slots.insert 3
      (.file ⟨UnixPath.components "/c/x".toList, false, true, false, 0⟩) }
  exit := none
  fs := { node := fun path =>
    if path = UnixPath.components "/c/x".toList then some (.file []) else none }

/-- The second buffer is not mapped : the call fails, with the first buffer in the file. -/
theorem writev_writes_before_fault :
    GuestMemory.Reachable .release (vectorCall 0).mem ∧
      ∃ c', Unix.sysWritev ⟨⟨.release, .host⟩, .willing, none⟩ (vectorCall 0) =
          .err Errno.EFAULT c' ∧
        (vectorCall 0).fs.content (UnixPath.components "/c/x".toList) = [] ∧
        c'.fs.content (UnixPath.components "/c/x".toList) = [7, 8] ∧
        ¬WritesVector ⟨⟨.release, .host⟩, .willing, none⟩ (vectorCall 0) := by
  have hrun : Unix.sysWritev ⟨⟨.release, .host⟩, .willing, none⟩ (vectorCall 0) =
      .err Errno.EFAULT _ := rfl
  refine ⟨reachable_vectorMemory 0, _, hrun, by decide, by decide, fun h => ?_⟩
  have hsame := congrArg (fun fs : HostFs => fs.content (UnixPath.components "/c/x".toList))
    (h.failed _ _ hrun)
  revert hsame
  decide

/-- Both buffers can be read. -/
theorem writes_vector_two_buffers :
    WritesVector ⟨⟨.release, .host⟩, .willing, none⟩ (vectorCall 0x100000042) := by
  refine ((writes_vector_iff _ fun _ _ _ => rfl).1 _).2 ?_
  have hbs : (vectorCall 0x100000042).mem.buffers ((vectorCall 0x100000042).cpu.arg 1)
      ((vectorCall 0x100000042).cpu.arg 2).toNat 0 = ([[7, 8], [9]], none) :=
    rfl
  unfold VectorSound
  rw [hbs]
  simp [VectorFits]

end IosEmu
