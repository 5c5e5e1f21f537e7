import IosEmu.SyscallPanics
import IosEmu.SystemImage

/-!
# What a read takes from a file

`sysRead` reads from the host's file into a buffer of its own, and only then writes the guest's
buffer. If the guest's buffer does not take the bytes the call fails with `EFAULT`, and the
offset of the file is past them. `sysWrite` looks at the guest's buffer first.

`handed` is what the host hands over, as a function of the context. A read keeps what it should
exactly if the buffer takes the bytes that are handed over (`reads_exactly_iff`). In a run of
reads for which it does, the bytes that were delivered and the bytes that are left make up
the file (`remaining_of_run`).
-/

open SysLib

namespace IosEmu

open SyscallCtx Prog

/-! ## What the host hands over -/

namespace File

/-- The bytes that the host hands over to a read of `count`, none if it fails. -/
def handed (kernel : Kernel) (fs : HostFs) (f : File) (count : ℕ) : List U8 :=
  if f.readable && (kernel.refuses fs (.read f count)).isNone then
    let there := ((fs.content f.path).drop f.pos).take count
    there.take (kernel.shortRead fs f there.length)
  else []

theorem handed_prefix (kernel : Kernel) (fs : HostFs) (f : File) (count : ℕ) :
    f.handed kernel fs count <+: (fs.content f.path).drop f.pos := by
  unfold handed
  split_ifs
  · exact (List.take_prefix _ _).trans (List.take_prefix _ _)
  · exact List.nil_prefix

theorem length_handed_le (kernel : Kernel) (fs : HostFs) (f : File) (count : ℕ) :
    (f.handed kernel fs count).length ≤ count := by
  unfold handed
  split_ifs
  · exact (List.length_take_le' _ _).trans (List.length_take_le _ _)
  · exact Nat.zero_le _

/-- A read fails, and nothing is handed over, or it moves the offset past what is. -/
theorem read_apply (kernel : Kernel) (fs : HostFs) (f : File) (count : ℕ) :
    (∃ e, f.read kernel count fs = .err e fs ∧ f.handed kernel fs count = []) ∨
      f.read kernel count fs = .ok (f.handed kernel fs count,
        { f with pos := f.pos + (f.handed kernel fs count).length }) fs := by
  by_cases hreadable : f.readable = true
  · rcases hask : kernel.refuses fs (.read f count) with _ | e
    · rcases hnode : fs.node f.path with _ | _ | content
      · exact Or.inl ⟨.other, by simp [File.read, handed, HostFs.ask, HostFs.content, bind_apply,
          hreadable, hask, hnode]⟩
      · exact Or.inl ⟨.other, by simp [File.read, handed, HostFs.ask, HostFs.content, bind_apply,
          hreadable, hask, hnode]⟩
      · exact Or.inr (by simp [File.read, handed, HostFs.ask, HostFs.content, bind_apply,
          hreadable, hask, hnode])
    · exact Or.inl ⟨e, by simp [File.read, handed, HostFs.ask, bind_apply, hreadable, hask]⟩
  · exact Or.inl ⟨.other, by simp [File.read, handed, hreadable]⟩

end File

/-- The table with the file at `fd` moved on by `n` bytes. -/
def FdTable.advance (t : FdTable) (fd : BitVec 32) (n : ℕ) : FdTable :=
  match t.slots.get? fd with
  | some (.file f) => { t with slots := t.slots.insert fd (.file { f with pos := f.pos + n }) }
  | _ => t

@[simp] theorem FdTable.advance_zero (t : FdTable) (fd : BitVec 32) : t.advance fd 0 = t := by
  unfold advance
  split
  case h_1 f hget => rw [Nat.add_zero, SortedMap.insert_of_get? hget]
  case h_2 => rfl

/-- The bytes of the file at a descriptor from its offset on. -/
def Files.remaining (s : Files) (fd : BitVec 32) : List U8 :=
  match s.fds.slots.get? fd with
  | some (.file f) => (s.fs.content f.path).drop f.pos
  | _ => []

/-- Moving a file on drops bytes of it, and of no other descriptor's. -/
theorem Files.remaining_advance (s : Files) (fd fd' : BitVec 32) (n : ℕ) :
    Files.remaining ⟨s.fds.advance fd n, s.fs⟩ fd' =
      if fd' = fd then (s.remaining fd').drop n else s.remaining fd' := by
  unfold remaining FdTable.advance
  rcases hget : s.fds.slots.get? fd with _ | _ | _ | _ | f | _
  case some.file =>
    by_cases hfd : fd' = fd
    · simp [hfd, hget]
    · simp [hfd, SortedMap.get?_insert_of_ne]
  all_goals
    by_cases hfd : fd' = fd
    · simp [hfd, hget]
    · simp [hfd]

namespace SyscallCtx

/-- The descriptor of a read or a write. -/
def fd (c : SyscallCtx) : BitVec 32 :=
  (c.cpu.arg 0).setWidth 32

/-- The bytes that the host hands over to the read in `c`. -/
def handed (host : Host) (c : SyscallCtx) : List U8 :=
  match c.fds.slots.get? c.fd with
  | some (.file f) => f.handed host.kernel c.fs (c.cpu.arg 2).toNat
  | _ => []

theorem handed_prefix (host : Host) (c : SyscallCtx) :
    c.handed host <+: c.files.remaining c.fd := by
  unfold handed Files.remaining
  change _ <+: match c.fds.slots.get? c.fd with | some (.file f) => _ | _ => []
  split
  · exact File.handed_prefix _ _ _ _
  · exact List.nil_prefix

theorem length_handed_le (host : Host) (c : SyscallCtx) :
    (c.handed host).length ≤ (c.cpu.arg 2).toNat := by
  unfold handed
  split
  · exact File.length_handed_le _ _ _ _
  · exact Nat.zero_le _

end SyscallCtx

/-! ## One read -/

namespace Unix

/-- The first half of a read : it fails and changes nothing, or the bytes are handed over and
the file is moved on. -/
theorem readBytes_cases (host : Host) (c : SyscallCtx) :
    (∃ e, readBytes host c.fd (c.cpu.arg 2).toNat c = .err e c ∧ c.handed host = []) ∨
      readBytes host c.fd (c.cpu.arg 2).toNat c = .ok (c.handed host)
        { c with fds := c.fds.advance c.fd (c.handed host).length } := by
  rcases hget : c.fds.slots.get? c.fd with _ | _ | _ | _ | f | _
  case some.file =>
    have hhanded : c.handed host = f.handed host.kernel c.fs (c.cpu.arg 2).toNat := by
      simp [SyscallCtx.handed, hget]
    rw [hhanded]
    rcases f.read_apply host.kernel c.fs (c.cpu.arg 2).toNat with ⟨e, hread, hnone⟩ | hread
    · refine Or.inl ⟨Errno.fromIo e, ?_, hnone⟩
      rw [readBytes, get_bind]
      simp [hget, bind_apply, onFs, mapErr, zoom, hread]
    · refine Or.inr ?_
      rw [readBytes, get_bind]
      simp [hget, bind_apply, onFs, mapErr, zoom, hread, setFile, FdTable.advance]
  case some.stdin =>
    exact Or.inr (by simp [readBytes, get_bind, SyscallCtx.handed, hget])
  case none =>
    exact Or.inl ⟨Errno.EBADF, by simp [readBytes, get_bind, SyscallCtx.handed, hget]⟩
  all_goals
    exact Or.inl ⟨Errno.EINVAL, by simp [readBytes, get_bind, SyscallCtx.handed, hget]⟩

/-- A read fails before anything is handed over; or the guest's buffer takes what is; or it
does not, and the call fails with the file moved on. -/
theorem sysRead_cases (host : Host) {c : SyscallCtx} (h : c.mem.Inv)
    (hcount : (c.cpu.arg 2).toNat ≤ isizeMax) :
    (∃ e, sysRead host c = .err e c ∧ c.handed host = []) ∨
    (c.mem.flat.Grants (c.cpu.arg 1) (c.handed host).length .write ∧
      ∃ m', sysRead host c = .ok (BitVec.ofNat 64 (c.handed host).length)
          { c with fds := c.fds.advance c.fd (c.handed host).length, mem := m' } ∧
        m'.flat = c.mem.flat.write (c.cpu.arg 1) (c.handed host)) ∨
    (¬c.mem.flat.Grants (c.cpu.arg 1) (c.handed host).length .write ∧
      sysRead host c = .err Errno.EFAULT
        { c with fds := c.fds.advance c.fd (c.handed host).length }) := by
  have hrun : sysRead host c = (readBytes host c.fd (c.cpu.arg 2).toNat >>= fun bytes =>
      onMem Errno.EFAULT (GuestMemory.write (c.cpu.arg 1) bytes) >>= fun _ =>
        pure (BitVec.ofNat 64 bytes.length)) c := by
    rw [sysRead, get_bind, allocBytes, if_pos hcount]
    rfl
  rw [hrun, bind_apply]
  rcases readBytes_cases host c with ⟨e, hread, hnone⟩ | hread
  · exact Or.inl ⟨e, by rw [hread], hnone⟩
  · refine Or.inr ?_
    rw [hread, ← h.write_isOk_iff]
    rcases hwrite : GuestMemory.write (c.cpu.arg 1) (c.handed host) c.mem with ⟨u, m'⟩ | ⟨e, m'⟩ | q
    · refine Or.inl ⟨⟨m', rfl⟩, m', ?_, (h.flat_of_write hwrite).1⟩
      simp [bind_apply, onMem, mapErr, zoom, hwrite]
    · refine Or.inr ⟨by rintro ⟨m'', ⟨⟩⟩, ?_⟩
      obtain rfl := GuestMemory.write_failsClean _ _ _ _ _ hwrite
      simp [bind_apply, onMem, mapErr, zoom, hwrite]
    · exact absurd hwrite (GuestMemory.write_ne_panic _ _ _ _)

end Unix

/-! ## What a read should do -/

/-- The read in `c` gave the guest the next `n` bytes of the file, and moved the file on by as
many. -/
structure ReadsNext (c c' : SyscallCtx) (n : ℕ) : Prop where
  le : n ≤ (c.files.remaining c.fd).length
  stored : c'.mem.flat = c.mem.flat.write (c.cpu.arg 1) ((c.files.remaining c.fd).take n)
  moved : c'.fds = c.fds.advance c.fd n
  tree : c'.fs = c.fs

/-- A read that fails leaves every descriptor where it is, and one that returns `n` gives the
guest the next `n` bytes. -/
structure ReadsExactly (host : Host) (c : SyscallCtx) : Prop where
  failed : ∀ e c', Unix.sysRead host c = .err e c' → c'.files = c.files
  returned : ∀ v c', Unix.sysRead host c = .ok v c' → ReadsNext c c' v.toNat

/-- If the host hands bytes over, the guest's buffer can be written as far as they go. -/
def BufferTakes (host : Host) (c : SyscallCtx) : Prop :=
  (c.cpu.arg 2).toNat ≤ isizeMax → c.handed host ≠ [] →
    c.mem.flat.Grants (c.cpu.arg 1) (c.handed host).length .write

/-- Bytes that are handed over are behind the offset. -/
theorem advance_ne {host : Host} {c : SyscallCtx} (h : c.handed host ≠ []) :
    c.fds.advance c.fd (c.handed host).length ≠ c.fds := by
  intro heq
  have hpos := List.length_pos_iff.2 h
  have hle := (c.handed_prefix host).length_le
  have hdrop := congrArg List.length
    (Files.remaining_advance c.files c.fd c.fd (c.handed host).length)
  rw [if_pos rfl, List.length_drop] at hdrop
  change (Files.remaining ⟨c.fds.advance _ _, c.fs⟩ c.fd).length = _ at hdrop
  rw [heq] at hdrop
  change (c.files.remaining c.fd).length = _ at hdrop
  omega

/-- A read keeps what it should exactly if the buffer takes what the host hands over. -/
theorem reads_exactly_iff (host : Host) {c : SyscallCtx} (h : c.mem.Inv) :
    ReadsExactly host c ↔ BufferTakes host c := by
  by_cases hcount : (c.cpu.arg 2).toNat ≤ isizeMax
  · have hpre := c.handed_prefix host
    have hlen := c.length_handed_le host
    have hcap : isizeMax < 2 ^ 64 := by decide
    rcases Unix.sysRead_cases host h hcount with ⟨e, hrun, hnone⟩ | ⟨hgrants, m', hrun, hflat⟩ |
      ⟨hrefused, hrun⟩
    · refine iff_of_true ⟨fun e' c' h' => ?_, fun v c' h' => ?_⟩ fun _ hne => absurd hnone hne
      · rw [hrun] at h'
        obtain ⟨-, rfl⟩ := Outcome.err.inj h'
        rfl
      · rw [hrun] at h'
        cases h'
    · refine iff_of_true ⟨fun e' c' h' => ?_, fun v c' h' => ?_⟩ fun _ _ => hgrants
      · rw [hrun] at h'
        cases h'
      · rw [hrun] at h'
        obtain ⟨rfl, rfl⟩ := Outcome.ok.inj h'
        rw [BitVec.toNat_ofNat, Nat.mod_eq_of_lt (by omega)]
        exact ⟨hpre.length_le, by rw [← List.prefix_iff_eq_take.1 hpre, hflat], rfl, rfl⟩
    · by_cases hnone : c.handed host = []
      · refine iff_of_true ⟨fun e' c' h' => ?_, fun v c' h' => ?_⟩ fun _ hne => absurd hnone hne
        · rw [hrun] at h'
          obtain ⟨-, rfl⟩ := Outcome.err.inj h'
          simp [SyscallCtx.files, hnone]
        · rw [hrun] at h'
          cases h'
      · refine iff_of_false (fun hexact => ?_) fun htakes => hrefused (htakes hcount hnone)
        exact advance_ne hnone (congrArg Files.fds (hexact.failed _ _ hrun))
  · have hpanic : ¬(Unix.sysRead host).Safe c := fun hsafe => hcount (Unix.safe_sysRead_iff.1 hsafe)
    refine iff_of_true ⟨fun e c' h' => ?_, fun v c' h' => ?_⟩ fun hle => absurd hle hcount
    · exact absurd (safe_of_err h') hpanic
    · exact absurd (safe_of_ok h') hpanic

/-! ## Runs of reads -/

/-- A run of reads, each by a call of its own, with the bytes that those that returned left in
the guest's buffer. Every buffer takes what the host hands over. -/
inductive ReadRun (p : Profile) : Files → List (BitVec 32 × List U8) → Files → Prop
  | nil {s : Files} : ReadRun p s [] s
  | returned {host : Host} {s : Files} {trace : List (BitVec 32 × List U8)} {c c' : SyscallCtx}
      {v : U64} {bytes : List U8} :
      ReadRun p s trace c.files → GuestMemory.Reachable p c.mem → BufferTakes host c →
      Unix.sysRead host c = .ok v c' → bytes.length = v.toNat →
      c'.mem.flat.Reads (c.cpu.arg 1) bytes →
      ReadRun p s (trace ++ [(c.fd, bytes)]) c'.files
  | failed {host : Host} {s : Files} {trace : List (BitVec 32 × List U8)} {c c' : SyscallCtx}
      {e : U32} :
      ReadRun p s trace c.files → GuestMemory.Reachable p c.mem → BufferTakes host c →
      Unix.sysRead host c = .err e c' → ReadRun p s trace c'.files

/-- A read that returns delivers the bytes that are next. -/
theorem ReadRun.snoc {p : Profile} {host : Host} {s : Files} {trace : List (BitVec 32 × List U8)}
    {c c' : SyscallCtx} {v : U64} (h : ReadRun p s trace c.files)
    (hreach : GuestMemory.Reachable p c.mem) (htakes : BufferTakes host c)
    (hrun : Unix.sysRead host c = .ok v c') :
    ReadRun p s (trace ++ [(c.fd, (c.files.remaining c.fd).take v.toNat)]) c'.files := by
  obtain ⟨hle, hstored, -, -⟩ := ((reads_exactly_iff host hreach.inv).2 htakes).returned _ _ hrun
  refine .returned h hreach htakes hrun (List.length_take_of_le hle) ?_
  rw [hstored]
  exact FlatMemory.reads_write_self _ _ _

/-- The bytes that a run delivered from a descriptor. -/
def delivered (trace : List (BitVec 32 × List U8)) (fd : BitVec 32) : List U8 :=
  (trace.filter fun e => e.1 = fd).flatMap Prod.snd

theorem delivered_snoc (trace : List (BitVec 32 × List U8)) (fd fd' : BitVec 32) (l : List U8) :
    delivered (trace ++ [(fd', l)]) fd = delivered trace fd ++ if fd' = fd then l else [] := by
  unfold delivered
  rw [List.filter_append, List.flatMap_append]
  by_cases hfd : fd' = fd <;> simp [hfd]

/-- What a run delivered, followed by what is left, is what there was. -/
theorem remaining_of_run {p : Profile} {s s' : Files} {trace : List (BitVec 32 × List U8)}
    (h : ReadRun p s trace s') (fd : BitVec 32) :
    s.remaining fd = delivered trace fd ++ s'.remaining fd := by
  induction h with
  | nil => rfl
  | @returned host s trace c c' v bytes _ hreach htakes hrun hlen hreads ih =>
    obtain ⟨hle, hstored, hmoved, htree⟩ := ((reads_exactly_iff host hreach.inv).2 htakes).returned
      _ _ hrun
    have htake : ((c.files.remaining c.fd).take v.toNat).length = bytes.length := by
      rw [List.length_take_of_le hle, hlen]
    rw [hstored] at hreads
    have hbytes : bytes = (c.files.remaining c.fd).take v.toNat :=
      hreads.unique (FlatMemory.reads_write_self _ _ _) htake.symm
    have hrest : c'.files.remaining fd = if fd = c.fd then (c.files.remaining fd).drop v.toNat
        else c.files.remaining fd := by
      rw [← Files.remaining_advance, SyscallCtx.files, hmoved, htree]
      rfl
    rw [ih, delivered_snoc, List.append_assoc, hrest]
    by_cases hfd : c.fd = fd
    · rw [if_pos hfd, if_pos hfd.symm, hbytes, hfd, List.take_append_drop]
    · rw [if_neg hfd, if_neg (Ne.symm hfd), List.nil_append]
  | failed _ hreach htakes hrun ih =>
    rw [((reads_exactly_iff _ hreach.inv).2 htakes).failed _ _ hrun]
    exact ih

/-- A read keeps what it should exactly if the guest's buffer takes what the host hands over :
one that fails leaves every descriptor where it is, one that returns `n` stores the next `n`
bytes and moves on by as many. In a run of such reads, failed or not, no byte is skipped. -/
theorem read_skips_nothing_iff (p : Profile) :
    (∀ host c, GuestMemory.Reachable p c.mem → (ReadsExactly host c ↔ BufferTakes host c)) ∧
      ∀ s trace s', ReadRun p s trace s' →
        ∀ fd, s.remaining fd = delivered trace fd ++ s'.remaining fd :=
  ⟨fun host _ h => reads_exactly_iff host h.inv, fun _ _ _ h fd => remaining_of_run h fd⟩

/-- The files of a process with one file of three bytes open at descriptor 3. -/
def readFiles : Files where
  fds := { FdTable.default with
    slots := FdTable.default.slots.insert 3
      (.file ⟨UnixPath.components "/c/x".toList, true, false, false, 0⟩) }
  fs := { node := fun path =>
    if path = UnixPath.components "/c/x".toList then some (.file [1, 2, 3]) else none }

/-- A read into an address that is not mapped fails, with the bytes gone from the descriptor. -/
theorem read_loses_bytes :
    ∃ c', Unix.sysRead ⟨⟨.release, .host⟩, .willing, none⟩
        ⟨(testCall 3 3 0 3 "").cpu, GuestMemory.testMemory, readFiles.fds, none, readFiles.fs⟩ =
          .err Errno.EFAULT c' ∧
      GuestMemory.Reachable .release GuestMemory.testMemory ∧
      readFiles.remaining 3 = [1, 2, 3] ∧ c'.files.remaining 3 = [] ∧
      ¬ReadsExactly ⟨⟨.release, .host⟩, .willing, none⟩
        ⟨(testCall 3 3 0 3 "").cpu, GuestMemory.testMemory, readFiles.fds, none, readFiles.fs⟩ := by
  have hrun : Unix.sysRead ⟨⟨.release, .host⟩, .willing, none⟩
      ⟨(testCall 3 3 0 3 "").cpu, GuestMemory.testMemory, readFiles.fds, none, readFiles.fs⟩ =
        .err Errno.EFAULT _ := rfl
  refine ⟨_, hrun, GuestMemory.reachable_testMemory .release, by decide, by decide, fun h => ?_⟩
  have hsame := congrArg (fun s : Files => s.remaining 3) (h.failed _ _ hrun)
  revert hsame
  decide

/-- The same read into the heap. -/
theorem read_skips_nothing_heap :
    ReadsExactly ⟨⟨.release, .host⟩, .willing, none⟩
      ⟨(testCall 3 3 0x100000000 3 "").cpu, GuestMemory.testMemory, readFiles.fds, none,
        readFiles.fs⟩ := by
  have hreach := GuestMemory.reachable_testMemory .release
  refine ((read_skips_nothing_iff .release).1 _ _ hreach).2 fun _ _ => ?_
  exact hreach.inv.write_isOk_iff.1 ⟨_, rfl⟩

end IosEmu
