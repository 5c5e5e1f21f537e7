import IosEmu.FileReads

/-!
# What a write does to a file

`writeBytes` as a function of the context, for a host whose writes succeed. A descriptor takes
bytes (`Takes`) if it is an output stream, or a file that is open for writing; a file that is
not still takes the empty write. The context after is `written`, and a refusal changes nothing
(`writeBytes_apply`).

Two writes one after the other are the write of both (`written_append`), at an offset as well
as at the end of the file.
-/

open SysLib

namespace IosEmu

open SyscallCtx Prog

namespace File

/-- Storing bytes after bytes is storing both. -/
theorem splice_splice (content : List U8) (pos : ℕ) (d₁ d₂ : List U8) :
    splice (splice content pos d₁) (pos + d₁.length) d₂ = splice content pos (d₁ ++ d₂) := by
  have hfront : ((content ++ List.replicate (pos - content.length) 0).take pos).length = pos := by
    rw [List.length_take, List.length_append, List.length_replicate]
    omega
  have hlong : pos + d₁.length - (splice content pos d₁).length = 0 := by
    simp only [splice, List.length_append, hfront]
    omega
  rw [splice, hlong, List.replicate_zero, List.append_nil]
  unfold splice
  set front := (content ++ List.replicate (pos - content.length) 0).take pos
  rw [List.take_left' (by rw [List.length_append, hfront]), List.drop_append,
    List.drop_eq_nil_of_le (by rw [List.length_append, hfront]; omega), List.nil_append,
    List.length_append, hfront, List.drop_drop, List.length_append, List.append_assoc,
    List.append_assoc, List.append_assoc, List.append_assoc,
    show pos + d₁.length + (pos + d₁.length + d₂.length - (pos + d₁.length)) =
      pos + (d₁.length + d₂.length) by omega]

theorem length_splice_end (content data : List U8) :
    (splice content content.length data).length = content.length + data.length := by
  simp [splice]

end File

/-- What can be read is in a region, so it is not longer than a region of the host can be. -/
theorem GuestMemory.le_isizeMax_of_read {m : GuestMemory} {a : U64} {n : ℕ} {l : List U8}
    (h : m.read a n = .ok l) : n ≤ isizeMax := by
  obtain ⟨key, r, -, hle, hend, -, -⟩ := read_eq_ok.1 h
  have := BitVec.le_def.1 hle
  have := r.data.size_le
  omega

namespace HostFs

@[simp] theorem content_set (fs : HostFs) (path : List Component) (content : List U8) :
    (fs.set path (.file content)).content path = content := by
  simp [HostFs.content, HostFs.set]

theorem set_set (fs : HostFs) (path : List Component) (n₁ n₂ : Node) :
    (fs.set path n₁).set path n₂ = fs.set path n₂ := by
  simp only [HostFs.set, HostFs.mk.injEq]
  ext q : 1
  split_ifs <;> rfl

/-- Setting the content that a file has changes nothing. -/
theorem set_content {fs : HostFs} {path : List Component} (h : fs.content path ≠ []) :
    fs.set path (.file (fs.content path)) = fs := by
  unfold HostFs.content at h
  rcases hnode : fs.node path with _ | _ | content <;> simp only [hnode] at h
  · exact absurd rfl h
  · exact absurd rfl h
  · have hcontent : fs.content path = content := by simp [HostFs.content, hnode]
    rw [hcontent]
    rcases fs with ⟨node⟩
    simp only [HostFs.set, HostFs.mk.injEq]
    ext q : 1
    split_ifs with hq
    · rw [hq]
      exact hnode.symm
    · rfl

end HostFs

namespace SyscallCtx

/-- The descriptor takes the bytes. -/
def Takes (c : SyscallCtx) (fd : BitVec 32) (data : List U8) : Bool :=
  match c.fds.slots.get? fd with
  | some .stdout | some .stderr => true
  | some (.file f) => f.writable || data.isEmpty
  | _ => false

/-- What a descriptor that does not take the bytes answers. -/
def refusal (c : SyscallCtx) (fd : BitVec 32) : U32 :=
  match c.fds.slots.get? fd with
  | some (.file _) => Errno.EIO
  | some _ => Errno.EINVAL
  | none => Errno.EBADF

/-- The context after the bytes were written. -/
def written (c : SyscallCtx) (fd : BitVec 32) (data : List U8) : SyscallCtx :=
  match c.fds.slots.get? fd with
  | some (.file f) =>
    if data = [] then c
    else
      { c with
        fs := c.fs.set f.path
          (.file (File.splice (c.fs.content f.path) (f.writePos c.fs) data))
        fds := { c.fds with slots :=
          c.fds.slots.insert fd (.file { f with pos := f.writePos c.fs + data.length }) } }
  | _ => c

variable {c : SyscallCtx} {fd : BitVec 32}

@[simp] theorem written_nil : c.written fd [] = c := by
  unfold written
  split <;> simp

theorem written_of_file {f : File} {data : List U8} (h : c.fds.slots.get? fd = some (.file f))
    (hdata : data ≠ []) : c.written fd data =
      { c with
        fs := c.fs.set f.path
          (.file (File.splice (c.fs.content f.path) (f.writePos c.fs) data))
        fds := { c.fds with slots :=
          c.fds.slots.insert fd (.file { f with pos := f.writePos c.fs + data.length }) } } := by
  simp [written, h, hdata]

theorem written_of_not_file {data : List U8} (h : ∀ f, c.fds.slots.get? fd ≠ some (.file f)) :
    c.written fd data = c := by
  unfold written
  split
  · next f hget => exact absurd hget (h f)
  · rfl

@[simp] theorem written_mem (data : List U8) : (c.written fd data).mem = c.mem := by
  unfold written
  split
  · split_ifs <;> rfl
  · rfl

/-- The object behind a descriptor stays what it is, with its rights. -/
theorem takes_written (d data : List U8) : (c.written fd d).Takes fd data = c.Takes fd data := by
  by_cases hfile : ∃ f, c.fds.slots.get? fd = some (.file f)
  · obtain ⟨f, hget⟩ := hfile
    by_cases hd : d = []
    · rw [hd, written_nil]
    · simp [written_of_file hget hd, Takes, hget]
  · rw [written_of_not_file fun f hget => hfile ⟨f, hget⟩]

theorem refusal_written (d : List U8) : (c.written fd d).refusal fd = c.refusal fd := by
  by_cases hfile : ∃ f, c.fds.slots.get? fd = some (.file f)
  · obtain ⟨f, hget⟩ := hfile
    by_cases hd : d = []
    · rw [hd, written_nil]
    · simp [written_of_file hget hd, refusal, hget]
  · rw [written_of_not_file fun f hget => hfile ⟨f, hget⟩]

/-- Two writes one after the other are the write of both. -/
theorem written_append (d₁ d₂ : List U8) :
    (c.written fd d₁).written fd d₂ = c.written fd (d₁ ++ d₂) := by
  by_cases hfile : ∃ f, c.fds.slots.get? fd = some (.file f)
  · obtain ⟨f, hget⟩ := hfile
    by_cases h₁ : d₁ = []
    · rw [h₁, written_nil, List.nil_append]
    by_cases h₂ : d₂ = []
    · rw [h₂, written_nil, List.append_nil]
    have happ : d₁ ++ d₂ ≠ [] := fun h => h₁ (List.append_eq_nil_iff.1 h).1
    -- The second write starts where the first ended, at an offset or at the end of the file.
    have hpos : File.writePos (c.fs.set f.path
        (.file (File.splice (c.fs.content f.path) (f.writePos c.fs) d₁)))
        { f with pos := f.writePos c.fs + d₁.length } = f.writePos c.fs + d₁.length := by
      by_cases happend : f.append = true
      · simp [File.writePos, happend, File.length_splice_end]
      · simp [File.writePos, happend]
    rw [written_of_file hget h₁, written_of_file (f := { f with
      pos := f.writePos c.fs + d₁.length }) (SortedMap.get?_insert_self _ _ _) h₂,
      written_of_file hget happ]
    simp only [hpos, HostFs.content_set, HostFs.set_set, SortedMap.insert_insert,
      File.splice_splice, List.length_append, Nat.add_assoc]
  · have hno : ∀ f, c.fds.slots.get? fd ≠ some (.file f) := fun f hget => hfile ⟨f, hget⟩
    rw [written_of_not_file hno, written_of_not_file hno, written_of_not_file hno]

end SyscallCtx

namespace File

/-- A write of a file that is open for writing, to a host whose writes succeed. -/
theorem writeAll_of_writable {kernel : Kernel} {f : File} {data : List U8} {fs : HostFs}
    (hk : kernel.writeFault fs f data = none) (hw : f.writable = true) (hdata : data ≠ []) :
    f.writeAll kernel data fs =
      .ok ({ f with pos := f.writePos fs + data.length }, .ok ())
        (fs.set f.path (.file (splice (fs.content f.path) (f.writePos fs) data))) := by
  simp [writeAll, put, bind_apply, hk, hw, hdata]

end File

namespace Unix

/-- A write to a host whose writes succeed. -/
theorem writeBytes_apply {host : Host} (hk : ∀ fs f data, host.kernel.writeFault fs f data = none)
    (fd : BitVec 32) (data : List U8) (c : SyscallCtx) :
    writeBytes host fd data c =
      if c.Takes fd data then .ok (BitVec.ofNat 64 data.length) (c.written fd data)
      else .err (c.refusal fd) c := by
  rcases hget : c.fds.slots.get? fd with _ | _ | _ | _ | f | _
  case some.file =>
    have hput : { c with fds := { c.fds with slots := c.fds.slots.insert fd (.file f) } } = c := by
      rw [SortedMap.insert_of_get? hget]
    by_cases hdata : data = []
    · simp [writeBytes, hget, hdata, Takes, bind_apply, onFs, mapErr, zoom,
        File.writeAll, setFile, hput, Except.mapError]
    by_cases hw : f.writable = true
    · rw [written_of_file hget hdata]
      simp [writeBytes, hget, Takes, hw, bind_apply, onFs, mapErr, zoom,
        File.writeAll_of_writable (hk _ _ _) hw hdata, setFile, Except.mapError]
    · simp [writeBytes, hget, hdata, Takes, hw, bind_apply, onFs, mapErr, zoom,
        File.writeAll, setFile, hput, Except.mapError, refusal, Errno.fromIo]
  all_goals simp [writeBytes, get_bind, hget, Takes, refusal, written]

/-- A write of bytes that can be read from the guest's buffer. -/
theorem sysWrite_of_read {host : Host} {c : SyscallCtx} {data : List U8}
    (hread : c.mem.read (c.cpu.arg 1) (c.cpu.arg 2).toNat = .ok data) :
    sysWrite host c = writeBytes host c.fd data c := by
  rw [sysWrite, get_bind, allocBytes, if_pos (GuestMemory.le_isizeMax_of_read hread)]
  simp only [readMem, bind_apply, ofChecked_ok, get_apply, hread, Except.mapError, ofResult_ok]
  rfl

end Unix

end IosEmu
