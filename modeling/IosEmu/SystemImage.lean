import IosEmu.FileStep

/-!
# The system image is not written

A run is a sequence of system calls, each with registers, memory, clock and kernel answers
of its own; the descriptors and the host's tree carry over. The sandbox marks the paths of
the system image read only, and `sysOpen` refuses them unless the access mode is
`O_RDONLY`. That check does not look at `O_APPEND`, which the host takes as a request to
write. `AppendsToImage` is a call that gets through that way.

In a run without such a call no file below the image's root is created, truncated or
written, and no descriptor for one is writable (`image_kept`).
-/

open SysLib Relation

namespace IosEmu

/-! ## Runs -/

/-- A system call of a run : what the guest and the host bring to it. -/
structure GuestCall where
  host : Host
  dispatcher : SyscallDispatcher
  cpu : CpuContext
  mem : GuestMemory
  exit : Option (BitVec 32)

namespace GuestCall

/-- The context in which the call is serviced. -/
def ctx (call : GuestCall) (s : Files) : SyscallCtx :=
  ⟨call.cpu, call.mem, s.fds, call.exit, s.fs⟩

/-- The files after the call, unless it goes down. -/
def run (vfs : Sandbox) (call : GuestCall) (s : Files) : Option Files :=
  (dispatch call.host vfs call.dispatcher (call.ctx s)).state?.map SyscallCtx.files

/-- The call opens a read-only path for appending, with a choice of flags that the host
does not refuse. -/
def AppendsToImage (vfs : Sandbox) (call : GuestCall) : Prop :=
  ∃ number iosPath path,
    decode call.host.build.profile (call.cpu.x 16) = .ok (.unix, number) ∧
    Unix.Call.ofNumber number = some .openFile ∧
    call.mem.readCstr (call.cpu.arg 0) 1024 = .ok iosPath ∧
    vfs.translate iosPath.toList = .ok (path, true) ∧
    call.cpu.arg 1 &&& Unix.O_ACCMODE = Unix.O_RDONLY ∧
    call.cpu.arg 1 &&& Unix.O_APPEND ≠ 0 ∧
    (call.cpu.arg 1 &&& Unix.O_TRUNC = 0 ∨
      (call.cpu.arg 1 &&& Unix.O_EXCL ≠ 0 ∧ call.cpu.arg 1 &&& Unix.O_CREAT ≠ 0))

end GuestCall

/-- The files after a run. -/
def runCalls (vfs : Sandbox) : List GuestCall → Files → Option Files
  | [], s => some s
  | call :: calls, s => (call.run vfs s).bind (runCalls vfs calls)

/-! ## What a step keeps -/

/-- No descriptor below `root` is writable, and the tree below it is that of `fs₀`. -/
structure Guarded (root : List Component) (fs₀ : HostFs) (s : Files) : Prop where
  fds : ∀ fd f, s.fds.slots.get? fd = some (.file f) → root <+: f.path → f.writable = false
  tree : ∀ path, root <+: path → s.fs.node path = fs₀.node path

/-- What is opened below `root` is not writable, not created and not truncated. -/
def OpensGuarded (root : List Component) (opens : UnixPath → OpenOptions → Prop) : Prop :=
  ∀ path o access creation, opens path o → root <+: path.components →
    o.accessMode = .ok access → o.creationMode = .ok creation →
      access.write = false ∧ creation.create = false ∧ creation.truncate = false

theorem slots_of_insert {p : Profile} {t fds : FdTable} {obj : FdObject} {fd : BitVec 32}
    (h : t.insert p obj = .ok (fd, fds)) : fds.slots = t.slots.insert fd obj := by
  obtain ⟨fd', -, h⟩ := except_bind_eq_ok.1 h
  obtain ⟨after, -, h⟩ := except_bind_eq_ok.1 h
  obtain ⟨rfl, rfl⟩ := Prod.mk.inj (Except.ok.inj h)
  rfl

theorem HostFs.node_set_of_ne {fs : HostFs} {path q : List Component} {node : Node}
    (h : q ≠ path) : (fs.set path node).node q = fs.node q :=
  if_neg h

namespace Guarded

variable {root : List Component} {fs₀ : HostFs} {s s' : Files}

/-- Putting a file at a descriptor. -/
theorem insert (h : Guarded root fs₀ s) {fd : BitVec 32} {f : File} {fds : FdTable}
    (hslots : fds.slots = s.fds.slots.insert fd (.file f))
    (hf : root <+: f.path → f.writable = false) : Guarded root fs₀ ⟨fds, s.fs⟩ := by
  refine ⟨fun fd' f' hget hroot => ?_, h.tree⟩
  dsimp only at hget
  rw [hslots, SortedMap.get?_insert] at hget
  split_ifs at hget
  · obtain rfl := FdObject.file.inj (Option.some.inj hget)
    exact hf hroot
  · exact h.fds fd' f' hget hroot

/-- Changing a node that is not below the root. -/
theorem set (h : Guarded root fs₀ s) {path : List Component} {node : Node}
    (hpath : ¬root <+: path) : Guarded root fs₀ ⟨s.fds, s.fs.set path node⟩ := by
  refine ⟨h.fds, fun q hq => ?_⟩
  have hne : q ≠ path := fun heq => hpath (heq ▸ hq)
  exact (HostFs.node_set_of_ne hne).trans (h.tree q hq)

theorem step {opens : UnixPath → OpenOptions → Prop} (hopens : OpensGuarded root opens)
    (h : Guarded root fs₀ s) (hstep : FileStep opens s s') : Guarded root fs₀ s' := by
  cases hstep with
  | move fd f pos hget => exact h.insert rfl (h.fds fd f hget)
  | write fd f pos content hget hwritable =>
    have hout : ¬root <+: f.path := fun hroot => by
      rw [h.fds fd f hget hroot] at hwritable
      cases hwritable
    exact (h.set hout).insert rfl (h.fds fd f hget)
  | close fd =>
    refine ⟨fun fd' f hget => ?_, h.tree⟩
    unfold FdTable.close at hget
    split_ifs at hget
    · exact h.fds fd' f hget
    · exact h.fds fd' f (SortedMap.get?_erase_eq_some_iff.1 hget).2
  | opened path o access creation p fd fds fs ho haccess hcreation hinsert htree =>
    have hsafe := fun hroot => hopens path o access creation ho hroot haccess hcreation
    have hslots := slots_of_insert hinsert
    rcases htree with rfl | ⟨hmade, rfl⟩
    · exact h.insert hslots fun hroot => (hsafe hroot).1
    · have hout : ¬root <+: path.components := fun hroot => by
        obtain ⟨-, hcreate, htruncate⟩ := hsafe hroot
        simp [hcreate, htruncate] at hmade
      exact (h.set hout).insert hslots fun hroot => (hsafe hroot).1

theorem steps {opens : UnixPath → OpenOptions → Prop} (hopens : OpensGuarded root opens)
    (h : Guarded root fs₀ s) (hsteps : ReflTransGen (FileStep opens) s s') :
    Guarded root fs₀ s' := by
  induction hsteps with
  | refl => exact h
  | tail _ hstep ih => exact ih.step hopens hstep

end Guarded

/-! ## What a call may open -/

/-- Without `O_APPEND`, or with flags the host refuses, a file opened for reading is
neither writable nor created nor truncated. -/
theorem readOnly_openOptions {flags : U64} {access : AccessMode} {creation : CreationMode}
    (hread : flags &&& Unix.O_ACCMODE = Unix.O_RDONLY)
    (happend : flags &&& Unix.O_APPEND ≠ 0 →
      ¬(flags &&& Unix.O_TRUNC = 0 ∨
        (flags &&& Unix.O_EXCL ≠ 0 ∧ flags &&& Unix.O_CREAT ≠ 0)))
    (haccess : (Unix.openOptions flags).accessMode = .ok access)
    (hcreation : (Unix.openOptions flags).creationMode = .ok creation) :
    access.write = false ∧ creation.create = false ∧ creation.truncate = false := by
  have hr : (Unix.openOptions flags).read = true := by
    simp [Unix.openOptions, hread, Unix.O_RDONLY, Unix.O_WRONLY]
  have hw : (Unix.openOptions flags).write = false := by simp [Unix.openOptions, hread]
  have ha : (Unix.openOptions flags).append = false := by
    by_contra hne
    have happ : flags &&& Unix.O_APPEND ≠ 0 := by simpa [Unix.openOptions] using hne
    have hrefused := happend happ
    rw [not_or] at hrefused
    have htrunc : (Unix.openOptions flags).truncate = true := by
      simpa [Unix.openOptions] using hrefused.1
    have hnew : (Unix.openOptions flags).createNew = false := by
      simpa [Unix.openOptions] using hrefused.2
    rw [Bool.not_eq_false] at hne
    simp [OpenOptions.creationMode, hw, hne, htrunc, hnew] at hcreation
  refine ⟨?_, ?_⟩
  · rw [OpenOptions.accessMode, hr, hw, ha] at haccess
    obtain rfl := Except.ok.inj haccess
    rfl
  · rw [OpenOptions.creationMode, hw, ha] at hcreation
    split_ifs at hcreation with hbad htrunc hnew
    · simp [hnew] at hbad
    · obtain rfl := Except.ok.inj hcreation
      rw [Bool.not_eq_true, Bool.and_eq_false_imp] at hbad
      have hnone := hbad rfl
      simp only [Bool.or_eq_false_iff] at hnone
      exact ⟨hnone.1.2, hnone.1.1⟩

/-- The container and the image do not overlap. -/
def Apart (root root' : UnixPath) : Prop :=
  ¬root.components <+: root'.components ∧ ¬root'.components <+: root.components

theorem not_prefix_of_below {root base host : UnixPath} (hapart : Apart base root)
    (h : Sandbox.Below base host) : ¬root.components <+: host.components := by
  obtain ⟨comps, -, -, heq⟩ := h
  intro hroot
  have hbase : base.components <+: host.components := heq ▸ List.prefix_append _ _
  exact (List.prefix_or_prefix_of_prefix hroot hbase).elim hapart.2 hapart.1

/-- A call that does not append to the image opens nothing in it but for reading. -/
theorem opensGuarded_of_not_appends {vfs : Sandbox} {call : GuestCall} {s : Files}
    (hapart : Apart vfs.hostRoot vfs.systemRoot) (h : ¬call.AppendsToImage vfs) :
    OpensGuarded vfs.systemRoot.components fun path o =>
      (call.ctx s).IsOpen call.host.build.profile ∧ (call.ctx s).Opens vfs path o := by
  rintro path o access creation ⟨⟨number, hdecode, hopen⟩, iosPath, ro, hpath, htranslate, hro,
    rfl⟩ hroot haccess hcreation
  rcases Sandbox.below_translate htranslate with ⟨-, hbelow⟩ | ⟨rfl, -⟩
  · exact absurd hroot (not_prefix_of_below hapart hbelow)
  · have hread : call.cpu.arg 1 &&& Unix.O_ACCMODE = Unix.O_RDONLY := by
      by_contra hne
      exact hro ⟨rfl, hne⟩
    exact readOnly_openOptions hread (fun happend hflags => h ⟨number, iosPath, path, hdecode,
      hopen, hpath, htranslate, hread, happend, hflags⟩) haccess hcreation

/-- A call that opens nothing below the root but for reading keeps what is there. -/
theorem Guarded.run {root : List Component} {vfs : Sandbox} {fs₀ : HostFs} {s s' : Files}
    {call : GuestCall}
    (hopens : OpensGuarded root fun path o =>
      (call.ctx s).IsOpen call.host.build.profile ∧ (call.ctx s).Opens vfs path o)
    (h : Guarded root fs₀ s) (hrun : call.run vfs s = some s') : Guarded root fs₀ s' := by
  obtain ⟨c', hc', rfl⟩ := Option.map_eq_some_iff.1 hrun
  exact h.steps hopens (fileSteps_dispatch hc')

/-- A run keeps what is below the root if each of its calls does. -/
theorem Guarded.runCalls {root : List Component} {vfs : Sandbox} {fs₀ : HostFs} :
    ∀ {calls : List GuestCall} {s s' : Files}, Guarded root fs₀ s →
      (∀ call ∈ calls, ∀ s, OpensGuarded root fun path o =>
        (call.ctx s).IsOpen call.host.build.profile ∧ (call.ctx s).Opens vfs path o) →
      IosEmu.runCalls vfs calls s = some s' → Guarded root fs₀ s'
  | [], s, s', h, _, hrun => by
    obtain rfl := Option.some.inj hrun
    exact h
  | call :: calls, s, s', h, hopens, hrun => by
    obtain ⟨mid, hmid, hrun⟩ := Option.bind_eq_some_iff.1 hrun
    exact Guarded.runCalls (h.run (hopens call List.mem_cons_self s) hmid)
      (fun c hc => hopens c (List.mem_cons_of_mem _ hc)) hrun

theorem guarded_default (root : List Component) (fs₀ : HostFs) :
    Guarded root fs₀ ⟨FdTable.default, fs₀⟩ := by
  refine ⟨fun fd f hget => ?_, fun _ _ => rfl⟩
  simp only [FdTable.default, SortedMap.get?_insert, SortedMap.get?_empty] at hget
  split_ifs at hget <;> simp at hget

/-- In a run without a call that appends to the image, no file below the image's root is
created, truncated or written, and no descriptor of one is writable. -/
theorem image_kept (vfs : Sandbox) (hapart : Apart vfs.hostRoot vfs.systemRoot) (fs₀ : HostFs)
    (calls : List GuestCall) (hno : ∀ call ∈ calls, ¬call.AppendsToImage vfs) (s : Files)
    (hrun : runCalls vfs calls ⟨FdTable.default, fs₀⟩ = some s) :
    (∀ path, vfs.systemRoot.components <+: path → s.fs.node path = fs₀.node path) ∧
    (∀ fd f, s.fds.slots.get? fd = some (.file f) → vfs.systemRoot.components <+: f.path →
      f.writable = false) ∧
    ∀ iosPath path, vfs.translate iosPath = .ok (path, true) →
      vfs.systemRoot.components <+: path.components := by
  have hguarded := (guarded_default _ fs₀).runCalls
    (fun call hcall _ => opensGuarded_of_not_appends hapart (hno call hcall)) hrun
  exact ⟨hguarded.tree, hguarded.fds, fun _ _ h => Sandbox.prefix_of_readOnly h⟩

/-! ## A run that appends -/

/-- A call with the selector `x16` and three arguments, whose memory starts with `text`. -/
def testCall (x16 x0 x1 x2 : U64) (text : String) : GuestCall where
  host := ⟨⟨.release, .host⟩, .willing, none⟩
  dispatcher := ⟨0, 0⟩
  cpu :=
    { CpuContext.default with
      x := fun i => if i = 16 then x16 else if i = 0 then x0 else if i = 1 then x1
        else if i = 2 then x2 else 0 }
  mem :=
    { regions := SortedMap.empty.insert 0x100000000
        { base := 0x100000000, prot := .rw, kind := .heap, name := "heap",
          data := Buffer.ofPrefix 0x10000 (text.toList.map fun c => BitVec.ofNat 8 c.toNat) 0
            four_pages_le }
      mmapCursor := GuestMemory.mmapTop
      heap := BumpAllocator.new 0x100000000 0x10000 }
  exit := none

/-- A container and an image beside each other. -/
def testSandbox : Sandbox :=
  Sandbox.ofContainer "/c".toList "/s".toList "A".toList "U".toList

/-- A tree with the directory `/s/usr` and nothing else. -/
def testTree : HostFs where
  node path := if path = UnixPath.components "/s/usr".toList then some .dir else none

/-- A file of the image is opened and read, and a file in the container is made and written. -/
def imageCalls : List GuestCall :=
  [testCall 5 0x100000000 0 0 "/usr/x", testCall 3 3 0x100000000 1 "",
    testCall 5 0x100000000 0x202 0 "y", testCall 4 4 0x100000000 1 "z"]

/-- A tree with the file `/s/usr/x` and the bundle. -/
def imageTree : HostFs where
  node path :=
    if path = UnixPath.components "/s/usr/x".toList then some (.file [7])
    else if path = UnixPath.components "/c/Applications/U/A.app".toList then some .dir
    else none

theorem image_kept_read :
    Apart testSandbox.hostRoot testSandbox.systemRoot ∧
      ∃ s, runCalls testSandbox imageCalls ⟨FdTable.default, imageTree⟩ = some s ∧
        (s.fds.slots.get? 3 =
            some (.file ⟨UnixPath.components "/s/usr/x".toList, true, false, false, 1⟩) ∧
          s.fs.node (UnixPath.components "/c/Applications/U/A.app/y".toList) =
            some (.file [0x7a])) ∧
        ∀ path, UnixPath.components "/s".toList <+: path →
          s.fs.node path = imageTree.node path := by
  have hapart : Apart testSandbox.hostRoot testSandbox.systemRoot := by
    unfold Apart
    decide
  have hrun : (runCalls testSandbox imageCalls ⟨FdTable.default, imageTree⟩).any (fun s =>
      decide (s.fds.slots.get? 3 =
          some (.file ⟨UnixPath.components "/s/usr/x".toList, true, false, false, 1⟩)) &&
        decide (s.fs.node (UnixPath.components "/c/Applications/U/A.app/y".toList) =
          some (.file [0x7a]))) = true := by
    decide +kernel
  obtain ⟨s, hs, hcheck⟩ := (Option.any_eq_true _ _).1 hrun
  rw [Bool.and_eq_true, decide_eq_true_iff, decide_eq_true_iff] at hcheck
  refine ⟨hapart, s, hs, hcheck, (image_kept testSandbox hapart imageTree imageCalls ?_ s hs).1⟩
  rintro call hcall ⟨number, iosPath, path, -, -, -, -, -, happend, -⟩
  simp only [imageCalls, List.mem_cons, List.not_mem_nil, or_false] at hcall
  rcases hcall with rfl | rfl | rfl | rfl <;> exact happend (by decide)

/-- `open("/usr/x", O_RDONLY | O_APPEND | O_CREAT)` creates the file in the image, and a
`write` to the descriptor changes it. -/
theorem append_writes_image :
    Apart testSandbox.hostRoot testSandbox.systemRoot ∧
      testTree.node (UnixPath.components "/s/usr/x".toList) = none ∧
      ∃ s, runCalls testSandbox
          [testCall 5 0x100000000 0x208 0 "/usr/x", testCall 4 3 0x100000000 1 "x"]
          ⟨FdTable.default, testTree⟩ = some s ∧
        s.fs.node (UnixPath.components "/s/usr/x".toList) = some (.file [0x78]) ∧
        testSandbox.systemRoot.components <+: UnixPath.components "/s/usr/x".toList := by
  have hrun : (runCalls testSandbox
      [testCall 5 0x100000000 0x208 0 "/usr/x", testCall 4 3 0x100000000 1 "x"]
      ⟨FdTable.default, testTree⟩).map
        (fun s => s.fs.node (UnixPath.components "/s/usr/x".toList)) =
      some (some (.file [0x78])) := by
    decide
  obtain ⟨s, hs, hnode⟩ := Option.map_eq_some_iff.1 hrun
  refine ⟨?_, by decide, s, hs, hnode, by decide⟩
  unfold Apart
  decide

end IosEmu
