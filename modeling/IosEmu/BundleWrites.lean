import IosEmu.Install
import IosEmu.PathIdentity

/-!
# Writing to the app bundle

The unpacked payload is documented as read only to the guest. `translate` reports a path as read
only if it is in the system image, and never if it is in the container, where the bundle is. So
the report is right exactly for the paths that do not lead into the bundle
(`bundleReadOnly_iff`), and a guest may open the files of its bundle for writing.

A run whose calls do not do that, however they spell the path, leaves the bundle as it is
(`bundle_read_only_iff`).
-/

open SysLib

namespace IosEmu

namespace Sandbox

/-- A path that is translated into the bundle is reported as read only. -/
def BundleReadOnly (sb : Sandbox) (iosPath : List Char) : Prop :=
  ∀ host ro, sb.translate iosPath = .ok (host, ro) →
    sb.layout.bundleDir.components <+: host.components → ro = true

/-- The absolute text is spelled below the container's prefix, and its first name there is the
bundle's. -/
def LeadsToBundle (sb : Sandbox) (path : List Char) : Prop :=
  ∃ name rest, sb.layout.bundleDir.fileName = some name ∧
    SpelledBelow sb.iosPrefix path (name :: rest)

/-- The directory of the bundle is one name below the container. -/
structure BundleBelow (sb : Sandbox) (name : UnixPath) : Prop where
  clean : UnixPath.Clean name
  bundle : sb.layout.bundleDir = sb.hostRoot.push name

theorem bundleBelow_ofContainer (containersRoot systemRoot : UnixPath)
    (appName uuid : List Char) :
    (ofContainer containersRoot systemRoot appName uuid).BundleBelow
      (sanitizeComponent appName ++ ".app".toList) :=
  ⟨clean_bundleName appName, rfl⟩

section Bundle

variable {sb : Sandbox} {name : UnixPath} {comps : List UnixPath} {path : List Char}

theorem BundleBelow.fileName (h : sb.BundleBelow name) :
    sb.layout.bundleDir.fileName = some name := by
  rw [h.bundle, UnixPath.fileName_push h.clean]

theorem BundleBelow.components (h : sb.BundleBelow name) :
    sb.layout.bundleDir.components = sb.hostRoot.components ++ [.normal name] := by
  rw [h.bundle, UnixPath.components_push h.clean]

/-- A path of the container is in the bundle exactly if its first name is the bundle's. -/
theorem BundleBelow.prefix_iff (h : sb.BundleBelow name)
    (hspelled : SpelledBelow sb.iosPrefix path comps) :
    sb.layout.bundleDir.components <+: (sb.hostRoot.pushAll comps).components ↔
      sb.LeadsToBundle path := by
  rw [h.components, components_of_spelledBelow hspelled, List.prefix_append_right_inj]
  constructor
  · intro hinside
    rcases comps with _ | ⟨first, rest⟩
    · simp at hinside
    · obtain rfl : name = first := by simpa using hinside
      exact ⟨name, rest, h.fileName, hspelled⟩
  · rintro ⟨name', rest, hname, hspelled'⟩
    obtain rfl := Option.some.inj (h.fileName.symm.trans hname)
    obtain rfl := spelledBelow_unique hspelled hspelled'
    simp

/-- The report is right exactly for the paths that do not lead into the bundle. -/
theorem bundleReadOnly_iff (h : sb.BundleBelow name) (iosPath : List Char) :
    sb.BundleReadOnly iosPath ↔ ¬sb.LeadsToBundle (sb.absolutePath iosPath) := by
  constructor
  · rintro hro ⟨name', rest, hname, hspelled⟩
    have hinside := (h.prefix_iff hspelled).2 ⟨name', rest, hname, hspelled⟩
    exact Bool.false_ne_true
      (hro _ false (translate_container_iff.2 ⟨_, hspelled, rfl⟩) hinside)
  · rintro hno host (_ | _) htranslate hinside
    · obtain ⟨comps, hspelled, rfl⟩ := translate_container_iff.1 htranslate
      exact absurd ((h.prefix_iff hspelled).1 hinside) hno
    · rfl

end Bundle

end Sandbox

/-! ## Runs -/

/-- The flags do not ask the host to write : the access mode is `O_RDONLY`, and `O_APPEND` is
not set, or set with flags that the host refuses. -/
def ReadFlags (flags : U64) : Prop :=
  flags &&& Unix.O_ACCMODE = Unix.O_RDONLY ∧
    (flags &&& Unix.O_APPEND ≠ 0 → ¬(flags &&& Unix.O_TRUNC = 0 ∨
      (flags &&& Unix.O_EXCL ≠ 0 ∧ flags &&& Unix.O_CREAT ≠ 0)))

instance (flags : U64) : Decidable (ReadFlags flags) :=
  inferInstanceAs (Decidable (_ ∧ _))

/-- The call opens a path of the bundle with flags that ask to write. -/
def GuestCall.WritesBundle (vfs : Sandbox) (call : GuestCall) : Prop :=
  ∃ number iosPath,
    decode call.host.build.profile (call.cpu.x 16) = .ok (.unix, number) ∧
    Unix.Call.ofNumber number = some .openFile ∧
    call.mem.readCstr (call.cpu.arg 0) 1024 = .ok iosPath ∧
    vfs.LeadsToBundle (vfs.absolutePath iosPath.toList) ∧
    ¬ReadFlags (call.cpu.arg 1)

/-- A call that does not open the bundle for writing opens nothing in it but for reading. -/
theorem opensGuarded_of_not_writes {vfs : Sandbox} {name : UnixPath}
    (hbundle : vfs.BundleBelow name) (hapart : Apart vfs.layout.bundleDir vfs.systemRoot)
    {call : GuestCall} (h : ¬call.WritesBundle vfs) (s : Files) :
    OpensGuarded vfs.layout.bundleDir.components fun path o =>
      (call.ctx s).IsOpen call.host.build.profile ∧ (call.ctx s).Opens vfs path o := by
  rintro path o access creation ⟨⟨number, hdecode, hopen⟩, iosPath, ro, hpath, htranslate, -,
    rfl⟩ hroot haccess hcreation
  rcases ro with _ | _
  · obtain ⟨comps, hspelled, rfl⟩ := Sandbox.translate_container_iff.1 htranslate
    have hflags : ReadFlags (call.cpu.arg 1) := by
      by_contra hno
      exact h ⟨number, iosPath, hdecode, hopen, hpath, (hbundle.prefix_iff hspelled).1 hroot, hno⟩
    exact readOnly_openOptions hflags.1 hflags.2 haccess hcreation
  · exact absurd (List.prefix_or_prefix_of_prefix hroot (Sandbox.prefix_of_readOnly htranslate))
      (not_or.2 hapart)

/-- Exactly the paths that do not lead into the bundle are reported as they should be. In a run
without a call that opens a path of the bundle for writing, the bundle stays as it is, and no
descriptor of one of its files is writable. -/
theorem bundle_read_only_iff (containersRoot systemRoot : UnixPath) (appName uuid : List Char) :
    let sb := Sandbox.ofContainer containersRoot systemRoot appName uuid
    (∀ iosPath, sb.BundleReadOnly iosPath ↔ ¬sb.LeadsToBundle (sb.absolutePath iosPath)) ∧
    (Apart sb.layout.bundleDir sb.systemRoot → ∀ fs₀ calls s,
      (∀ call ∈ calls, ¬GuestCall.WritesBundle sb call) →
      runCalls sb calls ⟨FdTable.default, fs₀⟩ = some s →
        (∀ path, sb.layout.bundleDir.components <+: path → s.fs.node path = fs₀.node path) ∧
        ∀ fd f, s.fds.slots.get? fd = some (.file f) →
          sb.layout.bundleDir.components <+: f.path → f.writable = false) := by
  intro sb
  have hbundle := Sandbox.bundleBelow_ofContainer containersRoot systemRoot appName uuid
  refine ⟨Sandbox.bundleReadOnly_iff hbundle, fun hapart fs₀ calls s hno hrun => ?_⟩
  have hguarded := (guarded_default _ fs₀).runCalls
    (fun call hcall s => opensGuarded_of_not_writes hbundle hapart (hno call hcall) s) hrun
  exact ⟨hguarded.tree, hguarded.fds⟩

/-- A tree with the file `x` of one byte in the bundle. -/
def bundleTree : HostFs where
  node path := if path = UnixPath.components "/c/Applications/U/A.app/x".toList then
    some (.file [0x79]) else none

/-- `open("x", O_WRONLY)` opens the file of the bundle, which is reported as writable, and a
`write` to the descriptor changes it. -/
theorem guest_writes_bundle :
    Apart testSandbox.layout.bundleDir testSandbox.systemRoot ∧
      testSandbox.translate "x".toList = .ok ("/c/Applications/U/A.app/x".toList, false) ∧
      ¬testSandbox.BundleReadOnly "x".toList ∧
      ∃ s, runCalls testSandbox
          [testCall 5 0x100000000 1 0 "x", testCall 4 3 0x100000000 1 "z"]
          ⟨FdTable.default, bundleTree⟩ = some s ∧
        s.fs.node (UnixPath.components "/c/Applications/U/A.app/x".toList) = some (.file [0x7a]) := by
  have hrun : (runCalls testSandbox
      [testCall 5 0x100000000 1 0 "x", testCall 4 3 0x100000000 1 "z"]
      ⟨FdTable.default, bundleTree⟩).map
        (fun s => s.fs.node (UnixPath.components "/c/Applications/U/A.app/x".toList)) =
      some (some (.file [0x7a])) := by
    decide +kernel
  have htranslate : testSandbox.translate "x".toList =
      .ok ("/c/Applications/U/A.app/x".toList, false) := by
    decide +kernel
  obtain ⟨s, hs, hnode⟩ := Option.map_eq_some_iff.1 hrun
  refine ⟨?_, htranslate, fun h => ?_, s, hs, hnode⟩
  · unfold Apart
    decide +kernel
  · exact Bool.false_ne_true (h _ _ htranslate (by decide +kernel))

/-- The same file opened for reading. -/
theorem bundle_kept_read :
    ∃ s, runCalls testSandbox [testCall 5 0x100000000 0 0 "x", testCall 4 3 0x100000000 1 "z"]
        ⟨FdTable.default, bundleTree⟩ = some s ∧
      ∀ path, testSandbox.layout.bundleDir.components <+: path →
        s.fs.node path = bundleTree.node path := by
  have hapart : Apart testSandbox.layout.bundleDir testSandbox.systemRoot := by
    unfold Apart
    decide +kernel
  have hsome : (runCalls testSandbox
      [testCall 5 0x100000000 0 0 "x", testCall 4 3 0x100000000 1 "z"]
      ⟨FdTable.default, bundleTree⟩).isSome = true := by
    decide +kernel
  obtain ⟨s, hs⟩ := Option.isSome_iff_exists.1 hsome
  refine ⟨s, hs, ((bundle_read_only_iff "/c".toList "/s".toList "A".toList "U".toList).2 hapart _ _
    _ ?_ hs).1⟩
  rintro call hcall ⟨-, -, -, -, -, -, hflags⟩
  simp only [List.mem_cons, List.not_mem_nil, or_false] at hcall
  rcases hcall with rfl | rfl
  · exact hflags (by decide)
  · exact hflags (by decide)

end IosEmu
