import IosEmu.FileReads
import IosEmu.Isolation
import IosEmu.Launch

/-!
# What an app reads of its bundle

An archive is unpacked entry by entry, with the later of two entries for one path on top
(`bytesFor`). The app is started with the bundle as the directory that relative paths begin at, so
it finds a file of the archive under the name that the entry has in the bundle
(`translate_relative`).

As long as no service of a run opens a file of the bundle for writing, what the app reads from one
is what the archive holds for it : the bytes that reads deliver, followed by those that are left,
are the bytes of the entry from the offset on (`bundle_reads_archive`).
-/

open SysLib

namespace IosEmu

/-! ## The name of an entry -/

/-- A path that does not go up leads to its names. -/
theorem resolve_pieces : ∀ {texts : List (List Char)} (dir : List UnixPath),
    ['.', '.'] ∉ texts → Piece.resolve dir (texts.map (piece '.')) =
      dir ++ texts.filter fun text => text ≠ [] ∧ text ≠ ['.']
  | [], dir, _ => (List.append_nil dir).symm
  | text :: texts, dir, h => by
    obtain ⟨hup, hrest⟩ := not_or.1 (mt List.mem_cons.2 h)
    have ih := fun dir => @resolve_pieces texts dir hrest
    by_cases hstay : text = [] ∨ text = ['.']
    · have hpiece : piece '.' text = .stay := if_pos hstay
      rw [List.map_cons, hpiece, List.filter_cons_of_neg (by simpa [← not_or] using hstay)]
      exact ih dir
    · have hpiece : piece '.' text = .down text := by
        rw [piece, if_neg hstay, if_neg (Ne.symm hup)]
      rw [List.map_cons, hpiece, List.filter_cons_of_pos (by simpa [← not_or] using hstay)]
      refine (ih (dir ++ [text])).trans ?_
      rw [List.append_assoc, List.singleton_append]

theorem lexicalPath_eq_names {rel : UnixPath} (h : ['.', '.'] ∉ rel.splitOn '/') :
    lexicalPath rel = rel.names :=
  resolve_pieces [] h

theorem nul_notMem_bundleName (appName : List Char) :
    '\x00' ∉ sanitizeComponent appName ++ ".app".toList := by
  have happ : '\x00' ∉ ".app".toList := by decide
  rw [List.mem_append, not_or]
  refine ⟨?_, happ⟩
  unfold sanitizeComponent
  dsimp only
  split_ifs
  · decide
  · rw [List.mem_map]
    rintro ⟨c, -, hc⟩
    split_ifs at hc with hbad
    · cases hc
    · exact hbad (Or.inr (Or.inr hc))

namespace Sandbox

variable {sb : Sandbox} {name rel : UnixPath}

/-- The name of an entry leads to where the entry is unpacked. -/
theorem translate_relative (h : sb.BundleBelow name) (hname : '\x00' ∉ name)
    (hsafe : SafeName rel) (htrim : trim rel = rel) (hnul : '\x00' ∉ rel) :
    ∃ host, sb.translate rel = .ok (host, false) ∧
      host.components = sb.layout.bundleDir.components ++ rel.names.map .normal := by
  obtain ⟨hne, hunsafe⟩ := hsafe
  obtain ⟨habs, hup⟩ := not_or.1 hunsafe
  have hpath : sb.absolutePath rel = sb.iosPrefix ++ '/' :: (name ++ '/' :: rel) := by
    rw [absolutePath, htrim, if_neg habs, bundleIosPath, h.fileName, Option.getD_some,
      List.append_assoc, List.cons_append]
  have htexts : (name ++ '/' :: rel).splitOn '/' = name :: rel.splitOn '/' := by
    rw [List.splitOn_append_cons_self, h.clean.splitOn_eq, List.singleton_append]
  have hups : ['.', '.'] ∉ (name ++ '/' :: rel).splitOn '/' := by
    rw [htexts, List.mem_cons, not_or]
    exact ⟨Ne.symm h.clean.ne_dotdot, hup⟩
  have hnames : (name ++ '/' :: rel).names = name :: rel.names := by
    rw [UnixPath.names, htexts, List.filter_cons_of_pos]
    · rfl
    · simpa using ⟨h.clean.ne_nil, h.clean.ne_dot⟩
  have hspelled : SpelledBelow sb.iosPrefix (sb.absolutePath rel) (name :: rel.names) := by
    refine ⟨name ++ '/' :: rel, hpath, by simp, ?_, ?_, ?_⟩
    · simpa using ⟨hname, hnul⟩
    · refine Piece.stays_of_up_notMem 0 fun hmem => ?_
      obtain ⟨text, htext, hpiece⟩ := List.mem_map.1 hmem
      rw [piece_eq_up_iff.1 hpiece] at htext
      exact hups htext
    · rw [lexicalPath_eq_names hups, hnames]
  refine ⟨_, translate_container_iff.2 ⟨_, hspelled, rfl⟩, ?_⟩
  rw [components_of_spelledBelow hspelled, h.components, List.append_assoc]
  rfl

end Sandbox

/-! ## What is installed -/

/-- An entry that is unpacked as a file at the names. -/
def entryFor (bundleDir : List Char) (names : List UnixPath) :
    Except String ZipEntry → Option ZipEntry
  | .ok entry => if entry.fileNames bundleDir = some names then some entry else none
  | .error _ => none

/-- The bytes that the archive holds for a file of the bundle : those of the last entry for it. -/
def ZipArchive.bytesFor (entries : ZipArchive) (bundleDir : List Char) (names : List UnixPath) :
    Option (List U8) :=
  (entries.filterMap (entryFor bundleDir names)).getLast?.bind fun entry => entry.content.toOption

section Installed

variable {kernel : Kernel} {containersRoot systemRoot : UnixPath}
  {appName uuid bundleDir : List Char} {entries : ZipArchive} {fs fs' : HostFs} {sb : Sandbox}

/-- A file of the bundle has the bytes that the archive holds for it. -/
theorem node_of_install
    (h : install kernel containersRoot systemRoot appName uuid (.ok entries) bundleDir fs =
      .ok sb fs')
    {entry : ZipEntry} {names : List UnixPath} (hmem : .ok entry ∈ entries)
    (hnames : entry.fileNames bundleDir = some names) :
    ∃ content, entries.bytesFor bundleDir names = some content ∧
      fs'.node (sb.layout.bundleDir.components ++ names.map .normal) = some (.file content) := by
  have hbundle := Sandbox.bundleBelow_ofContainer containersRoot systemRoot appName uuid
  rw [← eq_of_install h] at hbundle
  obtain ⟨sandbox, fs₁, -, hrest⟩ := Prog.bind_eq_ok.1 h
  obtain ⟨u, fs₂, hextract, hend⟩ := Prog.bind_eq_ok.1 hrest
  obtain ⟨rfl, rfl⟩ := Outcome.ok.inj hend
  obtain ⟨entries', heq, hnode⟩ := node_of_extractApp hbundle.bundleDir_ends.1 hextract
  obtain rfl := Except.ok.inj heq
  obtain ⟨before, e, after, hsplit, ⟨last, rfl, hlast⟩, hafter⟩ :=
    exists_last (p := fun e => ∃ entry : ZipEntry, e = .ok entry ∧
      entry.fileNames bundleDir = some names) ⟨_, hmem, entry, rfl, hnames⟩
  have hafter' : ∀ e, .ok e ∈ after → e.fileNames bundleDir ≠ some names :=
    fun e he heq => hafter _ he ⟨e, rfl, heq⟩
  obtain ⟨content, hcontent, hfile⟩ := hnode hsplit hlast hafter'
  refine ⟨content, ?_, hfile⟩
  have hnone : after.filterMap (entryFor bundleDir names) = [] := by
    refine List.filterMap_eq_nil_iff.2 fun e he => ?_
    rcases e with msg | e
    · rfl
    · exact if_neg (hafter' e he)
  have hsome : entryFor bundleDir names (.ok last) = some last := if_pos hlast
  rw [ZipArchive.bytesFor, hsplit, List.filterMap_append, List.filterMap_cons_some hsome, hnone,
    List.getLast?_concat, Option.bind_some, hcontent]
  rfl

/-- An archive that is unpacked has no unsafe name in the bundle. -/
theorem safeName_of_install
    (h : install kernel containersRoot systemRoot appName uuid (.ok entries) bundleDir fs =
      .ok sb fs')
    {entry : ZipEntry} {rel : List Char} (hmem : .ok entry ∈ entries)
    (hname : entry.name = bundleDir ++ '/' :: rel) (hne : rel ≠ []) : SafeName rel := by
  obtain ⟨sandbox, fs₁, -, hrest⟩ := Prog.bind_eq_ok.1 h
  obtain ⟨u, fs₂, hextract, -⟩ := Prog.bind_eq_ok.1 hrest
  obtain ⟨entries', heq, hloop⟩ := Prog.ofResult_bind_eq_ok.1 hextract
  obtain rfl := Except.ok.inj heq
  obtain ⟨before, after, rfl⟩ := List.append_of_mem hmem
  rw [List.zipIdx_append, List.zipIdx_cons] at hloop
  obtain ⟨fs₃, -, hloop⟩ := (Prog.forEach_append_eq_ok _).1 hloop
  rw [Prog.forEach_cons] at hloop
  obtain ⟨u', fs₄, hentry, -⟩ := Prog.bind_eq_ok.1 hloop
  have hdrop : entry.name.dropPrefix? (bundleDir ++ ['/']) = some rel := by
    rw [hname, List.dropPrefix?_eq_some_iff]
    exact ⟨bundleDir ++ ['/'], by simp, by simp⟩
  refine ⟨hne, fun hunsafe => ?_⟩
  unfold extractEntry at hentry
  simp only [hdrop, if_neg hne, if_pos hunsafe] at hentry
  cases hentry

end Installed

/-! ## What is read -/

section Runs

variable {b : Build} {l : List Service} {mach mach' : Machine ObjcRuntime}

/-- A run writes where its services do when it is their turn. -/
theorem writesIn_of_run {W : List Component → Prop} {fs₀ : HostFs} :
    ∀ {l : List Service} {mach mach' : Machine ObjcRuntime},
      (∀ l₁ s l₂ mid, l = l₁ ++ s :: l₂ → runServices b l₁ mach = some mid →
        mid.vfs = mach.vfs → OpensIn W (s.Opens b mid)) →
      WritesIn W fs₀ ⟨mach.fds, mach.fs⟩ → runServices b l mach = some mach' →
        WritesIn W fs₀ ⟨mach'.fds, mach'.fs⟩
  | [], mach, mach', _, h, hrun => by
    obtain rfl := Option.some.inj hrun
    exact h
  | s :: l, mach, mach', hopens, h, hrun => by
    obtain ⟨mid, hmid, hrun⟩ := Option.bind_eq_some_iff.1 hrun
    obtain ⟨hvfs, hwrites⟩ := Service.writesIn (hopens [] s l mach rfl rfl rfl) h hmid
    refine writesIn_of_run (fun l₁ t l₂ mid' hl hrun' hvfs' => ?_) hwrites hrun
    refine hopens (s :: l₁) t l₂ mid' (by rw [hl]; rfl) ?_ (hvfs'.trans hvfs)
    exact Option.bind_eq_some_iff.2 ⟨mid, hmid, hrun'⟩

/-- The service opens a file of the bundle with flags that ask to write. -/
def Service.WritesBundle (b : Build) (s : Service) (mach : Machine ObjcRuntime) : Prop :=
  ∃ path o, s.Opens b mach path o ∧
    mach.vfs.layout.bundleDir.components <+: path.components ∧ ¬ReadFlags (s.cpu.arg 1)

theorem Service.opensIn_of_not_writesBundle {s : Service} (h : ¬s.WritesBundle b mach) :
    OpensIn (fun path => ¬mach.vfs.layout.bundleDir.components <+: path) (s.Opens b mach) := by
  intro path o access creation hopens haccess hcreation hin
  have hflags : ReadFlags (s.cpu.arg 1) := by
    by_contra hno
    exact h ⟨path, o, hopens, not_not.1 hin, hno⟩
  obtain ⟨-, -, iosPath, ro, -, -, -, rfl⟩ := hopens
  exact readOnly_openOptions hflags.1 hflags.2 haccess hcreation

/-- A run that opens no file of the bundle for writing leaves the bundle as it is. -/
theorem writesIn_outside_bundle (hfds : mach.fds = FdTable.default)
    (hread : ∀ l₁ s l₂ mid, l = l₁ ++ s :: l₂ → runServices b l₁ mach = some mid →
      ¬s.WritesBundle b mid)
    (hrun : runServices b l mach = some mach') :
    WritesIn (fun path => ¬mach.vfs.layout.bundleDir.components <+: path) mach.fs
      ⟨mach'.fds, mach'.fs⟩ := by
  refine writesIn_of_run (fun l₁ s l₂ mid hl hmid hvfs => ?_) ⟨?_, fun _ _ => rfl⟩ hrun
  · rw [← hvfs]
    exact Service.opensIn_of_not_writesBundle (hread l₁ s l₂ mid hl hmid)
  · rw [hfds]
    exact fun fd f hget _ => False.elim (FdTable.in_default (V := fun _ => False) fd f hget)

/-- What an app reads from a file of its bundle is what the archive holds for it, after any run that
opens no file of the bundle for writing. The app finds the file by the name of its entry. -/
theorem bundle_reads_archive (kernel : Kernel) (p : Profile) (b : Build)
    (containersRoot systemRoot : UnixPath) (appName uuid bundleDir : List Char)
    (entries : ZipArchive) (fs : HostFs) (l : List Service) (mach mach' : Machine ObjcRuntime)
    (hinstall : install kernel containersRoot systemRoot appName uuid (.ok entries) bundleDir fs =
      .ok mach.vfs mach.fs)
    (hfds : mach.fds = FdTable.default)
    (hread : ∀ l₁ s l₂ mid, l = l₁ ++ s :: l₂ → runServices b l₁ mach = some mid →
      ¬s.WritesBundle b mid)
    (hrun : runServices b l mach = some mach') (entry : ZipEntry) (rel : List Char)
    (hmem : .ok entry ∈ entries) (hname : entry.name = bundleDir ++ '/' :: rel) (hne : rel ≠ [])
    (hfile : rel.getLast? ≠ some '/') :
    let place := mach.vfs.layout.bundleDir.components ++ (UnixPath.names rel).map .normal
    (trim rel = rel → '\x00' ∉ rel →
      ∃ host, mach.vfs.translate rel = .ok (host, false) ∧ host.components = place) ∧
    ∃ content, entries.bytesFor bundleDir (UnixPath.names rel) = some content ∧
      ∀ fd f, mach'.fds.slots.get? fd = some (.file f) → f.path = place →
        f.writable = false ∧ ∀ trace s', ReadRun p ⟨mach'.fds, mach'.fs⟩ trace s' →
          content.drop f.pos = delivered trace fd ++ s'.remaining fd := by
  intro place
  have hsandbox := eq_of_install hinstall
  have hbundle := Sandbox.bundleBelow_ofContainer containersRoot systemRoot appName uuid
  rw [← hsandbox] at hbundle
  have hsafe := safeName_of_install hinstall hmem hname hne
  have hnames : entry.fileNames bundleDir = some (UnixPath.names rel) := by
    refine fileNames_eq_some.2 ⟨rel, ?_, hne, ?_, rfl⟩
    · rw [hname, List.dropPrefix?_eq_some_iff]
      exact ⟨bundleDir ++ ['/'], by simp, by simp⟩
    · rw [hname, List.getLast?_append_of_ne_nil _ (List.cons_ne_nil _ _),
        List.getLast?_cons_of_ne_nil hne]
      exact hfile
  obtain ⟨content, hcontent, hnode⟩ := node_of_install hinstall hmem hnames
  have hkept := writesIn_outside_bundle hfds hread hrun
  refine ⟨Sandbox.translate_relative hbundle (nul_notMem_bundleName appName) hsafe, content,
    hcontent, fun fd f hget hpath => ?_⟩
  have hin : mach.vfs.layout.bundleDir.components <+: f.path := by
    rw [hpath]
    exact List.prefix_append _ _
  refine ⟨?_, fun trace s' hreads => ?_⟩
  · by_contra hwritable
    exact hkept.fds fd f hget (by simpa using hwritable) hin
  · have hthere : mach'.fs.content f.path = content := by
      rw [HostFs.content, hkept.tree f.path (not_not.2 hin), hpath, hnode]
    rw [← remaining_of_run hreads fd, Files.remaining, hget, ← hthere]

end Runs

/-- An installation of two entries for the file `x`. -/
def installTwice : Prog EmuError Panic HostFs Sandbox :=
  install .willing "/d".toList "/s".toList "A".toList "U".toList (.ok twiceArchive)
    "Payload/A.app".toList

/-- The process of the app that is installed on an empty host. -/
def twiceMachine : Machine ObjcRuntime :=
  textMachine (Sandbox.ofContainer "/d".toList "/s".toList "A".toList "U".toList)
    ((installTwice ⟨fun _ => none⟩).okState?.getD ⟨fun _ => none⟩) "x"

theorem installTwice_eq :
    installTwice ⟨fun _ => none⟩ = .ok twiceMachine.vfs twiceMachine.fs := by
  have hsome : (installTwice ⟨fun _ => none⟩).okState?.isSome = true := by
    decide +kernel
  obtain ⟨fs, hfs⟩ := Option.isSome_iff_exists.1 hsome
  obtain ⟨sb, hinstall⟩ := Outcome.okState?_eq_some.1 hfs
  rw [twiceMachine, hfs, Option.getD_some, hinstall, ← eq_of_install hinstall]
  rfl

/-- `open("x", O_RDONLY)`. -/
def openService : Service :=
  callService 5 0x100000000 0 0

/-- A read of one byte from the descriptor that the call returns. -/
def readCtx (mach : Machine ObjcRuntime) : SyscallCtx :=
  ⟨(callService 3 3 0x100000000 1).cpu, .testMemory, mach.fds, none, mach.fs⟩

/-- The file of the bundle, just opened. -/
def openedFile : File where
  path := UnixPath.components "/d/Applications/U/A.app/x".toList
  readable := true
  writable := false
  append := false
  pos := 0

/-- The app opens the file of its bundle, and the host has a byte for a read of it. -/
theorem run_openService :
    ∃ last, runServices ⟨.release, .host⟩ [openService] twiceMachine = some last ∧
      last.fds.slots.get? 3 = some (.file openedFile) ∧
      (readCtx last).handed ⟨⟨.release, .host⟩, .willing, none⟩ = [2] ∧
      (readCtx last).files.remaining 3 = [2] ∧
      ∃ c', Unix.sysRead ⟨⟨.release, .host⟩, .willing, none⟩ (readCtx last) = .ok 1 c' := by
  have hrun : (runServices ⟨.release, .host⟩ [openService] twiceMachine).any (fun last =>
      decide (last.fds.slots.get? 3 = some (.file openedFile)) &&
        decide ((readCtx last).handed ⟨⟨.release, .host⟩, .willing, none⟩ = [2]) &&
        decide ((readCtx last).files.remaining 3 = [2]) &&
        (Unix.sysRead ⟨⟨.release, .host⟩, .willing, none⟩ (readCtx last)).okAnd fun v _ =>
          v == 1) = true := by
    decide +kernel
  obtain ⟨last, hlast, hcheck⟩ := (Option.any_eq_true _ _).1 hrun
  simp only [Bool.and_eq_true, decide_eq_true_iff] at hcheck
  obtain ⟨⟨⟨hslot, hhanded⟩, hremaining⟩, hread⟩ := hcheck
  obtain ⟨v, c', hread, hv⟩ := Outcome.okAnd_iff.1 hread
  obtain rfl := beq_iff_eq.1 hv
  exact ⟨last, hlast, hslot, hhanded, hremaining, c', hread⟩

/-- The app opens `x`, and reads the byte of the later of the two entries. -/
theorem bundle_reads_archive_twice :
    ∃ last trace rest, runServices ⟨.release, .host⟩ [openService] twiceMachine = some last ∧
      (∃ host, twiceMachine.vfs.translate "x".toList = .ok (host, false)) ∧
      twiceArchive.bytesFor "Payload/A.app".toList ["x".toList] = some [2] ∧
      last.fds.slots.get? 3 = some (.file openedFile) ∧
      ReadRun .release ⟨last.fds, last.fs⟩ trace rest ∧ delivered trace 3 = [2] ∧
      [2] = delivered trace 3 ++ rest.remaining 3 := by
  obtain ⟨last, hrun, hslot, hhanded, hremaining, c', hsysRead⟩ := run_openService
  have hread : ∀ l₁ s l₂ mid, [openService] = l₁ ++ s :: l₂ →
      runServices ⟨.release, .host⟩ l₁ twiceMachine = some mid →
      ¬s.WritesBundle ⟨.release, .host⟩ mid := by
    rintro l₁ s l₂ mid hl - ⟨path, o, -, -, hflags⟩
    have hs : s ∈ [openService] := hl ▸ List.mem_append_right l₁ List.mem_cons_self
    rw [List.mem_singleton.1 hs] at hflags
    exact hflags (by decide)
  obtain ⟨hfind, content, hcontent, hreads⟩ := bundle_reads_archive .willing .release
    ⟨.release, .host⟩ "/d".toList "/s".toList "A".toList "U".toList "Payload/A.app".toList
    twiceArchive ⟨fun _ => none⟩ [openService] twiceMachine last installTwice_eq rfl hread hrun
    ⟨"Payload/A.app/x".toList, 1, .ok [1]⟩ "x".toList List.mem_cons_self rfl (by decide)
    (by decide)
  obtain ⟨host, hhost, -⟩ := hfind (by decide) (by decide)
  have hbytes : twiceArchive.bytesFor "Payload/A.app".toList ["x".toList] = some [2] := by
    decide
  obtain rfl : content = [2] := Option.some.inj (hcontent.symm.trans hbytes)
  have hreach : GuestMemory.Reachable .release (readCtx last).mem :=
    GuestMemory.reachable_testMemory .release
  have htakes : BufferTakes ⟨⟨.release, .host⟩, .willing, none⟩ (readCtx last) := by
    intro _ _
    rw [hhanded]
    have hwrite : (GuestMemory.write 0x100000000 [2] .testMemory).isOk = true := by decide
    obtain ⟨⟨⟩, m', hwrite⟩ := Outcome.isOk_iff.1 hwrite
    exact hreach.inv.write_isOk_iff.1 ⟨m', hwrite⟩
  have hnil : ReadRun .release (readCtx last).files [] (readCtx last).files := .nil
  have htrace := hnil.snoc hreach htakes hsysRead
  have hfd : (readCtx last).fd = 3 := rfl
  rw [hfd, hremaining] at htrace
  obtain ⟨-, hdelivered⟩ := hreads 3 openedFile hslot (by decide)
  exact ⟨last, _, _, hrun, ⟨host, hhost⟩, hbytes, hslot, htrace, rfl, hdelivered _ _ htrace⟩

end IosEmu
