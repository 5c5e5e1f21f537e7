import IosEmu.CopyFaults
import IosEmu.WriteXorExecute

/-!
# The trap of a system call

Guest code calls Darwin with `svc #0x80`, which on device would enter Linux. The native
backend has a rewrite that puts a `brk` with a marker in the place of such a word (`divert`),
and a handler that takes a trap at that marker for a system call (`trapHandler`). The rewrite
is written, but no stage of a build calls it : the pages of an executable segment hold the words
of the linked image as they are. So the calls of an image are diverted exactly if it has none
(`diverted_iff`).
-/

open SysLib

namespace IosEmu

open GuestMemory Process

namespace Native

/-! ## Instructions -/

/-- `svc #0x80`. -/
def insnSvc : U32 := 0xd4001001

/-- `brk #0`. -/
def brkBase : U32 := 0xd4200000

/-- The opcode bits of a `brk`. -/
def brkMask : U32 := 0xffe0001f

/-- The immediate that marks a system call. -/
def syscallMarker : BitVec 16 := 0xa2

def brkEncode (imm : BitVec 16) : U32 :=
  brkBase ||| imm.setWidth 32 <<< 5

def isBrk (insn : U32) : Bool :=
  insn &&& brkMask = brkBase

def brkImm (insn : U32) : BitVec 16 :=
  (insn >>> 5).setWidth 16

/-- What the rewrite puts in the place of a word. -/
def divert (insn : U32) : U32 :=
  if insn = insnSvc then brkEncode syscallMarker else insn

/-! ## Traps -/

/-- What a trap is taken for. -/
inductive TrapEvent
  | syscall (imm : BitVec 16)
  | trampoline (addr : U64)
  | breakpoint (imm : BitVec 16)
  | fault
  deriving DecidableEq

/-- `trap_handler` : the event, and where the guest goes on. The trampolines come first, then
the immediate counts. -/
def trapHandler (tramp : U64 × U64) (accessFault : Bool) (pc : U64) (insn : U32) :
    TrapEvent × U64 :=
  if accessFault then (.fault, pc)
  else if tramp.1 ≤ pc ∧ pc < tramp.2 then (.trampoline pc, pc)
  else if isBrk insn then
    if brkImm insn = syscallMarker then (.syscall 0x80, pc + 4) else (.breakpoint (brkImm insn), pc)
  else (.fault, pc)

/-- The word in the place of a system call is taken for one, outside of the trampolines. -/
theorem trapHandler_divert {tramp : U64 × U64} {pc : U64} (hpc : ¬(tramp.1 ≤ pc ∧ pc < tramp.2)) :
    trapHandler tramp false pc (divert insnSvc) = (.syscall 0x80, pc + 4) := by
  have hbrk : isBrk (divert insnSvc) = true := by decide
  have himm : brkImm (divert insnSvc) = syscallMarker := by decide
  rw [trapHandler, if_neg Bool.false_ne_true, if_neg hpc, if_pos hbrk, if_pos himm]

/-! ## Words in the pages -/

/-- The pages hold the word `w` at `x`. -/
def HoldsWord (pages : Pages) (x : ℕ) (w : U32) : Prop :=
  ∀ i < 4, (toLeBytes32 w)[i]? = some (pages (x + i))

end Native

open Native

/-! ## The linked image -/

/-- The file is parsed, laid out, relocated and bound : the memory before anything is
published. -/
def Linked (p : Profile) (nativeProtect : NativeProtect) (os : Reservations) (cfg : MachineConfig)
    (bytes : List U8) (vfs : Sandbox) (image : MachOImage) (layout : LayoutConfig)
    (linked : GuestMemory) : Prop :=
  MachOImage.parse bytes = .ok image ∧ ∃ m₀ bases r,
    GuestMemory.new p cfg.heapBase cfg.heapSize = .ok () m₀ ∧
    layoutOf ⟨p, .android nativeProtect⟩ os cfg image (executablePath vfs) m₀ = .ok layout m₀ ∧
    bindImage p image bytes layout m₀ = .ok (bases, r) linked

/-- No aligned word of an executable region is a system call of Darwin : the words of the
linked image are there, and a `brk` that is taken for a system call in the place of every
call. -/
structure Diverted (linked m : GuestMemory) (pages : Pages) : Prop where
  no_svc : ∀ k r, m.regions.get? k = some r → r.prot.contains .exec = true → ∀ x : U64,
    x.toNat % 4 = 0 → k.toNat ≤ x.toNat → x.toNat + 4 ≤ k.toNat + r.data.size →
    ¬HoldsWord pages x.toNat insnSvc
  word_eq : ∀ k r, m.regions.get? k = some r → r.prot.contains .exec = true → ∀ x : U64,
    x.toNat % 4 = 0 → k.toNat ≤ x.toNat → x.toNat + 4 ≤ k.toNat + r.data.size → ∀ w,
    linked.flat.Reads x (toLeBytes32 w) → HoldsWord pages x.toNat (divert w)

/-- No aligned word of an executable segment of the linked image is a system call. -/
def SyscallFree (image : MachOImage) (bytes : List U8) (slide : U64) (linked : GuestMemory) :
    Prop :=
  ∀ seg, lastAt seg.vmaddr image.segments = some seg → (runProt seg).contains .exec = true →
    ∀ x : U64, x.toNat % 4 = 0 → (seg.vmaddr + slide).toNat ≤ x.toNat →
      x.toNat + 4 ≤ (seg.vmaddr + slide).toNat + (mappedSize bytes seg).toNat →
      ¬linked.flat.Reads x (toLeBytes32 insnSvc)

/-! ## What a build publishes -/

/-- No byte of the traps that fill the page of trampolines starts a system call. -/
theorem one_notMem_sled (n : ℕ) : (1 : U8) ∉ sled brk0 n := by
  intro hmem
  obtain ⟨word, hword, hone⟩ := List.mem_flatten.1 hmem
  rw [List.eq_of_mem_replicate hword] at hone
  exact absurd hone (by decide)

namespace Device

variable {p : Profile} {nativeProtect : NativeProtect} {image : MachOImage} {bytes : List U8}
  {cfg : LayoutConfig} {d d' : DeviceMemory} {proc : ProcessImage}

/-- The bytes of the linked image are still there when the protections are restored. -/
theorem DeviceStages.keepsBytes_guarded
    (s : DeviceStages p nativeProtect image bytes cfg d proc d') (hinv : d.mem.Inv) :
    KeepsBytes s.bound s.guarded := by
  obtain ⟨hinv₂, hkeep₂⟩ := publishStubs_keepsBytes (s.inv_bound hinv) s.publish_eq
  exact hkeep₂.trans (restoreProtections_keeps hinv₂ s.restore_eq).2

/-- The page of trampolines holds no system call. -/
theorem DeviceStages.stubs_ne_one (s : DeviceStages p nativeProtect image bytes cfg d proc d')
    (hinv : d.mem.Inv) (hused : (s.resolver.next - s.resolver.base).toNat ≤ 2 ^ 62) {sh : Shape}
    (hsh : s.stubbed.flat.layout cfg.trampolineBase = some sh) {x : ℕ}
    (hle : cfg.trampolineBase.toNat ≤ x) (hlt : x < cfg.trampolineBase.toNat + sh.size) :
    s.guarded.flat.byte x ≠ some 1 := by
  obtain ⟨-, -, size, hstop, -, hlay⟩ :=
    publishStubs_shape (s.inv_bound hinv) hused s.devPublish_eq
  obtain ⟨hinv₂, -, n, hstop', -, hfit, hreads⟩ :=
    publishStubs_keeps (s.inv_bound hinv) hused s.publish_eq
  have hsize : size.toNat = 4 * n := by
    rw [hstop] at hstop'
    rw [(BitVec.add_right_inj cfg.trampolineBase).1 hstop', BitVec.toNat_ofNat]
    omega
  dsimp only at hlay
  rw [hlay, Function.update_self] at hsh
  obtain rfl := Option.some.inj hsh
  dsimp only at hlt
  obtain ⟨i, rfl⟩ := Nat.exists_eq_add_of_le hle
  have hi : i < (sled brk0 n).length := by
    rw [length_sled]
    omega
  have hbyte := hreads i hi
  rw [List.getElem?_eq_getElem hi] at hbyte
  rw [(restoreProtections_keeps hinv₂ s.restore_eq).2 _ _ hbyte]
  intro hone
  exact one_notMem_sled n (Option.some.inj hone ▸ List.getElem_mem hi)

/-- The region of the last segment at its address, up to the restored protections. -/
theorem DeviceStages.bound_shape (s : DeviceStages p nativeProtect image bytes cfg d proc d')
    (hinv : d.mem.Inv) {a : U64} {seg : Segment} (hlast : lastAt a image.segments = some seg) :
    ∃ sh, s.bound.flat.layout (a + cfg.slide) = some sh ∧
      sh.size = (mappedSize bytes seg).toNat := by
  obtain ⟨r, hr, hreg⟩ := (get?_mapSegments s.map_eq a).1 seg hlast
  refine ⟨r.shape, ?_, hreg.size_eq⟩
  rw [s.layout_bound hinv]
  exact layout_flat_eq_some.2 ⟨r, hr, rfl⟩

/-- A segment that is not empty ends up with its own region and protection. -/
theorem DeviceStages.final_shape (s : DeviceStages p nativeProtect image bytes cfg d proc d')
    (hinv : d.mem.Inv) (hused : (s.resolver.next - s.resolver.base).toNat ≤ 2 ^ 62) {a : U64}
    {seg : Segment} (hlast : lastAt a image.segments = some seg)
    (hpos : 0 < (mappedSize bytes seg).toNat) :
    ∃ sh, d'.mem.flat.layout (a + cfg.slide) = some sh ∧
      sh.size = (mappedSize bytes seg).toNat ∧ sh.prot = runProt seg := by
  obtain ⟨sh, hsh, hsize⟩ := s.bound_shape hinv hlast
  obtain ⟨v, hv⟩ : ∃ v, s.bound.flat.byte (a + cfg.slide).toNat = some v := by
    obtain ⟨r, hr, rfl⟩ := layout_flat_eq_some.1 hsh
    have hlt : 0 < r.data.size := hpos.trans_eq hsize.symm
    rw [(s.inv_bound hinv).byte_flat hr le_rfl (by omega), Nat.sub_self]
    exact ⟨_, Buffer.get?_of_lt hlt⟩
  obtain ⟨-, -, size, -, hfree₂, hlay₂⟩ :=
    publishStubs_shape (s.inv_bound hinv) hused s.devPublish_eq
  obtain ⟨hinv₃, -, hguarded⟩ := s.guarded_shape hinv hused
  obtain ⟨-, -, hfree₃, hlay₃, -⟩ := initStack_shape hinv₃ s.devStack_eq
  dsimp only at hlay₂ hlay₃ hfree₂ hfree₃
  have hstubs : a + cfg.slide ≠ cfg.trampolineBase := fun hk => hfree₂ v (hk ▸ hv)
  have hstack : a + cfg.slide ≠ cfg.stackTop - cfg.stackSize := fun hk =>
    hfree₃ v (hk ▸ s.keepsBytes_guarded hinv _ v hv)
  obtain ⟨-, sh', hsh', hprot⟩ := (hguarded a).1 seg hlast
  rw [hlay₂, Function.update_of_ne hstubs, hsh] at hsh'
  obtain rfl := Option.some.inj hsh'
  refine ⟨{ sh with prot := runProt seg }, ?_, hsize, rfl⟩
  rw [hlay₃, Function.update_of_ne hstack, hprot]

/-- The pages of an executable region hold the words of the linked image. -/
theorem DeviceStages.holdsWord_of_reads
    (s : DeviceStages p nativeProtect image bytes cfg d proc d') (hinv : d.mem.Inv)
    (hused : (s.resolver.next - s.resolver.base).toNat ≤ 2 ^ 62)
    (hnone : ∀ k sh, d.mem.flat.layout k = some sh → sh.prot.contains .exec = false)
    {k x : U64} {sh : Shape} (hk : d'.mem.flat.layout k = some sh)
    (hexec : sh.prot.contains .exec = true) (hle : k.toNat ≤ x.toNat)
    (hend : x.toNat + 4 ≤ k.toNat + sh.size) {w : U32}
    (hreads : s.bound.flat.Reads x (toLeBytes32 w)) : HoldsWord d'.pages x.toNat w := by
  intro i hi
  have hi' : i < (toLeBytes32 w).length := hi
  have hbound := hreads i hi'
  rw [List.getElem?_eq_getElem hi'] at hbound ⊢
  rw [← s.keepsBytes_guarded hinv _ _ hbound]
  exact (s.exec_shape hinv hused hnone hk hexec).1 _ (by omega) (by omega)

/-- No executable region holds a system call if the linked image has none. -/
theorem DeviceStages.not_holdsWord_svc
    (s : DeviceStages p nativeProtect image bytes cfg d proc d') (hinv : d.mem.Inv)
    (hused : (s.resolver.next - s.resolver.base).toNat ≤ 2 ^ 62)
    (hnone : ∀ k sh, d.mem.flat.layout k = some sh → sh.prot.contains .exec = false)
    (hfree : SyscallFree image bytes cfg.slide s.bound) {k x : U64} {sh : Shape}
    (hk : d'.mem.flat.layout k = some sh) (hexec : sh.prot.contains .exec = true)
    (halign : x.toNat % 4 = 0) (hle : k.toNat ≤ x.toNat)
    (hend : x.toNat + 4 ≤ k.toNat + sh.size) : ¬HoldsWord d'.pages x.toNat insnSvc := by
  intro hsvc
  obtain ⟨hbyte, sh', hsh', hsize, hkind⟩ := s.exec_shape hinv hused hnone hk hexec
  by_cases hstub : k = cfg.trampolineBase
  · subst hstub
    refine s.stubs_ne_one hinv hused hsh' hle (by omega) ?_
    rw [hbyte x.toNat hle (by omega)]
    exact (hsvc 0 (by omega)).symm
  · obtain ⟨seg, hlast, hseg⟩ := hkind.resolve_left hstub
    obtain ⟨-, -, hvm⟩ := lastAt_eq_some hlast
    obtain ⟨sh₁, hsh₁, hsize₁⟩ := s.bound_shape hinv hlast
    obtain ⟨-, -, size, -, -, hlay₂⟩ :=
      publishStubs_shape (s.inv_bound hinv) hused s.devPublish_eq
    dsimp only at hlay₂
    rw [BitVec.sub_add_cancel] at hsh₁
    rw [hlay₂, Function.update_of_ne hstub, hsh₁] at hsh'
    obtain rfl := Option.some.inj hsh'
    have hkey : seg.vmaddr + cfg.slide = k := by
      rw [hvm, BitVec.sub_add_cancel]
    refine hfree seg (by rw [hvm]; exact hlast) hseg x halign (by rw [hkey]; exact hle)
      (by rw [hkey]; omega) fun i hi => ?_
    -- The word of the pages is that of the linked image, as all of its bytes are mapped.
    rw [length_toLeBytes32] at hi
    obtain ⟨r, hr, rfl⟩ := layout_flat_eq_some.1 hsh₁
    have hin : x.toNat + i < k.toNat + r.data.size := by
      have : r.shape.size = r.data.size := rfl
      omega
    have hbound := (s.inv_bound hinv).byte_flat hr (by omega) hin
    rw [Buffer.get?_of_lt (by omega)] at hbound
    have hguard := s.keepsBytes_guarded hinv _ _ hbound
    rw [hbyte _ (by omega) (by omega)] at hguard
    rw [hbound, hsvc i hi, hguard]

/-- A build diverts the system calls of the linked image exactly if there are none. -/
theorem DeviceStages.diverted_bound_iff
    (s : DeviceStages p nativeProtect image bytes cfg d proc d') (hinv : d.mem.Inv)
    (hstride : cfg.trampolineStride = 16)
    (hnone : ∀ k sh, d.mem.flat.layout k = some sh → sh.prot.contains .exec = false) :
    Diverted s.bound d'.mem d'.pages ↔ SyscallFree image bytes cfg.slide s.bound := by
  have hused := s.used_le hstride
  constructor
  · intro hdiv seg hlast hexec x halign hle hend hreads
    obtain ⟨sh, hsh, hsize, hprot⟩ := s.final_shape hinv hused hlast (by omega)
    obtain ⟨r, hr, rfl⟩ := layout_flat_eq_some.1 hsh
    have hexec' : r.shape.prot.contains .exec = true := by rw [hprot, hexec]
    rw [← hsize] at hend
    exact hdiv.no_svc _ r hr hexec' x halign hle hend
      (s.holdsWord_of_reads hinv hused hnone hsh hexec' hle hend hreads)
  · intro hfree
    have hno : ∀ k r, d'.mem.regions.get? k = some r → r.prot.contains .exec = true →
        ∀ x : U64, x.toNat % 4 = 0 → k.toNat ≤ x.toNat → x.toNat + 4 ≤ k.toNat + r.data.size →
        ¬HoldsWord d'.pages x.toNat insnSvc := fun k r hr hexec x halign hle hend =>
      s.not_holdsWord_svc hinv hused hnone hfree (layout_flat_eq_some.2 ⟨r, hr, rfl⟩) hexec
        halign hle hend
    refine ⟨hno, fun k r hr hexec x halign hle hend w hreads => ?_⟩
    have hword := s.holdsWord_of_reads hinv hused hnone (layout_flat_eq_some.2 ⟨r, hr, rfl⟩)
      hexec hle hend hreads
    have hne : w ≠ insnSvc := by
      rintro rfl
      exact hno k r hr hexec x halign hle hend hword
    rwa [divert, if_neg hne]

end Device

/-! ## Loading -/

section Load

variable {W : Type} {p : Profile} {nativeProtect : NativeProtect} {os : Reservations}
  {cfg : MachineConfig} {bytes : List U8} {vfs : Sandbox} {fs : HostFs} {world : W}
  {pages pages' : Pages} {mach : Machine W}

theorem exec_new {heapBase heapSize : U64} {m : GuestMemory}
    (h : GuestMemory.new p heapBase heapSize = .ok () m) (k : U64) (sh : Shape)
    (hk : m.flat.layout k = some sh) : sh.prot.contains .exec = false := by
  obtain ⟨size, -, hmap⟩ := Prog.ofChecked_bind_eq_ok.1 h
  rw [layout_of_map hmap, Function.update_apply] at hk
  split_ifs at hk
  · obtain rfl := Option.some.inj hk
    exact (by decide : Protection.rw.contains .exec = false)
  · cases hk

/-- A load on device goes through the linked image, and diverts its system calls exactly if
there are none. -/
theorem linked_of_load
    (h : Device.load p nativeProtect os cfg bytes vfs fs world pages = .ok (mach, pages') ()) :
    ∃ image layout linked, Linked p nativeProtect os cfg bytes vfs image layout linked ∧
      (Diverted linked mach.mem pages' ↔ SyscallFree image bytes layout.slide linked) := by
  obtain ⟨image, m₀, hparse, hnew, layout, m₁, proc, mem, hlayout, hproc, rfl⟩ :=
    Device.load_eq_ok.1 h
  obtain rfl := layoutOf_const.ok hlayout
  obtain ⟨s⟩ := Device.stages_of_buildProcess hproc
  exact ⟨image, layout, s.bound, ⟨hparse, m₀, _, _, hnew, hlayout, s.bindImage_eq⟩,
    s.diverted_bound_iff (inv_new hnew) (Machine.layoutOf_stride hlayout) (exec_new hnew)⟩

/-- The linked image is determined by the file. -/
theorem Linked.unique {image image' : MachOImage} {layout layout' : LayoutConfig}
    {linked linked' : GuestMemory}
    (h : Linked p nativeProtect os cfg bytes vfs image layout linked)
    (h' : Linked p nativeProtect os cfg bytes vfs image' layout' linked') :
    image = image' ∧ layout = layout' ∧ linked = linked' := by
  obtain ⟨hparse, m₀, bases, r, hnew, hlayout, hbind⟩ := h
  obtain ⟨hparse', m₀', bases', r', hnew', hlayout', hbind'⟩ := h'
  obtain rfl := Except.ok.inj (hparse.symm.trans hparse')
  obtain ⟨-, rfl⟩ := Outcome.ok.inj (hnew.symm.trans hnew')
  obtain ⟨rfl, -⟩ := Outcome.ok.inj (hlayout.symm.trans hlayout')
  obtain ⟨-, rfl⟩ := Outcome.ok.inj (hbind.symm.trans hbind')
  exact ⟨rfl, rfl, rfl⟩

end Load

/-- On device, the system calls of a process are diverted exactly if its linked image has none
in an executable segment. -/
theorem diverted_iff {W : Type} (p : Profile) (nativeProtect : NativeProtect) (os : Reservations)
    (cfg : MachineConfig) (bytes : List U8) (vfs : Sandbox) (fs : HostFs) (world : W)
    (pages pages' : Pages) (mach : Machine W)
    (h : Device.load p nativeProtect os cfg bytes vfs fs world pages = .ok (mach, pages') ()) :
    (∃ image layout linked, Linked p nativeProtect os cfg bytes vfs image layout linked) ∧
      ∀ image layout linked, Linked p nativeProtect os cfg bytes vfs image layout linked →
        (Diverted linked mach.mem pages' ↔ SyscallFree image bytes layout.slide linked) := by
  obtain ⟨image, layout, linked, hlinked, hiff⟩ := linked_of_load h
  refine ⟨⟨image, layout, linked, hlinked⟩, fun image' layout' linked' hlinked' => ?_⟩
  obtain ⟨rfl, rfl, rfl⟩ := hlinked.unique hlinked'
  exact hiff

/-! ## A file with one instruction -/

/-- A thin file with a segment `__TEXT` that ends in the word `insn`, at an aligned offset. -/
def insnFile (insn : ℕ) : List U8 :=
  leBytes 4 0xfeedfacf ++ leBytes 4 0x0100000c ++ leBytes 4 0 ++ leBytes 4 2 ++ leBytes 4 2 ++
    leBytes 4 96 ++ leBytes 4 0x200000 ++ leBytes 4 0 ++
    (leBytes 4 0x19 ++ leBytes 4 72 ++ leBytes 16 0x545845545f5f ++ leBytes 8 0x100000000 ++
      leBytes 8 0x4000 ++ leBytes 8 0 ++ leBytes 8 132 ++ leBytes 4 5 ++ leBytes 4 5 ++
      leBytes 4 0 ++ leBytes 4 0) ++
    (leBytes 4 0x80000028 ++ leBytes 4 24 ++ leBytes 8 128 ++ leBytes 8 0) ++ leBytes 4 insn

/-- Its segment. -/
def insnSegment : Segment :=
  ⟨"__TEXT", 0x100000000, 0x4000, 0, 132, .rx, .rx, []⟩

/-- Its image. -/
def insnImage : MachOImage :=
  { MachOImage.blank 0 2 0x200000 with
    segments := [insnSegment], entry := some (.main 128 0) }

/-- Reservations that leave the stack and the trampolines at their default places. -/
def insnReservations : Reservations :=
  ⟨0x7000000000, 0x500000000, 0x1bf800000⟩

/-- The pages that are reserved then. -/
def insnPages : Pages :=
  ((Pages.unreserved.mapRegion 0x7000000000 0x4000).mapRegion 0x500000000
    Machine.trampolineReserve).mapRegion 0x1bf800000 0x800000

/-- The layout for them. -/
def insnConfig : LayoutConfig :=
  { importConfig with slide := 0x6f00000000 }

theorem isDefault_insnConfig : insnConfig.IsDefault :=
  ⟨rfl, rfl, rfl, rfl⟩

theorem layoutOf_insnFile :
    layoutOf deviceBuild insnReservations .default insnImage (executablePath importSandbox)
      importMemory = .ok insnConfig importMemory := by
  have hargv : executablePath importSandbox =
      "/var/mobile/Applications/0/App.app/Executable" := by
    decide
  rw [hargv]
  rfl

set_option maxRecDepth 100000 in
/-- The file is built on a host, with one page of trampolines and a writable stack whose lowest byte
is zero. -/
theorem run_insnFile {insn : ℕ} (h : insn = 0xd4001001 ∨ insn = 0xd65f03c0) :
    MachOImage.parse (insnFile insn) = .ok insnImage ∧
      fileData (insnFile insn) insnSegment = insnFile insn ∧
      mappedSize (insnFile insn) insnSegment = 0x4000 ∧
      ((bindImage .release insnImage (insnFile insn) insnConfig >>= fun x =>
        publishPage deviceBuild insnConfig x.2 >>= fun stop =>
        finish deviceBuild insnImage (insnFile insn) insnConfig x.1 x.2 stop)
        importMemory).okAnd (fun proc m => decide (proc.trampolineEnd = 0x500004000 ∧
          m.flat.byte 0x1bf800000 = some 0 ∧ m.regionBase 0x1bf800000 = .ok 0x1bf800000 ∧
          (m.regions.get? 0x1bf800000).map (fun r => (r.prot, r.kind, r.data.size)) =
            some (.rw, .stack, 0x800000))) = true := by
  rcases h with rfl | rfl <;> decide

/-- The pages that are reserved have room for the file. -/
theorem roomy_insnFile {insn : ℕ} (h : insn = 0xd4001001 ∨ insn = 0xd65f03c0) :
    Device.Roomy insnPages insnImage (insnFile insn) insnConfig 0x500004000 := by
  have hsize := (run_insnFile h).2.2.1
  refine ⟨fun seg hseg _ => ?_, ?_, ?_⟩
  · obtain rfl := List.mem_singleton.1 hseg
    rw [hsize]
    exact ((Pages.writable_mapRegion _ _ _).mapRegion _ _).mapRegion _ _
  · refine Pages.Writable.mono ((Pages.writable_mapRegion _ _ _).mapRegion _ _) ?_
    decide
  · exact Pages.writable_mapRegion _ _ _

/-- The file is loaded on device; before anything is published, its bytes are in memory. -/
theorem load_insnFile {insn : ℕ} (h : insn = 0xd4001001 ∨ insn = 0xd65f03c0) :
    ∃ (mach : Machine ObjcRuntime) (proc : ProcessImage) (d' : DeviceMemory)
      (s : Device.DeviceStages .release (fun _ _ _ => 0) insnImage (insnFile insn) insnConfig
        ⟨importMemory, insnPages⟩ proc d') (stack : Region),
      Device.load .release (fun _ _ _ => 0) insnReservations .default (insnFile insn)
        importSandbox ⟨fun _ => none⟩ ObjcRuntime.new insnPages = .ok (mach, d'.pages) () ∧
      mach.mem = d'.mem ∧ Device.Settled insnPages d' ∧
      Linked .release (fun _ _ _ => 0) insnReservations .default (insnFile insn) importSandbox
        insnImage insnConfig s.bound ∧
      (∀ i < 0x4000, s.bound.flat.byte (0x7000000000 + i) = some ((insnFile insn).getD i 0)) ∧
      mach.mem.regionBase 0x1bf800000 = .ok 0x1bf800000 ∧
      mach.mem.regions.get? 0x1bf800000 = some stack ∧ stack.prot = .rw ∧ stack.kind = .stack ∧
      stack.data.size = 0x800000 ∧ mach.mem.flat.byte 0x1bf800000 = some 0 := by
  obtain ⟨hparse, hdata, hsize, hok⟩ := run_insnFile h
  obtain ⟨proc, mem, hrun, hstack⟩ := Outcome.okAnd_iff.1 hok
  obtain ⟨hend, hbyte, hbase, hregion⟩ := of_decide_eq_true hstack
  obtain ⟨stack, hr, hshape⟩ := Option.map_eq_some_iff.1 hregion
  simp only [Prod.mk.injEq] at hshape
  obtain ⟨hprot, hkind, hlen⟩ := hshape
  have hhost : buildProcess deviceBuild insnImage (insnFile insn) insnConfig importMemory =
      .ok proc mem :=
    buildProcess_of_page reachable_importMemory.inv isDefault_insnConfig.stride_eq rfl hrun
  have hfull : ∀ seg ∈ insnImage.segments, seg.name ≠ "__PAGEZERO" →
      mappedSize (insnFile insn) seg ≠ 0 := by
    intro seg hseg _
    obtain rfl := List.mem_singleton.1 hseg
    rw [hsize]
    decide
  obtain ⟨pages', hdev, hsettled⟩ := Device.buildProcess_of_roomy reachable_importMemory.inv
    isDefault_insnConfig.stride_eq (by decide) hfull (hend ▸ roomy_insnFile h) hhost
  obtain ⟨s⟩ := Device.stages_of_buildProcess hdev
  refine ⟨_, proc, ⟨mem, pages'⟩, s, stack, Device.load_eq_ok.2 ⟨insnImage, importMemory, hparse,
    rfl, insnConfig, importMemory, proc, mem, layoutOf_insnFile, hdev, rfl⟩, rfl, hsettled,
    ⟨hparse, importMemory, _, _, rfl, layoutOf_insnFile, s.bindImage_eq⟩, fun i hi => ?_,
    hbase, hr, hprot, hkind, hlen, hbyte⟩
  have hlast : lastAt insnSegment.vmaddr insnImage.segments = some insnSegment := rfl
  have hfree : 0x7000000000 + i ∉ touched .release insnImage (insnFile insn) insnConfig.slide := by
    rintro (⟨locs, rfl, loc, hloc, -⟩ | ⟨recs, rfl, rec, hrec, -⟩)
    · cases hloc
    · cases hrec
  have hbyte := s.byte_bound reachable_importMemory.inv hlast (by rw [hsize]; exact hi) hfree
  rw [hdata] at hbyte
  exact hbyte

set_option maxRecDepth 100000 in
/-- A file whose code returns at once has no system call, so nothing is missed. -/
theorem diverted_iff_insnFile :
    ∃ (mach : Machine ObjcRuntime) (pages' : Pages) (linked : GuestMemory),
      Device.load .release (fun _ _ _ => 0) insnReservations .default (insnFile 0xd65f03c0)
        importSandbox ⟨fun _ => none⟩ ObjcRuntime.new insnPages = .ok (mach, pages') () ∧
      Linked .release (fun _ _ _ => 0) insnReservations .default (insnFile 0xd65f03c0)
        importSandbox insnImage insnConfig linked ∧
      Diverted linked mach.mem pages' := by
  obtain ⟨mach, proc, d', s, -, hload, -, -, hlinked, hbytes, -⟩ := load_insnFile (Or.inr rfl)
  refine ⟨mach, d'.pages, s.bound, hload, hlinked,
    ((diverted_iff _ _ _ _ _ _ _ _ _ _ _ hload).2 _ _ _ hlinked).2 ?_⟩
  intro seg hlast _ x halign hle hend hreads
  obtain ⟨hseg, -⟩ := lastAt_eq_some hlast
  obtain rfl := List.mem_singleton.1 hseg
  rw [(run_insnFile (Or.inr rfl)).2.2.1] at hend
  change 0x7000000000 ≤ x.toNat at hle
  change x.toNat + 4 ≤ 0x7000000000 + 0x4000 at hend
  obtain ⟨i, hi⟩ := Nat.exists_eq_add_of_le hle
  have hfirst := (hbytes i (by omega)).symm.trans (hi ▸ hreads 0 (by decide))
  have hsecond := (hbytes (i + 1) (by omega)).symm.trans (hi ▸ hreads 1 (by decide))
  have hshort : ∀ i < 132, i % 4 = 0 → (insnFile 0xd65f03c0).getD i 0 = 0x01 →
      (insnFile 0xd65f03c0).getD (i + 1) 0 ≠ 0x10 := by decide
  rcases lt_or_ge i 132 with hlt | hge
  · exact hshort i hlt (by omega) (Option.some.inj hfirst) (Option.some.inj hsecond)
  · -- After the bytes of the file there are zeros.
    have hlen : (insnFile 0xd65f03c0).length ≤ i := hge
    rw [List.getD_eq_default _ _ hlen] at hfirst
    exact absurd hfirst (by decide)

/-- A file with a system call at `__TEXT + 0x80` is loaded, and the call is in the executable
pages. -/
theorem insnFile_keeps_svc :
    ∃ (mach : Machine ObjcRuntime) (pages' : Pages) (r : Region),
      Device.load .release (fun _ _ _ => 0) insnReservations .default (insnFile 0xd4001001)
        importSandbox ⟨fun _ => none⟩ ObjcRuntime.new insnPages = .ok (mach, pages') () ∧
      mach.mem.regions.get? 0x7000000000 = some r ∧ r.prot.contains .exec = true ∧
      r.data.size = 0x4000 ∧ HoldsWord pages' 0x7000000080 insnSvc := by
  obtain ⟨mach, proc, d', s, -, hload, hmem, -, -, hbytes, -⟩ := load_insnFile (Or.inl rfl)
  have hinv := reachable_importMemory.inv
  have hused := s.used_le rfl
  have hsize := (run_insnFile (Or.inl rfl)).2.2.1
  have hlast : lastAt insnSegment.vmaddr insnImage.segments = some insnSegment := rfl
  obtain ⟨sh, hsh, hsize', hprot⟩ := s.final_shape hinv hused hlast (by rw [hsize]; decide)
  obtain ⟨r, hr, rfl⟩ := layout_flat_eq_some.1 hsh
  have hexec : r.prot.contains .exec = true := by
    rw [show r.prot = .rx from hprot]
    decide
  rw [hsize] at hsize'
  refine ⟨mach, d'.pages, r, hload, by rw [hmem]; exact hr, hexec, hsize', ?_⟩
  have hnew : GuestMemory.new .release 0x120000000 0x4000000 = .ok () importMemory := rfl
  refine s.holdsWord_of_reads (x := 0x7000000080) hinv hused (exec_new hnew) hsh hexec ?_ ?_ ?_
  · decide
  · rw [hsize']
    decide
  · intro i hi
    have hi4 : i < 4 := hi
    have hbyte := hbytes (0x80 + i) (by omega)
    rw [← Nat.add_assoc] at hbyte
    refine hbyte.trans ?_
    have hword : ∀ i < 4, some ((insnFile 0xd4001001).getD (0x80 + i) 0) =
        (toLeBytes32 insnSvc)[i]? := by decide
    exact hword i hi4

end IosEmu
