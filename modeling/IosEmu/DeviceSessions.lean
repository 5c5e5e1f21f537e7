import IosEmu.Coherence
import IosEmu.RefineOn

/-!
# Sessions on device

On device the guest runs in the native pages, and the services work on the buffers. Nothing is
copied back : what the guest stores in its pages is not seen by any service. So a session on device,
from the bytes of the executable through any sequence of legs, does what the services alone do to a
process of the same file that has no pages at all, unless a copy into pages that cannot be stored
faults (`device_session`).
-/

namespace SysLib

namespace Outcome

variable {ε π σ τ α β : Type}

/-- The state that a run goes on from. There is none after a panic. -/
def settled : Outcome ε π σ α → Except π σ
  | ok _ s => .ok s
  | err _ s => .ok s
  | panic e => .error e

theorem settled_mapState (view : τ → σ) (o : Outcome ε π τ α) :
    (o.mapState view).settled = o.settled.map view := by
  cases o <;> rfl

theorem settled_of_state? {o : Outcome ε π σ α} {s : σ} (h : o.state? = some s) :
    o.settled = .ok s := by
  cases o with
  | ok a t => exact congrArg Except.ok (Option.some.inj h)
  | err e t => exact congrArg Except.ok (Option.some.inj h)
  | panic e => cases h

/-- Go on with the value, unless there is none. -/
def andThen (o : Outcome ε π Unit α) (f : α → Except π β) : Outcome ε π Unit β :=
  match o with
  | ok a _ =>
    match f a with
    | .ok b => ok b ()
    | .error e => panic e
  | err e _ => err e ()
  | panic e => panic e

/-- What is the same through two views, unless it is lost, stays so. -/
theorem mapValue_andThen {α' β' : Type} {lost : π} {view : α → α'} {view' : β → β'}
    {o : Outcome ε π Unit α} {o' : Outcome ε π Unit α'} {f : α → Except π β}
    {f' : α' → Except π β'} (ho : o = .panic lost ∨ o.mapValue view = o')
    (hf : ∀ a, f a = .error lost ∨ (f a).map view' = f' (view a)) :
    o.andThen f = .panic lost ∨ (o.andThen f).mapValue view' = o'.andThen f' := by
  rcases ho with rfl | rfl
  · exact Or.inl rfl
  rcases o with ⟨a, u⟩ | ⟨e, u⟩ | e
  · dsimp only [andThen, mapValue]
    rcases hf a with hlost | hfa
    · rw [hlost]
      exact Or.inl rfl
    · rw [← hfa]
      rcases f a with e | b
      · exact Or.inr rfl
      · exact Or.inr rfl
  · exact Or.inr rfl
  · exact Or.inr rfl

end Outcome

end SysLib

open SysLib

namespace IosEmu

open Prog Frameworks

/-- Seen through the buffers, loading on device is loading, unless a copy faults. -/
theorem Device.mapValue_load {W : Type} (p : Profile) (nativeProtect : NativeProtect)
    (os : Reservations) (cfg : MachineConfig) (bytes : List U8) (vfs : Sandbox) (fs : HostFs)
    (world : W) (pages : Pages) :
    load p nativeProtect os cfg bytes vfs fs world pages = .panic .nativeFault ∨
      (load p nativeProtect os cfg bytes vfs fs world pages).mapValue Prod.fst =
        Machine.load ⟨p, .android nativeProtect⟩ os cfg bytes vfs fs world := by
  unfold load Machine.load
  rcases MachOImage.parse bytes with e | image
  · exact Or.inr rfl
  dsimp only
  rcases GuestMemory.new p cfg.heapBase cfg.heapSize with ⟨⟨⟩, mem⟩ | ⟨e, mem⟩ | e
  · have hlayout : RefinesMem _ _ := (refines_onHost (layoutOf ⟨p, .android nativeProtect⟩ os cfg
      image (executablePath vfs))).unless
    have hbuild := hlayout.bind fun layout => refines_buildProcess p nativeProtect image bytes
      layout
    dsimp only
    rcases hbuild ⟨mem, pages⟩ with hlost | hbuild
    · rw [hlost]
      exact Or.inl rfl
    · rw [← hbuild]
      right
      rcases (onHost (layoutOf ⟨p, .android nativeProtect⟩ os cfg image (executablePath vfs)) >>=
        fun layout => buildProcess p nativeProtect image bytes layout) ⟨mem, pages⟩ with
        ⟨proc, d⟩ | ⟨e, d⟩ | e <;> rfl
  · exact Or.inr rfl
  · exact Or.inr rfl

/-- Services one after the other, and the panic that ends them. -/
def serveAll (b : Build) : List Service → Machine ObjcRuntime → Except Panic (Machine ObjcRuntime)
  | [], mach => .ok mach
  | s :: l, mach => (s.run b mach).settled.bind (serveAll b l)

/-- Legs one after the other, and the panic that ends them. -/
def runLegs (p : Profile) (nativeProtect : NativeProtect) :
    List Leg → DeviceMachine ObjcRuntime → Except Panic (DeviceMachine ObjcRuntime)
  | [], d => .ok d
  | leg :: l, d =>
    (Device.turn nativeProtect (leg.service.host ⟨p, .android nativeProtect⟩) (hleEnvironment p)
      leg.service.event (leg.reach d)).settled.bind (runLegs p nativeProtect l)

/-- A session of services : the process is loaded, and they run. -/
def Machine.session (b : Build) (os : Reservations) (cfg : MachineConfig) (bytes : List U8)
    (vfs : Sandbox) (fs : HostFs) (world : ObjcRuntime) (l : List Service) :
    Outcome EmuError Panic Unit (Machine ObjcRuntime) :=
  (load b os cfg bytes vfs fs world).andThen (serveAll b l)

/-- A session on device : the process is loaded in the pages that are reserved, and its legs run. -/
def Device.session (p : Profile) (nativeProtect : NativeProtect) (os : Reservations)
    (cfg : MachineConfig) (bytes : List U8) (vfs : Sandbox) (fs : HostFs) (world : ObjcRuntime)
    (pages : Pages) (l : List Leg) : Outcome EmuError Panic Unit (DeviceMachine ObjcRuntime) :=
  (load p nativeProtect os cfg bytes vfs fs world pages).andThen fun (mach, pages) =>
    runLegs p nativeProtect l ⟨mach, pages⟩

section Sessions

variable {p : Profile} {nativeProtect : NativeProtect}

theorem mach_of_leg (leg : Leg) (d : DeviceMachine ObjcRuntime) :
    (Device.turn nativeProtect (leg.service.host ⟨p, .android nativeProtect⟩) (hleEnvironment p)
        leg.service.event (leg.reach d)).settled = .error .nativeFault ∨
      (Device.turn nativeProtect (leg.service.host ⟨p, .android nativeProtect⟩) (hleEnvironment p)
        leg.service.event (leg.reach d)).settled.map DeviceMachine.mach =
        (leg.service.run ⟨p, .android nativeProtect⟩ d.mach).settled := by
  rcases Device.refines_turn
    (show (leg.service.host ⟨p, .android nativeProtect⟩).build.target = .android nativeProtect
      from rfl) (hleEnvironment p) leg.service.event (leg.reach d) with hlost | hturn
  · rw [hlost]
    exact Or.inl rfl
  · refine Or.inr ?_
    rw [← Outcome.settled_mapState]
    exact congrArg Outcome.settled hturn

/-- Legs do what their services do, unless a copy faults. -/
theorem mach_of_legs (l : List Leg) (d : DeviceMachine ObjcRuntime) :
    runLegs p nativeProtect l d = .error .nativeFault ∨
      (runLegs p nativeProtect l d).map DeviceMachine.mach =
        serveAll ⟨p, .android nativeProtect⟩ (l.map Leg.service) d.mach := by
  induction l generalizing d with
  | nil => exact Or.inr rfl
  | cons leg l ih =>
    rw [List.map_cons, serveAll, runLegs]
    rcases @mach_of_leg p nativeProtect leg d with hlost | hleg
    · rw [hlost]
      exact Or.inl rfl
    · rw [← hleg]
      rcases (Device.turn nativeProtect (leg.service.host ⟨p, .android nativeProtect⟩)
        (hleEnvironment p) leg.service.event (leg.reach d)).settled with e | d₁
      · exact Or.inr rfl
      · exact ih d₁

end Sessions

/-- A session on device in which no copy faults ends as its services do on a process without
pages : what the guest stores in its pages is seen by none of them. -/
theorem device_session (p : Profile) (nativeProtect : NativeProtect) (os : Reservations)
    (cfg : MachineConfig) (bytes : List U8) (vfs : Sandbox) (fs : HostFs) (world : ObjcRuntime)
    (pages : Pages) (l : List Leg)
    (hfault : Device.session p nativeProtect os cfg bytes vfs fs world pages l ≠
      .panic .nativeFault) :
    (Device.session p nativeProtect os cfg bytes vfs fs world pages l).mapValue
        DeviceMachine.mach =
      Machine.session ⟨p, .android nativeProtect⟩ os cfg bytes vfs fs world
        (l.map Leg.service) := by
  have hload := Device.mapValue_load p nativeProtect os cfg bytes vfs fs world pages
  exact (Outcome.mapValue_andThen hload fun (mach, pages') =>
    mach_of_legs l ⟨mach, pages'⟩).resolve_left hfault

/-- The guest of the file with a lazy import pushes a one, and the binder finds the zero that was
there before. -/
theorem device_session_binderFile :
    ∃ d : DeviceMachine ObjcRuntime,
      Device.session .release (fun _ _ _ => 0) insnReservations .default binderFile importSandbox
        ⟨fun _ => none⟩ ObjcRuntime.new insnPages [binderLeg 1] = .ok d () ∧
      Machine.session deviceBuild insnReservations .default binderFile importSandbox
        ⟨fun _ => none⟩ ObjcRuntime.new [(binderLeg 1).service] = .ok d.mach () := by
  obtain ⟨loaded, hload, hfinds, hsettled⟩ := load_binderFile
  obtain ⟨hinv, -⟩ := holdsLatest_of_load stackRoom_insnReservations hload
  obtain ⟨d, hd⟩ := run_binderLeg 1 hinv hfinds hsettled
  have hsession : Device.session .release (fun _ _ _ => 0) insnReservations .default binderFile
      importSandbox ⟨fun _ => none⟩ ObjcRuntime.new insnPages [binderLeg 1] = .ok d () := by
    unfold Device.session
    rw [hload]
    dsimp only [Outcome.andThen]
    rw [runLegs, Outcome.settled_of_state? hd]
    rfl
  refine ⟨d, hsession, ?_⟩
  have hsame := device_session .release (fun _ _ _ => 0) insnReservations .default binderFile
    importSandbox ⟨fun _ => none⟩ ObjcRuntime.new insnPages [binderLeg 1]
    (by rw [hsession]; rintro ⟨⟩)
  rw [hsession] at hsame
  exact hsame.symm

end IosEmu
