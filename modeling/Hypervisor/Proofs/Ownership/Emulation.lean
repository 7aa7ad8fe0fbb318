import Hypervisor.Proofs.Emulation
import Hypervisor.Proofs.Ownership.Preserved
import Hypervisor.Proofs.Ownership.Undisturbed
import Hypervisor.Proofs.Turns

/-!
# The extended-feature register over whole runs

The value of the register is in a page of the guest, which no table maps, and its mode is in a control
block that only its own runs write to.  So between two exits of the guest neither changes, whatever the
cpu it is on and whatever other guests do meanwhile.
-/

namespace Hypervisor

namespace HandledExit

/-- What the guest writes to the extended-feature register, if it has stopped for that. -/
def written? (x : HandledExit) : Option UInt64 :=
  if x.reason = .fromGuest (.code .wrmsr) ∧ x.before.context.regs.rcx.toUInt32 = MsrIndex.efer then
    some x.before.context.regs.edxEax
  else none

/-- The last value that was written to the register, of exits from the last one on, or zero. -/
def lastWritten (xs : List HandledExit) : UInt64 := (xs.findSome? written?).getD 0

theorem lastWritten_cons (x : HandledExit) (xs : List HandledExit) :
    lastWritten (x :: xs) = x.written?.getD (lastWritten xs) := by
  rw [lastWritten, List.findSome?_cons]
  cases x.written? with
  | none => rfl
  | some w => rfl

end HandledExit

/-- The register is listed with a value of the host and one of the guest, and the entry controls are
`controls`, but for the mode of the guest, which agrees with its value. -/
structure Guest.Emulates (g : Guest) (p : Platform) (host controls value : UInt64) : Prop where
  host : p.memory.listed? g.hostMsrArea g.msrCount .efer = some host
  guest : p.memory.listed? g.guestMsrArea g.msrCount .efer = some value
  modes : (p.blocks.block g.block).Modes controls value

theorem Guest.Coherent.emulates {g : Guest} {p : Platform} {host controls value : UInt64}
    (h : g.Coherent p host controls value) : g.Emulates p host controls value :=
  ⟨h.switches.listed_host, h.switches.listed_guest, h.modes⟩

namespace Session

open Hypervisor.Action Memory

variable {g : Guest} {root : Hpa} {r : Option Hpa} {K : Memory → Prop} {e : Estate} {s₀ s : Session}
  {host controls value : UInt64} {reason : ExitReason}

theorem Detached.arrive {I : Session → Prop} {F : Panic → Session → Prop} (hI : Detached g I F) :
    Session.arrive.Upholds I F := by
  have hprepare : prepareRun.Upholds I F := fun s hs =>
    Ends.mono (hI.runnable.prepareRun_ends hs) (fun _ _ h => h) (fun _ _ h => h.elim (fun h => h.1) id)
      fun _ _ h => h
  refine Upholds.bind hprepare fun _ => Upholds.bind hI.enter fun _ => ?_
  exact Upholds.bind (hI.alert.sayOnCpu _ _) fun _ => Upholds.pure

/-- The handler of an exit keeps the register coherent, and changes its value only if the guest has
written to it. -/
theorem Stopped.dispatch_ends (hs : s.host.memory.Fits → Stopped host controls value s₀ s)
    (hg : s.guest.Lodged root e False)
    (howned : s.host.memory.Fits → s.host.memory.Owned e False) :
    (dispatch reason).Ends s
      (fun r t => r = .continued → t.host.memory.Fits → t.guest.runs ≠ 0 ∧
        t.guest.Coherent t.host.toPlatform host controls
          ((HandledExit.mk reason s t).written?.getD value))
      (fun _ _ => True) fun _ _ => True := by
  have hkept : ∀ ps : Set Hpa, s.Bears s.guest s.host.cpu.region (s.host.memory.Preserves ps e) :=
    fun ps => ⟨.refl _, rfl, fun hf => .refl hf (howned hf)⟩
  by_cases hf : s.host.memory.Fits
  · obtain ⟨-, hon, hruns, hcoherent⟩ := hs hf
    have hframed := dispatch_frames hon reason
    have hcounted : ∀ {t}, Framed reason s t → t.guest.runs ≠ 0 := by
      intro t ht
      obtain ⟨i, w, hdevices⟩ := s.devices_eq reason
      rw [ht.guest, hdevices]
      exact hruns
    by_cases hwrmsr : reason = .fromGuest (.code .wrmsr)
    · subst hwrmsr
      refine Ends.mono (hframed.and (handleWrmsr_coherent hcoherent hon)) ?_ (fun _ _ _ => trivial)
        fun _ _ _ => trivial
      rintro r t ⟨ht, hmsr, hwritten⟩ hr -
      rw [HandledExit.written?, if_pos ⟨rfl, hmsr⟩]
      exact ⟨hcounted (ht hr), hwritten⟩
    · have hpage : s.guest.msrPage ∈ s.guest.ownPages := List.mem_cons_of_mem _ List.mem_cons_self
      have hvisited : s.guest.Visited root (s.host.memory.Preserves {p | p ∈ s.guest.ownPages} e) :=
        hg.visited_preserves hg.own
      refine Ends.mono (hframed.and ((bears_roused hvisited).dispatch hwrmsr s (hkept _))) ?_
        (fun _ _ _ => trivial) fun _ _ _ => trivial
      rintro r t ⟨ht, -, -, hmemory⟩ hr hfits
      obtain ⟨-, ⟨a, hm⟩, hwords⟩ := hmemory hfits
      rw [HandledExit.written?, if_neg fun h => hwrmsr h.1]
      exact ⟨hcounted (ht hr),
        (ht hr).coherent hwrmsr hcoherent (hm.other_live (hg.own _ hpage)) (hwords _ hpage)⟩
  · have hhoused : s.guest.Housed root (s.host.memory.Preserves ∅ e) :=
      hg.housed_preserves (fun _ h => absurd h (Set.notMem_empty _)) fun _ _ _ _ => Set.notMem_empty _
    refine Ends.mono ((bears_detached hhoused).alert.dispatch reason s (hkept _)) ?_
      (fun _ _ _ => trivial) fun _ _ _ => trivial
    exact fun _ _ ht _ hfits => absurd (ht.2.2 hfits).fits hf

structure Dozes (s₀ s : Session) : Prop where
  same : s₀.guest.Same s.guest
  runs : s.guest.runs = s₀.guest.runs
  count : s.guest.msrCount = s₀.guest.msrCount
  memory : s.host.memory = s₀.host.memory
  fields : ∀ p f, (s.host.blocks.block p).read f = (s₀.host.blocks.block p).read f

theorem deactivate_dozes (s : Session) : deactivate.Ends s (fun _ t => Dozes s t)
    (fun _ t => Dozes s t) fun _ _ => True := by
  refine deactivate_ends ⟨⟨rfl, rfl, rfl, rfl, rfl, rfl⟩, rfl, rfl, rfl, fun p f => ?_⟩
    fun _ _ => ⟨.refl _, rfl, rfl, rfl, fun _ _ => rfl⟩
  by_cases hp : s.guest.block = p
  · subst hp
    exact congrArg (·.read f) (ControlBlocks.block_update _ _ _)
  · exact congrArg (·.read f) (ControlBlocks.block_update_of_ne _ _ hp)

end Session

namespace Guest

variable {g g' : Guest} {p p' : Platform} {value : UInt64} {o : Option Cpu}

/-- Between its runs the register of a guest is coherent, from its first run on.  The value of the host
and the controls are those of the cpu that the guest first ran on, if it has run. -/
def Settled (g : Guest) (p : Platform) (value : UInt64) : Option Cpu → Prop
  | none => g.runs = 0 ∧ value = 0
  | some c => p.memory.Fits → g.runs ≠ 0 ∧
      g.Coherent p (c.processor.rdmsr .efer) (Session.firstControls c) value

/-- Neither the guest nor its page nor its controls have changed. -/
theorem Settled.step (h : g.Settled p value o) (hsame : g.Same g') (hruns : g'.runs = g.runs)
    (hcount : g'.msrCount = g.msrCount)
    (hkept : p'.memory.Fits → p.memory.Fits ∧
      (g.msrPage ∈ p.memory.pages → g.msrPage ∈ p'.memory.pages) ∧
      p'.memory.words g.msrPage = p.memory.words g.msrPage ∧
        (p'.blocks.block g.block).read .vmentryControls =
          (p.blocks.block g.block).read .vmentryControls) : g'.Settled p' value o := by
  cases o with
  | none => exact ⟨hruns.trans h.1, h.2⟩
  | some c =>
      intro hf
      obtain ⟨hfits, hlive, hwords, hread⟩ := hkept hf
      obtain ⟨hran, hcoherent⟩ := h hfits
      refine ⟨hruns ▸ hran, ⟨hcount.trans hcoherent.switches.count, ?_, ?_, ?_⟩, ?_⟩
      · rw [hsame.msrPage]
        exact hlive hcoherent.switches.live
      · rw [hsame.msrPage]
        exact hcoherent.switches.aligned
      · rw [hsame.msrPage, hwords]
        exact hcoherent.switches.lists
      · rw [hsame.block]
        exact hcoherent.modes.congr hread

end Guest

/-- Another guest runs, a guest is taken off a cpu, or what the processors will do is prepared. -/
def Command.Aside (j : Nat) (c : Command) : Prop :=
  match c.order with
  | .run => c.vm ≠ j
  | .deactivate | .script _ | .inject _ | .clearFaults => True
  | _ => False

namespace Machine

open Hypervisor.Action Memory

/-- The guest `v` with the index `j` is run on the cpu `c` with the index `i`, and stops for `reason` in
the session `s`.  No exit that the processor has to play writes to the entry controls. -/
structure Stops (m : Machine) (i j : Nat) (c : Cpu) (v : Vm) (reason : ExitReason) (s : Session) :
    Prop where
  cpu : m.cpus[i]? = some c
  vm : m.vms[j]? = some (some v)
  leaves : ∀ e ∈ c.processor.script, e.Leaves [.vmentryControls]
  arrived : Session.arrive.run ⟨m.host c, v.guest, v.context⟩ = .ok reason s

/-- The guest stops, its exit is handled, and the run leads to `m'`. -/
structure Handles (m : Machine) (i j : Nat) (c : Cpu) (v : Vm) (x : HandledExit) (m' : Machine) : Prop
    extends Stops m i j c v x.reason x.before where
  handled : (Session.dispatch x.reason).run x.before = .ok .continued x.after
  ran : ∃ a, (perform { cpu := i, vm := j, order := .run }).run m = .ok a m'

/-- The guest with the index `j` has had the exits `xs`, the last one first, since it was built in a
history of lawful commands, and other guests have run meanwhile.  If it has run, it first did so on the
cpu `o`. -/
inductive Life (j : Nat) (k : Callers) : Option Cpu → List HandledExit → Machine → Prop
  | ready {m : Machine} {v : Vm} (before : History Command.Lawful m k)
      (vm : m.vms[j]? = some (some v)) (new : v.guest.runs = 0) : Life j k none [] m
  | exit {o : Option Cpu} {xs : List HandledExit} {m m' : Machine} {i : Nat} {c : Cpu} {v : Vm}
      {x : HandledExit} (before : Life j k o xs m) (step : m.Handles i j c v x m') :
      Life j k (some (o.getD c)) (x :: xs) m'
  | aside {o : Option Cpu} {xs : List HandledExit} {m m' : Machine} {c : Command} {a : Answer}
      (before : Life j k o xs m) (allowed : c.Aside j) (run : (perform c).run m = .ok a m') :
      Life j k o xs m'
  | failed {o : Option Cpu} {xs : List HandledExit} {m m' : Machine} {c : Command} {e : VmError}
      (before : Life j k o xs m) (allowed : c.Aside j)
      (run : (perform c).run m = .error (.error e) m') : Life j k o xs m'

def Settles (j : Nat) (o : Option Cpu) (value : UInt64) (m : Machine) : Prop :=
  ∃ v, m.vms[j]? = some (some v) ∧ v.guest.Settled m.toPlatform value o

structure Attends (j : Nat) (k : Callers) (o : Option Cpu) (value : UInt64) (m : Machine) : Prop where
  orderly : m.Orderly k False
  settles : m.Settles j o value

variable {m m' : Machine} {i j : Nat} {k : Callers} {o : Option Cpu} {xs : List HandledExit} {c : Cpu}
  {v w : Vm} {x : HandledExit} {reason : ExitReason} {s : Session} {value : UInt64}

theorem Stops.bears (h : m.Stops i j c v reason s) (hk : m.Orderly k False) :
    s.Bears v.guest c.region (m.memory.Preserves ∅ (m.estate k)) := by
  obtain ⟨r, hg⟩ := hk.lodged h.vm
  have hhoused : v.guest.Housed r (m.memory.Preserves ∅ (m.estate k)) :=
    hg.housed_preserves (fun _ h => absurd h (Set.notMem_empty _)) fun _ _ _ _ => Set.notMem_empty _
  have hbears : Session.Bears v.guest c.region (m.memory.Preserves ∅ (m.estate k))
      ⟨m.host c, v.guest, v.context⟩ := ⟨.refl _, rfl, fun hf => .refl hf (hk.owned hf)⟩
  exact ((Session.bears_detached hhoused).arrive _ hbears).ok h.arrived

/-- At every exit the register is coherent. -/
theorem Stops.stopped (h : m.Stops i j c v reason s) (hk : m.Orderly k False)
    (hv : v.guest.Settled m.toPlatform value o) (hf : s.host.memory.Fits) :
    Session.Stopped ((o.getD c).processor.rdmsr .efer) (Session.firstControls (o.getD c)) value
      ⟨m.host c, v.guest, v.context⟩ s := by
  have hfits : m.memory.Fits := ((h.bears hk).2.2 hf).fits
  obtain ⟨a, hm⟩ := hk.owned hfits
  obtain ⟨r, hg⟩ := hk.lodged h.vm
  have hpage : v.guest.msrPage ∈ v.guest.ownPages := List.mem_cons_of_mem _ List.mem_cons_self
  cases o with
  | none =>
      obtain ⟨hnew, rfl⟩ := hv
      exact (Session.arrive_first h.leaves hnew
        (hm.balanced.page (hm.other_live (hg.own _ hpage))).1).ok h.arrived
  | some c₀ =>
      obtain ⟨hruns, hcoherent⟩ := hv hfits
      exact (Session.arrive_next h.leaves hruns ⟨hcoherent.switches, hcoherent.modes⟩).ok h.arrived

theorem Handles.eq (h : m.Handles i j c v x m') : m' = m.withSession i j x.after.yielded := by
  have honce : Session.runOnce.run ⟨m.host c, v.guest, v.context⟩ = .ok .continued x.after := by
    rw [Session.runOnce_eq_arrive, EStateM.run_bind, h.arrived]
    exact h.handled
  have hsession : Session.run.Ends ⟨m.host c, v.guest, v.context⟩ (fun _ t => t = x.after.yielded)
      (fun _ _ => True) fun _ _ => True := by
    rw [Session.run, ends_bind, ends_attempt]
    exact (ends_ok honce).2 rfl
  have hperform : (perform { cpu := i, vm := j, order := .run }).Ends m
      (fun _ m' => m' = m.withSession i j x.after.yielded) (fun _ _ => True) fun _ _ => True := by
    rw [perform, ends_bind]
    exact onSession_ends_of h.cpu h.vm (Ends.mono hsession (fun _ t ht => congrArg _ ht)
      (fun _ _ h => h) fun _ _ h => h)
  obtain ⟨a, hran⟩ := h.ran
  exact hperform.ok hran

theorem Attends.exit (h : m.Attends j k o value) (hx : m.Handles i j c v x m') :
    m'.Attends j k (some (o.getD c)) (x.written?.getD value) := by
  obtain ⟨w, hw, hsettled⟩ := h.settles
  obtain rfl : w = v := Option.some.inj (Option.some.inj (hw.symm.trans hx.vm))
  have hbears := hx.toStops.bears h.orderly
  obtain ⟨r, hg⟩ := h.orderly.lodged hx.vm
  have hdispatched := (Session.Stopped.dispatch_ends (hx.toStops.stopped h.orderly hsettled)
    (hg.of_same hbears.1) fun hf => (hbears.2.2 hf).owned).ok hx.handled rfl
  obtain ⟨a, hran⟩ := hx.ran
  have hkeeps := perform_keeps (c := { cpu := i, vm := j, order := .run }) h.orderly trivial False.elim
  refine ⟨hkeeps.ok hran, ?_⟩
  rw [hx.eq]
  refine ⟨_, vms_withSession_self hx.vm, fun hf => ?_⟩
  obtain ⟨hruns, hcoherent⟩ := hdispatched hf
  exact ⟨hruns, hcoherent.switches, hcoherent.modes⟩

/-- The run of another guest writes neither to the pages of this one nor to its block. -/
theorem Attends.run_other (h : m.Attends j k o value) (hne : i ≠ j) (cpu : Nat) :
    (onSession cpu i Session.run).Ends m (fun _ m' => m'.Settles j o value)
      (fun _ m' => m'.Settles j o value) fun _ _ => True := by
  obtain ⟨w, hw, hsettled⟩ := h.settles
  refine onSession_ends ⟨w, hw, hsettled⟩ fun c v hc hv => ?_
  obtain ⟨r, hg⟩ := h.orderly.lodged hv
  obtain ⟨r', hg'⟩ := h.orderly.lodged hw
  have hpage : w.guest.msrPage ∈ w.guest.ownPages := List.mem_cons_of_mem _ List.mem_cons_self
  have hhoused : v.guest.Housed r
      (m.memory.Preserves {p | p ∈ w.guest.ownPages} (m.estate k)) :=
    hg.housed_preserves hg'.own fun _ howned => h.orderly.ownPages_disjoint hv hw hne howned
  have hback : ∀ {s : Session}, s.Bears v.guest c.region
      (m.memory.Preserves {p | p ∈ w.guest.ownPages} (m.estate k)) →
        Session.Confined ⟨m.host c, v.guest, v.context⟩ s →
          (m.withSession cpu i s).Settles j o value := by
    intro s hbears hconfined
    refine ⟨w, (Array.getElem?_setIfInBounds_ne hne).trans hw,
      hsettled.step (.refl _) rfl rfl fun hf => ?_⟩
    obtain ⟨hfits, ⟨a, hm⟩, hwords⟩ := hbears.2.2 hf
    refine ⟨hfits, fun _ => hm.other_live (hg'.own _ hpage), hwords _ hpage, ?_⟩
    refine congrArg (·.read .vmentryControls) (hconfined.others w.guest.block fun heq => ?_)
    refine h.orderly.ownPages_disjoint hv hw hne (h.orderly.owned hfits) v.guest.block
      List.mem_cons_self ?_
    exact heq ▸ List.mem_cons_self
  have hstart : Session.Bears v.guest c.region
      (m.memory.Preserves {p | p ∈ w.guest.ownPages} (m.estate k))
      ⟨m.host c, v.guest, v.context⟩ := ⟨.refl _, rfl, fun hf => .refl hf (h.orderly.owned hf)⟩
  exact Ends.mono ((Session.run_bears hhoused _ hstart).and (Session.run_confined _ (.refl _)))
    (fun _ _ ht => hback ht.1 ht.2) (fun _ _ ht => hback ht.1 ht.2) fun _ _ _ => trivial

theorem Settles.deactivate (h : m.Settles j o value) (cpu i : Nat) :
    (onSession cpu i Session.deactivate).Ends m (fun _ m' => m'.Settles j o value)
      (fun _ m' => m'.Settles j o value) fun _ _ => True := by
  obtain ⟨w, hw, hsettled⟩ := h
  refine onSession_ends ⟨w, hw, hsettled⟩ fun c v hc hv => ?_
  have hback : ∀ {s : Session}, Session.Dozes ⟨m.host c, v.guest, v.context⟩ s →
      (m.withSession cpu i s).Settles j o value := by
    intro s hs
    have hsame : s.host.memory = m.memory := hs.memory
    have hkept : s.host.memory.Fits → m.memory.Fits ∧
        (w.guest.msrPage ∈ m.memory.pages → w.guest.msrPage ∈ s.host.memory.pages) ∧
        s.host.memory.words w.guest.msrPage = m.memory.words w.guest.msrPage ∧
        (s.host.blocks.block w.guest.block).read .vmentryControls =
          (m.blocks.block w.guest.block).read .vmentryControls := by
      rw [hsame]
      exact fun hf => ⟨hf, id, rfl, hs.fields _ _⟩
    by_cases hij : i = j
    · subst hij
      obtain rfl : v = w := Option.some.inj (Option.some.inj (hv.symm.trans hw))
      exact ⟨_, vms_withSession_self hv, hsettled.step hs.same hs.runs hs.count hkept⟩
    · exact ⟨w, (Array.getElem?_setIfInBounds_ne hij).trans hw,
        hsettled.step (.refl _) rfl rfl hkept⟩
  exact Ends.mono (Session.deactivate_dozes _) (fun _ _ ht => hback ht) (fun _ _ ht => hback ht)
    fun _ _ _ => trivial

theorem Settles.onProcessor (h : m.Settles j o value) (cpu : Nat) (f : Processor → Processor) :
    (onHost cpu (Host.onProcessor f)).Ends m (fun _ m' => m'.Settles j o value)
      (fun _ m' => m'.Settles j o value) fun _ _ => True :=
  onHost_ends (fun _ => h) fun _ _ => h

theorem Attends.aside (h : m.Attends j k o value) {command : Command} (hc : command.Aside j) :
    (perform command).Ends m (fun _ m' => m'.Attends j k o value) (fun _ m' => m'.Attends j k o value)
      fun _ _ => True := by
  obtain ⟨cpu, vm, index, order⟩ := command
  have hand : ∀ (hk : Command.Lawful ⟨cpu, vm, index, order⟩ m k) (ha : ∀ a, k.after a order = k),
      (perform ⟨cpu, vm, index, order⟩).Ends m (fun _ m' => m'.Settles j o value)
        (fun _ m' => m'.Settles j o value) (fun _ _ => True) →
          (perform ⟨cpu, vm, index, order⟩).Ends m (fun _ m' => m'.Attends j k o value)
            (fun _ m' => m'.Attends j k o value) fun _ _ => True := by
    intro hk ha hs
    refine Ends.mono ((perform_keeps h.orderly hk False.elim).and hs) (fun a _ ht => ?_)
      (fun _ _ ht => ⟨ht.1, ht.2⟩) fun _ _ _ => trivial
    have hkept := ht.1
    rw [ha a] at hkept
    exact ⟨hkept, ht.2⟩
  cases order with
  | run => exact hand trivial (fun _ => rfl) ((ends_bind _ _).2 (h.run_other hc cpu))
  | deactivate => exact hand trivial (fun _ => rfl) ((ends_bind _ _).2 (h.settles.deactivate cpu vm))
  | script exit => exact hand trivial (fun _ => rfl) ((ends_bind _ _).2 (h.settles.onProcessor cpu _))
  | inject fault => exact hand trivial (fun _ => rfl) ((ends_bind _ _).2 (h.settles.onProcessor cpu _))
  | clearFaults => exact hand trivial (fun _ => rfl) ((ends_bind _ _).2 (h.settles.onProcessor cpu _))
  | _ => exact hc.elim

theorem Life.attends (h : Life j k o xs m) : m.Attends j k o (HandledExit.lastWritten xs) := by
  induction h with
  | ready hbefore hv hnew => exact ⟨hbefore.orderly id False.elim, _, hv, hnew, rfl⟩
  | exit _ hx ih =>
      rw [HandledExit.lastWritten_cons]
      exact ih.exit hx
  | aside _ hc hrun ih => exact (ih.aside hc).ok hrun
  | failed _ hc hrun ih => exact (ih.aside hc).error hrun

/-- Over the whole life of a guest, on one cpu or several, and whatever guests run meanwhile, its
extended-feature register is coherent.  From the first run on, and at every exit, the guest's value is
the last one that it wrote, of which only lower halves of registers count, or zero; the value of the
host is that of the cpu on which the guest first ran, and so are the entry controls but for the mode of
the guest; and if the guest has enabled long mode, that is its mode.  A guest that asks for its value is
told it in the lower halves of two registers, unless instructions are made to fail or the next
instruction is beyond the address space.  Lawful commands map no page that has a role; that addresses
fit is to say that the tables, too, map the page that was meant. -/
theorem efer_emulation_coherent (h : Life j k o xs m) :
    (∀ c₀, o = some c₀ → m.memory.Fits → ∃ v, m.vms[j]? = some (some v) ∧
      v.guest.Emulates m.toPlatform (c₀.processor.rdmsr .efer) (Session.firstControls c₀)
        (HandledExit.lastWritten xs)) ∧
    ∀ i c v reason s, m.Stops i j c v reason s → s.host.memory.Fits →
      s.guest.Emulates s.host.toPlatform ((o.getD c).processor.rdmsr .efer)
        (Session.firstControls (o.getD c)) (HandledExit.lastWritten xs) ∧
      (reason = .fromGuest (.code .rdmsr) → s.context.regs.rcx.toUInt32 = MsrIndex.efer →
        (Session.dispatch reason).Ends s
          (fun r t => r = .continued ∧ t.context.regs.edxEax = HandledExit.lastWritten xs ∧
            t.context.regs.rdx.toNat < 2 ^ 32 ∧ t.context.regs.rax.toNat < 2 ^ 32)
          (fun _ _ => s.host.cpu.processor.faults ≠ [])
          fun _ _ => UInt64.size ≤ s.context.rip.toNat + s.length.toNat) := by
  have hattends := h.attends
  refine ⟨?_, fun i c v reason s hstops hf => ?_⟩
  · rintro c₀ rfl hf
    obtain ⟨v, hv, hsettled⟩ := hattends.settles
    exact ⟨v, hv, (hsettled hf).2.emulates⟩
  · obtain ⟨w, hw, hsettled⟩ := hattends.settles
    obtain rfl : w = v := Option.some.inj (Option.some.inj (hw.symm.trans hstops.vm))
    obtain ⟨-, hon, -, hcoherent⟩ := hstops.stopped hattends.orderly hsettled hf
    refine ⟨hcoherent.emulates, ?_⟩
    rintro rfl hmsr
    refine Ends.mono (Session.handleRdmsr_answers hcoherent.switches hon hmsr) ?_ (fun _ _ h => h)
      fun _ _ h => h
    rintro r t ⟨hr, hadvances⟩
    rw [hadvances.regs]
    exact ⟨hr, Registers.edxEax_withEdxEax _ _, Registers.withEdxEax_lt _ _⟩

def stop? (m : Machine) (i j : Nat) : Option (ExitReason × Session) :=
  match m.cpus[i]?, m.vms[j]? with
  | some c, some (some v) =>
      if ∀ e ∈ c.processor.script, e.Leaves [.vmentryControls] then
        match Session.arrive.run ⟨m.host c, v.guest, v.context⟩ with
        | .ok reason s => some (reason, s)
        | .error _ _ => none
      else none
  | _, _ => none

theorem stops_of_stop? (h : m.stop? i j = some (reason, s)) : ∃ c v, m.Stops i j c v reason s := by
  rw [stop?] at h
  split at h
  · rename_i c v hc hv
    split_ifs at h with hleaves
    split at h
    · rename_i harrived
      cases h
      exact ⟨c, v, hc, hv, hleaves, harrived⟩
    · cases h
  · cases h

def handle? (m : Machine) (i j : Nat) : Option (HandledExit × Machine) :=
  (m.stop? i j).bind fun stop =>
    match (Session.dispatch stop.1).run stop.2 with
    | .ok .continued t =>
        (m.reply? { cpu := i, vm := j, order := .run }).map fun said => (⟨stop.1, stop.2, t⟩, said.2)
    | _ => none

theorem handles_of_handle? (h : m.handle? i j = some (x, m')) : ∃ c v, m.Handles i j c v x m' := by
  obtain ⟨⟨reason, s⟩, hstop, h⟩ := Option.bind_eq_some_iff.1 h
  obtain ⟨c, v, hstops⟩ := stops_of_stop? hstop
  split at h
  · rename_i t hhandled
    obtain ⟨⟨said, m₁⟩, hsaid, heq⟩ := Option.map_eq_some_iff.1 h
    cases heq
    exact ⟨c, v, hstops, hhandled, _, reply?_eq_some.1 hsaid⟩
  · cases h

theorem Life.after {commands : List Command} (h : Life j k o xs m)
    (hc : ∀ c ∈ commands, c.Aside j) (hrun : m.after commands = some m') : Life j k o xs m' := by
  induction commands generalizing m with
  | nil =>
      cases hrun
      exact h
  | cons c rest ih =>
      obtain ⟨a, m₁, hstep, hrest⟩ := after_cons.1 hrun
      exact ih (.aside h (hc c List.mem_cons_self) hstep)
        (fun c' hc' => hc c' (List.mem_cons_of_mem c hc')) hrest

/-- Of two guests, the first one is to write to its register; the upper halves do not count. -/
def paired : List Command :=
  [{ order := .build {} }, { order := .build {} },
   { order := .script {
      event := .exit 0x20, fields := [(.vmexitInstructionLength, 2)]
      regs := [(.rcx, 0x77777777c0000080), (.rdx, 0x6666666600000001), (.rax, 0x5555555500000500)] } }]

def moved : List Command :=
  [{ order := .deactivate }, { order := .script { event := .cpuid 2 } }, { vm := 1, order := .run },
   { cpu := 1, order := .script {
      event := .exit 0x1f, fields := [(.vmexitInstructionLength, 2)]
      regs := [(.rcx, 0x44444444c0000080)] } }]

theorem efer_emulation_coherent_moved : ∃ k c₀ x m c v s t, Life 0 k (some c₀) [x] m ∧
    x.before.context.regs.rdx = 0x6666666600000001 ∧ m.memory.Fits ∧
    m.Stops 1 0 c v (.fromGuest (.code .rdmsr)) s ∧ s.host.memory.Fits ∧
    (Session.dispatch (.fromGuest (.code .rdmsr))).run s = .ok .continued t ∧
    t.context.regs.edxEax = 0x100000500 ∧
    (s.host.blocks.block s.guest.block).read .vmentryControls &&&
      EntryControl.longModeGuest.bits ≠ 0 := by
  have hlawful : ∀ c ∈ paired, ∀ m k, c.Lawful m k := Command.forall_lawful rfl
  have haside : ∀ c ∈ moved, c.Aside 0 := by
    intro c hc
    simp only [moved, List.mem_cons, List.not_mem_nil, or_false] at hc
    rcases hc with rfl | rfl | rfl | rfl
    · trivial
    · trivial
    · exact Nat.one_ne_zero
    · trivial
  have hany : ((dual.after paired).any fun m => m.vms[0]?.join.any fun v => v.guest.runs == 0 &&
      (m.handle? 0 0).any fun p => p.1.written? == some 0x100000500 &&
        p.1.before.context.regs.rdx == 0x6666666600000001 && (p.2.after moved).any fun m' =>
          decide m'.memory.Fits && (m'.stop? 1 0).any fun q =>
            q.1 == .fromGuest (.code .rdmsr) && decide q.2.host.memory.Fits &&
              q.2.context.regs.rcx.toUInt32 == MsrIndex.efer &&
                q.2.host.cpu.processor.faults.isEmpty &&
                  decide (q.2.context.rip.toNat + q.2.length.toNat < UInt64.size)) = true := by
    decide +kernel
  obtain ⟨m₀, hbuilt, hany⟩ := (Option.any_eq_true _ _).1 hany
  obtain ⟨v₀, hv₀, hany⟩ := (Option.any_eq_true _ _).1 hany
  obtain ⟨hnew, hany⟩ := Bool.and_eq_true_iff.1 hany
  obtain ⟨⟨x, m₁⟩, hhandle, hany⟩ := (Option.any_eq_true _ _).1 hany
  obtain ⟨hwrote, hany⟩ := Bool.and_eq_true_iff.1 hany
  obtain ⟨m, hmoved, hany⟩ := (Option.any_eq_true _ _).1 hany
  obtain ⟨hfits, hany⟩ := Bool.and_eq_true_iff.1 hany
  obtain ⟨⟨reason, s⟩, hstop, hread⟩ := (Option.any_eq_true _ _).1 hany
  simp only [Bool.and_eq_true, beq_iff_eq, decide_eq_true_eq, List.isEmpty_iff] at hnew hwrote hfits hread
  obtain ⟨hwritten, hrdx⟩ := hwrote
  obtain ⟨⟨⟨⟨rfl, hfits'⟩, hmsr⟩, hfaults⟩, hrip⟩ := hread
  obtain ⟨k, hk⟩ := (History.booted dual_booted).after hlawful hbuilt
  obtain ⟨c₀, v₁, hhandles⟩ := handles_of_handle? hhandle
  obtain ⟨c, v, hstops⟩ := stops_of_stop? hstop
  have hlife : Life 0 k (some c₀) [x] m :=
    ((Life.ready hk (Option.join_eq_some_iff.1 hv₀) hnew).exit hhandles).after haside hmoved
  have hlast : HandledExit.lastWritten [x] = 0x100000500 := by
    rw [HandledExit.lastWritten_cons, hwritten]
    rfl
  obtain ⟨hemulates, hanswers⟩ := (efer_emulation_coherent hlife).2 1 c v _ s hstops hfits'
  rw [hlast] at hemulates hanswers
  obtain ⟨r, t, hrun, rfl, hvalue, -⟩ := ((hanswers rfl hmsr).mono (fun _ _ h => h)
    (fun _ _ hf => hf hfaults) fun _ _ hover => absurd hrip (Nat.not_lt.2 hover)).exists_ok
  exact ⟨k, c₀, x, m, c, v, s, t, hlife, hrdx, hfits, hstops, hfits', hrun, hvalue,
    hemulates.modes.longMode (by decide)⟩

end Machine

end Hypervisor
