import Hypervisor.Proofs.Still
import Hypervisor.Proofs.Survival

/-!
# How a run ends

While no instruction is made to fail, a run ends in one of three ways.  Another guest is on the cpu,
and nothing happens; or the guest goes on, and stays on the cpu; or it is given up: its environment is
destroyed once, the cpu is given back once, and no guest is on the cpu then.
-/

namespace Hypervisor

open Hypervisor.Action

namespace Session

def Foreign (s : Session) : Prop := ∃ p, s.host.cpu.current = some p ∧ p ≠ s.guest.block

structure OnCpu (s₀ s : Session) : Prop extends Spares s₀ s where
  current : s.host.cpu.current = some s.guest.block
  loaded : s.host.cpu.processor.current = some s.guest.block

structure OffCpu (s₀ s : Session) : Prop extends Spares s₀ s where
  launched : s.guest.launched = false
  current : s.host.cpu.current = none
  loaded : s.host.cpu.processor.current = none

/-- The guest ran once more and stays on the cpu, which was given back once. -/
structure GoesOn (s₀ s : Session) : Prop where
  same : s₀.guest.Same s.guest
  faultless : s.host.cpu.processor.faults = []
  current : s.host.cpu.current = some s.guest.block
  loaded : s.host.cpu.processor.current = some s.guest.block
  launched : s.guest.launched = true
  runs : s.guest.runs = s₀.guest.runs + 1
  kernel : ∃ k, s₀.host.kernel.Served k ∧ s.host.kernel = k.yieldNow

/-- The guest is off the cpu; its environment was destroyed once, and then the cpu was given back
once. -/
structure GivenUp (s₀ s : Session) : Prop where
  same : s₀.guest.Same s.guest
  faultless : s.host.cpu.processor.faults = []
  current : s.host.cpu.current = none
  loaded : s.host.cpu.processor.current = none
  launched : s.guest.launched = false
  kernel : ∃ k, s₀.host.kernel.Served k ∧ s.host.kernel = k.destroyCurrent.yieldNow

variable {s₀ s : Session} {α : Type}

theorem free_of_not_foreign (hf : s.host.cpu.processor.faults = []) (h : ¬s.Foreign) : s.Free :=
  ⟨hf, fun p hp => by_contra fun hne => h ⟨p, hp, hne⟩⟩

section Foreign

variable (h : s.Foreign)

include h

theorem checkOwner_foreign : checkOwner.Ends s (fun _ _ => False)
    (fun e t => e = .foreignVmcs ∧ t = s) fun _ _ => False := by
  obtain ⟨p, hp, hne⟩ := h
  exact checkOwner_ends (fun hown => absurd (hown p hp) hne) fun _ _ _ => ⟨rfl, rfl⟩

theorem prepareRun_foreign : prepareRun.Ends s (fun _ _ => False)
    (fun e t => e = .foreignVmcs ∧ t = s) fun _ _ => False := by
  have howner := checkOwner_foreign h
  exact prepareRun_ends_of (Q := fun _ => False)
    (fun _ => Ends.stuck_bind (Ends.stuck_bind howner)) fun _ =>
      Ends.stuck_bind (Ends.stuck_bind howner)

/-- While another guest is on the cpu, a run does nothing. -/
theorem run_foreign : Session.run.Ends s (fun _ _ => False)
    (fun e t => e = .foreignVmcs ∧ t = s) fun _ _ => False := by
  have honce : runOnce.Ends s (fun _ _ => False) (fun e t => e = .foreignVmcs ∧ t = s)
      fun _ _ => False := Ends.stuck_bind (prepareRun_foreign h)
  rw [Session.run, ends_bind, ends_attempt]
  refine honce.mono (fun _ _ h => h.elim) ?_ fun _ _ h => h
  rintro e t ⟨rfl, rfl⟩
  exact ⟨rfl, rfl⟩

end Foreign

section Free

variable (h₀ : s₀.Free)

include h₀

theorem onCpu_aloof : Aloof s₀.guest (OnCpu s₀) (fun _ _ => True)
    fun e s => OnCpu s₀ s ∧ e ≠ .foreignVmcs where
  same := fun h => h.same
  memory := fun _ h => ⟨h.withHost rfl fun h => h, h.current, h.loaded⟩
  log := fun _ h => ⟨h.withHost rfl fun h => h, h.current, h.loaded⟩
  kernel := fun _ h => ⟨h.withHost rfl fun h => h, h.current, h.loaded⟩
  spent := fun p f h => by
    rw [Host.spent_of_faultless (h.free h₀).1]
    exact h
  context := fun _ h => ⟨⟨h.same, h.kernel, h.free⟩, h.current, h.loaded⟩
  devices := fun _ _ h => ⟨h.withGuest ⟨rfl, rfl, rfl, rfl, rfl, rfl⟩, h.current, h.loaded⟩
  panic := fun _ _ _ => trivial
  back := fun h => h.1
  refused := fun {e _} he h => ⟨h, by
    rintro rfl
    exact he.elim id id⟩
  struck := fun h => Processor.forall_faults (h.free h₀).1

theorem onCpu_programmable : Programmable s₀.guest (OnCpu s₀) (fun _ _ => True)
    fun e s => OnCpu s₀ s ∧ e ≠ .foreignVmcs :=
  (onCpu_aloof h₀).programmable
    (fun _ _ h => ⟨h.withHost rfl fun h => h, h.current, h.loaded⟩)
    fun _ _ _ h => ⟨h.withGuest ⟨rfl, rfl, rfl, rfl, rfl, rfl⟩, h.current, h.loaded⟩

theorem launch_onCpu : launch.Upholds (OnCpu s₀) (fun _ _ => True)
    fun e s => OnCpu s₀ s ∧ e ≠ .foreignVmcs :=
  (onCpu_aloof h₀).launch (fun h => ⟨h, nofun⟩)
    (fun _ _ _ h => ⟨h.withHost rfl fun h => h, h.current, h.loaded⟩)
    (fun _ _ h => ⟨h.withHost rfl fun h => h, h.current, h.loaded⟩)
    fun h => ⟨h.withGuest ⟨rfl, rfl, rfl, rfl, rfl, rfl⟩, h.current, h.loaded⟩

theorem load_onCpu (hs : Spares s₀ s) :
    load.Ends s (fun _ t => OnCpu s₀ t) (fun _ _ => False) fun _ _ => True := by
  obtain ⟨hfaults, hown⟩ := hs.free h₀
  exact load_ends (fun _ => ⟨hs.loaded, rfl, rfl⟩) (fun p hp hne => hne (hown p hp))
    (Processor.forall_faults hfaults)

theorem activate_onCpu (hs : Spares s₀ s) :
    activate.Ends s (fun _ t => OnCpu s₀ t) (fun _ _ => False) fun _ _ => True := by
  obtain ⟨hfaults, hown⟩ := hs.free h₀
  exact activate_ends (fun _ => ⟨hs.cleared.loaded, rfl, rfl⟩) (fun p hp hne => hne (hown p hp))
    (Processor.forall_faults hfaults) (Processor.forall_faults (hs.cleared.free h₀).1)

theorem deactivate_offCpu (hs : OnCpu s₀ s) :
    deactivate.Ends s (fun _ t => OffCpu s₀ t) (fun _ _ => False) fun _ _ => True := by
  exact deactivate_ends ⟨hs.toSpares.unloaded, rfl, if_pos hs.current, if_pos hs.loaded⟩
    (Processor.forall_faults (hs.free h₀).1)

theorem terminate_offCpu (hs : OnCpu s₀ s) :
    terminate.Ends s (fun _ t => ∃ u, OffCpu s₀ u ∧ t = u.destroyed) (fun _ _ => False)
      fun _ _ => True := by
  rw [terminate, ends_bind, ends_attempt]
  exact (deactivate_offCpu h₀ hs).mono (fun _ u hu => ⟨u, hu, rfl⟩) (fun _ _ h => h.elim)
    fun _ _ h => h

/-- The guest is on the cpu up to the end of its exit, and no error tells of another guest. -/
theorem runOnce_onCpu : runOnce.Ends s₀ (fun _ t => OnCpu s₀ t)
    (fun e t => OnCpu s₀ t ∧ e ≠ .foreignVmcs) fun _ _ => True := by
  have hrunnable : Runnable s₀.guest (Spares s₀) (OnCpu s₀) (fun _ _ => True) (fun _ _ => False)
      fun e s => OnCpu s₀ s ∧ e ≠ .foreignVmcs :=
    { calm := (spares_aloof s₀).plain.calm
      onCpu := onCpu_programmable h₀
      activate := activate_onCpu h₀
      load := load_onCpu h₀
      launch := launch_onCpu h₀
      deactivate := deactivate_spares
      leave := fun h => h.toSpares
      turnedAway := fun h => h.elim }
  exact (hrunnable.runOnce_ends (.refl s₀)).mono (fun _ _ h => h)
    (fun _ _ h => h.resolve_left id) fun _ _ h => h

end Free

section Counts

variable {g : Guest} {n : Nat}

theorem prepareFirstRun_counted : prepareFirstRun.Upholds (Counted g n) fun _ _ => True := by
  rw [prepareFirstRun_eq]
  refine Upholds.bind (prelude_still.counted g n) fun _ => ?_
  exact Upholds.bind (Upholds.get_bind fun _ _ => onHost_counted) fun _ =>
    Upholds.bind setupMsrs_counted fun _ => configureControls_still.counted g n

theorem prepareRun_counted : prepareRun.Ends s (fun _ t => Counted s.guest (s.guest.runs + 1) t)
    (fun _ _ => True) fun _ _ => True := by
  have hstart : Counted s.guest s.guest.runs s := ⟨.refl _, rfl⟩
  have hcount : ∀ {x : SessionM Unit}, x.Upholds (Counted s.guest s.guest.runs) (fun _ _ => True) →
      x.Ends s (fun _ t => Counted s.guest (s.guest.runs + 1) t.ready) (fun _ _ => True)
        fun _ _ => True := fun hx =>
    (hx s hstart).mono (fun _ _ ht => ⟨ht.1.trans ⟨rfl, rfl, rfl, rfl, rfl, rfl⟩,
      congrArg (· + 1) ht.2⟩) (fun _ _ _ => trivial) fun _ _ h => h
  exact prepareRun_ends_of (fun _ => hcount prepareFirstRun_counted) fun _ =>
    hcount (prepareNextRun_still.counted _ _)

theorem launched_aloof : Aloof g (fun s => Counted g n s ∧ s.guest.launched = true)
    (fun _ _ => True) fun _ s => Counted g n s ∧ s.guest.launched = true where
  same := fun h => h.1.1
  memory := fun _ h => h
  log := fun _ h => h
  kernel := fun _ h => h
  spent := fun _ _ h => h
  context := fun _ h => h
  devices := fun _ _ h => ⟨⟨h.1.1.trans ⟨rfl, rfl, rfl, rfl, rfl, rfl⟩, h.1.2⟩, h.2⟩
  panic := fun _ _ _ => trivial

theorem launch_launched (h : Counted g n s) :
    launch.Ends s (fun _ t => Counted g n t ∧ t.guest.launched = true) (fun _ _ => True)
      fun _ _ => True := by
  rw [launch, ends_bind, ends_get, ends_bind]
  refine (onHost_counted s h).mono (fun _ t ht => ?_)
    (fun _ _ _ => trivial) fun _ _ _ => trivial
  exact ⟨⟨ht.1.trans ⟨rfl, rfl, rfl, rfl, rfl, rfl⟩, ht.2⟩, rfl⟩

/-- A run up to the end of the exit is counted once, and the guest is launched then. -/
theorem runOnce_counted : runOnce.Ends s
    (fun _ t => t.guest.runs = s.guest.runs + 1 ∧ t.guest.launched = true) (fun _ _ => True)
      fun _ _ => True := by
  have halert : Alert s.guest
      (fun t => Counted s.guest (s.guest.runs + 1) t ∧ t.guest.launched = true) (fun _ _ => True)
      fun _ t => Counted s.guest (s.guest.runs + 1) t ∧ t.guest.launched = true :=
    launched_aloof.alert (fun _ _ h => h) (fun _ _ h => h) fun _ _ h => h
  rw [runOnce_eq, approach, bind_assoc, ends_bind]
  refine prepareRun_counted.mono (fun _ t ht => ?_) (fun _ _ h => h) fun _ _ h => h
  rw [ends_bind]
  refine (loadContext_still.counted _ _ t ht).mono (fun _ u hu => ?_) (fun _ _ _ => trivial) fun _ _ h => h
  rw [proceed, ends_bind]
  refine (launch_launched hu).mono (fun _ v hv => ?_) (fun _ _ h => h) fun _ _ h => h
  exact (halert.handleNext v hv).mono (fun _ _ h => ⟨h.1.2, h.2⟩) (fun _ _ _ => trivial)
    fun _ _ h => h

end Counts

/-- A guest that is not kept from the cpu goes on or is given up. -/
theorem run_ends_free (h₀ : s₀.Free) : Session.run.Ends s₀
    (fun r t => r = .continued ∧ GoesOn s₀ t ∨ r = .exited ∧ GivenUp s₀ t)
    (fun e t => e ≠ .foreignVmcs ∧ GivenUp s₀ t) fun _ _ => True := by
  have hgivenUp : ∀ {w}, (∃ u, OffCpu s₀ u ∧ w = u.destroyed) → GivenUp s₀ w.yielded := by
    rintro w ⟨u, hu, rfl⟩
    exact ⟨hu.same, (hu.free h₀).1, hu.current, hu.loaded, hu.launched, _, hu.kernel, rfl⟩
  have honce : runOnce.Ends s₀
      (fun _ t => OnCpu s₀ t ∧ t.guest.runs = s₀.guest.runs + 1 ∧ t.guest.launched = true)
      (fun e t => OnCpu s₀ t ∧ e ≠ .foreignVmcs) fun _ _ => True :=
    ((runOnce_onCpu h₀).and runOnce_counted).mono (fun _ _ h => h) (fun _ _ h => h.1)
      fun _ _ h => h.1
  refine Ends.mono ((onCpu_aloof h₀).plain.calm.run_ends_of (fun _ _ h => h.1) (fun _ _ h => h.1)
    (fun _ => terminate_offCpu h₀) honce) ?_ ?_ fun _ _ h => h
  · rintro r t ⟨u, ⟨hu, hruns, hlaunched⟩, ⟨rfl, rfl⟩ | ⟨rfl, w, hw, rfl⟩⟩
    · exact .inl ⟨rfl, hu.same, (hu.free h₀).1, hu.current, hu.loaded, hlaunched, hruns, _,
        hu.kernel, rfl⟩
    · exact .inr ⟨rfl, hgivenUp hw⟩
  · rintro e t ⟨u, ⟨hu, hne⟩, ⟨rfl, -⟩ | ⟨-, w, hw, rfl⟩⟩
    · exact absurd rfl hne
    · exact ⟨hne, hgivenUp hw⟩

end Session

namespace Machine

open Session

/-- The control block of another guest is current on the cpu. -/
def Foreign (m : Machine) (i j : Nat) : Prop :=
  ∃ c v, m.cpus[i]? = some c ∧ m.vms[j]? = some (some v) ∧ ∃ p, c.current = some p ∧ p ≠ v.guest.block

/-- No run on the cpu is refused because of another guest. -/
def Accepts (m : Machine) (i : Nat) : Prop :=
  ∀ j, (perform { cpu := i, vm := j, order := .run }).Ends m (fun _ _ => True)
    (fun e _ => e ≠ .foreignVmcs) fun _ _ => True

variable {m : Machine} {i j : Nat} {c : Cpu} {v : Vm}

theorem foreign_iff (hc : m.cpus[i]? = some c) (hv : m.vms[j]? = some (some v)) :
    m.Foreign i j ↔ Session.Foreign ⟨m.host c, v.guest, v.context⟩ := by
  constructor
  · rintro ⟨c', v', hc', hv', hforeign⟩
    cases hc.symm.trans hc'
    cases hv.symm.trans hv'
    exact hforeign
  · exact fun hforeign => ⟨c, v, hc, hv, hforeign⟩

theorem withSession_self (hc : m.cpus[i]? = some c) (hv : m.vms[j]? = some (some v)) :
    m.withSession i j ⟨m.host c, v.guest, v.context⟩ = m := by
  have hset : ∀ {α : Type} {xs : Array α} {n : Nat} {a : α}, xs[n]? = some a →
      xs.setIfInBounds n a = xs := by
    intro α xs n a ha
    obtain ⟨hn, rfl⟩ := Array.getElem?_eq_some_iff.1 ha
    rw [Array.setIfInBounds, dif_pos hn, Array.set_getElem_self]
  show { m with cpus := m.cpus.setIfInBounds i c, vms := m.vms.setIfInBounds j (some v) } = m
  rw [hset hc, hset hv]

/-- A cpu without a current control block takes any guest. -/
theorem accepts_of_current (hc : m.cpus[i]? = some c) (hcurrent : c.current = none)
    (hf : c.processor.faults = []) : m.Accepts i := by
  intro j
  rw [perform, ends_bind]
  refine onSession_ends (fun h => by cases h) fun c' v hc' hv => ?_
  cases hc.symm.trans hc'
  have hfree : Session.Free ⟨m.host c, v.guest, v.context⟩ :=
    ⟨hf, fun p hp => by cases hcurrent.symm.trans hp⟩
  exact (run_ends_free hfree).mono (fun _ _ _ => trivial) (fun _ _ h => h.1) fun _ _ _ => trivial

/-- While no instruction is made to fail, a run fails for another guest if and only if that one's control
block is current, and then nothing has changed.  It succeeds with the guest going on, and the guest
stays on the cpu then; or else the guest is given up, and the cpu takes any other one.  As long as
callers use what is theirs, nothing but a sum panics. -/
theorem run_outcome (hc : m.cpus[i]? = some c) (hv : m.vms[j]? = some (some v))
    (hf : c.processor.faults = []) :
    (perform { cpu := i, vm := j, order := .run }).Ends m
      (fun a m' => ¬m.Foreign i j ∧ ∃ t, m' = m.withSession i j t ∧
        (a = .text ExitResult.continued.text ∧ GoesOn ⟨m.host c, v.guest, v.context⟩ t ∨
          a = .text ExitResult.exited.text ∧ GivenUp ⟨m.host c, v.guest, v.context⟩ t ∧ m'.Accepts i))
      (fun e m' => e = .foreignVmcs ∧ m.Foreign i j ∧ m' = m ∨
        e ≠ .foreignVmcs ∧ ¬m.Foreign i j ∧ ∃ t, m' = m.withSession i j t ∧
          GivenUp ⟨m.host c, v.guest, v.context⟩ t ∧ m'.Accepts i)
      (fun _ _ => ¬m.Foreign i j) ∧
    ∀ k, History Command.Lawful m k → (perform { cpu := i, vm := j, order := .run }).Ends m
      (fun _ _ => True) (fun _ _ => True) fun p m' => m'.memory.Fits → p = .addOverflow := by
  have haccepts : ∀ {t}, GivenUp ⟨m.host c, v.guest, v.context⟩ t → (m.withSession i j t).Accepts i :=
    fun ht => accepts_of_current (cpus_withSession_self hc) ht.current ht.faultless
  constructor
  · rw [perform, ends_bind]
    refine onSession_ends_of hc hv ?_
    by_cases hforeign : Session.Foreign ⟨m.host c, v.guest, v.context⟩
    · refine (run_foreign hforeign).mono (fun _ _ h => h.elim) ?_ fun _ _ h => h.elim
      rintro e t ⟨rfl, rfl⟩
      exact .inl ⟨rfl, (foreign_iff hc hv).2 hforeign, withSession_self hc hv⟩
    · have hnone : ¬m.Foreign i j := fun h => hforeign ((foreign_iff hc hv).1 h)
      refine (run_ends_free (free_of_not_foreign hf hforeign)).mono ?_ ?_ fun _ _ _ => hnone
      · rintro r t (⟨rfl, ht⟩ | ⟨rfl, ht⟩)
        · exact ⟨hnone, t, rfl, .inl ⟨rfl, ht⟩⟩
        · exact ⟨hnone, t, rfl, .inr ⟨rfl, ht, haccepts ht⟩⟩
      · rintro e t ⟨hne, ht⟩
        exact .inr ⟨hne, hnone, t, rfl, ht, haccepts ht⟩
  · intro k h
    have hk : m.Orderly k False := h.orderly id False.elim
    exact (perform_keeps (c := { cpu := i, vm := j, order := .run }) hk trivial False.elim).mono
      (fun _ _ _ => trivial) (fun _ _ _ => trivial) fun _ _ hp => hp

/-- A guest that halts at once is given up. -/
theorem run_outcome_halts : ∃ m c v, m.cpus[0]? = some c ∧ m.vms[0]? = some (some v) ∧
    c.processor.faults = [] ∧ ∃ m' t, (perform { order := .run }).run m = .ok (.text "Exited") m' ∧
      m' = m.withSession 0 0 t ∧ GivenUp ⟨m.host c, v.guest, v.context⟩ t := by
  have hstart : History (fun _ _ _ => True) uniprocessor {} := .booted uniprocessor_booted
  have hallowed : ∀ c ∈ [({ order := .build {} } : Command)], ∀ (_ : Machine) (_ : Callers), True :=
    fun _ _ _ _ => trivial
  obtain ⟨m, -, -, hcpu, hvm, hrun⟩ := hstart.exists_after
    (P := fun m => (m.cpus[0]?.map fun c => c.processor.faults.isEmpty) = some true ∧
      m.vms[0]?.join.isSome ∧
      (match (perform { order := .run }).run m with
        | .ok (.text s) _ => s == "Exited"
        | _ => false) = true) hallowed (by decide +kernel)
  obtain ⟨c, hc, hf⟩ := Option.map_eq_some_iff.1 hcpu
  obtain ⟨v, hv⟩ := Option.isSome_iff_exists.1 hvm
  have hv' := Option.join_eq_some_iff.1 hv
  have hf' := List.isEmpty_iff.1 hf
  refine ⟨m, c, v, hc, hv', hf', ?_⟩
  split at hrun
  · rename_i s m' hok
    obtain rfl := eq_of_beq hrun
    obtain ⟨-, t, hm', ⟨hne, -⟩ | ⟨-, ht, -⟩⟩ := (run_outcome hc hv' hf').1.ok hok
    · exact absurd (Answer.text.inj hne) (by decide)
    · exact ⟨m', t, hok, hm', ht⟩
  · cases hrun

end Machine

end Hypervisor
