import Hypervisor.Proofs.Ownership.History
import Hypervisor.Proofs.Residence
import Hypervisor.Proofs.RootOperation
import Hypervisor.Proofs.Scheduling

/-!
# Guests that migrate exit into the right host

Guests are put on cpus, run there and taken off again in any order, and move from cpu to cpu.  Wherever
a guest is entered, its control block has the processor go on in the host of this very cpu when the
guest exits.  What a cpu knows of the guest is its id: a guest that ran on it last needs no new state
of the host, so different cpus must have different ids.
-/

namespace Hypervisor

/-- The commands that put guests on cpus, run them there and take them off again, and that turn VMX on
and off, together with what prepares exits and failures.  The state of the host is left alone by each
exit, and no write of it is made to fail. -/
def Order.Moves : Order → Prop
  | .run | .activate | .load | .deactivate | .vmxOn | .vmxOff | .clearFaults => True
  | .script e => e.Discreet
  | .inject x => ∀ f ∈ Field.host, ¬ x.fits .vmwrite (some f)
  | _ => False

theorem Cpu.Remains.trans {c₀ c c' : Cpu} (h : c₀.Remains c) (h' : c.Remains c') : c₀.Remains c' :=
  ⟨h'.id.trans h.id, h'.segments.trans h.segments, h'.receptive, h'.discreet⟩

theorem Host.remains_rooting (c₀ : Cpu) (bs : ControlBlocks) :
    Rooting fun h => c₀.Remains h.cpu ∧ h.blocks = bs where
  overflow := fun _ _ _ => trivial
  log := fun _ h => h
  kernel := fun _ h => h
  spent := fun p f h => ⟨h.1.spent p f, h.2⟩
  memory := fun _ _ h => h
  flush := fun _ h => ⟨⟨h.1.id, h.1.segments, h.1.receptive, h.1.discreet⟩, h.2⟩
  mode := by
    rintro h c hscript hfaults ⟨hcpu, hblocks⟩
    refine ⟨⟨hcpu.id, hcpu.segments, hcpu.receptive.mono fun x hx => ⟨x, hfaults ▸ hx, rfl⟩, ?_⟩,
      hblocks⟩
    exact fun e he => hcpu.discreet e (hscript ▸ he)
  noted := fun _ _ h => ⟨⟨h.1.id, h.1.segments, h.1.receptive, h.1.discreet⟩, h.2⟩

namespace Machine

open Hypervisor.Action Session

/-- Guests that have not run yet, each with a control block of its own, on cpus with different ids.  The
cpus take the state of the host when it is written, and their scripts write none of it. -/
structure Rested (m : Machine) : Prop where
  unrun : ∀ (j : Nat) (v : Vm), m.vms[j]? = some (some v) → v.guest.runs = 0
  distinct : ∀ (i j : Nat) (v w : Vm), m.vms[i]? = some (some v) → m.vms[j]? = some (some w) →
    v.guest.block = w.guest.block → i = j
  numbered : ∀ (i j : Nat) (c d : Cpu), m.cpus[i]? = some c → m.cpus[j]? = some d → c.id = d.id → i = j
  cpus : ∀ (i : Nat) (c : Cpu), m.cpus[i]? = some c → c.Remains c

/-- The machines that moving guests leads to. -/
inductive Moved (m₀ : Machine) : Machine → Prop
  | start : Moved m₀ m₀
  | done {m m' : Machine} {c : Command} {a : Answer} :
      Moved m₀ m → c.order.Moves → (perform c).run m = .ok a m' → Moved m₀ m'
  | failed {m m' : Machine} {c : Command} {e : VmError} :
      Moved m₀ m → c.order.Moves → (perform c).run m = .error (.error e) m' → Moved m₀ m'

/-- What moving guests maintains: a guest that has run has a block that returns to the cpu on which it
ran last. -/
structure Settled (m₀ m : Machine) : Prop where
  cpus : ∀ {i : Nat} {c : Cpu}, m.cpus[i]? = some c → ∃ c₀, m₀.cpus[i]? = some c₀ ∧ c₀.Remains c
  vms : ∀ {j : Nat} {v : Vm}, m.vms[j]? = some (some v) →
    ∃ v₀, m₀.vms[j]? = some (some v₀) ∧ v₀.guest.Same v.guest
  home : ∀ {j : Nat} {v : Vm}, m.vms[j]? = some (some v) → v.guest.runs ≠ 0 →
    ∃ (i : Nat) (c₀ : Cpu), m₀.cpus[i]? = some c₀ ∧ v.guest.lastCpu = some c₀.id ∧
      (m.blocks.block v.guest.block).ReturnsTo c₀

theorem Rested.settled {m₀ : Machine} (h₀ : m₀.Rested) : Settled m₀ m₀ where
  cpus := fun hc => ⟨_, hc, h₀.cpus _ _ hc⟩
  vms := fun hv => ⟨_, hv, .refl _⟩
  home := fun hv hruns => absurd (h₀.unrun _ _ hv) hruns

section Step

variable {m₀ m : Machine} {i j : Nat} {c : Cpu} {v : Vm}

theorem Settled.around (h : Settled m₀ m) (hc : m.cpus[i]? = some c) :
    Around ⟨m.host c, v.guest, v.context⟩ ⟨m.host c, v.guest, v.context⟩ := by
  obtain ⟨c₀, -, hcpu⟩ := h.cpus hc
  exact ⟨.refl _, ⟨rfl, rfl, hcpu.receptive, hcpu.discreet⟩, fun _ _ => rfl⟩

/-- No other cpu has the id of the cpu on which the guest ran last. -/
theorem Settled.familiar (h₀ : m₀.Rested) (h : Settled m₀ m) (hc : m.cpus[i]? = some c)
    (hv : m.vms[j]? = some (some v)) : Familiar ⟨m.host c, v.guest, v.context⟩ := by
  intro hruns hlast
  obtain ⟨k, d, hd, hhome, hblock⟩ := h.home hv hruns
  obtain ⟨c₀, hc₀, hcpu⟩ := h.cpus hc
  have hid : d.id = c₀.id := (Option.some.inj (hhome.symm.trans hlast)).trans hcpu.id
  obtain rfl : k = i := h₀.numbered k i d c₀ hd hc₀ hid
  obtain rfl : d = c₀ := Option.some.inj (hd.symm.trans hc₀)
  exact hblock.congr hcpu.segments

theorem Settled.distinct {k : Nat} {w : Vm} (h₀ : m₀.Rested) (h : Settled m₀ m)
    (hv : m.vms[j]? = some (some v)) (hw : m.vms[k]? = some (some w))
    (heq : w.guest.block = v.guest.block) : k = j := by
  obtain ⟨v₀, hv₀, hvsame⟩ := h.vms hv
  obtain ⟨w₀, hw₀, hwsame⟩ := h.vms hw
  refine h₀.distinct k j w₀ v₀ hw₀ hv₀ ?_
  rw [← hvsame.block, ← hwsame.block, heq]

/-- A session that leaves its guest at home on some cpu leaves every guest at home. -/
theorem Settled.withSession {s : Session} (h₀ : m₀.Rested) (h : Settled m₀ m)
    (hc : m.cpus[i]? = some c) (hv : m.vms[j]? = some (some v))
    (hs : Resident ⟨m.host c, v.guest, v.context⟩ s) : Settled m₀ (m.withSession i j s) where
  cpus := by
    intro k d hd
    obtain ⟨rfl, rfl⟩ | ⟨-, hd⟩ := cpus_withSession hd
    · obtain ⟨c₀, hc₀, hcpu⟩ := h.cpus hc
      exact ⟨c₀, hc₀, hcpu.trans hs.cpu⟩
    · exact h.cpus hd
  vms := by
    intro k w hw
    obtain ⟨rfl, rfl⟩ | ⟨-, hw⟩ := vms_withSession hw
    · obtain ⟨v₀, hv₀, hsame⟩ := h.vms hv
      exact ⟨v₀, hv₀, hsame.trans hs.same⟩
    · exact h.vms hw
  home := by
    intro k w hw hruns
    obtain ⟨rfl, rfl⟩ | ⟨hk, hw⟩ := vms_withSession hw
    · have hblock : s.guest.block = v.guest.block := hs.same.block
      dsimp only
      rw [hblock]
      obtain ⟨hran, hlast, hagree⟩ | ⟨hlast, hreturns⟩ := hs.home hruns
      · obtain ⟨l, d, hd, hhome, hreturns⟩ := h.home hv hran
        exact ⟨l, d, hd, hlast.trans hhome, hreturns.of_agree hagree⟩
      · obtain ⟨c₀, hc₀, hcpu⟩ := h.cpus hc
        exact ⟨i, c₀, hc₀, hlast.trans (congrArg some hcpu.id), hreturns.congr hcpu.segments.symm⟩
    · obtain ⟨l, d, hd, hhome, hreturns⟩ := h.home hw hruns
      refine ⟨l, d, hd, hhome, ?_⟩
      have hne : w.guest.block ≠ v.guest.block := fun heq => hk (h.distinct h₀ hv hw heq)
      rw [show (m.withSession i j s).blocks.block w.guest.block = m.blocks.block w.guest.block from
        hs.others w.guest.block hne]
      exact hreturns

theorem Settled.withHost {h' : Host} (h : Settled m₀ m) (hc : m.cpus[i]? = some c)
    (hh : c.Remains h'.cpu ∧ h'.blocks = m.blocks) : Settled m₀ (m.withHost i h') where
  cpus := by
    intro k d hd
    obtain ⟨rfl, rfl⟩ | ⟨-, hd⟩ := cpus_withHost hd
    · obtain ⟨c₀, hc₀, hcpu⟩ := h.cpus hc
      exact ⟨c₀, hc₀, hcpu.trans hh.1⟩
    · exact h.cpus hd
  vms := h.vms
  home := fun hv hruns => by
    rw [show (m.withHost i h').blocks = m.blocks from hh.2]
    exact h.home hv hruns

theorem onSession_settled {α : Type} {x : SessionM α} (h₀ : m₀.Rested) (h : Settled m₀ m)
    (hx : Resides x) :
    (onSession i j x).Ends m (fun _ m' => Settled m₀ m') (fun _ m' => Settled m₀ m')
      fun _ _ => True := by
  refine onSession_ends h fun c v hc hv => ?_
  exact Ends.mono (hx _ (h.around hc) (h.familiar h₀ hc hv)) (fun _ _ hs => h.withSession h₀ hc hv hs)
    (fun _ _ hs => h.withSession h₀ hc hv hs) fun _ _ _ => trivial

theorem onHost_settled {α : Type} {x : HostM α} (h : Settled m₀ m)
    (hx : ∀ (c : Cpu) bs, x.Upholds (fun h => c.Remains h.cpu ∧ h.blocks = bs) fun _ _ => True) :
    (onHost i x).Ends m (fun _ m' => Settled m₀ m') (fun _ m' => Settled m₀ m') fun _ _ => True := by
  refine onHost_ends (fun _ => h) fun c hc => ?_
  obtain ⟨c₀, -, hcpu⟩ := h.cpus hc
  have hstart : c.Remains c := ⟨rfl, rfl, hcpu.receptive, hcpu.discreet⟩
  exact Ends.mono (hx c m.blocks _ ⟨hstart, rfl⟩) (fun _ _ hh => h.withHost hc hh)
    (fun _ _ hh => h.withHost hc hh) fun _ _ _ => trivial

/-- No command that moves guests breaks what moving them maintains. -/
theorem perform_settled {c : Command} (h₀ : m₀.Rested) (h : Settled m₀ m) (hc : c.order.Moves) :
    (perform c).Ends m (fun _ m' => Settled m₀ m') (fun _ m' => Settled m₀ m') fun _ _ => True := by
  obtain ⟨cpu, vm, table, order⟩ := c
  have hprocessor : ∀ {f : Processor → Processor},
      (∀ c, c.Receptive → (f c).Receptive) →
      (∀ c, (∀ e ∈ c.script, ScriptedExit.Discreet e) → ∀ e ∈ (f c).script, e.Discreet) →
        (onHost cpu (Host.onProcessor f)).Ends m (fun _ m' => Settled m₀ m')
          (fun _ m' => Settled m₀ m') fun _ _ => True := fun hreceptive hdiscreet =>
    onHost_settled h fun c bs h' hh => ⟨⟨hh.1.id, hh.1.segments, hreceptive _ hh.1.receptive,
      hdiscreet _ hh.1.discreet⟩, hh.2⟩
  cases order with
  | run => exact (ends_bind _ _).2 (onSession_settled h₀ h run_resides)
  | activate => exact (ends_bind _ _).2 (onSession_settled h₀ h activate_resides)
  | load => exact (ends_bind _ _).2 (onSession_settled h₀ h load_resides)
  | deactivate =>
      exact (ends_bind _ _).2 (onSession_settled h₀ h fun s₀ hs _ => deactivate_resides s₀ hs.resident)
  | vmxOn =>
      exact (ends_bind _ _).2 (onHost_settled h fun c bs => (Host.remains_rooting c bs).vmxOn)
  | vmxOff =>
      exact (ends_bind _ _).2 (onHost_settled h fun c bs => (Host.remains_rooting c bs).vmxOff)
  | clearFaults =>
      exact (ends_bind _ _).2 (hprocessor (fun _ _ x hx => absurd hx List.not_mem_nil) fun _ h => h)
  | script e =>
      refine (ends_bind _ _).2 (hprocessor (fun _ h => h) fun c hdiscreet x hx => ?_)
      rcases List.mem_append.1 hx with hx | hx
      · exact hdiscreet x hx
      · rw [List.mem_singleton.1 hx]
        exact hc
  | inject fault =>
      refine (ends_bind _ _).2 (hprocessor (fun c hreceptive x hx => ?_) fun _ h => h)
      rcases List.mem_append.1 hx with hx | hx
      · exact hreceptive x hx
      · rw [List.mem_singleton.1 hx]
        exact hc
  | _ => exact hc.elim

theorem Moved.settled (h₀ : m₀.Rested) (h : Moved m₀ m) : Settled m₀ m := by
  induction h with
  | start => exact h₀.settled
  | done _ hc hrun ih => exact (ends_ok hrun).1 (perform_settled h₀ ih hc)
  | failed _ hc hrun ih => exact (ends_error hrun).1 (perform_settled h₀ ih hc)

theorem Moved.after {m' : Machine} {commands : List Command} (h : Moved m₀ m)
    (hmoves : ∀ c ∈ commands, c.order.Moves) (hrun : m.after commands = some m') : Moved m₀ m' := by
  induction commands generalizing m with
  | nil =>
      cases hrun
      exact h
  | cons c rest ih =>
      obtain ⟨a, m₁, hstep, hrest⟩ := after_cons.1 hrun
      have hnow := h.done (hmoves c List.mem_cons_self) hstep
      exact ih hnow (fun c' hc' => hmoves c' (List.mem_cons_of_mem c hc')) hrest

end Step

def neighbours : Machine where
  memory := tableless.memory
  cpus := #[{ id := 0 }, { id := 1, segments := { tss := 0x38, tssBase := 0xffff800000101000 } }]
  vms := #[some newVm]

end Machine

end Hypervisor
