import Hypervisor.Proofs.Detached
import Hypervisor.Proofs.Guest.Lifetime
import Hypervisor.Proofs.Mirrors

/-!
# Entering and leaving VMX root operation

On a cpu on which no instruction is made to fail, whatever does not load or clear a control block
leaves the copies of the current block and of the root flag right.  A page is given up exactly while the
processor is in VMX root operation.
-/

namespace Hypervisor

open Hypervisor.Action

namespace Host

structure Rooting (H : Host → Prop) : Prop extends Enduring H, Rootless H fun _ _ => True where
  noted : ∀ {h} r b, H h → H { h with cpu := { h.cpu with region := r, current := b } }

variable {H : Host → Prop}

/-- Beyond what else is done to the host, the invariant has to survive the entry with a page. -/
theorem Enduring.vmxOn_of (hH : Enduring H)
    (henter : ∀ region, (enterRoot region).Upholds H fun _ _ => True)
    (hnoted : ∀ region h, H h → H { h with cpu := { h.cpu with region := some region } }) :
    vmxOn.Upholds H fun _ _ => True := by
  refine Upholds.get_bind fun h _ => Upholds.ite (fun _ => Upholds.pure) fun _ => ?_
  refine Upholds.bind hH.checkSupport fun _ => ?_
  refine Upholds.bind (hH.onMemory fun _ => Memory.allocRetained_past) fun page => ?_
  refine Upholds.bind Upholds.orFail fun region => ?_
  refine Upholds.bind (Upholds.attempt (henter region)) fun result => ?_
  split
  · exact Upholds.bind (fun h hh => hnoted region h hh) fun _ => hH.sayOnCpu _ _
  · exact Upholds.bind (hH.onMemory fun _ => Memory.release_past region) fun _ => Upholds.fail

namespace Rooting

theorem enterRoot (hH : Rooting H) (region : Hpa) :
    (Host.enterRoot region).Upholds H fun _ _ => True := by
  refine Upholds.bind (hH.formatBlock region) fun _ => Upholds.bind (hH.prepareFixed _) fun _ => ?_
  exact Upholds.bind (hH.prepareFixed _) fun _ => Upholds.bind hH.lockFeatureControl fun _ => hH.vmxon

theorem vmxOn (hH : Rooting H) : Host.vmxOn.Upholds H fun _ _ => True :=
  hH.toEnduring.vmxOn_of hH.enterRoot fun region h hh => hH.noted (some region) h.cpu.current hh

theorem vmxOff (hH : Rooting H) : Host.vmxOff.Upholds H fun _ _ => True := by
  refine Upholds.get_bind fun h _ => ?_
  split
  · exact Upholds.pure
  · refine Upholds.bind hH.vmxoff fun _ => Upholds.bind (fun _ hh => hH.noted none none hh) fun _ => ?_
    exact hH.onMemory fun _ => Memory.release_past _

end Rooting

/-- The copies on a cpu are right, with this page given up and in or out of VMX root operation.  Since
`h₀` no block has changed its launch state, and memory has grown. -/
structure Follows (h₀ : Host) (r : Option Hpa) (on : Bool) (h : Host) : Prop where
  region : h.cpu.region = r
  root : h.cpu.processor.root = on
  current : h.cpu.current = h.cpu.processor.current
  faultless : h.cpu.processor.faults = []
  launched : ∀ p, (h.blocks.block p).launched = (h₀.blocks.block p).launched
  past : h.memory.Past h₀.memory.next.toNat

def Mirrors (h₀ h : Host) : Prop := ∃ r, Follows h₀ r r.isSome h

variable {h₀ h : Host} {r : Option Hpa} {on : Bool}

theorem Follows.withProcessor {c : Processor} (hh : Follows h₀ r on h)
    (hroot : c.root = h.cpu.processor.root) (hcurrent : c.current = h.cpu.processor.current)
    (hfaults : c.faults = []) : Follows h₀ r on (h.withProcessor c) where
  region := hh.region
  root := hroot.trans hh.root
  current := hh.current.trans hcurrent.symm
  faultless := hfaults
  launched := hh.launched
  past := hh.past

theorem follows_enduring (h₀ : Host) (r : Option Hpa) (on : Bool) : Enduring (Follows h₀ r on) where
  overflow := fun _ _ _ => trivial
  log := fun _ h => ⟨h.region, h.root, h.current, h.faultless, h.launched, h.past⟩
  kernel := fun _ h => ⟨h.region, h.root, h.current, h.faultless, h.launched, h.past⟩
  spent := fun p f h => by
    rw [spent_of_faultless h.faultless]
    exact h
  memory := fun _ hm h => ⟨h.region, h.root, h.current, h.faultless, h.launched,
    Nat.le_trans h.past hm⟩
  flush := fun _ h => h.withProcessor rfl rfl h.faultless

theorem onProcessor_follows {f : Processor → Processor} (hroot : ∀ c, (f c).root = c.root)
    (hcurrent : ∀ c, (f c).current = c.current)
    (hfaults : ∀ c : Processor, c.faults = [] → (f c).faults = []) :
    (onProcessor f).Upholds (Follows h₀ r on) fun _ _ => True :=
  fun _ h => h.withProcessor (hroot _) (hcurrent _) (hfaults _ h.faultless)

theorem vmwriteAll_follows (writes : List (Field × UInt64)) :
    (vmwriteAll writes).Upholds (Follows h₀ r on) fun _ _ => True := by
  refine (follows_enduring h₀ r on).vmwriteAll fun w _ h p _ hh => ?_
  have hsame := h.blocks.launched_update p (f := fun b => b.write w.1 w.2) fun _ => rfl
  exact ⟨hh.region, hh.root, hh.current, hh.faultless, fun q => (hsame q).trans (hh.launched q),
    hh.past⟩

theorem vmxon_follows (hh : Follows h₀ none false h) :
    vmxon.Ends h (fun _ h' => Follows h₀ none true h') (fun _ h' => Follows h₀ none false h')
      fun _ _ => True := by
  rw [vmxon, ends_bind]
  refine expose_ends ?_ (Processor.forall_faults hh.faultless)
  rw [spent_of_faultless hh.faultless]
  simp only [processor, onProcessor, onCpu, bind_assoc, pure_bind, ends_bind, ends_get, ends_require,
    ends_modify]
  split
  · split
    · exact ⟨hh.region, rfl, hh.current, hh.faultless, hh.launched, hh.past⟩
    · exact hh
  · exact hh

theorem enterRoot_follows (region : Hpa) (hh : Follows h₀ none false h) :
    (enterRoot region).Ends h (fun _ h' => Follows h₀ none true h')
      (fun _ h' => Follows h₀ none false h') fun _ _ => True := by
  have hwork : ∀ {f : Processor → Processor}, (∀ c, (f c).root = c.root) →
      (∀ c, (f c).current = c.current) → (∀ c : Processor, c.faults = [] → (f c).faults = []) →
        (onProcessor f).Upholds (Follows h₀ none false) fun _ _ => True := onProcessor_follows
  have hprepare : (do
      formatBlock region
      prepareFixed .cr0
      prepareFixed .cr4
      lockFeatureControl).Upholds (Follows h₀ none false) fun _ _ => True := by
    refine Upholds.bind ((follows_enduring h₀ none false).formatBlock region) fun _ => ?_
    have hfixed : ∀ r, (prepareFixed r).Upholds (Follows h₀ none false) fun _ _ => True := fun r => by
      refine Upholds.bind Calm.processor fun p => Upholds.bind ?_ fun _ => Upholds.require
      exact hwork (fun _ => rfl) (fun _ => rfl) fun _ h => h
    refine Upholds.bind (hfixed _) fun _ => Upholds.bind (hfixed _) fun _ => ?_
    refine Upholds.bind Calm.processor fun p => Upholds.bind Upholds.require fun _ => ?_
    refine Upholds.ite (fun _ => Upholds.pure) fun _ => ?_
    exact hwork (fun _ => rfl) (fun _ => rfl) fun _ h => h
  have henter : enterRoot region = (do
      formatBlock region
      prepareFixed .cr0
      prepareFixed .cr4
      lockFeatureControl) >>= fun _ => vmxon := by
    simp only [enterRoot, bind_assoc]
  rw [henter, ends_bind]
  exact Ends.mono (hprepare h hh) (fun _ _ h₁ => vmxon_follows h₁) (fun _ _ h => h) fun _ _ h => h

theorem vmxOn_mirrors : vmxOn.Upholds (Mirrors h₀) fun _ _ => True := by
  rintro h ⟨r, hh⟩
  rw [vmxOn, ends_bind, ends_get, hh.region]
  cases r with
  | some r => exact ⟨_, hh⟩
  | none =>
      have hout := follows_enduring h₀ none false
      rw [if_neg (by decide), ends_bind]
      refine Ends.mono (hout.checkSupport h hh) (fun _ h₁ hh₁ => ?_) (fun _ _ h => ⟨_, h⟩)
        fun _ _ h => h
      rw [ends_bind]
      refine Ends.mono (hout.onMemory (fun _ => Memory.allocRetained_past) h₁ hh₁)
        (fun region h₂ hh₂ => ?_) (fun _ _ h => ⟨_, h⟩) fun _ _ h => h
      rw [ends_bind, ends_orFail]
      cases region with
      | none => exact ⟨_, hh₂⟩
      | some region =>
          show Ends _ h₂ _ _ _
          rw [ends_bind, ends_attempt]
          refine Ends.mono (enterRoot_follows region hh₂) (fun _ h₃ hh₃ => ?_) (fun e h₃ hh₃ => ?_)
            fun _ _ h => h
          · exact ⟨some region, rfl, hh₃.root, hh₃.current, hh₃.faultless, hh₃.launched,
              hh₃.past⟩
          · show Ends _ h₃ _ _ _
            rw [ends_bind]
            exact Ends.mono (hout.onMemory (fun _ => Memory.release_past region) h₃ hh₃)
              (fun _ _ h => ⟨_, h⟩) (fun _ _ h => ⟨_, h⟩) fun _ _ h => h

theorem vmxOff_mirrors : vmxOff.Upholds (Mirrors h₀) fun _ _ => True := by
  rintro h ⟨r, hh⟩
  rw [vmxOff, ends_bind, ends_get, hh.region]
  cases r with
  | none => exact ⟨_, hh⟩
  | some region =>
      show Ends _ h _ _ _
      rw [ends_bind, vmxoff, ends_bind]
      refine expose_ends ?_ (Processor.forall_faults hh.faultless)
      rw [spent_of_faultless hh.faultless]
      simp only [processor, onProcessor, onCpu, bind_assoc, pure_bind, ends_bind, ends_get,
        ends_require, ends_modify]
      split
      · have hleft : Follows h₀ none false { h with
            cpu := { h.cpu with
              processor := { h.cpu.processor with root := false, current := none }
              region := none, current := none } } :=
          ⟨rfl, rfl, rfl, hh.faultless, hh.launched, hh.past⟩
        exact Ends.mono ((follows_enduring h₀ none false).onMemory
          (fun _ => Memory.release_past region) _ hleft) (fun _ _ h => ⟨_, h⟩) (fun _ _ h => ⟨_, h⟩)
          fun _ _ h => h
      · exact ⟨_, hh⟩

end Host

end Hypervisor
