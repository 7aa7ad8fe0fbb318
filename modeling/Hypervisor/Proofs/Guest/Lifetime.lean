import Hypervisor.Guest.Lifetime
import Hypervisor.Proofs.Exit.Host
import Hypervisor.Proofs.Memory.Growth

/-!
# Building and freeing guests

Guests are built and freed by work on memory and flushes of the translations.  An invariant that
survives these, where memory grows, survives the building and the freeing of guests.  The pages of a
new guest are new.
-/

namespace Hypervisor

open Hypervisor.Action Memory

/-- The invariant survives whatever is done to memory, which grows, and flushes of the translations. -/
structure Host.Enduring (H : Host → Prop) : Prop extends Host.Calm H fun _ _ => True where
  memory : ∀ {h : Host} m, m.Past h.memory.next.toNat → H h → H { h with memory := m }
  flush : ∀ {h : Host} n, H h → H (h.withProcessor { h.cpu.processor with flushes := n })

namespace Host

theorem past_enduring (n : Nat) : Enduring fun h : Host => h.memory.Past n where
  overflow := fun _ _ _ => trivial
  log := fun _ h => h
  kernel := fun _ h => h
  spent := fun _ _ h => h
  memory := fun _ hm h => Nat.le_trans h hm
  flush := fun _ h => h

def buildWith (config : GuestConfig) (pages : Vector Hpa 5) : HostM Guest := do
  match ← Action.attempt (formatBlock (pages.get 1)) with
  | .error e =>
      onMemory (pages.toList.forM release)
      Action.fail e
  | .ok () =>
      let g : Guest :=
        { table := ⟨some (pages.get 0)⟩, block := pages.get 1, msrPage := pages.get 2
          ioBitmapA := pages.get 3, ioBitmapB := pages.get 4
          exceptionBitmap := config.exceptionBitmap, physSize := config.physSize }
      if config.populated then
        match ← Action.attempt (onMemory (g.table.populateAll g.physSize)) with
        | .ok () => return g
        | .error e =>
            match ← Action.attempt (freeGuest g) with
            | .ok () => pure ()
            | .error e =>
                say .warn ("Failed to release a partially populated guest: " ++ VmError.text e)
            Action.fail e
      else
        return g

theorem buildGuest_eq (config : GuestConfig) : buildGuest config = (do
    Action.require (config.physSize != 0 && config.physSize % pageSize == 0) .invalidArgument
    let pages ← Action.orFail (← onMemory (allocRetainedMany 5)) .noMemory
    buildWith config pages) := rfl

/-- A guest that was built and has not run. -/
structure New (config : GuestConfig) (g : Guest) : Prop where
  root : ∃ r, g.table.root = some r
  physSize : g.physSize = config.physSize
  launched : g.launched = false
  selected : g.rtcIndex = 0
  runs : g.runs = 0

theorem buildWith_returns (config : GuestConfig) (pages : Vector Hpa 5) :
    (buildWith config pages).Returns fun g => New config g ∧ g.block = pages.get 1 := by
  refine Returns.bind fun result => ?_
  split
  · exact Returns.bind fun _ => Returns.fail
  · dsimp only
    split
    · refine Returns.bind fun result => ?_
      split
      · exact Returns.pure ⟨⟨⟨_, rfl⟩, rfl, rfl, rfl, rfl⟩, rfl⟩
      · refine Returns.bind fun result => ?_
        split
        · exact Returns.fail
        · exact Returns.bind fun _ => Returns.fail
    · exact Returns.pure ⟨⟨⟨_, rfl⟩, rfl, rfl, rfl, rfl⟩, rfl⟩

theorem buildGuest_returns (config : GuestConfig) : (buildGuest config).Returns (New config) := by
  rw [buildGuest_eq]
  refine Returns.bind fun _ => Returns.bind fun _ => Returns.bind fun pages => ?_
  intro h
  exact Ends.mono (buildWith_returns config pages h) (fun g _ hg => hg.1) (fun _ _ h => h)
    fun _ _ h => h

theorem buildGuest_whole (config : GuestConfig) :
    (buildGuest config).Returns fun _ => config.physSize.toNat % 4096 = 0 := by
  intro h
  rw [buildGuest_eq, ends_bind, ends_require]
  split
  · rename_i hsize
    have hwhole : config.physSize % pageSize = 0 := eq_of_beq (Bool.and_eq_true_iff.1 hsize).2
    exact Ends.of_forall (fun _ _ => congrArg UInt64.toNat hwhole) (fun _ _ => trivial)
      fun _ _ => trivial
  · trivial

namespace Enduring

variable {H : Host → Prop}

theorem onMemory {α : Type} (hH : Enduring H) {x : MemoryM VmError α}
    (hx : ∀ n, x.Upholds (Past n) fun _ _ => True) : (Host.onMemory x).Upholds H fun _ _ => True := by
  intro h hh
  simp only [Host.onMemory, onPlatform, Platform.onMemory, ends_onPart]
  exact Ends.mono (hx h.memory.next.toNat h.memory (Nat.le_refl _)) (fun _ m hm => hH.memory m hm hh)
    (fun _ m hm => hH.memory m hm hh) fun _ _ h => h

theorem invept (hH : Enduring H) : Host.invept.Upholds H fun _ _ => True := by
  refine Upholds.bind (hH.expose _ _) fun _ => Upholds.bind Calm.processor fun p => ?_
  exact Upholds.bind Upholds.require fun _ => fun _ h => hH.flush _ h

theorem teardown (hH : Enduring H) (t : Ept) : (Host.teardown t).Upholds H fun _ _ => True :=
  Upholds.bind (hH.onMemory fun _ => Upholds.mapError (Ept.clear_past t)) fun _ => hH.invept

theorem freeGuest (hH : Enduring H) (g : Guest) :
    (Host.freeGuest g).Upholds H fun _ _ => True := by
  refine Upholds.bind (Upholds.attempt (hH.teardown _)) fun result => ?_
  have hlast : (do
      Host.onMemory (g.ownPages.forM release)
      ofExcept result).Upholds H fun _ _ => True :=
    Upholds.bind (hH.onMemory fun _ => Upholds.forM fun p _ => release_past p) fun _ =>
      Upholds.ofExcept
  split
  · exact Upholds.bind (hH.onMemory fun _ => release_past _) fun _ => hlast
  · exact hlast

theorem formatBlock (hH : Enduring H) (page : Hpa) :
    (Host.formatBlock page).Upholds H fun _ _ => True := by
  refine Upholds.bind Calm.processor fun p => Upholds.bind Upholds.require fun _ => ?_
  exact hH.onMemory fun _ => editPage_past _ _

theorem buildWith (hH : Enduring H) (config : GuestConfig) (pages : Vector Hpa 5) :
    (Host.buildWith config pages).Upholds H fun _ _ => True := by
  refine Upholds.bind (Upholds.attempt (hH.formatBlock _)) fun result => ?_
  split
  · refine Upholds.bind (hH.onMemory fun _ => ?_) fun _ => Upholds.fail
    exact Upholds.forM fun p _ => release_past p
  · refine Upholds.ite (fun _ => ?_) fun _ => Upholds.pure
    refine Upholds.bind (Upholds.attempt (hH.onMemory fun _ => Ept.populateAll_past _ _)) fun r => ?_
    split
    · exact Upholds.pure
    · refine Upholds.bind (Upholds.attempt (hH.freeGuest _)) fun result => ?_
      split
      · exact Upholds.fail
      · exact Upholds.bind (hH.say _ _) fun _ => Upholds.fail

theorem buildGuest (hH : Enduring H) (config : GuestConfig) :
    (Host.buildGuest config).Upholds H fun _ _ => True := by
  rw [buildGuest_eq]
  refine Upholds.bind Upholds.require fun _ => Upholds.bind ?_ fun pages => ?_
  · exact hH.onMemory fun n m h => Ends.mono (allocRetainedMany_ends 5 h) (fun _ _ h => h.1)
      (fun _ _ h => h) fun _ _ h => h
  · exact Upholds.bind Upholds.orFail fun pages => hH.buildWith config pages

end Enduring

/-- The control block of a new guest is in a new page. -/
theorem buildGuest_issued (config : GuestConfig) (h : Host) :
    (buildGuest config).Ends h (fun g h' => h'.memory.Issued h.memory.next.toNat g.block)
      (fun _ _ => True) fun _ _ => True := by
  have hpages : (onMemory (allocRetainedMany 5)).Ends h
      (fun r h₁ => ∀ v, r = some v → ∀ p ∈ v, h₁.memory.Issued h.memory.next.toNat p)
      (fun _ _ => True) fun _ _ => True := by
    simp only [onMemory, onPlatform, Platform.onMemory, ends_onPart]
    exact Ends.mono (allocRetainedMany_ends 5 (Nat.le_refl _)) (fun _ _ hr => hr.2)
      (fun _ _ _ => trivial) fun _ _ _ => trivial
  rw [buildGuest_eq, ends_bind, ends_require]
  split
  · rw [ends_bind]
    refine Ends.mono hpages (fun r h₁ hr => ?_) (fun _ _ h => h) fun _ _ h => h
    rw [ends_bind, ends_orFail]
    split
    · rename_i v
      obtain ⟨hlow, hhigh⟩ := hr v rfl (v.get 1) (Vector.getElem_mem _)
      refine Ends.mono (((past_enduring _).buildWith config v h₁ hhigh).and
        (buildWith_returns config v h₁)) (fun g h₂ hg => ?_) (fun _ _ _ => trivial) fun _ _ _ => trivial
      rw [hg.2.2]
      exact ⟨hlow, hg.1⟩
    · trivial
  · trivial

end Host

end Hypervisor
