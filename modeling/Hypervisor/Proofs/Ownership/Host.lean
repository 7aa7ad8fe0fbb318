import Hypervisor.Proofs.Detached
import Hypervisor.Proofs.Guest.Lifetime
import Hypervisor.Proofs.Ownership.Actions

/-!
# Guests and cpus as owners

Building a guest gives roles to five pages and freeing it takes the roles back; a cpu gives up a page
when it enters VMX root operation and gets it back when it leaves.  A failure on the way leaves no
page with a role.
-/

namespace Hypervisor

namespace Host

open Hypervisor.Action

theorem region_enduring (r : Option Hpa) : Enduring fun h : Host => h.cpu.region = r where
  overflow := fun _ _ _ => trivial
  log := fun _ h => h
  kernel := fun _ h => h
  spent := fun _ _ h => h
  memory := fun _ _ h => h
  flush := fun _ h => h

end Host

namespace Estate

/-- The estate with the pages of one more guest. -/
def lodge (e : Estate) (g : Guest) : Estate :=
  { e with roots := g.table.root.toList + e.roots, others := g.ownPages + e.others }

theorem lodge_eq {e : Estate} {g : Guest} {root : Hpa} (hroot : g.table.root = some root) :
    e.lodge g = (e.giveAll g.ownPages).plant root := by
  rw [lodge, plant, giveAll, hroot, Option.toList_some, Multiset.coe_singleton,
    Multiset.singleton_add]

theorem mem_roots_lodge {e : Estate} {g : Guest} {root : Hpa} (hroot : g.table.root = some root) :
    root ∈ (e.lodge g).roots := by
  rw [lodge_eq hroot]
  exact Multiset.mem_cons_self root _

end Estate

namespace Host

open Hypervisor.Action Memory

variable {F : Panic → Prop} {h : Host} {e : Estate} {I : Prop}

/-- Freeing a guest takes all roles back, whether or not the flush of the translations fails, and what
holds when its table is torn down still holds when its pages are given back. -/
theorem freeGuest_lasts {K L : Memory → Prop} {g : Guest} {root : Hpa}
    (hroot : g.table.root = some root) (hgiven : Lasts K e I)
    (hdown : ∀ {m m' a}, m.Sound (e.lodge g) I a →
      TornDown m a {r | r ∈ (e.lodge g).roots} root m' → L m → K m') :
    (freeGuest g).Safe F h (h.memory.Owned (e.lodge g) I ∧ L h.memory)
      (fun _ h' => h'.memory.Owned e I ∧ K h'.memory)
      (fun _ h' => h'.memory.Owned e I ∧ K h'.memory) := by
  have hmem : root ∈ (e.lodge g).roots := Estate.mem_roots_lodge hroot
  have hrest : ∀ (result : Except VmError Unit) (h₁ : Host),
      (do
        onMemory (release root)
        onMemory (g.ownPages.forM release)
        ofExcept result).Safe F h₁
        (h₁.memory.Owned ((e.giveAll g.ownPages).give root) I ∧ K h₁.memory)
        (fun _ h' => h'.memory.Owned e I ∧ K h'.memory)
        (fun _ h' => h'.memory.Owned e I ∧ K h'.memory) := by
    intro result h₁
    refine Safe.bind (R := fun _ h₂ => h₂.memory.Owned (e.giveAll g.ownPages) I ∧ K h₂.memory)
      (onMemory_safe ((release_lasts hgiven).mono (fun _ hp => hp) (fun _ _ _ _ _ hq => hq)
        fun _ _ _ _ _ he => he.elim)) fun _ h₂ => ?_
    refine Safe.bind (R := fun _ h₃ => h₃.memory.Owned e I ∧ K h₃.memory)
      (onMemory_safe ((releaseAll_lasts hgiven g.ownPages).mono (fun _ hp => hp.2)
        (fun _ _ _ _ _ hq => hq) fun _ _ _ _ _ he => he.elim)) fun _ h₃ => Safe.last ?_
    exact Safe.ofExcept_bind (fun _ _ => Safe.pure fun _ hp => hp.2) fun _ _ _ hp => hp.2
  have hdone : ∀ {h₁ : Host} {a : Account}, (h.memory.Sound (e.lodge g) I a ∧ L h.memory) ∧
      TornDown h.memory a {r | r ∈ (e.lodge g).roots} root h₁.memory →
      h₁.memory.Owned ((e.giveAll g.ownPages).give root) I ∧ K h₁.memory := by
    rintro h₁ a ⟨⟨hs, hl⟩, hd⟩
    obtain ⟨a', hs', hempty⟩ := hs.of_tornDown hd
    rw [Estate.lodge_eq hroot] at hs'
    exact ⟨⟨_, hs'.fell hempty⟩, hdown hs hd hl⟩
  refine (Safe.exists (R := fun a => h.memory.Sound (e.lodge g) I a ∧ L h.memory)
    fun a => ?_).assume fun _ ⟨⟨a, hs⟩, hl⟩ => ⟨a, hs, hl⟩
  rw [freeGuest, hroot]
  refine Safe.attempt_bind ((teardown_safe (a := a) {r | r ∈ (e.lodge g).roots} hroot).assume
    fun _ hp => ⟨hp.1.balanced, hp.1.rooted, hmem, hp.1.level hmem⟩) ?_ ?_
  · exact fun _ h₁ => (hrest _ h₁).assume fun _ hp => hdone hp
  · exact fun _ h₁ => (hrest _ h₁).assume fun _ hp => hdone hp

theorem freeGuest_safe {g : Guest} {root : Hpa} (hroot : g.table.root = some root) :
    (freeGuest g).Safe F h (h.memory.Owned (e.lodge g) I) (fun _ h' => h'.memory.Owned e I)
      (fun _ h' => h'.memory.Owned e I) :=
  (freeGuest_lasts (L := fun _ => True) hroot carried_true.lasts fun _ _ _ => trivial).mono
    (fun _ hp => ⟨hp, trivial⟩) (fun _ _ _ _ _ hp => hp.1) fun _ _ _ _ _ hp => hp.1

theorem granted_zero {m : Memory} {g : Guest} {root : Hpa} (f : PageWords → PageWords)
    (h : m.Granted e I (root :: g.ownPages)) : (m.edited g.block f).words root = .zero := by
  obtain ⟨⟨a, h⟩, hzero⟩ := h
  have hblock : g.block ∈ (e.giveAll (root :: g.ownPages)).others :=
    Multiset.mem_add.2 (.inl (List.mem_cons_of_mem _ List.mem_cons_self))
  have hroot : root ∈ (e.giveAll (root :: g.ownPages)).others :=
    Multiset.mem_add.2 (.inl List.mem_cons_self)
  rw [words_edited_of_ne f, hzero root List.mem_cons_self]
  rw [h.other_pageDown hroot, h.other_pageDown hblock]
  intro he
  have hnodup := h.nodup
  rw [Estate.giveAll_cons, Estate.roles_give, Multiset.nodup_cons, Estate.mem_roles] at hnodup
  refine hnodup.1 (.inr (.inr ?_))
  rw [he]
  exact Multiset.mem_add.2 (.inl List.mem_cons_self)

theorem granted_lodge {m : Memory} {g : Guest} {root : Hpa}
    (f : PageWords → PageWords) (h : m.Granted e I (root :: g.ownPages))
    (hroot : g.table.root = some root) : (m.edited g.block f).Owned (e.lodge g) I := by
  have hzero := granted_zero f h
  obtain ⟨⟨a, h⟩, -⟩ := h
  have hblock : g.block ∈ (e.giveAll (root :: g.ownPages)).others :=
    Multiset.mem_add.2 (.inl (List.mem_cons_of_mem _ List.mem_cons_self))
  have hedited : (m.edited g.block f).Sound (e.giveAll (root :: g.ownPages)) I a := by
    apply h.edited
    rw [h.other_pageDown hblock]
    exact h.other hblock
  rw [Estate.giveAll_cons] at hedited
  rw [Estate.lodge_eq hroot]
  exact ⟨_, hedited.plant hzero⟩

structure Founds (K : Memory → Prop) (L : Guest → Memory → Prop) (config : GuestConfig) (e : Estate)
    (I : Prop) : Prop where
  first : ∀ {m g root} f, New config g → g.table.root = some root →
    m.Granted e I (root :: g.ownPages) → K m → L g (m.edited g.block f)
  populate : ∀ {F m g root}, New config g → g.table.root = some root →
    (g.table.populateAll g.physSize).Safe F m (m.Owned (e.lodge g) I ∧ L g m)
      (fun _ m' => m'.Owned (e.lodge g) I ∧ L g m') (fun _ m' => m'.Owned (e.lodge g) I ∧ L g m')
  freed : ∀ {m m' g root a}, g.table.root = some root → m.Sound (e.lodge g) I a →
    TornDown m a {r | r ∈ (e.lodge g).roots} root m' → L g m → K m'

private theorem populateNew_founds {K : Memory → Prop} {L : Guest → Memory → Prop}
    {config : GuestConfig} {g : Guest} {root : Hpa} (hlasts : Lasts K e I)
    (hL : Founds K L config e I) (hnew : New config g) (hroot : g.table.root = some root) :
    (do
      match ← attempt (onMemory (g.table.populateAll g.physSize)) with
      | .ok () => return g
      | .error e =>
          match ← attempt (freeGuest g) with
          | .ok () => pure ()
          | .error e =>
              say .warn ("Failed to release a partially populated guest: " ++ VmError.text e)
          fail e : HostM Guest).Safe F h (h.memory.Owned (e.lodge g) I ∧ L g h.memory)
      (fun g h' => h'.memory.Owned (e.lodge g) I ∧ L g h'.memory)
      (fun _ h' => h'.memory.Owned e I ∧ K h'.memory) := by
  have hpopulate : (onMemory (g.table.populateAll g.physSize)).Safe F h
      (h.memory.Owned (e.lodge g) I ∧ L g h.memory)
      (fun _ h' => h'.memory.Owned (e.lodge g) I ∧ L g h'.memory)
      (fun _ h' => h'.memory.Owned (e.lodge g) I ∧ L g h'.memory) :=
    onMemory_safe (hL.populate hnew hroot)
  refine Safe.attempt_bind hpopulate (fun _ h₁ => Safe.pure fun _ hp => hp.2) fun err h₁ => ?_
  refine Safe.attempt_bind ((freeGuest_lasts hroot hlasts (hL.freed hroot)).assume
    fun _ hp => hp.2) (fun _ h₂ => ?_) fun err' h₂ => ?_
  · exact Safe.fail fun _ hp => hp.2
  · exact Safe.modify_bind rfl (Safe.fail fun _ hp => hp.2)

/-- A guest is built with five new pages in their roles, or nothing is kept of the attempt. -/
theorem buildGuest_founds {K : Memory → Prop} {L : Guest → Memory → Prop} {config : GuestConfig}
    (hK : Carried K e I) (hL : Founds K L config e I) :
    (buildGuest config).Safe F h (h.memory.Owned e I ∧ K h.memory)
      (fun g h' => h'.memory.Owned (e.lodge g) I ∧ L g h'.memory)
      (fun _ h' => h'.memory.Owned e I ∧ K h'.memory) := by
  refine Safe.require_bind (fun _ => ?_) fun _ _ hp => hp
  refine Safe.bind (R := fun r h₁ => h₁.memory.Granted e I (r.elim [] Vector.toList) ∧ K h₁.memory)
    (onMemory_safe ((allocRetainedMany_carries hK 5).mono (fun _ hp => hp)
      (fun _ _ _ _ _ hq => hq) fun _ _ _ _ _ he => he.elim)) fun r h₁ => ?_
  refine Safe.orFail_bind (fun v hv => ?_) fun hnone _ hp => ?_
  · subst hv
    refine Safe.attempt_bind (formatBlock_safe fun hp => ?_) (fun _ h₂ => ?_) fun _ h₂ => ?_
    · obtain ⟨⟨a, hs⟩, -⟩ := hp.2.1
      have hmem : v[1] ∈ (e.giveAll v.toList).others :=
        Multiset.mem_add.2 (.inl (Vector.mem_toList_iff.2 (Vector.getElem_mem _)))
      rw [hs.other_pageDown hmem]
      exact hs.other_live hmem
    · have hlist : v.toList = [v[0], v[1], v[2], v[3], v[4]] := toList_pages v
      have hlodge : ∀ {g : Guest}, New config g → g.table.root = some v[0] →
          v[0] :: g.ownPages = v.toList →
          ((h.memory.Owned e I ∧ K h.memory) ∧ h₁.memory.Granted e I v.toList ∧ K h₁.memory) ∧
            (∃ f, h₂.memory = h₁.memory.edited g.block f) →
          h₂.memory.Owned (e.lodge g) I ∧ L g h₂.memory := by
        rintro g hnew hroot hpages ⟨⟨-, hgranted, hk⟩, f, hf⟩
        rw [← hpages] at hgranted
        rw [hf]
        exact ⟨granted_lodge f hgranted hroot, hL.first f hnew hroot hgranted hk⟩
      refine Safe.ite (fun _ => ?_) fun _ => ?_
      · exact (populateNew_founds hK.lasts hL ⟨⟨_, rfl⟩, rfl, rfl, rfl, rfl⟩ rfl).assume
          fun _ hp => hlodge ⟨⟨_, rfl⟩, rfl, rfl, rfl, rfl⟩ rfl hlist.symm hp
      · exact Safe.pure fun _ hp => hlodge ⟨⟨_, rfl⟩, rfl, rfl, rfl, rfl⟩ rfl hlist.symm hp
    · refine Safe.bind (R := fun _ h₃ => h₃.memory.Owned e I ∧ K h₃.memory)
        (onMemory_safe ((releaseAll_lasts hK.lasts v.toList).mono (fun _ hp => ?_)
          (fun _ _ _ _ _ hq => hq) fun _ _ _ _ _ he => he.elim)) fun _ h₃ => ?_
      · rw [hp.2]
        exact ⟨hp.1.2.1.1, hp.1.2.2⟩
      · exact Safe.fail fun _ hp => hp.2
  · subst hnone
    have hnothing := hp.2.1.1
    rw [Option.elim_none, Estate.giveAll_nil] at hnothing
    exact ⟨hnothing, hp.2.2⟩

theorem buildGuest_safe (config : GuestConfig) (hsize : I → config.physSize.toNat ≤ 2 ^ 48) :
    (buildGuest config).Safe F h (h.memory.Owned e I) (fun g h' => h'.memory.Owned (e.lodge g) I)
      (fun _ h' => h'.memory.Owned e I) := by
  have hfounds : Founds (fun _ => True) (fun _ _ => True) config e I := by
    refine ⟨fun _ _ _ _ _ => trivial, fun hnew hroot => ?_, fun _ _ _ _ => trivial⟩
    rw [← hnew.physSize] at hsize
    exact (Ept.populateAll_owned hroot (Estate.mem_roots_lodge hroot) _ hsize).mono
      (fun _ hp => hp.1) (fun _ _ _ _ _ hp => ⟨hp, trivial⟩) fun _ _ _ _ _ hp => ⟨hp, trivial⟩
  exact (buildGuest_founds carried_true hfounds).mono (fun _ hp => ⟨hp, trivial⟩)
    (fun _ _ _ _ _ hp => hp.1) fun _ _ _ _ _ hp => hp.1

theorem memory_detached (m : Memory) :
    Detached (fun h : Host => h.memory = m) fun _ h => h.memory = m where
  overflow := fun _ _ h => h
  log := fun _ h => h
  kernel := fun _ h => h
  spent := fun _ _ h => h
  blocks := fun _ h => h
  processor := fun _ h => h
  current := fun _ h => h

theorem quiet_of_upholds {α : Type} {x : HostM α}
    (hx : ∀ m, x.Upholds (fun h : Host => h.memory = m) fun _ h => h.memory = m) :
    x.Quiet fun _ => True :=
  fun h => Ends.mono (hx h.memory h rfl) (fun _ _ h => h) (fun _ _ h => h) fun _ _ h => ⟨h, trivial⟩

theorem quiet_of_detached {α : Type} {x : HostM α}
    (hx : ∀ {H F}, Detached H F → x.Upholds H F) : x.Quiet fun _ => True :=
  quiet_of_upholds fun m => hx (memory_detached m)

theorem dump_quiet (disassemble : Disassembler) (t : Ept) :
    (dump disassemble t.resolve).Quiet fun _ => True := by
  refine quiet_of_upholds fun m => (memory_detached m).toCalm.dump fun gpa h hh => ?_
  have hresolve := (Ept.resolve_quiet (ε := VmError) t gpa) h.memory
  simp only [onMemory, onPlatform, Platform.onMemory, ends_onPart]
  exact Ends.mono hresolve (fun _ _ ht => ht.trans hh) (fun _ _ ht => ht.trans hh)
    fun _ _ ht => ht.1.trans hh

section RootPage

variable {K : Memory → Prop} {page : Hpa}

theorem checkSupport_quiet : checkSupport.Quiet F := by
  refine Quiet.bind processor_quiet fun c => ?_
  split
  · exact Quiet.pure
  · exact Quiet.bind (sayOnCpu_quiet _ _) fun _ => Quiet.fail

theorem prepareFixed_quiet (r : FixedRegister) : (prepareFixed r).Quiet F :=
  Quiet.bind processor_quiet fun _ => Quiet.bind (onProcessor_quiet _) fun _ => Quiet.require

theorem lockFeatureControl_quiet : lockFeatureControl.Quiet F := by
  refine Quiet.bind processor_quiet fun c => Quiet.bind Quiet.require fun _ => ?_
  split
  · exact Quiet.pure
  · exact onProcessor_quiet _

theorem vmxon_quiet : vmxon.Quiet F := by
  refine Quiet.bind (expose_quiet _ _) fun _ => Quiet.bind processor_quiet fun c => ?_
  refine Quiet.bind Quiet.require fun _ => Quiet.bind Quiet.require fun _ => ?_
  exact onProcessor_quiet _

theorem enterRoot_carries (hK : Carried K e I) :
    (enterRoot page).Safe F h (h.memory.Owned (e.give page) I ∧ K h.memory)
      (fun _ h' => h'.memory.Owned (e.give page) I ∧ K h'.memory)
      (fun _ h' => h'.memory.Owned (e.give page) I ∧ K h'.memory) := by
  have hmem : page ∈ (e.give page).others := Multiset.mem_cons_self page e.others
  have hgive : e.give page = e.giveAll [page] := by rw [Estate.giveAll_cons, Estate.giveAll_nil]
  have hquiet : (do
      prepareFixed .cr0
      prepareFixed .cr4
      lockFeatureControl
      vmxon).Quiet F :=
    Quiet.bind (prepareFixed_quiet _) fun _ => Quiet.bind (prepareFixed_quiet _) fun _ =>
      Quiet.bind lockFeatureControl_quiet fun _ => vmxon_quiet
  refine Safe.bind (R := fun _ h₁ => h₁.memory.Owned (e.give page) I ∧ K h₁.memory)
    ((formatBlock_safe fun hp => ?_).mono (fun _ hp => hp) ?_ ?_) fun _ h₁ => ?_
  · obtain ⟨⟨a, hs⟩, -⟩ := hp
    rw [hs.other_pageDown hmem]
    exact hs.other_live hmem
  · rintro _ h₁ - - ⟨⟨a, hs⟩, hk⟩ ⟨f, hf⟩
    have hpage : page.pageDown = page := hs.other_pageDown hmem
    rw [hf]
    refine ⟨⟨a, hs.edited (hs.other (hpage.symm ▸ hmem))⟩, ?_⟩
    rw [hgive] at hs
    exact hK.edited f hs (List.mem_singleton.2 hpage) hk
  · rintro _ h₁ - - hp hm
    rwa [hm]
  · exact (hquiet.keeps fun m => m.Owned (e.give page) I ∧ K m).assume fun _ hp => hp.2

theorem vmxOn_carries (hK : Carried K e I) :
    vmxOn.Safe F h (h.memory.Owned (e.giveAll h.cpu.region.toList) I ∧ K h.memory)
      (fun _ h' => K h'.memory) (fun _ h' => K h'.memory) := by
  refine Safe.get_bind (Safe.ite (fun _ => Safe.pure fun _ hp => hp.2) fun hregion => ?_)
  rw [Option.not_isSome_iff_eq_none.1 hregion, Option.toList_none, Estate.giveAll_nil]
  refine checkSupport_quiet.step (fun _ h₁ hm₁ => ?_) fun _ h₁ hm₁ _ hp => ?_
  · have hm₁ : h₁.memory = h.memory := hm₁
    rw [← hm₁]
    refine Safe.bind (R := fun r h₂ => h₂.memory.Owned (e.giveAll r.toList) I ∧ K h₂.memory)
      (onMemory_safe ((allocRetained_carries hK).mono (fun _ hp => hp) (fun _ _ _ _ _ hq => hq)
        fun _ _ _ _ _ he => he.elim)) fun r h₂ => ?_
    refine Safe.orFail_bind (fun p hp => ?_) fun _ _ hp => hp.2.2
    subst hp
    rw [Option.toList_some, Estate.giveAll_cons, Estate.giveAll_nil]
    refine Safe.attempt_bind ((enterRoot_carries hK).assume fun _ hp => hp.2) (fun _ h₃ => ?_)
      fun err h₃ => ?_
    · exact Safe.modify_bind rfl (((sayOnCpu_quiet _ _).keeps K).assume fun _ hp => hp.2.2)
    · refine Safe.bind (R := fun _ h₄ => K h₄.memory) (onMemory_safe ((release_carries hK).mono
        (fun _ hp => hp.2) (fun _ _ _ _ _ hq => hq.2) fun _ _ _ _ _ he => he.elim)) fun _ h₄ => ?_
      exact Safe.fail fun _ hp => hp.2
  · have hm₁ : h₁.memory = h.memory := hm₁
    rw [hm₁]
    exact hp.2

theorem vmxOff_carries (hK : Carried K e I) :
    vmxOff.Safe (fun _ => True) h (h.memory.Owned (e.giveAll h.cpu.region.toList) I ∧ K h.memory)
      (fun _ h' => K h'.memory) (fun _ h' => K h'.memory) := by
  refine Safe.get_bind ?_
  cases h.cpu.region with
  | none => exact Safe.pure fun _ hp => hp.2
  | some page =>
      rw [Option.toList_some, Estate.giveAll_cons, Estate.giveAll_nil]
      have hquiet := (quiet_of_detached fun hH => hH.vmxoff).keeps (s := h)
        fun m => m.Owned (e.give page) I ∧ K m
      refine Safe.bind (hquiet.mono (fun _ hp => hp) (fun _ _ _ _ _ hq => hq)
        fun _ _ _ _ _ he => he.2) fun _ h₁ => Safe.modify_bind rfl ?_
      exact onMemory_safe ((release_carries hK).mono (fun _ hp => hp.2)
        (fun _ _ _ _ _ hq => hq.2) fun _ _ _ _ _ he => he.elim)

end RootPage

def Bears (r : Option Hpa) (e : Estate) (I : Prop) (h : Host) : Prop :=
  h.cpu.region = r ∧ (h.memory.Fits → h.memory.Owned e I)

section RootOperation

variable {r : Option Hpa}

theorem bears_detached (hF : F .addOverflow) :
    Detached (Bears r e I) fun p h => h.memory.Fits → F p where
  overflow := fun _ _ _ _ => hF
  log := fun _ h => h
  kernel := fun _ h => h
  spent := fun _ _ h => h
  blocks := fun _ h => h
  processor := fun _ h => h
  current := fun _ h => h

theorem onMemory_bears {α : Type} {x : MemoryM VmError α} {Q : α → Memory → Prop}
    {E : VmError → Memory → Prop} (hx : x.Safe F h.memory (h.memory.Owned e I) Q E)
    (hh : Bears r e I h) : (onMemory x).Ends h
      (fun a h' => h'.cpu.region = r ∧ (h'.memory.Fits → Q a h'.memory))
      (fun err h' => h'.cpu.region = r ∧ (h'.memory.Fits → E err h'.memory))
      fun p h' => h'.memory.Fits → F p := by
  have hmemory := hx.ends hh.2
  simp only [onMemory, onPlatform, Platform.onMemory, ends_onPart]
  exact Ends.mono hmemory (fun _ _ h => ⟨hh.1, h⟩) (fun _ _ h => ⟨hh.1, h⟩) fun _ _ h => h

theorem bears_of_safe {α : Type} {x : HostM α}
    (hregion : x.Upholds (fun h : Host => h.cpu.region = r) fun _ _ => True)
    (hx : ∀ h : Host, x.Safe F h (h.memory.Owned e I) (fun _ h' => h'.memory.Owned e I)
      fun _ h' => h'.memory.Owned e I) :
    x.Upholds (Bears r e I) fun p h => h.memory.Fits → F p := by
  intro h hh
  exact Ends.mono ((hregion h hh.1).and ((hx h).ends hh.2)) (fun _ _ hh => hh) (fun _ _ hh => hh)
    fun _ _ hp => hp.2

theorem teardown_bears {t : Ept} {root : Hpa} (hroot : t.root = some root) (hmem : root ∈ e.roots) :
    (teardown t).Upholds (Bears r e I) fun p h => h.memory.Fits → F p := by
  refine bears_of_safe ((region_enduring r).teardown t) fun h => Safe.exists fun a => ?_
  have hdone : ∀ {h' : Host}, h.memory.Sound e I a →
      TornDown h.memory a {r | r ∈ e.roots} root h'.memory → h'.memory.Owned e I := by
    intro h' hs hd
    obtain ⟨a', hs', -⟩ := hs.of_tornDown hd
    exact ⟨a', hs'⟩
  exact (teardown_safe (a := a) {r | r ∈ e.roots} hroot).mono
    (fun _ hs => ⟨hs.balanced, hs.rooted, hmem, hs.level hmem⟩)
    (fun _ _ _ _ hs hd => hdone hs hd) fun _ _ _ _ hs hd => hdone hs hd

theorem formatBlock_bears {page : Hpa} (hmem : page ∈ e.others) :
    (formatBlock page).Upholds (Bears r e I) fun p h => h.memory.Fits → F p := by
  have hpage : ∀ {m : Memory} {a : Account}, m.Sound e I a → page.pageDown ∈ e.others := by
    intro m a hs
    rw [hs.other_pageDown hmem]
    exact hmem
  apply Upholds.bind Calm.processor
  intro c
  apply Upholds.bind Upholds.require
  intro _ h hh
  exact Ends.mono (onMemory_bears (editPage_owned hpage) hh) (fun _ _ hh => hh)
    (fun _ _ hh => ⟨hh.1, fun hf => (hh.2 hf).elim⟩) fun _ _ hp => hp

theorem enterRoot_bears (hF : F .addOverflow) {page : Hpa} (hmem : page ∈ e.others) :
    (enterRoot page).Upholds (Bears r e I) fun p h => h.memory.Fits → F p := by
  have hdetached : Detached (Bears r e I) fun p h => h.memory.Fits → F p := bears_detached hF
  apply Upholds.bind (formatBlock_bears hmem)
  intro _
  apply Upholds.bind (hdetached.prepareFixed _)
  intro _
  apply Upholds.bind (hdetached.prepareFixed _)
  intro _
  exact Upholds.bind hdetached.lockFeatureControl fun _ => hdetached.vmxon

def Holds (e : Estate) (I : Prop) (h : Host) : Prop :=
  Bears h.cpu.region (e.giveAll h.cpu.region.toList) I h

theorem Bears.holds (hh : Bears r (e.giveAll r.toList) I h) : Holds e I h := by
  obtain ⟨rfl, hs⟩ := hh
  exact ⟨rfl, hs⟩

/-- A cpu gives up a page to enter VMX root operation, and gets it back at once if it fails. -/
theorem vmxOn_holds (hF : F .addOverflow) :
    vmxOn.Upholds (Holds e I) fun p h => h.memory.Fits → F p := by
  intro h hh
  rw [vmxOn, ends_bind, ends_get]
  split
  · exact hh
  · rename_i hsome
    have hnone : h.cpu.region = none := Option.not_isSome_iff_eq_none.1 hsome
    have hout : ∀ {h : Host}, Bears none e I h → Holds e I h := by
      intro h hh
      apply Bears.holds (r := none)
      rwa [Option.toList_none, Estate.giveAll_nil]
    have hbare : Bears none e I h := by
      rw [Holds, hnone, Option.toList_none, Estate.giveAll_nil] at hh
      exact hh
    have hdetached : ∀ {r e}, Detached (Bears r e I) fun p h => h.memory.Fits → F p :=
      bears_detached hF
    rw [ends_bind]
    refine Ends.mono (hdetached.checkSupport h hbare) (fun _ h₁ hh₁ => ?_) (fun _ _ hh => hout hh)
      fun _ _ hp => hp
    rw [ends_bind]
    refine Ends.mono (onMemory_bears allocRetained_owned hh₁) (fun p h₂ hh₂ => ?_)
      (fun _ _ hh => hout ⟨hh.1, fun hf => (hh.2 hf).elim⟩) fun _ _ hp => hp
    rw [ends_bind, ends_orFail]
    cases p with
    | none =>
        rw [Option.toList_none, Estate.giveAll_nil] at hh₂
        exact hout hh₂
    | some page =>
        have hmem : page ∈ (e.giveAll (some page).toList).others :=
          Multiset.mem_add.2 (.inl List.mem_cons_self)
        show Ends _ h₂ _ _ _
        rw [ends_bind, ends_attempt]
        refine Ends.mono (enterRoot_bears hF hmem h₂ hh₂) (fun _ h₃ hh₃ => ?_) (fun err h₃ hh₃ => ?_)
          fun _ _ hp => hp
        · have hgiven : Bears (some page) (e.giveAll (some page).toList) I
              { h₃ with cpu := { h₃.cpu with region := some page } } := ⟨rfl, hh₃.2⟩
          rw [ends_bind, onCpu, ends_modify]
          exact Ends.mono (hdetached.sayOnCpu .info "Entered VMX root operation." _ hgiven)
            (fun _ _ hh => Bears.holds hh) (fun _ _ hh => Bears.holds hh) fun _ _ hp => hp
        · rw [Option.toList_some, Estate.giveAll_cons, Estate.giveAll_nil] at hh₃
          rw [ends_bind]
          exact Ends.mono (onMemory_bears release_owned hh₃) (fun _ _ hh => hout hh)
            (fun _ _ hh => hout ⟨hh.1, fun hf => (hh.2 hf).elim⟩) fun _ _ hp => hp

theorem vmxOff_holds (hF : F .addOverflow) :
    vmxOff.Upholds (Holds e I) fun p h => h.memory.Fits → F p := by
  intro h hh
  rw [vmxOff, ends_bind, ends_get]
  cases hregion : h.cpu.region with
  | none => exact hh
  | some page =>
      have hdetached : Detached (Bears (some page) (e.giveAll [page]) I)
          fun p h => h.memory.Fits → F p := bears_detached hF
      have hbears : Bears (some page) (e.giveAll [page]) I h := by
        rw [Holds, hregion] at hh
        exact hh
      show Ends _ h _ _ _
      rw [ends_bind]
      refine Ends.mono (hdetached.vmxoff h hbears) (fun _ h₁ hh₁ => ?_)
        (fun _ _ hh => Bears.holds (r := some page) hh) fun _ _ hp => hp
      rw [Estate.giveAll_cons, Estate.giveAll_nil] at hh₁
      have hgone : Bears none (e.give page) I
          { h₁ with cpu := { h₁.cpu with region := none, current := none } } := ⟨rfl, hh₁.2⟩
      refine Ends.mono (onMemory_bears release_owned hgone) (fun _ h₂ hh₂ => ?_)
        (fun _ h₂ hh₂ => ?_) fun _ _ hp => hp
      · apply Bears.holds (r := none)
        rw [Option.toList_none, Estate.giveAll_nil]
        exact hh₂
      · exact ⟨rfl, fun hf => (hh₂.2 hf).elim⟩

end RootOperation

end Host

end Hypervisor
