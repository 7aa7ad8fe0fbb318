import Hypervisor.Proofs.Ownership.Recorded
import Hypervisor.Proofs.Ownership.Undisturbed

/-!
# The ports that stop a guest

No port stops a guest that was just built.  From then on just those ports do that callers have
intercepted, or that the first run of the guest did, whatever else is done to the machine in between.
-/

namespace Hypervisor

def Order.Intercepts : Order → Prop
  | .interceptPort _ | .setupBitmaps | .run => True
  | _ => False

namespace Machine

open Hypervisor.Action Memory Session

def bitmaps (m : Machine) (j : Nat) : Set Hpa :=
  {p | ∃ v, m.vms[j]? = some (some v) ∧ p ∈ v.guest.bitmaps}

/-- The ports of a guest that a command intercepts. -/
def interceptedIn (m : Machine) (j : Nat) (c : Command) : List UInt16 :=
  if c.vm = j then
    match c.order with
    | .interceptPort port => [port]
    | .setupBitmaps => emulatedPorts
    | .run =>
        match m.cpus[c.cpu]?, m.vms[j]? with
        | some cpu, some (some v) => Session.intercepted ⟨m.host cpu, v.guest, v.context⟩
        | _, _ => []
    | _ => []
  else []

/-- The guest with the index `j` was built, and since then these ports of it were intercepted, the last
one first, while callers had done to the machine whatever is lawful. -/
inductive Interceptions (j : Nat) : Callers → List UInt16 → Machine → Prop
  | built {m m' : Machine} {k : Callers} {i : Nat} {config : GuestConfig} {a : Answer}
      (before : History Command.Lawful m k) (index : m.vms.size = j)
      (run : (perform { cpu := i, order := .build config }).run m = .ok a m') :
      Interceptions j k [] m'
  | done {m m' : Machine} {k : Callers} {ports : List UInt16} {c : Command} {a : Answer}
      (before : Interceptions j k ports m) (lawful : c.Lawful m k)
      (run : (perform c).run m = .ok a m') :
      Interceptions j (k.after a c.order) (m.interceptedIn j c ++ ports) m'
  | failed {m m' : Machine} {k : Callers} {ports : List UInt16} {c : Command} {e : VmError}
      (before : Interceptions j k ports m) (lawful : c.Lawful m k)
      (run : (perform c).run m = .error (.error e) m') :
      Interceptions j k (m.interceptedIn j c ++ ports) m'

/-- The index is taken.  Unless the guest was freed, just these ports stop it as long as addresses fit,
and the emulated ones are among them if it has run. -/
structure Records (j : Nat) (ports : List UInt16) (m : Machine) : Prop where
  taken : j < m.vms.size
  ran : ∀ {v : Vm}, m.vms[j]? = some (some v) → v.guest.runs ≠ 0 → emulatedPorts ⊆ ports
  exact : ∀ {v : Vm}, m.vms[j]? = some (some v) → m.memory.Fits → v.guest.Intercepts m.memory ports

def Marks {α : Type} (m : Machine) (j : Nat) (ports : List UInt16) (x : MachineM α) : Prop :=
  x.Ends m (fun _ m' => m'.Records j ports) (fun _ m' => m'.Records j ports) fun _ _ => True

variable {m m' : Machine} {k : Callers} {i j l : Nat} {ports ports' : List UInt16} {v : Vm} {c : Cpu}
  {s : Session} {α β : Type}

theorem bitmaps_eq (hv : m.vms[j]? = some (some v)) : m.bitmaps j = {p | p ∈ v.guest.bitmaps} := by
  refine Set.ext fun p => ⟨?_, fun hp => ⟨v, hv, hp⟩⟩
  rintro ⟨w, hw, hp⟩
  cases hv.symm.trans hw
  exact hp

theorem mem_others_of_bitmaps : ∀ p ∈ m.bitmaps j, p ∈ (m.estate k).others := by
  rintro p ⟨v, hv, hp⟩
  exact mem_others_of_vm (Array.mem_of_getElem? hv) (Guest.bitmaps_subset_ownPages hp)

theorem Orderly.preserves_bitmaps (h : m.Orderly k False) (hf : m.memory.Fits) :
    m.memory.Preserves (m.bitmaps j) (m.estate k) m.memory := .refl hf (h.owned hf)

theorem records_of_gone (htaken : j < m.vms.size) (hgone : ∀ v, m.vms[j]? ≠ some (some v)) :
    m.Records j ports :=
  ⟨htaken, fun hv => absurd hv (hgone _), fun hv => absurd hv (hgone _)⟩

namespace Records

variable (hr : m.Records j ports)

include hr

/-- The guest and its bitmaps stay, or the guest is gone. -/
theorem step (hsize : m.vms.size ≤ m'.vms.size)
    (hguest : ∀ {v}, m'.vms[j]? = some (some v) → ∃ w, m.vms[j]? = some (some w) ∧
      w.guest.Same v.guest ∧ w.guest.runs = v.guest.runs)
    (hmemory : m'.memory.Fits → m.memory.Retains (m.bitmaps j) m'.memory) : m'.Records j ports where
  taken := Nat.lt_of_lt_of_le hr.taken hsize
  ran := fun hv => by
    obtain ⟨w, hw, -, hruns⟩ := hguest hv
    rw [← hruns]
    exact hr.ran hw
  exact := fun hv hf => by
    obtain ⟨w, hw, hsame, -⟩ := hguest hv
    have hkept := hmemory hf
    exact ((hr.exact hw hkept.fits).congr fun p hp => hkept.words p ⟨w, hw, hp⟩).of_same hsame

theorem of_vms_eq (hvms : m'.vms = m.vms)
    (hmemory : m'.memory.Fits → m.memory.Retains (m.bitmaps j) m'.memory) : m'.Records j ports := by
  refine hr.step (Nat.le_of_eq (by rw [hvms])) (fun hv => ?_) hmemory
  rw [hvms] at hv
  exact ⟨_, hv, .refl _, rfl⟩

theorem withSession (hv : m.vms[l]? = some (some v)) (hs : l = j → Counted v.guest v.guest.runs s)
    (hmemory : s.host.memory.Fits → m.memory.Retains (m.bitmaps j) s.host.memory) :
    (m.withSession i l s).Records j ports := by
  refine hr.step (Nat.le_of_eq Array.size_setIfInBounds.symm) (fun hw => ?_) hmemory
  obtain ⟨rfl, rfl⟩ | ⟨-, hold⟩ := vms_withSession hw
  · exact ⟨v, hv, (hs rfl).1, (hs rfl).2.symm⟩
  · exact ⟨_, hold, .refl _, rfl⟩

theorem recorded (h : m.Orderly k False) (hv : m.vms[j]? = some (some v)) :
    Recorded v.guest (m.estate k) v.guest.runs ports ⟨m.host c, v.guest, v.context⟩ :=
  ⟨⟨.refl _, rfl⟩, hr.ran hv, h.owned, hr.exact hv⟩

theorem of_recorded {e : Estate} {n : Nat} (hs : Recorded v.guest e n ports' s) :
    (m.withSession i j s).Records j ports' := by
  have hguest : ∀ {w : Vm}, (m.withSession i j s).vms[j]? = some (some w) → w.guest = s.guest := by
    intro w hw
    obtain ⟨-, rfl⟩ | ⟨hne, -⟩ := vms_withSession hw
    · rfl
    · exact absurd rfl hne
  refine ⟨?_, fun hw => ?_, fun hw hf => ?_⟩
  · exact Nat.lt_of_lt_of_eq hr.taken Array.size_setIfInBounds.symm
  · rw [hguest hw, hs.counted.2]
    exact hs.ran
  · rw [hguest hw]
    exact (hs.exact hf).of_same hs.counted.1

end Records

theorem Marks.answer {x : MachineM α} {f : α → β} (hx : Marks m j ports x) :
    Marks m j ports (x >>= fun a => pure (f a)) :=
  (ends_bind _ _).2 hx

theorem addressOf_marks {source : HostPlace} {f : Hva → MachineM α} (hsource : m.Shares source)
    (hf : ∀ v, m.Lends v → Marks m j ports (f v)) :
    Marks m j ports (onMemory (addressOf source) >>= f) :=
  addressOf_ends hsource (fun v _ => hf v) trivial

section Work

variable (h : m.Orderly k False) (hr : m.Records j ports)

include h

theorem Orderly.housed_bitmaps (hv : m.vms[l]? = some (some v)) (hne : l ≠ j) :
    ∃ r, v.guest.Housed r (m.memory.Preserves (m.bitmaps j) (m.estate k)) := by
  obtain ⟨r, hg⟩ := h.lodged hv
  refine ⟨r, hg.housed_preserves mem_others_of_bitmaps fun memory howned p hp => ?_⟩
  rintro ⟨w, hw, hmem⟩
  exact h.ownPages_disjoint hv hw hne howned p hp (Guest.bitmaps_subset_ownPages hmem)

theorem Orderly.visited_bitmaps (hv : m.vms[l]? = some (some v)) :
    ∃ r, v.guest.Visited r (m.memory.Preserves (m.bitmaps j) (m.estate k)) ∧
      ∀ {memory p} f, m.memory.Preserves (m.bitmaps j) (m.estate k) memory →
        p.pageDown = v.guest.msrPage →
          m.memory.Preserves (m.bitmaps j) (m.estate k) (memory.edited p f) := by
  by_cases hj : l = j
  · subst hj
    obtain ⟨r, hg⟩ := h.lodged hv
    rw [bitmaps_eq hv]
    exact ⟨r, Session.visited_bitmaps hg (estate_take_vm hv) _⟩
  · obtain ⟨r, hg⟩ := h.housed_bitmaps hv hj
    exact ⟨r, hg.toVisited, hg.msrs⟩

include hr

theorem onPlatform_marks {x : PlatformM α}
    (hx : x.Safe (fun _ => True) m.toPlatform (m.memory.Preserves (m.bitmaps j) (m.estate k) m.memory)
      (fun _ p => m.memory.Retains (m.bitmaps j) p.memory)
      fun _ p => m.memory.Retains (m.bitmaps j) p.memory) : Marks m j ports (onPlatform x) := by
  rw [Marks, Machine.onPlatform, ends_onPart]
  exact Ends.mono (hx.ends h.preserves_bitmaps) (fun _ _ hp => hr.of_vms_eq rfl hp)
    (fun _ _ hp => hr.of_vms_eq rfl hp) fun _ _ _ => trivial

theorem onMemory_marks {x : MemoryM VmError α}
    (hx : x.Safe (fun _ => True) m.memory (m.memory.Preserves (m.bitmaps j) (m.estate k) m.memory)
      (fun _ memory => m.memory.Retains (m.bitmaps j) memory)
      fun _ memory => m.memory.Retains (m.bitmaps j) memory) : Marks m j ports (onMemory x) :=
  onPlatform_marks h hr (Safe.onPart Platform.memory (fun _ => rfl) (fun _ _ => rfl) hx)

theorem onMemory_marks_of_preserves {x : MemoryM VmError α}
    (hx : x.Safe (fun _ => True) m.memory (m.memory.Preserves (m.bitmaps j) (m.estate k) m.memory)
      (fun _ => m.memory.Preserves (m.bitmaps j) (m.estate k))
      fun _ => m.memory.Preserves (m.bitmaps j) (m.estate k)) : Marks m j ports (onMemory x) :=
  onMemory_marks h hr (hx.mono (fun _ hp => hp) (fun _ _ _ _ _ hp => hp.retains)
    fun _ _ _ _ _ hp => hp.retains)

theorem onTable_marks {x : MemoryM EptError α}
    (hx : x.Safe (fun _ => True) m.memory (m.memory.Preserves (m.bitmaps j) (m.estate k) m.memory)
      (fun _ => m.memory.Preserves (m.bitmaps j) (m.estate k))
      fun _ => m.memory.Preserves (m.bitmaps j) (m.estate k)) : Marks m j ports (onTable x) :=
  onMemory_marks_of_preserves h hr (Safe.mapError hx)

theorem onHost_marks {x : HostM α} (hx : ∀ c, m.cpus[i]? = some c →
      x.Safe (fun _ => True) (m.host c) (m.memory.Preserves (m.bitmaps j) (m.estate k) m.memory)
        (fun _ h => m.memory.Retains (m.bitmaps j) h.memory)
        fun _ h => m.memory.Retains (m.bitmaps j) h.memory) : Marks m j ports (onHost i x) :=
  onHost_ends (fun _ => hr) fun c hi => Ends.mono ((hx c hi).ends h.preserves_bitmaps)
    (fun _ _ hp => hr.of_vms_eq rfl hp) (fun _ _ hp => hr.of_vms_eq rfl hp) fun _ _ _ => trivial

theorem root_marks {x : HostM α} (hx : ∀ {e : Estate} {c : Cpu},
      Carried (m.memory.Retains (m.bitmaps j)) e False → x.Safe (fun _ => True) (m.host c)
        (m.memory.Owned (e.giveAll c.region.toList) False ∧ m.memory.Retains (m.bitmaps j) m.memory)
        (fun _ h => m.memory.Retains (m.bitmaps j) h.memory)
        fun _ h => m.memory.Retains (m.bitmaps j) h.memory) : Marks m j ports (onHost i x) := by
  refine onHost_marks h hr fun c hi => ?_
  obtain ⟨e, he, hset⟩ := exists_estate_withHost (k := k) hi
  have hothers : ∀ p ∈ m.bitmaps j, p ∈ e.others := by
    intro p hp
    have hmem := mem_others_of_bitmaps (k := k)
      (m := m.withHost i { m.host c with cpu := { c with region := none } }) p hp
    rwa [hset, Option.toList_none, Estate.giveAll_nil] at hmem
  refine (hx (carried_retains hothers)).assume fun _ hp => ⟨?_, hp.retains⟩
  rw [← he]
  exact hp.owned

omit h in
theorem vm_marks {f : Vm → MachineM α}
    (hf : ∀ v, m.vms[l]? = some (some v) → Marks m j ports (f v)) : Marks m j ports (vm l >>= f) :=
  vm_ends hr hf

theorem guest_marks {f : Guest → MachineM α}
    (hf : ∀ v r, m.vms[l]? = some (some v) → v.guest.Lodged r (m.estate k) False →
      Marks m j ports (f v.guest)) : Marks m j ports ((do return (← vm l).guest) >>= f) := by
  rw [bind_assoc]
  refine vm_marks hr fun v hv => ?_
  obtain ⟨r, hg⟩ := h.lodged hv
  exact hf v r hv hg

theorem table_marks {o : Option Nat} {f : Ept → MachineM α}
    (hf : ∀ t r, t.root = some r → r ∈ (m.estate k).roots → Marks m j ports (f t)) :
    Marks m j ports (Machine.table o l >>= f) :=
  h.table_ends hr hf

theorem still_marks {x : SessionM α} (hx : x.Still) : Marks m j ports (onSession i l x) := by
  refine onSession_ends hr fun c v _ hv => ?_
  have hback : ∀ {s : Session}, s.host.memory = m.memory → Counted v.guest v.guest.runs s →
      (m.withSession i l s).Records j ports := fun hmemory hs =>
    hr.withSession hv (fun _ => hs) fun hf => by
      rw [hmemory] at hf ⊢
      exact (h.preserves_bitmaps hf).retains
  exact Ends.mono ((hx.quiet _).and (hx.counted v.guest v.guest.runs _ ⟨.refl _, rfl⟩))
    (fun _ _ hs => hback hs.1 hs.2) (fun _ _ hs => hback hs.1 hs.2) fun _ _ _ => trivial

theorem other_marks (hne : l ≠ j) {x : SessionM α}
    (hx : ∀ {g root K}, g.Housed root K → ∀ r, x.Upholds (Bears g r K) fun _ _ => True) :
    Marks m j ports (onSession i l x) := by
  refine onSession_ends hr fun c v _ hv => ?_
  obtain ⟨r, hg⟩ := h.housed_bitmaps hv hne
  have hback : ∀ {s : Session},
      s.Bears v.guest c.region (m.memory.Preserves (m.bitmaps j) (m.estate k)) →
        (m.withSession i l s).Records j ports := fun hs =>
    hr.withSession hv (fun hl => absurd hl hne) fun hf => (hs.2.2 hf).retains
  exact Ends.mono (hx hg c.region _ ⟨.refl _, rfl, h.preserves_bitmaps⟩) (fun _ _ hs => hback hs)
    (fun _ _ hs => hback hs) fun _ _ _ => trivial

theorem session_marks {x : SessionM α}
    (hown : ∀ {g : Guest} {root : Hpa} {e e' : Estate} {n : Nat}, g.Lodged root e False → e = e'.lodge g →
      x.Upholds (Recorded g e n ports) fun _ _ => True)
    (hother : ∀ {g root K}, g.Housed root K → ∀ r, x.Upholds (Bears g r K) fun _ _ => True) :
    Marks m j ports (onSession i l x) := by
  by_cases hj : l = j
  · subst hj
    refine onSession_ends hr fun c v _ hv => ?_
    obtain ⟨r, hg⟩ := h.lodged hv
    exact Ends.mono (hown hg (estate_take_vm hv) _ (hr.recorded h hv)) (fun _ _ hs => hr.of_recorded hs)
      (fun _ _ hs => hr.of_recorded hs) fun _ _ _ => trivial
  · exact other_marks h hr hj hother

theorem free_marks : Marks m j ports (do onHost i (Host.freeGuest (← takeVm l).guest)) := by
  rw [takeVm, bind_assoc]
  refine vm_marks hr fun v hv => ?_
  obtain ⟨r, hroot⟩ := h.vms hv
  have hsize : (m.without l).vms.size = m.vms.size := Array.size_setIfInBounds
  rw [Marks, bind_assoc, ends_bind, ends_modify, pure_bind]
  show (onHost i (Host.freeGuest v.guest)).Ends (m.without l) _ _ _
  by_cases hj : l = j
  · -- Nothing is asked of a freed guest any more, and no other guest gets its index.
    subst hj
    have hgone : ∀ {m' : Machine}, m'.vms = (m.without l).vms → m'.Records l ports := by
      intro m' hvms
      refine records_of_gone (by rw [hvms, hsize]; exact hr.taken) fun w hw => ?_
      rw [hvms, without, Array.getElem?_setIfInBounds_self_of_lt hr.taken] at hw
      cases hw
    exact onHost_ends (fun _ => hgone rfl) fun c _ =>
      Ends.of_forall (fun _ _ => hgone rfl) (fun _ _ => hgone rfl) fun _ _ => trivial
  · have hback : ∀ {m' : Machine}, m'.vms = (m.without l).vms →
        (m'.memory.Fits → m.memory.Retains (m.bitmaps j) m'.memory) → m'.Records j ports := by
      intro m' hvms hmemory
      refine hr.step (Nat.le_of_eq (by rw [hvms, hsize])) (fun hw => ?_) hmemory
      rw [hvms, vms_without hj] at hw
      exact ⟨_, hw, .refl _, rfl⟩
    have hothers : ∀ p ∈ m.bitmaps j, p ∈ ((m.without l).estate k).others := by
      rintro p ⟨w, hw, hp⟩
      exact mem_others_of_bitmaps p ⟨w, (vms_without hj).trans hw, hp⟩
    refine onHost_ends (fun _ => hback rfl fun hf => (h.preserves_bitmaps hf).retains) fun c _ => ?_
    have hends := (Host.freeGuest_retains (F := fun _ => True) (h := (m.without l).host c)
      m.memory hothers hroot).ends fun hf => by
        have howned := h.owned hf
        rw [estate_take_vm hv] at howned
        exact ⟨howned, (h.preserves_bitmaps hf).retains⟩
    exact Ends.mono hends (fun _ _ hp => hback rfl fun hf => (hp hf).2)
      (fun _ _ hp => hback rfl fun hf => (hp hf).2) fun _ _ _ => trivial

theorem build_marks (config : GuestConfig) : Marks m j ports (do
    let g ← onHost i (Host.buildGuest config)
    addVm g
    return Answer.guest g) := by
  rw [Marks, ends_bind]
  refine onHost_ends (fun _ => hr) fun c _ => ?_
  have hends := (Host.buildGuest_founds (F := fun _ => True) (h := m.host c)
    (carried_retains mem_others_of_bitmaps)
    (Host.founds_retains m.memory (mem_others_of_bitmaps (j := j)) config)).ends fun hf =>
      ⟨h.owned hf, (h.preserves_bitmaps hf).retains⟩
  refine Ends.mono hends (fun g h' hg => ?_) (fun _ _ he => hr.of_vms_eq rfl fun hf => (he hf).2)
    fun _ _ _ => trivial
  rw [addVm, ends_bind, ends_modify]
  refine hr.step ?_ (fun {w} hw => ?_) fun hf => (hg hf).2
  · show m.vms.size ≤ (m.vms.push _).size
    rw [Array.size_push]
    exact Nat.le_succ _
  · have hold : (m.vms.push _)[j]? = some (some w) := hw
    rw [Array.getElem?_push_lt hr.taken] at hold
    exact ⟨w, (Array.getElem?_eq_getElem hr.taken).trans hold, .refl _, rfl⟩

/-- No command intercepts a port of the guest but a run of it and those that are for that. -/
theorem aside_marks {c : Command} (hl : c.Lawful m k) (hc : c.vm = j → ¬c.order.Intercepts) :
    Marks m j ports (perform c) := by
  by_cases hquiet : c.order.Quiet
  · have hback : ∀ {m' : Machine}, m.Rests m' → m'.Records j ports := fun hm =>
      hr.of_vms_eq hm.vms fun hf => by
        rw [hm.memory] at hf ⊢
        exact (h.preserves_bitmaps hf).retains
    exact Ends.mono (perform_quiet hquiet m ⟨rfl, rfl⟩) (fun _ _ hm => hback hm)
      (fun _ _ hm => hback hm) fun _ _ _ => trivial
  obtain ⟨cpu, vm, index, order⟩ := c
  have hps : ∀ p ∈ m.bitmaps j, p ∈ (m.estate k).others := mem_others_of_bitmaps
  cases order with
  | alloc => exact (onMemory_marks h hr (alloc_retains hps)).answer
  | allocRetained => exact (onMemory_marks h hr (allocRetained_retains hps)).answer
  | retain page => exact (onMemory_marks h hr (retain_retains hl)).answer
  | release page => exact (onMemory_marks h hr (release_retains hps hl)).answer
  | limitAllocations n =>
      exact (onMemory_marks h hr (Safe.last (Safe.modify_bind rfl (Safe.pure fun _ hp =>
        hp.retains.of_pages_eq rfl)))).answer
  | poke page offset bytes =>
      have hfree : m.memory.Unowned (m.estate k) page.pageDown := hl.2
      exact (onMemory_marks h hr (editPage_retains hps hl.1 hfree _)).answer
  | newTable =>
      refine (ends_bind _ _).2 (Ends.mono (onMemory_marks h hr (Safe.mapError
        (Ept.new_retains hps))) (fun t m' hm' => ?_) (fun _ _ he => he) fun _ _ _ => trivial)
      exact ⟨hm'.taken, hm'.ran, hm'.exact⟩
  | tableWithRoot root => exact hl.elim
  | lookup gpa create edits =>
      obtain rfl : edits = [] := hl
      exact table_marks h hr fun t r hroot hmem =>
        (onTable_marks h hr (Ept.edit_preserves hps hroot hmem create)).answer
  | map source gpa perm overwrite =>
      refine Marks.answer (table_marks h hr fun t r hroot hmem => addressOf_marks hl fun v hv => ?_)
      exact onTable_marks h hr (Ept.map_preserves hps hroot hmem v perm overwrite hv)
  | insertPage page gpa perm =>
      have hfree : m.memory.Unowned (m.estate k) page.pageDown := hl.2
      exact Marks.answer (table_marks h hr fun t r hroot hmem =>
        onTable_marks h hr (Ept.insertPage_preserves hps hroot hmem page perm hl.1 hfree))
  | teardown =>
      exact Marks.answer (table_marks h hr fun t r hroot hmem =>
        onHost_marks h hr fun _ _ => Host.teardown_retains hps hroot hmem)
  | access physSize gpa =>
      refine table_marks h hr fun t r hroot hmem => Marks.answer ?_
      have haccess : (t.onAccess physSize gpa).Safe (fun _ => True) m.memory
          (m.memory.Preserves (m.bitmaps j) (m.estate k) m.memory)
          (fun _ => m.memory.Preserves (m.bitmaps j) (m.estate k))
          fun _ => m.memory.Preserves (m.bitmaps j) (m.estate k) :=
        Ept.onAccess_preserves hroot hmem hps physSize
      have hbacked := Platform.backAccess_safe (K := m.memory.Preserves (m.bitmaps j) (m.estate k))
        haccess
      exact onPlatform_marks h hr (hbacked.mono (fun _ hp => hp) (fun _ _ _ _ _ hp => hp.retains)
        fun _ _ _ _ _ hp => hp.retains)
  | populateAll physSize =>
      exact Marks.answer (table_marks h hr fun t r hroot hmem =>
        onMemory_marks_of_preserves h hr (Ept.populateAll_preserves _ hps hroot hmem physSize))
  | build config => exact build_marks h hr config
  | free => exact (free_marks h hr).answer
  | mapFromHost source writable gpa perm =>
      refine Marks.answer (guest_marks h hr fun v r _ hg => addressOf_marks hl fun a ha => ?_)
      exact onMemory_marks_of_preserves h hr (hg.mapFromHost_preserves hps ha writable gpa perm)
  | setupMsrs =>
      exact (session_marks h hr (fun hg he => setupMsrs_recorded hg he) fun hg _ =>
        (bears_detached hg).programmable.setupMsrs.mono (fun _ _ h => h) fun _ _ _ => trivial).answer
  | setupBitmaps =>
      refine Marks.answer (guest_marks h hr fun v _ hv _ => ?_)
      obtain ⟨r, hg⟩ := h.housed_bitmaps hv fun hj => hc hj trivial
      exact onMemory_marks_of_preserves h hr hg.interceptEmulatedPorts
  | interceptPort port =>
      refine Marks.answer (guest_marks h hr fun v _ hv _ => ?_)
      obtain ⟨r, hg⟩ := h.housed_bitmaps hv fun hj => hc hj trivial
      exact onMemory_marks_of_preserves h hr (hg.interceptPort port)
  | guestMsr msr value =>
      refine guest_marks h hr fun v _ hv _ => Marks.answer ?_
      obtain ⟨r, hg, hmsrs⟩ := h.visited_bitmaps (j := j) hv
      exact onMemory_marks_of_preserves h hr (hg.exchangeMsr hmsrs hg.guestMsrArea_pageDown)
  | hostMsr msr value =>
      refine guest_marks h hr fun v _ hv _ => Marks.answer ?_
      obtain ⟨r, hg, hmsrs⟩ := h.visited_bitmaps (j := j) hv
      exact onMemory_marks_of_preserves h hr (hg.exchangeMsr hmsrs hg.hostMsrArea_pageDown)
  | setRegisters writes =>
      refine Marks.answer (vm_marks hr fun v hv => ?_)
      refine hr.step (Nat.le_of_eq Array.size_setIfInBounds.symm) (fun {w} hw => ?_) fun hf =>
        (h.preserves_bitmaps hf).retains
      rw [Array.getElem?_setIfInBounds] at hw
      split_ifs at hw with hvm
      · cases hw
        subst hvm
        exact ⟨v, hv, .refl _, rfl⟩
      · exact ⟨w, hw, .refl _, rfl⟩
  | vmxOn => exact Marks.answer (root_marks h hr fun hK => Host.vmxOn_carries hK)
  | vmxOff => exact Marks.answer (root_marks h hr fun hK => Host.vmxOff_carries hK)
  | activate => exact (still_marks h hr activate_still).answer
  | load => exact (still_marks h hr load_still).answer
  | deactivate => exact (still_marks h hr deactivate_still).answer
  | configureControls => exact (still_marks h hr configureControls_still).answer
  | enter => exact (still_marks h hr enter_still).answer
  | run =>
      have hne : vm ≠ j := fun hj => hc hj trivial
      exact (other_marks h hr hne fun hg _ => (run_bears hg).mono (fun _ _ h => h)
        fun _ _ _ => trivial).answer
  | handleExit fields regs handling =>
      refine session_marks h hr (fun hg he => ?_) fun hg _ => ?_
      · refine Upholds.bind (recorded_of_still (Still.onDetached fun hH => hH.vmwriteAll fields))
          fun _ => Upholds.bind (recorded_of_still (Still.onContext _)) fun _ => ?_
        exact Upholds.bind (recorded_of_still (Still.onDetached fun hH => hH.toCalm.decode)) fun reason =>
          handle_recorded hg he reason handling
      · exact ((bears_detached hg).programmable.handleExit fields regs handling).mono (fun _ _ h => h)
          fun _ _ _ => trivial
  | _ => exact absurd trivial hquiet

theorem interceptPorts_marks {f : Guest → MemoryM VmError Unit}
    (hf : ∀ memory {g root e e'}, Guest.Lodged g root e False → e = Estate.lodge e' g →
      (f g).Safe (fun _ => True) memory (memory.Owned e False ∧ g.Intercepts memory ports)
        (fun _ memory => memory.Owned e False ∧ g.Intercepts memory (ports' ++ ports))
        fun _ _ => False) :
    Marks m j (ports' ++ ports) ((do return (← vm j).guest) >>= fun g => onMemory (f g)) := by
  rw [bind_assoc]
  by_cases hpresent : ∃ v, m.vms[j]? = some (some v)
  · obtain ⟨v, hv⟩ := hpresent
    obtain ⟨r, hg⟩ := h.lodged hv
    have hmemory := (hf m.memory hg (estate_take_vm hv)).ends fun hf =>
      ⟨h.owned hf, hr.exact hv hf⟩
    have hback : ∀ {memory : Memory}, (memory.Fits → v.guest.Intercepts memory (ports' ++ ports)) →
        Records j (ports' ++ ports) { m with memory := memory } := fun hmemory =>
      ⟨hr.taken, fun hw hruns => List.Subset.trans (hr.ran hw hruns) (List.subset_append_right _ _),
        fun hw hf => by
          cases hv.symm.trans hw
          exact hmemory hf⟩
    refine vm_ends_of hv ?_
    simp only [pure_bind, onMemory, Machine.onPlatform, Platform.onMemory, ends_onPart]
    exact Ends.mono hmemory (fun _ _ hm => hback fun hf => (hm hf).2)
      (fun _ _ hm => hback fun hf => (hm hf).elim) fun _ _ _ => trivial
  · exact vm_ends (records_of_gone hr.taken fun v hv => hpresent ⟨v, hv⟩) fun v hv =>
      absurd ⟨v, hv⟩ hpresent

/-- A run of the guest intercepts the emulated ports at most, and they are intercepted after a run that
went well. -/
theorem run_marks (i : Nat) : (onSession i j Session.run).Ends m
    (fun _ m' => m'.Records j (m.interceptedIn j { cpu := i, vm := j, order := .run } ++ ports) ∧
      emulatedPorts ⊆ m.interceptedIn j { cpu := i, vm := j, order := .run } ++ ports)
    (fun _ m' => m'.Records j (m.interceptedIn j { cpu := i, vm := j, order := .run } ++ ports))
    fun _ _ => True := by
  by_cases hpresent : ∃ c v, m.cpus[i]? = some c ∧ m.vms[j]? = some (some v)
  · obtain ⟨c, v, hc, hv⟩ := hpresent
    obtain ⟨r, hg⟩ := h.lodged hv
    have hports : m.interceptedIn j { cpu := i, vm := j, order := .run } =
        Session.intercepted ⟨m.host c, v.guest, v.context⟩ := by
      simp only [interceptedIn, if_pos, hc, hv]
    rw [hports]
    refine onSession_ends_of hc hv ?_
    -- The run is counted if it went well, so that the emulated ports are among those recorded.
    refine Ends.mono (run_recorded hg (estate_take_vm hv) (hr.recorded h hv)) (fun _ _ hs => ?_)
      (fun _ _ hs => ?_) fun _ _ _ => trivial
    · exact ⟨hr.of_recorded hs, hs.ran (Nat.succ_ne_zero _)⟩
    · obtain ⟨n, hs⟩ := hs
      exact hr.of_recorded hs
  · have hnone : m.interceptedIn j { cpu := i, vm := j, order := .run } = [] := by
      simp only [interceptedIn, if_pos]
      split
      · exact absurd ⟨_, _, ‹_›, ‹_›⟩ hpresent
      · rfl
    rw [hnone]
    exact onSession_ends hr fun c v hc hv => absurd ⟨c, v, hc, hv⟩ hpresent

/-- A command intercepts the ports that are in it. -/
theorem perform_marks {c : Command} (hl : c.Lawful m k) :
    Marks m j (m.interceptedIn j c ++ ports) (perform c) := by
  obtain ⟨cpu, vm, index, order⟩ := c
  by_cases hown : vm = j ∧ order.Intercepts
  · obtain ⟨rfl, horder⟩ := hown
    cases order with
    | interceptPort port =>
        rw [interceptedIn, if_pos rfl]
        exact (interceptPorts_marks h hr fun _ _ _ _ _ hg he => hg.interceptPort he port).answer
    | setupBitmaps =>
        rw [interceptedIn, if_pos rfl]
        exact (interceptPorts_marks h hr fun _ _ _ _ _ hg he => hg.interceptEmulatedPorts he).answer
    | run =>
        refine Marks.answer (Ends.mono (run_marks h hr cpu) (fun _ _ hm => hm.1) (fun _ _ hm => hm)
          fun _ _ h => h)
    | _ => exact horder.elim
  · have hnone : m.interceptedIn j ⟨cpu, vm, index, order⟩ = [] := by
      rw [interceptedIn]
      split
      · cases order with
        | interceptPort | setupBitmaps | run => exact absurd ⟨‹_›, trivial⟩ hown
        | _ => rfl
      · rfl
    rw [hnone]
    exact aside_marks h hr hl fun hj horder => hown ⟨hj, horder⟩

end Work

theorem build_records {config : GuestConfig} (h : m.Orderly k False) (hj : m.vms.size = j) :
    (perform { cpu := i, order := .build config }).Ends m (fun _ m' => m'.Records j [])
      (fun _ _ => True) fun _ _ => True := by
  rw [perform, ends_bind]
  refine onHost_ends (fun _ => trivial) fun c _ => ?_
  have hclear := (Host.buildGuest_founds (F := fun _ => True) (h := m.host c) carried_true
    (Host.founds_clear config)).ends fun hf => ⟨h.owned hf, trivial⟩
  refine Ends.mono ((Host.buildGuest_returns config (m.host c)).and hclear) (fun g h' hg => ?_)
    (fun _ _ _ => trivial) fun _ _ _ => trivial
  obtain ⟨hnew, hzero⟩ := hg
  rw [addVm, ends_bind, ends_modify]
  have hguest : ∀ {v w : Vm}, (m.vms.push (some w))[j]? = some (some v) → v = w := by
    intro v w hv
    rw [Array.getElem?_push, if_pos hj.symm] at hv
    exact (Option.some.inj (Option.some.inj hv)).symm
  refine ⟨?_, fun hv hruns => ?_, fun hv hf => ?_⟩
  · show j < (m.vms.push _).size
    rw [Array.size_push, hj]
    exact Nat.lt_succ_self j
  · rw [hguest hv] at hruns
    exact absurd hnew.runs hruns
  · rw [hguest hv]
    exact Guest.intercepts_nil (hzero hf).2

/-- What is recorded from the time the guest is built. -/
theorem Interceptions.records (h : Interceptions j k ports m) :
    m.Orderly k False ∧ m.Records j ports := by
  induction h with
  | @built _ _ _ i config _ hbefore hindex hrun =>
      have hm := hbefore.orderly (fun hc => hc) False.elim
      have hkeeps := perform_keeps (c := { cpu := i, order := .build config }) hm trivial False.elim
      exact ⟨hkeeps.ok hrun, (build_records hm hindex).ok hrun⟩
  | done _ hc hrun ih =>
      exact ⟨(perform_keeps ih.1 hc False.elim).ok hrun, (perform_marks ih.1 ih.2 hc).ok hrun⟩
  | failed _ hc hrun ih =>
      exact ⟨(perform_keeps ih.1 hc False.elim).error hrun, (perform_marks ih.1 ih.2 hc).error hrun⟩

/-- A run intercepts no other ports than the emulated ones. -/
theorem interceptedIn_run_subset :
    m.interceptedIn j { cpu := i, vm := j, order := .run } ⊆ emulatedPorts := by
  simp only [interceptedIn, if_pos]
  split
  · exact intercepted_subset _
  · exact List.nil_subset _

section Bits

variable (hv : m.vms[j]? = some (some v)) (hbitmaps : v.guest.HasBitmaps m.memory) (i : Nat)
  (port : UInt16)

include hv hbitmaps

theorem isPortIntercepted_run :
    (perform { cpu := i, vm := j, order := .isPortIntercepted port }).run m =
      .ok (.flag (v.guest.ioBit m.memory port)) m := by
  have hends : ((do return (← Machine.vm j).guest) >>= fun g => do
      return Answer.flag (← onMemory (g.isPortIntercepted port))).Ends m
        (fun a m' => a = Answer.flag (v.guest.ioBit m.memory port) ∧ m' = m) (fun _ _ => False)
        fun _ _ => False := by
    rw [bind_assoc]
    refine vm_ends_of hv ?_
    simp only [pure_bind, ends_bind, ends_pure, onMemory, Machine.onPlatform, Platform.onMemory,
      ends_onPart]
    exact hbitmaps.isPortIntercepted_ends ⟨rfl, rfl⟩
  obtain ⟨a, m', hrun, rfl, rfl⟩ := hends.exists_ok
  exact hrun

theorem interceptPort_run : (perform { cpu := i, vm := j, order := .interceptPort port }).run m =
    .ok .done { m with
      memory := m.memory.edited (v.guest.bitmapPage port) (Guest.withPort port) } := by
  have hends : (done ((do return (← Machine.vm j).guest) >>= fun g =>
      onMemory (g.interceptPort port))).Ends m
        (fun a m' => a = .done ∧ m' = { m with
          memory := m.memory.edited (v.guest.bitmapPage port) (Guest.withPort port) })
        (fun _ _ => False) fun _ _ => False := by
    rw [done, bind_assoc, bind_assoc]
    refine vm_ends_of hv ?_
    simp only [pure_bind, ends_bind, ends_pure, onMemory, Machine.onPlatform, Platform.onMemory,
      ends_onPart]
    exact hbitmaps.interceptPort_ends ⟨trivial, rfl⟩
  obtain ⟨a, m', hrun, rfl, rfl⟩ := hends.exists_ok
  exact hrun

end Bits

/-- The bits of the bitmaps are those of the ports that were intercepted since the guest was built, and
a test of a port answers with its bit.  One more port can always be intercepted: the word that is accessed
for it is inside its page, and no byte of memory changes but the one with the bit.  A run leaves the emulated
ports intercepted and no others besides those before, even if it fails, unless the guest has never been
ready to be entered. -/
theorem io_bitmaps_exact (h : Interceptions j k ports m) (hf : m.memory.Fits)
    (hv : m.vms[j]? = some (some v)) :
    (∀ port, v.guest.ioBit m.memory port = true ↔ port ∈ ports) ∧
      (∀ i port, (perform { cpu := i, vm := j, order := .isPortIntercepted port }).run m =
        .ok (.flag (v.guest.ioBit m.memory port)) m) ∧
      (∀ i port, 8 * (Guest.bitmapBit port / 64) + 8 ≤ 4096 ∧ ∃ memory,
        (perform { cpu := i, vm := j, order := .interceptPort port }).run m =
          .ok .done { m with memory := memory } ∧
        (∀ p, p ∈ memory.pages ↔ p ∈ m.memory.pages) ∧
        ∀ p o, p.pageDown ≠ v.guest.bitmapPage port ∨ o ≠ port.toNat % 0x8000 / 8 →
          (memory.words p).byte o = (m.memory.words p).byte o) ∧
      ∀ i, (perform { cpu := i, vm := j, order := .run }).Ends m
        (fun _ m' => m'.memory.Fits → ∀ w, m'.vms[j]? = some (some w) →
          ∀ port, w.guest.ioBit m'.memory port = true ↔ port ∈ [0x70, 0x71] ∨ port ∈ ports)
        (fun _ m' => m'.memory.Fits → ∀ w, m'.vms[j]? = some (some w) → w.guest.runs ≠ 0 →
          ∀ port, w.guest.ioBit m'.memory port = true ↔ port ∈ [0x70, 0x71] ∨ port ∈ ports)
        fun _ _ => True := by
  obtain ⟨hk, hr⟩ := h.records
  have hbitmaps : v.guest.HasBitmaps m.memory := by
    obtain ⟨a, hm⟩ := hk.owned hf
    rw [estate_take_vm hv] at hm
    exact Guest.hasBitmaps_of_sound hm
  refine ⟨hr.exact hv hf, fun i port => ?_, fun i port => ⟨?_, ?_⟩, fun i => ?_⟩
  · exact isPortIntercepted_run hv hbitmaps i port
  · have hword := Guest.bitmapBit_lt port
    omega
  · refine ⟨_, interceptPort_run hv hbitmaps i port, fun _ => mem_edited _, fun _ _ ho => ?_⟩
    exact hbitmaps.byte_edited ho
  · have hmore : ∀ {port}, emulatedPorts ⊆
        m.interceptedIn j { cpu := i, vm := j, order := .run } ++ ports →
          (port ∈ m.interceptedIn j { cpu := i, vm := j, order := .run } ++ ports ↔
            port ∈ [0x70, 0x71] ∨ port ∈ ports) := by
      intro port hsubset
      rw [List.mem_append]
      refine ⟨Or.imp_left fun hp => interceptedIn_run_subset hp, ?_⟩
      rintro (hp | hp)
      · exact List.mem_append.1 (hsubset hp)
      · exact .inr hp
    refine (ends_bind _ _).2 (Ends.mono (run_marks hk hr i) (fun _ m' hm' hf' w hw port => ?_)
      (fun _ m' hm' hf' w hw hruns port => ?_) fun _ _ _ => trivial)
    · exact (hm'.1.exact hw hf' port).trans (hmore hm'.2)
    · exact (hm'.exact hw hf' port).trans (hmore (hm'.ran hw hruns))

def interceptsBorder : List Command :=
  [{ order := .build {} }, { order := .interceptPort 0x7fff }, { order := .interceptPort 0x8000 }]

/-- They stay intercepted when the guest runs. -/
theorem io_bitmaps_exact_border : ∃ m k v, Interceptions 0 k [0x8000, 0x7fff] m ∧ m.memory.Fits ∧
    m.vms[0]? = some (some v) ∧ (∀ port, v.guest.ioBit m.memory port = true ↔ port ∈ [0x8000, 0x7fff]) ∧
    ∃ a m' w, (perform { order := .run }).run m = .ok a m' ∧ m'.memory.Fits ∧
      m'.vms[0]? = some (some w) ∧ ∀ port, w.guest.ioBit m'.memory port = true ↔
        port ∈ [0x70, 0x71] ∨ port ∈ [0x8000, 0x7fff] := by
  have hafter : ((uniprocessor.after interceptsBorder).any fun m => decide (m.memory.Fits ∧
      m.vms[0]?.join.isSome ∧ (perform { order := .run }).Ends m
        (fun _ m' => m'.memory.Fits ∧ m'.vms[0]?.join.isSome) (fun _ _ => False)
        fun _ _ => False)) = true := by
    decide +kernel
  obtain ⟨m, hm, hcomputed⟩ := (Option.any_eq_true _ _).1 hafter
  obtain ⟨hf, hvm, hruns⟩ := of_decide_eq_true hcomputed
  obtain ⟨_, m₁, hbuild, hrest⟩ := after_cons.1 hm
  obtain ⟨_, m₂, hlower, hrest⟩ := after_cons.1 hrest
  obtain ⟨_, m₃, hupper, hrest⟩ := after_cons.1 hrest
  cases hrest
  have hbuilt := Interceptions.built (.booted uniprocessor_booted) rfl hbuild
  have hboth := (hbuilt.done (c := { order := .interceptPort 0x7fff }) trivial hlower).done
    (c := { order := .interceptPort 0x8000 }) trivial hupper
  obtain ⟨k, h⟩ : ∃ k, Interceptions 0 k [0x8000, 0x7fff] m := ⟨_, hboth⟩
  obtain ⟨v, hv⟩ := Option.isSome_iff_exists.1 hvm
  have hv := Option.join_eq_some_iff.1 hv
  obtain ⟨a, m', hrun, hf', hvm'⟩ := hruns.exists_ok
  obtain ⟨w, hw⟩ := Option.isSome_iff_exists.1 hvm'
  have hw := Option.join_eq_some_iff.1 hw
  have hexact := io_bitmaps_exact h hf hv
  exact ⟨m, k, v, h, hf, hv, hexact.1, a, m', w, hrun, hf', hw,
    (hexact.2.2.2 0).ok hrun hf' w hw⟩

end Machine

end Hypervisor
