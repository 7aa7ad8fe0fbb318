import Hypervisor.Proofs.Ownership.History
import Hypervisor.Proofs.Ownership.Lent

/-!
# Read-only pages

A caller can have a page mapped for a guest that may only read it.  Whatever is done on behalf of the
guest then leaves the page as it is, with one exception: the memory map that the guest asks for is
written to the page at its place, whether or not the guest may write there.
-/

namespace Hypervisor

/-- The guest with the root `r` may only read the page, and does not have it where it is handed its
memory map. -/
def Memory.ReadOnly (m : Memory) (r p : Hpa) : Prop :=
  ∀ n perm, m.translation r n = some (p, perm) →
    perm.contains Permission.write = false ∧ n ≠ MemoryMap.number

namespace Memory.Sound

variable {m : Memory} {e : Estate} {I : Prop} {a : Account} {r p : Hpa} {n : PageNumber}
  {perm : Permission}

section Held

variable (h : m.Sound e I a) (hrefs : m.refs p = 1) (hheld : 0 < e.held p)

include h hrefs hheld

theorem unowned_of_held : m.Unowned e p := by
  have hledger := h.balanced.ledger p
  rw [hrefs, h.held] at hledger
  have hroles : p ∉ e.roles := Multiset.count_eq_zero.1 (by omega)
  refine h.unowned_iff.2 ⟨Option.eq_none_iff_forall_ne_some.2 fun j hj => ?_, fun hmem =>
    hroles (Estate.mem_roles.2 (.inr (.inr hmem)))⟩
  cases hparent : a.parent p with
  | none => exact hroles (Estate.mem_roles.2 (.inr (.inl (h.rooted p j hj hparent).2)))
  | some s =>
      rw [Account.linked_of_parent_eq_some hparent] at hledger
      omega

theorem unmapped_of_held (hr : r ∈ e.roots) : m.translation r n ≠ some (p, perm) := by
  intro hp
  obtain ⟨s, hs, htarget⟩ := exists_leaf hp
  have hleaf := Account.leaves_pos (h.balanced.shape.level_of_leafFrom (h.level hr) hs) htarget
  have hledger := h.balanced.ledger p
  rw [hrefs, h.held] at hledger
  omega

end Held

end Memory.Sound

/-- The command is carried out on behalf of the guest with an index: its faults are backed, a page is
mapped for it, or it is prepared to run, runs and exits. -/
def Command.OnBehalfOf (c : Command) (i : Nat) : Prop :=
  c.vm = i ∧ match c.order with
    | .access .. => c.table = none
    | .mapFromHost .. | .setupMsrs | .setupBitmaps | .interceptPort _ | .setRegisters _ | .script _
    | .activate | .load | .deactivate | .configureControls | .enter | .run | .handleExit .. => True
    | _ => False

/-- If the command maps the page, it is for reading only, and not where the guest is handed its memory
map. -/
def Command.Withholds (c : Command) (m : Machine) (p : Hpa) : Prop :=
  match c.order with
  | .mapFromHost source writable gpa _ =>
      (∃ v, source.Leads v ∧ m.memory.physical? v = some p) →
        writable = false ∧ gpa.number ≠ MemoryMap.number
  | _ => True

def Command.Permits (c : Command) (m : Machine) (p : Hpa) (L : PageNumber → Permission → Prop) : Prop :=
  match c.order with
  | .mapFromHost source writable gpa perm => ∀ v, source.Leads v → m.memory.physical? v = some p →
      (perm.contains Permission.write = true → writable = true) → L gpa.number perm
  | _ => (∀ perm, ¬L MemoryMap.number perm) ∧
      (p = ⟨videoBuffer⟩ → L Region.bufferNumber Permission.full)

namespace Machine

open Hypervisor.Action Memory

structure Entrusted (k : Callers) (i : Nat) (r p : Hpa) (ws : PageWords)
    (L : PageNumber → Permission → Prop) (m : Machine) : Prop where
  guest : ∃ v, m.vms[i]? = some (some v) ∧ v.guest.table.root = some r
  lent : m.memory.Fits → m.memory.Lent (m.estate k) r p ws L

variable {m m' : Machine} {k : Callers} {i cpu : Nat} {v : Vm} {r p : Hpa} {ws : PageWords}
  {L : PageNumber → Permission → Prop} {α : Type}

def Entrusts (k : Callers) (i : Nat) (r p : Hpa) (ws : PageWords) (L : PageNumber → Permission → Prop)
    (m : Machine) (x : MachineM α) : Prop :=
  x.Ends m (fun _ m' => m'.Entrusted k i r p ws L) (fun _ m' => m'.Entrusted k i r p ws L)
    fun _ m' => m'.Entrusted k i r p ws L

theorem Entrusts.answer {β : Type} {x : MachineM α} {f : α → β} (hx : Entrusts k i r p ws L m x) :
    Entrusts k i r p ws L m (x >>= fun a => pure (f a)) :=
  (ends_bind _ _).2 hx

namespace Entrusted

variable (h : m.Entrusted k i r p ws L)

include h

theorem lodged : ∃ v, m.vms[i]? = some (some v) ∧ v.guest.Lodged r (m.estate k) False := by
  obtain ⟨v, hv, hr⟩ := h.guest
  have hmem : some v ∈ m.vms := Array.mem_of_getElem? hv
  exact ⟨v, hv, hr, mem_roots_of_vm hmem hr, fun q hq => mem_others_of_vm hmem hq, False.elim⟩

theorem vm {f : Vm → MachineM α}
    (hf : ∀ v, m.vms[i]? = some (some v) → v.guest.Lodged r (m.estate k) False →
      Entrusts k i r p ws L m (f v)) : Entrusts k i r p ws L m (Machine.vm i >>= f) := by
  obtain ⟨v, hv, hg⟩ := h.lodged
  refine vm_ends h fun w hw => ?_
  cases hv.symm.trans hw
  exact hf v hv hg

theorem guest_entrusts {f : Guest → MachineM α}
    (hf : ∀ g, g.Lodged r (m.estate k) False → Entrusts k i r p ws L m (f g)) :
    Entrusts k i r p ws L m ((do return (← Machine.vm i).guest) >>= f) := by
  rw [bind_assoc]
  exact h.vm fun v _ hg => hf v.guest hg

theorem table {f : Ept → MachineM α}
    (hf : ∀ g : Guest, g.Lodged r (m.estate k) False → Entrusts k i r p ws L m (f g.table)) :
    Entrusts k i r p ws L m (Machine.table none i >>= f) := by
  rw [Machine.table, bind_assoc]
  exact h.vm fun v _ hg => hf v.guest hg

theorem onPlatform {x : PlatformM α}
    (hx : x.Safe (fun _ => False) m.toPlatform (m.memory.Lent (m.estate k) r p ws L)
      (fun _ q => q.memory.Lent (m.estate k) r p ws L)
      fun _ q => q.memory.Lent (m.estate k) r p ws L) :
    Entrusts k i r p ws L m (Machine.onPlatform x) := by
  have hback : ∀ {q : Platform}, (q.memory.Fits → q.memory.Lent (m.estate k) r p ws L) →
      Entrusted k i r p ws L { m with toPlatform := q } := fun hq => ⟨h.guest, hq⟩
  rw [Entrusts, Machine.onPlatform, ends_onPart]
  exact Ends.mono (hx.ends h.lent) (fun _ _ hq => hback hq) (fun _ _ hq => hback hq)
    fun _ _ hp => hback fun hf => (hp hf).elim

theorem onMemory {x : MemoryM VmError α}
    (hx : x.Safe (fun _ => False) m.memory (m.memory.Lent (m.estate k) r p ws L)
      (fun _ memory => memory.Lent (m.estate k) r p ws L)
      fun _ memory => memory.Lent (m.estate k) r p ws L) :
    Entrusts k i r p ws L m (Machine.onMemory x) :=
  h.onPlatform (Safe.onPart Platform.memory (fun _ => rfl) (fun _ _ => rfl) hx)

theorem setContext (hv : m.vms[i]? = some (some v)) (context : Context) :
    Entrusted k i r p ws L
      { m with vms := m.vms.setIfInBounds i (some { v with context := context }) } := by
  obtain ⟨w, hw, hr⟩ := h.guest
  cases hv.symm.trans hw
  refine ⟨⟨_, Array.getElem?_setIfInBounds_self_of_lt (Array.getElem?_eq_some_iff.1 hv).1, hr⟩,
    fun hf => ?_⟩
  rw [estate_setContext hv]
  exact h.lent hf

theorem onProcessor (f : Processor → Processor) :
    Entrusts k i r p ws L m (onHost cpu (Host.onProcessor f)) := by
  refine onHost_ends (fun _ => h) fun c hc => ?_
  obtain ⟨e, he, hset⟩ := exists_estate_withHost (k := k) hc
  refine ⟨h.guest, fun hf => ?_⟩
  have hlent := h.lent hf
  rw [he] at hlent
  rwa [hset]

theorem onSession (hmap : ∀ perm, ¬L MemoryMap.number perm)
    (hbuffer : p = ⟨videoBuffer⟩ → L Region.bufferNumber Permission.full) {x : SessionM α}
    (hx : ∀ {g root K}, g.Housed root K → ∀ region,
      x.Upholds (Session.Bears g region K) (Session.Stops g region K)) :
    Entrusts k i r p ws L m (onSession cpu i x) := by
  obtain ⟨v, hv, hg⟩ := h.lodged
  refine onSession_ends h fun c w hc hw => ?_
  cases hv.symm.trans hw
  have hback : ∀ {s : Session}, s.Bears v.guest c.region (·.Lent (m.estate k) r p ws L) →
      (m.withSession cpu i s).Entrusted k i r p ws L := by
    intro s hs
    refine ⟨⟨_, vms_withSession_self hv, ?_⟩, fun hf => ?_⟩
    · rw [hs.1.table]
      exact hg.root
    · rw [estate_withSession hc hv hs.2.1 hs.1]
      exact hs.2.2 hf
  exact Ends.mono (hx (hg.housed_lent hmap hbuffer) c.region _ ⟨.refl _, rfl, h.lent⟩)
    (fun _ _ hs => hback hs) (fun _ _ hs => hback hs) fun _ _ hs => hback hs.2

/-- Whatever is done on behalf of a guest leaves alone what is lent to it. -/
theorem perform {c : Command} (hc : c.OnBehalfOf i) (hl : c.Lawful m k) (hL : c.Permits m p L) :
    Entrusts k i r p ws L m (Machine.perform c) := by
  obtain ⟨cpu, vm, index, order⟩ := c
  obtain ⟨rfl, hc⟩ := hc
  have hsession : ∀ {β : Type} {x : SessionM β}, (∀ {g J F}, Session.Detached g J F → x.Upholds J F) →
      (∀ perm, ¬L MemoryMap.number perm) ∧
        (p = ⟨videoBuffer⟩ → L Region.bufferNumber Permission.full) →
      Entrusts k vm r p ws L m (Machine.onSession cpu vm x) := fun hx hL =>
    h.onSession hL.1 hL.2 fun hg _ => hx (Session.bears_detached hg)
  cases order with
  | access physSize gpa =>
      obtain rfl : index = none := hc
      refine h.table fun g hg => Entrusts.answer (h.onPlatform (Platform.backAccess_safe ?_))
      exact Ept.onAccess_lent hg.root hg.mem physSize gpa hL.2
  | mapFromHost source writable gpa perm =>
      refine Entrusts.answer (h.guest_entrusts fun g hg =>
        addressOf_ends hl (fun a ha hlends => ?_) h)
      exact h.onMemory (hg.mapFromHost_lent hlends (hL a ha))
  | setupMsrs => exact (hsession (fun hJ => hJ.programmable.setupMsrs) hL).answer
  | setupBitmaps =>
      refine Entrusts.answer (h.guest_entrusts fun g hg => h.onMemory ?_)
      exact (hg.housed_lent hL.1 hL.2).interceptEmulatedPorts
  | interceptPort port =>
      refine Entrusts.answer (h.guest_entrusts fun g hg => h.onMemory ?_)
      exact (hg.housed_lent hL.1 hL.2).interceptPort port
  | setRegisters writes => exact Entrusts.answer (h.vm fun v hv _ => h.setContext hv _)
  | script exit => exact (h.onProcessor _).answer
  | activate => exact (hsession (fun hJ => hJ.activate) hL).answer
  | load => exact (hsession (fun hJ => hJ.load) hL).answer
  | deactivate => exact (hsession (fun hJ => hJ.deactivate) hL).answer
  | configureControls =>
      exact (hsession (fun hJ => hJ.programmable.configureControls) hL).answer
  | enter => exact (hsession (fun hJ => hJ.enter) hL).answer
  | run =>
      exact (h.onSession hL.1 hL.2 fun hg _ =>
        (Session.bears_detached hg).runnable.run_upholds fun _ hs => hs).answer
  | handleExit fields regs handling =>
      exact hsession (fun hJ => hJ.programmable.handleExit fields regs handling) hL
  | _ => exact hc.elim

end Entrusted

/-- A page without a role that the guest may have mapped. -/
theorem Orderly.entrusted (h : m.Orderly k False) (hv : m.vms[i]? = some (some v))
    (hr : v.guest.table.root = some r) (hp : m.memory.Fits → m.Unowned p ∧ p ∈ m.memory.pages ∧
      ∀ n perm, m.memory.translation r n = some (p, perm) → L n perm) :
    m.Entrusted k i r p (m.memory.words p) L where
  guest := ⟨v, hv, hr⟩
  lent := fun hf => ⟨h.owned hf, (hp hf).1, (hp hf).2.1, rfl, (hp hf).2.2⟩

/-- The machines that are reached from `m` on behalf of a guest while callers withhold a page from it,
whether or not what is done succeeds. -/
inductive Attending (k : Callers) (i : Nat) (p : Hpa) (m : Machine) : Machine → Prop
  | start : Attending k i p m m
  | step {m₁ : Machine} {c : Command} (before : Attending k i p m m₁) (behalf : c.OnBehalfOf i)
      (lawful : c.Lawful m₁ k) (withholds : c.Withholds m₁ p) :
      Attending k i p m ((Machine.perform c).final m₁)

/-- What is withheld from the guest stays as it is, and withheld. -/
theorem Attending.entrusted (h : Attending k i p m m') (hp : p ≠ ⟨videoBuffer⟩)
    (hm : m.Entrusted k i r p ws fun n perm =>
      perm.contains Permission.write = false ∧ n ≠ MemoryMap.number) :
    m'.Entrusted k i r p ws fun n perm =>
      perm.contains Permission.write = false ∧ n ≠ MemoryMap.number := by
  induction h with
  | start => exact hm
  | @step m₁ c _ hc hl hwithholds ih =>
      refine (ih.perform hc hl ?_).final
      unfold Command.Withholds at hwithholds
      unfold Command.Permits
      split at hwithholds
      · intro a ha hpage hwrite
        obtain ⟨hwritable, hn⟩ := hwithholds ⟨a, ha, hpage⟩
        rw [hwritable] at hwrite
        exact ⟨Bool.eq_false_iff.2 fun hw => Bool.false_ne_true (hwrite hw), hn⟩
      · rename_i hother
        exact ⟨fun perm hmap => hmap.2 rfl, fun he => absurd he hp⟩

/-- What is done on behalf of a guest writes to a page that its table maps only if the page is where the
guest is handed its memory map.  A page that the guest may only read, and that is nowhere there, stays as
it is for good while callers withhold it from the guest. -/
theorem read_only_pages_kept (h : History Command.Lawful m k) (hv : m.vms[i]? = some (some v))
    (hr : v.guest.table.root = some r) :
    (∀ c n p perm, c.OnBehalfOf i → c.Lawful m k → m.memory.translation r n = some (p, perm) →
      ((perform c).final m).memory.Fits →
        ((perform c).final m).memory.words p = m.memory.words p ∨
          ∃ perm', m.memory.translation r MemoryMap.number = some (p, perm')) ∧
      ∀ p m', p ∈ m.memory.pages → m.Unowned p → p ≠ ⟨videoBuffer⟩ → m.memory.ReadOnly r p →
        Attending k i p m m' → m'.memory.Fits →
          m'.memory.words p = m.memory.words p ∧ m'.memory.ReadOnly r p := by
  have hk : m.Orderly k False := h.orderly id False.elim
  refine ⟨fun c n p perm hc hl hp hf => ?_, fun p m' hlive hfree hbuffer hread hattend hf => ?_⟩
  · by_cases hmap : ∃ perm', m.memory.translation r MemoryMap.number = some (p, perm')
    · exact .inr hmap
    left
    have hmapped : m.memory.Fits → m.Unowned p ∧ p ∈ m.memory.pages := fun hfits => by
      obtain ⟨a, ha⟩ := hk.owned hfits
      have hmem := mem_roots_of_vm (k := k) (Array.mem_of_getElem? hv) hr
      exact ⟨ha.unowned_iff.2 (ha.separate hmem hp), ha.target_live hmem hp⟩
    cases horder : c.order with
    | mapFromHost source writable gpa perm' =>
        have hentrusted : m.Entrusted k i r p (m.memory.words p) fun _ _ => True :=
          hk.entrusted hv hr fun hfits =>
            ⟨(hmapped hfits).1, (hmapped hfits).2, fun _ _ _ => trivial⟩
        refine ((hentrusted.perform hc hl ?_).final.lent hf).words
        simp only [Command.Permits, horder, implies_true]
    | _ =>
        have hentrusted : m.Entrusted k i r p (m.memory.words p) fun n _ => n ≠ MemoryMap.number :=
          hk.entrusted hv hr fun hfits => ⟨(hmapped hfits).1, (hmapped hfits).2,
            fun n' perm' hp' he => hmap ⟨perm', he ▸ hp'⟩⟩
        refine ((hentrusted.perform hc hl ?_).final.lent hf).words
        simp only [Command.Permits, horder]
        exact ⟨fun _ hne => hne rfl, fun _ => by decide⟩
  · have hlent := (hattend.entrusted hbuffer
      (hk.entrusted hv hr fun _ => ⟨hfree, hlive, hread⟩)).lent hf
    exact ⟨hlent.words, hlent.leaves⟩

def through (m : Machine) (commands : List Command) : Machine :=
  commands.foldl (fun m c => (perform c).final m) m

theorem through_cons {c : Command} {rest : List Command} :
    m.through (c :: rest) = ((perform c).final m).through rest := rfl

theorem Attending.through {commands : List Command} (h : Attending k i p m m')
    (hc : ∀ c ∈ commands, c.OnBehalfOf i ∧ ∀ m, c.Lawful m k ∧ c.Withholds m p) :
    Attending k i p m (m'.through commands) := by
  induction commands generalizing m' with
  | nil => exact h
  | cons c rest ih =>
      obtain ⟨hbehalf, hallowed⟩ := hc c List.mem_cons_self
      rw [through_cons]
      exact ih (.step h hbehalf (hallowed m').1 (hallowed m').2) fun c' hc' =>
        hc c' (List.mem_cons_of_mem c hc')

def lend (gpa : Gpa) : Command :=
  { order := .mapFromHost (.inPage ⟨0x1005000⟩ 0) false gpa Permission.read }

/-- The guest asks for its memory map. -/
def asksForMap : List Command :=
  [{ order := .setRegisters [(.rax, 1)] }, { order := .script { event := .exit 0x12 } },
   { order := .run }]

theorem lend_lawful {a : Account} (ha : m.memory.Sound (m.estate k) False a)
    (hrefs : m.memory.refs ⟨0x1005000⟩ = 1) (hheld : 0 < k.held ⟨0x1005000⟩) (gpa : Gpa) :
    (lend gpa).Lawful m k := by
  have hpage : (⟨0x1005000⟩ : Hpa).pageDown = ⟨0x1005000⟩ := by decide
  have hadd : (⟨0x1005000 + directMap⟩ : Hva).add? 0 = some ⟨0x1005000 + directMap⟩ := by decide
  refine ⟨?_, fun w hw q hq => ?_⟩
  · rw [hpage]
    exact mem_of_refs_pos (by omega)
  · cases hadd.symm.trans hw
    have hval := (live_of_physical? hq).2
    rw [UInt64.add_sub_cancel] at hval
    obtain rfl : q = ⟨0x1005000⟩ := congrArg Address.mk hval
    rw [hpage]
    exact ha.unowned_of_held hrefs hheld

/-- A guest that is lent a page for reading and then asks for its memory map is handed that elsewhere. -/
theorem read_only_pages_kept_lend : ∃ m k v m', History Command.Lawful m k ∧
    m.vms[0]? = some (some v) ∧ v.guest.table.root = some ⟨0x1000000⟩ ∧
    Attending k 0 ⟨0x1005000⟩ m m' ∧ m'.memory.Fits ∧
    m'.memory.translation ⟨0x1000000⟩ 5 = some (⟨0x1005000⟩, Permission.read) ∧
    (m'.memory.translation ⟨0x1000000⟩ MemoryMap.number).isSome ∧
    m'.memory.words ⟨0x1005000⟩ = m.memory.words ⟨0x1005000⟩ ∧
    m'.memory.ReadOnly ⟨0x1000000⟩ ⟨0x1005000⟩ := by
  have hallowed : ∀ c ∈ [({ order := .build {} } : Command)], ∀ m k, c.Lawful m k :=
    Command.forall_lawful rfl
  obtain ⟨m₀, k₀, h₀, halloc⟩ := (History.booted uniprocessor_booted).exists_after
    (P := fun m => (perform { order := .allocRetained }).Ends m (fun a m₁ =>
      a.page? = some ⟨0x1005000⟩ ∧ m₁.memory.Fits ∧ m₁.memory.refs ⟨0x1005000⟩ = 1 ∧
        (m₁.vms[0]?.join.any fun v : Vm =>
          decide (v.guest.table.root = some (⟨0x1000000⟩ : Hpa))) = true ∧
        (m₁.through (lend ⟨0x5000⟩ :: asksForMap)).memory.Fits ∧
        (m₁.through (lend ⟨0x5000⟩ :: asksForMap)).memory.translation ⟨0x1000000⟩ 5 =
          some (⟨0x1005000⟩, Permission.read) ∧
        ((m₁.through (lend ⟨0x5000⟩ :: asksForMap)).memory.translation ⟨0x1000000⟩
          MemoryMap.number).isSome)
      (fun _ _ => False) fun _ _ => False) hallowed (by decide +kernel)
  obtain ⟨a, m, hrun, hpage, hf, hrefs, hvm, hf', hlent, hmap⟩ := halloc.exists_ok
  obtain ⟨v, hv, hroot⟩ := (Option.any_eq_true _ _).1 hvm
  have hvm := Option.join_eq_some_iff.1 hv
  have hroot := of_decide_eq_true hroot
  have h := History.done h₀ (c := { order := .allocRetained }) trivial hrun
  rw [Callers.after, hpage, Option.elim_some] at h
  have hheld : 0 < (k₀.hold ⟨0x1005000⟩).held ⟨0x1005000⟩ := by
    simp only [Callers.hold, if_true]
    omega
  obtain ⟨a', ha⟩ := (h.orderly (I := False) id False.elim).owned hf
  have hattend : Attending (k₀.hold ⟨0x1005000⟩) 0 ⟨0x1005000⟩ m
      (m.through (lend ⟨0x5000⟩ :: asksForMap)) := by
    have hlend : (lend ⟨0x5000⟩).Withholds m ⟨0x1005000⟩ := fun _ => ⟨rfl, by decide⟩
    rw [through_cons]
    refine .through (.step .start ⟨rfl, trivial⟩ (lend_lawful ha hrefs hheld _) hlend) fun c hc => ?_
    simp only [asksForMap, List.mem_cons, List.not_mem_nil, or_false] at hc
    rcases hc with rfl | rfl | rfl <;> exact ⟨⟨rfl, trivial⟩, fun _ => ⟨trivial, trivial⟩⟩
  have hread : m.memory.ReadOnly ⟨0x1000000⟩ ⟨0x1005000⟩ := fun n perm hp =>
    absurd hp (ha.unmapped_of_held hrefs hheld (mem_roots_of_vm (Array.mem_of_getElem? hvm) hroot))
  obtain ⟨hwords, hread'⟩ := (read_only_pages_kept h hvm hroot).2 _ _ (mem_of_refs_pos (by omega))
    (ha.unowned_of_held hrefs hheld) (by decide) hread hattend hf'
  exact ⟨m, _, v, _, h, hvm, hroot, hattend, hf', hlent, hmap, hwords, hread'⟩

/-- What the guest has at an address, and the first byte of the page that it may be lent. -/
def lentAt (gpa : Gpa) (m : Machine) : Option (Hpa × Permission) × UInt8 :=
  (m.memory.translation ⟨0x1000000⟩ gpa.number, (m.memory.words ⟨0x1005000⟩).byte 0)

/-- Where the page is lent in the place of the memory map, the map is written over it, although the
guest may only read it. -/
theorem memory_map_over_read_only :
    (uniprocessor.after [{ order := .build {} }, { order := .allocRetained },
      lend ⟨Layout.memoryMap⟩]).map (lentAt ⟨Layout.memoryMap⟩) =
        some (some (⟨0x1005000⟩, Permission.read), 0) ∧
      (uniprocessor.after ([{ order := .build {} }, { order := .allocRetained },
        lend ⟨Layout.memoryMap⟩] ++ asksForMap)).map (lentAt ⟨Layout.memoryMap⟩) =
          some (some (⟨0x1005000⟩, Permission.read), 0x40) := by
  decide +kernel

end Machine

end Hypervisor
