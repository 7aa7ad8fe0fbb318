import Hypervisor.Proofs.RunOutcome
import Hypervisor.Proofs.Tracking

/-!
# Guests that take turns on cpus

Every cpu looks only at the control block that is current there.  So what keeps a block from being
current on two cpus is up to the callers: a guest that was left on a cpu must be taken off it before
another cpu runs it.  Where callers see to that, a block is current on one cpu at most.
-/

namespace Hypervisor

open Hypervisor.Action

namespace Session

variable {s : Session}

theorem deactivate_unloads (hf : s.host.cpu.processor.faults = []) :
    deactivate.Ends s
      (fun _ t => s.guest.Same t.guest ∧ t.host.cpu.processor.faults = [] ∧
        t.host.cpu.current =
          (if s.host.cpu.current = some s.guest.block then none else s.host.cpu.current) ∧
        t.host.cpu.processor.current =
          if s.host.cpu.processor.current = some s.guest.block then none
          else s.host.cpu.processor.current)
      (fun _ _ => False) fun _ _ => False :=
  deactivate_ends ⟨⟨rfl, rfl, rfl, rfl, rfl, rfl⟩, Processor.faultless_spent hf _ _, rfl, rfl⟩
    (Processor.forall_faults hf)

end Session

namespace Machine

open Session

/-- No guest is on a cpu, no instruction is made to fail, and no two guests share a control block. -/
structure Vacant (m : Machine) : Prop where
  current : ∀ {i : Nat} {c : Cpu}, m.cpus[i]? = some c → c.current = none ∧ c.processor.current = none
  faultless : ∀ {i : Nat} {c : Cpu}, m.cpus[i]? = some c → c.processor.faults = []
  distinct : ∀ {i j : Nat} {v w : Vm}, m.vms[i]? = some (some v) → m.vms[j]? = some (some w) →
    v.guest.block = w.guest.block → i = j

/-- The cpu and the guest of a command are there. -/
def Present (m : Machine) (c : Command) : Prop :=
  (∃ x, m.cpus[c.cpu]? = some x) ∧ ∃ v, m.vms[c.vm]? = some (some v)

/-- Which guest is left on each cpu after a command has ended.  A run leaves its guest there if the guest
goes on, and none otherwise, unless it is refused; a guest is also taken off the cpu on demand. -/
def reseat (seats : Nat → Option Nat) (c : Command) (r : Except VmError Answer) : Nat → Option Nat :=
  match c.order with
  | .run =>
      match r with
      | .ok (.text s) =>
          Function.update seats c.cpu (if s = ExitResult.continued.text then some c.vm else none)
      | .error .foreignVmcs => seats
      | _ => Function.update seats c.cpu none
  | _ => if seats c.cpu = some c.vm then Function.update seats c.cpu none else seats

/-- The machines that allowed commands lead to, with the guest that is left on each cpu. -/
inductive Turns (Allowed : (Nat → Option Nat) → Command → Prop) (m₀ : Machine) :
    (Nat → Option Nat) → Machine → Prop
  | start : Turns Allowed m₀ (fun _ => none) m₀
  | done {seats : Nat → Option Nat} {m m' : Machine} {c : Command} {a : Answer}
      (before : Turns Allowed m₀ seats m) (allowed : Allowed seats c)
      (run : (perform c).run m = .ok a m') : Turns Allowed m₀ (reseat seats c (.ok a)) m'
  | failed {seats : Nat → Option Nat} {m m' : Machine} {c : Command} {e : VmError}
      (before : Turns Allowed m₀ seats m) (allowed : Allowed seats c) (present : m.Present c)
      (run : (perform c).run m = .error (.error e) m') :
      Turns Allowed m₀ (reseat seats c (.error e)) m'

/-- Guests are run and taken off cpus, in any order. -/
def TakesTurns (_ : Nat → Option Nat) (c : Command) : Prop := c.order = .run ∨ c.order = .deactivate

/-- A guest is run on a cpu only while it is left on no other one. -/
def Handover (seats : Nat → Option Nat) (c : Command) : Prop :=
  c.order = .run ∧ (∀ i, seats i = some c.vm → i = c.cpu) ∨ c.order = .deactivate

def block? (m : Machine) (j : Nat) : Option Hpa := m.vms[j]?.join.map fun v => v.guest.block

structure Seated (seats : Nat → Option Nat) (m : Machine) : Prop where
  current : ∀ {i : Nat} {c : Cpu}, m.cpus[i]? = some c → c.current = (seats i).bind m.block?
  loaded : ∀ {i : Nat} {c : Cpu}, m.cpus[i]? = some c → c.processor.current = c.current
  faultless : ∀ {i : Nat} {c : Cpu}, m.cpus[i]? = some c → c.processor.faults = []
  seated : ∀ {i j : Nat}, seats i = some j → (m.block? j).isSome
  distinct : ∀ {j k : Nat} {p : Hpa}, m.block? j = some p → m.block? k = some p → j = k

variable {m₀ m : Machine} {seats : Nat → Option Nat} {i j k : Nat} {c : Cpu} {v : Vm} {s : Session}

theorem block?_eq_some {p : Hpa} :
    m.block? j = some p ↔ ∃ v, m.vms[j]? = some (some v) ∧ v.guest.block = p := by
  simp only [block?, Option.map_eq_some_iff, Option.join_eq_some_iff]

theorem Vacant.seated (h : m.Vacant) : Seated (fun _ => none) m where
  current := fun hc => (h.current hc).1
  loaded := fun hc => (h.current hc).2.trans (h.current hc).1.symm
  faultless := h.faultless
  seated := nofun
  distinct := fun hj hk => by
    obtain ⟨v, hv, rfl⟩ := block?_eq_some.1 hj
    obtain ⟨w, hw, heq⟩ := block?_eq_some.1 hk
    exact h.distinct hv hw heq.symm

theorem Tracked.vacant (h : m.Tracked) (hidle : ∀ c ∈ m.cpus, c.current = none) : m.Vacant where
  current := fun hc => by
    have hcurrent := hidle _ (Array.mem_of_getElem? hc)
    exact ⟨hcurrent, (h.cpus hc).current.symm.trans hcurrent⟩
  faultless := fun hc => (h.cpus hc).faultless
  distinct := h.distinct

theorem block?_withSession (hv : m.vms[j]? = some (some v)) (hsame : v.guest.Same s.guest) :
    (m.withSession i j s).block? = m.block? := by
  funext k
  simp only [block?, withSession, Array.getElem?_setIfInBounds]
  split
  · rename_i heq
    subst heq
    rw [if_pos (Array.getElem?_eq_some_iff.1 hv).1, hv]
    exact congrArg some hsame.block
  · rfl

/-- A session on a cpu changes who is there, and nobody else. -/
theorem Seated.withSession (h : Seated seats m) (hc : m.cpus[i]? = some c)
    (hv : m.vms[j]? = some (some v)) (hsame : v.guest.Same s.guest) {seat : Option Nat}
    (hseat : seat = some j ∨ seat = none ∨ seat = seats i)
    (hcurrent : s.host.cpu.current = seat.bind m.block?)
    (hloaded : s.host.cpu.processor.current = s.host.cpu.current)
    (hf : s.host.cpu.processor.faults = []) :
    Seated (Function.update seats i seat) (m.withSession i j s) := by
  have hblock := block?_withSession (i := i) hv hsame
  refine ⟨fun {k d} hd => ?_, fun hd => ?_, fun hd => ?_, fun {k l} hk => ?_, ?_⟩
  · rw [hblock]
    rcases cpus_withSession hd with ⟨rfl, rfl⟩ | ⟨hne, hd⟩
    · rw [Function.update_self, hcurrent]
    · rw [Function.update_of_ne hne, h.current hd]
  · rcases cpus_withSession hd with ⟨rfl, rfl⟩ | ⟨-, hd⟩
    · exact hloaded
    · exact h.loaded hd
  · rcases cpus_withSession hd with ⟨rfl, rfl⟩ | ⟨-, hd⟩
    · exact hf
    · exact h.faultless hd
  · rw [hblock]
    rw [Function.update_apply] at hk
    split at hk
    · rcases hseat with rfl | rfl | rfl
      · cases hk
        rw [block?_eq_some.2 ⟨v, hv, rfl⟩]
        rfl
      · cases hk
      · exact h.seated hk
    · exact h.seated hk
  · rw [hblock]
    exact h.distinct

/-- A run that fails leaves no guest, unless it is refused. -/
theorem reseat_error {e : VmError} (hne : e ≠ .foreignVmcs) :
    reseat seats { cpu := i, vm := j, order := .run } (.error e) = Function.update seats i none := by
  cases e with
  | foreignVmcs => exact absurd rfl hne
  | _ => rfl

theorem reseat_eq (seats : Nat → Option Nat) (command : Command) (r : Except VmError Answer) :
    reseat seats command r = seats ∨
      reseat seats command r = Function.update seats command.cpu none ∨
      command.order = .run ∧
        reseat seats command r = Function.update seats command.cpu (some command.vm) := by
  obtain ⟨cpu, vm, table, order⟩ := command
  cases order with
  | run =>
      cases r with
      | error e =>
          by_cases hforeign : e = .foreignVmcs
          · exact .inl (by rw [hforeign]; rfl)
          · exact .inr (.inl (reseat_error hforeign))
      | ok a =>
          cases a with
          | text s =>
              by_cases hs : s = ExitResult.continued.text
              · exact .inr (.inr ⟨rfl, congrArg (Function.update seats cpu) (if_pos hs)⟩)
              · exact .inr (.inl (congrArg (Function.update seats cpu) (if_neg hs)))
          | _ => exact .inr (.inl rfl)
  | _ =>
      simp only [reseat]
      split
      · exact .inr (.inl rfl)
      · exact .inl rfl

/-- A run seats its guest if the guest goes on, and unseats it if the guest is given up. -/
theorem run_seated (h : Seated seats m) (hc : m.cpus[i]? = some c)
    (hv : m.vms[j]? = some (some v)) :
    (perform { cpu := i, vm := j, order := .run }).Ends m
      (fun a m' => Seated (reseat seats { cpu := i, vm := j, order := .run } (.ok a)) m' ∧
        m'.block? = m.block?)
      (fun e m' => Seated (reseat seats { cpu := i, vm := j, order := .run } (.error e)) m' ∧
        m'.block? = m.block?)
      fun _ _ => True := by
  have hgivenUp : ∀ {t}, GivenUp ⟨m.host c, v.guest, v.context⟩ t →
      Seated (Function.update seats i none) (m.withSession i j t) ∧
        (m.withSession i j t).block? = m.block? := fun ht =>
    ⟨h.withSession hc hv ht.same (.inr (.inl rfl)) ht.current (ht.loaded.trans ht.current.symm)
      ht.faultless, block?_withSession hv ht.same⟩
  rw [perform, ends_bind]
  refine onSession_ends_of hc hv ?_
  by_cases hforeign : Session.Foreign ⟨m.host c, v.guest, v.context⟩
  · refine (run_foreign hforeign).mono (fun _ _ h => h.elim) ?_ fun _ _ h => h.elim
    rintro e t ⟨rfl, rfl⟩
    rw [withSession_self hc hv]
    exact ⟨h, rfl⟩
  · refine (run_ends_free (free_of_not_foreign (h.faultless hc) hforeign)).mono ?_ ?_
      fun _ _ _ => trivial
    · rintro r t (⟨rfl, ht⟩ | ⟨rfl, ht⟩)
      · refine ⟨h.withSession hc hv ht.same (.inl (if_pos rfl)) ?_
          (ht.loaded.trans ht.current.symm) ht.faultless, block?_withSession hv ht.same⟩
        rw [if_pos rfl, ht.current, Option.bind_some, block?_eq_some.2 ⟨v, hv, rfl⟩]
        exact congrArg some ht.same.block
      · have hnone : (if ExitResult.exited.text = ExitResult.continued.text then some j else none) =
            none := if_neg (by decide)
        show Seated (Function.update seats i _) _ ∧ _
        rw [hnone]
        exact hgivenUp ht
    · rintro e t ⟨hne, ht⟩
      rw [reseat_error hne]
      exact hgivenUp ht

/-- A guest that is taken off a cpu is left there no longer, and any other one is. -/
theorem deactivate_seated (h : Seated seats m) (hc : m.cpus[i]? = some c)
    (hv : m.vms[j]? = some (some v)) :
    (perform { cpu := i, vm := j, order := .deactivate }).Ends m
      (fun a m' => Seated (reseat seats { cpu := i, vm := j, order := .deactivate } (.ok a)) m')
      (fun _ _ => False) fun _ _ => True := by
  have hblock : m.block? j = some v.guest.block := block?_eq_some.2 ⟨v, hv, rfl⟩
  refine (ends_bind _ _).2 (onSession_ends_of hc hv ?_)
  refine (Session.deactivate_unloads (h.faultless hc)).mono ?_ (fun _ _ h => h) fun _ _ _ => trivial
  rintro - t ⟨hsame, hf, hcurrent, hloaded⟩
  have hsame' : t.host.cpu.processor.current = t.host.cpu.current := by
    rw [hcurrent, hloaded]
    exact congrArg (fun p => if p = some v.guest.block then none else p) (h.loaded hc)
  show Seated (if seats i = some j then Function.update seats i none else seats) _
  have hwas : c.current = (seats i).bind m.block? := h.current hc
  by_cases hseat : seats i = some j
  · rw [if_pos hseat]
    refine h.withSession hc hv hsame (.inr (.inl rfl)) ?_ hsame' hf
    rw [hcurrent]
    refine if_pos ?_
    show c.current = some v.guest.block
    rw [hwas, hseat, Option.bind_some, hblock]
  · have hother : c.current ≠ some v.guest.block := by
      rw [hwas]
      intro hcurrent
      obtain ⟨k, hk, hkblock⟩ := Option.bind_eq_some_iff.1 hcurrent
      rw [h.distinct hkblock hblock] at hk
      exact hseat hk
    rw [if_neg hseat, ← Function.update_eq_self i seats]
    refine h.withSession hc hv hsame (.inr (.inr rfl)) ?_ hsame' hf
    rw [hcurrent, ← hwas]
    exact if_neg hother

theorem present_of_ok {command : Command} {a : Answer} {m' : Machine}
    (hc : TakesTurns seats command) (hrun : (perform command).run m = .ok a m') :
    m.Present command := by
  obtain ⟨cpu, vm, table, order⟩ := command
  have hsession : ∀ {α : Type} {x : SessionM α}, (onSession cpu vm x).Ends m
      (fun _ _ => m.Present ⟨cpu, vm, table, order⟩) (fun _ _ => True) fun _ _ => True := by
    intro α x
    refine onSession_ends trivial fun c v hc hv => ?_
    exact Ends.of_forall (fun _ _ => ⟨⟨c, hc⟩, v, hv⟩) (fun _ _ => trivial) fun _ _ => trivial
  have hends : (perform ⟨cpu, vm, table, order⟩).Ends m
      (fun _ _ => m.Present ⟨cpu, vm, table, order⟩) (fun _ _ => True) fun _ _ => True := by
    rcases hc with rfl | rfl
    · exact (ends_bind _ _).2 hsession
    · exact (ends_bind _ _).2 hsession
  exact hends.ok hrun

/-- Whoever takes turns, the current block of each cpu is that of the guest which is left there. -/
theorem Turns.seated {Allowed : (Nat → Option Nat) → Command → Prop} (h₀ : m₀.Vacant)
    (hallowed : ∀ {seats c}, Allowed seats c → TakesTurns seats c) (h : Turns Allowed m₀ seats m) :
    Seated seats m := by
  have hstep : ∀ {seats m c}, Seated seats m → TakesTurns seats c → m.Present c →
      (perform c).Ends m (fun a m' => Seated (reseat seats c (.ok a)) m')
        (fun e m' => Seated (reseat seats c (.error e)) m') fun _ _ => True := by
    rintro seats m ⟨cpu, vm, table, order⟩ hs (rfl | rfl) ⟨⟨c, hc⟩, v, hv⟩
    · exact (run_seated hs hc hv).mono (fun _ _ h => h.1) (fun _ _ h => h.1) fun _ _ h => h
    · exact (deactivate_seated hs hc hv).mono (fun _ _ h => h) (fun _ _ h => h.elim) fun _ _ h => h
  induction h with
  | start => exact h₀.seated
  | done _ hc hrun ih => exact (hstep ih (hallowed hc) (present_of_ok (hallowed hc) hrun)).ok hrun
  | failed _ hc hpresent hrun ih => exact (hstep ih (hallowed hc) hpresent).error hrun

def Single (seats : Nat → Option Nat) : Prop :=
  ∀ i k j, seats i = some j → seats k = some j → i = k

theorem Single.reseat {command : Command} (h : Single seats) (hc : Handover seats command)
    (r : Except VmError Answer) : Single (reseat seats command r) := by
  have hupdate : ∀ {n : Nat} {seat : Option Nat},
      (∀ {i j}, seat = some j → seats i = some j → i = n) → Single (Function.update seats n seat) := by
    intro n seat hseat i k j hi hk
    rw [Function.update_apply] at hi hk
    split at hi <;> split at hk
    · exact ‹i = n›.trans ‹k = n›.symm
    · exact ‹i = n›.trans (hseat hi hk).symm
    · exact (hseat hk hi).trans ‹k = n›.symm
    · exact h i k j hi hk
  rcases reseat_eq seats command r with heq | heq | ⟨horder, heq⟩
  · rw [heq]
    exact h
  · rw [heq]
    exact hupdate fun hj => by cases hj
  · rw [heq]
    rcases hc with ⟨-, hfree⟩ | hdeactivate
    · refine hupdate fun hj hi => hfree _ ?_
      cases hj
      exact hi
    · rw [horder] at hdeactivate
      cases hdeactivate

theorem Turns.single (h : Turns Handover m₀ seats m) : Single seats := by
  induction h with
  | start => exact fun _ _ _ hi => by cases hi
  | done _ hc _ ih => exact ih.reseat hc _
  | failed _ hc _ _ ih => exact ih.reseat hc _

/-- Once a guest is given up, its block is current on no cpu, and a cpu takes any guest unless another
one was left there. -/
def Rid (m : Machine) (seats : Nat → Option Nat) (i : Nat) (p : Hpa) : Prop :=
  ∀ (k : Nat) (d : Cpu), m.cpus[k]? = some d →
    d.current ≠ some p ∧ d.processor.current ≠ some p ∧ (k = i ∨ seats k = none → m.Accepts k)

theorem Seated.rid (h : Seated (Function.update seats i none) m)
    (honly : ∀ k, seats k = some j → k = i) {p : Hpa} (hp : m.block? j = some p) :
    m.Rid seats i p := by
  intro k d hd
  have hcurrent := h.current hd
  have hne : d.current ≠ some p := by
    rw [hcurrent]
    intro hsome
    obtain ⟨l, hl, hlp⟩ := Option.bind_eq_some_iff.1 hsome
    obtain rfl := h.distinct hlp hp
    rw [Function.update_apply] at hl
    split at hl
    · cases hl
    · exact absurd (honly k hl) ‹_›
  refine ⟨hne, by rwa [h.loaded hd], fun hnobody => ?_⟩
  refine accepts_of_current hd ?_ (h.faultless hd)
  rw [hcurrent, Function.update_apply]
  split
  · rfl
  · rw [hnobody.resolve_left ‹_›]
    rfl

/-- Guests are run and taken off cpus in any order, but none is run on a cpu while it is left on another
one.  Then no block is current on two cpus: a cpu has the block of the guest that was left there.  Once
a run has given up its guest, no cpu has the block of that guest, and every cpu on which no other guest
was left takes any guest. -/
theorem current_on_one_cpu (h₀ : m₀.Vacant) (h : Turns Handover m₀ seats m) :
    (∀ (i k : Nat) (c d : Cpu) (p : Hpa), m.cpus[i]? = some c → m.cpus[k]? = some d →
      c.current = some p → d.current = some p → i = k) ∧
    (∀ (i : Nat) (c : Cpu), m.cpus[i]? = some c → c.processor.current = c.current ∧
      ∀ (j : Nat) (v : Vm), m.vms[j]? = some (some v) →
        (c.current = some v.guest.block ↔ seats i = some j)) ∧
    ∀ (i j : Nat) (c : Cpu) (v : Vm), m.cpus[i]? = some c → m.vms[j]? = some (some v) →
      (∀ k, seats k = some j → k = i) →
      (perform { cpu := i, vm := j, order := .run }).Ends m
        (fun a m' => a = .text ExitResult.exited.text → m'.Rid seats i v.guest.block)
        (fun e m' => e ≠ .foreignVmcs → m'.Rid seats i v.guest.block) fun _ _ => True := by
  have hseated : Seated seats m := h.seated h₀ fun hc => hc.imp And.left id
  have hsingle := h.single
  refine ⟨fun i k c d p hc hd hp hp' => ?_, fun i c hc => ⟨hseated.loaded hc, fun j v hv => ?_⟩,
    fun i j c v hc hv honly => ?_⟩
  · rw [hseated.current hc] at hp
    rw [hseated.current hd] at hp'
    obtain ⟨j, hj, hjp⟩ := Option.bind_eq_some_iff.1 hp
    obtain ⟨l, hl, hlp⟩ := Option.bind_eq_some_iff.1 hp'
    obtain rfl := hseated.distinct hjp hlp
    exact hsingle i k j hj hl
  · have hblock : m.block? j = some v.guest.block := block?_eq_some.2 ⟨v, hv, rfl⟩
    rw [hseated.current hc, Option.bind_eq_some_iff]
    constructor
    · rintro ⟨l, hl, hlp⟩
      obtain rfl := hseated.distinct hlp hblock
      exact hl
    · exact fun hj => ⟨j, hj, hblock⟩
  · have hblock : m.block? j = some v.guest.block := block?_eq_some.2 ⟨v, hv, rfl⟩
    refine (run_seated hseated hc hv).mono ?_ ?_ fun _ _ h => h
    · rintro a m' ⟨hm', hblocks⟩ rfl
      exact hm'.rid honly (by rw [hblocks, hblock])
    · rintro e m' ⟨hm', hblocks⟩ hne
      rw [reseat_error hne] at hm'
      exact hm'.rid honly (by rw [hblocks, hblock])

def current? (m : Machine) (i : Nat) : Option Hpa := m.cpus[i]?.bind Cpu.current

theorem current?_eq_some {p : Hpa} :
    m.current? i = some p ↔ ∃ c, m.cpus[i]? = some c ∧ c.current = some p :=
  Option.bind_eq_some_iff

def reply? (m : Machine) (c : Command) : Option (String × Machine) :=
  match (perform c).run m with
  | .ok (.text s) m' => some (s, m')
  | _ => none

theorem reply?_eq_some {c : Command} {s : String} {m m' : Machine} :
    m.reply? c = some (s, m') ↔ (perform c).run m = .ok (.text s) m' := by
  rw [reply?]
  split
  · rename_i hrun
    rw [hrun]
    constructor
    · rintro ⟨⟩
      rfl
    · rintro ⟨⟩
      rfl
  · rename_i hother
    constructor
    · rintro ⟨⟩
    · exact fun hrun => absurd hrun (hother s m')

def failure? (m : Machine) (c : Command) : Option (VmError × Machine) :=
  match (perform c).run m with
  | .error (.error e) m' => some (e, m')
  | _ => none

theorem failure?_eq_some {c : Command} {e : VmError} {m m' : Machine} :
    m.failure? c = some (e, m') ↔ (perform c).run m = .error (.error e) m' := by
  rw [failure?]
  split
  · rename_i hrun
    rw [hrun]
    constructor
    · rintro ⟨⟩
      rfl
    · rintro ⟨⟩
      rfl
  · rename_i hother
    constructor
    · rintro ⟨⟩
    · exact fun hrun => absurd hrun (hother e m')

def readied : List Command :=
  [{ order := .build {} }, { order := .build {} }, { order := .script { event := .cpuid 2 } },
   { cpu := 1, order := .script { event := .cpuid 2 } }]

theorem exists_readied {P : Machine → Prop} [DecidablePred P]
    (hrun : ((dual.after readied).any fun m =>
      decide ((∀ c ∈ m.cpus.toList, c.current.isNone) ∧ P m)) = true) :
    ∃ m, m.Vacant ∧ P m := by
  have hallowed : ∀ c ∈ readied, ∀ (_ : Machine) (_ : Callers), c.order.Regular := by
    intro c hc _ _
    simp only [readied, List.mem_cons, List.not_mem_nil, or_false] at hc
    rcases hc with rfl | rfl | rfl | rfl <;> exact trivial
  obtain ⟨m, k, h, hidle, hP⟩ := (History.booted dual_booted).exists_after hallowed hrun
  refine ⟨m, h.tracked.vacant fun c hc => ?_, hP⟩
  exact Option.isNone_iff_eq_none.1 (hidle c (Array.mem_toList_iff.2 hc))

/-- A guest that went on is on its cpu, and on no other one. -/
theorem current_on_one_cpu_readied : ∃ m₀ seats m p, m₀.Vacant ∧ Turns Handover m₀ seats m ∧
    m.current? 0 = some p ∧ m.block? 0 = some p ∧ m.current? 1 ≠ some p := by
  obtain ⟨m₀, h₀, hrun⟩ := exists_readied (P := fun m₀ =>
    ((m₀.after [{ order := .run }]).any fun m =>
      (m.current? 0).isSome && m.current? 0 == m.block? 0) = true) (by decide +kernel)
  obtain ⟨m, hm, hrun⟩ := (Option.any_eq_true _ _).1 hrun
  obtain ⟨a, m₁, hok, hnone⟩ := after_cons.1 hm
  cases hnone
  obtain ⟨hsome, heq⟩ := Bool.and_eq_true_iff.1 hrun
  obtain ⟨p, hp⟩ := Option.isSome_iff_exists.1 hsome
  have hblock : m.block? 0 = some p := (eq_of_beq heq).symm.trans hp
  have hturns : Turns Handover m₀ _ m := .done .start (.inl ⟨rfl, fun i h => by cases h⟩) hok
  refine ⟨m₀, _, m, p, h₀, hturns, hp, hblock, fun hp' => ?_⟩
  obtain ⟨c, hc, hcurrent⟩ := current?_eq_some.1 hp
  obtain ⟨d, hd, hcurrent'⟩ := current?_eq_some.1 hp'
  exact absurd ((current_on_one_cpu h₀ hturns).1 0 1 c d p hc hd hcurrent hcurrent') (by decide)

/-- A guest that is not taken off its cpu before another cpu runs it is on both then.  When the second
cpu gives it up, its block stays current on the first one, which refuses another guest. -/
theorem current_on_two_cpus : ∃ m₀ seats m p m' m'', m₀.Vacant ∧ Turns TakesTurns m₀ seats m ∧
    m.block? 0 = some p ∧ m.current? 0 = some p ∧ m.current? 1 = some p ∧
    (perform { cpu := 1, order := .run }).run m = .ok (.text "Exited") m' ∧
    m'.current? 0 = some p ∧
    (perform { vm := 1, order := .run }).run m' = .error (.error .foreignVmcs) m'' := by
  obtain ⟨m₀, h₀, hrun⟩ := exists_readied (P := fun m₀ =>
    ((m₀.after [{ order := .run }, { cpu := 1, order := .run }]).any fun m =>
      (m.reply? { cpu := 1, order := .run }).any fun said =>
        (said.2.failure? { vm := 1, order := .run }).any fun failed =>
          said.1 == "Exited" && failed.1 == .foreignVmcs && (m.block? 0).isSome &&
            m.current? 0 == m.block? 0 && m.current? 1 == m.block? 0 &&
              said.2.current? 0 == m.block? 0) = true) (by decide +kernel)
  obtain ⟨m, hm, hrun⟩ := (Option.any_eq_true _ _).1 hrun
  obtain ⟨⟨s, m'⟩, hsaid, hrun⟩ := (Option.any_eq_true _ _).1 hrun
  obtain ⟨⟨e, m''⟩, hfailed, hrun⟩ := (Option.any_eq_true _ _).1 hrun
  simp only [Bool.and_eq_true, beq_iff_eq] at hrun
  obtain ⟨⟨⟨⟨⟨rfl, rfl⟩, hsome⟩, hp₀⟩, hp₁⟩, hp'⟩ := hrun
  obtain ⟨a₁, m₁, hrun₁, hm⟩ := after_cons.1 hm
  obtain ⟨a₂, m₂, hrun₂, hnone⟩ := after_cons.1 hm
  cases hnone
  obtain ⟨p, hp⟩ := Option.isSome_iff_exists.1 hsome
  have hfirst : Turns TakesTurns m₀ _ m₁ := .done .start (.inl rfl) hrun₁
  exact ⟨m₀, _, m, p, m', m'', h₀, .done hfirst (.inl rfl) hrun₂, hp, hp₀.trans hp, hp₁.trans hp,
    reply?_eq_some.1 hsaid, hp'.trans hp, failure?_eq_some.1 hfailed⟩

end Machine

end Hypervisor
