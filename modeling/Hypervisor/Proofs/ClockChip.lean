import Hypervisor.Proofs.Exit.Cmos
import Hypervisor.Proofs.Tracking

/-!
# The clock chip over the life of a guest

From the time it is built a guest has exits on whatever cpus, and meanwhile anything may be done to the
machine: other guests run, the guest is taken off its cpu, and commands fail.  What it reads from its
clock chip depends on nothing but its size and the register that it selected last.  It is always served,
unless its instruction is the last one of its address space.
-/

namespace Hypervisor

/-- The register that the guest selected last, of exits from the last one on, or the first one. -/
def Session.lastSelected (xs : List (ExitReason × Session)) : UInt8 := (xs.findSome? selected?).getD 0

/-- Exits that select no register do not matter. -/
theorem Session.lastSelected_filter {p : ExitReason × Session → Bool} {xs : List (ExitReason × Session)}
    (h : ∀ x ∈ xs, (selected? x).isSome = true → p x = true) :
    lastSelected (xs.filter p) = lastSelected xs := by
  induction xs with
  | nil => rfl
  | cons x xs ih =>
      have hrest := ih fun y hy => h y (List.mem_cons_of_mem x hy)
      by_cases hx : p x = true
      · rw [List.filter_cons_of_pos hx, lastSelected, lastSelected, List.findSome?_cons,
          List.findSome?_cons]
        cases selected? x with
        | some index => rfl
        | none => exact hrest
      · have hnone : selected? x = none := Option.not_isSome_iff_eq_none.1 fun hsome =>
          hx (h x List.mem_cons_self hsome)
        rw [List.filter_cons_of_neg hx, hrest, lastSelected, lastSelected, List.findSome?_cons, hnone]

/-- The command handles no exit of the guest that the guest did not have. -/
def Command.Genuine (j : Nat) (c : Command) : Prop :=
  match c.order with
  | .handleExit .. => c.vm ≠ j
  | _ => True

def Command.callsHandler (c : Command) : Bool :=
  match c.order with
  | .handleExit .. => true
  | _ => false

theorem Command.genuine_of_not_callsHandler {c : Command} {j : Nat} (h : c.callsHandler = false) :
    c.Genuine j := by
  obtain ⟨cpu, vm, table, order⟩ := c
  cases order with
  | handleExit => cases h
  | _ => exact trivial

namespace Machine

open Hypervisor.Action

/-- The exit that the guest with an index has when it is run on a cpu next. -/
def exit? (m : Machine) (i j : Nat) : Option (ExitReason × Session) :=
  match m.cpus[i]?, m.vms[j]? with
  | some c, some (some v) => Session.exit? ⟨m.host c, v.guest, v.context⟩
  | _, _ => none

/-- The exit of the guest that a command brings about. -/
def exitIn? (m : Machine) (j : Nat) (c : Command) : Option (ExitReason × Session) :=
  match c.order with
  | .run => if c.vm = j then m.exit? c.cpu j else none
  | _ => none

/-- The guest with the index `j` was built as `config` tells and has had the exits `xs` since, the last one
first, while any other commands were carried out. -/
inductive Exits (config : GuestConfig) (j : Nat) : List (ExitReason × Session) → Machine → Prop
  | built {m m' : Machine} {i : Nat} {a : Answer} (index : m.vms.size = j)
      (run : (perform { cpu := i, order := .build config }).run m = .ok a m') : Exits config j [] m'
  | done {xs : List (ExitReason × Session)} {m m' : Machine} {c : Command} {a : Answer}
      (before : Exits config j xs m) (genuine : c.Genuine j) (run : (perform c).run m = .ok a m') :
      Exits config j ((m.exitIn? j c).toList ++ xs) m'
  | failed {xs : List (ExitReason × Session)} {m m' : Machine} {c : Command} {e : VmError}
      (before : Exits config j xs m) (genuine : c.Genuine j)
      (run : (perform c).run m = .error (.error e) m') : Exits config j ((m.exitIn? j c).toList ++ xs) m'

structure Selects (j : Nat) (index : UInt8) (size : UInt64) (m : Machine) : Prop where
  taken : j < m.vms.size
  guest : ∀ {v : Vm}, m.vms[j]? = some (some v) → v.guest.rtcIndex = index ∧ v.guest.physSize = size

variable {α : Type} {m m' : Machine} {i j k : Nat} {index : UInt8} {size : UInt64} {config : GuestConfig}
  {xs : List (ExitReason × Session)} {reason : ExitReason} {s : Session}

theorem Selects.congr (h : m.Selects j index size) (hvms : m'.vms = m.vms) :
    m'.Selects j index size := by
  refine ⟨?_, fun hv => ?_⟩
  · rw [hvms]
    exact h.taken
  · rw [hvms] at hv
    exact h.guest hv

theorem Selects.set (h : m.Selects j index size) {o : Option Vm}
    (ho : k = j → ∀ v, o = some v → v.guest.rtcIndex = index ∧ v.guest.physSize = size) :
    Selects j index size { m with vms := m.vms.setIfInBounds k o } := by
  refine ⟨by simpa using h.taken, fun {v} hv => ?_⟩
  rw [Array.getElem?_setIfInBounds] at hv
  split_ifs at hv with hk
  · exact ho hk v (Option.some.inj hv)
  · exact h.guest hv

section Work

theorem onPlatform_selects (x : PlatformM α) :
    (onPlatform x).Upholds (Selects j index size) fun _ _ => True := by
  intro m h
  rw [onPlatform, ends_onPart]
  exact Ends.of_forall (fun _ _ => h.congr rfl) (fun _ _ => h.congr rfl) fun _ _ => trivial

theorem onMemory_selects (x : MemoryM VmError α) :
    (onMemory x).Upholds (Selects j index size) fun _ _ => True :=
  onPlatform_selects _

theorem onTable_selects (x : MemoryM EptError α) :
    (onTable x).Upholds (Selects j index size) fun _ _ => True :=
  onMemory_selects _

theorem onHost_selects (x : HostM α) :
    (onHost i x).Upholds (Selects j index size) fun _ _ => True :=
  fun _ h => onHost_ends (fun _ => h) fun _ _ =>
    Ends.of_forall (fun _ _ => h.congr rfl) (fun _ _ => h.congr rfl) fun _ _ => trivial

theorem onSession_selects {x : SessionM α} (hx : x.Upholds (Session.Selects index size) fun _ _ => True) :
    (onSession i k x).Upholds (Selects j index size) fun _ _ => True := by
  intro m h
  refine onSession_ends h fun c v _ hv => ?_
  have hback : ∀ {s : Session}, (k = j → s.Selects index size) →
      (m.withSession i k s).Selects j index size := by
    intro s hs
    refine Selects.congr (m := { m with vms := m.vms.setIfInBounds k (some ⟨s.guest, s.context⟩) })
      (h.set fun hk w hw => ?_) rfl
    obtain rfl := Option.some.inj hw
    exact hs hk
  by_cases hk : k = j
  · have hstart : Session.Selects index size ⟨m.host c, v.guest, v.context⟩ := h.guest (hk ▸ hv)
    exact Ends.mono (hx _ hstart) (fun _ _ hs => hback fun _ => hs) (fun _ _ hs => hback fun _ => hs)
      fun _ _ h => h
  · exact Ends.of_forall (fun _ _ => hback fun heq => absurd heq hk)
      (fun _ _ => hback fun heq => absurd heq hk) fun _ _ => trivial

theorem onSession_other_selects (hk : k ≠ j) (x : SessionM α) :
    (onSession i k x).Upholds (Selects j index size) fun _ _ => True := by
  intro m h
  have hback : ∀ {s : Session}, (m.withSession i k s).Selects j index size := fun {s} =>
    Selects.congr (m := { m with vms := m.vms.setIfInBounds k (some ⟨s.guest, s.context⟩) })
      (h.set fun heq => absurd heq hk) rfl
  exact onSession_ends h fun _ _ _ _ =>
    Ends.of_forall (fun _ _ => hback) (fun _ _ => hback) fun _ _ => trivial

theorem onContext_selects (f : Context → Context) :
    (onContext k f).Upholds (Selects j index size) fun _ _ => True := by
  intro m h
  refine vm_ends h fun v hv => h.set fun hk w hw => ?_
  obtain rfl := Option.some.inj hw
  exact h.guest (v := v) (hk ▸ hv)

theorem addVm_selects (g : Guest) : (addVm g).Upholds (Selects j index size) fun _ _ => True := by
  refine Upholds.modify fun m h => ⟨?_, fun hv => ?_⟩
  · simpa using Nat.lt_succ_of_lt h.taken
  · rw [Array.getElem?_push_lt h.taken] at hv
    exact h.guest ((Array.getElem?_eq_getElem h.taken).trans hv)

theorem takeVm_selects : (takeVm k).Upholds (Selects j index size) fun _ _ => True :=
  vm_upholds fun _ => Upholds.bind (Upholds.modify fun _ h => h.set fun _ _ hw => nomatch hw) fun _ =>
    Upholds.pure

/-- No command selects a register of the guest but a run of it. -/
theorem aside_selects {c : Command} (hc : c.Genuine j) (hrun : c.order = .run → c.vm ≠ j) :
    (perform c).Upholds (Selects j index size) fun _ _ => True := by
  obtain ⟨cpu, vm, table, order⟩ := c
  have hmemory : ∀ {α : Type} (x : MemoryM VmError α) (f : α → Answer),
      (do return f (← onMemory x)).Upholds (Selects j index size) fun _ _ => True := fun _ _ =>
    Upholds.bind (onMemory_selects _) fun _ => Upholds.pure
  have hhost : ∀ x : HostM Unit, (done (onHost cpu x)).Upholds (Selects j index size) fun _ _ => True :=
    fun _ => done_upholds (onHost_selects _)
  have hsession : ∀ {x : SessionM Unit}, (x.Upholds (Session.Selects index size) fun _ _ => True) →
      (done (onSession cpu vm x)).Upholds (Selects j index size) fun _ _ => True := fun hx =>
    done_upholds (onSession_selects hx)
  have hplatform : ∀ x : PlatformM Unit,
      (done (onPlatform x)).Upholds (Selects j index size) fun _ _ => True := fun _ =>
    done_upholds (onPlatform_selects _)
  -- Only sessions and changes to the list of guests can reach what the guest has selected.
  cases order with
  | alloc | allocRetained | peek => exact hmemory _ _
  | retain | release | limitAllocations | poke => exact done_upholds (onMemory_selects _)
  | refs | diskImage => exact Upholds.get_bind fun _ _ => Upholds.pure
  | newTable =>
      refine Upholds.bind (onTable_selects _) fun t => ?_
      exact Upholds.bind (Upholds.modify fun _ h => h.congr rfl) fun _ => Upholds.pure
  | tableWithRoot root => exact done_upholds (Upholds.modify fun _ h => h.congr rfl)
  | tableRoot | tablePointer => exact table_upholds fun _ => Upholds.pure
  | lookup | walk => exact table_upholds fun _ => Upholds.bind (onTable_selects _) fun _ => Upholds.pure
  | resolve gpa =>
      refine table_upholds fun t => Upholds.bind (onMemory_selects _) fun _ => ?_
      exact Upholds.get_bind fun _ _ => Upholds.pure
  | map source gpa perm overwrite =>
      refine done_upholds (table_upholds fun t => Upholds.bind (onMemory_selects _) fun v => ?_)
      exact onTable_selects _
  | insertPage page gpa perm => exact done_upholds (table_upholds fun _ => onTable_selects _)
  | teardown => exact done_upholds (table_upholds fun _ => onHost_selects _)
  | access => exact table_upholds fun _ => Upholds.bind (onPlatform_selects _) fun _ => Upholds.pure
  | populateAll physSize => exact done_upholds (table_upholds fun _ => onMemory_selects _)
  | build config =>
      refine Upholds.bind (onHost_selects _) fun g => ?_
      exact Upholds.bind (addVm_selects g) fun _ => Upholds.pure
  | free => exact done_upholds (Upholds.bind takeVm_selects fun _ => onHost_selects _)
  | mapFromHost source writable gpa perm =>
      refine done_upholds (guest_upholds fun g => Upholds.bind (onMemory_selects _) fun v => ?_)
      exact onMemory_selects _
  | setupMsrs => exact hsession Session.setupMsrs_selects
  | setupBitmaps | interceptPort => exact done_upholds (guest_upholds fun _ => onMemory_selects _)
  | isPortIntercepted | guestMsr | hostMsr => exact guest_upholds fun _ => hmemory _ _
  | setRegisters writes => exact done_upholds (onContext_selects _)
  | setMsr | setCpuid | setCpuidEcx | setControlRegisters | failInvept | inject | clearFaults | script
  | checkSupport | checkEpt | vmxOn | vmxOff | initHostState | initGuestState | writeFields =>
      exact hhost _
  | readMsr | cpuId | readField | exitReason =>
      exact Upholds.bind (onHost_selects _) fun _ => Upholds.pure
  | activate => exact hsession Session.activate_selects
  | load => exact hsession Session.load_selects
  | deactivate => exact hsession Session.deactivate_selects
  | configureControls => exact hsession Session.configureControls_selects
  | enter => exact Upholds.bind (onSession_selects Session.enter_selects) fun _ => Upholds.pure
  | run => exact Upholds.bind (onSession_other_selects (hrun rfl) _) fun _ => Upholds.pure
  | dump => exact done_upholds (guest_upholds fun _ => onHost_selects _)
  | handleExit fields regs handling => exact onSession_other_selects hc _
  | setGuests | setFileServer | setMessageStatus => exact hplatform _
  | listGuests | resumeGuest =>
      exact Upholds.bind (onPlatform_selects _) fun _ => Upholds.pure
  | stageDiskImage =>
      refine Upholds.bind (onPlatform_selects _) fun _ => ?_
      exact Upholds.get_bind fun _ _ => Upholds.pure

/-- A run of the guest selects what the guest does with its exit. -/
theorem run_selects (h : m.Selects j index size) (i : Nat) :
    (perform { cpu := i, vm := j, order := .run }).Ends m
      (fun _ m' => m'.Selects j (((m.exit? i j).bind Session.selected?).getD index) size)
      (fun _ m' => m'.Selects j (((m.exit? i j).bind Session.selected?).getD index) size)
      fun _ _ => True := by
  rw [perform, ends_bind]
  by_cases hpresent : ∃ c v, m.cpus[i]? = some c ∧ m.vms[j]? = some (some v)
  · obtain ⟨c, v, hc, hv⟩ := hpresent
    have hexit : m.exit? i j = Session.exit? ⟨m.host c, v.guest, v.context⟩ := by
      simp only [exit?, hc, hv]
    have hback : ∀ {s : Session},
        s.Selects (((m.exit? i j).bind Session.selected?).getD index) size →
          (m.withSession i j s).Selects j (((m.exit? i j).bind Session.selected?).getD index) size := by
      intro s hs
      refine ⟨?_, fun hw => ?_⟩
      · simpa [withSession] using h.taken
      · obtain ⟨-, rfl⟩ | ⟨hne, -⟩ := vms_withSession hw
        · exact hs
        · exact absurd rfl hne
    refine onSession_ends_of hc hv ?_
    rw [hexit] at hback ⊢
    exact Ends.mono (Session.run_selects (h.guest hv)) (fun _ _ hs => hback hs) (fun _ _ hs => hback hs)
      fun _ _ h => h
  · have hexit : m.exit? i j = none := by
      rw [exit?]
      split
      · exact absurd ⟨_, _, ‹_›, ‹_›⟩ hpresent
      · rfl
    rw [hexit]
    exact onSession_ends h fun c v hc hv => absurd ⟨c, v, hc, hv⟩ hpresent

/-- What the guest has selected is what its next exit finds. -/
theorem Selects.exit (h : m.Selects j index size) (hexit : m.exit? i j = some (reason, s)) :
    s.Selects index size := by
  rw [exit?] at hexit
  split at hexit
  · rename_i c v hc hv
    rw [Session.exit?] at hexit
    split at hexit
    · rename_i harrive
      cases hexit
      exact Session.arrive_selects ⟨m.host c, v.guest, v.context⟩ (h.guest hv) |>.ok harrive
    · cases hexit
  · cases hexit

/-- At its exit the guest is on the cpu. -/
theorem current_of_exit? (hexit : m.exit? i j = some (reason, s)) : s.Current := by
  rw [exit?] at hexit
  split at hexit
  · rename_i c v hc hv
    rw [Session.exit?] at hexit
    split at hexit
    · rename_i harrive
      cases hexit
      exact (Session.arrive_current ⟨m.host c, v.guest, v.context⟩).ok harrive
    · cases hexit
  · cases hexit

/-- A command selects the register that the exit in it does. -/
theorem perform_selects {c : Command} (h : m.Selects j index size) (hc : c.Genuine j) :
    (perform c).Ends m
      (fun _ m' => m'.Selects j (((m.exitIn? j c).bind Session.selected?).getD index) size)
      (fun _ m' => m'.Selects j (((m.exitIn? j c).bind Session.selected?).getD index) size)
      fun _ _ => True := by
  by_cases hrun : c.order = .run ∧ c.vm = j
  · obtain ⟨cpu, vm, table, order⟩ := c
    obtain ⟨rfl, rfl⟩ := hrun
    have hexit : m.exitIn? vm ⟨cpu, vm, table, .run⟩ = m.exit? cpu vm := if_pos rfl
    rw [hexit]
    exact run_selects h cpu
  · have hexit : m.exitIn? j c = none := by
      rw [exitIn?]
      split
      · exact if_neg fun heq => hrun ⟨‹_›, heq⟩
      · rfl
    rw [hexit]
    exact aside_selects hc (fun horder heq => hrun ⟨horder, heq⟩) m h

end Work

theorem build_selects (hj : m.vms.size = j) :
    (perform { cpu := i, order := .build config }).Ends m
      (fun _ m' => m'.Selects j 0 config.physSize) (fun _ _ => True) fun _ _ => True := by
  have hbuilt : (onHost i (Host.buildGuest config)).Ends m
      (fun g m' => m'.vms = m.vms ∧ g.rtcIndex = 0 ∧ g.physSize = config.physSize) (fun _ _ => True)
      fun _ _ => True :=
    onHost_ends (fun _ => trivial) fun c _ => Ends.mono (Host.buildGuest_returns config (m.host c))
      (fun _ _ hg => ⟨rfl, hg.selected, hg.physSize⟩) (fun _ _ h => h) fun _ _ h => h
  rw [perform, ends_bind]
  refine Ends.mono hbuilt (fun g m' hg => ?_) (fun _ _ h => h) fun _ _ h => h
  obtain ⟨hvms, hnew⟩ := hg
  rw [addVm, ends_bind, ends_modify]
  have hj' : j = m'.vms.size := by rw [hvms, hj]
  refine ⟨by simp [hj'], fun {v} hv => ?_⟩
  rw [Array.getElem?_push, if_pos hj'] at hv
  obtain rfl := Option.some.inj (Option.some.inj hv)
  exact hnew

theorem Exits.selects (h : Exits config j xs m) :
    m.Selects j (Session.lastSelected xs) config.physSize := by
  have hcons : ∀ (o : Option (ExitReason × Session)) (xs : List (ExitReason × Session)),
      Session.lastSelected (o.toList ++ xs) =
        (o.bind Session.selected?).getD (Session.lastSelected xs) := by
    intro o xs
    cases o with
    | none => rfl
    | some x =>
        rw [Option.toList_some, List.singleton_append, Session.lastSelected, List.findSome?_cons,
          Option.bind_some]
        cases Session.selected? x <;> rfl
  induction h with
  | built hindex hrun => exact (build_selects hindex).ok hrun
  | done _ hc hrun ih =>
      rw [hcons]
      exact (perform_selects ih hc).ok hrun
  | failed _ hc hrun ih =>
      rw [hcons]
      exact (perform_selects ih hc).error hrun

theorem exists_of_exitIn? {c : Command} {x : ExitReason × Session} (h : m.exitIn? j c = some x) :
    c.order = .run ∧ c.vm = j ∧ ∃ cpu v, m.cpus[c.cpu]? = some cpu ∧ m.vms[j]? = some (some v) ∧
      Session.exit? ⟨m.host cpu, v.guest, v.context⟩ = some x := by
  rw [exitIn?] at h
  split at h
  · rename_i horder
    split_ifs at h with hvm
    rw [exit?] at h
    split at h
    · rename_i cpu v hc hv
      exact ⟨horder, hvm, cpu, v, hc, hv, h⟩
    · cases h
  · cases h

/-- A command that ends with an answer or an error has handled the selection of a register in it. -/
theorem perform_handles {c : Command} {x : ExitReason × Session} (hexit : m.exitIn? j c = some x)
    (hselected : (Session.selected? x).isSome = true) (hfaults : x.2.host.cpu.processor.faults = []) :
    (perform c).Ends m (fun _ _ => Session.Handled x) (fun _ _ => Session.Handled x)
      fun _ _ => True := by
  obtain ⟨horder, hvm, cpu, v, hc, hv, hrun⟩ := exists_of_exitIn? hexit
  obtain ⟨i, k, table, order⟩ := c
  obtain rfl : order = .run := horder
  obtain rfl : k = j := hvm
  rw [perform, ends_bind]
  exact onSession_ends_of hc hv (Session.run_handles hrun hselected hfaults)

/-- While no instruction is made to fail, every selection of a register is handled. -/
theorem Exits.selections_handled (h : Exits config j xs m) {x : ExitReason × Session} (hx : x ∈ xs)
    (hselected : (Session.selected? x).isSome = true) (hfaults : x.2.host.cpu.processor.faults = []) :
    Session.Handled x := by
  induction h with
  | built => cases hx
  | done _ _ hrun ih =>
      rcases List.mem_append.1 hx with hlast | hbefore
      · exact (perform_handles (Option.mem_toList.1 hlast) hselected hfaults).ok hrun
      · exact ih hbefore
  | failed _ _ hrun ih =>
      rcases List.mem_append.1 hx with hlast | hbefore
      · exact (perform_handles (Option.mem_toList.1 hlast) hselected hfaults).error hrun
      · exact ih hbefore

/-- While no instruction is made to fail: at every exit the guest has selected what its last handled
access to the index port named, whatever other exits, cpus and guests came between, and its port accesses
are handled as by a clock chip with this register selected.  A read from the data port is handled if this
is one of the four registers of the memory size, and nothing but the low byte of RAX changes then besides
the instruction pointer; a write to the index port is handled, and any other access is rejected.  The
kernel stops instead for a guest that cannot be moved past its instruction. -/
theorem clock_chip_protocol (h : Exits config j xs m) {access : PortAccess}
    (hexit : m.exit? i j = some (.fromGuest (.ioInstruction access), s))
    (hfaults : ∀ x ∈ (.fromGuest (.ioInstruction access), s) :: xs,
      x.2.host.cpu.processor.faults = []) :
    s.ClockChip (Session.lastSelected (xs.filter Session.Handled)) config.physSize.toNat access := by
  have hhandled : ∀ x ∈ xs, (Session.selected? x).isSome = true → Session.Handled x :=
    fun x hx hselected => h.selections_handled hx hselected (hfaults x (List.mem_cons_of_mem _ hx))
  have hlast : Session.lastSelected (xs.filter Session.Handled) = Session.lastSelected xs :=
    Session.lastSelected_filter fun x hx hselected => decide_eq_true (hhandled x hx hselected)
  rw [hlast]
  exact Session.clockChip (current_of_exit? hexit) (hfaults _ List.mem_cons_self)
    (h.selects.exit hexit) access

def exitsAfter (m : Machine) (j : Nat) (xs : List (ExitReason × Session)) :
    List Command → Option (List (ExitReason × Session) × Machine)
  | [] => some (xs, m)
  | c :: rest =>
      match (perform c).run m with
      | .ok _ m' => m'.exitsAfter j ((m.exitIn? j c).toList ++ xs) rest
      | .error _ _ => none

theorem Exits.after {ys : List (ExitReason × Session)} {commands : List Command} (h : Exits config j xs m)
    (hgenuine : ∀ c ∈ commands, c.Genuine j) (hrun : m.exitsAfter j xs commands = some (ys, m')) :
    Exits config j ys m' := by
  induction commands generalizing m xs with
  | nil =>
      cases hrun
      exact h
  | cons c rest ih =>
      rw [exitsAfter] at hrun
      split at hrun
      · rename_i a m₁ hstep
        exact ih (h.done (hgenuine c List.mem_cons_self) hstep)
          (fun c' hc' => hgenuine c' (List.mem_cons_of_mem c hc')) hrun
      · cases hrun

theorem Exits.exists_after (config : GuestConfig) (commands : List Command)
    {P : List (ExitReason × Session) × Machine → Prop} [DecidablePred P]
    (hcalls : commands.all (fun c => !c.callsHandler) = true)
    (hrun : ((m.after [{ order := .build config }]).any fun m₁ =>
      (m₁.exitsAfter m.vms.size [] commands).any fun p => decide (P p)) = true) :
    ∃ xs m', Exits config m.vms.size xs m' ∧ P (xs, m') := by
  obtain ⟨m₁, hbuilt, hany⟩ := (Option.any_eq_true _ _).1 hrun
  obtain ⟨⟨xs, m'⟩, hafter, hP⟩ := (Option.any_eq_true _ _).1 hany
  obtain ⟨a, m₁, hstep, hrest⟩ := after_cons.1 hbuilt
  cases hrest
  have hgenuine : ∀ c ∈ commands, c.Genuine m.vms.size := fun c hc =>
    Command.genuine_of_not_callsHandler (by simpa using List.all_eq_true.1 hcalls c hc)
  exact ⟨xs, m', (Exits.built rfl hstep).after hgenuine hafter, of_decide_eq_true hP⟩

def accesses (qualification rax : UInt64) : Order :=
  .script {
    event := .exit 0x1e
    fields := [(.vmexitQualification, qualification), (.vmexitInstructionLength, 1)]
    regs := [(.rax, rax)] }

/-- The first guest selects a register, and a second one selects another one on the same cpu. The first
one moves to the other cpu, executes CPUID there, and is to read. -/
def selects : List Command :=
  [{ order := .build {} }, { order := accesses 0x700000 0xabcd17 }, { order := .run },
   { order := .deactivate }, { order := accesses 0x700000 0x18 }, { vm := 1, order := .run },
   { cpu := 1, order := .script { event := .cpuid 2 } }, { cpu := 1, order := .run },
   { cpu := 1, order := accesses 0x710008 0x1122334455667788 }]

theorem clock_chip_protocol_moved : ∃ xs m s t, Exits { physSize := 0x1234000 } 0 xs m ∧ xs.length = 2 ∧
    m.exit? 1 0 = some (.fromGuest (.ioInstruction (.ofQualification 0x710008)), s) ∧
    (∀ x ∈ (.fromGuest (.ioInstruction (.ofQualification 0x710008)), s) :: xs,
      x.2.host.cpu.processor.faults = []) ∧
    (Session.dispatch (.fromGuest (.ioInstruction (.ofQualification 0x710008)))).run s =
      .ok .continued t ∧ t.context.regs.rax = 0x11223344556677d0 := by
  obtain ⟨xs, m, hexits, hlength, hlast, hbefore, hstop⟩ := Exits.exists_after (m := dual)
    (P := fun p => p.1.length = 2 ∧ Session.lastSelected (p.1.filter Session.Handled) = 0x17 ∧
      (∀ x ∈ p.1, x.2.host.cpu.processor.faults = []) ∧
      ((p.2.exit? 1 0).any fun q => q.1 == .fromGuest (.ioInstruction (.ofQualification 0x710008)) &&
        decide (q.2.host.cpu.processor.faults = []) && !decide q.2.Overruns &&
        q.2.context.regs.rax == 0x1122334455667788) = true)
    { physSize := 0x1234000 } selects rfl (by decide +kernel)
  obtain ⟨⟨reason, s⟩, hexit, hstop⟩ := (Option.any_eq_true _ _).1 hstop
  simp only [Bool.and_eq_true, beq_iff_eq, Bool.not_eq_true', decide_eq_false_iff_not,
    decide_eq_true_eq] at hstop
  obtain ⟨⟨⟨rfl, hfaultless⟩, hmoves⟩, hrax⟩ := hstop
  have hfaults : ∀ x ∈ (.fromGuest (.ioInstruction (.ofQualification 0x710008)), s) :: xs,
      x.2.host.cpu.processor.faults = [] := List.forall_mem_cons.2 ⟨hfaultless, hbefore⟩
  have hchip := clock_chip_protocol hexits hexit hfaults
  rw [hlast] at hchip
  obtain ⟨t, hrun⟩ := (hchip.handled (by decide)).2 ⟨by decide, hmoves⟩
  obtain ⟨-, byte, hbyte, rax, c, hread, hc, rfl⟩ := hchip.reads (by decide) _ _ hrun
  refine ⟨xs, m, s, _, hexits, hlength, hexit, hfaults, hrun, UInt64.toNat_inj.1 ?_⟩
  rw [hrax] at hread
  cases hbyte
  rw [hc.regs]
  exact hread

def readsLast : List Command :=
  [{ order := accesses 0x700000 0x17 }, { order := .run },
   { order := .setRegisters [(.rip, 0xffffffffffffffff)] }, { order := accesses 0x710008 0 }]

/-- The guest has selected a register of its memory size then, and its read is not handled. -/
theorem clock_chip_overruns : ∃ xs m s, Exits {} 0 xs m ∧ (∀ x ∈ xs, Session.Handled x) ∧
    Session.lastSelected xs = 0x17 ∧
    m.exit? 0 0 = some (.fromGuest (.ioInstruction (.ofQualification 0x710008)), s) ∧
    (∀ x ∈ (.fromGuest (.ioInstruction (.ofQualification 0x710008)), s) :: xs,
      x.2.host.cpu.processor.faults = []) ∧
    ¬Session.Handled (.fromGuest (.ioInstruction (.ofQualification 0x710008)), s) := by
  obtain ⟨xs, m, hexits, hhandled, hlast, hbefore, hstop⟩ := Exits.exists_after (m := uniprocessor)
    (P := fun p => (∀ x ∈ p.1, Session.Handled x) ∧ Session.lastSelected p.1 = 0x17 ∧
      (∀ x ∈ p.1, x.2.host.cpu.processor.faults = []) ∧
      ((p.2.exit? 0 0).any fun q => q.1 == .fromGuest (.ioInstruction (.ofQualification 0x710008)) &&
        decide (q.2.host.cpu.processor.faults = []) && !decide (Session.Handled q)) = true)
    {} readsLast rfl (by decide +kernel)
  obtain ⟨⟨reason, s⟩, hexit, hstop⟩ := (Option.any_eq_true _ _).1 hstop
  simp only [Bool.and_eq_true, beq_iff_eq, Bool.not_eq_true', decide_eq_false_iff_not,
    decide_eq_true_eq] at hstop
  obtain ⟨⟨rfl, hfaultless⟩, hunhandled⟩ := hstop
  exact ⟨xs, m, s, hexits, hhandled, hlast, hexit, List.forall_mem_cons.2 ⟨hfaultless, hbefore⟩,
    hunhandled⟩

end Machine

end Hypervisor
