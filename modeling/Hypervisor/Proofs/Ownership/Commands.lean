import Hypervisor.Proofs.Ownership.Machine

/-!
# Commands and ownership

Callers may ask for anything as long as they release only references that they hold and share only
pages that have no role.  Every such command leads from a kept machine to a kept machine, and the
answer tells what callers have then.
-/

namespace Hypervisor

def Answer.page? : Answer → Option Hpa
  | .page p => p
  | _ => none

/-- What callers have when an order was answered. -/
def Callers.after (k : Callers) (a : Answer) : Order → Callers
  | .alloc => a.page?.elim k k.take
  | .allocRetained => a.page?.elim k k.hold
  | .retain page => k.hold page
  | .release page => k.drop page
  | _ => k

def HostPlace.Leads (source : HostPlace) (v : Hva) : Prop :=
  match source with
  | .inPage page offset => (⟨page.val + Memory.directMap⟩ : Hva).add? offset = some v
  | .at w => w = v

namespace Machine

/-- The page is neither a table nor in another role. -/
def Unowned (m : Machine) (p : Hpa) : Prop := m.memory.Unowned (m.estate {}) p

/-- What is at the address, if anything, is for callers to share. -/
def Lends (m : Machine) (v : Hva) : Prop := ∀ p, m.memory.physical? v = some p → m.Unowned p.pageDown

/-- What is at the place is for callers to share. -/
def Shares (m : Machine) : HostPlace → Prop
  | .inPage page offset => page.pageDown ∈ m.memory.pages ∧
      ∀ v, (⟨page.val + Memory.directMap⟩ : Hva).add? offset = some v → m.Lends v
  | .at v => m.Lends v

end Machine

/-- Callers use what is theirs.  A table with a root of the caller's choice is not made. -/
def Command.Lawful (c : Command) (m : Machine) (k : Callers) : Prop :=
  match c.order with
  | .retain page => page ∈ m.memory.pages
  | .release page => 0 < k.held page
  | .peek page _ _ => page.pageDown ∈ m.memory.pages
  | .poke page _ _ => page.pageDown ∈ m.memory.pages ∧ m.Unowned page.pageDown
  | .tableWithRoot _ => False
  | .lookup _ _ edits => edits = []
  | .map source _ _ _ => m.Shares source
  | .insertPage page _ _ => page.pageDown ∈ m.memory.pages ∧ m.Unowned page.pageDown
  | .mapFromHost source _ _ _ => m.Shares source
  | .free => c.cpu < m.cpus.size
  | _ => True

def Order.unconditional : Order → Bool
  | .retain _ | .release _ | .peek .. | .poke .. | .tableWithRoot _ | .lookup .. | .map ..
  | .insertPage .. | .mapFromHost .. | .free => false
  | _ => true

theorem Command.lawful_of_unconditional {c : Command} {m : Machine} {k : Callers}
    (h : c.order.unconditional = true) : c.Lawful m k := by
  obtain ⟨cpu, vm, table, order⟩ := c
  cases order with
  | retain | release | peek | poke | tableWithRoot | lookup | map | insertPage | mapFromHost | free =>
      cases h
  | _ => exact trivial

theorem Command.forall_lawful {commands : List Command}
    (h : (commands.all fun c => c.order.unconditional) = true) : ∀ c ∈ commands, ∀ m k, c.Lawful m k :=
  fun c hc _ _ => lawful_of_unconditional (List.all_eq_true.1 h c hc)

/-- The order shares no page, and no guest is so large that page numbers would repeat. -/
def Order.Isolates : Order → Prop
  | .retain _ | .map .. | .insertPage .. | .mapFromHost .. => False
  | .access physSize _ | .populateAll physSize => physSize.toNat ≤ 2 ^ 48
  | .build config => config.physSize.toNat ≤ 2 ^ 48
  | _ => True

def Order.Quiet : Order → Prop
  | .refs _ | .peek .. | .tableRoot | .tablePointer | .walk _ | .resolve _ | .isPortIntercepted _
  | .setMsr .. | .readMsr _ | .setCpuid .. | .setCpuidEcx .. | .setControlRegisters .. | .failInvept
  | .inject _ | .clearFaults | .script _ | .cpuId | .checkSupport | .checkEpt | .initHostState
  | .initGuestState | .writeFields _ | .readField _ | .exitReason | .dump | .setGuests _
  | .setFileServer _ | .setMessageStatus _ | .listGuests | .resumeGuest _ | .stageDiskImage
  | .diskImage => True
  | _ => False

namespace Ept

open Hypervisor.Action Memory

theorem new_returns : Ept.new.Returns fun t => ∃ r, t.root = some r :=
  Returns.bind fun _ => Returns.bind fun p => Returns.pure ⟨p, rfl⟩

theorem new_owned {m : Memory} {e : Estate} {I : Prop} {F : Panic → Prop} :
    Ept.new.Safe F m (m.Owned e I)
      (fun t m' => ∀ r, t.root = some r → m'.Owned (e.plant r) I) (fun _ m' => m'.Owned e I) := by
  rw [Ept.new]
  refine allocRetained_bind (fun m' hpages hnext => ?_) fun m' p hm => ?_
  · exact Safe.fail fun _ h => h.of_pages_eq hpages hnext
  · refine Safe.pure ?_
    rintro - ⟨a, h⟩ r hr
    cases hr
    have hgive := h.give hm
    refine ⟨_, hgive.plant ?_⟩
    rw [hm.words, if_pos (hgive.other_pageDown (Multiset.mem_cons_self p e.others))]

end Ept

namespace Guest

open Hypervisor.Action Memory

variable {g : Guest} {r : Hpa} {m : Memory} {e : Estate} {I : Prop} {F : Panic → Prop}

theorem Lodged.mapFromHost_owned (hg : g.Lodged r e I) (hI : ¬I) {source : Hva}
    (hsource : ∀ p, m.physical? source = some p → m.Unowned e p.pageDown) (writable : Bool)
    (gpa : Gpa) (perm : Permission) :
    (g.mapFromHost source writable gpa perm).Safe F m (m.Owned e I) (fun _ m' => m'.Owned e I)
      (fun _ m' => m'.Owned e I) := by
  refine Safe.require_bind (fun _ => ?_) fun _ _ h => h
  exact Safe.mapError (Ept.map_owned hg.root hg.mem hI source perm false hsource)

namespace Visited

variable {K : Memory → Prop} {ε : Type}

theorem isPortIntercepted (hg : g.Visited r K) (port : UInt16) :
    (g.isPortIntercepted port : MemoryM ε Bool).Safe F m (K m) (fun _ => K) fun _ => K :=
  pageWords_bind (fun h => hg.live h (hg.bitmapPage_own h port)) (Safe.pure fun _ h => h)

theorem exchangeMsr (hg : g.Visited r K)
    (hmsrs : ∀ {m p} f, K m → p.pageDown = g.msrPage → K (m.edited p f)) {area : Hpa} {count : Nat}
    {msr : MsrIndex} {value : Option UInt64} (harea : ∀ {m}, K m → area.pageDown = g.msrPage) :
    (Memory.exchangeMsr area count msr value : MemoryM ε _).Safe F m (K m) (fun _ => K)
      fun _ => K := by
  have hlive : ∀ {m}, K m → area.pageDown ∈ m.pages := fun h => by
    rw [harea h]
    exact hg.live h msrPage_mem_ownPages
  rw [Memory.exchangeMsr, Guest.findMsr, bind_assoc]
  refine pageWords_bind hlive ?_
  rw [pure_bind]
  split
  · exact Safe.pure fun _ h => h
  · refine pageWords_bind hlive ?_
    cases value with
    | none => exact Safe.pure fun _ h => h
    | some w => exact updatePage_bind (Safe.pure fun _ h => hmsrs _ h (harea h))

end Visited

end Guest

namespace Host

open Hypervisor.Action

variable {e : Estate} {I : Prop} {F : Panic → Prop} {r : Option Hpa}

theorem dump_bears (hF : F .addOverflow) {t : Ept} {root : Hpa} (hroot : t.root = some root)
    (hmem : root ∈ e.roots) {disassemble : Disassembler} :
    (dump disassemble t.resolve).Upholds (Bears r e I) fun p h => h.memory.Fits → F p := by
  apply (bears_detached hF).toCalm.dump
  intro gpa h hh
  exact Ends.mono (onMemory_bears (Ept.resolve_owned hroot hmem) hh)
    (fun _ _ h' => ⟨h'.1, fun hf => (h'.2 hf).imp fun _ hs => hs.1⟩)
    (fun _ _ h' => ⟨h'.1, fun hf => (h'.2 hf).elim⟩) fun _ _ hp => hp

end Host

namespace Session

open Hypervisor.Action

variable {g : Guest} {I : Session → Prop} {F : Panic → Session → Prop}
  {E : VmError → Session → Prop}

theorem Alert.handle (hI : Alert g I F E) (reason : ExitReason) (handling : Handling) :
    (Session.handle reason handling).Upholds I F E := by
  cases handling with
  | dispatch => exact Upholds.bind (hI.dispatch reason) fun _ => Upholds.pure
  | externalInterrupt info =>
      exact Upholds.bind (hI.handleExternalInterrupt info) fun _ => Upholds.pure
  | interruptWindow => exact Upholds.bind hI.handleInterruptWindow fun _ => Upholds.pure
  | rdmsr => exact Upholds.bind (hI.handleRdmsr reason) fun _ => Upholds.pure
  | wrmsr => exact Upholds.bind (hI.handleWrmsr reason) fun _ => Upholds.pure
  | portAccess access =>
      exact Upholds.bind (hI.handlePortAccess reason access) fun _ => Upholds.pure
  | cpuid => exact Upholds.bind hI.handleCpuid fun _ => Upholds.pure
  | hypercall => exact Upholds.bind (hI.handleHypercall reason) fun _ => Upholds.pure
  | forwardRip => exact Upholds.bind hI.forwardRip fun _ => Upholds.pure

theorem Programmable.handleExit (hI : Programmable g I F E) (fields : List (Field × UInt64))
    (regs : List (Register × UInt64)) (handling : Handling) :
    (do
      onHost (Host.vmwriteAll fields)
      onContext fun context => context.setAll regs
      handle (← onHost (ExitReason.decode Host.vmread)) handling).Upholds I F E := by
  refine Upholds.bind (onHost_upholds fun s _ => hI.vmwriteAll s fields) fun _ => ?_
  refine Upholds.bind (hI.onContext _) fun _ => ?_
  refine Upholds.bind (onHost_upholds fun s _ => (hI.host s).decode) fun reason => ?_
  exact hI.toAlert.handle reason handling

end Session

namespace Platform

open Hypervisor.Action

variable {F : Panic → Prop} {p : Platform}

theorem backAccess_safe {K : Memory → Prop} {t : Ept} {physSize : UInt64} {gpa : Gpa}
    (hx : (t.onAccess physSize gpa).Safe F p.memory (K p.memory) (fun _ => K) fun _ => K) :
    (backAccess t physSize gpa).Safe F p (K p.memory) (fun _ p' => K p'.memory)
      (fun _ p' => K p'.memory) := by
  have haccess : (onMemory (t.onAccess physSize gpa)).Safe F p (K p.memory)
      (fun _ p' => K p'.memory) (fun _ p' => K p'.memory) :=
    Safe.onPart Platform.memory (fun _ => rfl) (fun _ _ => rfl) hx
  refine Safe.bind haccess fun fault p' => ?_
  cases fault with
  | handled => exact Safe.pure fun _ h => h.2
  | unhandled => exact Safe.modify_bind rfl (Safe.pure fun _ h => h.2)

theorem say_quiet (level : LogLevel) (text : String) : (say level text).Quiet F :=
  Quiet.modify fun _ => rfl

theorem onKernel_quiet (f : Kernel → Kernel) : (onKernel f).Quiet F := Quiet.modify fun _ => rfl

theorem listGuests_quiet : listGuests.Quiet F := by
  apply Quiet.bind Quiet.get
  intro _
  apply Quiet.bind (say_quiet _ _)
  intro _
  exact Quiet.bind (Quiet.forM (fun _ => say_quiet _ _) _) fun _ => Quiet.pure

theorem resumeGuest_quiet (n : Nat) : (resumeGuest n).Quiet F := by
  apply Quiet.bind Quiet.get
  intro _
  split
  · apply Quiet.bind (onKernel_quiet _)
    exact fun _ => Quiet.bind (say_quiet _ _) fun _ => Quiet.pure
  · exact Quiet.bind (say_quiet _ _) fun _ => Quiet.pure

end Platform

namespace Machine

open Hypervisor.Action Memory

variable {m : Machine} {k : Callers} {I : Prop} {i j : Nat} {α : Type}

theorem addressOf_ends {source : HostPlace} {f : Hva → MachineM α} {Q : α → Machine → Prop}
    {E : VmError → Machine → Prop} {F : Panic → Machine → Prop} (hsource : m.Shares source)
    (hf : ∀ v, source.Leads v → m.Lends v → (f v).Ends m Q E F) (hover : F .addOverflow m) :
    (onMemory (addressOf source) >>= f).Ends m Q E F := by
  rw [ends_bind, Machine.onMemory, Machine.onPlatform, Platform.onMemory, ends_onPart, ends_onPart]
  cases source with
  | «at» v => exact hf v rfl hsource
  | inPage page offset =>
      rw [addressOf, ends_bind]
      refine virtual_ends (fun _ => ?_) fun _ hfree => absurd hsource.1 hfree
      split
      · exact hf _ ‹_› (hsource.2 _ ‹_›)
      · exact hover

theorem addressOf_keeps {source : HostPlace} {f : Hva → MachineM α}
    (hsource : m.Shares source) (hf : ∀ v, m.Lends v → Keeps k I m (f v)) :
    Keeps k I m (onMemory (addressOf source) >>= f) :=
  addressOf_ends hsource (fun v _ => hf v) fun _ => rfl

theorem alloc_changes (h : m.Orderly k I) :
    (onMemory alloc).Ends m (fun p m' => m'.Orderly (p.elim k k.take) I) (fun _ m' => m'.Orderly k I)
      Overflows := by
  refine onMemory_changes (K := fun p => p.elim k k.take) h (Safe.last (alloc_bind ?_ ?_))
  · exact fun m' hpages hnext => Safe.pure fun _ ho => ho.of_pages_eq hpages hnext
  · exact fun m' p hm => Safe.pure fun _ ⟨a, ho⟩ => ho.take hm

theorem allocRetained_changes (h : m.Orderly k I) :
    (onMemory allocRetained).Ends m (fun p m' => m'.Orderly (p.elim k k.hold) I)
      (fun _ m' => m'.Orderly k I) Overflows := by
  refine onMemory_changes (K := fun p => p.elim k k.hold) h (Safe.last (allocRetained_bind ?_ ?_))
  · exact fun m' hpages hnext => Safe.pure fun _ ho => ho.of_pages_eq hpages hnext
  · exact fun m' p hm => Safe.pure fun _ ⟨a, ho⟩ => ⟨_, ho.hold_new hm⟩

theorem retain_changes (h : m.Orderly k I) (hI : ¬I) {p : Hpa} (hp : p ∈ m.memory.pages) :
    (onMemory (retain p)).Ends m (fun _ m' => m'.Orderly (k.hold p) I) (fun _ m' => m'.Orderly k I)
      Overflows := by
  apply onMemory_changes (K := fun _ => k.hold p) h
  refine Safe.last (retain_bind (fun _ => hp) (Safe.pure ?_))
  exact fun _ ⟨_, ho⟩ => ⟨_, ho.retained hI hp⟩

theorem release_changes (h : m.Orderly k I) {p : Hpa} (hp : 0 < k.held p) :
    (onMemory (release p)).Ends m (fun _ m' => m'.Orderly (k.drop p) I) (fun _ m' => m'.Orderly k I)
      Overflows := by
  apply onMemory_changes (K := fun _ => k.drop p) h
  refine Safe.last (release_bind ?_ (Safe.pure fun _ ⟨_, ho⟩ => ⟨_, ho.released hp⟩))
  rintro ⟨a, ho⟩
  have hle := ho.balanced.held_le_refs p
  have hheld : a.held p = k.held p + (m.estate k).roles.count p := ho.held p
  omega

theorem newTable_keeps (h : m.Orderly k I) {f : Ept → MachineM α}
    (hf : ∀ t {m'}, m'.Orderly k I → Keeps k I m' (f t)) :
    Keeps k I m (do
      let t ← onTable Ept.new
      addTable t
      f t) := by
  have hreturns : (onTable Ept.new).Returns fun t => ∃ r, t.root = some r :=
    (Ept.new_returns.mapError _).onPart.onPart
  have hpush : (onTable Ept.new).Ends m
      (fun t m' => ∀ r, t.root = some r → Orderly k I { m' with tables := m'.tables.push t })
      (fun _ m' => m'.Orderly k I) Overflows :=
    onMemory_ends h (Safe.mapError Ept.new_owned) fun t p hp r hr =>
      h.push_table hr fun hfits => hp hfits r hr
  rw [Keeps, ends_bind]
  refine Ends.mono (hpush.and (hreturns m)) (fun t m' ht => ?_) (fun _ _ he => he.1)
    fun _ _ hp => hp.1
  obtain ⟨hkept, r, hr⟩ := ht
  rw [addTable, ends_bind, ends_modify]
  exact hf t (hkept r hr)

/-- A new guest joins with its pages, if it is built. -/
theorem build_keeps (h : m.Orderly k I) (config : GuestConfig)
    (hsize : I → config.physSize.toNat ≤ 2 ^ 48) {f : Guest → MachineM α}
    (hf : ∀ g {m'}, m'.Orderly k I → Keeps k I m' (f g)) :
    Keeps k I m (do
      let g ← onHost i (Host.buildGuest config)
      addVm g
      f g) := by
  have hreturns : (onHost i (Host.buildGuest config)).Ends m
      (fun g _ => Host.New config g ∧ config.physSize.toNat % 4096 = 0) (fun _ _ => True)
        fun _ _ => True :=
    onHost_ends (fun _ => trivial) fun c _ => Ends.mono
      ((Host.buildGuest_returns config (m.host c)).and (Host.buildGuest_whole config (m.host c)))
        (fun _ _ h => h) (fun _ _ h => h.1) fun _ _ h => h.1
  have hpush : (onHost i (Host.buildGuest config)).Ends m
      (fun g m' => Host.New config g ∧ config.physSize.toNat % 4096 = 0 → ∀ context,
        Orderly k I { m' with vms := m'.vms.push (some ⟨g, context⟩) })
      (fun _ m' => m'.Orderly k I) Overflows := by
    refine onHost_ends_of_safe (k := k) (Q := fun g memory => memory.Owned ((m.estate k).lodge g) I)
      (E := fun _ memory => memory.Owned (m.estate k) I) h.owned (fun _ => h)
      (fun r => (Host.region_enduring r).buildGuest config) (fun c => Host.buildGuest_safe config hsize)
      (fun g h' hestate hg => ?_) fun _ h' hestate he => ?_
    · rintro ⟨⟨⟨r, hr⟩, hphys, -⟩, hwhole⟩ context
      refine h.push_vm (r := r) rfl rfl hr ?_ ?_ fun hfits => ?_
      · show I → g.physSize.toNat ≤ 2 ^ 48
        rwa [hphys]
      · show g.physSize.toNat % 4096 = 0
        rwa [hphys]
      · rw [hestate]
        exact hg hfits
    · refine h.of_owned rfl rfl fun hfits => ?_
      rw [hestate]
      exact he hfits
  rw [Keeps, ends_bind]
  refine Ends.mono (hpush.and hreturns) (fun g m' hg => ?_) (fun _ _ he => he.1) fun _ _ hp => hp.1
  rw [addVm, ends_bind, ends_modify]
  exact hf g (hg.1 hg.2 _)

theorem freeGuest_keeps {g : Guest} {r : Hpa} (hr : g.table.root = some r) (hcpu : i < m.cpus.size)
    (howned : m.memory.Fits → m.memory.Owned ((m.estate k).lodge g) I)
    (hback : ∀ m' : Machine, m'.tables = m.tables → m'.vms = m.vms →
      (m'.memory.Fits → m'.memory.Owned (m'.estate k) I) → m'.Orderly k I) :
    Keeps k I m (onHost i (Host.freeGuest g)) := by
  have hleft : ∀ h, (m.withHost i h).estate k = m.estate k →
      (h.memory.Fits → h.memory.Owned (m.estate k) I) → (m.withHost i h).Orderly k I := by
    intro h hestate hh
    refine hback _ rfl rfl fun hfits => ?_
    rw [hestate]
    exact hh hfits
  refine onHost_ends_of_safe (Q := fun _ memory => memory.Owned (m.estate k) I)
    (E := fun _ memory => memory.Owned (m.estate k) I) howned (fun hmissing => ?_)
    (fun r => (Host.region_enduring r).freeGuest g) (fun c => Host.freeGuest_safe hr) (fun _ => hleft)
    fun _ => hleft
  exact absurd hcpu (Nat.not_lt.2 (Array.getElem?_eq_none_iff.1 hmissing))

theorem free_keeps (h : m.Orderly k I) (hcpu : i < m.cpus.size) :
    Keeps k I m (do onHost i (Host.freeGuest (← takeVm j).guest)) := by
  rw [takeVm, bind_assoc]
  refine vm_keeps h fun v hv => ?_
  obtain ⟨r, hr⟩ := h.vms hv
  rw [Keeps, bind_assoc, ends_bind, ends_modify, pure_bind]
  refine freeGuest_keeps hr hcpu ?_ fun m' => h.take_vm
  rw [← estate_take_vm hv]
  exact h.owned

theorem onContext_keeps (h : m.Orderly k I) (f : Context → Context) :
    Keeps k I m (onContext j f) := by
  rw [onContext]
  exact vm_keeps h fun v hv => h.setContext hv _

structure Rests (m m' : Machine) : Prop where
  memory : m'.memory = m.memory
  vms : m'.vms = m.vms

section Rest

variable {m₀ : Machine}

theorem onPlatform_rests {x : PlatformM α} (hx : x.Quiet fun _ => True) :
    (onPlatform x).Upholds m₀.Rests fun _ _ => True := by
  intro m h
  rw [onPlatform, ends_onPart]
  exact Ends.mono (hx m.toPlatform) (fun _ _ hp => ⟨hp.trans h.memory, h.vms⟩)
    (fun _ _ hp => ⟨hp.trans h.memory, h.vms⟩) fun _ _ _ => trivial

theorem onMemory_rests {x : MemoryM VmError α} (hx : x.Quiet fun _ => True) :
    (onMemory x).Upholds m₀.Rests fun _ _ => True :=
  onPlatform_rests (hx.onPart (fun _ => rfl) fun _ _ => rfl)

theorem onHost_rests {x : HostM α} (hx : x.Quiet fun _ => True) :
    (onHost i x).Upholds m₀.Rests fun _ _ => True :=
  fun m h => onHost_ends (fun _ => h) fun c _ => Ends.mono (hx (m.host c))
    (fun _ _ hp => ⟨hp.trans h.memory, h.vms⟩) (fun _ _ hp => ⟨hp.trans h.memory, h.vms⟩)
    fun _ _ _ => trivial

/-- However a quiet command ends, memory and guests are as they were. -/
theorem perform_quiet {c : Command} (hc : c.order.Quiet) :
    (perform c).Upholds m₀.Rests fun _ _ => True := by
  obtain ⟨cpu, vm, table, order⟩ := c
  have hprocessor : ∀ f : Processor → Processor,
      (done (onHost cpu (Host.onProcessor f))).Upholds m₀.Rests fun _ _ => True := fun f =>
    done_upholds (onHost_rests (Host.onProcessor_quiet f))
  have hdevice : ∀ {x : HostM Unit}, (∀ {H F}, Host.Detached H F → x.Upholds H F) →
      (done (onHost cpu x)).Upholds m₀.Rests fun _ _ => True := fun hx =>
    done_upholds (onHost_rests (Host.quiet_of_detached hx))
  have hanswer : ∀ {α : Type} {x : HostM α} {f : α → Answer}, x.Quiet (fun _ => True) →
      (do return f (← onHost cpu x)).Upholds m₀.Rests fun _ _ => True := fun hx =>
    Upholds.bind (onHost_rests hx) fun _ => Upholds.pure
  cases order with
  | refs | diskImage => exact Upholds.get_bind fun _ _ => Upholds.pure
  | peek page offset count =>
      exact Upholds.bind (onMemory_rests (pageWords_quiet page)) fun _ => Upholds.pure
  | tableRoot | tablePointer => exact table_upholds fun _ => Upholds.pure
  | walk gpa =>
      refine table_upholds fun t => Upholds.bind ?_ fun _ => Upholds.pure
      exact onMemory_rests ((Ept.walk_quiet t gpa).mapError _)
  | resolve gpa =>
      refine table_upholds fun t => Upholds.bind (onMemory_rests (Ept.resolve_quiet t gpa)) fun _ => ?_
      exact Upholds.get_bind fun _ _ => Upholds.pure
  | isPortIntercepted port =>
      refine guest_upholds fun g => Upholds.bind (onMemory_rests ?_) fun _ => Upholds.pure
      exact Quiet.bind (pageWords_quiet _) fun _ => Quiet.pure
  | setMsr | setCpuid | setCpuidEcx | setControlRegisters | failInvept | inject | clearFaults | script =>
      exact hprocessor _
  | readMsr msr => exact hanswer Host.processor_quiet
  | cpuId => exact hanswer (Quiet.bind Quiet.get fun _ => Quiet.pure)
  | checkSupport => exact hdevice fun hH => hH.checkSupport
  | checkEpt => exact hdevice fun hH => hH.checkEpt
  | initHostState => exact hdevice fun hH => hH.initHostState
  | initGuestState => exact hdevice fun hH => hH.initGuestState
  | writeFields writes => exact hdevice fun hH => hH.vmwriteAll writes
  | readField field => exact hanswer (Host.quiet_of_detached fun hH => hH.vmread field)
  | exitReason => exact hanswer (Host.quiet_of_detached fun hH => hH.decode)
  | dump => exact done_upholds (guest_upholds fun g => onHost_rests (Quiet.bind Quiet.get fun _ => Host.dump_quiet _ _))
  | setGuests | setFileServer | setMessageStatus =>
      exact done_upholds (onPlatform_rests (Platform.onKernel_quiet _))
  | listGuests => exact Upholds.bind (onPlatform_rests Platform.listGuests_quiet) fun _ => Upholds.pure
  | resumeGuest n =>
      exact Upholds.bind (onPlatform_rests (Platform.resumeGuest_quiet n)) fun _ => Upholds.pure
  | stageDiskImage =>
      refine Upholds.bind (onPlatform_rests (Platform.onKernel_quiet _)) fun _ => ?_
      exact Upholds.get_bind fun _ _ => Upholds.pure
  | _ => exact hc.elim

end Rest

/-- Every lawful command leaves the machine kept, with what callers have then; it panics only over
a sum of addresses. -/
theorem perform_keeps {c : Command} (h : m.Orderly k I) (hc : c.Lawful m k) (hI : I → c.order.Isolates) :
    (perform c).Ends m (fun a m' => m'.Orderly (k.after a c.order) I) (fun _ m' => m'.Orderly k I)
      Overflows := by
  obtain ⟨cpu, vm, index, order⟩ := c
  cases order with
  | alloc => exact (ends_bind _ _).2 (alloc_changes h)
  | allocRetained => exact (ends_bind _ _).2 (allocRetained_changes h)
  | retain page => exact (ends_bind _ _).2 (retain_changes h hI hc)
  | release page => exact (ends_bind _ _).2 (release_changes h hc)
  | refs pages => exact h
  | limitAllocations n =>
      have hsame : ∀ m' : Memory, m'.Owned (m.estate k) I →
          { m' with budget := some n }.Owned (m.estate k) I := fun _ ho => ho.of_pages_eq rfl rfl
      exact Keeps.answer (onMemory_keeps h (Safe.last (Safe.modify_bind rfl
        (Safe.pure fun _ ho => hsame _ ho))))
  | peek page offset count =>
      exact Keeps.answer (onMemory_keeps h (Safe.last (pageWords_bind (fun _ => hc)
        (Safe.pure fun _ ho => ho))))
  | poke page offset bytes =>
      refine Keeps.answer (onMemory_keeps h (pageWords_bind (fun _ => hc.1) (Safe.last
        (updatePage_bind (Safe.pure ?_)))))
      rintro - ⟨a, ho⟩
      exact ⟨a, ho.edited (ho.level_of_unowned hc.2)⟩
  | newTable => exact newTable_keeps h fun _ _ h => h
  | tableWithRoot root => exact hc.elim
  | tableRoot => exact table_keeps h fun _ _ _ _ => h
  | tablePointer => exact table_keeps h fun _ _ _ _ => h
  | lookup gpa create edits =>
      obtain rfl : edits = [] := hc
      exact table_keeps h fun t r hr hmem =>
        Keeps.answer (onTable_keeps h (Ept.edit_owned hr hmem create))
  | walk gpa =>
      exact table_keeps h fun t r hr hmem => Keeps.answer (onTable_keeps h (Ept.walk_owned hr hmem))
  | resolve gpa =>
      refine table_keeps h fun t r hr hmem => Keeps.bind (onMemory_keeps h ?_) fun _ _ h' => h'
      exact (Ept.resolve_owned hr hmem).mono (fun _ ho => ho)
        (fun _ _ _ _ _ ⟨a, ho, _⟩ => ⟨a, ho⟩) fun _ _ _ _ _ ho => ho.elim
  | map source gpa perm overwrite =>
      refine Keeps.answer (table_keeps h fun t r hr hmem => addressOf_keeps hc fun v hv => ?_)
      exact onTable_keeps h (Ept.map_owned hr hmem hI v perm overwrite hv)
  | insertPage page gpa perm =>
      refine Keeps.answer (table_keeps h fun t r hr hmem => onTable_keeps h ?_)
      exact Ept.insertPage_owned hr hmem hI page perm hc.1 hc.2
  | teardown =>
      refine Keeps.answer (table_keeps h fun t r hr hmem => onHost_keeps h fun _ => ?_)
      exact Host.teardown_bears hr hmem
  | access physSize gpa =>
      refine table_keeps h fun t r hr hmem => Keeps.answer (onPlatform_keeps h ?_)
      exact Platform.backAccess_safe (K := (·.Owned (m.estate k) I))
        (Ept.onAccess_owned hr hmem physSize hI)
  | populateAll physSize =>
      refine Keeps.answer (table_keeps h fun t r hr hmem => onMemory_keeps h ?_)
      exact Ept.populateAll_owned hr hmem physSize hI
  | build config => exact build_keeps h config hI fun _ _ h => h
  | free => exact Keeps.answer (free_keeps h hc)
  | mapFromHost source writable gpa perm =>
      refine Keeps.answer (guest_keeps h fun g r hg => addressOf_keeps hc fun v hv => ?_)
      exact onMemory_keeps h (hg.mapFromHost_owned hI hv writable gpa perm)
  | setupMsrs => exact Keeps.answer (session_keeps h fun hJ => hJ.programmable.setupMsrs)
  | setupBitmaps =>
      refine Keeps.answer (guest_keeps h fun g r hg => onMemory_keeps h ?_)
      exact hg.housed.interceptEmulatedPorts
  | interceptPort port =>
      refine Keeps.answer (guest_keeps h fun g r hg => onMemory_keeps h ?_)
      exact hg.housed.interceptPort port
  | isPortIntercepted port =>
      refine guest_keeps h fun g r hg => Keeps.answer (onMemory_keeps h ?_)
      exact hg.housed.isPortIntercepted port
  | guestMsr msr value =>
      refine guest_keeps h fun g r hg => Keeps.answer (onMemory_keeps h ?_)
      exact hg.housed.exchangeMsr hg.housed.msrs hg.housed.guestMsrArea_pageDown
  | hostMsr msr value =>
      refine guest_keeps h fun g r hg => Keeps.answer (onMemory_keeps h ?_)
      exact hg.housed.exchangeMsr hg.housed.msrs hg.housed.hostMsrArea_pageDown
  | setRegisters writes => exact Keeps.answer (onContext_keeps h _)
  | setMsr msr value => exact Keeps.answer (onProcessor_keeps h _)
  | readMsr msr => exact Keeps.answer (detached_keeps h fun _ => Host.Calm.processor)
  | setCpuid leaf subleaf result => exact Keeps.answer (onProcessor_keeps h _)
  | setCpuidEcx leaf ecx => exact Keeps.answer (onProcessor_keeps h _)
  | setControlRegisters cr0 cr4 => exact Keeps.answer (onProcessor_keeps h _)
  | failInvept => exact Keeps.answer (onProcessor_keeps h _)
  | inject fault => exact Keeps.answer (onProcessor_keeps h _)
  | clearFaults => exact Keeps.answer (onProcessor_keeps h _)
  | script exit => exact Keeps.answer (onProcessor_keeps h _)
  | cpuId =>
      exact Keeps.answer (detached_keeps h fun _ => Upholds.get_bind fun _ _ => Upholds.pure)
  | checkSupport => exact Keeps.answer (detached_keeps h fun hH => hH.checkSupport)
  | checkEpt => exact Keeps.answer (detached_keeps h fun hH => hH.checkEpt)
  | vmxOn => exact Keeps.answer (root_keeps h fun _ => Host.vmxOn_holds rfl)
  | vmxOff => exact Keeps.answer (root_keeps h fun _ => Host.vmxOff_holds rfl)
  | activate => exact Keeps.answer (session_keeps h fun hJ => hJ.activate)
  | load => exact Keeps.answer (session_keeps h fun hJ => hJ.load)
  | deactivate => exact Keeps.answer (session_keeps h fun hJ => hJ.deactivate)
  | initHostState => exact Keeps.answer (detached_keeps h fun hH => hH.initHostState)
  | initGuestState => exact Keeps.answer (detached_keeps h fun hH => hH.initGuestState)
  | configureControls => exact Keeps.answer (session_keeps h fun hJ => hJ.programmable.configureControls)
  | writeFields writes => exact Keeps.answer (detached_keeps h fun hH => hH.vmwriteAll writes)
  | readField field => exact Keeps.answer (detached_keeps h fun hH => hH.vmread field)
  | exitReason => exact Keeps.answer (detached_keeps h fun hH => hH.decode)
  | enter => exact Keeps.answer (session_keeps h fun hJ => hJ.enter)
  | run => exact Keeps.answer (onSession_keeps h fun hg _ => Session.run_bears hg.housed)
  | dump =>
      refine Keeps.answer (guest_keeps h fun g r hg => onHost_keeps h fun _ => ?_)
      exact Upholds.get_bind fun _ _ =>
        Host.dump_bears (F := (· = .addOverflow)) rfl hg.root hg.mem
  | handleExit fields regs handling =>
      exact session_keeps h fun hJ => hJ.programmable.handleExit fields regs handling
  | setGuests ids => exact Keeps.answer (quiet_keeps h (Platform.onKernel_quiet _))
  | setFileServer id => exact Keeps.answer (quiet_keeps h (Platform.onKernel_quiet _))
  | setMessageStatus status => exact Keeps.answer (quiet_keeps h (Platform.onKernel_quiet _))
  | listGuests => exact Keeps.answer (quiet_keeps h Platform.listGuests_quiet)
  | resumeGuest n => exact Keeps.answer (quiet_keeps h (Platform.resumeGuest_quiet n))
  | stageDiskImage =>
      exact Keeps.bind (quiet_keeps h (Platform.onKernel_quiet _)) fun _ _ h => h
  | diskImage => exact h

end Machine

end Hypervisor
