import Hypervisor.Proofs.Run

/-!
# Invariants of processors and control blocks

An invariant may say nothing of memory, of the log, of what the kernel was asked to serve, and of what
the guest has in its registers and devices.  What a handler does besides writing to the current control
block is then of no concern to it.
-/

namespace Hypervisor.Session

open Hypervisor.Action

/-- The invariant says nothing of memory, of the log, of the requests to the kernel, of injected faults,
and of the registers and devices of the guest. -/
structure Aloof (g : Guest) (I : Session → Prop) (F : Panic → Session → Prop)
    (E : VmError → Session → Prop := fun _ => I) : Prop where
  same : ∀ {s}, I s → g.Same s.guest
  memory : ∀ {s : Session} m, I s → I { s with host := { s.host with memory := m } }
  log : ∀ {s : Session} l, I s → I { s with host := { s.host with log := l } }
  kernel : ∀ {s : Session} requests, I s →
    I { s with host := { s.host with kernel := { s.host.kernel with requests := requests } } }
  spent : ∀ {s : Session} p f, I s → I { s with host := s.host.spent p f }
  context : ∀ {s : Session} c, I s → I { s with context := c }
  devices : ∀ {s : Session} i w, I s →
    I { s with guest := { s.guest with rtcIndex := i, hostVector := w } }
  panic : ∀ p {s}, I s → F p s
  back : ∀ {e s}, E e s → I s := by exact fun h => h
  refused : ∀ {e s}, e.Rejects ∨ e.OfMemory → I s → E e s := by exact fun _ h => h
  struck : ∀ {s}, I s → ∀ x ∈ s.host.cpu.processor.faults, ∀ {s'}, I s' → E x.error s' := by
    exact fun _ _ _ _ h => h

namespace Aloof

variable {g : Guest} {I : Session → Prop} {F : Panic → Session → Prop}
  {E : VmError → Session → Prop} {α : Type}

theorem plain (hI : Aloof g I F E) : Aloof g I F where
  same := hI.same
  memory := hI.memory
  log := hI.log
  kernel := hI.kernel
  spent := hI.spent
  context := hI.context
  devices := hI.devices
  panic := hI.panic

theorem onMemory (hI : Aloof g I F E) (x : MemoryM VmError α) : (onMemory x).Upholds I F :=
  onMemory_upholds (fun _ m h => hI.memory m h) fun p _ h => hI.panic p h

theorem host (hI : Aloof g I F E) (s : Session) : Host.Calm (fun h => I { s with host := h })
    (fun p h => F p { s with host := h }) fun e h => E e { s with host := h } where
  overflow := fun _ _ h => hI.panic _ h
  log := fun l h => hI.log l h
  kernel := fun requests h => hI.kernel requests h
  spent := fun p f h => hI.spent p f h
  refused := fun he h => hI.refused (.inl he) h
  struck := fun h x hx _ h' => hI.struck h x hx h'

theorem calm (hI : Aloof g I F E) : Calm g.table I F E where
  table := fun h => (hI.same h).table
  host := hI.host
  resolve := fun _ => hI.onMemory _
  back := hI.back

/-- The invariant survives the handling of every exit if it survives what is written to the current
control block then. -/
theorem alert (hI : Aloof g I F E)
    (mode : ∀ {s : Session} {p} w, s.host.cpu.processor.current = some p → I s →
      I (s.withBlock p fun b => b.write .vmentryControls w))
    (inject : ∀ {s : Session} {p} w, s.host.cpu.processor.current = some p → I s →
      I (s.withBlock p fun b => b.write .vmentryInterruptionInfo w))
    (window : ∀ {s : Session} {p} on, s.host.cpu.processor.current = some p → I s →
      I (s.withBlock p fun b => b.write .processorBasedVmexecControls
        (ProcBased.withWindow on (b.read .processorBasedVmexecControls)))) : Alert g I F E where
  same := hI.same
  host := hI.host
  skip := fun _ _ h => hI.panic _ h
  mode := mode
  context := hI.context
  rtc := fun {s} i h => hI.devices i s.guest.hostVector h
  resolve := fun _ => hI.onMemory _
  fault := fun _ => (onMemory_raises (Ept.onAccess_raises _ _ _)).upholds (hI.onMemory _)
    fun _ _ h he => hI.refused (.inr he) h
  readMsrs := hI.onMemory _
  writeMsrs := fun _ => hI.onMemory _
  memoryMap := giveMemoryMap_raises.upholds (giveMemoryMap_upholds (fun _ _ => hI.onMemory _)
    (fun _ _ _ => hI.onMemory _) (fun _ _ => hI.onMemory _) hI.context)
    fun _ _ h he => hI.refused (.inr he) h
  vector := fun {s} w h => hI.devices s.guest.rtcIndex w h
  inject := inject
  window := window

theorem programmable (hI : Aloof g I F E)
    (hwrite : ∀ {s : Session} {p f}, s.host.cpu.processor.current = some p →
      (∀ b, (f b).launched = b.launched) → I s → I (s.withBlock p f))
    (counts : ∀ {s : Session} msrs runs cpu, I s →
      I { s with guest := { s.guest with msrCount := msrs, runs := runs, lastCpu := cpu } }) :
    Programmable g I F E where
  toAlert := hI.alert (fun _ hp h => hwrite hp (fun _ => rfl) h)
    (fun _ hp h => hwrite hp (fun _ => rfl) h) fun _ hp h => hwrite hp (fun _ => rfl) h
  write := fun _ _ hp h => hwrite hp (fun _ => rfl) h
  counts := counts
  bitmaps := hI.onMemory _
  msrs := fun _ => hI.onMemory _

theorem launch (hI : Aloof g I F E) (hentry : ∀ {e s}, I s → E (.entry e) s)
    (hplay : ∀ {s : Session} script launches resumes, I s →
      I { s with host := s.host.withProcessor { s.host.cpu.processor with
        script := script, launches := launches, resumes := resumes } })
    (hreport : ∀ {s : Session} {p} e, s.host.cpu.processor.current = some p → I s →
      I (s.withBlock p fun b => b.reported e))
    (hlaunched : ∀ {s : Session}, I s → I { s with guest := { s.guest with launched := true } }) :
    launch.Upholds I F E := by
  refine launch_upholds (fun launched s hs => ?_) hI.context hlaunched
  have hspent := hI.spent .enter none hs
  have hplayed : ∀ {e c} launches resumes, (s.host.cpu.processor.spent .enter none).Plays e c →
      I { s with
        host := s.host.withProcessor { c with launches := launches, resumes := resumes } } := by
    intro e c launches resumes hc
    rw [hc.eq]
    exact hplay c.script launches resumes hspent
  rw [onHost, ends_onPart]
  refine Host.vmenter_ends (fun p e c hp _ hc => ?_) (fun _ => hentry hspent)
    (fun _ _ _ => hentry hspent) (fun p e c _ hc => hentry (hplayed c.launches c.resumes hc))
    fun x hx => hI.struck hs x hx hspent
  obtain ⟨launches, resumes, hcounted⟩ := c.exists_counted launched
  rw [hcounted]
  have hcurrent : c.current = some p := by
    rw [hc.eq]
    exact hp
  exact hreport e hcurrent (hplayed launches resumes hc)

end Aloof

end Hypervisor.Session
