import Hypervisor.Proofs.Aloof
import Hypervisor.Proofs.Interrupts

/-!
# The way to an exit

A guest that has run before is put on the cpu, entered, and stops.  On this way neither its memory nor
its registers change, nor does any control of its control block, as long as no guest writes to its own
controls.
-/

namespace Hypervisor

theorem ScriptedEvent.report_not_controlling (e : ScriptedEvent) :
    ∀ w ∈ e.report, w.1 ∉ Field.controlling := by
  cases e <;> simp [report, Field.controlling]

theorem Cpu.hostState_not_controlling (c : Cpu) : ∀ w ∈ c.hostState, w.1 ∉ Field.controlling := by
  simp [hostState, Field.controlling]

/-- The exit writes none of the fields. -/
def ScriptedExit.Leaves (fs : List Field) (e : ScriptedExit) : Prop := ∀ w ∈ e.fields, w.1 ∉ fs

instance (fs : List Field) (e : ScriptedExit) : Decidable (e.Leaves fs) :=
  inferInstanceAs (Decidable (∀ w ∈ e.fields, w.1 ∉ fs))

namespace Session

open Hypervisor.Action

/-- What a run does from the entry of the guest up to the handler of its exit. -/
def untilExit : SessionM ExitReason := do
  let reason ← enter
  onHost (Host.sayOnCpu .trace ("VMEXIT: " ++ reason.text))
  return reason

/-- What a run does up to the handler of the exit. -/
def arrive : SessionM ExitReason := do
  prepareRun
  untilExit

theorem runOnce_eq_arrive : runOnce = arrive >>= dispatch := by
  simp only [runOnce, arrive, untilExit, bind_assoc, pure_bind]

theorem enter_eq : enter = loadContext >>= fun _ => launch >>= fun _ => saveContext >>= fun _ =>
    onHost (ExitReason.decode Host.vmread) := by
  simp only [enter, launch, bind_assoc]

/-- What holds once the guest is put on the cpu holds at its exit. -/
theorem Programmable.arrive_ends {g : Guest} {J : Session → Prop} {F : Panic → Session → Prop}
    {E P : VmError → Session → Prop} {s : Session} (h : Programmable g J F E)
    (hactivate : activate.Ends s (fun _ t => J t) P F) (hload : load.Ends s (fun _ t => J t) P F)
    (hlaunch : launch.Upholds J F E) :
    arrive.Ends s (fun _ t => J t) (fun e t => P e t ∨ E e t) F := by
  have henter : enter.Upholds J F E := by
    rw [enter_eq]
    refine Upholds.bind h.loadContext fun _ => Upholds.bind hlaunch fun _ => ?_
    exact Upholds.bind h.saveContext fun _ => onHost_upholds fun t _ => (h.host t).decode
  have hexit : untilExit.Upholds J F E :=
    Upholds.bind henter fun _ => Upholds.bind (h.sayOnCpu _ _) fun _ => Upholds.pure
  rw [arrive, ends_bind]
  refine Ends.mono (h.prepareRun_ends hactivate hload) (fun _ t ht => ?_) (fun _ _ he => he)
    fun _ _ hp => hp
  exact Ends.mono (hexit t ht) (fun _ _ h => h) (fun _ _ he => .inr he) fun _ _ hp => hp

/-- Once it is on the cpu, a guest stays there up to its exit, in its first run as in later ones. -/
theorem arrive_current (s : Session) :
    arrive.Ends s (fun _ t => t.Current) (fun _ _ => True) fun _ _ => True := by
  have haloof : Aloof s.guest (fun t => s.guest.Same t.guest ∧ t.Current) fun _ _ => True :=
    { same := fun h => h.1
      memory := fun _ h => h
      log := fun _ h => h
      kernel := fun _ h => h
      spent := fun _ _ h => h
      context := fun _ h => h
      devices := fun _ _ h => ⟨h.1.trans ⟨rfl, rfl, rfl, rfl, rfl, rfl⟩, h.2⟩
      panic := fun _ _ _ => trivial }
  have hprogrammable := haloof.programmable (fun _ _ h => h) fun _ _ _ h =>
    ⟨h.1.trans ⟨rfl, rfl, rfl, rfl, rfl, rfl⟩, h.2⟩
  have hlaunch := haloof.launch (fun h => h) (fun _ _ _ h => h) (fun _ _ h => h) fun h =>
    ⟨h.1.trans ⟨rfl, rfl, rfl, rfl, rfl, rfl⟩, h.2⟩
  refine Ends.mono (hprogrammable.arrive_ends (P := fun _ _ => True) ?_ ?_ hlaunch)
    (fun _ _ h => h.2) (fun _ _ _ => trivial) fun _ _ h => h
  · exact activate_ends (fun _ => ⟨⟨rfl, rfl, rfl, rfl, rfl, rfl⟩, rfl⟩) (fun _ _ _ => trivial)
      (fun _ _ => trivial) fun _ _ => trivial
  · exact load_ends (fun _ => ⟨.refl _, rfl⟩) (fun _ _ _ => trivial) fun _ _ => trivial

/-- The guest is on the cpu, its memory and its registers are the same, and so are some fields of its
block.  Nothing was added to the script, and no run was forgotten. -/
structure Arrives (fs : List Field) (s₀ s : Session) : Prop extends Keeps fs s₀ s where
  memory : s.host.memory = s₀.host.memory
  count : s.guest.msrCount = s₀.guest.msrCount
  runs : s₀.guest.runs ≤ s.guest.runs

variable {s₀ s t : Session} {fs : List Field}

namespace Arrives

theorem refl (h : s.Current) : Arrives fs s s := ⟨.refl h, rfl, rfl, Nat.le_refl _⟩

theorem withHost {h : Host} (hs : Arrives fs s₀ s) (hmemory : h.memory = s.host.memory)
    (hblocks : h.blocks = s.host.blocks)
    (hcurrent : h.cpu.processor.current = s.host.cpu.processor.current)
    (hscript : h.cpu.processor.script = s.host.cpu.processor.script) :
    Arrives fs s₀ { s with host := h } where
  same := hs.same
  vector := hs.vector
  current := hcurrent.trans hs.current
  script := by
    dsimp only
    rw [hscript]
    exact hs.script
  fields := fun f hf => by
    dsimp only
    rw [hblocks]
    exact hs.fields f hf
  memory := hmemory.trans hs.memory
  count := hs.count
  runs := hs.runs

theorem withBlock {p : Hpa} {f : ControlBlock → ControlBlock} (h : Arrives fs s₀ s)
    (hp : s.host.cpu.processor.current = some p)
    (hread : ∀ b, ∀ g ∈ fs, (f b).read g = b.read g) : Arrives fs s₀ (s.withBlock p f) :=
  ⟨h.toKeeps.withBlock hp hread, h.memory, h.count, h.runs⟩

theorem withGuest {g : Guest} (h : Arrives fs s₀ s) (hsame : s.guest.Same g)
    (hvector : g.hostVector = s.guest.hostVector) (hcount : g.msrCount = s.guest.msrCount)
    (hruns : s.guest.runs ≤ g.runs) : Arrives fs s₀ { s with guest := g } :=
  ⟨⟨h.same.trans hsame, hvector.trans h.vector, h.current, h.script, h.fields⟩, h.memory,
    hcount.trans h.count, h.runs.trans hruns⟩

theorem withContext (h : Arrives fs s₀ s) (c : Context) : Arrives fs s₀ { s with context := c } :=
  ⟨⟨h.same, h.vector, h.current, h.script, h.fields⟩, h.memory, h.count, h.runs⟩

theorem host (s : Session) : Host.Calm (fun h => Arrives fs s₀ { s with host := h })
    fun _ _ => True where
  overflow := fun _ _ _ => trivial
  log := fun _ h => h.withHost rfl rfl rfl rfl
  kernel := fun _ h => h.withHost rfl rfl rfl rfl
  spent := fun _ _ h => h.withHost rfl rfl rfl rfl

theorem vmwriteAll {writes : List (Field × UInt64)} (hw : ∀ w ∈ writes, w.1 ∉ fs) (s : Session) :
    (Host.vmwriteAll writes).Upholds (fun h => Arrives fs s₀ { s with host := h }) fun _ _ => True :=
  (Arrives.host s).vmwriteAll fun w hmem {h} _ hp hh =>
    hh.withBlock (s := { s with host := h }) hp fun b _ hg =>
      ControlBlock.read_write_of_ne b w.2 fun heq => hw w hmem (heq ▸ hg)

theorem vmwrite {f : Field} (w : UInt64) (hf : f ∉ fs) :
    (onHost (Host.vmwrite f w)).Upholds (Arrives fs s₀) fun _ _ => True :=
  onHost_upholds fun s _ => (Arrives.host s).vmwrite fun {h} _ hp hh =>
    hh.withBlock (s := { s with host := h }) hp fun b _ hg =>
      ControlBlock.read_write_of_ne b w fun heq => hf (heq ▸ hg)

theorem sayOnCpu (level : LogLevel) (text : String) :
    (onHost (Host.sayOnCpu level text)).Upholds (Arrives fs s₀) fun _ _ => True :=
  onHost_upholds fun s _ => (Arrives.host s).sayOnCpu _ _

theorem saveContext : Session.saveContext.Upholds (Arrives fs s₀) fun _ _ => True := by
  have hread : ∀ f, (onHost (Host.vmread f)).Upholds (Arrives fs s₀) fun _ _ => True := fun f =>
    onHost_upholds fun s _ => (Arrives.host s).vmread f
  refine Upholds.bind (hread _) fun _ => Upholds.bind (fun _ h => h.withContext _) fun _ => ?_
  exact Upholds.bind (hread _) fun _ => fun _ h => h.withContext _

end Arrives

theorem load_arrives (fs : List Field) (s : Session) :
    load.Ends s (fun _ t => Arrives fs s t) (fun _ _ => True) fun _ _ => True := by
  refine load_ends (fun _ => ?_) (fun _ _ _ => trivial) fun _ _ => trivial
  exact ⟨⟨.refl _, rfl, rfl, List.Subset.refl _, fun _ _ => rfl⟩, rfl, rfl, Nat.le_refl _⟩

section Exit

variable (hfs : fs ⊆ Field.controlling)

include hfs

theorem loadContext_arrives : loadContext.Upholds (Arrives fs s₀) fun _ _ => True := by
  have hnot : ∀ {f : Field}, f ∉ Field.controlling → f ∉ fs := fun h hf => h (hfs hf)
  refine Upholds.get_bind fun t _ => ?_
  refine Upholds.bind (Arrives.vmwrite _ (hnot (by decide))) fun _ => ?_
  exact Arrives.vmwrite _ (hnot (by decide))

variable (hscript : ∀ e ∈ s₀.host.cpu.processor.script, e.Leaves fs)

include hscript

/-- Where the guest is entered, its controls stay if the exit writes none. -/
theorem launch_arrives : launch.Upholds (Arrives fs s₀) fun _ _ => True := by
  refine launch_upholds (fun launched s h => ?_) (fun _ h => h.withContext _)
    fun h => h.withGuest ⟨rfl, rfl, rfl, rfl, rfl, rfl⟩ rfl rfl (Nat.le_refl _)
  rw [onHost, ends_onPart]
  have hplayed : ∀ {e c}, (s.host.cpu.processor.spent .enter none).Plays e c →
      e.Leaves fs ∧ c.script ⊆ s₀.host.cpu.processor.script := by
    rintro e c (⟨hnone, rfl, rfl⟩ | ⟨rest, hnext, rfl⟩)
    · exact ⟨fun w hw => absurd hw List.not_mem_nil, h.script⟩
    · have hsub : e :: rest ⊆ s₀.host.cpu.processor.script := hnext ▸ h.script
      exact ⟨hscript e (hsub List.mem_cons_self), fun x hx => hsub (List.mem_cons_of_mem e hx)⟩
  have hspent : Arrives fs s₀ { s with host := s.host.spent .enter none } :=
    h.withHost rfl rfl rfl rfl
  have hturn : ∀ {e c} launches resumes, (s.host.cpu.processor.spent .enter none).Plays e c →
      Arrives fs s₀ { s with
        host := s.host.withProcessor { c with launches := launches, resumes := resumes } } := by
    intro e c launches resumes hc
    refine ⟨⟨h.same, h.vector, ?_, (hplayed hc).2, h.fields⟩, h.memory, h.count, h.runs⟩
    rw [hc.eq]
    exact h.current
  refine Host.vmenter_ends (fun p e c hp _ hc => ?_) (fun _ => hspent) (fun _ _ _ => hspent)
    (fun _ _ c _ hc => hturn c.launches c.resumes hc) fun _ _ => hspent
  obtain ⟨launches, resumes, hcounted⟩ := c.exists_counted launched
  have hcurrent : c.current = some p := by
    rw [hc.eq]
    exact hp
  rw [hcounted]
  refine (hturn launches resumes hc).withBlock hcurrent fun b f hf => ?_
  have hleft : ∀ {writes : List (Field × UInt64)},
      (∀ w ∈ writes, w.1 ≠ f) → f ∉ writes.map Prod.fst := by
    intro writes hw hmem
    obtain ⟨w, hwrite, rfl⟩ := List.mem_map.1 hmem
    exact hw w hwrite rfl
  have hreport : f ∉ e.event.report.map Prod.fst := hleft fun w hw he =>
    e.event.report_not_controlling w hw (he ▸ hfs hf)
  have hwritten : f ∉ e.fields.map Prod.fst := hleft fun w hw he => (hplayed hc).1 w hw (he ▸ hf)
  rw [ControlBlock.reported, ControlBlock.read_writeAll_of_notMem _ hwritten,
    ControlBlock.read_writeAll_of_notMem _ hreport]
  rfl

theorem untilExit_arrives : untilExit.Upholds (Arrives fs s₀) fun _ _ => True := by
  have henter : enter.Upholds (Arrives fs s₀) fun _ _ => True := by
    rw [enter_eq]
    refine Upholds.bind (loadContext_arrives hfs) fun _ => ?_
    refine Upholds.bind (launch_arrives hfs hscript) fun _ => Upholds.bind Arrives.saveContext fun _ => ?_
    exact onHost_upholds fun t _ => (Arrives.host t).decode
  exact Upholds.bind henter fun _ => Upholds.bind (Arrives.sayOnCpu _ _) fun _ => Upholds.pure

end Exit

theorem prepareNextRun_arrives (hfs : fs ⊆ Field.controlling) (s : Session) :
    prepareNextRun.Ends s (fun _ t => Arrives fs s t) (fun _ _ => True) fun _ _ => True := by
  have hhost : (do
      let s ← get
      if s.guest.lastCpu = some s.host.cpu.id then
        pure ()
      else
        onHost (Host.sayOnCpu .debug
          ("guest migrated from " ++ Text.option toString s.guest.lastCpu))
        onHost Host.initHostState : SessionM Unit).Upholds (Arrives fs s) fun _ _ => True := by
    refine Upholds.get_bind fun t _ => Upholds.ite (fun _ => Upholds.pure) fun _ => ?_
    refine Upholds.bind (Arrives.sayOnCpu _ _) fun _ => onHost_upholds fun t _ => ?_
    refine Upholds.get_bind fun h _ => Arrives.vmwriteAll (fun w hw hf => ?_) t
    exact h.cpu.hostState_not_controlling w hw (hfs hf)
  rw [prepareNextRun, ends_bind]
  refine Ends.mono (load_arrives fs s) (fun _ t ht => ?_) (fun _ _ h => h) fun _ _ h => h
  exact Ends.mono (hhost t ht) (fun _ _ h => h) (fun _ _ _ => trivial) fun _ _ h => h

/-- The way from one exit of the guest to the next. -/
theorem arrive_arrives (hfs : fs ⊆ Field.controlling) (hruns : s.guest.runs ≠ 0)
    (hscript : ∀ e ∈ s.host.cpu.processor.script, e.Leaves fs) :
    arrive.Ends s (fun _ t => Arrives fs s t) (fun _ _ => True) fun _ _ => True := by
  rw [arrive, ends_bind, prepareRun, ends_bind, ends_get, if_neg hruns, ends_bind]
  refine Ends.mono (prepareNextRun_arrives hfs s) (fun _ t ht => ?_) (fun _ _ h => h) fun _ _ h => h
  have hcounted : Arrives fs s t.ready :=
    ht.withGuest ⟨rfl, rfl, rfl, rfl, rfl, rfl⟩ rfl rfl (Nat.le_succ _)
  have hrest := Ends.mono (untilExit_arrives hfs hscript _ hcounted) (fun _ _ h => h)
    (fun _ _ _ => trivial) fun _ _ h => h
  exact hrest

end Session

end Hypervisor
