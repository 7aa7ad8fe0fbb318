import Hypervisor.Proofs.Ownership.Retained
import Hypervisor.Proofs.Still

/-!
# Runs and intercepted ports

The first run of a guest intercepts the emulated ports, once its control block is current.  Nothing else
that a run does writes to the bitmaps of the guest: besides them the hypervisor writes to tables, to the
page of the registers and to memory of the guest, and much of a run does not write to memory at all.
-/

namespace Hypervisor

def emulatedPorts : List UInt16 := [rtcPort, rtcPort + 1]

namespace Guest

open Hypervisor.Action Memory

variable {g : Guest} {root : Hpa} {e e' : Estate} {m : Memory} {ports : List UInt16} {F : Panic → Prop}
  {ε : Type}

section

variable (hg : g.Lodged root e False) (he : e = e'.lodge g)

include hg he

theorem Lodged.interceptPort (port : UInt16) : (g.interceptPort port : MemoryM ε Unit).Safe F m
    (m.Owned e False ∧ g.Intercepts m ports)
    (fun _ m' => m'.Owned e False ∧ g.Intercepts m' (port :: ports)) fun _ _ => False := by
  have hbitmaps : ∀ {m : Memory}, m.Owned e False → g.HasBitmaps m := by
    rintro m ⟨a, hm⟩
    rw [he] at hm
    exact hasBitmaps_of_sound hm
  refine pageWords_bind (fun h => (hbitmaps h.1).bitmapPage_live port) (Safe.last (updatePage_bind
    (Safe.pure fun _ h => ⟨?_, (hbitmaps h.1).intercepts_cons h.2⟩)))
  obtain ⟨a, hm⟩ := h.1
  refine ⟨a, hm.edited ?_⟩
  rw [(hbitmaps h.1).bitmapPage_pageDown]
  exact hm.other (hg.own _ (bitmapPage_mem_ownPages port))

theorem Lodged.interceptEmulatedPorts : (g.interceptEmulatedPorts : MemoryM ε Unit).Safe F m
    (m.Owned e False ∧ g.Intercepts m ports)
    (fun _ m' => m'.Owned e False ∧ g.Intercepts m' (emulatedPorts ++ ports)) fun _ _ => False := by
  have hswap : ∀ {m' : Memory}, g.Intercepts m' ((rtcPort + 1) :: rtcPort :: ports) →
      g.Intercepts m' (emulatedPorts ++ ports) := fun h port =>
    (h port).trans (List.Perm.swap _ _ _).mem_iff
  refine Safe.bind (hg.interceptPort he rtcPort) fun _ m₁ => ?_
  refine Safe.bind (R := fun _ m' => m'.Owned e False ∧
    g.Intercepts m' ((rtcPort + 1) :: rtcPort :: ports))
      ((hg.interceptPort he (rtcPort + 1)).assume fun _ h => h.2) fun _ m₂ => ?_
  exact Safe.pure fun _ h => ⟨h.2.1, hswap h.2.2⟩

end

theorem Intercepts.of_same {g' : Guest} (h : g.Intercepts m ports) (hsame : g.Same g') :
    g'.Intercepts m ports := by
  intro port
  rw [← h port, ioBit, ioBit, hsame.ioBitmapA, hsame.ioBitmapB]

end Guest

namespace Session

open Hypervisor.Action Memory

/-- The ports that a run intercepts: the emulated ones, if it is the first run and gets as far. -/
def intercepted (s : Session) : List UInt16 :=
  if s.guest.runs = 0 then
    match prelude.run s with
    | .ok _ _ => emulatedPorts
    | .error _ _ => []
  else []

theorem intercepted_subset (s : Session) : s.intercepted ⊆ emulatedPorts := by
  rw [intercepted]
  split
  · split
    · exact List.Subset.refl _
    · exact List.nil_subset _
  · exact List.nil_subset _

/-- The guest was run `n` times, memory is sound, and just the ports in a list stop the guest; these are
the emulated ones among others if it has run. -/
structure Recorded (g : Guest) (e : Estate) (n : Nat) (ports : List UInt16) (s : Session) : Prop where
  counted : Counted g n s
  ran : n ≠ 0 → emulatedPorts ⊆ ports
  owned : s.host.memory.Fits → s.host.memory.Owned e False
  exact : s.host.memory.Fits → g.Intercepts s.host.memory ports

variable {g : Guest} {root : Hpa} {e e' : Estate} {n : Nat} {ports : List UInt16} {s t : Session}
  {α β : Type}

theorem Recorded.mono (h : Recorded g e n ports s) (ht : Counted g n t)
    (hmemory : t.host.memory = s.host.memory) : Recorded g e n ports t := by
  refine ⟨ht, h.ran, ?_, ?_⟩
  · rw [hmemory]
    exact h.owned
  · rw [hmemory]
    exact h.exact

theorem Recorded.ready (h : Recorded g e n ports s) (hports : emulatedPorts ⊆ ports) :
    Recorded g e (n + 1) ports s.ready :=
  ⟨⟨h.counted.1.trans ⟨rfl, rfl, rfl, rfl, rfl, rfl⟩, congrArg (· + 1) h.counted.2⟩,
    fun _ => hports, h.owned, h.exact⟩

theorem recorded_of_still {x : SessionM α} (hx : x.Still) :
    x.Upholds (Recorded g e n ports) fun _ _ => True := by
  intro s hs
  exact Ends.mono ((hx.quiet s).and (hx.counted g n s hs.counted)) (fun _ _ ht => hs.mono ht.2 ht.1)
    (fun _ _ ht => hs.mono ht.2 ht.1) fun _ _ _ => trivial

theorem prelude_intercepts (hruns : s.guest.runs = 0) :
    prelude.Ends s (fun _ _ => s.intercepted = emulatedPorts) (fun _ _ => s.intercepted = [])
      fun _ _ => True := by
  cases hrun : prelude.run s with
  | ok _ t => exact (ends_ok hrun).2 (by simp only [intercepted, hruns, if_pos, hrun])
  | error stop t =>
      cases stop with
      | error err => exact (ends_error hrun).2 (by simp only [intercepted, hruns, if_pos, hrun])
      | panic p => exact (ends_stop hrun).2 trivial

section Bitmaps

variable (hg : g.Lodged root e False) (he : e = e'.lodge g)

theorem recorded_of_bears {x : SessionM α} {F : Panic → Session → Prop}
    (hx : ∀ {m₀ : Memory} {r}, x.Upholds (Bears g r (m₀.Preserves {p | p ∈ g.bitmaps} e)) F)
    (hcounted : x.Upholds (Counted g n) fun _ _ => True) :
    x.Upholds (Recorded g e n ports) fun _ _ => True := by
  intro s hs
  have hback : ∀ {t r}, Bears g r (s.host.memory.Preserves {p | p ∈ g.bitmaps} e) t → Counted g n t →
      Recorded g e n ports t := fun ht hc =>
    ⟨hc, hs.ran, fun hf => (ht.2.2 hf).owned, fun hf =>
      (hs.exact (ht.2.2 hf).fits).congr (ht.2.2 hf).words⟩
  have hstart : Bears g s.host.cpu.region (s.host.memory.Preserves {p | p ∈ g.bitmaps} e) s :=
    ⟨hs.counted.1, rfl, fun hf => .refl hf (hs.owned hf)⟩
  exact Ends.mono ((hx s hstart).and (hcounted s hs.counted)) (fun _ _ ht => hback ht.1 ht.2)
    (fun _ _ ht => hback ht.1 ht.2) fun _ _ _ => trivial

include hg he

theorem visited_bitmaps (m₀ : Memory) : g.Visited root (m₀.Preserves {p | p ∈ g.bitmaps} e) ∧
    ∀ {m p} f, m₀.Preserves {p | p ∈ g.bitmaps} e m → p.pageDown = g.msrPage →
      m₀.Preserves {p | p ∈ g.bitmaps} e (m.edited p f) :=
  ⟨hg.visited_preserves fun p hp => hg.own p (Guest.bitmaps_subset_ownPages hp),
    fun f h hp => Guest.msrs_preserves hg he f h hp⟩

theorem alert_bitmaps {m₀ : Memory} {r : Option Hpa} :
    Alert g (Bears g r (m₀.Preserves {p | p ∈ g.bitmaps} e))
      (Stops g r (m₀.Preserves {p | p ∈ g.bitmaps} e)) :=
  bears_alert (visited_bitmaps hg he m₀).1 (visited_bitmaps hg he m₀).2

theorem handleNext_recorded : handleNext.Upholds (Recorded g e n ports) fun _ _ => True :=
  recorded_of_bears (F := fun _ _ => True)
    ((alert_bitmaps hg he).handleNext.mono (fun _ _ h => h) fun _ _ _ => trivial)
    counted_alert.handleNext

theorem handle_recorded (reason : ExitReason) (handling : Handling) :
    (handle reason handling).Upholds (Recorded g e n ports) fun _ _ => True :=
  recorded_of_bears (F := fun _ _ => True)
    (((alert_bitmaps hg he).handle reason handling).mono (fun _ _ h => h) fun _ _ _ => trivial)
    (counted_alert.handle reason handling)

theorem setupMsrs_recorded : setupMsrs.Upholds (Recorded g e n ports) fun _ _ => True := by
  refine recorded_of_bears (F := fun _ _ => True) (fun {m₀ r} => ?_) ?_
  · refine Upholds.bind (fun _ h => ⟨h.1.trans ⟨rfl, rfl, rfl, rfl, rfl, rfl⟩, h.2⟩) fun _ => ?_
    refine Upholds.get_bind fun s hs => ?_
    rw [hs.1.listMsrs]
    have hvisited := visited_bitmaps hg he m₀
    exact (onMemory_upholds_bears fun _ => hvisited.1.listMsrs hvisited.2 _).mono (fun _ _ h => h)
      fun _ _ _ => trivial
  · exact setupMsrs_counted

theorem setupBitmaps_recorded (hs : Recorded g e n ports s) :
    setupBitmaps.Ends s (fun _ => Recorded g e n (emulatedPorts ++ ports))
      (fun _ => Recorded g e n (emulatedPorts ++ ports)) fun _ _ => True := by
  rw [setupBitmaps, ends_bind, ends_get]
  dsimp only
  rw [hs.counted.1.interceptEmulatedPorts]
  have hmemory := (hg.interceptEmulatedPorts (F := fun _ => True) (m := s.host.memory) he
    (ε := VmError)).ends fun hf => ⟨hs.owned hf, hs.exact hf⟩
  have hmore : n ≠ 0 → emulatedPorts ⊆ emulatedPorts ++ ports := fun _ =>
    List.subset_append_left _ _
  simp only [onMemory, onPlatform, onHost, Host.onPlatform, Platform.onMemory, ends_onPart]
  -- An error means that addresses do not fit, and then nothing is asked of memory.
  refine Ends.mono hmemory (fun _ m' hm => ?_) (fun _ m' hm => ?_) fun _ _ _ => trivial
  · exact ⟨hs.counted, hmore, fun hf => (hm hf).1, fun hf => (hm hf).2⟩
  · exact ⟨hs.counted, hmore, fun hf => (hm hf).elim, fun hf => (hm hf).elim⟩

theorem prepareFirstRun_recorded (hruns : s.guest.runs = 0) (hs : Recorded g e n ports s) :
    prepareFirstRun.Ends s
      (fun _ t => Recorded g e n (s.intercepted ++ ports) t ∧ emulatedPorts ⊆ s.intercepted ++ ports)
      (fun _ => Recorded g e n (s.intercepted ++ ports)) fun _ _ => True := by
  rw [prepareFirstRun_eq, ends_bind]
  refine ((recorded_of_still prelude_still s hs).and (prelude_intercepts hruns)).mono ?_ ?_
    fun _ _ _ => trivial
  · rintro - t ⟨ht, hports⟩
    rw [hports, ends_bind]
    refine (setupBitmaps_recorded hg he ht).mono (fun _ u hu => ?_) (fun _ _ hu => hu) fun _ _ h => h
    have hrest : (do
        setupMsrs
        configureControls).Upholds (Recorded g e n (emulatedPorts ++ ports)) fun _ _ => True :=
      Upholds.bind (setupMsrs_recorded hg he) fun _ => recorded_of_still configureControls_still
    exact (hrest u hu).mono (fun _ _ hw => ⟨hw, List.subset_append_left _ _⟩) (fun _ _ hw => hw)
      fun _ _ h => h
  · rintro err t ⟨ht, hports⟩
    rw [hports]
    exact ht

theorem prepareRun_recorded (hs : Recorded g e n ports s) :
    prepareRun.Ends s (fun _ => Recorded g e (n + 1) (s.intercepted ++ ports))
      (fun _ => Recorded g e n (s.intercepted ++ ports)) fun _ _ => True := by
  refine prepareRun_ends_of (fun hruns => ?_) fun hruns => ?_
  · refine (prepareFirstRun_recorded hg he hruns hs).mono (fun _ t ht => ?_) (fun _ _ h => h)
      fun _ _ h => h
    exact ht.1.ready ht.2
  · have hports : s.intercepted ++ ports = ports := by
      rw [intercepted, if_neg hruns, List.nil_append]
    rw [hports]
    rw [hs.counted.2] at hruns
    exact (recorded_of_still prepareNextRun_still s hs).mono (fun _ t ht => ht.ready (hs.ran hruns))
      (fun _ _ h => h) fun _ _ h => h

theorem runOnce_recorded (hs : Recorded g e n ports s) :
    runOnce.Ends s (fun _ => Recorded g e (n + 1) (s.intercepted ++ ports))
      (fun _ t => ∃ n', Recorded g e n' (s.intercepted ++ ports) t) fun _ _ => True := by
  rw [runOnce_eq, approach, bind_assoc, ends_bind]
  refine (prepareRun_recorded hg he hs).mono (fun _ t ht => ?_) (fun _ _ ht => ⟨_, ht⟩)
    fun _ _ h => h
  have hrest : (loadContext >>= fun _ => proceed).Upholds
      (Recorded g e (n + 1) (s.intercepted ++ ports)) fun _ _ => True :=
    Upholds.bind (recorded_of_still loadContext_still) fun _ =>
      Upholds.bind (recorded_of_still launch_still) fun _ => handleNext_recorded hg he
  exact (hrest t ht).mono (fun _ _ hu => hu) (fun _ _ hu => ⟨_, hu⟩) fun _ _ h => h

/-- After a run the emulated ports stop the guest besides if the run intercepted them, and they stop it
in any case if the run went well. -/
theorem run_recorded (hs : Recorded g e n ports s) :
    Session.run.Ends s (fun _ => Recorded g e (n + 1) (s.intercepted ++ ports))
      (fun _ t => ∃ n', Recorded g e n' (s.intercepted ++ ports) t) fun _ _ => True := by
  rw [Session.run, ends_bind, ends_attempt]
  refine (runOnce_recorded hg he hs).mono (fun result t ht => ?_) (fun err t ht => ?_) fun _ _ h => h
  · have hback : ∀ {x : SessionM ExitResult}, x.Still → x.Ends t
        (fun _ => Recorded g e (n + 1) (s.intercepted ++ ports))
        (fun _ t => ∃ n', Recorded g e n' (s.intercepted ++ ports) t) fun _ _ => True :=
      fun hx => (recorded_of_still hx t ht).mono (fun _ _ h => h) (fun _ _ h => ⟨_, h⟩) fun _ _ h => h
    cases result with
    | continued => exact hback (Still.bind (onKernel_still _) fun _ => Still.pure)
    | exited =>
        exact hback (Still.bind terminate_still fun _ => Still.bind (onKernel_still _) fun _ => Still.pure)
  · obtain ⟨n', ht⟩ := ht
    have hfailed : (giveUp err >>= fun _ => Action.fail err : SessionM ExitResult).Ends t
        (fun _ _ => False) (fun _ t => ∃ n', Recorded g e n' (s.intercepted ++ ports) t)
        fun _ _ => True := by
      rw [ends_bind]
      exact (recorded_of_still (giveUp_still err) t ht).mono (fun _ _ h => ⟨n', h⟩)
        (fun _ _ h => ⟨n', h⟩) fun _ _ h => h
    simp only [giveUp, bind_assoc] at hfailed
    split
    · exact ⟨n', ht⟩
    · rename_i heq
      cases heq
    · rename_i heq
      cases heq
    · rename_i heq
      cases heq
      exact hfailed.mono (fun _ _ h => h.elim) (fun _ _ h => h) fun _ _ h => h

end Bitmaps

end Session

end Hypervisor
