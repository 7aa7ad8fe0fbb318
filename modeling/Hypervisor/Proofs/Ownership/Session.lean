import Hypervisor.Proofs.Guest.IoBitmap
import Hypervisor.Proofs.Guest.MsrArea
import Hypervisor.Proofs.Ownership.Host

/-!
# Running guests and memory

A guest that runs changes memory through its table, where its faults are backed, through the page of
its registers and its I/O bitmaps, and where it is handed its memory map.  A predicate on memories that
survives these is kept by a run.  That the memory is sound is one such predicate, since none of this
changes which page has which role.
-/

namespace Hypervisor

namespace Memory

theorem physical?_backing {m : Memory} {q p : Hpa} {perm : Permission}
    (hp : m.physical? (Ept.backing ⟨Layout.memoryMap⟩ (q, perm)) = some p) : p = q := by
  have hval := (live_of_physical? hp).2
  have hoffset : (⟨Layout.memoryMap⟩ : Gpa).pageOffset = 0 := by decide
  rw [Ept.backing, Address.plus, hoffset, UInt64.add_zero, UInt64.add_sub_cancel] at hval
  cases p
  cases q
  exact congrArg Address.mk hval

end Memory

namespace Guest

open Hypervisor.Action Memory

theorem msrPage_mem_ownPages {g : Guest} : g.msrPage ∈ g.ownPages :=
  List.mem_cons_of_mem _ List.mem_cons_self

/-- The predicate survives what is done to memory on behalf of the guest, but for its own pages. -/
structure Visited (g : Guest) (r : Hpa) (K : Memory → Prop) : Prop where
  root : g.table.root = some r
  balanced : ∀ {m}, K m → ∃ a, m.Balanced a ∧ a.level r = some 3
  live : ∀ {m p}, K m → p ∈ g.ownPages → p ∈ m.pages
  leaf : ∀ {m p perm} f, K m →
    m.translation r (⟨Layout.memoryMap⟩ : Gpa).number = some (p, perm) → K (m.edited p f)
  fault : ∀ {m} gpa, (g.table.onAccess g.physSize gpa).Safe (fun _ => False) m (K m) (fun _ => K)
    fun _ => K

/-- The predicate survives what is done to memory on behalf of the guest. -/
structure Housed (g : Guest) (r : Hpa) (K : Memory → Prop) : Prop extends Visited g r K where
  own : ∀ {m p} f, K m → p.pageDown ∈ g.ownPages → K (m.edited p f)

section

variable {g : Guest} {root : Hpa} {K : Memory → Prop} {m : Memory} {F : Panic → Prop} {ε : Type}

namespace Visited

theorem pageDown_of_own (hg : g.Visited root K) (h : K m) {p : Hpa} (hp : p ∈ g.ownPages) :
    p.pageDown = p := by
  obtain ⟨a, hb, -⟩ := hg.balanced h
  exact Address.pageDown_of_isPageAligned (hb.page (hg.live h hp)).1

theorem hostMsrArea_pageDown (hg : g.Visited root K) (h : K m) :
    g.hostMsrArea.pageDown = g.msrPage :=
  hg.pageDown_of_own h msrPage_mem_ownPages

theorem guestMsrArea_pageDown (hg : g.Visited root K) (h : K m) :
    g.guestMsrArea.pageDown = g.msrPage := by
  obtain ⟨a, hb, -⟩ := hg.balanced h
  exact Guest.guestMsrArea_pageDown (hb.page (hg.live h msrPage_mem_ownPages)).1

theorem bitmapPage_own (hg : g.Visited root K) (h : K m) (port : UInt16) :
    (g.bitmapPage port).pageDown ∈ g.ownPages := by
  rw [hg.pageDown_of_own h (bitmapPage_mem_ownPages port)]
  exact bitmapPage_mem_ownPages port

theorem resolve (hg : g.Visited root K) (gpa : Gpa) :
    (g.table.resolve gpa : MemoryM ε (Option Hva)).Safe F m (K m)
      (fun v m' => K m' ∧ v = (m'.translation root gpa.number).map (Ept.backing gpa))
      fun _ _ => False := by
  have hresolve : (g.table.resolve gpa : MemoryM ε (Option Hva)).Safe F m
      (∃ a, K m ∧ m.Balanced a ∧ a.level root = some 3)
      (fun v m' => K m' ∧ v = (m'.translation root gpa.number).map (Ept.backing gpa))
      fun _ _ => False := by
    refine Safe.exists fun a => ?_
    refine Ends.mono (Ept.resolve_ends (P := K m ∧ m.Balanced a ∧ a.level root = some 3)
      (E := fun _ _ => False) hg.root fun h => h.2) ?_ (fun _ _ => False.elim) ?_
    · rintro v m' ⟨rfl, hv⟩
      exact ⟨Nat.le_refl _, fun _ h => ⟨h.1, hv h⟩⟩
    · rintro p m' ⟨rfl, hnot⟩
      exact ⟨Nat.le_refl _, fun _ h => absurd h hnot⟩
  refine hresolve.assume fun _ h => ?_
  obtain ⟨a, hb, hr⟩ := hg.balanced h
  exact ⟨a, h, hb, hr⟩

theorem resolve_keeps (hg : g.Visited root K) (gpa : Gpa) :
    (g.table.resolve gpa : MemoryM ε (Option Hva)).Safe F m (K m) (fun _ => K) fun _ => K :=
  (hg.resolve gpa).mono (fun _ h => h) (fun _ _ _ _ _ h => h.1) fun _ _ _ _ _ h => h.elim

theorem readMsrs (hg : g.Visited root K) :
    (pageWords g.guestMsrArea : MemoryM ε PageWords).Safe F m (K m) (fun _ => K) fun _ => K := by
  refine Safe.last (pageWords_bind (fun h => ?_) (Safe.pure fun _ h => h))
  rw [hg.guestMsrArea_pageDown h]
  exact hg.live h msrPage_mem_ownPages

section Msrs

variable (hg : g.Visited root K)
  (hmsrs : ∀ {m p} f, K m → p.pageDown = g.msrPage → K (m.edited p f))

include hg hmsrs

theorem editMsrs {p : Hpa} {f : PageWords → PageWords} (hp : ∀ {m}, K m → p.pageDown = g.msrPage) :
    (Memory.editPage p f : MemoryM ε Unit).Safe F m (K m) (fun _ => K) fun _ => K := by
  refine pageWords_bind (fun h => ?_) (Safe.last (updatePage_bind (Safe.pure fun _ h =>
    hmsrs f h (hp h))))
  rw [hp h]
  exact hg.live h msrPage_mem_ownPages

theorem listMsrs (rdmsr : MsrIndex → UInt64) :
    (g.listMsrs rdmsr : MemoryM ε Unit).Safe F m (K m) (fun _ => K) fun _ => K :=
  Safe.bind (hg.editMsrs hmsrs hg.hostMsrArea_pageDown) fun _ _ =>
    (hg.editMsrs hmsrs hg.guestMsrArea_pageDown).assume fun _ h => h.2

theorem writeMsrs (f : PageWords → PageWords) :
    (updatePage g.guestMsrArea f : MemoryM ε Unit).Safe F m (K m) (fun _ => K) fun _ => K :=
  Safe.last (updatePage_bind (Safe.pure fun _ h => hmsrs f h (hg.guestMsrArea_pageDown h)))

end Msrs

end Visited

namespace Housed

theorem msrs (hg : g.Housed root K) {p : Hpa} (f : PageWords → PageWords) (h : K m)
    (hp : p.pageDown = g.msrPage) : K (m.edited p f) :=
  hg.own f h (hp.symm ▸ msrPage_mem_ownPages)

theorem listMsrs (hg : g.Housed root K) (rdmsr : MsrIndex → UInt64) :
    (g.listMsrs rdmsr : MemoryM ε Unit).Safe F m (K m) (fun _ => K) fun _ => K :=
  hg.toVisited.listMsrs hg.msrs rdmsr

theorem writeMsrs (hg : g.Housed root K) (f : PageWords → PageWords) :
    (updatePage g.guestMsrArea f : MemoryM ε Unit).Safe F m (K m) (fun _ => K) fun _ => K :=
  hg.toVisited.writeMsrs hg.msrs f

theorem interceptPort (hg : g.Housed root K) (port : UInt16) :
    (g.interceptPort port : MemoryM ε Unit).Safe F m (K m) (fun _ => K) fun _ => K :=
  pageWords_bind (fun h => hg.live h (hg.bitmapPage_own h port))
    (Safe.last (updatePage_bind (Safe.pure fun _ h => hg.own _ h (hg.bitmapPage_own h port))))

theorem interceptEmulatedPorts (hg : g.Housed root K) :
    (g.interceptEmulatedPorts : MemoryM ε Unit).Safe F m (K m) (fun _ => K) fun _ => K :=
  Safe.bind (hg.interceptPort rtcPort) fun _ _ =>
    Safe.bind (R := fun _ => K) ((hg.interceptPort (rtcPort + 1)).assume fun _ h => h.2) fun _ _ =>
      Safe.pure fun _ h => h.2

end Housed

end

/-- The pages of a guest have their roles, and its memory is not so large that page numbers would
repeat. -/
structure Lodged (g : Guest) (r : Hpa) (e : Estate) (I : Prop) : Prop where
  root : g.table.root = some r
  mem : r ∈ e.roots
  own : ∀ p ∈ g.ownPages, p ∈ e.others
  size : I → g.physSize.toNat ≤ 2 ^ 48

variable {g g' : Guest} {root : Hpa} {e : Estate} {I : Prop}

theorem Lodged.of_same (hg : Lodged g root e I) (h : g.Same g') : Lodged g' root e I where
  root := by
    rw [h.table]
    exact hg.root
  mem := hg.mem
  own := by
    rw [h.ownPages]
    exact hg.own
  size := by
    rw [h.physSize]
    exact hg.size

/-- Whatever is done on behalf of the guest keeps memory sound. -/
theorem Lodged.housed (hg : Lodged g root e I) : g.Housed root (·.Owned e I) where
  root := hg.root
  balanced := fun ⟨a, h⟩ => ⟨a, h.balanced, h.level hg.mem⟩
  live := fun ⟨_, h⟩ hp => h.other_live (hg.own _ hp)
  own := fun _ ⟨a, h⟩ hp => ⟨a, h.edited (h.other (hg.own _ hp))⟩
  leaf := fun _ ⟨a, h⟩ hp => by
    refine ⟨a, h.edited ?_⟩
    rw [Address.pageDown_of_isPageAligned (h.balanced.page (h.target_live hg.mem hp)).1]
    exact (h.separate hg.mem hp).1
  fault := fun _ => Ept.onAccess_owned hg.root hg.mem g.physSize hg.size

end Guest

namespace Session

open Hypervisor.Action Memory

def Bears (g : Guest) (r : Option Hpa) (K : Memory → Prop) (s : Session) : Prop :=
  g.Same s.guest ∧ s.host.cpu.region = r ∧ (s.host.memory.Fits → K s.host.memory)

/-- The panic is over a sum that a guest has made too large: the address of its next instruction, or
where the instruction ends that it stopped at. -/
def Overflow (p : Panic) (s : Session) : Prop :=
  p = .addOverflow ∧ ∃ block, s.host.cpu.processor.current = some block ∧
    ((s.host.blocks.block block).Wraps ∨ (s.host.blocks.block block).Overruns s.context.rip)

def Overflows (p : Panic) (s : Session) : Prop := s.host.memory.Fits → s.Overflow p

def Stops (g : Guest) (r : Option Hpa) (K : Memory → Prop) (p : Panic) (s : Session) : Prop :=
  s.Overflows p ∧ s.Bears g r K

def Outgrown (g : Guest) (r : Option Hpa) (s : Session) : Prop := s.Bears g r fun _ => False

variable {g : Guest} {root : Hpa} {r : Option Hpa} {K : Memory → Prop} {s : Session} {α : Type}

theorem Bears.imp {K' : Memory → Prop} (hs : Bears g r K s) (h : ∀ m, K m → K' m) :
    Bears g r K' s :=
  ⟨hs.1, hs.2.1, fun hf => h _ (hs.2.2 hf)⟩

theorem Outgrown.not_fits (hs : Outgrown g r s) : ¬ s.host.memory.Fits := hs.2.2

theorem Outgrown.stops (hs : Outgrown g r s) (p : Panic) : Stops g r K p s :=
  ⟨fun hf => (hs.not_fits hf).elim, hs.imp fun _ => False.elim⟩

theorem onMemory_bears {x : MemoryM VmError α} {Q : α → Memory → Prop} {E : VmError → Memory → Prop}
    (hx : x.Safe (fun _ => False) s.host.memory (K s.host.memory) Q E) (hs : Bears g r K s) :
    (onMemory x).Ends s (fun a t => Bears g r (Q a) t) (fun err t => Bears g r (E err) t)
      fun _ => Outgrown g r := by
  have hmemory := hx.ends hs.2.2
  simp only [onMemory, onPlatform, onHost, Host.onPlatform, Platform.onMemory, ends_onPart]
  exact Ends.mono hmemory (fun _ _ h => ⟨hs.1, hs.2.1, h⟩) (fun _ _ h => ⟨hs.1, hs.2.1, h⟩)
    fun _ _ h => ⟨hs.1, hs.2.1, h⟩

theorem onMemory_upholds_bears {x : MemoryM VmError α}
    (hx : ∀ m : Memory, x.Safe (fun _ => False) m (K m) (fun _ => K) fun _ => K) :
    (onMemory x).Upholds (Bears g r K) fun _ => Outgrown g r :=
  fun s hs => onMemory_bears (hx s.host.memory) hs

theorem resolve_bears (hg : g.Visited root K) (hs : Bears g r K s) (gpa : Gpa) :
    (onMemory (g.table.resolve gpa)).Ends s
      (fun v t => Bears g r (fun m => K m ∧ v = (m.translation root gpa.number).map (Ept.backing gpa)) t)
      (fun _ t => Bears g r K t) fun _ => Outgrown g r :=
  Ends.mono (onMemory_bears (hg.resolve gpa) hs) (fun _ _ h => h)
    (fun _ _ h => h.imp fun _ => False.elim) fun _ _ h => h

theorem memoryMapPage_bears (hg : g.Visited root K) (hs : Bears g r K s) :
    memoryMapPage.Ends s
      (fun page t => Bears g r (fun m => K m ∧
        some page = (m.translation root (⟨Layout.memoryMap⟩ : Gpa).number).map
          (Ept.backing ⟨Layout.memoryMap⟩)) t)
      (fun _ t => Bears g r K t) fun _ => Outgrown g r := by
  rw [memoryMapPage, ends_bind, ends_get]
  dsimp only
  rw [hs.1.table, hs.1.physSize, ends_bind]
  refine Ends.mono (resolve_bears hg hs _) (fun v t ht => ?_) (fun _ _ h => h) fun _ _ hp => hp
  cases v with
  | some page => exact ht
  | none =>
      have ht' := ht.imp fun _ h => h.1
      show Ends _ t _ _ _
      rw [ends_bind]
      refine Ends.mono (onMemory_bears (hg.fault _) ht') (fun _ u hu => ?_) (fun _ _ h => h)
        fun _ _ hp => hp
      rw [ends_bind]
      refine Ends.mono (resolve_bears hg hu _) (fun v w hw => ?_) (fun _ _ h => h) fun _ _ hp => hp
      rw [ends_orFail]
      cases v with
      | some page => exact hw
      | none => exact hw.imp fun _ h => h.1

theorem giveMemoryMap_bears (hg : g.Visited root K) :
    giveMemoryMap.Upholds (Bears g r K) fun _ => Outgrown g r := by
  intro s hs
  rw [giveMemoryMap, ends_bind]
  refine Ends.mono (memoryMapPage_bears hg hs) (fun page t ht => ?_) (fun _ _ h => h)
    fun _ _ hp => hp
  rw [ends_bind, ends_get]
  cases hp : t.host.memory.physical? page with
  | none => exact ht.imp fun _ h => h.1
  | some p =>
      show Ends _ t _ _ _
      rw [ends_bind]
      refine ⟨ht.1, ht.2.1, fun hf => ?_⟩
      obtain ⟨hK, hpage⟩ := ht.2.2 hf
      obtain ⟨⟨q, perm⟩, htranslation, hbacking⟩ := Option.map_eq_some_iff.1 hpage.symm
      rw [← hbacking] at hp
      obtain rfl := physical?_backing hp
      exact hg.leaf (fun ws => ws.setHalves 0 (MemoryMap.encode t.guest.physSize)) hK htranslation

theorem stops_of_outgrown {x : SessionM α} (hx : x.Upholds (Bears g r K) fun _ => Outgrown g r) :
    x.Upholds (Bears g r K) (Stops g r K) :=
  hx.mono (fun _ _ h => h) fun p _ h => h.stops p

theorem bears_host (s : Session) : Host.Detached (fun h => Bears g r K { s with host := h })
    fun p h => Stops g r K p { s with host := h } where
  overflow := fun hp hwraps h => ⟨fun _ => ⟨rfl, _, hp, .inl hwraps⟩, h⟩
  log := fun _ h => h
  kernel := fun _ h => h
  spent := fun _ _ h => h
  blocks := fun _ h => h
  processor := fun _ h => h
  current := fun _ h => h

theorem bears_roused (hg : g.Visited root K) : Roused g (Bears g r K) (Stops g r K) where
  same := fun h => h.1
  host := fun s => (bears_host s).toCalm
  skip := fun hp hoverruns h => ⟨fun _ => ⟨rfl, _, hp, .inr hoverruns⟩, h⟩
  context := fun _ h => h
  rtc := fun _ h => ⟨h.1.trans ⟨rfl, rfl, rfl, rfl, rfl, rfl⟩, h.2⟩
  resolve := fun gpa => stops_of_outgrown <| onMemory_upholds_bears fun _ => hg.resolve_keeps gpa
  fault := fun gpa => stops_of_outgrown <| onMemory_upholds_bears fun _ => hg.fault gpa
  readMsrs := stops_of_outgrown <| onMemory_upholds_bears fun _ => hg.readMsrs
  memoryMap := stops_of_outgrown (giveMemoryMap_bears hg)
  vector := fun _ h => ⟨h.1.trans ⟨rfl, rfl, rfl, rfl, rfl, rfl⟩, h.2⟩
  inject := fun _ _ h => h
  window := fun _ _ h => h

theorem bears_alert (hg : g.Visited root K)
    (hmsrs : ∀ {m p} f, K m → p.pageDown = g.msrPage → K (m.edited p f)) :
    Alert g (Bears g r K) (Stops g r K) where
  toPlacid := (bears_roused hg).toPlacid
  mode := fun _ _ h => h
  writeMsrs := fun f => stops_of_outgrown <| onMemory_upholds_bears fun _ => hg.writeMsrs hmsrs f
  vector := (bears_roused hg).vector
  inject := (bears_roused hg).inject
  window := (bears_roused hg).window

/-- What a run does to memory keeps the predicate. -/
theorem bears_detached (hg : g.Housed root K) : Detached g (Bears g r K) (Stops g r K) where
  same := fun h => h.1
  host := bears_host
  skip := (bears_roused hg.toVisited).skip
  context := fun _ h => h
  guest := fun hsame h => ⟨h.1.trans hsame, h.2⟩
  resolve := (bears_roused hg.toVisited).resolve
  fault := (bears_roused hg.toVisited).fault
  readMsrs := (bears_roused hg.toVisited).readMsrs
  writeMsrs := (bears_alert hg.toVisited hg.msrs).writeMsrs
  memoryMap := (bears_roused hg.toVisited).memoryMap
  bitmaps := stops_of_outgrown <| onMemory_upholds_bears fun _ => hg.interceptEmulatedPorts
  msrs := fun rdmsr => stops_of_outgrown <| onMemory_upholds_bears fun _ => hg.listMsrs rdmsr

/-- However a run ends, memory is as it was required to be, and nothing goes wrong but a sum that the
guest has made too large. -/
theorem run_bears (hg : g.Housed root K) : Session.run.Upholds (Bears g r K) Overflows :=
  ((bears_detached hg).runnable.run_upholds fun _ h => h).mono (fun _ _ h => h) fun _ _ h => h.1

end Session

end Hypervisor
