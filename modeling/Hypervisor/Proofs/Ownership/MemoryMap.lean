import Hypervisor.Proofs.Guest.MemoryMap
import Hypervisor.Proofs.Ownership.Trees

/-!
# Handing out the memory map

A guest that asks for its memory map finds it in a page of its own, which is backed if it was not.
What the guest reads there is the layout by which its faults are handled, and nothing else of its
memory has changed.
-/

namespace Hypervisor

/-- The number of the page in which a guest is handed its memory map. -/
def MemoryMap.number : PageNumber := (⟨Layout.memoryMap⟩ : Gpa).number

namespace Memory

open MemoryMap

variable {m m₁ : Memory} {a a₁ : Account} {root p q : Hpa} {perm : Permission} {n : PageNumber}
  {S : Set PageNumber} {physSize : UInt64}

theorem Tree.level_of_translation (h : m.Tree root) (hp : m.translation root n = some (p, perm)) :
    (Tree.account m root).level p = none := by
  obtain ⟨s, hs, htarget⟩ := exists_leaf hp
  have hlevel := h.standing.account_shape.level_of_leafFrom h.standing.account_root hs
  refine Option.eq_none_iff_forall_ne_some.2 fun k hk => ?_
  exact h.outside (h.standing.account_level.1 hlevel) htarget (h.standing.account_level.1 hk)

/-- From `m` to `m'` the guest with a root and a size has been handed its memory map in the page `p`. -/
structure HandsOut (m : Memory) (root : Hpa) (physSize : UInt64) (p : Hpa) (perm : Permission)
    (m' : Memory) : Prop where
  mapped : m'.translation root number = some (p, perm)
  /-- The page that was there is written to, and nothing else happens. -/
  reused : m.translation root number ≠ none → m.translation root number = some (p, perm) ∧
    m' = m.edited p fun ws => ws.setHalves 0 (encode physSize)
  others : ∀ n, n ≠ number → m'.translation root n = m.translation root n
  /-- The map is read at the start of the page, and the rest of the page is as it was. -/
  describes : ∃ count, Describes (m'.words p) physSize count ∧
    ∀ o, 52 + 24 * count ≤ o → (m'.words p).byte o = (m.words p).byte o
  contents : ∀ {q}, q ∈ m.pages → q ≠ p → (∀ k, ¬m.Table {root} k q) → m'.words q = m.words q
  kept : ∀ {q}, q ∈ m.pages → q ∈ m'.pages ∧ m'.refs q = m.refs q
  /-- A page is added only where there was none, with the tables that were missing on the way. -/
  added : ∀ {q}, q ∈ m'.pages → q ∉ m.pages → m.translation root number = none ∧
    (q = p ∨ ∃ j < 3, m.tableFrom number j 3 root = none ∧ m'.tableFrom number j 3 root = some q)

structure Supplies (m : Memory) (root : Hpa) (S : Set PageNumber) (p : Hpa) (perm : Permission)
    (m₁ : Memory) (a₁ : Account) : Prop
    extends Fills m (Tree.account m root) root S m₁ a₁ where
  place : S = ∅ ∧ m₁ = m ∨ S = {number}
  mapped : m₁.translation root number = some (p, perm)

namespace Supplies

theorem level_eq_none (h : m.Supplies root S p perm m₁ a₁) (ht : m.Tree root) :
    a₁.level p = none := by
  have hroot := h.level_eq ht.standing.account_balanced ht.standing.account_root
  rcases h.place with ⟨-, rfl⟩ | rfl
  · rw [h.level (h.balanced.translation_live hroot h.mapped)]
    exact ht.level_of_translation h.mapped
  · obtain ⟨-, q, hq, hmap⟩ := h.inside rfl
    cases hmap.symm.trans h.mapped
    exact h.balanced.level_of_single (h.fresh hq) hroot h.mapped

theorem page_live (h : m.Supplies root S p perm m₁ a₁) (ht : m.Tree root) : p ∈ m₁.pages := by
  have hroot := h.level_eq ht.standing.account_balanced ht.standing.account_root
  exact h.balanced.translation_live hroot h.mapped

theorem pageDown_eq (h : m.Supplies root S p perm m₁ a₁) (ht : m.Tree root) : p.pageDown = p :=
  Address.pageDown_of_isPageAligned (h.balanced.page (h.page_live ht)).1

theorem words_eq (h : m.Supplies root S p perm m₁ a₁) (ht : m.Tree root) :
    m₁.words p = m.words p := by
  rcases h.place with ⟨-, rfl⟩ | rfl
  · rfl
  · obtain ⟨-, q, hq, hmap⟩ := h.inside rfl
    cases hmap.symm.trans h.mapped
    rw [h.zero rfl h.mapped, words_eq_zero_of_notMem]
    rwa [h.pageDown_eq ht]

/-- Pages that are new in memory are the page itself and the tables on the way to it. -/
theorem new_pages (h : m.Supplies root S p perm m₁ a₁) (ht : m.Tree root) (hq : q ∈ m₁.pages)
    (hnew : q ∉ m.pages) : m.translation root number = none ∧
      (q = p ∨ ∃ j < 3, m.tableFrom number j 3 root = none ∧
        m₁.tableFrom number j 3 root = some q) := by
  have hb := ht.standing.account_balanced
  have hroot := h.level_eq hb ht.standing.account_root
  rcases h.place with ⟨-, rfl⟩ | rfl
  · exact absurd hq hnew
  refine ⟨(h.inside rfl).1, ?_⟩
  cases hlevel : a₁.level q with
  | some j =>
      right
      have hold : (Tree.account m root).level q = none := hb.level_of_notMem hnew
      obtain ⟨n, rfl, hpath⟩ := (h.tables hlevel).resolve_left fun he => by cases hold.symm.trans he
      have hle := le_of_tableFrom hpath
      refine ⟨j, Nat.lt_of_le_of_ne hle ?_, ?_, hpath⟩
      · rintro rfl
        cases tableFrom_self.symm.trans hpath
        exact hnew (hb.table_live ht.standing.account_root)
      · refine Option.eq_none_iff_forall_ne_some.2 fun r hr => ?_
        cases (h.tableFrom hb ht.standing.account_root hr).symm.trans hpath
        exact hnew (hb.table_live (hb.shape.level_of_tableFrom ht.standing.account_root hr))
  | none =>
      left
      -- The page has a reference, which is neither held nor that of a link, so a leaf has it.
      have hrefs : m₁.refs q ≠ 0 := fun hzero => by
        have hidle := h.balanced.idle hq hzero
        rw [h.idle] at hidle
        exact hnew hidle
      have hheld : a₁.held q = 0 := by
        have hle := hb.held_le_refs q
        rw [refs_eq_zero_of_notMem hnew] at hle
        rw [h.held]
        omega
      have hlinked := Account.linked_of_parent_eq_none
        (h.balanced.shape.parent_of_level_eq_none hlevel)
      have hleaf : 0 < a₁.leaves m₁.entry q := by
        have hledger := h.balanced.ledger q
        omega
      obtain ⟨s, hs, htarget⟩ := (Set.ncard_pos).1 hleaf
      have htable := Table.of_level h.balanced.shape (h.rooted ht.standing.account_rooted) 3 rfl hs
      obtain ⟨n, perm', hmap⟩ := htable.exists_translation htarget
      by_cases hplace : n = number
      · rw [hplace, h.mapped] at hmap
        cases hmap
        rfl
      · rw [h.outside hplace] at hmap
        exact absurd (hb.translation_live ht.standing.account_root hmap) hnew

/-- Writing the map where it goes hands it out. -/
theorem handsOut (h : m.Supplies root S p perm m₁ a₁) (ht : m.Tree root) :
    m.HandsOut root physSize p perm (m₁.edited p fun ws => ws.setHalves 0 (encode physSize)) := by
  have hb := ht.standing.account_balanced
  have hroot := h.level_eq hb ht.standing.account_root
  have hlevel : a₁.level p.pageDown = none := by
    rw [h.pageDown_eq ht]
    exact h.level_eq_none ht
  have htables : ∀ t k, a₁.level t = some k →
      (m₁.edited p fun ws => ws.setHalves 0 (encode physSize)).words t = m₁.words t := fun _ _ =>
    h.balanced.words_edited _ hlevel
  have htranslation : ∀ n, (m₁.edited p fun ws => ws.setHalves 0 (encode physSize)).translation root n =
      m₁.translation root n := fun n => h.balanced.translation_eq htables hroot
  have hwords : (m₁.edited p fun ws => ws.setHalves 0 (encode physSize)).words p =
      (m.words p).setHalves 0 (encode physSize) := by
    rw [words_edited _ (by rw [h.pageDown_eq ht]; exact h.page_live ht), if_pos rfl, h.words_eq ht]
  refine ⟨(htranslation _).trans h.mapped, fun hsome => ?_, fun n hn => ?_, ?_, ?_, ?_, ?_⟩
  · rcases h.place with ⟨-, rfl⟩ | rfl
    · exact ⟨h.mapped, rfl⟩
    · exact absurd (h.inside rfl).1 hsome
  · rw [htranslation]
    refine h.outside ?_
    rcases h.place with ⟨rfl, -⟩ | rfl
    · exact fun hmem => hmem
    · exact hn
  · refine ⟨(ranges physSize).length, ?_, fun o ho => ?_⟩
    · rw [hwords]
      exact describes_encode _ _
    · have hle := length_ranges_le physSize
      have hlength := length_encode physSize
      have hfits : 0 + (encode physSize).length ≤ 2 * 512 := by omega
      rw [hwords]
      exact PageWords.byte_setHalves_of_le _ hfits (by omega)
  · intro q hq hne hnone
    have hqp : q.pageDown ≠ p.pageDown := by
      rw [Address.pageDown_of_isPageAligned (hb.page hq).1, h.pageDown_eq ht]
      exact hne
    rw [words_edited_of_ne _ hqp]
    refine h.words hq (h.live hq) (Option.eq_none_iff_forall_ne_some.2 fun k hk => ?_)
    exact hnone k (ht.standing.account_level.1 hk)
  · intro q hq
    refine ⟨(mem_edited _).2 (h.live hq), ?_⟩
    rw [refs_edited, h.refs hq]
  · intro q hq hnew
    obtain ⟨hnone, hplace⟩ := h.new_pages ht ((mem_edited _).1 hq) hnew
    refine ⟨hnone, hplace.imp id fun ⟨j, hj, hmissing, hpath⟩ => ⟨j, hj, hmissing, ?_⟩⟩
    rw [h.balanced.shape.tableFrom_congr (fun s i hs => entry_congr (htables _ _ hs)) hroot]
    exact hpath

end Supplies

end Memory

namespace Session

open Hypervisor.Action Memory MemoryMap

variable {s t : Session} {root : Hpa}

def withMemory (s : Session) (m : Memory) : Session :=
  { s with host := { s.host with memory := m } }

theorem ends_onMemory {α : Type} {x : MemoryM VmError α} {Q : α → Session → Prop}
    {E : VmError → Session → Prop} {F : Panic → Session → Prop} :
    (onMemory x).Ends s Q E F ↔
      x.Ends s.host.memory (fun a m => Q a (s.withMemory m)) (fun e m => E e (s.withMemory m))
        fun p m => F p (s.withMemory m) := by
  simp only [onMemory, onPlatform, onHost, Host.onPlatform, Platform.onMemory, ends_onPart]
  rfl

theorem resolve_returns {P : Prop} (gpa : Gpa) (hroot : s.guest.table.root = some root)
    (hP : P → ∃ a, s.host.memory.Balanced a ∧ a.level root = some 3) :
    (onMemory (s.guest.table.resolve gpa)).Ends s
      (fun v t => t = s ∧
        (P → v = (s.host.memory.translation root gpa.number).map (Ept.backing gpa)))
      (fun _ _ => True) fun _ _ => True := by
  have hsound : ∃ a, P → s.host.memory.Balanced a ∧ a.level root = some 3 := by
    by_cases hp : P
    · exact (hP hp).imp fun _ h _ => h
    · exact ⟨Tree.account s.host.memory root, fun h => absurd h hp⟩
  obtain ⟨a, ha⟩ := hsound
  rw [ends_onMemory]
  exact Ends.mono (Ept.resolve_ends (E := fun _ _ => True) hroot ha)
    (fun _ _ h => ⟨congrArg s.withMemory h.1, h.2⟩) (fun _ _ _ => trivial) fun _ _ _ => trivial

/-- The page for the memory map is found or backed. -/
theorem memoryMapPage_supplies (hroot : s.guest.table.root = some root)
    (htree : s.host.memory.Tree root) :
    memoryMapPage.Ends s
      (fun page t => ∃ m₁, t = s.withMemory m₁ ∧ (m₁.Fits → ∃ S p perm a₁,
        s.host.memory.Supplies root S p perm m₁ a₁ ∧
          page = Ept.backing ⟨Layout.memoryMap⟩ (p, perm)))
      (fun _ _ => True) fun _ _ => True := by
  have hb := htree.standing.account_balanced
  have hlevel := htree.standing.account_root
  rw [memoryMapPage, ends_bind, ends_get]
  dsimp only
  rw [ends_bind]
  refine Ends.mono (resolve_returns (P := True) _ hroot fun _ => ⟨_, hb, hlevel⟩) ?_
    (fun _ _ _ => trivial) fun _ _ _ => trivial
  rintro v t ⟨rfl, hv⟩
  obtain rfl := hv trivial
  cases hmap : t.host.memory.translation root (⟨Layout.memoryMap⟩ : Gpa).number with
  | some mapping =>
      exact ⟨t.host.memory, rfl, fun _ => ⟨∅, mapping.1, mapping.2, _,
        ⟨.refl hb hlevel, .inl ⟨rfl, rfl⟩, hmap⟩, rfl⟩⟩
  | none =>
      have hram : Region.of (⟨Layout.memoryMap⟩ : Gpa) t.guest.physSize = .ram := if_pos (by decide)
      simp only [Option.map_none, ends_bind, ends_onMemory, Ept.onAccess, hram, ends_pure]
      refine Ends.mono ((Ept.populate_fills (F := fun _ => True) hroot).ends fun _ => ⟨hb, hlevel⟩) ?_
        (fun _ _ _ => trivial) fun _ _ _ => trivial
      rintro - m₁ hfills
      have hlookup := resolve_returns (s := t.withMemory m₁) (P := m₁.Fits)
        ⟨Layout.memoryMap⟩ hroot fun hf => by
          obtain ⟨a₁, hfills⟩ := hfills hf
          exact ⟨a₁, hfills.balanced, hfills.level_eq hb hlevel⟩
      refine Ends.mono (ends_onMemory.1 hlookup) ?_ (fun _ _ _ => trivial) fun _ _ _ => trivial
      rintro v m ⟨hm, hv⟩
      rw [hm, ends_orFail]
      cases v with
      | none => trivial
      | some page =>
          refine ⟨m₁, rfl, fun hf => ?_⟩
          obtain ⟨a₁, hfills⟩ := hfills hf
          rw [Address.number_pageDown] at hfills
          obtain ⟨-, p, -, hmap₁⟩ := hfills.inside rfl
          have hpage := hv hf
          rw [withMemory, hmap₁] at hpage
          exact ⟨{number}, p, _, a₁, ⟨hfills, .inr rfl, hmap₁⟩, Option.some.inj hpage⟩

theorem backing_memoryMap (mapping : Hpa × Permission) :
    Ept.backing ⟨Layout.memoryMap⟩ mapping = ⟨mapping.1.val + directMap⟩ := by
  have hoffset : (⟨Layout.memoryMap⟩ : Gpa).pageOffset = 0 := by decide
  rw [Ept.backing, Address.plus, hoffset, UInt64.add_zero]

theorem giveMemoryMap_ends (hroot : s.guest.table.root = some root)
    (htree : s.host.memory.Tree root) :
    giveMemoryMap.Ends s
      (fun _ t => t.host.memory.Fits →
        t = { s.withMemory t.host.memory with
          context := { s.context with regs := { s.context.regs with rbx := Layout.memoryMap } } } ∧
        ∃ p perm, s.host.memory.HandsOut root s.guest.physSize p perm t.host.memory)
      (fun _ _ => True) fun _ _ => True := by
  rw [giveMemoryMap, ends_bind]
  refine Ends.mono (memoryMapPage_supplies hroot htree) ?_ (fun _ _ _ => trivial) fun _ _ _ => trivial
  rintro page t ⟨m₁, rfl, hsupplies⟩
  rw [ends_bind, ends_get]
  cases hp : (s.withMemory m₁).host.memory.physical? page with
  | none =>
      intro hf
      obtain ⟨S, p, perm, a₁, h, rfl⟩ := hsupplies hf
      have hlive : p.pageDown ∈ m₁.pages := by
        rw [h.pageDown_eq htree]
        exact h.page_live htree
      rw [backing_memoryMap] at hp
      exact absurd (hp.symm.trans (Ept.physical?_virtual hlive)) (Option.some_ne_none p).symm
  | some q =>
      intro hf
      obtain ⟨S, p, perm, a₁, h, rfl⟩ := hsupplies hf
      obtain rfl := physical?_backing hp
      exact ⟨rfl, q, perm, h.handsOut htree⟩

/-- A guest that asks for its memory map finds it at its place, and reads there what backs its
addresses.  Its page is backed if it was not, and nothing else of the guest's memory changes. -/
theorem memory_map_is_layout (hroot : s.guest.table.root = some root)
    (htree : s.host.memory.Tree root) (hrun : giveMemoryMap.run s = .ok () t)
    (hf : t.host.memory.Fits) :
    t.context.regs.rbx = 0x6000 ∧
      (∃ p perm, s.host.memory.HandsOut root s.guest.physSize p perm t.host.memory) ∧
      t = { s.withMemory t.host.memory with
        context := { s.context with regs := { s.context.regs with rbx := 0x6000 } } } ∧
      (s.context.regs.rax = 1 → ∀ reason,
        (handleHypercall reason).run s = continueAfter.run t) := by
  obtain ⟨ht, hout⟩ := (giveMemoryMap_ends hroot htree).ok hrun hf
  refine ⟨?_, hout, ht, fun hrax reason => ?_⟩
  · rw [ht]
    rfl
  · have hcall : Hypercall.ofNumber? s.context.regs.rax = some .memoryMap := by
      rw [hrax]
      decide
    rw [handleHypercall, EStateM.run_bind]
    simp only [EStateM.run_get, hcall, EStateM.run_bind, hrun]

def asked (m : Machine) (j : Nat) : Option (Vm × Session) :=
  m.vms[j]?.join.bind fun v =>
    match giveMemoryMap.run ⟨m.host { id := 0 }, v.guest, v.context⟩ with
    | .ok () t => some (v, t)
    | .error _ _ => none

/-- A guest that has touched another address asks for its memory map, which it is handed in a new page. -/
theorem memory_map_is_layout_touches : ∃ m k v t root, Machine.History Command.Lawful m k ∧
    m.vms[0]? = some (some v) ∧ v.guest.table.root = some root ∧
      giveMemoryMap.run ⟨m.host { id := 0 }, v.guest, v.context⟩ = .ok () t ∧
      t.host.memory.Fits ∧ m.memory.translation root number = none ∧ t.context.regs.rbx = 0x6000 ∧
      ∃ p perm, m.memory.HandsOut root v.guest.physSize p perm t.host.memory := by
  have hallowed : ∀ c ∈ Machine.touches, ∀ m k, c.Lawful m k := Command.forall_lawful rfl
  obtain ⟨m, k, h, hf, hasked⟩ := (Machine.History.booted Machine.uniprocessor_booted).exists_after
    (P := fun m => m.memory.Fits ∧ (asked m 0).any fun x =>
      decide (x.1.guest.table.root = some ⟨0x1000000⟩ ∧ x.2.host.memory.Fits ∧
        m.memory.translation ⟨0x1000000⟩ number = none)) hallowed (by decide +kernel)
  obtain ⟨⟨v, t⟩, hvt, hmap⟩ := (Option.any_eq_true _ _).1 hasked
  obtain ⟨hroot, hft, hnone⟩ := of_decide_eq_true hmap
  obtain ⟨w, hw, hrun⟩ := Option.bind_eq_some_iff.1 hvt
  split at hrun
  · rename_i hok
    cases hrun
    have hvm := Option.join_eq_some_iff.1 hw
    obtain ⟨hrbx, hout, -⟩ := memory_map_is_layout hroot (h.tree hf hvm hroot) hok hft
    exact ⟨m, k, v, t, _, h, hvm, hroot, hok, hft, hnone, hrbx, hout⟩
  · cases hrun

def mapsRoot : List Command :=
  [{ order := .build {} },
   { order := .mapFromHost (.inPage ⟨0x1000000⟩ 0) true ⟨Layout.memoryMap⟩ Permission.full },
   { order := .setRegisters [(.rax, 1)] }, { order := .script { event := .exit 0x12 } }]

/-- The map that is written over the root takes the place of the entry through which its own page was
found. -/
theorem memory_map_unmaps_itself :
    (Machine.uniprocessor.after mapsRoot).bind (·.page? 0 ⟨Layout.memoryMap⟩) = some ⟨0x1000000⟩ ∧
      ((Machine.uniprocessor.after (mapsRoot ++ [{ order := .run }])).map fun m =>
        (m.vms[0]?.join.map fun v => v.context.regs.rbx, m.page? 0 ⟨Layout.memoryMap⟩)) =
          some (some 0x6000, none) := by
  decide +kernel

end Session

end Hypervisor
