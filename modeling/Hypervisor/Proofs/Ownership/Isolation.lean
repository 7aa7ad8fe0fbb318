import Hypervisor.Proofs.Ownership.History

/-!
# Isolation of guests

As long as callers share no page, no page of memory backs two addresses, whether of one guest or of
two, and no guest reaches a page that serves the hypervisor.  Only the text buffer is there for all
guests, each of which has it in its place.
-/

namespace Hypervisor

namespace Memory.Sound

variable {m : Memory} {e : Estate} {I : Prop} {a : Account} {p r r' : Hpa} {n n' : PageNumber}
  {perm perm' : Permission}

theorem translation_of_walk (h : m.Sound e I a) {t : Ept} (hroot : t.root = some r)
    (hr : r ∈ e.roots) {g : Gpa} {entry : Entry} {m' : Memory}
    (hrun : (t.walk g).run m = .ok entry m') (hp : entry.target = some p) :
    m.translation r g.number = some (p, entry.permission) := by
  have hends := Ept.walk_ends (g := g) (P := True) hroot fun _ => ⟨h.balanced, h.level hr⟩
  obtain ⟨-, hmap⟩ := hends.ok hrun
  rw [← (hmap trivial).2]
  exact Entry.mapping_eq_some.2 ⟨hp, rfl⟩

/-- A page with one reference backs one address. -/
theorem translation_inj (h : m.Sound e I a) (hone : m.refs p ≤ 1) (hr : r ∈ e.roots)
    (hr' : r' ∈ e.roots) (hp : m.translation r n = some (p, perm))
    (hp' : m.translation r' n' = some (p, perm')) : r = r' ∧ n = n' := by
  rw [translation, Shape.translationFrom_eq] at hp hp'
  obtain ⟨s, hs, hmap⟩ := Option.bind_eq_some_iff.1 hp
  obtain ⟨s', hs', hmap'⟩ := Option.bind_eq_some_iff.1 hp'
  have hshape := h.balanced.shape
  have hleaf : a.level s.table = some 0 ∧ (m.entry s).target = some p :=
    ⟨hshape.level_of_leafFrom (h.level hr) hs, (Entry.mapping_eq_some.1 hmap).1⟩
  have hleaf' : a.level s'.table = some 0 ∧ (m.entry s').target = some p :=
    ⟨hshape.level_of_leafFrom (h.level hr') hs', (Entry.mapping_eq_some.1 hmap').1⟩
  have hsame : s = s' := by
    by_contra hne
    have htwo : 1 < a.leaves m.entry p := (Set.one_lt_ncard).2 ⟨s, hleaf, s', hleaf', hne⟩
    have hledger := h.balanced.ledger p
    omega
  subst s'
  obtain ⟨htable, hdigits⟩ := hshape.leafFrom_inj (h.level hr) (h.level hr') hs hs'
  exact ⟨htable, PageNumber.ext_digits fun l hl => hdigits l (Nat.le_of_lt_succ hl)⟩

end Memory.Sound

namespace Machine

def roots (m : Machine) : Set Hpa := {r | r ∈ (m.estate {}).roots}

/-- The page that the guest with an index has where an address is. -/
def page? (m : Machine) (j : Nat) (g : Gpa) : Option Hpa :=
  m.vms[j]?.join.bind fun v =>
    match (v.guest.table.walk g).run m.memory with
    | .ok entry _ => entry.target
    | .error _ _ => none

/-- The page serves the hypervisor: it is the video buffer, a table, a page that a guest has besides
its memory, or one that a cpu gave up. -/
inductive Serves (m : Machine) (p : Hpa) : Prop
  | buffer (eq : p = ⟨videoBuffer⟩)
  | table {level : Nat} (table : m.memory.Table m.roots level p)
  | guest {j : Nat} {v : Vm} (vm : m.vms[j]? = some (some v)) (mem : p ∈ v.guest.ownPages)
  | cpu {c : Cpu} (cpu : c ∈ m.cpus) (region : c.region = some p)

/-- What callers ask for is theirs, and they share no page. -/
def Isolated (c : Command) (m : Machine) (k : Callers) : Prop := c.Lawful m k ∧ c.order.Isolates

variable {m : Machine} {k : Callers} {I : Prop} {i j : Nat} {v w : Vm} {r p : Hpa} {g : Gpa}

/-- No two guests have one root. -/
theorem eq_of_root_eq (h : (m.estate k).roles.Nodup) (hv : m.vms[i]? = some (some v))
    (hw : m.vms[j]? = some (some w)) (hr : v.guest.table.root = some r)
    (hr' : w.guest.table.root = some r) : i = j := by
  by_contra hne
  have hleft : (m.vms.setIfInBounds i none)[j]? = some (some w) := by
    rw [Array.getElem?_setIfInBounds_ne hne]
    exact hw
  have hmem := mem_roots_of_vm (m := { m with vms := m.vms.setIfInBounds i none }) (k := k)
    (Array.mem_of_getElem? hleft) hr'
  rw [estate_take_vm hv, Estate.lodge_eq hr, Estate.roles_plant] at h
  exact (Multiset.nodup_cons.1 h).1 (Estate.mem_roles.2 (.inr (.inl hmem)))

/-- What a guest has at an address is what its table translates the address to. -/
theorem translation_of_page? (hp : m.page? j g = some p) (h : m.Orderly k I) {a : Account}
    (ha : m.memory.Sound (m.estate k) I a) : ∃ v r perm, m.vms[j]? = some (some v) ∧
      v.guest.table.root = some r ∧ r ∈ (m.estate k).roots ∧
        m.memory.translation r g.number = some (p, perm) := by
  obtain ⟨v, hv, hwalk⟩ := Option.bind_eq_some_iff.1 hp
  have hvm := Option.join_eq_some_iff.1 hv
  obtain ⟨r, hg⟩ := h.lodged hvm
  split at hwalk
  · exact ⟨v, r, _, hvm, hg.root, hg.mem, ha.translation_of_walk hg.root hg.mem ‹_› hwalk⟩
  · cases hwalk

/-- What a guest has at an address serves nothing else. -/
theorem not_serves (hp : m.page? j g = some p) (h : m.Orderly k I) (hf : m.memory.Fits)
    (hbuffer : p ≠ ⟨videoBuffer⟩) : ¬m.Serves p := by
  obtain ⟨a, ha⟩ := h.owned hf
  obtain ⟨v, r, perm, -, -, hr, htranslation⟩ := translation_of_page? hp h ha
  obtain ⟨hlevel, hother⟩ := ha.separate hr htranslation
  intro hserves
  cases hserves with
  | buffer he => exact hbuffer he
  | table htable =>
      rw [ha.table_iff.1 htable] at hlevel
      cases hlevel
  | guest hw hmem => exact hother (mem_others_of_vm (Array.mem_of_getElem? hw) hmem)
  | cpu hc hregion => exact hother (mem_others_of_cpu hc hregion)

/-- As long as no page is shared, what a guest has at the place of the text buffer is the video
buffer, and what it has elsewhere serves nothing else; and a guest has the same page at another
address only if both addresses are in the place of the text buffer. -/
theorem pages_isolated (h : History Isolated m k) (hf : m.memory.Fits)
    (hp : m.page? j g = some p) :
    (g.number = Region.bufferNumber → p = ⟨videoBuffer⟩) ∧
      (g.number ≠ Region.bufferNumber → ¬m.Serves p) ∧
      ∀ i g', m.page? i g' = some p → i = j ∧ g'.number = g.number ∨
        g'.number = Region.bufferNumber ∧ g.number = Region.bufferNumber := by
  have hk : m.Orderly k True := h.orderly (fun hc => hc.1) fun _ => fun hc => hc.2
  obtain ⟨a, ha⟩ := hk.owned hf
  have hisolated := ha.isolated trivial
  obtain ⟨v, r, perm, hv, hroot, hr, htranslation⟩ := translation_of_page? hp hk ha
  have hbuffer := hisolated.buffer r hr g.number p perm htranslation
  refine ⟨hbuffer.2, fun hg => not_serves hp hk hf (mt hbuffer.1 hg), fun i g' hp' => ?_⟩
  obtain ⟨w, r', perm', hw, hroot', hr', htranslation'⟩ := translation_of_page? hp' hk ha
  have hbuffer' := hisolated.buffer r' hr' g'.number p perm' htranslation'
  by_cases hvideo : p = ⟨videoBuffer⟩
  · exact .inr ⟨hbuffer'.1 hvideo, hbuffer.1 hvideo⟩
  · obtain ⟨rfl, hnumber⟩ :=
      ha.translation_inj (hisolated.single p hvideo) hr' hr htranslation' htranslation
    exact .inl ⟨eq_of_root_eq ha.nodup hw hv hroot' hroot, hnumber⟩

def touches : List Command :=
  [{ order := .build {} }, { order := .build {} },
   { order := .access Layout.defaultSize ⟨0x5123⟩ },
   { vm := 1, order := .access Layout.defaultSize ⟨0x5123⟩ }]

/-- The page that the first of them gets there is not the second one's. -/
theorem pages_isolated_touches : ∃ m k, History Isolated m k ∧ m.memory.Fits ∧
    m.page? 0 ⟨0x5000⟩ = some ⟨0x100a000⟩ ∧ m.page? 1 ⟨0x5000⟩ ≠ some ⟨0x100a000⟩ := by
  have hsize : Layout.defaultSize.toNat ≤ 2 ^ 48 := by decide
  have hallowed : ∀ c ∈ touches, ∀ m k, Isolated c m k := by
    intro c hc m k
    simp only [touches, List.mem_cons, List.not_mem_nil, or_false] at hc
    rcases hc with rfl | rfl | rfl | rfl <;> exact ⟨trivial, hsize⟩
  obtain ⟨m, k, h, hf, hp⟩ := (History.booted uniprocessor_booted).exists_after
    (P := fun m => m.memory.Fits ∧ m.page? 0 ⟨0x5000⟩ = some ⟨0x100a000⟩) hallowed
    (by decide +kernel)
  refine ⟨m, k, h, hf, hp, fun hp' => ?_⟩
  rcases (pages_isolated h hf hp).2.2 1 _ hp' with ⟨hvm, -⟩ | ⟨hplace, -⟩
  · exact absurd hvm (by decide)
  · exact absurd hplace (by decide)

end Machine

end Hypervisor
