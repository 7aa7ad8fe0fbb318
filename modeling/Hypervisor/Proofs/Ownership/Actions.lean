import Hypervisor.Proofs.Ept.Reachable
import Hypervisor.Proofs.Ownership.Estate

/-!
# Memory actions and ownership

Each action on memory leads from a sound memory to a sound memory, whether it succeeds or fails, and
what it fails to finish it gives back.
-/

namespace Hypervisor

namespace Memory

/-- The memory is sound for the estate, with some account. -/
def Owned (m : Memory) (e : Estate) (isolated : Prop) : Prop := ∃ a, m.Sound e isolated a

/-- The page is neither a table nor in another role. -/
def Unowned (m : Memory) (e : Estate) (p : Hpa) : Prop :=
  (∀ k, ¬m.Table {r | r ∈ e.roots} k p) ∧ p ∉ e.others

variable {m m' : Memory} {e : Estate} {I : Prop} {a : Account} {p root : Hpa}

namespace Sound

theorem table_iff (h : m.Sound e I a) {k : Nat} :
    m.Table {r | r ∈ e.roots} k p ↔ a.level p = some k :=
  Memory.table_iff h.balanced.shape h.rooted fun _ hr => h.level hr

theorem level_of_unowned (h : m.Sound e I a) (hp : m.Unowned e p) : a.level p = none := by
  cases hk : a.level p with
  | none => rfl
  | some k => exact absurd (h.table_iff.2 hk) (hp.1 k)

theorem unowned_iff (h : m.Sound e I a) : m.Unowned e p ↔ a.level p = none ∧ p ∉ e.others := by
  refine ⟨fun hp => ⟨h.level_of_unowned hp, hp.2⟩, fun hp => ⟨fun k hk => ?_, hp.2⟩⟩
  cases hp.1.symm.trans (h.table_iff.1 hk)

end Sound

theorem Owned.of_pages_eq (h : m.Owned e I) (hpages : m'.pages = m.pages)
    (hnext : m'.next = m.next) : m'.Owned e I := by
  obtain ⟨a, h⟩ := h
  exact ⟨a, h.of_pages_eq hpages hnext⟩

end Memory

namespace Region

theorem number_of_videoBuffer {g : Gpa} {physSize : UInt64} (h : of g physSize = videoBuffer) :
    g.number = bufferNumber := by
  obtain ⟨hlow, hhigh⟩ := of_eq_videoBuffer.1 h
  apply BitVec.eq_of_toNat_eq
  rw [Address.toNat_number, show bufferNumber.toNat = 0xb8 from rfl]
  omega

theorem number_of_ram {g : Gpa} {physSize : UInt64} (h : of g physSize = ram)
    (hsize : physSize.toNat ≤ 2 ^ 48) : g.number ≠ bufferNumber := by
  intro he
  have hnumber := congrArg BitVec.toNat he
  rw [Address.toNat_number, show bufferNumber.toNat = 0xb8 from rfl] at hnumber
  have hram := of_eq_ram.1 h
  omega

theorem bufferNumber_notMem {physSize : UInt64} (hsize : physSize.toNat ≤ 2 ^ 48) :
    bufferNumber ∉ ramNumbers physSize := by
  rintro ⟨g, -, hram, hn⟩
  exact number_of_ram hram hsize hn

end Region

namespace Ept

open Hypervisor.Action Memory

variable {F : Panic → Prop} {m : Memory} {e : Estate} {I : Prop} {tab : Ept} {root : Hpa} {g : Gpa}
  {ε : Type}

theorem lookup_owned (hroot : tab.root = some root) (hmem : root ∈ e.roots) (create : Bool) :
    (tab.lookup g create).Safe F m (m.Owned e I)
      (fun s m' => ∃ a, m'.Sound e I a ∧ a.level s.table = some 0) (fun _ m' => m'.Owned e I) := by
  apply Safe.exists
  intro a
  refine (lookup_safe (a := a) hroot).mono (fun _ h => ⟨h.balanced, h.level hmem⟩) ?_ ?_
  · rintro s m' - - h ⟨a', hext, hs⟩
    have h' := h.of_extends hext
    exact ⟨a', h', h'.balanced.shape.level_of_leafFrom (h'.level hmem) hs⟩
  · rintro err m' - - h ⟨a', hext⟩
    exact ⟨a', h.of_extends hext⟩

theorem edit_owned (hroot : tab.root = some root) (hmem : root ∈ e.roots) (create : Bool) :
    (tab.edit g create []).Safe F m (m.Owned e I) (fun _ m' => m'.Owned e I)
      (fun _ m' => m'.Owned e I) := by
  refine Safe.bind_exists (lookup_owned hroot hmem create) fun a s m' => ?_
  refine Safe.last ?_
  exact Slot.read_bind (fun h => h.2.1.balanced.table_pageDown_live h.2.2)
    (Safe.pure fun _ h => ⟨a, h.2.1⟩)

theorem walk_owned (hroot : tab.root = some root) (hmem : root ∈ e.roots) :
    (tab.walk g).Safe F m (m.Owned e I) (fun _ m' => m'.Owned e I) (fun _ m' => m'.Owned e I) := by
  apply Safe.exists
  intro a
  have hP : m.Sound e I a → m.Balanced a ∧ a.level root = some 3 :=
    fun h => ⟨h.balanced, h.level hmem⟩
  refine Ends.mono (walk_ends hroot hP) ?_ ?_ ?_
  · rintro entry m' ⟨rfl, -⟩
    exact ⟨Nat.le_refl _, fun _ h => ⟨a, h⟩⟩
  · rintro err m' ⟨rfl, -⟩
    exact ⟨Nat.le_refl _, fun _ h => ⟨a, h⟩⟩
  · rintro p m' ⟨rfl, hnot⟩
    exact ⟨Nat.le_refl _, fun _ h => absurd h hnot⟩

theorem resolve_owned (hroot : tab.root = some root) (hmem : root ∈ e.roots) :
    (tab.resolve g : MemoryM ε (Option Hva)).Safe F m (m.Owned e I)
      (fun v m' => ∃ a, m'.Sound e I a ∧ v = (m'.translation root g.number).map (backing g))
      (fun _ _ => False) := by
  apply Safe.exists
  intro a
  have hP : m.Sound e I a → m.Balanced a ∧ a.level root = some 3 :=
    fun h => ⟨h.balanced, h.level hmem⟩
  refine Ends.mono (resolve_ends (E := fun _ _ => False) hroot hP) ?_ (fun _ _ => False.elim) ?_
  · rintro v m' ⟨rfl, hv⟩
    exact ⟨Nat.le_refl _, fun _ h => ⟨a, h, hv h⟩⟩
  · rintro p m' ⟨rfl, hnot⟩
    exact ⟨Nat.le_refl _, fun _ h => absurd h hnot⟩

theorem map_owned (hroot : tab.root = some root) (hmem : root ∈ e.roots) (hI : ¬I) (source : Hva)
    (perm : Permission) (overwrite : Bool)
    (hsource : ∀ p, m.physical? source = some p → m.Unowned e p.pageDown) :
    (tab.map source g perm overwrite).Safe F m (m.Owned e I) (fun _ m' => m'.Owned e I)
      (fun _ m' => m'.Owned e I) := by
  apply Safe.exists
  intro a
  refine (map_safe (a := a) hroot source g perm overwrite).mono
    (fun _ h => ⟨h.balanced, h.level hmem⟩) ?_ ?_
  · rintro _ m' - - h ⟨a', p, hp, hlive, -, hmaps⟩
    have hfree := hsource p hp
    rw [Address.pageDown_of_isPageAligned (h.balanced.page hlive).1] at hfree
    exact ⟨a', h.of_maps hlive (h.level_of_unowned hfree) hfree.2 (fun hi => absurd hi hI) hmaps⟩
  · rintro err m' - - h ⟨a', hext⟩
    exact ⟨a', h.of_extends hext⟩

theorem insertPage_owned (hroot : tab.root = some root) (hmem : root ∈ e.roots) (hI : ¬I) (p : Hpa)
    (perm : Permission) (hlive : p.pageDown ∈ m.pages) (hfree : m.Unowned e p.pageDown) :
    (tab.insertPage p g perm).Safe F m (m.Owned e I) (fun _ m' => m'.Owned e I)
      (fun _ m' => m'.Owned e I) := by
  refine virtual_bind (fun _ => hlive) (map_owned hroot hmem hI _ perm false ?_)
  intro q hq
  cases (physical?_virtual hlive).symm.trans hq
  exact hfree

theorem populateAll_owned (hroot : tab.root = some root) (hmem : root ∈ e.roots)
    (physSize : UInt64) (hsize : I → physSize.toNat ≤ 2 ^ 48) :
    (tab.populateAll physSize).Safe F m (m.Owned e I) (fun _ m' => m'.Owned e I)
      (fun _ m' => m'.Owned e I) := by
  apply Safe.exists
  intro a
  refine (populateAll_safe (a := a) hroot physSize).mono (fun _ h => ⟨h.balanced, h.level hmem⟩)
    ?_ ?_
  · rintro _ m' - - h ⟨a', hpop⟩
    exact ⟨a', h.of_populates (fun hi => Region.bufferNumber_notMem (hsize hi)) hpop⟩
  · rintro err m' - - h ⟨a', S, hS, hpop⟩
    exact ⟨a', h.of_populates (fun hi hn => Region.bufferNumber_notMem (hsize hi) (hS hn)) hpop⟩

/-- The page of an address that the guest touched is backed by a new page, or by the video buffer in
its own place. -/
theorem onAccess_owned (hroot : tab.root = some root) (hmem : root ∈ e.roots) (physSize : UInt64)
    (hsize : I → physSize.toNat ≤ 2 ^ 48) :
    (tab.onAccess physSize g).Safe F m (m.Owned e I) (fun _ m' => m'.Owned e I)
      (fun _ m' => m'.Owned e I) := by
  apply Safe.exists
  intro a
  refine (onAccess_safe (a := a) hroot physSize).mono
    (fun _ h => ⟨h.balanced, h.level hmem, h.buffer_live⟩) ?_ ?_
  · rintro fault m' - - h ⟨a', haccess⟩
    cases haccess with
    | ram hregion hpop =>
        refine ⟨a', h.of_populates (fun hi hn => ?_) hpop⟩
        exact Region.number_of_ram hregion (hsize hi) (Set.mem_singleton_iff.1 hn).symm
    | videoBuffer hregion _ hmaps =>
        refine ⟨a', h.of_maps h.buffer_live h.buffer h.buffer_notMem_others (fun _ => ?_) hmaps⟩
        exact ⟨rfl, Region.number_of_videoBuffer hregion⟩
    | unmapped => exact ⟨a, h⟩
  · rintro err m' - - h ⟨a', hext⟩
    exact ⟨a', h.of_extends hext⟩

end Ept

namespace Estate

variable {e : Estate} {p : Hpa} {l : List Hpa}

def giveAll (e : Estate) (l : List Hpa) : Estate := { e with others := l + e.others }

theorem giveAll_nil : e.giveAll [] = e := by
  rw [giveAll, Multiset.coe_nil, Multiset.zero_add]

theorem giveAll_cons : e.giveAll (p :: l) = (e.giveAll l).give p := by
  rw [giveAll, give, giveAll, ← Multiset.cons_coe, Multiset.cons_add]

theorem giveAll_concat : e.giveAll (l ++ [p]) = (e.giveAll l).give p := by
  rw [← giveAll_cons, giveAll, giveAll, Multiset.coe_eq_coe.2 (List.perm_append_singleton p l)]

end Estate

namespace Memory

open Hypervisor.Action

variable {F : Panic → Prop} {m : Memory} {e : Estate} {I : Prop} {ε : Type}

theorem editPage_owned {p : Hpa} {f : PageWords → PageWords}
    (hmem : ∀ {m : Memory} {a : Account}, m.Sound e I a → p.pageDown ∈ e.others) :
    (editPage p f : MemoryM ε Unit).Safe F m (m.Owned e I) (fun _ m' => m'.Owned e I)
      (fun _ _ => False) := by
  refine pageWords_bind ?_ (Safe.last (updatePage_bind (Safe.pure ?_)))
  · rintro ⟨a, h⟩
    exact h.other_live (hmem h)
  · rintro - ⟨a, h⟩
    exact ⟨a, h.edited (h.other (hmem h))⟩

theorem release_lasts {K : Memory → Prop} {p : Hpa}
    (hK : ∀ {m a}, m.Sound (e.give p) I a → K m → K (m.released p)) :
    (release p : MemoryM ε Unit).Safe F m (m.Owned (e.give p) I ∧ K m)
      (fun _ m' => m'.Owned e I ∧ K m') (fun _ _ => False) := by
  refine Safe.last (release_bind ?_ (Safe.pure ?_))
  · rintro ⟨⟨a, h⟩, -⟩
    have hmem : p ∈ (e.give p).others := Multiset.mem_cons_self p e.others
    exact Nat.lt_of_lt_of_le (h.held_pos (Estate.mem_roles.2 (.inr (.inr hmem))))
      (h.balanced.held_le_refs p)
  · rintro - ⟨⟨a, h⟩, hk⟩
    exact ⟨⟨_, h.giveBack⟩, hK h hk⟩

theorem release_owned {p : Hpa} :
    (release p : MemoryM ε Unit).Safe F m (m.Owned (e.give p) I) (fun _ m' => m'.Owned e I)
      (fun _ _ => False) :=
  (release_lasts (K := fun _ => True) fun _ _ => trivial).mono (fun _ h => ⟨h, trivial⟩)
    (fun _ _ _ _ _ h => h.1) fun _ _ _ _ _ he => he

def Lasts (K : Memory → Prop) (e : Estate) (I : Prop) : Prop :=
  ∀ {m a l p}, m.Sound ((e.giveAll l).give p) I a → K m → K (m.released p)

theorem releaseAll_lasts {K : Memory → Prop} (hK : Lasts K e I) (l : List Hpa) :
    (l.forM release : MemoryM ε Unit).Safe F m (m.Owned (e.giveAll l) I ∧ K m)
      (fun _ m' => m'.Owned e I ∧ K m') (fun _ _ => False) := by
  induction l generalizing m with
  | nil =>
      apply Safe.pure
      intro _ h
      rwa [Estate.giveAll_nil] at h
  | cons p l ih =>
      rw [Estate.giveAll_cons]
      exact Safe.bind (release_lasts hK) fun _ m' => ih.assume fun _ h => h.2

def Granted (m : Memory) (e : Estate) (I : Prop) (l : List Hpa) : Prop :=
  m.Owned (e.giveAll l) I ∧ ∀ p ∈ l, m.words p = .zero

theorem Granted.concat {m' : Memory} {l : List Hpa} {p : Hpa} (h : m.Granted e I l)
    (hm : m.Allocates m' p) : m'.Granted e I (l ++ [p]) := by
  obtain ⟨⟨a, h⟩, hzero⟩ := h
  have hgive := h.give hm
  rw [← Estate.giveAll_concat] at hgive
  refine ⟨⟨_, hgive⟩, fun q hq => ?_⟩
  have hmem : q ∈ (e.giveAll (l ++ [p])).others := Multiset.mem_add.2 (.inl hq)
  rw [hm.words, hgive.other_pageDown hmem]
  split_ifs with he
  · rfl
  · rw [List.mem_append, List.mem_singleton] at hq
    exact hzero q (hq.resolve_right he)

structure Carried (K : Memory → Prop) (e : Estate) (I : Prop) : Prop where
  pages : ∀ {m m' a l}, m.Sound (e.giveAll l) I a → m'.pages = m.pages → K m → K m'
  allocates : ∀ {m m' a l p}, m.Sound (e.giveAll l) I a → m.Allocates m' p → K m → K m'
  edited : ∀ {m a l p} f, m.Sound (e.giveAll l) I a → p.pageDown ∈ l → K m → K (m.edited p f)
  lasts : Lasts K e I

theorem carried_true : Carried (fun _ => True) e I where
  pages := fun _ _ _ => trivial
  allocates := fun _ _ _ => trivial
  edited := fun _ _ _ _ => trivial
  lasts := fun _ _ => trivial

theorem release_carries {K : Memory → Prop} (hK : Carried K e I) {p : Hpa} :
    (release p : MemoryM ε Unit).Safe F m (m.Owned (e.give p) I ∧ K m)
      (fun _ m' => m'.Owned e I ∧ K m') (fun _ _ => False) := by
  refine release_lasts fun {m a} h => hK.lasts (l := []) (a := a) ?_
  rwa [Estate.giveAll_nil]

theorem allocRetained_carries {K : Memory → Prop} (hK : Carried K e I) :
    (allocRetained : MemoryM ε (Option Hpa)).Safe F m (m.Owned e I ∧ K m)
      (fun r m' => m'.Owned (e.giveAll r.toList) I ∧ K m') (fun _ _ => False) := by
  refine Safe.last (allocRetained_bind (fun m' hpages hnext => ?_) fun m' p hm => ?_)
  · refine Safe.pure fun _ ⟨⟨a, h⟩, hk⟩ => ?_
    rw [Option.toList_none, Estate.giveAll_nil]
    refine ⟨⟨a, h.of_pages_eq hpages hnext⟩, ?_⟩
    rw [← Estate.giveAll_nil (e := e)] at h
    exact hK.pages h hpages hk
  · refine Safe.pure fun _ ⟨⟨a, h⟩, hk⟩ => ?_
    rw [Option.toList_some, Estate.giveAll_cons, Estate.giveAll_nil]
    refine ⟨⟨_, h.give hm⟩, ?_⟩
    rw [← Estate.giveAll_nil (e := e)] at h
    exact hK.allocates h hm hk

theorem allocRetained_owned :
    (allocRetained : MemoryM ε (Option Hpa)).Safe F m (m.Owned e I)
      (fun r m' => m'.Owned (e.giveAll r.toList) I) (fun _ _ => False) :=
  (allocRetained_carries carried_true).mono (fun _ h => ⟨h, trivial⟩) (fun _ _ _ _ _ h => h.1)
    fun _ _ _ _ _ he => he

/-- Either all pages are allocated, or none of them is kept. -/
theorem allocRetainedMany_carries {K : Memory → Prop} (hK : Carried K e I) (n : Nat) :
    (allocRetainedMany n : MemoryM ε (Option (Vector Hpa n))).Safe F m (m.Owned e I ∧ K m)
      (fun r m' => m'.Granted e I (r.elim [] Vector.toList) ∧ K m') (fun _ _ => False) := by
  have hnothing : ∀ {m : Memory}, m.Owned e I → m.Granted e I [] := by
    intro m h
    refine ⟨?_, fun p hp => nomatch hp⟩
    rwa [Estate.giveAll_nil]
  induction n with
  | zero => exact Safe.pure fun _ h => ⟨hnothing h.1, h.2⟩
  | succ n ih =>
      refine Safe.bind ih fun r m₁ => ?_
      cases r with
      | none => exact Safe.pure fun _ h => h.2
      | some taken =>
          refine allocRetained_bind (fun m₂ hpages hnext => ?_) fun m₂ p hm => ?_
          · refine Safe.bind (R := fun _ m' => m'.Owned e I ∧ K m') ((releaseAll_lasts hK.lasts _).mono
              ?_ (fun _ _ _ _ _ h => h) fun _ _ _ _ _ h => h.elim) fun _ m₃ =>
                Safe.pure fun _ h => ⟨hnothing h.2.1, h.2.2⟩
            rintro - ⟨-, ⟨⟨a, hsound⟩, -⟩, hk⟩
            exact ⟨⟨a, hsound.of_pages_eq hpages hnext⟩, hK.pages hsound hpages hk⟩
          · refine Safe.pure fun _ h => ?_
            obtain ⟨a, hsound⟩ := h.2.1.1
            simp only [Option.elim_some, Vector.toList_push]
            exact ⟨h.2.1.concat hm, hK.allocates hsound hm h.2.2⟩

end Memory

end Hypervisor
