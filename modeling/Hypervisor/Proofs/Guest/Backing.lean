import Hypervisor.Proofs.Guest.Construction

/-!
# Backing all memory at once, or each page when it is touched

Both are runs over a list that has the start of each page of memory once, in some order.  Whatever the
order, such a run leaves the same addresses backed, and as many pages as the layout of guest memory
asks for: one for each page of memory, and the tables on the way to them.
-/

namespace Hypervisor

open Hypervisor.Action Memory

namespace Region

/-- The number of tables of a level on the way to the memory of a guest. -/
def tables (physSize : UInt64) (level : Nat) : Nat :=
  max 1 ((physSize.toNat / 4096 + 512 ^ (level + 1) - 1) / 512 ^ (level + 1))

/-- The number of pages that a table needs, besides its root, to back the memory of a guest. -/
def footprint (physSize : UInt64) : Nat :=
  160 + (physSize.toNat / 4096 - 256) + ∑ level ∈ Finset.range 3, tables physSize level

/-- The first table of a level is needed for low memory, and the others as far as memory goes. -/
theorem ncard_stem_ramNumbers {physSize : UInt64} (hsize : physSize.toNat ≤ 2 ^ 48)
    (haligned : physSize.toNat % 4096 = 0) (level : Nat) :
    ((fun n : PageNumber => n.stem (level + 1)) '' ramNumbers physSize).ncard =
      tables physSize level := by
  have hspan : 512 ≤ 512 ^ (level + 1) := by
    rw [pow_succ]
    exact Nat.le_mul_of_pos_left 512 (Nat.pow_pos (by decide))
  generalize hd : 512 ^ (level + 1) = d at hspan
  have himage : (fun n : PageNumber => n.stem (level + 1)) '' ramNumbers physSize =
      ↑(Finset.range (tables physSize level)) := by
    ext i
    have hlast : i < (physSize.toNat / 4096 + d - 1) / d ↔ i * d < physSize.toNat / 4096 := by
      rw [Nat.lt_iff_add_one_le, Nat.le_div_iff_mul_le (by omega), Nat.add_mul]
      omega
    simp only [Set.mem_image, mem_ramNumbers hsize, PageNumber.stem, Finset.coe_range, Set.mem_Iio,
      tables, hd, lt_max_iff, hlast]
    constructor
    · rintro ⟨n, hn | hn, rfl⟩
      · exact .inl (by rw [Nat.div_eq_of_lt (by omega)]; decide)
      · have hle := Nat.div_mul_le_self n.toNat d
        exact .inr (by omega)
    · intro hi
      obtain rfl | hpos := Nat.eq_zero_or_pos i
      · exact ⟨0, .inl (by decide), by simp⟩
      · have hlt : i * d < physSize.toNat / 4096 := hi.resolve_left (by omega)
        have hge : d ≤ i * d := Nat.le_mul_of_pos_left d hpos
        refine ⟨BitVec.ofNat 36 (i * d), .inr ?_, ?_⟩ <;>
          rw [BitVec.toNat_ofNat, Nat.mod_eq_of_lt (show i * d < 2 ^ 36 by omega)]
        · omega
        · exact Nat.mul_div_cancel i (by omega)
  rw [himage, Set.ncard_coe_finset, Finset.card_range]

structure Covered (physSize : UInt64) (l : List Gpa) : Prop where
  aligned : ∀ g ∈ l, g.isPageAligned = true
  distinct : (l.map Address.number).Nodup
  all : {n | ∃ g ∈ l, g.number = n} = ramNumbers physSize

end Region

namespace Ept

variable {m m' : Memory} {a' : Account} {t : Ept} {root : Hpa} {physSize : UInt64}

/-- The table is no more than an empty root, to which there is one reference. -/
structure Blank (t : Ept) (root : Hpa) (m : Memory) : Prop where
  rooted : t.root = some root
  regular : m.Regular
  single : m.refs root = 1
  zero : m.words root = .zero

/-- All of the memory of a guest is backed, and nothing else was done. -/
structure Backs (t : Ept) (physSize : UInt64) (m m' : Memory) : Prop where
  ram : ∀ g : Gpa, g.val.toNat < 2 ^ 48 → (t.resolve g : MemoryM VmError (Option Hva)).Ends m'
    (fun v m'' => m'' = m' ∧ (v.isSome ↔ Region.of g physSize = .ram)) (fun _ _ => False)
    fun _ _ => False
  full : ∀ g : Gpa, (t.walk g).Ends m' (fun e _ => e.permission = Permission.full) (fun _ _ => True)
    fun _ _ => False
  kept : ∀ p ∈ m.pages, p ∈ m'.pages ∧ m'.refs p = m.refs p
  single : ∀ p ∈ m'.pages, p ∉ m.pages → m'.refs p = 1
  size : m'.pages.size = m.pages.size + Region.footprint physSize

def blankAccount (m : Memory) (root : Hpa) : Account :=
  (Account.bare m.refs (· ∈ (m.released root).pages)).plant root 3 none

theorem Blank.of_allocates (h : m.Regular) (hm : m.Allocates m' root) : Blank ⟨some root⟩ root m' := by
  have hfree : root ∉ m.pages := h.next_notMem hm.address
  have hlive : root ∈ m'.pages := hm.mem.2 (.inl rfl)
  refine ⟨rfl, h.allocates hm, ?_, ?_⟩
  · rw [hm.refs hfree, refs_eq_zero_of_notMem hfree, if_pos rfl]
  · rw [hm.words, Address.pageDown_of_isPageAligned ((h.allocates hm).page hlive).1, if_pos rfl]

theorem Blank.furnished (h : t.Blank root m) :
    (m.released root).Furnished {root} root m (blankAccount m root) :=
  .of_adds h.regular (Adds.of_released h.single) rfl h.zero

theorem Blank.mapped (h : t.Blank root m) (n : PageNumber) : m.mapped root n = none := by
  rw [Memory.mapped, Option.map_eq_none_iff]
  exact Shape.translationFrom_of_empty fun i => entry_of_words_eq_zero h.zero

theorem number_mem_ramNumbers {g : Gpa} (hsize : physSize.toNat ≤ 2 ^ 48)
    (haligned : physSize.toNat % 4096 = 0) (hg : g.val.toNat < 2 ^ 48) :
    g.number ∈ Region.ramNumbers physSize ↔ Region.of g physSize = .ram := by
  rw [Region.mem_ramNumbers hsize, Region.of_eq_ram, Address.toNat_number,
    Nat.mod_eq_of_lt (show g.val.toNat / 4096 < 2 ^ 36 by omega)]
  omega

/-- A table that was blank before its pages were filled. -/
theorem Blank.backs (h : t.Blank root m) (hsize : physSize.toNat ≤ 2 ^ 48)
    (haligned : physSize.toNat % 4096 = 0)
    (hfills : m.Fills (blankAccount m root) root (Region.ramNumbers physSize) m' a') :
    t.Backs physSize m m' := by
  have hstart := h.furnished
  have hend := hstart.of_keeps hfills.toKeeps
  have hstocks := hend.stocks (hfills.tailored hstart h.zero)
  have hknown : True → m'.Balanced a' ∧ a'.level root = some 3 := fun _ => ⟨hend.balanced, hend.level⟩
  have htranslation : ∀ {n}, (m'.translation root n).isSome ↔ n ∈ Region.ramNumbers physSize := by
    intro n
    rw [hstocks.maps n, Memory.mapped, Option.isSome_map]
  refine ⟨fun g hg => ?_, fun g => ?_, fun p hp => ⟨hfills.live hp, hfills.refs hp⟩,
    fun p hp hnew => ?_, ?_⟩
  · refine Ends.mono (resolve_ends (E := fun _ _ => False) h.rooted hknown) ?_ (fun _ _ he => he)
      fun _ _ hp => hp.2 trivial
    rintro v m'' ⟨hm, hv⟩
    rw [hv trivial, Option.isSome_map, htranslation]
    exact ⟨hm, number_mem_ramNumbers hsize haligned hg⟩
  · refine Ends.mono (walk_ends h.rooted hknown) ?_ (fun _ _ _ => trivial) fun _ _ hp => hp.2 trivial
    rintro e m'' ⟨-, he⟩
    obtain ⟨hsome, hmapping⟩ := he trivial
    rw [hmapping, htranslation] at hsome
    obtain ⟨-, p, -, hp⟩ := hfills.inside hsome
    exact (Entry.mapping_eq_some.1 (hmapping.trans hp)).2
  · exact hend.refs_eq_one hp fun hold => hnew (mem_released.1 hold).1
  · rw [hstocks.adds.size, (Adds.of_released h.single).size, Set.ncard_union_eq hstocks.apart,
      Set.ncard_union_eq hstocks.disjoint, hstocks.backing, hstocks.tables,
      Region.ncard_ramNumbers hsize haligned, Region.footprint]
    simp only [Region.ncard_stem_ramNumbers hsize haligned]
    omega

/-- Backing each page of memory once backs all of it, in whatever order, and it only fails when an
allocation is refused. -/
theorem Blank.populateEach (h : t.Blank root m) (hsize : physSize.toNat ≤ 2 ^ 48)
    (haligned : physSize.toNat % 4096 = 0) {l : List Gpa} (hl : Region.Covered physSize l) :
    (l.forM t.populate).Ends m
      (fun _ m' => m'.Fits → m'.refused = m.refused ∧ t.Backs physSize m m')
      (fun e m' => m'.Fits → m'.refused = m.refused + 1 ∧ e = .noMemory) fun _ m' => ¬m'.Fits := by
  have hfills := (populateEach_fills (F := fun _ => False) (a := blankAccount m root) h.rooted l).ends
    fun _ => ⟨h.furnished.balanced, h.furnished.level⟩
  have hblames := populateEach_blames (k := m.refused) t l
  have hvacant : Vacant m root l := ⟨hl.aligned, hl.distinct, fun g _ => h.mapped g.number⟩
  refine Ends.mono (hfills.and (hblames m rfl)) ?_ ?_ fun _ _ hp hf => hp.1 hf
  · rintro _ m' ⟨hdone, hrefused⟩ hf
    obtain ⟨-, a', hdone⟩ := hdone hf
    rw [hl.all] at hdone
    exact ⟨hrefused, h.backs hsize haligned hdone⟩
  · rintro e m' ⟨hfailed, hcause, -⟩ hf
    obtain rfl := (hfailed hf).1 hvacant
    exact ⟨hcause, rfl⟩

theorem addressesFrom_sorted {start : UInt64} {count : Nat}
    (h : start.toNat + count * 4096 ≤ 2 ^ 64) :
    (addressesFrom start count).Pairwise fun g g' => g.val.toNat < g'.val.toNat := by
  induction count generalizing start with
  | zero => exact .nil
  | succ count ih =>
      have hfirst : ((Address.ofWord? start).toList : List Gpa).Pairwise
          fun g g' => g.val.toNat < g'.val.toNat := by
        cases (Address.ofWord? start : Option Gpa) <;> simp
      rw [addressesFrom, List.pairwise_append]
      cases count with
      | zero => exact ⟨hfirst, .nil, fun _ _ _ hg => absurd hg List.not_mem_nil⟩
      | succ count =>
          have hnext := toNat_add_pageSize h
          refine ⟨hfirst, ih (by omega), fun g hg g' hg' => ?_⟩
          have hval := (Address.ofWord?_eq_some.1 (Option.mem_toList.1 hg)).2
          obtain ⟨-, i, -, hg'⟩ := (mem_addressesFrom (by omega)).1 hg'
          rw [hval]
          omega

theorem pagesOf_sorted (physSize : UInt64) :
    (pagesOf physSize).Pairwise fun g g' => g.val.toNat < g'.val.toNat := by
  rw [pagesOf, List.pairwise_append]
  refine ⟨addressesFrom_sorted lowPages_fit, addressesFrom_sorted (highPages_fit physSize), ?_⟩
  intro g hg g' hg'
  have hlow := (mem_lowPages.1 hg).2.2
  have hhigh := (mem_highPages.1 hg').2.2.1
  omega

theorem pageDown_eq_of_number {g g' : Gpa} (hg : g.val.toNat < 2 ^ 48) (hg' : g'.val.toNat < 2 ^ 48)
    (h : g.number = g'.number) : g.pageDown = g'.pageDown := by
  have hnumbers := congrArg BitVec.toNat h
  rw [Address.toNat_number, Address.toNat_number] at hnumbers
  have hval : g.pageDown.val.toNat = g'.pageDown.val.toNat := by
    rw [Address.toNat_pageDown, Address.toNat_pageDown]
    omega
  exact congrArg Address.mk (UInt64.toNat_inj.1 hval)

theorem nodup_numbers {l : List Gpa} (haligned : ∀ g ∈ l, g.isPageAligned = true)
    (hlow : ∀ g ∈ l, g.val.toNat < 2 ^ 48) (h : l.Nodup) : (l.map Address.number).Nodup := by
  refine List.pairwise_map.2 (h.imp_of_mem ?_)
  intro g g' hg hg' hne heq
  have hsame := pageDown_eq_of_number (hlow g hg) (hlow g' hg') heq
  rw [Address.pageDown_of_isPageAligned (haligned g hg),
    Address.pageDown_of_isPageAligned (haligned g' hg')] at hsame
  exact hne hsame

theorem toNat_lt_of_ram {g : Gpa} (hsize : physSize.toNat ≤ 2 ^ 48)
    (hram : Region.of g physSize = .ram) : g.val.toNat < 2 ^ 48 := by
  rw [Region.of_eq_ram] at hram
  omega

theorem pagesOf_covered (hsize : physSize.toNat ≤ 2 ^ 48) :
    Region.Covered physSize (pagesOf physSize) where
  aligned := fun g hg => (mem_pagesOf.1 hg).2.1
  distinct := by
    refine nodup_numbers (fun g hg => (mem_pagesOf.1 hg).2.1)
      (fun g hg => toNat_lt_of_ram hsize (mem_pagesOf.1 hg).2.2) ?_
    refine (pagesOf_sorted physSize).imp ?_
    rintro g g' hlt rfl
    exact Nat.lt_irrefl _ hlt
  all := numbers_pagesOf physSize

/-- The addresses are one in each page of memory, in some order. -/
structure TouchesAll (physSize : UInt64) (gs : List Gpa) : Prop where
  ram : ∀ g ∈ gs, Region.of g physSize = .ram
  distinct : (gs.map Address.pageDown).Nodup
  all : ∀ g : Gpa, Region.of g physSize = .ram → g.pageDown ∈ gs.map Address.pageDown

theorem TouchesAll.covered {gs : List Gpa} (h : TouchesAll physSize gs)
    (hsize : physSize.toNat ≤ 2 ^ 48) (haligned : physSize.toNat % 4096 = 0) :
    Region.Covered physSize (gs.map Address.pageDown) := by
  have hstarts : ∀ p ∈ gs.map Address.pageDown, p.isPageAligned = true := by
    intro p hp
    obtain ⟨g, -, rfl⟩ := List.mem_map.1 hp
    exact Address.isPageAligned_pageDown g
  refine ⟨hstarts, nodup_numbers hstarts ?_ h.distinct, ?_⟩
  · intro p hp
    obtain ⟨g, hg, rfl⟩ := List.mem_map.1 hp
    have hlow := toNat_lt_of_ram hsize (h.ram g hg)
    rw [Address.toNat_pageDown]
    omega
  · ext n
    constructor
    · rintro ⟨p, hp, rfl⟩
      obtain ⟨g, hg, rfl⟩ := List.mem_map.1 hp
      rw [Address.number_pageDown]
      have hram := h.ram g hg
      exact (number_mem_ramNumbers hsize haligned (toNat_lt_of_ram hsize hram)).2 hram
    · rintro ⟨g, -, hram, rfl⟩
      exact ⟨g.pageDown, h.all g hram, Address.number_pageDown g⟩

/-- Touching pages of memory backs them one after the other. -/
theorem mapM_onAccess (t : Ept) {gs : List Gpa} (h : ∀ g ∈ gs, Region.of g physSize = .ram) :
    gs.mapM (t.onAccess physSize) = do
      (gs.map Address.pageDown).forM t.populate
      return gs.map fun _ => Fault.handled := by
  induction gs with
  | nil => rfl
  | cons g gs ih =>
      have hram := h g List.mem_cons_self
      have hfirst : t.onAccess physSize g = do
          t.populate g.pageDown
          return .handled := by
        rw [onAccess, hram]
      rw [List.mapM_cons, ih fun g' hg' => h g' (List.mem_cons_of_mem g hg'), hfirst]
      simp only [bind_assoc, pure_bind]
      exact (bind_assoc _ _ _).symm

/-- Backing all memory at once and backing each page when it is touched agree.  From a blank table,
and whatever the order in which the pages are touched, both end with the same addresses backed, with
full permission, and with the same number of pages, each of which has one reference; and they only fail
when an allocation is refused. -/
theorem populations_agree {gs : List Gpa} (h : t.Blank root m) (hsize : physSize.toNat ≤ 2 ^ 48)
    (haligned : physSize.toNat % 4096 = 0) (hgs : TouchesAll physSize gs) :
    (t.populateAll physSize).Ends m
        (fun _ m' => m'.Fits → m'.refused = m.refused ∧ t.Backs physSize m m')
        (fun e m' => m'.Fits → m'.refused = m.refused + 1 ∧ e = .noMemory) (fun _ m' => ¬m'.Fits) ∧
      (gs.mapM (t.onAccess physSize)).Ends m
        (fun faults m' => m'.Fits → m'.refused = m.refused ∧ faults = gs.map (fun _ => .handled) ∧
          t.Backs physSize m m')
        (fun e m' => m'.Fits → m'.refused = m.refused + 1 ∧ e = .noMemory) fun _ m' => ¬m'.Fits := by
  refine ⟨?_, ?_⟩
  · rw [populateAll_eq]
    exact h.populateEach hsize haligned (pagesOf_covered hsize)
  · rw [mapM_onAccess t hgs.ram, ends_bind]
    refine Ends.mono (h.populateEach hsize haligned (hgs.covered hsize haligned)) ?_ (fun _ _ he => he)
      fun _ _ hp => hp
    rintro _ m' hdone hf
    exact ⟨(hdone hf).1, rfl, (hdone hf).2⟩

def lowAddress (page : Nat) : Gpa := ⟨(page * 4096 + 0xabc).toUInt64⟩

theorem toNat_lowAddress {page : Nat} (h : page < 160) :
    (lowAddress page).val.toNat = page * 4096 + 0xabc := by
  rw [lowAddress, Nat.toUInt64, UInt64.toNat_ofNat']
  omega

def lowAddresses : List Gpa := (List.range 160).reverse.map lowAddress

theorem lowAddresses_touchesAll : TouchesAll 0x1000 lowAddresses where
  ram := fun g hg => by
    obtain ⟨page, hpage, rfl⟩ := List.mem_map.1 hg
    have hlt : page < 160 := by simpa using hpage
    rw [Region.of_eq_ram, toNat_lowAddress hlt]
    omega
  distinct := by
    rw [lowAddresses, List.map_map]
    refine List.Nodup.map_on ?_ (List.nodup_reverse.2 List.nodup_range)
    intro page hpage page' hpage' heq
    have hval := congrArg (fun g : Gpa => g.val.toNat) heq
    simp only [Function.comp_apply, Address.toNat_pageDown] at hval
    rw [toNat_lowAddress (by simpa using hpage), toNat_lowAddress (by simpa using hpage')] at hval
    omega
  all := fun g hram => by
    have hlow : g.val.toNat < 0xa0000 := by
      have hsize : (0x1000 : UInt64).toNat = 0x1000 := rfl
      rw [Region.of_eq_ram] at hram
      omega
    have hpage : g.val.toNat / 4096 < 160 := by omega
    refine List.mem_map.2 ⟨lowAddress (g.val.toNat / 4096), ?_, ?_⟩
    · exact List.mem_map.2 ⟨_, by simpa using hpage, rfl⟩
    · refine congrArg Address.mk (UInt64.toNat_inj.1 ?_)
      show (lowAddress _).pageDown.val.toNat = g.pageDown.val.toNat
      rw [Address.toNat_pageDown, Address.toNat_pageDown, toNat_lowAddress hpage]
      omega

/-- In a guest of one page, low memory is backed page by page from its end, or at once. -/
theorem populations_agree_low : ∃ (t : Ept) (root : Hpa) (m m' : Memory), t.Blank root m ∧
    TouchesAll 0x1000 lowAddresses ∧
      (∃ faults, (lowAddresses.mapM (t.onAccess 0x1000)).run m = .ok faults m') ∧
        t.Backs 0x1000 m m' ∧
          (t.populateAll 0x1000).Ends m
            (fun _ m'' => m''.Fits → m''.refused = m.refused ∧ t.Backs 0x1000 m m'')
            (fun e m'' => m''.Fits → m''.refused = m.refused + 1 ∧ e = .noMemory)
            fun _ m'' => ¬m''.Fits := by
  let m : Memory :=
    { fresh with pages := fresh.pages.insert ⟨0x1000000⟩ { refs := 1 }, next := 0x1001000 }
  have hm : fresh.Allocates m ⟨0x1000000⟩ := ⟨rfl, rfl, by decide⟩
  have hblank := Blank.of_allocates (fresh_regular none) hm
  obtain ⟨faults, m', hrun, hf⟩ := Ends.exists_ok
    (x := lowAddresses.mapM (onAccess ⟨some ⟨0x1000000⟩⟩ 0x1000)) (s := m)
    (Q := fun _ m' => m'.Fits) (by decide +kernel)
  obtain ⟨hall, heach⟩ := populations_agree hblank (by decide) (by decide) lowAddresses_touchesAll
  have hbacks := ((ends_ok hrun).1 heach hf).2.2
  exact ⟨_, _, m, m', hblank, lowAddresses_touchesAll, ⟨faults, hrun⟩, hbacks, hall⟩

end Ept

end Hypervisor
