import Hypervisor.Proofs.Ept.Mapping
import Hypervisor.Proofs.Ept.Reachable

/-!
# How many tables a map needs

A table below the root is needed for each way in which the page numbers that are mapped begin.  When
no table is off the way to a mapping, there are just these.
-/

namespace Hypervisor

instance {space : Space} : Finite (Address space) := by
  refine Finite.of_injective (fun x : Address space => x.val.toFin) fun x y h => ?_
  cases x
  cases y
  cases UInt64.toFin_inj.1 h
  rfl

/-- What is left of a page number without its last `l` digits. -/
def PageNumber.stem (n : PageNumber) (l : Nat) : Nat := n.toNat / 512 ^ l

namespace PageNumber

variable {n n' : PageNumber} {l : Nat}

theorem stem_eq_add (n : PageNumber) (l : Nat) : n.stem l = 512 * n.stem (l + 1) + n.digit l := by
  rw [toNat_digit, stem, stem, pow_succ, ← Nat.div_div_eq_div_mul, Nat.pow_mul]
  exact (Nat.div_add_mod _ _).symm

theorem stem_levels (n : PageNumber) : n.stem Ept.levels = 0 := Nat.div_eq_of_lt n.isLt

theorem stem_eq_iff (hl : l ≤ Ept.levels) : n.stem l = n'.stem l ↔
    ∀ i, l ≤ i → i < Ept.levels → n.digit i = n'.digit i := by
  induction hl using Nat.decreasingInduction with
  | self =>
      simp only [stem_levels, true_iff]
      intro i hlow hhigh
      omega
  | of_succ l hl ih =>
      have hd : (n.digit l : Nat) < 512 := (n.digit l).isLt
      have hd' : (n'.digit l : Nat) < 512 := (n'.digit l).isLt
      rw [stem_eq_add, stem_eq_add n']
      constructor
      · intro h i hlow hhigh
        rcases Nat.eq_or_lt_of_le hlow with rfl | hlt
        · exact Fin.ext (by omega)
        · exact ih.1 (by omega) i hlt hhigh
      · intro h
        rw [ih.2 fun i hlow hhigh => h i (Nat.le_of_succ_le hlow) hhigh, h l (Nat.le_refl l) hl]

theorem exists_digit (n : PageNumber) (hl : l < Ept.levels) (i : Fin wordsPerPage) :
    ∃ n' : PageNumber, n'.digit l = i ∧ ∀ j, l < j → j < Ept.levels → n'.digit j = n.digit j := by
  have hn := n.isLt
  have hi : (i : Nat) < 512 := i.isLt
  have hlt : n.toNat / 2 ^ (9 * (l + 1)) * 2 ^ (9 * (l + 1)) + i * 2 ^ (9 * l) < 2 ^ 36 := by
    simp only [Ept.levels] at hl
    interval_cases l <;> omega
  refine ⟨BitVec.ofNat 36 (n.toNat / 2 ^ (9 * (l + 1)) * 2 ^ (9 * (l + 1)) + i * 2 ^ (9 * l)), ?_,
    fun j hlow hhigh => ?_⟩
  · apply Fin.ext
    rw [toNat_digit, BitVec.toNat_ofNat, Nat.mod_eq_of_lt hlt]
    simp only [Ept.levels] at hl
    interval_cases l <;> omega
  · apply Fin.ext
    rw [toNat_digit, toNat_digit, BitVec.toNat_ofNat, Nat.mod_eq_of_lt hlt]
    simp only [Ept.levels] at hl hhigh
    interval_cases l <;> interval_cases j <;> omega

end PageNumber

namespace Memory

variable {m : Memory} {a : Account} {n n' : PageNumber} {t t' q root p : Hpa} {s : Slot} {i j k : Nat}
  {S : Set PageNumber}

theorem leafFrom_eq_map : m.leafFrom n k t = (m.tableFrom n 0 k t).map fun q => ⟨q, n.digit 0⟩ := by
  induction k generalizing t with
  | zero => rfl
  | succ k ih =>
      rw [leafFrom, tableFrom_succ (by omega), Option.map_bind]
      congr 1
      funext q
      exact ih

theorem tableFrom_eq_of_digits (hj : j ≤ k) (h : ∀ i, j < i → i ≤ k → n.digit i = n'.digit i) :
    m.tableFrom n j k t = m.tableFrom n' j k t := by
  induction k generalizing t with
  | zero => rfl
  | succ k ih =>
      by_cases he : j = k + 1
      · rw [tableFrom, tableFrom, if_pos he, if_pos he]
      · rw [tableFrom_succ he, tableFrom_succ he, h (k + 1) (by omega) (Nat.le_refl _)]
        congr 1
        funext q
        exact ih (by omega) fun i hlow hhigh => h i hlow (Nat.le_succ_of_le hhigh)

theorem exists_tableFrom (hi : m.tableFrom n i k t = some q) (hij : i ≤ j) (hj : j ≤ k) :
    ∃ p, m.tableFrom n j k t = some p := by
  induction k generalizing t with
  | zero =>
      obtain rfl : j = 0 := by omega
      exact ⟨t, tableFrom_self⟩
  | succ k ih =>
      by_cases he : j = k + 1
      · subst he
        exact ⟨t, tableFrom_self⟩
      · rw [tableFrom_succ (by omega)] at hi
        obtain ⟨r, hr, hi⟩ := Option.bind_eq_some_iff.1 hi
        obtain ⟨p, hp⟩ := ih hi (by omega)
        exact ⟨p, tableFrom_below hr hp⟩

theorem tableFrom_link (hq : m.tableFrom n (j + 1) k t = some q)
    (hp : (m.entry ⟨q, n.digit (j + 1)⟩).target = some p) : m.tableFrom n j k t = some p := by
  induction k generalizing t with
  | zero => exact absurd (le_of_tableFrom hq) (by omega)
  | succ k ih =>
      have hle := le_of_tableFrom hq
      rw [tableFrom_succ (by omega)]
      by_cases he : j = k
      · subst he
        cases tableFrom_self.symm.trans hq
        rw [hp, Option.bind_some, tableFrom_self]
      · rw [tableFrom_succ (by omega)] at hq
        obtain ⟨r, hr, hq⟩ := Option.bind_eq_some_iff.1 hq
        rw [hr, Option.bind_some, ih hq]

theorem Table.exists_tableFrom (h : m.Table {root} k q) : ∃ n, m.tableFrom n k 3 root = some q := by
  induction h with
  | root hr =>
      cases hr
      exact ⟨0, tableFrom_self⟩
  | @link k s q outer target ih =>
      obtain ⟨n, hn⟩ := ih
      have hk : k + 1 < Ept.levels := Nat.lt_succ_of_le (le_of_tableFrom hn)
      obtain ⟨n', hdigit, hdigits⟩ := n.exists_digit hk s.index
      refine ⟨n', tableFrom_link (q := s.table) ?_ (by rw [hdigit]; exact target)⟩
      rw [← hn]
      exact tableFrom_eq_of_digits (le_of_tableFrom hn) fun i hlow hhigh =>
        hdigits i hlow (Nat.lt_succ_of_le hhigh)

theorem Table.exists_leafFrom (h : m.Table {root} 0 s.table) : ∃ n, m.leafFrom n 3 root = some s := by
  obtain ⟨n, hn⟩ := h.exists_tableFrom
  obtain ⟨n', hdigit, hdigits⟩ := n.exists_digit (l := 0) (by decide) s.index
  refine ⟨n', ?_⟩
  have hn' : m.tableFrom n' 0 3 root = some s.table := by
    rw [← hn]
    exact tableFrom_eq_of_digits (by decide) fun i hlow hhigh =>
      hdigits i hlow (Nat.lt_succ_of_le hhigh)
  rw [leafFrom_eq_map, hn', Option.map_some, hdigit]

theorem Table.exists_translation (h : m.Table {root} 0 s.table) (hp : (m.entry s).target = some p) :
    ∃ n perm, m.translation root n = some (p, perm) := by
  obtain ⟨n, hn⟩ := h.exists_leafFrom
  refine ⟨n, (m.entry s).permission, ?_⟩
  rw [translation, Shape.translationFrom_eq]
  exact Option.bind_eq_some_iff.2 ⟨s, hn, Entry.mapping_eq_some.2 ⟨hp, rfl⟩⟩

/-- Each table has only one path to it. -/
theorem digits_of_tableFrom (h : Shape m.entry a) (ht : a.level t = some k)
    (ht' : a.level t' = some k) (hq : m.tableFrom n j k t = some q)
    (hq' : m.tableFrom n' j k t' = some q) :
    t = t' ∧ ∀ i, j < i → i ≤ k → n.digit i = n'.digit i := by
  induction k generalizing t t' with
  | zero =>
      have hj := le_of_tableFrom hq
      obtain rfl : j = 0 := by omega
      cases tableFrom_self.symm.trans hq
      cases tableFrom_self.symm.trans hq'
      exact ⟨rfl, fun i hlow hhigh => by omega⟩
  | succ k ih =>
      by_cases he : j = k + 1
      · subst he
        cases tableFrom_self.symm.trans hq
        cases tableFrom_self.symm.trans hq'
        exact ⟨rfl, fun i hlow hhigh => by omega⟩
      · rw [tableFrom_succ he] at hq hq'
        obtain ⟨r, hr, hq⟩ := Option.bind_eq_some_iff.1 hq
        obtain ⟨r', hr', hq'⟩ := Option.bind_eq_some_iff.1 hq'
        have hlevel := h.level_of_target (s := ⟨t, n.digit (k + 1)⟩) ht hr
        have hlevel' := h.level_of_target (s := ⟨t', n'.digit (k + 1)⟩) ht' hr'
        obtain ⟨rfl, hdigits⟩ := ih hlevel hlevel' hq hq'
        have hplace := (h.linked ht).1 hr
        rw [(h.linked ht').1 hr', Option.some.injEq, Slot.mk.injEq] at hplace
        refine ⟨hplace.1.symm, fun i hlow hhigh => ?_⟩
        rcases Nat.lt_or_eq_of_le hhigh with hlt | rfl
        · exact hdigits i hlow (Nat.le_of_lt_succ hlt)
        · exact hplace.2.symm

structure Tailored (m : Memory) (a : Account) (root : Hpa) (S : Set PageNumber) : Prop where
  balanced : m.Balanced a
  rooted : a.Rooted {root}
  level : a.level root = some 3
  maps : ∀ n, n ∈ S ↔ (m.mapped root n).isSome
  tables : ∀ {q j}, a.level q = some j → j < 3 → ∃ n ∈ S, m.tableFrom n j 3 root = some q

private theorem ncard_image_eq {α β γ : Type} {S : Set α} {f : α → β} {g : α → γ}
    (h : ∀ x ∈ S, ∀ y ∈ S, f x = f y ↔ g x = g y) : (f '' S).ncard = (g '' S).ncard := by
  classical
  rcases S.eq_empty_or_nonempty with rfl | ⟨x₀, -⟩
  · simp
  have : Nonempty α := ⟨x₀⟩
  have himage : g '' S = (fun b => g (Function.invFunOn f S b)) '' (f '' S) := by
    rw [Set.image_image]
    refine Set.image_congr fun x hx => ?_
    have hmem : f x ∈ f '' S := ⟨x, hx, rfl⟩
    exact (h x hx _ (Function.invFunOn_mem hmem)).1 (Function.invFunOn_eq hmem).symm
  rw [himage]
  refine (Set.InjOn.ncard_image ?_).symm
  intro b hb b' hb' heq
  rw [← Function.invFunOn_eq hb, ← Function.invFunOn_eq hb']
  exact (h _ (Function.invFunOn_mem hb) _ (Function.invFunOn_mem hb')).2 heq

namespace Tailored

variable (h : m.Tailored a root S)
include h

theorem exists_leaf (hn : n ∈ S) :
    ∃ s p, m.leafFrom n 3 root = some s ∧ (m.entry s).target = some p ∧ m.mapped root n = some p := by
  obtain ⟨p, hp⟩ := Option.isSome_iff_exists.1 ((h.maps n).1 hn)
  cases hs : m.leafFrom n 3 root with
  | none =>
      rw [mapped, translation, Shape.translationFrom_eq] at hp
      simp [Ept.levels, hs] at hp
  | some s =>
      rw [mapped_eq_target hs] at hp
      exact ⟨s, p, rfl, hp, by rw [mapped_eq_target hs, hp]⟩

theorem ncard_level (hj : j < 3) :
    {q | a.level q = some j}.ncard = ((fun n : PageNumber => n.stem (j + 1)) '' S).ncard := by
  have hpath : ∀ n ∈ S, ∃ q, m.tableFrom n j 3 root = some q := by
    intro n hn
    obtain ⟨s, p, hs, -, -⟩ := h.exists_leaf hn
    rw [leafFrom_eq_map] at hs
    obtain ⟨q, hq, -⟩ := Option.map_eq_some_iff.1 hs
    exact exists_tableFrom hq (Nat.zero_le j) (Nat.le_of_lt hj)
  have himage : some '' {q | a.level q = some j} = (fun n => m.tableFrom n j 3 root) '' S := by
    ext r
    constructor
    · rintro ⟨q, hq, rfl⟩
      exact h.tables hq hj
    · rintro ⟨n, hn, rfl⟩
      obtain ⟨q, hq⟩ := hpath n hn
      exact ⟨q, h.balanced.shape.level_of_tableFrom h.level hq, hq.symm⟩
  rw [← Set.ncard_image_of_injective _ (Option.some_injective Hpa), himage]
  refine ncard_image_eq fun n hn n' hn' => ?_
  rw [PageNumber.stem_eq_iff (show j + 1 ≤ 4 by omega)]
  constructor
  · intro heq i hlow hhigh
    obtain ⟨q, hq⟩ := hpath n hn
    have hq' : m.tableFrom n' j 3 root = some q := heq.symm.trans hq
    exact (digits_of_tableFrom h.balanced.shape h.level h.level hq hq').2 i hlow
      (Nat.le_of_lt_succ hhigh)
  · intro hdigits
    exact tableFrom_eq_of_digits (Nat.le_of_lt hj) fun i hlow hhigh =>
      hdigits i hlow (Nat.lt_succ_of_le hhigh)

theorem intermediate_iff : m.Intermediate {root} q ↔ ∃ j < 3, a.level q = some j := by
  have hroots : ∀ r ∈ ({root} : Set Hpa), a.level r = some 3 := by
    rintro r rfl
    exact h.level
  simp only [Intermediate, table_iff h.balanced.shape h.rooted hroots]
  constructor
  · rintro ⟨s, k, hs, htarget⟩
    have hbound : k + 1 < 4 := h.balanced.shape.bound hs
    exact ⟨k, by omega, h.balanced.shape.level_of_target hs htarget⟩
  · rintro ⟨j, hj, hq⟩
    cases hparent : a.parent q with
    | none =>
        have hthree := (h.rooted q j hq hparent).1
        omega
    | some s =>
        obtain ⟨k, hk, -⟩ := h.balanced.shape.child hparent
        exact ⟨s, k, hk, (h.balanced.shape.linked hk).2 hparent⟩

theorem ncard_intermediate : {q | m.Intermediate {root} q}.ncard =
    ∑ j ∈ Finset.range 3, ((fun n : PageNumber => n.stem (j + 1)) '' S).ncard := by
  have hunion : {q | m.Intermediate {root} q} =
      {q | a.level q = some 0} ∪ {q | a.level q = some 1} ∪ {q | a.level q = some 2} := by
    ext q
    simp only [Set.mem_ofPred_eq, h.intermediate_iff, Set.mem_union]
    constructor
    · rintro ⟨j, hj, hq⟩
      obtain rfl | rfl | rfl : j = 0 ∨ j = 1 ∨ j = 2 := by omega
      · exact .inl (.inl hq)
      · exact .inl (.inr hq)
      · exact .inr hq
    · rintro ((hq | hq) | hq)
      · exact ⟨0, by decide, hq⟩
      · exact ⟨1, by decide, hq⟩
      · exact ⟨2, by decide, hq⟩
  have hapart : ∀ {q i j}, a.level q = some i → a.level q = some j → i = j := fun hi hj =>
    Option.some.inj (hi.symm.trans hj)
  have hfirst : Disjoint {q | a.level q = some 0} {q | a.level q = some 1} :=
    Set.disjoint_left.2 fun q h0 h1 => absurd (hapart h0 h1) (by decide)
  have hlast : Disjoint ({q | a.level q = some 0} ∪ {q | a.level q = some 1})
      {q | a.level q = some 2} := by
    refine Set.disjoint_left.2 fun q h01 h2 => ?_
    rcases h01 with h0 | h1
    · exact absurd (hapart h0 h2) (by decide)
    · exact absurd (hapart h1 h2) (by decide)
  rw [hunion, Set.ncard_union_eq hlast, Set.ncard_union_eq hfirst, Finset.sum_range_succ,
    Finset.sum_range_succ, Finset.sum_range_one, h.ncard_level (by decide), h.ncard_level (by decide),
    h.ncard_level (by decide)]

theorem leaves_pos_iff : 0 < a.leaves m.entry p ↔ ∃ n, m.mapped root n = some p := by
  rw [Account.leaves, Set.ncard_pos]
  constructor
  · rintro ⟨s, hs, htarget⟩
    have htable := Table.of_level h.balanced.shape h.rooted 3 rfl hs
    obtain ⟨n, hleaf⟩ := htable.exists_leafFrom
    exact ⟨n, by rw [mapped_eq_target hleaf, htarget]⟩
  · rintro ⟨n, hn⟩
    obtain ⟨s, p', hs, htarget, hp'⟩ := h.exists_leaf ((h.maps n).2 (by rw [hn]; rfl))
    cases hn.symm.trans hp'
    exact ⟨s, h.balanced.shape.level_of_leafFrom h.level hs, htarget⟩

theorem ncard_leaves (hsingle : ∀ p, a.leaves m.entry p ≤ 1) :
    {p | 0 < a.leaves m.entry p}.ncard = S.ncard := by
  have himage : some '' {p | 0 < a.leaves m.entry p} = m.mapped root '' S := by
    ext r
    constructor
    · rintro ⟨p, hp, rfl⟩
      obtain ⟨n, hn⟩ := h.leaves_pos_iff.1 hp
      exact ⟨n, (h.maps n).2 (by rw [hn]; rfl), hn⟩
    · rintro ⟨n, hn, rfl⟩
      obtain ⟨-, p, -, -, hp⟩ := h.exists_leaf hn
      exact ⟨p, h.leaves_pos_iff.2 ⟨n, hp⟩, hp.symm⟩
  rw [← Set.ncard_image_of_injective _ (Option.some_injective Hpa), himage]
  refine Set.InjOn.ncard_image fun n hn n' hn' heq => ?_
  obtain ⟨s, p, hs, htarget, hp⟩ := h.exists_leaf hn
  obtain ⟨s', p', hs', htarget', hp'⟩ := h.exists_leaf hn'
  cases hp.symm.trans (heq.trans hp')
  have hlevel := h.balanced.shape.level_of_leafFrom h.level hs
  have hlevel' := h.balanced.shape.level_of_leafFrom h.level hs'
  obtain rfl : s = s' := (Set.ncard_le_one_iff (Set.toFinite _)).1 (hsingle p) ⟨hlevel, htarget⟩
    ⟨hlevel', htarget'⟩
  have hdigits := (h.balanced.shape.leafFrom_inj h.level h.level hs hs').2
  exact PageNumber.ext_digits fun l hl => hdigits l (Nat.le_of_lt_succ hl)

end Tailored

end Memory

end Hypervisor
