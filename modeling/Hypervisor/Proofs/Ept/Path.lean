import Hypervisor.Ept.Table
import Hypervisor.Proofs.Word

/-!
# Paths through the tables

The page of a guest-physical address is numbered by bits 47:12.  The number spells the indices on
the way from the root to the leaf, nine bits for each level, so that distinct pages have distinct
paths.
-/

namespace Hypervisor

/-- The number of a guest-physical page. -/
abbrev PageNumber : Type := BitVec 36

namespace PageNumber

/-- The index that a page number spells on a level. -/
def digit (n : PageNumber) (level : Nat) : Fin wordsPerPage :=
  wordIndex (n.toNat >>> (9 * level))

theorem toNat_digit (n : PageNumber) (level : Nat) :
    (n.digit level : Nat) = n.toNat / 2 ^ (9 * level) % 512 := by
  simp [digit, wordIndex, Nat.shiftRight_eq_div_pow]

/-- A page number is known from its digits. -/
theorem ext_digits {n n' : PageNumber} (h : ∀ l, l < Ept.levels → n.digit l = n'.digit l) :
    n = n' := by
  have hd : ∀ l, l < 4 → n.toNat / 2 ^ (9 * l) % 512 = n'.toNat / 2 ^ (9 * l) % 512 := by
    intro l hl
    rw [← toNat_digit, ← toNat_digit, h l hl]
  have h0 := hd 0 (by decide)
  have h1 := hd 1 (by decide)
  have h2 := hd 2 (by decide)
  have h3 := hd 3 (by decide)
  have hn := n.isLt
  have hn' := n'.isLt
  apply BitVec.eq_of_toNat_eq
  norm_num at h0 h1 h2 h3 hn hn'
  omega

end PageNumber

def Address.number (g : Gpa) : PageNumber := g.val.toBitVec.extractLsb' pageShift 36

namespace Address

theorem toNat_number (g : Gpa) : g.number.toNat = g.val.toNat / 4096 % 2 ^ 36 := by
  rw [number, BitVec.extractLsb'_toNat, Nat.shiftRight_eq_div_pow]
  rfl

@[simp] theorem number_pageDown (g : Gpa) : g.pageDown.number = g.number := by
  apply BitVec.eq_of_toNat_eq
  rw [toNat_number, toNat_number, toNat_pageDown]
  omega

end Address

theorem Ept.index_eq_digit (g : Gpa) {level : Nat} (h : level < levels) :
    index g level = g.number.digit level := by
  apply Fin.ext
  rw [PageNumber.toNat_digit, Address.toNat_number]
  have hi : (index g level : Nat) = g.val.toNat / 2 ^ (12 + 9 * level) % 512 := by
    simp [index, wordIndex, pageShift, Nat.shiftRight_eq_div_pow]
  rw [hi]
  have hl : level = 0 ∨ level = 1 ∨ level = 2 ∨ level = 3 := by
    simp only [levels] at h
    omega
  rcases hl with rfl | rfl | rfl | rfl <;> norm_num <;> omega

end Hypervisor
