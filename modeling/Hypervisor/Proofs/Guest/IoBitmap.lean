import Hypervisor.Guest.IoBitmap
import Hypervisor.Proofs.Memory.Page
import Hypervisor.Proofs.Memory.References

/-!
# Bits of the I/O bitmaps

The processor finds the bit of a port in a byte of one of two pages, while the hypervisor works on words
of 64 bits.  Setting the bit of a port changes that bit alone, and testing it tells whether it is set.
-/

namespace Hypervisor

namespace PageWords

def bit (ws : PageWords) (n : Nat) : Bool := (ws.byte (n / 8)).toNat.testBit (n % 8)

theorem bit_eq (ws : PageWords) (n : Nat) : ws.bit n = (ws.word (n / 64)).toNat.testBit (n % 64) := by
  rw [bit, toNat_byte, Nat.testBit_mod_two_pow, Nat.testBit_div_two_pow,
    decide_eq_true (Nat.mod_lt n (by decide)), Bool.true_and, Nat.div_div_eq_div_mul,
    show n % 8 + 8 * (n / 8 % 8) = n % 64 by omega]

theorem bit_zero (n : Nat) : zero.bit n = false := by
  have hword : ∀ i, zero.word i = 0 := fun i => by
    rw [word, zero]
    by_cases hi : i < wordsPerPage
    · simp [hi]
    · simp [hi]
  rw [bit_eq, hword]
  exact Nat.zero_testBit _

theorem byte_eq_of_bits {ws ws' : PageWords} {o : Nat}
    (h : ∀ n, n / 8 = o → ws'.bit n = ws.bit n) : ws'.byte o = ws.byte o := by
  refine UInt8.toNat_inj.1 (Nat.eq_of_testBit_eq fun i => ?_)
  by_cases hi : i < 8
  · have hbit := h (8 * o + i) (by omega)
    rwa [bit, bit, show (8 * o + i) / 8 = o by omega, show (8 * o + i) % 8 = i by omega] at hbit
  · have hpow : 2 ^ 8 ≤ 2 ^ i := Nat.pow_le_pow_right (by decide) (by omega)
    rw [Nat.testBit_lt_two_pow (Nat.lt_of_lt_of_le (ws'.byte o).toNat_lt hpow),
      Nat.testBit_lt_two_pow (Nat.lt_of_lt_of_le (ws.byte o).toNat_lt hpow)]

end PageWords

namespace Guest

open Hypervisor.Action Memory PageWords

/-- The bit of a port as the processor finds it: bitmap A is for the lower half of all ports and bitmap
B for the upper one, with eight ports to a byte, the first one in the lowest bit. -/
def ioBit (g : Guest) (m : Memory) (port : UInt16) : Bool :=
  let bitmap := if port.toNat < 0x8000 then g.ioBitmapA else g.ioBitmapB
  ((m.words bitmap).byte (port.toNat % 0x8000 / 8)).toNat.testBit (port.toNat % 8)

def Intercepts (g : Guest) (m : Memory) (ports : List UInt16) : Prop :=
  ∀ port, g.ioBit m port = true ↔ port ∈ ports

def bitmaps (g : Guest) : List Hpa := [g.ioBitmapA, g.ioBitmapB]

def withPort (port : UInt16) (ws : PageWords) : PageWords :=
  ws.setWord (bitmapBit port / 64) (ws.word (bitmapBit port / 64) ||| bitmapMask port)

section Bits

variable {port port' : UInt16} {ws : PageWords} {n o : Nat}

theorem bitmapBit_lt (port : UInt16) : bitmapBit port < 0x8000 := Nat.mod_lt _ (by decide)

theorem bitmapWord_lt (port : UInt16) : bitmapBit port / 64 < wordsPerPage := by
  have hlt := bitmapBit_lt port
  show bitmapBit port / 64 < 512
  omega

theorem toNat_bitmapMask (port : UInt16) : (bitmapMask port).toNat = 2 ^ (bitmapBit port % 64) := by
  have hlt : bitmapBit port % 64 < 64 := Nat.mod_lt _ (by decide)
  have hpow : 2 ^ (bitmapBit port % 64) < 2 ^ 64 := Nat.pow_lt_pow_right (by decide) hlt
  rw [bitmapMask, UInt64.toNat_shiftLeft, Nat.toUInt64, UInt64.toNat_ofNat',
    Nat.mod_eq_of_lt (show bitmapBit port % 64 < 2 ^ 64 by omega), Nat.mod_eq_of_lt hlt,
    Nat.shiftLeft_eq, show (1 : UInt64).toNat = 1 from rfl, Nat.one_mul, Nat.mod_eq_of_lt hpow]

theorem bit_withPort : (withPort port ws).bit n = (ws.bit n || decide (n = bitmapBit port)) := by
  by_cases hword : n / 64 = bitmapBit port / 64
  · have hsame : (n % 64 = bitmapBit port % 64) = (n = bitmapBit port) :=
      propext ⟨fun h => by omega, fun h => by rw [h]⟩
    rw [bit_eq, bit_eq, withPort, hword, word_setWord _ _ (bitmapWord_lt port), UInt64.toNat_or,
      Nat.testBit_or, toNat_bitmapMask, Nat.testBit_two_pow]
    simp only [eq_comm (a := bitmapBit port % 64), hsame]
  · have hne : n ≠ bitmapBit port := fun h => hword (congrArg (· / 64) h)
    rw [bit_eq, bit_eq, withPort, word_setWord_of_ne _ _ (Ne.symm hword), decide_eq_false hne,
      Bool.or_false]

theorem byte_withPort (ho : o ≠ bitmapBit port / 8) : (withPort port ws).byte o = ws.byte o := by
  refine byte_eq_of_bits fun n hn => ?_
  have hne : n ≠ bitmapBit port := fun h => ho (by rw [← hn, h])
  rw [bit_withPort, decide_eq_false hne, Bool.or_false]

theorem and_bitmapMask (w : UInt64) (port : UInt16) :
    (w &&& bitmapMask port != 0) = w.toNat.testBit (bitmapBit port % 64) := by
  rw [Bool.eq_iff_iff, bne_iff_ne, ne_eq, ← UInt64.toNat_inj, UInt64.toNat_and, toNat_bitmapMask,
    Nat.and_two_pow]
  cases w.toNat.testBit (bitmapBit port % 64) with
  | false => simp
  | true => simp

end Bits

section Pages

variable {g : Guest} {m m' : Memory} {port port' : UInt16} {ports : List UInt16} {p : Hpa} {ε : Type}

theorem bitmapPage_eq : g.bitmapPage port = if port.toNat < 0x8000 then g.ioBitmapA else g.ioBitmapB :=
  rfl

theorem bitmapPage_mem_bitmaps (port : UInt16) : g.bitmapPage port ∈ g.bitmaps := by
  rw [bitmapPage_eq]
  split
  · exact List.mem_cons_self
  · exact List.mem_cons_of_mem _ List.mem_cons_self

theorem bitmaps_subset_ownPages : g.bitmaps ⊆ g.ownPages :=
  fun _ hp => List.mem_cons_of_mem _ (List.mem_cons_of_mem _ hp)

theorem bitmapPage_mem_ownPages (port : UInt16) : g.bitmapPage port ∈ g.ownPages :=
  bitmaps_subset_ownPages (bitmapPage_mem_bitmaps port)

theorem ioBit_eq : g.ioBit m port = (m.words (g.bitmapPage port)).bit (bitmapBit port) := by
  rw [ioBit, bit, bitmapPage_eq, bitmapBit, show port.toNat % 0x8000 % 8 = port.toNat % 8 by omega]

structure HasBitmaps (g : Guest) (m : Memory) : Prop where
  live : ∀ p ∈ g.bitmaps, p ∈ m.pages
  aligned : ∀ p ∈ g.bitmaps, p.pageDown = p
  distinct : g.ioBitmapA ≠ g.ioBitmapB

namespace HasBitmaps

variable (h : g.HasBitmaps m)

include h

theorem bitmapPage_pageDown (port : UInt16) : (g.bitmapPage port).pageDown = g.bitmapPage port :=
  h.aligned _ (bitmapPage_mem_bitmaps port)

theorem bitmapPage_live (port : UInt16) : (g.bitmapPage port).pageDown ∈ m.pages := by
  rw [h.bitmapPage_pageDown]
  exact h.live _ (bitmapPage_mem_bitmaps port)

theorem eq_of_bit_eq (hpage : g.bitmapPage port' = g.bitmapPage port)
    (hbit : bitmapBit port' = bitmapBit port) : port' = port := by
  have hlt := port.toNat_lt
  have hlt' := port'.toNat_lt
  rw [bitmapPage_eq, bitmapPage_eq] at hpage
  rw [bitmapBit, bitmapBit] at hbit
  apply UInt16.toNat_inj.1
  split_ifs at hpage
  · omega
  · exact absurd hpage h.distinct
  · exact absurd hpage.symm h.distinct
  · omega

theorem ioBit_edited : g.ioBit (m.edited (g.bitmapPage port) (withPort port)) port' =
    (g.ioBit m port' || decide (port' = port)) := by
  rw [ioBit_eq, ioBit_eq, words_edited _ (h.bitmapPage_live port), h.bitmapPage_pageDown,
    h.bitmapPage_pageDown]
  split
  · rename_i hpage
    rw [bit_withPort]
    have hsame : bitmapBit port' = bitmapBit port ↔ port' = port :=
      ⟨h.eq_of_bit_eq hpage, fun he => by rw [he]⟩
    rw [decide_eq_decide.2 hsame]
  · rename_i hpage
    have hne : port' ≠ port := fun he => hpage (by rw [he])
    rw [decide_eq_false hne, Bool.or_false]

theorem intercepts_cons (hports : g.Intercepts m ports) :
    g.Intercepts (m.edited (g.bitmapPage port) (withPort port)) (port :: ports) := by
  intro port'
  rw [h.ioBit_edited, Bool.or_eq_true, decide_eq_true_iff, hports port', List.mem_cons, or_comm]

/-- No byte of memory changes but the one with the bit of the port. -/
theorem byte_edited {o : Nat} (ho : p.pageDown ≠ g.bitmapPage port ∨ o ≠ bitmapBit port / 8) :
    ((m.edited (g.bitmapPage port) (withPort port)).words p).byte o = (m.words p).byte o := by
  rw [words_edited _ (h.bitmapPage_live port), h.bitmapPage_pageDown]
  split
  · exact byte_withPort (ho.resolve_left fun hne => hne ‹_›)
  · rfl

theorem interceptPort_ends {Q : Unit → Memory → Prop} {E : ε → Memory → Prop}
    {F : Panic → Memory → Prop} (hQ : Q () (m.edited (g.bitmapPage port) (withPort port))) :
    (g.interceptPort port : MemoryM ε Unit).Ends m Q E F :=
  editPage_ends (fun _ => hQ) fun _ hfree => absurd (h.bitmapPage_live port) hfree

theorem isPortIntercepted_ends {Q : Bool → Memory → Prop} {E : ε → Memory → Prop}
    {F : Panic → Memory → Prop} (hQ : Q (g.ioBit m port) m) :
    (g.isPortIntercepted port : MemoryM ε Bool).Ends m Q E F := by
  rw [isPortIntercepted, ends_bind]
  refine pageWords_ends (fun _ => ?_) fun _ hfree => absurd (h.bitmapPage_live port) hfree
  rw [ends_pure, and_bitmapMask, ← bit_eq, ← ioBit_eq]
  exact hQ

end HasBitmaps

theorem Intercepts.congr (h : g.Intercepts m ports) (hwords : ∀ p ∈ g.bitmaps, m'.words p = m.words p) :
    g.Intercepts m' ports := by
  intro port
  rw [← h port, ioBit_eq, ioBit_eq, hwords _ (bitmapPage_mem_bitmaps port)]

theorem intercepts_nil (hzero : ∀ p ∈ g.bitmaps, m.words p = .zero) : g.Intercepts m [] := by
  intro port
  rw [ioBit_eq, hzero _ (bitmapPage_mem_bitmaps port), bit_zero]
  simp

end Pages

end Guest

end Hypervisor
