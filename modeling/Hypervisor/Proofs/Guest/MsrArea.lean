import Hypervisor.Guest.MsrArea
import Hypervisor.Proofs.Memory.References
import Hypervisor.Proofs.Word

/-!
# The page of switched registers

The page lists the switched registers twice, with the values of the host in its first half and with
those of the guest in its second.  What is written as a value of the guest is found there again, and
nothing else in the page changes.
-/

namespace Hypervisor

/-- The value of a register in a list of `count`, if it is there. -/
def Memory.listed? (m : Memory) (area : Hpa) (count : Nat) (msr : MsrIndex) : Option UInt64 :=
  let word := (m.words area).word
  let start := Guest.areaStart area
  ((List.range count).find? fun i => (word (start + 2 * i)).toUInt32 == msr).map fun i =>
    word (start + 2 * i + 1)

structure PageWords.Lists (ws : PageWords) (host guest : UInt64) : Prop where
  hostIndex : (ws.word 0).toUInt32 = MsrIndex.efer
  host : ws.word 1 = host
  guestIndex : (ws.word 256).toUInt32 = MsrIndex.efer
  guest : ws.word 257 = guest

namespace PageWords

variable {ws : PageWords} {host guest : UInt64}

theorem Lists.setWord (h : ws.Lists host guest) (w : UInt64) : (ws.setWord 257 w).Lists host w where
  hostIndex := by
    rw [word_setWord_of_ne _ _ (by decide)]
    exact h.hostIndex
  host := by
    rw [word_setWord_of_ne _ _ (by decide)]
    exact h.host
  guestIndex := by
    rw [word_setWord_of_ne _ _ (by decide)]
    exact h.guestIndex
  guest := word_setWord _ _ (by decide)

theorem lists_writeMsrs (ws : PageWords) (host : UInt64) :
    (Guest.writeMsrs (Guest.writeMsrs ws 0 [(.efer, host)]) 256 [(.efer, 0)]).Lists host 0 where
  hostIndex := by
    simp only [Guest.writeMsrs]
    rw [word_setWord_of_ne _ _ (by decide), word_setWord_of_ne _ _ (by decide),
      word_setWord_of_ne _ _ (by decide), word_setWord _ _ (by decide)]
    decide
  host := by
    simp only [Guest.writeMsrs]
    rw [word_setWord_of_ne _ _ (by decide), word_setWord_of_ne _ _ (by decide),
      word_setWord _ _ (by decide)]
  guestIndex := by
    simp only [Guest.writeMsrs]
    rw [word_setWord_of_ne _ _ (by decide), word_setWord _ _ (by decide)]
    decide
  guest := word_setWord _ _ (by decide)

end PageWords

namespace Guest

open Hypervisor.Action Memory

variable {g : Guest} {m : Memory} {host guest : UInt64} {ε : Type}

section Aligned

variable (h : g.msrPage.isPageAligned = true)

include h

/-- Both lists of registers are in one page. -/
theorem guestMsrArea_pageDown : g.guestMsrArea.pageDown = g.msrPage := by
  have haligned := Address.isPageAligned_iff.1 h
  have hlt := g.msrPage.val.toNat_lt
  have hval : g.guestMsrArea.pageDown.val.toNat = g.msrPage.val.toNat := by
    rw [Address.toNat_pageDown, guestMsrArea, Address.plus, UInt64.toNat_add,
      show (pageSize / 2).toNat = 2048 from rfl]
    omega
  exact congrArg Address.mk (UInt64.toNat_inj.1 hval)

theorem areaStart_hostMsrArea : areaStart g.hostMsrArea = 0 := by
  have haligned := Address.isPageAligned_iff.1 h
  rw [areaStart, hostMsrArea, Address.toNat_pageOffset, haligned]

theorem areaStart_guestMsrArea : areaStart g.guestMsrArea = 256 := by
  have haligned := Address.isPageAligned_iff.1 h
  have hlt := g.msrPage.val.toNat_lt
  rw [areaStart, Address.toNat_pageOffset, guestMsrArea, Address.plus, UInt64.toNat_add,
    show (pageSize / 2).toNat = 2048 from rfl]
  omega

theorem words_guestMsrArea (m : Memory) : m.words g.guestMsrArea = m.words g.msrPage := by
  rw [words, words, guestMsrArea_pageDown h, Address.pageDown_of_isPageAligned h]

theorem words_edited_msrPage {area : Hpa} (harea : area.pageDown = g.msrPage)
    (hlive : g.msrPage ∈ m.pages) (f : PageWords → PageWords) :
    (m.edited area f).words g.msrPage = f (m.words g.msrPage) := by
  rw [words_edited _ (harea.symm ▸ hlive), if_pos]
  rw [harea, Address.pageDown_of_isPageAligned h]

end Aligned

/-- The guest has its registers listed in its page, the extended-feature register with these values. -/
structure Switches (g : Guest) (m : Memory) (host guest : UInt64) : Prop where
  count : g.msrCount = switchedMsrs.length
  live : g.msrPage ∈ m.pages
  aligned : g.msrPage.isPageAligned = true
  lists : (m.words g.msrPage).Lists host guest

namespace Switches

variable (h : g.Switches m host guest)

include h

theorem listed_host : m.listed? g.hostMsrArea g.msrCount .efer = some host := by
  have hindex : ((m.words g.msrPage).word 0).toUInt32 == MsrIndex.efer := beq_iff_eq.2 h.lists.hostIndex
  rw [listed?, areaStart_hostMsrArea h.aligned, h.count, hostMsrArea, ← h.lists.host]
  simp [switchedMsrs, List.range_one, hindex]

theorem listed_guest : m.listed? g.guestMsrArea g.msrCount .efer = some guest := by
  have hindex : ((m.words g.msrPage).word 256).toUInt32 == MsrIndex.efer :=
    beq_iff_eq.2 h.lists.guestIndex
  rw [listed?, areaStart_guestMsrArea h.aligned, h.count, words_guestMsrArea h.aligned,
    ← h.lists.guest]
  simp [switchedMsrs, List.range_one, hindex]

theorem findMsr_ends : (findMsr g.guestMsrArea g.msrCount .efer : MemoryM ε (Option Nat)).Ends m
    (fun i m' => m' = m ∧ i = some 257) (fun _ _ => False) fun _ _ => False := by
  have hindex : ((m.words g.msrPage).word 256).toUInt32 == MsrIndex.efer :=
    beq_iff_eq.2 h.lists.guestIndex
  rw [findMsr, ends_bind]
  refine pageWords_ends (fun _ => ?_) fun _ hfree => hfree ?_
  · rw [ends_pure, areaStart_guestMsrArea h.aligned, h.count, words_guestMsrArea h.aligned]
    simp [switchedMsrs, List.range_one, hindex]
  · rw [guestMsrArea_pageDown h.aligned]
    exact h.live

theorem edited (w : UInt64) :
    g.Switches (m.edited g.guestMsrArea fun ws => ws.setWord 257 w) host w where
  count := h.count
  live := (mem_edited _).2 h.live
  aligned := h.aligned
  lists := by
    rw [words_edited_msrPage h.aligned (guestMsrArea_pageDown h.aligned) h.live]
    exact h.lists.setWord w

end Switches

theorem listMsrs_ends (hcount : g.msrCount = switchedMsrs.length)
    (haligned : g.msrPage.isPageAligned = true) (rdmsr : MsrIndex → UInt64) :
    (g.listMsrs rdmsr : MemoryM ε Unit).Ends m (fun _ m' => g.Switches m' (rdmsr .efer) 0)
      (fun _ _ => False) fun _ _ => True := by
  have hhost : g.hostMsrArea.pageDown = g.msrPage := Address.pageDown_of_isPageAligned haligned
  have hguest := guestMsrArea_pageDown haligned
  rw [listMsrs, ends_bind]
  refine editPage_ends (fun hlive => ?_) fun _ _ => trivial
  refine editPage_ends (fun hlive' => ?_) fun _ _ => trivial
  rw [hhost] at hlive
  rw [hguest] at hlive'
  refine ⟨hcount, (mem_edited _).2 hlive', haligned, ?_⟩
  rw [words_edited_msrPage haligned hguest hlive', words_edited_msrPage haligned hhost hlive,
    areaStart_hostMsrArea haligned, areaStart_guestMsrArea haligned]
  exact PageWords.lists_writeMsrs _ _

end Guest

end Hypervisor
