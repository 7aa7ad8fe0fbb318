import Hypervisor.Proofs.Ownership.Confined
import Hypervisor.Proofs.Ownership.Requests

/-!
# The pages that guests send

A guest that sends a message may send a page with it, by its address.  Only the lower 48 bits of the
address tell which page that is.  Within these a guest can name no page but one of its own memory.
-/

namespace Hypervisor

namespace Region

/-- The addresses of a guest of a given size: those below its size, those in the low memory that every
guest has, and those of the text buffer. -/
def Inside (physSize : UInt64) (a : Nat) : Prop :=
  a < max physSize.toNat Layout.holeStart.toNat ∨
    Hypervisor.videoBuffer.toNat ≤ a ∧ a < Hypervisor.videoBuffer.toNat + pageSize.toNat

instance (physSize : UInt64) (a : Nat) : Decidable (Inside physSize a) :=
  inferInstanceAs (Decidable (_ ∨ _))

theorem inside_of_number_mem {g : Gpa} {physSize : UInt64} (hwhole : physSize.toNat % 4096 = 0)
    (h : g.number ∈ extent physSize) : Inside physSize (g.val.toNat % 2 ^ 48) := by
  have hnumber := Address.toNat_number g
  rcases h with hsize | hlow | hbuffer
  · left
    omega
  · left
    have hlow : g.number.toNat * 4096 < 0xa0000 := hlow
    show _ < max physSize.toNat 0xa0000
    omega
  · right
    have hn : g.number.toNat = 0xb8 := congrArg BitVec.toNat hbuffer
    show 0xb8000 ≤ _ ∧ _ < 0xb8000 + 4096
    omega

end Region

namespace Session

open Hypervisor.Action Memory

variable {reason : ExitReason} {s : Session} {root : Hpa} {a : Account}

/-- Where in host memory the page is that goes with a message of the guest: RDX is its address, and
the table with this root has to map it. -/
def sentPage (s : Session) (root : Hpa) : Option Hva :=
  (Address.ofWord? s.context.regs.rdx : Option Gpa).bind fun g =>
    (s.host.memory.translation root g.number).map (Ept.backing g)

/-- Of the kernel nothing was asked, or one message to be sent with that page. -/
def Sends (s : Session) (page : Option Hva) (t : Session) : Prop :=
  t.host.kernel.requests = s.host.kernel.requests ∨ ∃ receiver, t.host.kernel.requests =
    s.host.kernel.requests.push
      (.send receiver s.context.regs.rcx.toUInt32 page s.context.regs.rsi.toUInt32)

theorem Sends.congr {page : Option Hva} {t u : Session} (h : s.Sends page t)
    (hsame : u.host.kernel.requests = t.host.kernel.requests) : s.Sends page u := by
  rwa [Sends, hsame]

theorem continueAfter_sends {page : Option Hva} {t : Session} (h : s.Sends page t) :
    continueAfter.Ends t (fun _ => s.Sends page) (fun _ => s.Sends page) fun _ => s.Sends page := by
  rw [continueAfter, ends_bind, forwardRip, ends_bind, onHost, ends_onPart]
  refine Host.vmread_ends (fun p _ => ?_) (fun _ => h) fun _ _ => h
  rw [ends_bind, ends_get, ends_ite]
  split
  · exact h
  · exact h

theorem sendMessage_sends (hroot : s.guest.table.root = some root) (hb : s.host.memory.Balanced a)
    (hlevel : a.level root = some 3) :
    sendMessage.Ends s
      (fun _ t => s.Sends (s.sentPage root) t) (fun _ _ => False) fun _ _ => False := by
  rw [sendMessage, ends_bind, ends_get]
  dsimp only
  cases hrdx : (Address.ofWord? s.context.regs.rdx : Option Gpa) with
  | none =>
      have hpage : s.sentPage root = none := by rw [sentPage, hrdx, Option.bind_none]
      rw [ends_bind, ends_pure, ← hpage]
      split
      · exact .inr ⟨_, rfl⟩
      · exact .inl rfl
  | some g =>
      rw [ends_bind, ends_onMemory]
      refine Ends.mono (Ept.resolve_ends (P := True) (E := fun _ _ => False) hroot fun _ => ⟨hb, hlevel⟩)
        ?_ (fun _ _ h => h) fun _ _ h => h.2 trivial
      rintro page _ ⟨rfl, hpage⟩
      have hsent : page = s.sentPage root := by rw [sentPage, hrdx, Option.bind_some, hpage trivial]
      rw [hsent]
      split
      · exact .inr ⟨_, rfl⟩
      · exact .inl rfl

/-- However the request of a guest that sends a message ends. -/
theorem handleHypercall_sends (hcall : Hypercall.ofNumber? s.context.regs.rax = some .send)
    (hroot : s.guest.table.root = some root) (hb : s.host.memory.Balanced a)
    (hlevel : a.level root = some 3) :
    (handleHypercall reason).Ends s (fun _ t => s.Sends (s.sentPage root) t)
      (fun _ t => s.Sends (s.sentPage root) t) fun _ t => s.Sends (s.sentPage root) t := by
  rw [handleHypercall, ends_bind, ends_get]
  dsimp only
  rw [hcall]
  dsimp only
  rw [ends_bind]
  refine Ends.mono (sendMessage_sends hroot hb hlevel) (fun status t ht => ?_)
    (fun _ _ h => h.elim) fun _ _ h => h.elim
  rw [ends_bind]
  exact continueAfter_sends (ht.congr rfl)

end Session

namespace Machine

open Hypervisor.Action Session

variable {m : Machine} {k : Callers} {j : Nat} {v : Vm}

/-- A page that the table of a guest has for RDX is inside the guest, but for the upper bits of RDX. -/
theorem inside_of_sentPage (h : History Measured m k) (hf : m.memory.Fits)
    (hv : m.vms[j]? = some (some v)) {c : Cpu} {context : Context} {budget : Option Nat} {root : Hpa}
    (hroot : v.guest.table.root = some root) {p : Hva}
    (hp : (m.trapped c v.guest context budget).sentPage root = some p) :
    context.regs.rdx < 0xffff000000000000 ∧
      Region.Inside v.guest.physSize (context.regs.rdx.toNat % 2 ^ 48) := by
  obtain ⟨hk, hc⟩ := h.confined
  obtain ⟨g, hg, hmap⟩ := Option.bind_eq_some_iff.1 hp
  obtain ⟨hvalid, hrdx⟩ := Address.ofWord?_eq_some.1 hg
  have hin : g.number ∈ Region.extent v.guest.physSize := by
    by_contra hout
    have hnone : m.memory.translation root g.number = none :=
      hc hf v root (Array.mem_of_getElem? hv) hroot _ hout
    obtain ⟨_, hsome, -⟩ := Option.map_eq_some_iff.1 hmap
    cases hnone.symm.trans hsome
  have hinside := Region.inside_of_number_mem (hk.whole hv) hin
  rw [hrdx] at hinside
  exact ⟨of_decide_eq_true hvalid, hinside⟩

/-- Whatever the registers of a guest are when it sends a message, the page that goes with the message
is one of the guest's own: the lower 48 bits of RDX are an address inside.  The upper bits are not
looked at, as long as they are not all set. -/
theorem sent_page_inside (h : History Measured m k) (hf : m.memory.Fits)
    (hv : m.vms[j]? = some (some v)) (c : Cpu) (reason : ExitReason) (context : Context)
    (budget : Option Nat) (hcall : Hypercall.ofNumber? context.regs.rax = some .send) :
    ∃ page : Option Hva,
      (page ≠ none → context.regs.rdx < 0xffff000000000000 ∧
        Region.Inside v.guest.physSize (context.regs.rdx.toNat % 2 ^ 48)) ∧
      (handleHypercall reason).Ends (m.trapped c v.guest context budget)
        (fun _ t => (m.trapped c v.guest context budget).Sends page t)
        (fun _ t => (m.trapped c v.guest context budget).Sends page t)
        fun _ t => (m.trapped c v.guest context budget).Sends page t := by
  obtain ⟨hk, -⟩ := h.confined
  obtain ⟨root, hg⟩ := hk.lodged hv
  have howned : (m.trapped c v.guest context budget).host.memory.Owned (m.estate k) False :=
    (hk.owned hf).of_pages_eq rfl rfl
  obtain ⟨a, hm⟩ := howned
  refine ⟨(m.trapped c v.guest context budget).sentPage root, fun hpage => ?_,
    handleHypercall_sends hcall hg.root hm.balanced (hm.level hg.mem)⟩
  obtain ⟨p, hp⟩ := Option.ne_none_iff_exists'.1 hpage
  exact inside_of_sentPage h hf hv hg.root hp

/-- The page that goes with the message of a guest, if that is the last request of the kernel. -/
def lastSent (s : Session) : Option Hva :=
  match s.host.kernel.requests.back? with
  | some (.send _ _ page _) => page
  | _ => none

/-- What the first guest sends from the first cpu, with an address in RDX. -/
def pageSent (m : Machine) (rdx : UInt64) : Option Hva :=
  m.cpus[0]?.bind fun c => m.vms[0]?.join.bind fun v => lastSent <|
    (handleHypercall (.fromGuest (.code .vmcall))).final
      (m.trapped c v.guest { regs := { rax := 2, rbx := 1, rdx := rdx } } none)

/-- A guest that has touched a page sends it. -/
theorem sent_page_inside_touchesLow : ∃ m k v page, History Measured m k ∧ m.memory.Fits ∧
    m.vms[0]? = some (some v) ∧ page ≠ none ∧ m.pageSent 0x5000 = page ∧
      Region.Inside v.guest.physSize 0x5000 := by
  have hallowed : ∀ c ∈ touchesLow, ∀ m k, Measured c m k := by
    intro c hc m k
    simp only [touchesLow, List.mem_cons, List.not_mem_nil, or_false] at hc
    rcases hc with rfl | rfl | rfl <;> exact ⟨trivial, trivial⟩
  obtain ⟨m, k, h, hf, hpresent, hcpu, hnone, hsends⟩ :=
    (History.booted uniprocessor_booted).exists_after
      (P := fun m => m.memory.Fits ∧ m.vms[0]?.join.isSome ∧ m.cpus[0]?.isSome ∧
        m.kernel.requests.isEmpty ∧ m.pageSent 0x5000 ≠ none) hallowed (by decide +kernel)
  obtain ⟨v, hv⟩ := Option.isSome_iff_exists.1 hpresent
  obtain ⟨c, hc⟩ := Option.isSome_iff_exists.1 hcpu
  have hvm := Option.join_eq_some_iff.1 hv
  obtain ⟨page, hinside, hends⟩ := sent_page_inside h hf hvm c (.fromGuest (.code .vmcall))
    { regs := { rax := 2, rbx := 1, rdx := 0x5000 } } none (by decide)
  have hlast : m.pageSent 0x5000 = none ∨ m.pageSent 0x5000 = page := by
    have hfinal := hends.final
    rw [pageSent, hc, Option.bind_some, hv, Option.bind_some, lastSent]
    rcases hfinal with hsame | ⟨receiver, hpush⟩
    · left
      have hempty : m.kernel.requests = #[] := Array.isEmpty_iff.1 hnone
      rw [hsame.trans hempty]
      rfl
    · right
      rw [hpush, Array.back?_push]
  have hpage := hlast.resolve_left hsends
  have hsome : page ≠ none := hpage ▸ hsends
  exact ⟨m, k, v, page, h, hf, hvm, hsome, hpage, (hinside hsome).2⟩

/-- The guest sends the same page from an address far beyond its memory. -/
theorem sent_page_aliased :
    (uniprocessor.after touchesLow).bind (pageSent · 0x1000000005000) =
        (uniprocessor.after touchesLow).bind (pageSent · 0x5000) ∧
      ((uniprocessor.after touchesLow).bind (pageSent · 0x1000000005000)).isSome ∧
      ¬ Region.Inside 0x1000 0x1000000005000 := by
  decide +kernel

end Machine

end Hypervisor
