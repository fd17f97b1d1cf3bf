import RvMiniOs.Drivers.VirtioBlk
import Mathlib.Algebra.BigOperators.Ring.Finset
import Mathlib.Data.Finset.Option

/-!
# Descriptor chains and completions

The invariant of the disk driver, in four parts: the descriptors, the tokens of
the free slots, the requests with their semaphores, and the two rings. A step
touches few of them.
-/
namespace RvMiniOs.Drivers

open Lib Sync Function List Option

def Linked (next : ℕ → ℕ) : ℕ → List ℕ → Prop
  | _, [] => True
  | h, i :: F => i = h ∧ Linked next (next i) F

theorem Linked.congr {next next' : ℕ → ℕ} {F : List ℕ} {h : ℕ} (hF : Linked next h F)
    (heq : ∀ i ∈ F, next' i = next i) : Linked next' h F := by
  induction F generalizing h with
  | nil => trivial
  | cons i F ih =>
    refine ⟨hF.1, ?_⟩
    rw [heq i mem_cons_self]
    exact ih hF.2 fun j hj => heq j (mem_cons_of_mem i hj)

theorem linked_range' {next : ℕ → ℕ} (k h : ℕ) (hnext : ∀ i, i + 1 < h + k → next i = i + 1) :
    Linked next h (range' h k) := by
  induction k generalizing h with
  | zero => trivial
  | succ k ih =>
    refine ⟨rfl, ?_⟩
    cases k with
    | zero => trivial
    | succ k =>
      rw [hnext h (by omega)]
      exact ih (h + 1) fun i hi => hnext i (by omega)

def chain (next : ℕ → ℕ) (h : ℕ) : List ℕ := [h, next h, next (next h)]

theorem chain_congr {next next' : ℕ → ℕ} {h : ℕ} (heq : ∀ i ∈ chain next h, next' i = next i) :
    chain next' h = chain next h := by
  have h0 := heq h (by simp [chain])
  have h1 := heq (next h) (by simp [chain])
  simp [chain, h0, h1]

def Phase.req : Phase → Option ℕ
  | .submitted r | .waiting r | .completed r | .unchained r _ => some r
  | .outside | .slotWait | .granted | .relinked => none

def Phase.awaits : Phase → Option ℕ
  | .submitted r | .waiting r => some r
  | _ => none

def Phase.flagged : Phase → Option ℕ
  | .submitted r | .waiting r | .completed r => some r
  | _ => none

def Phase.status : Phase → Option ℕ
  | .unchained _ status => some status
  | _ => none

def Phase.token : Phase → ℕ
  | .outside | .slotWait => 0
  | _ => 1

namespace Sys

def next (s : Sys) (i : ℕ) : ℕ := (s.driver.desc i).next

def chainOf (s : Sys) (t : ℕ) : List ℕ :=
  match (s.phase t).req with
  | none => []
  | some r => chain s.next (s.req r).head

def unhandled (s : Sys) : List ℕ :=
  if s.handler = .posted then s.usedQ.tail else s.usedQ

end Sys

def Flagged (desc : ℕ → VirtqDesc) (h : ℕ) : Prop :=
  (desc h).flags &&& virtqDescFNext ≠ 0 ∧
    (desc (desc h).next).flags &&& virtqDescFNext ≠ 0 ∧
    (desc (desc (desc h).next).next).flags &&& virtqDescFNext = 0

variable (T : Finset ℕ) (n : ℕ)

structure Chains (s : Sys) : Prop where
  num : s.driver.num = n
  free : ∃ F, Linked s.next s.driver.freeHeadIdx F ∧ Split T n F s.chainOf
  inflight : ∀ t ∈ T, ∀ r, (s.phase t).req = some r → s.driver.inflight (s.req r).head = some r
  flagged : ∀ t ∈ T, ∀ r, (s.phase t).flagged = some r → Flagged s.driver.desc (s.req r).head
  status : ∀ t ∈ T, ∀ r i, (s.phase t).req = some r → (s.phase t).status = some i →
    i = s.next (s.next (s.req r).head)

structure Slots (s : Sys) : Prop where
  consistent : s.driver.freeSlots.Consistent
  tokens : s.driver.freeSlots.count + (∑ t ∈ T, (s.phase t).token : ℕ) = (n / 3 : ℕ)
  wq_nodup : s.driver.freeSlots.wq.Nodup
  wq_iff : ∀ t, t ∈ s.driver.freeSlots.wq ↔ t ∈ T ∧ s.phase t = .slotWait

def SemOk (t : ℕ) (p : Phase) (sem : ℕ → Semaphore) (posted : ℕ → List ℕ) : Prop :=
  match p with
  | .submitted r => sem r = ⟨(posted r).length, []⟩
  | .waiting r => sem r = ⟨0, [t]⟩ ∧ posted r = []
  | .completed r | .unchained r _ => posted r ≠ []
  | .outside | .slotWait | .granted | .relinked => True

structure Requests (s : Sys) : Prop where
  away : ∀ t, t ∉ T → s.phase t = .outside
  lt : ∀ t r, (s.phase t).req = some r → r < s.count
  inj : ∀ t u r, (s.phase t).req = some r → (s.phase u).req = some r → t = u
  sem : ∀ t, SemOk t (s.phase t) (fun r => (s.req r).completionSem) s.postedBy
  awaited : ∀ r < s.count, s.postedBy r = [] → ∃ t ∈ T, (s.phase t).awaits = some r

structure Rings (s : Sys) : Prop where
  avail : s.driver.avail.Holds n s.devSeen (s.availQ.map fun r => (s.req r).head)
  pending : ∀ p ∈ s.pending, p.1 = (s.req p.2).head
  used : ∃ q, s.driver.used.Holds n s.driver.lastSeenUsed q ∧
    q.map VirtqUsedElem.id = s.usedQ.map fun r => (s.req r).head
  once : ∀ r, s.availQ.count r + (s.pending.map Prod.snd).count r + s.unhandled.count r +
    (s.postedBy r).length = if r < s.count then 1 else 0
  own : ∀ r, ∀ e ∈ s.postedBy r, e = r
  acked : ∀ elem, s.handler = .acked elem →
    ∃ r q, s.usedQ = r :: q ∧ elem.id = (s.req r).head
  posted : s.handler = .posted → ∃ r q, s.usedQ = r :: q ∧ r < s.count

structure Inv (s : Sys) : Prop where
  chains : Chains T n s
  slots : Slots T n s
  requests : Requests T s
  rings : Rings n s

theorem inv_initial (hn : 0 < n) : Inv T n (.initial n) where
  chains :=
    { num := rfl
      free := by
        refine ⟨range' 0 n, linked_range' n 0 fun i hi => ?_, fun i => ?_, ?_⟩
        · have : i < n - 1 := by omega
          simp [Sys.next, Sys.initial, initFreeList, this]
        · simp only [Sys.chainOf, Sys.initial, Phase.req, count_nil, Finset.sum_const_zero,
            Nat.add_zero]
          by_cases hi : i < n
          · rw [if_pos hi]
            exact count_eq_one_of_mem (nodup_range' ..) (by simp [hi])
          · rw [if_neg hi]
            exact count_eq_zero_of_not_mem (by simp [hi])
        · simp [Sys.chainOf, Sys.initial, Phase.req]
      inflight := by simp [Sys.initial, Phase.req]
      flagged := by simp [Sys.initial, Phase.flagged]
      status := by simp [Sys.initial, Phase.req] }
  slots :=
    { consistent := semInit_consistent (Int.natCast_nonneg _)
      tokens := by simp [Sys.initial, initFreeList, semInit, Phase.token]
      wq_nodup := by simp [Sys.initial, initFreeList, semInit]
      wq_iff := by simp [Sys.initial, initFreeList, semInit] }
  requests :=
    { away := fun _ _ => rfl
      lt := by simp [Sys.initial, Phase.req]
      inj := by simp [Sys.initial, Phase.req]
      sem := fun _ => trivial
      awaited := by simp [Sys.initial] }
  rings :=
    { avail := IndexRing.holds_nil _
      pending := by simp [Sys.initial]
      used := ⟨[], IndexRing.holds_nil _, rfl⟩
      once := by simp [Sys.initial, Sys.unhandled]
      own := by simp [Sys.initial]
      acked := by simp [Sys.initial]
      posted := by simp [Sys.initial] }

variable {T n} {s s' : Sys} {a : ℕ}

def Phase.held (p : Phase) : ℕ := if p.req.isSome then 1 else 0

theorem Phase.held_le_token (p : Phase) : p.held ≤ p.token := by
  cases p <;> simp [held, req, token]

theorem Phase.awaits_le_held (p : Phase) : p.awaits.toFinset.card ≤ p.held := by
  cases p <;> simp [held, req, awaits]

theorem length_chainOf (s : Sys) (t : ℕ) : (s.chainOf t).length = 3 * (s.phase t).held := by
  unfold Sys.chainOf Phase.held
  cases (s.phase t).req <;> simp [chain]

namespace Inv

theorem tokens_le (h : Inv T n s) : ∑ t ∈ T, (s.phase t).token ≤ n / 3 := by
  have htokens := h.slots.tokens
  have hnonneg := h.slots.consistent.nonneg
  omega

theorem underway_le (h : Inv T n s) :
    s.availQ.length + s.pending.length + s.unhandled.length ≤ ∑ t ∈ T, (s.phase t).held := by
  set L := s.availQ ++ s.pending.map Prod.snd ++ s.unhandled with hL
  have hcount : ∀ r, L.count r + (s.postedBy r).length = if r < s.count then 1 else 0 := by
    intro r
    rw [hL, count_append, count_append]
    exact h.rings.once r
  have hnodup : L.Nodup := nodup_iff_count_le_one.mpr fun r => by
    have := hcount r
    split_ifs at this <;> omega
  have hsub : L.toFinset ⊆ T.biUnion fun t => (s.phase t).awaits.toFinset := by
    intro r hr
    have hpos : 0 < L.count r := count_pos_iff.mpr (mem_toFinset.mp hr)
    have hone := hcount r
    split_ifs at hone with hlt
    · have hnil : s.postedBy r = [] := eq_nil_of_length_eq_zero (by omega)
      obtain ⟨t, ht, hawaits⟩ := h.requests.awaited r hlt hnil
      exact Finset.mem_biUnion.mpr ⟨t, ht, by simp [hawaits]⟩
    · omega
  calc s.availQ.length + s.pending.length + s.unhandled.length
      = L.toFinset.card := by
        rw [toFinset_card_of_nodup hnodup, hL]
        simp [Nat.add_assoc]
    _ ≤ (T.biUnion fun t => (s.phase t).awaits.toFinset).card := Finset.card_le_card hsub
    _ ≤ ∑ t ∈ T, (s.phase t).awaits.toFinset.card := Finset.card_biUnion_le
    _ ≤ ∑ t ∈ T, (s.phase t).held := Finset.sum_le_sum fun t _ => (s.phase t).awaits_le_held

theorem held_lt_of_granted (h : Inv T n s) (ha : a ∈ T) (hphase : s.phase a = .granted) :
    ∑ t ∈ T, (s.phase t).held < n / 3 := by
  refine lt_of_lt_of_le (Finset.sum_lt_sum (fun t _ => (s.phase t).held_le_token) ⟨a, ha, ?_⟩)
    h.tokens_le
  simp [hphase, Phase.held, Phase.req, Phase.token]

theorem held_le (h : Inv T n s) : ∑ t ∈ T, (s.phase t).held ≤ n / 3 :=
  (Finset.sum_le_sum fun t _ => (s.phase t).held_le_token).trans h.tokens_le

end Inv

@[simp] theorem setPhase_phase_self (p : Phase) : (s.setPhase a p).phase a = p := by
  simp [Sys.setPhase]

theorem setPhase_phase_of_ne {t : ℕ} (h : t ≠ a) (p : Phase) : (s.setPhase a p).phase t = s.phase t := by
  simp [Sys.setPhase, h]

theorem forall_setPhase {P : ℕ → Phase → Prop} {p : Phase} (hself : P a p)
    (hrest : ∀ t, t ≠ a → P t (s.phase t)) (t : ℕ) : P t ((s.setPhase a p).phase t) := by
  rcases eq_or_ne t a with rfl | hne
  · rwa [setPhase_phase_self]
  · rw [setPhase_phase_of_ne hne]
    exact hrest t hne

def Phase.SameChain (p p' : Phase) : Prop :=
  p'.req = p.req ∧ p'.flagged = p.flagged ∧ p'.status = p.status

def Phase.Alike (p p' : Phase) : Prop :=
  p.SameChain p' ∧ p'.token = p.token ∧ (p' = .slotWait ↔ p = .slotWait)

theorem alike_setPhase (s : Sys) {p : Phase} (hp : (s.phase a).Alike p) :
    ∀ t, (s.phase t).Alike ((s.setPhase a p).phase t) :=
  forall_setPhase (P := fun t p => (s.phase t).Alike p) hp
    fun _ _ => ⟨⟨rfl, rfl, rfl⟩, rfl, Iff.rfl⟩

theorem Chains.congr (h : Chains T n s) (hnum : s'.driver.num = s.driver.num)
    (hdesc : s'.driver.desc = s.driver.desc) (hfree : s'.driver.freeHeadIdx = s.driver.freeHeadIdx)
    (hinflight : s'.driver.inflight = s.driver.inflight) (hhead : ∀ r, (s'.req r).head = (s.req r).head)
    (hphase : ∀ t, (s.phase t).SameChain (s'.phase t)) : Chains T n s' := by
  have hnext : s'.next = s.next := funext fun i => by simp only [Sys.next, hdesc]
  have hchain : s'.chainOf = s.chainOf := funext fun t => by
    simp only [Sys.chainOf, (hphase t).1, hnext, hhead]
  refine ⟨hnum.trans h.num, ?_, fun t ht r hr => ?_, fun t ht r hr => ?_, fun t ht r i hr hi => ?_⟩
  · rw [hnext, hchain, hfree]
    exact h.free
  · rw [hinflight, hhead]
    exact h.inflight t ht r ((hphase t).1 ▸ hr)
  · rw [hdesc, hhead]
    exact h.flagged t ht r ((hphase t).2.1 ▸ hr)
  · rw [hnext, hhead]
    exact h.status t ht r i ((hphase t).1 ▸ hr) ((hphase t).2.2 ▸ hi)

theorem Slots.congr (h : Slots T n s) (hsem : s'.driver.freeSlots = s.driver.freeSlots)
    (htoken : ∀ t, (s'.phase t).token = (s.phase t).token)
    (hwait : ∀ t, s'.phase t = .slotWait ↔ s.phase t = .slotWait) : Slots T n s' where
  consistent := hsem ▸ h.consistent
  tokens := by
    rw [hsem, Finset.sum_congr rfl fun t _ => htoken t]
    exact h.tokens
  wq_nodup := hsem ▸ h.wq_nodup
  wq_iff := fun t => by rw [hsem, h.wq_iff t, hwait t]

theorem Slots.setPhase (h : Slots T n s) (hsem : s'.driver.freeSlots = s.driver.freeSlots) {p : Phase}
    (hphase : s'.phase = (s.setPhase a p).phase) (htoken : p.token = (s.phase a).token)
    (hwait : p = .slotWait ↔ s.phase a = .slotWait) : Slots T n s' :=
  h.congr hsem
    (hphase ▸ forall_setPhase (P := fun t p => p.token = (s.phase t).token) htoken fun _ _ => rfl)
    (hphase ▸ forall_setPhase (P := fun t p => p = .slotWait ↔ s.phase t = .slotWait) hwait fun _ _ => Iff.rfl)

theorem Rings.congr (h : Rings n s) (havail : s'.driver.avail = s.driver.avail)
    (hused : s'.driver.used = s.driver.used) (hlast : s'.driver.lastSeenUsed = s.driver.lastSeenUsed)
    (hdev : s'.devSeen = s.devSeen) (hpending : s'.pending = s.pending) (hA : s'.availQ = s.availQ)
    (hU : s'.usedQ = s.usedQ) (hhandler : s'.handler = s.handler) (hby : s'.postedBy = s.postedBy)
    (hcount : s'.count = s.count) (hhead : ∀ r, (s'.req r).head = (s.req r).head) : Rings n s' := by
  constructor <;>
    simp only [Sys.unhandled, havail, hused, hlast, hdev, hpending, hA, hU, hhandler, hby, hcount, hhead]
  · exact h.avail
  · exact h.pending
  · exact h.used
  · exact h.once
  · exact h.own
  · exact h.acked
  · exact h.posted

theorem Requests.driver (h : Requests T s) (d : VirtioBlkDriver) :
    Requests T { s with driver := d } :=
  { h with }

theorem Requests.setPhase (h : Requests T s) (ha : a ∈ T) {p : Phase}
    (hreq : p.req = (s.phase a).req ∨ p.req = none) (hawaits : p.awaits = (s.phase a).awaits)
    (hsem : SemOk a p (fun r => (s.req r).completionSem) s.postedBy) : Requests T (s.setPhase a p) where
  away := forall_setPhase (P := fun t p => t ∉ T → p = .outside) (fun hout => absurd ha hout)
    fun t _ => h.away t
  lt := forall_setPhase (P := fun _ p => ∀ r, p.req = some r → r < s.count)
    (fun r hr => by
      rcases hreq with heq | hnone
      · exact h.lt a r (heq ▸ hr)
      · simp [hnone] at hr)
    fun t _ => h.lt t
  inj := by
    have hold : ∀ t r, ((s.setPhase a p).phase t).req = some r → (s.phase t).req = some r :=
      forall_setPhase (P := fun t p => ∀ r, p.req = some r → (s.phase t).req = some r)
        (fun r hr => by
          rcases hreq with heq | hnone
          · exact heq ▸ hr
          · simp [hnone] at hr)
        fun t _ r hr => hr
    exact fun t u r ht hu => h.inj t u r (hold t r ht) (hold u r hu)
  sem := forall_setPhase (P := fun t p => SemOk t p _ _) hsem fun t _ => h.sem t
  awaited := fun r hr hnil => by
    obtain ⟨t, ht, hawait⟩ := h.awaited r hr hnil
    refine ⟨t, ht, ?_⟩
    rcases eq_or_ne t a with rfl | hne
    · rwa [setPhase_phase_self, hawaits]
    · rwa [setPhase_phase_of_ne hne]

theorem token_setPhase (s : Sys) (ha : a ∈ T) (p : Phase) : ∑ t ∈ T,
    ((s.setPhase a p).phase t).token + (s.phase a).token = ∑ t ∈ T, (s.phase t).token + p.token := by
  have hsum := sum_change (f := fun t => ((s.setPhase a p).phase t).token)
    (g := fun t => (s.phase t).token) ha fun t _ hne => by rw [setPhase_phase_of_ne hne]
  rwa [setPhase_phase_self] at hsum

theorem inv_slot (h : Inv T n s) (ha : a ∈ T) (hphase : s.phase a = .outside)
    (hstep : (Op.slot a).apply s = some s') : Inv T n s' := by
  have hs := h.slots
  simp only [Op.apply, hphase, if_true] at hstep
  rcases Int.lt_or_le 0 s.driver.freeSlots.count with hpos | hzero
  · simp only [semWait_pos a hpos, some.injEq] at hstep
    subst hstep
    refine ⟨h.chains.congr rfl rfl rfl rfl (fun _ => rfl) ?_, ⟨hs.consistent.taken hpos, ?_,
      hs.wq_nodup, fun t => ?_⟩, ?_, { h.rings with }⟩
    · exact forall_setPhase (P := fun t p => (s.phase t).SameChain p)
        (by simp [Phase.SameChain, hphase, Phase.req, Phase.flagged, Phase.status])
        fun t _ => ⟨rfl, rfl, rfl⟩
    · have hsum := token_setPhase s ha .granted
      rw [hphase, show Phase.outside.token = 0 from rfl, show Phase.granted.token = 1 from rfl] at hsum
      have htokens := hs.tokens
      show s.driver.freeSlots.count - 1 +
        ((∑ t ∈ T, ((s.setPhase a .granted).phase t).token : ℕ) : ℤ) = (n / 3 : ℕ)
      omega
    · refine (hs.wq_iff t).trans (and_congr_right fun _ => ?_)
      exact forall_setPhase (P := fun t p => s.phase t = .slotWait ↔ p = .slotWait)
        (by simp [hphase]) (fun t _ => Iff.rfl) t
    · exact (h.requests.driver _).setPhase (p := .granted) ha (.inr rfl)
        (by simp [hphase, Phase.awaits]) trivial
  · simp only [semWait_empty a hzero, some.injEq] at hstep
    subst hstep
    refine ⟨h.chains.congr rfl rfl rfl rfl (fun _ => rfl) ?_, ⟨hs.consistent.queue hzero, ?_, ?_,
      fun t => ?_⟩, ?_, { h.rings with }⟩
    · exact forall_setPhase (P := fun t p => (s.phase t).SameChain p)
        (by simp [Phase.SameChain, hphase, Phase.req, Phase.flagged, Phase.status])
        fun t _ => ⟨rfl, rfl, rfl⟩
    · have hsum := token_setPhase s ha .slotWait
      rw [hphase, show Phase.outside.token = 0 from rfl, show Phase.slotWait.token = 0 from rfl]
        at hsum
      have htokens := hs.tokens
      show s.driver.freeSlots.count +
        ((∑ t ∈ T, ((s.setPhase a .slotWait).phase t).token : ℕ) : ℤ) = (n / 3 : ℕ)
      omega
    · have hnot : a ∉ s.driver.freeSlots.wq := fun hmem => by
        simpa [hphase] using ((hs.wq_iff a).mp hmem).2
      exact nodup_append'.mpr ⟨hs.wq_nodup, nodup_singleton a, by simpa using hnot⟩
    · show t ∈ s.driver.freeSlots.wq ++ [a] ↔ t ∈ T ∧ (s.setPhase a .slotWait).phase t = .slotWait
      rw [mem_append, mem_singleton, hs.wq_iff t]
      rcases eq_or_ne t a with rfl | hne
      · simp [ha]
      · simp [setPhase_phase_of_ne hne, hne]
    · exact (h.requests.driver _).setPhase (p := .slotWait) ha (.inr rfl)
        (by simp [hphase, Phase.awaits]) trivial

theorem Inv.of_rings (h : Inv T n s) (hdriver : s'.driver.num = s.driver.num ∧
      s'.driver.desc = s.driver.desc ∧ s'.driver.freeHeadIdx = s.driver.freeHeadIdx ∧
      s'.driver.inflight = s.driver.inflight ∧ s'.driver.freeSlots = s.driver.freeSlots)
    (hphase : s'.phase = s.phase) (hreq : s'.req = s.req) (hcount : s'.count = s.count)
    (hby : s'.postedBy = s.postedBy) (hrings : Rings n s') : Inv T n s' where
  chains := h.chains.congr hdriver.1 hdriver.2.1 hdriver.2.2.1 hdriver.2.2.2.1
    (fun r => by rw [hreq]) fun t => by
      rw [hphase]
      exact ⟨rfl, rfl, rfl⟩
  slots := h.slots.congr hdriver.2.2.2.2 (fun t => by rw [hphase]) fun t => by rw [hphase]
  requests := by
    constructor <;> simp only [hphase, hreq, hcount, hby]
    · exact h.requests.away
    · exact h.requests.lt
    · exact h.requests.inj
    · exact h.requests.sem
    · exact h.requests.awaited
  rings := hrings

variable (hn : n ∣ 2 ^ 16)
include hn

theorem inv_take (h : Inv T n s) (hstep : Op.take.apply s = some s') : Inv T n s' := by
  have hr := h.rings
  simp only [Op.apply] at hstep
  split_ifs at hstep with hidx
  cases hstep
  cases hA : s.availQ with
  | nil =>
    rw [hr.avail.seen_ne_iff (by simp [hA])] at hidx
    simp [hA] at hidx
  | cons r A =>
    have hholds := hr.avail
    rw [hA, map_cons] at hholds
    refine h.of_rings ⟨rfl, rfl, rfl, rfl, rfl⟩ rfl rfl rfl rfl ⟨?_, ?_, hr.used, ?_, hr.own,
      hr.acked, hr.posted⟩
    · simpa [hA] using hholds.pop hn
    · intro p hp
      rcases mem_append.mp hp with hold | hnew
      · exact hr.pending p hold
      · obtain rfl := mem_singleton.mp hnew
        show s.driver.avail.peek s.driver.num s.devSeen = (s.req r).head
        rw [h.chains.num]
        exact hholds.peek_eq
    · intro k
      have hone := hr.once k
      simp only [Sys.unhandled, hA, tail_cons, headD_cons, map_append, map_cons,
        map_nil, count_append, count_cons, count_nil] at hone ⊢
      omega

theorem inv_complete (h : Inv T n s) {k len : ℕ}
    (hstep : (Op.complete k len).apply s = some s') : Inv T n s' := by
  have hr := h.rings
  simp only [Op.apply] at hstep
  obtain ⟨⟨head, r⟩, hget, rfl⟩ := Option.map_eq_some_iff.mp hstep
  obtain ⟨hk, hkget⟩ := List.getElem?_eq_some_iff.mp hget
  have hmem : (head, r) ∈ s.pending := hkget ▸ List.getElem_mem hk
  have hperm : s.pending.Perm ((head, r) :: s.pending.eraseIdx k) := by
    rw [← hkget]
    exact (List.getElem_cons_eraseIdx_perm hk).symm
  have hpos : 0 < s.pending.length := by omega
  have hroom := h.underway_le.trans h.held_le
  -- the element that the handler is at is the only handled one in the ring
  have hused : s.usedQ.length ≤ s.unhandled.length + 1 := by
    unfold Sys.unhandled
    split_ifs <;> simp
    omega
  obtain ⟨q, hq, hids⟩ := hr.used
  have hlen : q.length = s.usedQ.length := by simpa using congrArg List.length hids
  refine h.of_rings ⟨rfl, rfl, rfl, rfl, rfl⟩ rfl rfl rfl rfl ⟨hr.avail, ?_, ?_, ?_, hr.own, ?_, ?_⟩
  · exact fun p hp => hr.pending p (List.mem_of_mem_eraseIdx hp)
  · refine ⟨q ++ [⟨head, len⟩], ?_, ?_⟩
    · show IndexRing.Holds n (s.driver.used.push s.driver.num ⟨head, len⟩) _ _
      rw [h.chains.num]
      exact hq.push hn (by omega) _
    · have hhead : head = (s.req r).head := hr.pending _ hmem
      rw [List.map_append, hids, hhead]
      simp
  · intro j
    have hone := hr.once j
    have hcount := (hperm.map Prod.snd).count_eq j
    simp only [List.map_cons, List.count_cons] at hcount
    have hlive : Sys.unhandled { s with usedQ := s.usedQ ++ [r] } = s.unhandled ++ [r] := by
      unfold Sys.unhandled
      split_ifs with hposted
      · obtain ⟨e, U, hU, -⟩ := hr.posted hposted
        simp [hU]
      · rfl
    simp only [Sys.unhandled] at hlive hone ⊢
    rw [hlive]
    simp only [List.count_append, List.count_cons, List.count_nil]
    omega
  · intro elem helem
    obtain ⟨e, q', hU, hid⟩ := hr.acked elem helem
    exact ⟨e, q' ++ [r], by simp [hU], hid⟩
  · intro hposted
    obtain ⟨e, U, hU, hlt⟩ := hr.posted hposted
    exact ⟨e, U ++ [r], by simp [hU], hlt⟩

theorem inv_advance (h : Inv T n s) (hstep : Op.advance.apply s = some s') : Inv T n s' := by
  have hr := h.rings
  simp only [Op.apply] at hstep
  split_ifs at hstep with hposted
  cases hstep
  obtain ⟨q, hq, hids⟩ := hr.used
  obtain ⟨r, U, hU, -⟩ := hr.posted hposted
  obtain ⟨e, q, rfl⟩ := exists_cons_of_ne_nil (l := q) (by
    rintro rfl
    simp [hU] at hids)
  refine h.of_rings ⟨rfl, rfl, rfl, rfl, rfl⟩ rfl rfl rfl rfl ⟨hr.avail, hr.pending,
    ⟨q, hq.pop hn, ?_⟩, ?_, hr.own, by simp, by simp⟩
  · simp only [hU, map_cons, cons.injEq] at hids
    simpa [hU] using hids.2
  · simpa [Sys.unhandled, hposted] using hr.once

omit hn

theorem inv_ack (h : Inv T n s) (hstep : Op.ack.apply s = some s') : Inv T n s' := by
  have hr := h.rings
  simp only [Op.apply] at hstep
  split_ifs at hstep with hloop hidx <;> cases hstep
  · obtain ⟨q, hq, hids⟩ := hr.used
    have hne : q ≠ [] := by
      rintro rfl
      have := hq.idx
      simp only [length_nil, Nat.add_zero] at this
      rw [Nat.mod_eq_of_lt s.driver.lastSeenUsed.toNat_lt] at this
      exact hidx (UInt16.toNat_inj.mp this.symm)
    obtain ⟨e, q, rfl⟩ := exists_cons_of_ne_nil hne
    obtain ⟨r, U, hU⟩ := exists_cons_of_ne_nil (l := s.usedQ) (by
      intro hnil
      simp [hnil] at hids)
    refine h.of_rings ⟨rfl, rfl, rfl, rfl, rfl⟩ rfl rfl rfl rfl ⟨hr.avail, hr.pending, hr.used, ?_,
      hr.own, ?_, by simp⟩
    · simpa [Sys.unhandled, hloop] using hr.once
    · rintro _ ⟨⟩
      refine ⟨r, U, hU, ?_⟩
      rw [h.chains.num, hq.peek_eq]
      simp only [hU, map_cons, cons.injEq] at hids
      exact hids.1
  · refine h.of_rings ⟨rfl, rfl, rfl, rfl, rfl⟩ rfl rfl rfl rfl ⟨hr.avail, hr.pending, hr.used, ?_,
      hr.own, by simp, by simp⟩
    simpa [Sys.unhandled, hloop] using hr.once

theorem inv_irq (h : Inv T n s) {status : ℕ} (hstep : (Op.irq status).apply s = some s') : Inv T n s' := by
  have hr := h.rings
  simp only [Op.apply] at hstep
  split_ifs at hstep with hout hbit <;> cases hstep
  · exact h
  · refine h.of_rings ⟨rfl, rfl, rfl, rfl, rfl⟩ rfl rfl rfl rfl ⟨hr.avail, hr.pending, hr.used, ?_,
      hr.own, by simp, by simp⟩
    simpa [Sys.unhandled, hout] using hr.once

@[simp] theorem setReq_head {r : ℕ} {q : VirtioBlkReq} (hq : q.head = (s.req r).head) (k : ℕ) :
    ((s.setReq r q).req k).head = (s.req k).head := by
  simp only [Sys.setReq, update_apply]
  split_ifs with hk
  · rw [hk, hq]
  · rfl

theorem setReq_sem (r k : ℕ) (q : VirtioBlkReq) : ((s.setReq r q).req k).completionSem =
    if k = r then q.completionSem else (s.req k).completionSem := by
  simp only [Sys.setReq, update_apply]
  split_ifs <;> rfl

theorem SemOk.congr {t : ℕ} {p : Phase} {sem sem' : ℕ → Semaphore} {posted posted' : ℕ → List ℕ}
    (h : SemOk t p sem posted) (heq : ∀ k, p.req = some k → sem' k = sem k ∧ posted' k = posted k) :
    SemOk t p sem' posted' := by
  cases p with
  | submitted k | waiting k | completed k | unchained k i =>
    obtain ⟨hsem, hposted⟩ := heq k rfl
    simpa only [SemOk, hsem, hposted] using h
  | outside | slotWait | granted | relinked => trivial

theorem Requests.setSem (h : Requests T s) (ha : a ∈ T) {r : ℕ} {p : Phase} {q : VirtioBlkReq}
    (posted : ℕ → List ℕ) (hr : (s.phase a).req = some r) (hp : p.req = some r)
    (hposted : ∀ k, k ≠ r → posted k = s.postedBy k)
    (hsem : SemOk a p (fun _ => q.completionSem) posted)
    (hawait : posted r = [] → p.awaits = some r) :
    Requests T { (s.setReq r q).setPhase a p with postedBy := posted } where
  away := forall_setPhase (P := fun t p => t ∉ T → p = .outside) (fun hout => absurd ha hout)
    fun t _ => h.away t
  lt := forall_setPhase (P := fun _ p => ∀ r, p.req = some r → r < s.count)
    (fun k hk => h.lt a k (hr.trans (hp.symm.trans hk))) fun t _ => h.lt t
  inj := by
    have hold : ∀ t k, ((s.setPhase a p).phase t).req = some k → (s.phase t).req = some k :=
      forall_setPhase (P := fun t p => ∀ k, p.req = some k → (s.phase t).req = some k)
        (fun k hk => hr.trans (hp.symm.trans hk)) fun t _ k hk => hk
    exact fun t u k ht hu => h.inj t u k (hold t k ht) (hold u k hu)
  sem := by
    refine forall_setPhase (s := s) (P := fun t p => SemOk t p _ _) ?_ fun t hne => ?_
    · refine hsem.congr fun k hk => ⟨?_, rfl⟩
      obtain rfl : r = k := some.inj (hp.symm.trans hk)
      show ((s.setReq r q).req r).completionSem = _
      rw [setReq_sem, if_pos rfl]
    · refine (h.sem t).congr fun k hk => ?_
      have hkr : k ≠ r := by
        rintro rfl
        exact hne (h.inj t a k hk hr)
      refine ⟨?_, hposted k hkr⟩
      show ((s.setReq r q).req k).completionSem = _
      rw [setReq_sem, if_neg hkr]
  awaited := fun k hk hnil => by
    rcases eq_or_ne k r with rfl | hkr
    · refine ⟨a, ha, ?_⟩
      show ((s.setPhase a p).phase a).awaits = some k
      rw [setPhase_phase_self]
      exact hawait hnil
    · obtain ⟨t, ht, hawait⟩ := h.awaited k hk ((hposted k hkr) ▸ hnil)
      have hne : t ≠ a := by
        rintro rfl
        have : (s.phase t).req = some k := by
          cases hph : s.phase t <;> simp_all [Phase.awaits, Phase.req]
        rw [hr] at this
        exact hkr (some.inj this).symm
      refine ⟨t, ht, ?_⟩
      show ((s.setPhase a p).phase t).awaits = some k
      rwa [setPhase_phase_of_ne hne]

theorem inv_wait (h : Inv T n s) (ha : a ∈ T) (hstep : (Op.wait a).apply s = some s') : Inv T n s' := by
  simp only [Op.apply] at hstep
  split at hstep
  case h_2 => simp at hstep
  case h_1 r hphase =>
    have hsem : (s.req r).completionSem = ⟨(s.postedBy r).length, []⟩ := by
      simpa [SemOk, hphase] using h.requests.sem a
    have hreq : (s.phase a).req = some r := by simp [hphase, Phase.req]
    -- what both outcomes share: the chain, the slot and the rings stay
    have hkeep : ∀ (p : Phase) (q : VirtioBlkReq), q.head = (s.req r).head →
        (Phase.submitted r).Alike p → Requests T ((s.setReq r q).setPhase a p) →
        Inv T n ((s.setReq r q).setPhase a p) := by
      intro p q hq hp hrequests
      have halike := alike_setPhase s (hphase ▸ hp)
      exact ⟨h.chains.congr rfl rfl rfl rfl (setReq_head hq) fun t => (halike t).1,
        h.slots.congr rfl (fun t => (halike t).2.1) fun t => (halike t).2.2, hrequests,
        h.rings.congr rfl rfl rfl rfl rfl rfl rfl rfl rfl rfl (setReq_head hq)⟩
    cases hby : s.postedBy r with
    | nil =>
      have hwait : semWait (s.req r).completionSem a = (true, ⟨0, [a]⟩) := by
        simp [semWait, semTryTakeUnlocked, hsem, hby, eagain]
      rw [hwait] at hstep
      cases hstep
      refine hkeep (.waiting r) _ rfl ⟨⟨rfl, rfl, rfl⟩, rfl, by simp⟩ ?_
      exact h.requests.setSem ha s.postedBy hreq rfl (fun _ _ => rfl) ⟨rfl, hby⟩ fun _ => rfl
    | cons e es =>
      have hpos : 0 < (s.req r).completionSem.count := by
        simp only [hsem, hby, length_cons]
        omega
      rw [semWait_pos a hpos] at hstep
      cases hstep
      refine hkeep (.completed r) _ rfl ⟨⟨rfl, rfl, rfl⟩, rfl, by simp⟩ ?_
      exact h.requests.setSem ha s.postedBy hreq rfl (fun _ _ => rfl) (by simp [SemOk, hby])
        (by simp [hby])

theorem Phase.req_of_awaits {p : Phase} {r : ℕ} (h : p.awaits = some r) : p.req = some r := by
  cases p <;> simp_all [awaits, req]

theorem Phase.req_of_flagged {p : Phase} {r : ℕ} (h : p.flagged = some r) : p.req = some r := by
  cases p <;> simp_all [flagged, req]

theorem Inv.acked (h : Inv T n s) {elem : VirtqUsedElem} (hhandler : s.handler = .acked elem) :
    ∃ r q, s.usedQ = r :: q ∧ s.driver.inflight elem.id = some r ∧ s.postedBy r = [] ∧
      ∃ t ∈ T, (s.phase t).awaits = some r := by
  obtain ⟨r, q, hU, hid⟩ := h.rings.acked elem hhandler
  have hone := h.rings.once r
  have hpos : 0 < s.unhandled.count r := by
    simp [Sys.unhandled, hhandler, hU]
  split_ifs at hone with hlt
  · have hnil : s.postedBy r = [] := eq_nil_of_length_eq_zero (by omega)
    obtain ⟨t, ht, hawaits⟩ := h.requests.awaited r hlt hnil
    refine ⟨r, q, hU, ?_, hnil, t, ht, hawaits⟩
    rw [hid]
    exact h.chains.inflight t ht r (Phase.req_of_awaits hawaits)
  · omega

theorem Inv.post (h : Inv T n s) {t r : ℕ} {p : Phase} {q : VirtioBlkReq} {U : List ℕ}
    {elem : VirtqUsedElem} (ht : t ∈ T) (hhandler : s.handler = .acked elem) (hU : s.usedQ = r :: U)
    (hnil : s.postedBy r = []) (hreq : (s.phase t).req = some r) (hp : (s.phase t).Alike p)
    (hq : q.head = (s.req r).head)
    (hsem : SemOk t p (fun _ => q.completionSem) (update s.postedBy r [r])) :
    Inv T n { (s.setReq r q).setPhase t p with
      handler := .posted
      postedBy := update s.postedBy r [r] } := by
  have halike := alike_setPhase s hp
  have hr := h.rings
  have hrequests := h.requests.setSem ht (update s.postedBy r [r]) hreq
    (hp.1.1.trans hreq) (fun k hk => update_of_ne hk _ _) hsem (by simp)
  refine ⟨h.chains.congr rfl rfl rfl rfl (setReq_head hq) fun u => (halike u).1,
    h.slots.congr rfl (fun u => (halike u).2.1) fun u => (halike u).2.2,
    { hrequests with }, ?_⟩
  have hhead := setReq_head (s := s) hq
  constructor
  · simp only [Sys.setPhase, hhead]
    exact hr.avail
  · simp only [Sys.setPhase, hhead]
    exact hr.pending
  · simp only [Sys.setPhase, hhead]
    exact hr.used
  · intro k
    have hone := hr.once k
    simp only [Sys.unhandled, hhandler, hU, reduceCtorEq, if_false, count_cons] at hone
    simp only [Sys.unhandled, Sys.setPhase, Sys.setReq, if_true, hU, tail_cons]
    rcases eq_or_ne k r with rfl | hkr
    · simp only [update_self, length_singleton]
      simp only [hnil, length_nil, beq_self_eq_true, if_true] at hone
      omega
    · rw [update_of_ne hkr]
      simpa [hkr.symm] using hone
  · intro k e he
    rcases eq_or_ne k r with rfl | hkr
    · simpa using he
    · exact hr.own k e (by simpa [update_of_ne hkr] using he)
  · simp
  · exact fun _ => ⟨r, U, hU, h.requests.lt t r hreq⟩

theorem inv_post (h : Inv T n s) (hstep : Op.post.apply s = some s') : Inv T n s' := by
  simp only [Op.apply] at hstep
  split at hstep
  case h_2 => simp at hstep
  case h_1 elem hhandler =>
    obtain ⟨r, U, hU, hinflight, hnil, t, ht, hawaits⟩ := h.acked hhandler
    have hreq := Phase.req_of_awaits hawaits
    simp only [hinflight, hU, headD_cons, hnil, nil_append] at hstep
    obtain ⟨⟨woken, sem⟩, hpost, rfl⟩ := map_eq_some_iff.mp hstep
    have hsem := h.requests.sem t
    cases hphase : s.phase t with
    | submitted k =>
      obtain rfl : k = r := by simpa [hphase, Phase.awaits] using hawaits
      simp only [SemOk, hphase, hnil, length_nil, Nat.cast_zero] at hsem
      obtain ⟨rfl, rfl⟩ : woken = none ∧ sem = ⟨1, []⟩ := by
        rw [hsem] at hpost
        simpa [semPost, eq_comm] using hpost
      have hinv := h.post (p := .submitted k) (q := ⟨(s.req k).type, (s.req k).head, ⟨1, []⟩, elem.len⟩)
        ht hhandler hU hnil hreq (hphase ▸ ⟨⟨rfl, rfl, rfl⟩, rfl, Iff.rfl⟩) rfl (by simp [SemOk])
      have hsame : (s.setReq k ⟨(s.req k).type, (s.req k).head, ⟨1, []⟩, elem.len⟩).setPhase t
          (.submitted k) = s.setReq k ⟨(s.req k).type, (s.req k).head, ⟨1, []⟩, elem.len⟩ := by
        simp only [Sys.setPhase, Sys.setReq, ← hphase, update_eq_self]
      rw [hsame] at hinv
      exact hinv
    | waiting k =>
      obtain rfl : k = r := by simpa [hphase, Phase.awaits] using hawaits
      simp only [SemOk, hphase] at hsem
      obtain ⟨rfl, rfl⟩ : woken = some t ∧ sem = ⟨0, []⟩ := by
        rw [hsem.1] at hpost
        simpa [semPost, eq_comm] using hpost
      have hwake : ((s.setReq k ⟨(s.req k).type, (s.req k).head, ⟨0, []⟩, elem.len⟩).phase t) =
        .waiting k := hphase
      simp only [Sys.wake, hwake]
      exact h.post (p := .completed k) ht hhandler hU hnil hreq
        (hphase ▸ ⟨⟨rfl, rfl, rfl⟩, rfl, by simp⟩) rfl (by simp [SemOk])
    | outside | slotWait | granted | relinked | completed k | unchained k i =>
      simp [hphase, Phase.awaits] at hawaits

theorem chainOf_of_req {t r : ℕ} (h : (s.phase t).req = some r) :
    s.chainOf t = chain s.next (s.req r).head := by
  simp [Sys.chainOf, h]

theorem chainOf_of_none {t : ℕ} (h : (s.phase t).req = none) : s.chainOf t = [] := by
  simp [Sys.chainOf, h]

theorem Flagged.congr {desc desc' : ℕ → VirtqDesc} {h : ℕ} (hf : Flagged desc h)
    (heq : ∀ i ∈ chain (fun i => (desc i).next) h, desc' i = desc i) : Flagged desc' h := by
  have h0 := heq h (by simp [chain])
  have h1 := heq (desc h).next (by simp [chain])
  have h2 := heq (desc (desc h).next).next (by simp [chain])
  simpa only [Flagged, h0, h1, h2] using hf

theorem Chains.change (h : Chains T n s) (ha : a ∈ T) {F G : List ℕ} (hsplit : Split T n F s.chainOf)
    (hnum : s'.driver.num = s.driver.num) (hphase : ∀ t, t ≠ a → s'.phase t = s.phase t)
    (hhead : ∀ t ∈ T, t ≠ a → ∀ r, (s.phase t).req = some r → (s'.req r).head = (s.req r).head ∧
      s'.driver.inflight (s.req r).head = s.driver.inflight (s.req r).head)
    (hdesc : ∀ t ∈ T, t ≠ a → ∀ i ∈ s.chainOf t, s'.driver.desc i = s.driver.desc i)
    (hlinked : Linked s'.next s'.driver.freeHeadIdx G) (hperm : (G ++ s'.chainOf a).Perm (F ++ s.chainOf a))
    (hself : ∀ r, (s'.phase a).req = some r → s'.driver.inflight (s'.req r).head = some r ∧
      ((s'.phase a).flagged = some r → Flagged s'.driver.desc (s'.req r).head) ∧
      ∀ i, (s'.phase a).status = some i → i = s'.next (s'.next (s'.req r).head)) : Chains T n s' := by
  have hold : ∀ t ∈ T, t ≠ a → ∀ r, (s.phase t).req = some r →
      ∀ i ∈ chain s.next (s.req r).head, s'.driver.desc i = s.driver.desc i := fun t ht hne r hr =>
    chainOf_of_req hr ▸ hdesc t ht hne
  have hchain : ∀ t ∈ T, t ≠ a → s'.chainOf t = s.chainOf t := by
    intro t ht hne
    cases hr : (s.phase t).req with
    | none => rw [chainOf_of_none hr, chainOf_of_none (by rw [hphase t hne, hr])]
    | some r =>
      rw [chainOf_of_req hr, chainOf_of_req (r := r) (by rw [hphase t hne, hr]), (hhead t ht hne r hr).1]
      exact chain_congr fun i hi => congrArg VirtqDesc.next (hold t ht hne r hr i hi)
  refine ⟨hnum.trans h.num, ⟨G, hlinked, hsplit.move ha hchain hperm⟩, fun t ht r hr => ?_,
    fun t ht r hr => ?_, fun t ht r i hr hi => ?_⟩
  · rcases eq_or_ne t a with rfl | hne
    · exact (hself r hr).1
    · rw [hphase t hne] at hr
      rw [(hhead t ht hne r hr).1, (hhead t ht hne r hr).2]
      exact h.inflight t ht r hr
  · rcases eq_or_ne t a with rfl | hne
    · exact (hself r (Phase.req_of_flagged hr)).2.1 hr
    · rw [hphase t hne] at hr
      have hreq := Phase.req_of_flagged hr
      rw [(hhead t ht hne r hreq).1]
      exact (h.flagged t ht r hr).congr (hold t ht hne r hreq)
  · rcases eq_or_ne t a with rfl | hne
    · exact (hself r hr).2.2 i hi
    · rw [hphase t hne] at hr hi
      have hnext : ∀ i ∈ chain s.next (s.req r).head, s'.next i = s.next i := fun i hi =>
        congrArg VirtqDesc.next (hold t ht hne r hr i hi)
      rw [(hhead t ht hne r hr).1, hnext (s.req r).head (by simp [chain]), hnext _ (by simp [chain])]
      exact h.status t ht r i hr hi

theorem unchain_flagged {desc : ℕ → VirtqDesc} {h fuel : ℕ} (hf : Flagged desc h)
    (hnodup : (chain (fun i => (desc i).next) h).Nodup) (hfuel : 3 ≤ fuel) :
    unchain fuel desc h = some ((desc (desc h).next).next,
      update (update desc h { desc h with flags := 0 }) (desc h).next
        { desc (desc h).next with flags := 0 }) := by
  obtain ⟨fuel, rfl⟩ := Nat.exists_eq_add_of_le' hfuel
  obtain ⟨hf0, hf1, hf2⟩ := hf
  simp only [chain, nodup_cons, mem_cons, not_mem_nil, or_false, not_or] at hnodup
  obtain ⟨⟨h01, h02⟩, h12, -⟩ := hnodup
  rw [unchain, if_pos hf0, unchain, update_of_ne (Ne.symm h01), if_pos hf1, unchain,
    update_of_ne (Ne.symm h12), update_of_ne (Ne.symm h02), if_neg]
  simpa using hf2

theorem inv_unchain (h : Inv T n s) (ha : a ∈ T) (hstep : (Op.unchain a).apply s = some s') :
    Inv T n s' := by
  simp only [Op.apply] at hstep
  split at hstep
  case h_2 => simp at hstep
  case h_1 r hphase =>
    have hreq : (s.phase a).req = some r := by rw [hphase]; rfl
    obtain ⟨F, hlinked, hsplit⟩ := h.chains.free
    have hchain := chainOf_of_req hreq
    have hfl := h.chains.flagged a ha r (by rw [hphase]; rfl)
    have hfuel : 3 ≤ s.driver.num := by
      have hheld := Finset.single_le_sum (f := fun t => (s.phase t).held)
        (fun _ _ => Nat.zero_le _) ha
      have hone : (s.phase a).held = 1 := by rw [hphase]; rfl
      have := h.held_le
      rw [h.chains.num]
      omega
    rw [unchain_flagged hfl (hchain ▸ hsplit.share_nodup ha) hfuel] at hstep
    cases hstep
    set x := (s.driver.desc (s.req r).head).next
    set desc' := update (update s.driver.desc (s.req r).head
      { s.driver.desc (s.req r).head with flags := 0 }) x { s.driver.desc x with flags := 0 }
      with hdesc'
    have hnext : ∀ i, (desc' i).next = (s.driver.desc i).next := by
      intro i
      simp only [hdesc', update_apply]
      split_ifs with h1 h2
      · rw [h1]
      · rw [h2]
      · rfl
    -- the descriptors of the other chains keep their flags
    have hother : ∀ t ∈ T, t ≠ a → ∀ i ∈ s.chainOf t, desc' i = s.driver.desc i := by
      intro t ht hne i hi
      have hnot := hsplit.disjoint ht ha hne hi
      rw [hchain] at hnot
      simp only [chain, mem_cons, not_or] at hnot
      have hix : i ≠ x := hnot.2.1
      rw [hdesc', update_of_ne hix, update_of_ne hnot.1]
    refine ⟨h.chains.change ha hsplit rfl (fun t hne => setPhase_phase_of_ne hne _) (fun _ _ _ _ _ => ⟨rfl, rfl⟩)
      hother (hlinked.congr fun i _ => hnext i) ?_ fun k hk => ?_, ?_, ?_, { h.rings with }⟩
    · rw [chainOf_of_req (r := r) (by rw [setPhase_phase_self]; rfl), hchain]
      exact .of_eq (congrArg (F ++ ·) (chain_congr fun i _ => hnext i))
    · rw [setPhase_phase_self] at hk ⊢
      obtain rfl : r = k := some.inj hk
      refine ⟨h.chains.inflight a ha r hreq, by simp [Phase.flagged], fun i hi => ?_⟩
      obtain rfl : (s.driver.desc x).next = i := some.inj hi
      exact ((hnext _).trans (congrArg (fun i => (s.driver.desc i).next) (hnext _))).symm
    · exact h.slots.setPhase rfl rfl (by rw [hphase]; rfl) (by simp [hphase])
    · refine (h.requests.driver _).setPhase (p := .unchained r (s.driver.desc x).next) ha
        (.inl (by rw [hphase]; rfl)) (by rw [hphase]; rfl) ?_
      have hsem := h.requests.sem a
      rw [hphase] at hsem
      exact hsem

theorem relink_desc_of_ne (d : VirtioBlkDriver) (head : ℕ) {status i : ℕ} (hi : i ≠ status) :
    (relink d head status).desc i = d.desc i :=
  update_of_ne hi _ _

theorem relink_next_self (d : VirtioBlkDriver) (head status : ℕ) :
    ((relink d head status).desc status).next = d.freeHeadIdx := by
  simp [relink]

theorem inv_relink (h : Inv T n s) (ha : a ∈ T) (hstep : (Op.relink a).apply s = some s') : Inv T n s' := by
  simp only [Op.apply] at hstep
  split at hstep
  case h_2 => simp at hstep
  case h_1 r y hphase =>
    cases hstep
    have hreq : (s.phase a).req = some r := by rw [hphase]; rfl
    obtain ⟨F, hlinked, hsplit⟩ := h.chains.free
    have hy := h.chains.status a ha r y hreq (by rw [hphase]; rfl)
    have hchain : s.chainOf a = [(s.req r).head, s.next (s.req r).head, y] := by
      rw [chainOf_of_req hreq, chain, ← hy]
    have hnodup := hsplit.share_nodup ha
    rw [hchain] at hnodup
    simp only [nodup_cons, mem_cons, not_mem_nil, or_false, not_or] at hnodup
    obtain ⟨⟨-, h02⟩, h12, -⟩ := hnodup
    set d' := Drivers.relink s.driver (s.req r).head y
    have hdesc : ∀ i, i ≠ y → d'.desc i = s.driver.desc i :=
      fun i hi => relink_desc_of_ne s.driver _ hi
    have hnext : ∀ i, i ≠ y → (d'.desc i).next = s.next i := fun i hi => by
      rw [hdesc i hi]
      rfl
    have hnexty : (d'.desc y).next = s.driver.freeHeadIdx := relink_next_self s.driver _ y
    have hynot : ∀ t ∈ T, t ≠ a → y ∉ s.chainOf t := fun t ht hne hmem =>
      hsplit.disjoint ht ha hne hmem (by simp [hchain])
    have hempty : Sys.chainOf ({ s with driver := d' }.setPhase a .relinked) a = [] :=
      chainOf_of_none (by rw [setPhase_phase_self]; rfl)
    have hyF : y ∉ F := fun hmem => hsplit.not_mem_share ha hmem (by simp [hchain])
    refine ⟨h.chains.change (G := (s.req r).head :: s.next (s.req r).head :: y :: F) ha hsplit rfl
      (fun t hne => setPhase_phase_of_ne hne _) (fun _ _ _ _ _ => ⟨rfl, rfl⟩)
      (fun t ht hne i hi => hdesc i fun heq => hynot t ht hne (heq ▸ hi)) ?_ ?_ fun k hk => ?_, ?_, ?_,
      { h.rings with }⟩
    · refine ⟨rfl, ?_, ?_, ?_⟩
      · exact (hnext _ h02).symm
      · exact hy.trans (hnext _ h12).symm
      · show Linked (fun i => (d'.desc i).next) (d'.desc y).next F
        rw [hnexty]
        exact hlinked.congr fun i hi => hnext i fun heq => hyF (heq ▸ hi)
    · rw [hempty, hchain, append_nil]
      have hswap : ([(s.req r).head, s.next (s.req r).head, y] ++ F).Perm
          (F ++ [(s.req r).head, s.next (s.req r).head, y]) := perm_append_comm
      exact hswap
    · rw [setPhase_phase_self] at hk
      cases hk
    · exact h.slots.setPhase rfl rfl (by rw [hphase]; rfl) (by simp [hphase])
    · exact (h.requests.driver _).setPhase (p := .relinked) ha (.inr rfl) (by rw [hphase]; rfl) trivial

theorem submitReq_desc (d : VirtioBlkDriver) (r type size : ℕ)
    (hnodup : (chain (fun i => (d.desc i).next) d.freeHeadIdx).Nodup) : (∀ i,
    i ∉ chain (fun i => (d.desc i).next) d.freeHeadIdx → (submitReq d r type size).2.desc i = d.desc i) ∧
    chain (fun i => ((submitReq d r type size).2.desc i).next) d.freeHeadIdx = chain (fun i =>
    (d.desc i).next) d.freeHeadIdx ∧ Flagged (submitReq d r type size).2.desc d.freeHeadIdx := by
  simp only [chain, nodup_cons, mem_cons, not_mem_nil, or_false, not_or] at hnodup
  obtain ⟨⟨h01, h02⟩, h12, -⟩ := hnodup
  refine ⟨fun i hi => ?_, ?_, ?_⟩
  · simp only [chain, mem_cons, not_mem_nil, or_false, not_or] at hi
    simp only [submitReq, update_of_ne hi.2.2, update_of_ne hi.2.1, update_of_ne hi.1]
  · simp only [chain, submitReq, update_of_ne h02, update_of_ne h01, update_of_ne h12, update_self]
  · simp only [Flagged, submitReq, update_of_ne h02, update_of_ne h01, update_of_ne h12, update_self]
    split_ifs <;> decide

theorem Requests.submit (h : Requests T s) (ha : a ∈ T) (hreq : (s.phase a).req = none)
    {q : VirtioBlkReq} (hq : q.completionSem = semInit 0) (hnil : s.postedBy s.count = []) :
    Requests T (({ s with count := s.count + 1 }.setReq s.count q).setPhase a (.submitted s.count)) where
  away := forall_setPhase (s := s) (P := fun t p => t ∉ T → p = .outside)
    (fun hout => absurd ha hout) fun t _ => h.away t
  lt := forall_setPhase (s := s) (P := fun _ p => ∀ r, p.req = some r → r < s.count + 1)
    (fun r hr => by
      obtain rfl : s.count = r := some.inj hr
      omega)
    fun t _ r hr => (h.lt t r hr).trans (Nat.lt_succ_self _)
  inj := by
    have hcases := forall_setPhase (s := s) (a := a) (p := .submitted s.count)
      (P := fun t p => ∀ r, p.req = some r → (t = a ∧ r = s.count) ∨ (s.phase t).req = some r ∧ r < s.count)
      (fun r hr => .inl ⟨rfl, (some.inj hr).symm⟩)
      fun t _ r hr => .inr ⟨hr, h.lt t r hr⟩
    intro t u r ht hu
    rcases hcases t r ht with ⟨rfl, rfl⟩ | ⟨ht, hlt⟩
    · rcases hcases u _ hu with ⟨rfl, -⟩ | ⟨-, hlt⟩
      · rfl
      · omega
    · rcases hcases u r hu with ⟨-, rfl⟩ | ⟨hu, -⟩
      · omega
      · exact h.inj t u r ht hu
  sem := by
    refine forall_setPhase (s := s) (P := fun t p => SemOk t p _ _) ?_ fun t _ => ?_
    · show (update s.req s.count q s.count).completionSem = _
      rw [update_self, hq]
      show semInit 0 = ⟨(s.postedBy s.count).length, []⟩
      rw [hnil]
      rfl
    · refine (h.sem t).congr fun k hk => ⟨?_, rfl⟩
      show (update s.req s.count q k).completionSem = _
      rw [update_of_ne (h.lt t k hk).ne]
  awaited := fun r hr hposted => by
    rcases Nat.lt_succ_iff_lt_or_eq.mp hr with hlt | rfl
    · obtain ⟨t, ht, hawaits⟩ := h.awaited r hlt hposted
      have hne : t ≠ a := by
        rintro rfl
        simp [Phase.req_of_awaits hawaits] at hreq
      refine ⟨t, ht, ?_⟩
      show ((s.setPhase a (.submitted s.count)).phase t).awaits = some r
      rwa [setPhase_phase_of_ne hne]
    · refine ⟨a, ha, ?_⟩
      show ((s.setPhase a (.submitted s.count)).phase a).awaits = some s.count
      rw [setPhase_phase_self]
      rfl

theorem Rings.lt_count (h : Rings n s) {r : ℕ}
    (hr : r ∈ s.availQ ∨ r ∈ s.pending.map Prod.snd ∨ r ∈ s.unhandled ∨ s.postedBy r ≠ []) :
    r < s.count := by
  have hone := h.once r
  by_contra hge
  rw [if_neg hge] at hone
  rcases hr with hr | hr | hr | hr
  · have := count_pos_iff.mpr hr
    omega
  · have := count_pos_iff.mpr hr
    omega
  · have := count_pos_iff.mpr hr
    omega
  · have := length_pos_iff.mpr hr
    omega

theorem Rings.used_lt (h : Rings n s) {r : ℕ} (hr : r ∈ s.usedQ) : r < s.count := by
  by_cases hposted : s.handler = .posted
  · obtain ⟨e, q, hU, hlt⟩ := h.posted hposted
    rcases mem_cons.mp (hU ▸ hr) with rfl | hmem
    · exact hlt
    · exact h.lt_count (.inr (.inr (.inl (by simpa [Sys.unhandled, hposted, hU] using hmem))))
  · exact h.lt_count (.inr (.inr (.inl (by simpa [Sys.unhandled, hposted] using hr))))

theorem Rings.submit (hn : n ∣ 2 ^ 16) (h : Rings n s) {q : VirtioBlkReq} (hroom : s.availQ.length < n)
    (havail : s'.driver.avail = s.driver.avail.push n q.head) (hused : s'.driver.used = s.driver.used)
    (hlast : s'.driver.lastSeenUsed = s.driver.lastSeenUsed) (hdev : s'.devSeen = s.devSeen)
    (hpending : s'.pending = s.pending) (hA : s'.availQ = s.availQ ++ [s.count]) (hU : s'.usedQ = s.usedQ)
    (hhandler : s'.handler = s.handler) (hby : s'.postedBy = s.postedBy) (hcount : s'.count = s.count + 1)
    (hreq : s'.req = update s.req s.count q) : Rings n s' := by
  have hhead : ∀ r < s.count, (s'.req r).head = (s.req r).head := fun r hr => by
    rw [hreq, update_of_ne hr.ne]
  have hnew : (s'.req s.count).head = q.head := by rw [hreq, update_self]
  have hmap : ∀ l : List ℕ, (∀ r ∈ l, r < s.count) →
      l.map (fun r => (s'.req r).head) = l.map fun r => (s.req r).head :=
    fun l hl => map_congr_left fun r hr => hhead r (hl r hr)
  refine ⟨?_, fun p hp => ?_, ?_, fun r => ?_, ?_, fun elem helem => ?_, fun hposted => ?_⟩
  · rw [havail, hdev, hA, map_append, hmap _ fun r hr => h.lt_count (.inl hr), map_singleton, hnew]
    exact h.avail.push hn (by simpa using hroom) _
  · rw [hpending] at hp
    rw [hhead _ (h.lt_count (.inr (.inl (mem_map_of_mem hp))))]
    exact h.pending p hp
  · obtain ⟨l, hl, hids⟩ := h.used
    refine ⟨l, ?_, ?_⟩
    · rw [hused, hlast]
      exact hl
    · rw [hU, hmap _ fun r hr => h.used_lt hr, hids]
  · have hone := h.once r
    simp only [Sys.unhandled, hhandler, hU, hby, hA, hpending, hcount, count_append,
      count_singleton] at hone ⊢
    rcases eq_or_ne r s.count with rfl | hne
    · simp only [lt_irrefl, if_false, beq_self_eq_true, if_true, Nat.lt_succ_self] at hone ⊢
      omega
    · have hiff : r < s.count + 1 ↔ r < s.count := by omega
      simp only [hiff, beq_iff_eq, hne.symm, if_false]
      omega
  · rw [hby]
    exact h.own
  · obtain ⟨r, U, hUr, hid⟩ := h.acked elem (hhandler ▸ helem)
    refine ⟨r, U, hU.trans hUr, ?_⟩
    rw [hhead r (h.used_lt (by simp [hUr]))]
    exact hid
  · obtain ⟨r, U, hUr, hlt⟩ := h.posted (hhandler ▸ hposted)
    exact ⟨r, U, hU.trans hUr, by omega⟩

theorem inv_submit (hn : n ∣ 2 ^ 16) (h : Inv T n s) (ha : a ∈ T) {type size : ℕ}
    (hstep : (Op.submit a type size).apply s = some s') : Inv T n s' := by
  simp only [Op.apply] at hstep
  split_ifs at hstep with hphase
  cases hstep
  have hnone : (s.phase a).req = none := by rw [hphase]; rfl
  have hnil : s.postedBy s.count = [] := by
    by_contra hne
    exact lt_irrefl _ (h.rings.lt_count (.inr (.inr (.inr hne))))
  obtain ⟨F, hlinked, hsplit⟩ := h.chains.free
  have hheld := h.held_lt_of_granted ha hphase
  have hlen : 3 ≤ F.length := by
    have hsum : ∑ t ∈ T, (s.chainOf t).length = 3 * ∑ t ∈ T, (s.phase t).held := by
      rw [Finset.mul_sum]
      exact Finset.sum_congr rfl fun t _ => length_chainOf s t
    have := hsplit.length
    omega
  obtain ⟨F', hF, hrest⟩ : ∃ F', F = chain s.next s.driver.freeHeadIdx ++ F' ∧
      Linked s.next (s.next (s.next (s.next s.driver.freeHeadIdx))) F' := by
    match F, hlen, hlinked with
    | i0 :: i1 :: i2 :: F', _, ⟨h0, h1, h2, hrest⟩ =>
      subst h0 h1 h2
      exact ⟨F', rfl, hrest⟩
  subst hF
  have hnodup : (chain s.next s.driver.freeHeadIdx).Nodup :=
    (nodup_append'.mp hsplit.pool_nodup).1
  obtain ⟨hdesc, hchain, hflagged⟩ := submitReq_desc s.driver s.count type size hnodup
  set d' := (submitReq s.driver s.count type size).2 with hd'
  set q : VirtioBlkReq := ⟨type, s.driver.freeHeadIdx, semInit 0, 0⟩ with hq
  -- the chains of the other tasks do not meet the free list
  have hapart : ∀ t ∈ T, ∀ i ∈ s.chainOf t, d'.desc i = s.driver.desc i := fun t ht i hi =>
    hdesc i fun hmem => hsplit.not_mem_share ht (mem_append_left _ hmem) hi
  set s1 : Sys := ({ s with driver := d', count := s.count + 1, availQ := s.availQ ++ [s.count] }.setReq
    s.count q).setPhase a (.submitted s.count) with hs1
  show Inv T n s1
  have hself : s1.phase a = .submitted s.count := setPhase_phase_self _
  have hphase' : ∀ t, t ≠ a → s1.phase t = s.phase t := fun t hne => setPhase_phase_of_ne hne _
  have hreq : ∀ r < s.count, s1.req r = s.req r := fun r hr => update_of_ne hr.ne _ _
  have hreqNew : s1.req s.count = q := update_self _ _ _
  have hselfChain : s1.chainOf a = chain s.next s.driver.freeHeadIdx := by
    rw [chainOf_of_req (r := s.count) (by rw [hself]; rfl), hreqNew]
    exact hchain
  refine ⟨h.chains.change (G := F') ha hsplit rfl hphase' (fun t ht _ r hr => ⟨congrArg VirtioBlkReq.head
    (hreq r (h.requests.lt t r hr)), ?_⟩) (fun t ht _ => hapart t ht) ?_ ?_ fun r hr => ?_, ?_, ?_, ?_⟩
  · refine update_of_ne (fun heq => ?_) _ _
    exact hsplit.not_mem_share ht (i := (s.req r).head) (by simp [chain, heq]) (by simp [chainOf_of_req hr, chain])
  · refine Linked.congr hrest fun i hi => congrArg VirtqDesc.next (hdesc i fun hmem => ?_)
    exact (nodup_append'.mp hsplit.pool_nodup).2.2 hmem hi
  · rw [hselfChain, chainOf_of_none hnone, append_nil]
    exact perm_append_comm
  · rw [hself] at hr ⊢
    obtain rfl : s.count = r := some.inj hr
    rw [hreqNew]
    exact ⟨update_self _ _ _, fun _ => hflagged, fun i hi => by cases hi⟩
  · exact h.slots.setPhase rfl rfl (by rw [hphase]; rfl) (by simp [hphase])
  · have hrequests := h.requests.submit ha hnone (q := q) rfl hnil
    exact { hrequests with }
  · refine h.rings.submit hn (q := q) ?_ ?_ rfl rfl rfl rfl rfl rfl rfl rfl rfl rfl
    · have := h.underway_le
      omega
    · show s.driver.avail.push s.driver.num s.driver.freeHeadIdx = _
      rw [h.chains.num]

theorem inv_freeSlot (h : Inv T n s) (ha : a ∈ T) (hstep : (Op.freeSlot a).apply s = some s') :
    Inv T n s' := by
  have hs := h.slots
  simp only [Op.apply] at hstep
  split_ifs at hstep with hphase
  obtain ⟨⟨woken, sem⟩, hpost, rfl⟩ := map_eq_some_iff.mp hstep
  have hsum := token_setPhase s ha .outside
  rw [hphase, show Phase.relinked.token = 1 from rfl, show Phase.outside.token = 0 from rfl] at hsum
  have htokens := hs.tokens
  have hsame : (Phase.relinked).SameChain .outside := ⟨rfl, rfl, rfl⟩
  have hout : ∀ t, (s.phase t).SameChain ((s.setPhase a .outside).phase t) :=
    forall_setPhase (P := fun t p => (s.phase t).SameChain p) (hphase ▸ hsame)
      fun t _ => ⟨rfl, rfl, rfl⟩
  have hrequests := h.requests.setPhase (p := .outside) ha (.inr rfl) (by rw [hphase]; rfl) trivial
  rcases semPost_cases hpost with ⟨t, wq, hwq, rfl, rfl⟩ | ⟨hwq, rfl, rfl⟩
  · obtain ⟨ht, hwait⟩ := (hs.wq_iff t).mp (by simp [hwq])
    have hne : t ≠ a := by
      rintro rfl
      rw [hphase] at hwait
      cases hwait
    have hwait' : (s.setPhase a .outside).phase t = .slotWait := by
      rw [setPhase_phase_of_ne hne, hwait]
    have hnodup := nodup_cons.mp (hwq ▸ hs.wq_nodup)
    have hzero := hs.consistent.count_of_waiter hwq
    have hwake : Sys.wake ({ s with driver := { s.driver with freeSlots := { s.driver.freeSlots with
        wq } } }.setPhase a .outside) (some t) = ({ s with driver := { s.driver with freeSlots :=
        { s.driver.freeSlots with wq } } }.setPhase a .outside).setPhase t .granted := by
      simp only [Sys.wake]
      rw [show (Sys.setPhase { s with driver := { s.driver with freeSlots := { s.driver.freeSlots with
        wq } } } a .outside).phase t = .slotWait from hwait']
    rw [hwake]
    refine ⟨h.chains.congr rfl rfl rfl rfl (fun _ => rfl) ?_, ⟨hs.consistent.queue hzero, ?_,
      hnodup.2, fun u => ?_⟩, ?_, { h.rings with }⟩
    · refine forall_setPhase (s := s.setPhase a .outside) (P := fun t p => (s.phase t).SameChain p)
        ?_ fun u _ => hout u
      rw [hwait]
      exact ⟨rfl, rfl, rfl⟩
    · have hsum' := token_setPhase (s.setPhase a .outside) ht .granted
      rw [hwait', show Phase.slotWait.token = 0 from rfl, show Phase.granted.token = 1 from rfl]
        at hsum'
      show s.driver.freeSlots.count + ((∑ u ∈ T,
        (((s.setPhase a .outside).setPhase t .granted).phase u).token : ℕ) : ℤ) = (n / 3 : ℕ)
      omega
    · have hold := hs.wq_iff u
      rw [hwq, mem_cons] at hold
      show u ∈ wq ↔ u ∈ T ∧ ((s.setPhase a .outside).setPhase t .granted).phase u = .slotWait
      rcases eq_or_ne u t with rfl | hut
      · simp [hnodup.1]
      · rw [setPhase_phase_of_ne hut]
        rcases eq_or_ne u a with rfl | hua
        · simpa [hut, hphase] using hold
        · rw [setPhase_phase_of_ne hua]
          simpa [hut] using hold
    · have hgranted := hrequests.setPhase (p := .granted) ht (.inr rfl) (by rw [hwait']; rfl) trivial
      exact hgranted.driver _
  · refine ⟨h.chains.congr rfl rfl rfl rfl (fun _ => rfl) hout, ⟨hs.consistent.posted hwq, ?_, ?_,
      fun u => ?_⟩, hrequests.driver _, { h.rings with }⟩
    · show s.driver.freeSlots.count + 1 + ((∑ u ∈ T, ((s.setPhase a .outside).phase u).token : ℕ) :
        ℤ) = (n / 3 : ℕ)
      omega
    · exact hs.wq_nodup
    · refine (hs.wq_iff u).trans (and_congr_right fun _ => ?_)
      exact forall_setPhase (P := fun t p => s.phase t = .slotWait ↔ p = .slotWait)
        (by simp [hphase]) (fun t _ => Iff.rfl) u

theorem inv_step (hn : n ∣ 2 ^ 16) {op : Op} (h : Inv T n s) (hstep : step T s op = some s') :
    Inv T n s' := by
  unfold step at hstep
  split_ifs at hstep with htask
  cases op with
  | slot a =>
    have hphase : s.phase a = .outside := by
      by_contra hne
      simp [Op.apply, hne] at hstep
    exact inv_slot h (htask a rfl) hphase hstep
  | submit a type size => exact inv_submit hn h (htask a rfl) hstep
  | wait a => exact inv_wait h (htask a rfl) hstep
  | unchain a => exact inv_unchain h (htask a rfl) hstep
  | relink a => exact inv_relink h (htask a rfl) hstep
  | freeSlot a => exact inv_freeSlot h (htask a rfl) hstep
  | take => exact inv_take hn h hstep
  | complete k len => exact inv_complete hn h hstep
  | irq status => exact inv_irq h hstep
  | ack => exact inv_ack h hstep
  | post => exact inv_post h hstep
  | advance => exact inv_advance hn h hstep

theorem wake_frame (s : Sys) (woken : Option ℕ) : (s.wake woken).handler = s.handler ∧
    (s.wake woken).usedQ = s.usedQ ∧ (s.wake woken).postedBy = s.postedBy := by
  cases woken with
  | none => exact ⟨rfl, rfl, rfl⟩
  | some t =>
    unfold Sys.wake
    dsimp only
    split <;> exact ⟨rfl, rfl, rfl⟩

theorem Inv.post_enabled (h : Inv T n s) {elem : VirtqUsedElem} {r : ℕ} {U : List ℕ}
    (hhandler : s.handler = .acked elem) (hU : s.usedQ = r :: U) : ∃ s', step T s .post = some s' ∧
    s'.handler = .posted ∧ s'.usedQ = r :: U ∧ s'.postedBy = update s.postedBy r [r] := by
  obtain ⟨k, V, hV, hinflight, hnil, t, -, hawaits⟩ := h.acked hhandler
  obtain ⟨rfl, rfl⟩ : k = r ∧ V = U := by simpa [hU, eq_comm] using hV
  have hpost : ∃ out, semPost (s.req k).completionSem = some out := by
    have hsem := h.requests.sem t
    cases hphase : s.phase t with
    | submitted j =>
      obtain rfl : j = k := by simpa [hphase, Phase.awaits] using hawaits
      simp only [SemOk, hphase, hnil, length_nil, Nat.cast_zero] at hsem
      exact ⟨(none, ⟨1, []⟩), by rw [hsem]; rfl⟩
    | waiting j =>
      obtain rfl : j = k := by simpa [hphase, Phase.awaits] using hawaits
      simp only [SemOk, hphase] at hsem
      exact ⟨(some t, ⟨0, []⟩), by rw [hsem.1]; rfl⟩
    | outside | slotWait | granted | relinked | completed j | unchained j i =>
      simp [hphase, Phase.awaits] at hawaits
  obtain ⟨⟨woken, sem⟩, hpost⟩ := hpost
  let out : Sys := { s.setReq k { s.req k with len := elem.len, completionSem := sem } with
    handler := .posted
    postedBy := update s.postedBy k [k] }
  refine ⟨out.wake woken, ?_, (wake_frame out woken).1, (wake_frame out woken).2.1.trans hU,
    (wake_frame out woken).2.2⟩
  simp [step, Op.task, Op.apply, hhandler, hinflight, hpost, hU, hnil, out]

theorem Rings.used_ne_iff (h : Rings n s) (hlen : s.usedQ.length < 2 ^ 16) :
    s.driver.lastSeenUsed ≠ s.driver.used.idx ↔ s.usedQ ≠ [] := by
  obtain ⟨q, hq, hids⟩ := h.used
  have hl : q.length = s.usedQ.length := by simpa using congrArg length hids
  rw [hq.seen_ne_iff (by omega), ne_eq, ne_eq, ← length_eq_zero_iff, ← length_eq_zero_iff, hl]

theorem Inv.used_length_le (h : Inv T n s) : s.usedQ.length ≤ n / 3 + 1 := by
  have hroom := h.underway_le.trans h.held_le
  have : s.usedQ.length ≤ s.unhandled.length + 1 := by
    unfold Sys.unhandled
    split_ifs <;> simp
    omega
  omega

def handlerTurn : List Op := [.ack, .post, .advance]

theorem Inv.turn (hn : n ∣ 2 ^ 16) (h : Inv T n s) {r : ℕ} {U : List ℕ} (hloop : s.handler = .loop)
    (hU : s.usedQ = r :: U) : ∃ s', run (step T) s handlerTurn = some s' ∧ Inv T n s' ∧
      s'.handler = .loop ∧ s'.usedQ = U ∧ s'.postedBy = update s.postedBy r [r] := by
  have hle : n ≤ 2 ^ 16 := Nat.le_of_dvd (by decide) hn
  have hlen := h.used_length_le
  have hne : s.driver.lastSeenUsed ≠ s.driver.used.idx :=
    (h.rings.used_ne_iff (by omega)).mpr (by simp [hU])
  obtain ⟨s1, hs1, hacked, hU1, hby1⟩ : ∃ s1, step T s .ack = some s1 ∧
      s1.handler = .acked (s.driver.used.peek s.driver.num s.driver.lastSeenUsed) ∧
      s1.usedQ = r :: U ∧ s1.postedBy = s.postedBy :=
    ⟨{ s with handler := .acked (s.driver.used.peek s.driver.num s.driver.lastSeenUsed) },
      by simp [step, Op.task, Op.apply, hloop, hne], rfl, hU, rfl⟩
  have hinv1 := inv_step hn h hs1
  obtain ⟨s2, hs2, hposted, hU2, hby2⟩ := hinv1.post_enabled hacked hU1
  have hinv2 := inv_step hn hinv1 hs2
  obtain ⟨s3, hs3, hloop3, hU3, hby3⟩ : ∃ s3, step T s2 .advance = some s3 ∧
      s3.handler = .loop ∧ s3.usedQ = U ∧ s3.postedBy = s2.postedBy :=
    ⟨{ s2 with
        driver := { s2.driver with lastSeenUsed := s2.driver.lastSeenUsed + 1 }
        handler := .loop
        usedQ := s2.usedQ.tail }, by simp [step, Op.task, Op.apply, hposted], rfl, by simp [hU2], rfl⟩
  refine ⟨s3, ?_, inv_step hn hinv2 hs3, hloop3, hU3, ?_⟩
  · simp [run, handlerTurn, hs1, hs2, hs3]
  · rw [hby3, hby2, hby1]

theorem Inv.run (hn : n ∣ 2 ^ 16) (hpos : 0 < n)
    (h : Reaches (step T) anyAction (.initial n) s) : Inv T n s :=
  h.invariant (inv_initial T n hpos) fun _ _ _ hi _ hst => inv_step hn hi hst

theorem Inv.drain (hn : n ∣ 2 ^ 16) (h : Inv T n s) (hloop : s.handler = .loop) :
    ∃ s', Lib.run (step T) s (replicate s.usedQ.length handlerTurn).flatten = some s' ∧
      s'.usedQ = [] ∧ ∀ r, r ∈ s.usedQ ∨ s.postedBy r = [r] → s'.postedBy r = [r] := by
  generalize hU : s.usedQ = U
  induction U generalizing s with
  | nil => exact ⟨s, rfl, hU, fun r hr => by simpa using hr⟩
  | cons e U ih =>
    obtain ⟨s1, hrun, hinv, hloop1, hU1, hby⟩ := h.turn hn hloop hU
    obtain ⟨s2, hrun2, hempty, hposted⟩ := ih hinv hloop1 hU1
    refine ⟨s2, ?_, hempty, fun r hr => hposted r ?_⟩
    · rw [length_cons, replicate_succ, flatten_cons, run_append, hrun]
      exact hrun2
    · rw [hby]
      rcases eq_or_ne r e with rfl | hne
      · exact .inr (update_self _ _ _)
      · rw [update_of_ne hne]
        rcases hr with hmem | hby
        · exact .inl ((mem_cons.mp hmem).resolve_left hne)
        · exact .inr hby

/-- In every state that tasks, device and handler reach: free list and chains of
outstanding requests share the descriptors, each once; `inflight` leads from the
head of an outstanding chain to its request; a request is posted at most once,
and for the used element of its own chain; one that is not posted is in the
available ring, with the device or in the used ring, once; a request is released
only after it was posted; the indices of the rings show what is in them; and the
handler's loop posts whatever is in the used ring. -/
theorem virtio_chains_and_completions (hn : n = 4 ∨ n = 8 ∨ n = 16) (T : Finset ℕ) (s : Sys)
    (h : Reaches (step T) anyAction (.initial n) s) :
    (∃ F, Linked s.next s.driver.freeHeadIdx F ∧ (∀ t ∈ T, ∀ i ∈ F, i ∉ s.chainOf t) ∧
      (∀ t ∈ T, ∀ u ∈ T, t ≠ u → ∀ i ∈ s.chainOf t, i ∉ s.chainOf u) ∧
      ∀ i, F.count i + ∑ t ∈ T, (s.chainOf t).count i = if i < n then 1 else 0) ∧
    (∀ t ∈ T, ∀ r, (s.phase t).req = some r → s.driver.inflight (s.req r).head = some r) ∧
    (∀ r < s.count, s.postedBy r = [r] ∨ s.postedBy r = [] ∧
      s.availQ.count r + (s.pending.map Prod.snd).count r + s.unhandled.count r = 1) ∧
    (∀ t r, (s.phase t).req = some r → (s.phase t).awaits = none → s.postedBy r = [r]) ∧
    (s.devSeen ≠ s.driver.avail.idx ↔ s.availQ ≠ []) ∧
    (s.driver.lastSeenUsed ≠ s.driver.used.idx ↔ s.usedQ ≠ []) ∧
    (s.handler = .loop → ∃ s',
      run (step T) s (List.replicate s.usedQ.length handlerTurn).flatten = some s' ∧
      s'.usedQ = [] ∧ ∀ r ∈ s.usedQ, s'.postedBy r = [r]) := by
  have hdvd : n ∣ 2 ^ 16 := by
    rcases hn with rfl | rfl | rfl <;> decide
  have hinv := Inv.run hdvd (by omega) h
  obtain ⟨F, hlinked, hsplit⟩ := hinv.chains.free
  have hunder := hinv.underway_le.trans hinv.held_le
  have hused := hinv.used_length_le
  -- a request that was posted was posted once, for itself
  have hself : ∀ r, s.postedBy r ≠ [] → s.postedBy r = [r] := by
    intro r hne
    have hone := hinv.rings.once r
    have hpos := length_pos_iff.mpr hne
    obtain ⟨e, he⟩ : ∃ e, s.postedBy r = [e] :=
      length_eq_one_iff.mp (by split_ifs at hone <;> omega)
    rw [he, hinv.rings.own r e (by simp [he])]
  refine ⟨⟨F, hlinked, fun t ht i hi => hsplit.not_mem_share ht hi,
    fun t ht u hu hne i hi => hsplit.disjoint ht hu hne hi, hsplit.count⟩, hinv.chains.inflight,
    fun r hr => ?_, fun t r hreq hawaits => hself r ?_, ?_, hinv.rings.used_ne_iff (by omega),
    fun hloop => ?_⟩
  · by_cases hnil : s.postedBy r = []
    · have hone := hinv.rings.once r
      rw [if_pos hr, hnil, length_nil] at hone
      exact .inr ⟨hnil, hone⟩
    · exact .inl (hself r hnil)
  · have hsem := hinv.requests.sem t
    cases hphase : s.phase t <;> simp_all [SemOk, Phase.req, Phase.awaits]
  · rw [hinv.rings.avail.seen_ne_iff (by rw [length_map]; omega)]
    simp
  · obtain ⟨s', hrun, hempty, hposted⟩ := hinv.drain hdvd hloop
    exact ⟨s', hrun, hempty, fun r hr => hposted r (.inl hr)⟩

def outOfOrder : List Op :=
  [.slot 0, .submit 0 0 4096, .slot 1, .submit 1 1 4096, .wait 0, .take, .take, .complete 1 1,
    .irq 1, .ack, .post, .wait 1, .unchain 1, .relink 1, .freeSlot 1, .complete 0 4097, .advance]

theorem virtio_chains_and_completions_outOfOrder :
    ∃ s, run (step {0, 1}) (.initial 8) outOfOrder = some s ∧ (s.phase 0).req = some 0 ∧
      s.usedQ = [0] ∧ s.driver.inflight (s.req 0).head = some 0 ∧
      ∃ s', run (step {0, 1}) s handlerTurn = some s' ∧ s'.postedBy 0 = [0] := by
  have hend : ∃ s, run (step {0, 1}) (.initial 8) outOfOrder = some s ∧
      ((s.phase 0).req = some 0 ∧ s.usedQ = [0] ∧ s.handler = .loop) :=
    exists_of_run_any outOfOrder (by decide +kernel)
  obtain ⟨s, hs, hreq, hU, hloop⟩ := hend
  have hmain := virtio_chains_and_completions (.inr (.inl rfl)) {0, 1} s
    (.of_run outOfOrder (allowed_anyAction _ _) hs)
  obtain ⟨s', hrun, -, hposted⟩ := hmain.2.2.2.2.2.2 hloop
  rw [hU] at hrun
  exact ⟨s, hs, hreq, hU, hmain.2.1 0 (by decide) 0 hreq, s', hrun, hposted 0 (by simp [hU])⟩

end RvMiniOs.Drivers
