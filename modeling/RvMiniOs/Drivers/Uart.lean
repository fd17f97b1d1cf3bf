import RvMiniOs.Lib.Ring
import RvMiniOs.Lib.Runs
import RvMiniOs.Sync.Semaphore

/-!
# Received characters

`kernel/drivers/uart/ns16550.c`: the interrupt handler wakes the fill daemon, which moves
characters from the device to a ring and posts `rx_count` for each; `uart_read` waits on
`rx_count` and takes a character. `buffer_put`, `buffer_get` and the sections of the
semaphores are one step each, and tasks pause between them in any order.
-/

namespace RvMiniOs.Drivers

open Lib Sync List Option

abbrev uartRxBufferSize : ℕ := 128

abbrev UartRingBuffer := SlotRing UInt8

def bufferEmpty (b : UartRingBuffer) : Bool :=
  b.head = b.tail

def bufferFull (b : UartRingBuffer) : Bool :=
  (b.head + 1) % uartRxBufferSize = b.tail

def bufferPut (b : UartRingBuffer) (c : UInt8) : ℤ × UartRingBuffer :=
  if bufferFull b then (-enospc, b) else (0, b.push uartRxBufferSize c)

def bufferGet (b : UartRingBuffer) : UInt8 × UartRingBuffer :=
  if !bufferEmpty b then (b.buf b.tail, b.pop uartRxBufferSize) else (0, b)

inductive DaemonPoint where
  | waiting
  | blocked
  | filling
  | posting
  deriving DecidableEq, Repr

structure Uart where
  rbr : List UInt8
  rxIrq : Bool
  fillSignal : Semaphore
  daemon : DaemonPoint
  rxBuffer : UartRingBuffer
  rxCount : Semaphore
  reading : List ℕ
  accepted : List UInt8
  returned : List UInt8

inductive UartOp where
  | receive (c : UInt8)
  | irq
  | waitFill
  | fill
  | postCount
  | waitCount (a : ℕ)
  | get (a : ℕ)

abbrev fillDaemon : ℕ := 0

def uartIrqHandler (u : Uart) : Option Uart :=
  match semPost u.fillSignal with
  | none => none
  | some (none, fillSignal) => some { u with rxIrq := false, fillSignal }
  | some (some _, fillSignal) => some { u with rxIrq := false, fillSignal, daemon := .filling }

def fillRxBuff (u : Uart) : Uart :=
  match u.rbr with
  | [] => { u with rxIrq := true, daemon := .waiting }
  | c :: rbr =>
    match bufferPut u.rxBuffer c with
    | (res, rxBuffer) =>
      if res = 0 then { u with rbr, rxBuffer, daemon := .posting, accepted := u.accepted ++ [c] }
      else { u with rbr, rxBuffer }

def uartStep (u : Uart) : UartOp → Option Uart
  | .receive c => some { u with rbr := u.rbr ++ [c] }
  | .irq => if u.rxIrq ∧ u.rbr ≠ [] then uartIrqHandler u else none
  | .waitFill =>
    if u.daemon = .waiting then
      match semWait u.fillSignal fillDaemon with
      | (true, fillSignal) => some { u with fillSignal, daemon := .blocked }
      | (false, fillSignal) => some { u with fillSignal, daemon := .filling }
    else none
  | .fill => if u.daemon = .filling then some (fillRxBuff u) else none
  | .postCount =>
    if u.daemon = .posting then
      match semPost u.rxCount with
      | none => none
      | some (woken, rxCount) => some { u with rxCount, daemon := .filling, reading := u.reading ++ woken.toList }
    else none
  | .waitCount a =>
    if a ∈ u.reading ∨ a ∈ u.rxCount.wq then none
    else
      match semWait u.rxCount a with
      | (true, rxCount) => some { u with rxCount }
      | (false, rxCount) => some { u with rxCount, reading := u.reading ++ [a] }
  | .get a =>
    if a ∈ u.reading then
      match bufferGet u.rxBuffer with
      | (c, rxBuffer) =>
        some { u with rxBuffer, reading := u.reading.erase a, returned := u.returned ++ [c] }
    else none

def Uart.initial : Uart where
  rbr := []
  rxIrq := true
  fillSignal := semInit 0
  daemon := .waiting
  rxBuffer := { buf := fun _ => 0, head := 0, tail := 0 }
  rxCount := semInit 0
  reading := []
  accepted := []
  returned := []

def Uart.owed (u : Uart) : ℕ :=
  if u.daemon = .posting then 1 else 0

structure Uart.Delivers (u : Uart) (q : List UInt8) : Prop where
  ring : u.rxBuffer.Holds uartRxBufferSize q
  order : u.accepted = u.returned ++ q
  consistent : u.rxCount.Consistent
  tokens : u.rxCount.count + u.reading.length + u.owed = q.length

structure Uart.Signalled (u : Uart) : Prop where
  consistent : u.fillSignal.Consistent
  blocked_iff : u.fillSignal.wq = if u.daemon = .blocked then [fillDaemon] else []
  given : u.fillSignal.count = if u.rxIrq = false ∧ u.daemon = .waiting then 1 else 0
  active : u.daemon = .filling ∨ u.daemon = .posting → u.rxIrq = false
  asleep : u.daemon = .blocked → u.rxIrq = true

section

variable {b : UartRingBuffer} {q : List UInt8} {x c : UInt8}

theorem bufferEmpty_iff (h : b.Holds uartRxBufferSize q) : bufferEmpty b = true ↔ q = [] := by
  rw [bufferEmpty, decide_eq_true_iff, h.head_eq_tail_iff]

theorem bufferFull_iff (h : b.Holds uartRxBufferSize q) : bufferFull b = true ↔ q.length + 1 = uartRxBufferSize := by
  rw [bufferFull, decide_eq_true_iff, h.succ_head_eq_tail_iff]

theorem bufferPut_cases (h : b.Holds uartRxBufferSize q) (c : UInt8) :
    (q.length + 1 = uartRxBufferSize ∧ bufferPut b c = (-enospc, b)) ∨
      (q.length + 1 < uartRxBufferSize ∧ bufferPut b c = (0, b.push uartRxBufferSize c)) := by
  rcases (Nat.succ_le_of_lt h.length_lt).eq_or_lt with hfull | hroom
  · exact .inl ⟨hfull, if_pos ((bufferFull_iff h).mpr hfull)⟩
  · exact .inr ⟨hroom, if_neg fun hfull => hroom.ne ((bufferFull_iff h).mp hfull)⟩

theorem bufferGet_cons (h : b.Holds uartRxBufferSize (x :: q)) : bufferGet b = (x, b.pop uartRxBufferSize) := by
  have hne : bufferEmpty b = false := by
    rw [← Bool.not_eq_true, bufferEmpty_iff h]
    exact cons_ne_nil x q
  rw [bufferGet, hne, h.first]
  rfl

end

namespace Uart

variable {u v : Uart} {q : List UInt8} {op : UartOp}

theorem delivers_initial : initial.Delivers [] where
  ring := ⟨by decide, by decide, rfl, fun j hj => absurd hj (Nat.not_lt_zero j)⟩
  order := rfl
  consistent := semInit_consistent le_rfl
  tokens := rfl

theorem signalled_initial : initial.Signalled where
  consistent := semInit_consistent le_rfl
  blocked_iff := rfl
  given := rfl
  active := by decide
  asleep := by decide

namespace Delivers

theorem fill (h : u.Delivers q) (hpoint : u.daemon = .filling) : ∃ q', (fillRxBuff u).Delivers q' := by
  have htok := h.tokens
  rw [owed, hpoint] at htok
  unfold fillRxBuff
  cases hrbr : u.rbr with
  | nil => exact ⟨q, h.ring, h.order, h.consistent, htok⟩
  | cons c rbr =>
    rcases bufferPut_cases h.ring c with ⟨-, hput⟩ | ⟨hroom, hput⟩
    · simp only [hput]
      rw [if_neg (by decide)]
      exact ⟨q, h.ring, h.order, h.consistent, by rw [owed, hpoint]; exact htok⟩
    · simp only [hput, if_true]
      refine ⟨q ++ [c], h.ring.push hroom c, ?_, h.consistent, ?_⟩
      · rw [h.order, append_assoc]
      · simp only [owed, if_true, length_append, length_singleton]
        simp only [reduceCtorEq, if_false] at htok
        omega

theorem postCount (h : u.Delivers q) (hpoint : u.daemon = .posting) {woken : Option ℕ} {rxCount : Semaphore}
    (hpost : semPost u.rxCount = some (woken, rxCount)) :
    Delivers { u with rxCount, daemon := .filling, reading := u.reading ++ woken.toList } q := by
  have htok := h.tokens
  rw [owed, hpoint, if_pos rfl] at htok
  rcases semPost_cases hpost with ⟨t, wq, hwq, rfl, rfl⟩ | ⟨hwq, rfl, rfl⟩
  · -- the token goes to the first waiter and is not counted
    refine ⟨h.ring, h.order, h.consistent.queue (h.consistent.count_of_waiter hwq), ?_⟩
    simp only [owed, reduceCtorEq, if_false, toList_some, length_append, length_singleton]
    omega
  · refine ⟨h.ring, h.order, h.consistent.posted hwq, ?_⟩
    simp only [owed, reduceCtorEq, if_false, toList_none, append_nil]
    omega

theorem semPost_isSome (h : u.Delivers q) : (semPost u.rxCount).isSome := by
  have hlen := h.ring.length_lt
  have htok := h.tokens
  unfold semPost
  cases u.rxCount.wq with
  | cons t wq => rfl
  | nil =>
    rw [if_pos]
    · rfl
    · simp only [uartRxBufferSize, intMax] at *
      omega

theorem postCount_isSome (h : u.Delivers q) (hpoint : u.daemon = .posting) : (uartStep u .postCount).isSome := by
  obtain ⟨⟨woken, rxCount⟩, hpost⟩ := isSome_iff_exists.mp h.semPost_isSome
  rw [uartStep, if_pos hpoint, hpost]
  rfl

theorem waitCount (h : u.Delivers q) {a : ℕ} {blocks : Bool} {rxCount : Semaphore}
    (hwait : semWait u.rxCount a = (blocks, rxCount)) :
    Delivers { u with rxCount, reading := if blocks then u.reading else u.reading ++ [a] } q := by
  have htok := h.tokens
  rcases lt_or_ge 0 u.rxCount.count with hpos | hzero
  · rw [semWait_pos a hpos] at hwait
    cases hwait
    refine ⟨h.ring, h.order, h.consistent.taken hpos, ?_⟩
    simp only [Bool.false_eq_true, if_false, length_append, length_singleton]
    change _ + _ + (u.owed : ℤ) = _
    push_cast
    omega
  · rw [semWait_empty a hzero] at hwait
    cases hwait
    exact ⟨h.ring, h.order, h.consistent.queue hzero, htok⟩

theorem ne_nil (h : u.Delivers q) {a : ℕ} (ha : a ∈ u.reading) : q ≠ [] := by
  rintro rfl
  have htok := h.tokens
  have hpos := length_pos_of_mem ha
  have hcount := h.consistent.nonneg
  simp only [length_nil] at htok
  omega

theorem get {x : UInt8} (h : u.Delivers (x :: q)) {a : ℕ} (ha : a ∈ u.reading) :
    Delivers { u with
      rxBuffer := u.rxBuffer.pop uartRxBufferSize
      reading := u.reading.erase a
      returned := u.returned ++ [x] } q where
  ring := h.ring.pop
  order := by
    rw [h.order, append_assoc]
    rfl
  consistent := h.consistent
  tokens := by
    have htok := h.tokens
    have hpos := length_pos_of_mem ha
    change u.rxCount.count + (u.reading.erase a).length + (u.owed : ℤ) = q.length
    rw [length_erase_of_mem ha]
    rw [length_cons] at htok
    omega

theorem frame (h : u.Delivers q) (rbr : List UInt8) (rxIrq : Bool) (fillSignal : Semaphore) {daemon : DaemonPoint}
    (hpoint : daemon = .posting ↔ u.daemon = .posting) : Delivers { u with rbr, rxIrq, fillSignal, daemon } q where
  ring := h.ring
  order := h.order
  consistent := h.consistent
  tokens := by
    have hsame : owed { u with rbr, rxIrq, fillSignal, daemon } = u.owed := if_congr hpoint rfl rfl
    rw [hsame]
    exact h.tokens

end Delivers

namespace Signalled

theorem frame (h : u.Signalled) (hsignal : v.fillSignal = u.fillSignal) (hirq : v.rxIrq = u.rxIrq)
    (hpoint : v.daemon = u.daemon) : v.Signalled where
  consistent := hsignal ▸ h.consistent
  blocked_iff := by rw [hsignal, hpoint, h.blocked_iff]
  given := by rw [hsignal, hirq, hpoint, h.given]
  active := by rw [hirq, hpoint]; exact h.active
  asleep := by rw [hirq, hpoint]; exact h.asleep

theorem waiting_or_blocked (h : u.Signalled) (hirq : u.rxIrq = true) : u.daemon = .waiting ∨ u.daemon = .blocked := by
  cases hpoint : u.daemon with
  | waiting => exact .inl rfl
  | blocked => exact .inr rfl
  | filling => exact absurd (h.active (.inl hpoint)) (by simp [hirq])
  | posting => exact absurd (h.active (.inr hpoint)) (by simp [hirq])

theorem irq_eq (h : u.Signalled) (hirq : u.rxIrq = true) :
    uartIrqHandler u = some { u with
      rxIrq := false
      fillSignal := { count := if u.daemon = .waiting then 1 else 0, wq := [] }
      daemon := if u.daemon = .waiting then .waiting else .filling } := by
  have hcount : u.fillSignal.count = 0 := by
    rw [h.given, if_neg (by simp [hirq])]
  rcases h.waiting_or_blocked hirq with hpoint | hpoint
  · have hwq : u.fillSignal.wq = [] := by
      rw [h.blocked_iff, hpoint, if_neg (by decide)]
    have hpost : semPost u.fillSignal = some (none, { count := 1, wq := [] }) := by
      rw [semPost, hwq, hcount]
      rfl
    simp only [uartIrqHandler, hpost, hpoint, if_true]
  · have hwq : u.fillSignal.wq = [fillDaemon] := by
      rw [h.blocked_iff, hpoint, if_pos rfl]
    have hpost : semPost u.fillSignal = some (some fillDaemon, { count := 0, wq := [] }) := by
      rw [semPost, hwq, hcount]
    simp only [uartIrqHandler, hpost, hpoint, reduceCtorEq, if_false]

theorem irq (h : u.Signalled) (hirq : u.rxIrq = true) (hstep : uartIrqHandler u = some v) : v.Signalled := by
  rw [h.irq_eq hirq] at hstep
  cases hstep
  rcases h.waiting_or_blocked hirq with hpoint | hpoint
  · simp only [hpoint, if_true]
    exact ⟨⟨Int.one_nonneg, fun _ => rfl⟩, rfl, rfl, by simp, by simp⟩
  · simp only [hpoint, reduceCtorEq, if_false]
    exact ⟨⟨le_rfl, fun _ => rfl⟩, rfl, rfl, fun _ => rfl, by simp⟩

theorem waitFill (h : u.Signalled) (hpoint : u.daemon = .waiting) {blocks : Bool} {fillSignal : Semaphore}
    (hwait : semWait u.fillSignal fillDaemon = (blocks, fillSignal)) :
    Signalled { u with fillSignal, daemon := if blocks then .blocked else .filling } := by
  have hwq : u.fillSignal.wq = [] := by
    rw [h.blocked_iff, hpoint, if_neg (by decide)]
  have hcount := h.given
  cases hirq : u.rxIrq with
  | false =>
    rw [if_pos ⟨hirq, hpoint⟩] at hcount
    rw [semWait_pos fillDaemon (by omega), hcount] at hwait
    cases hwait
    exact ⟨⟨le_rfl, fun _ => hwq⟩, hwq, by simp, fun _ => rfl, by simp⟩
  | true =>
    rw [if_neg (by simp [hirq])] at hcount
    rw [semWait_empty fillDaemon (by omega), hwq] at hwait
    cases hwait
    exact ⟨⟨hcount.ge, fun hpos => absurd hpos (by simp [hcount])⟩, rfl, by simp [hcount], by simp, fun _ => rfl⟩

theorem loop (h : u.Signalled) (hpoint : u.daemon = .filling ∨ u.daemon = .posting)
    (hsignal : v.fillSignal = u.fillSignal) (hirq : v.rxIrq = u.rxIrq)
    (hnew : v.daemon = .filling ∨ v.daemon = .posting) : v.Signalled := by
  have hwq : u.fillSignal.wq = [] := by
    rw [h.blocked_iff]
    rcases hpoint with hpoint | hpoint <;> rw [hpoint] <;> rfl
  have hcount : u.fillSignal.count = 0 := by
    rw [h.given]
    rcases hpoint with hpoint | hpoint <;> rw [hpoint] <;> simp
  have hoff := h.active hpoint
  refine ⟨hsignal ▸ h.consistent, ?_, ?_, fun _ => hirq.trans hoff, ?_⟩
  · rw [hsignal, hwq]
    rcases hnew with hnew | hnew <;> rw [hnew] <;> rfl
  · rw [hsignal, hcount]
    rcases hnew with hnew | hnew <;> rw [hnew] <;> simp
  · rcases hnew with hnew | hnew <;> rw [hnew] <;> simp

theorem fill (h : u.Signalled) (hpoint : u.daemon = .filling) : (fillRxBuff u).Signalled := by
  unfold fillRxBuff
  cases u.rbr with
  | nil =>
    refine ⟨h.consistent, ?_, ?_, by simp, by simp⟩
    · rw [h.blocked_iff, hpoint]
      rfl
    · change u.fillSignal.count = _
      rw [h.given, hpoint]
      simp
  | cons c rbr =>
    dsimp only
    split_ifs
    · exact h.loop (.inl hpoint) rfl rfl (.inr rfl)
    · exact h.loop (.inl hpoint) rfl rfl (.inl hpoint)

theorem served (h : u.Signalled) : u.rxIrq = true ∨ u.daemon = .filling ∨ u.daemon = .posting ∨
    u.daemon = .waiting ∧ 0 < u.fillSignal.count := by
  cases hirq : u.rxIrq with
  | true => exact .inl rfl
  | false =>
    cases hpoint : u.daemon with
    | waiting =>
      have hcount := h.given
      rw [if_pos ⟨hirq, hpoint⟩] at hcount
      exact .inr (.inr (.inr ⟨rfl, by omega⟩))
    | blocked => exact absurd (h.asleep hpoint) (by simp [hirq])
    | filling => exact .inr (.inl rfl)
    | posting => exact .inr (.inr (.inl rfl))

end Signalled

structure Inv (u : Uart) : Prop where
  signalled : u.Signalled
  delivers : ∃ q, u.Delivers q

theorem Inv.step (h : u.Inv) (hstep : uartStep u op = some v) : v.Inv := by
  obtain ⟨hsig, q, hq⟩ := h
  cases op with
  | receive c =>
    cases hstep
    exact ⟨hsig.frame rfl rfl rfl, q, hq.frame _ _ _ Iff.rfl⟩
  | irq =>
    obtain ⟨⟨hirq, -⟩, hhandler⟩ := ite_none_right_eq_some.mp hstep
    refine ⟨hsig.irq hirq hhandler, q, ?_⟩
    rw [hsig.irq_eq hirq] at hhandler
    cases hhandler
    refine hq.frame _ _ _ ?_
    rcases hsig.waiting_or_blocked hirq with hpoint | hpoint <;> simp [hpoint]
  | waitFill =>
    obtain ⟨hpoint, hwait⟩ := ite_none_right_eq_some.mp hstep
    rcases hsem : semWait u.fillSignal fillDaemon with ⟨blocks, fillSignal⟩
    have hnew := hsig.waitFill hpoint hsem
    rw [hsem] at hwait
    cases blocks with
    | true =>
      cases hwait
      exact ⟨hnew, q, hq.frame _ _ _ (by simp [hpoint])⟩
    | false =>
      cases hwait
      exact ⟨hnew, q, hq.frame _ _ _ (by simp [hpoint])⟩
  | fill =>
    obtain ⟨hpoint, hfill⟩ := ite_none_right_eq_some.mp hstep
    cases hfill
    exact ⟨hsig.fill hpoint, hq.fill hpoint⟩
  | postCount =>
    obtain ⟨hpoint, hpost⟩ := ite_none_right_eq_some.mp hstep
    rcases hsem : semPost u.rxCount with _ | ⟨woken, rxCount⟩
    · rw [hsem] at hpost
      exact absurd hpost (by simp)
    · rw [hsem] at hpost
      cases hpost
      exact ⟨hsig.loop (.inr hpoint) rfl rfl (.inl rfl), q, hq.postCount hpoint hsem⟩
  | waitCount a =>
    obtain ⟨-, hwait⟩ := ite_none_left_eq_some.mp hstep
    rcases hsem : semWait u.rxCount a with ⟨blocks, rxCount⟩
    have hnew := hq.waitCount hsem
    rw [hsem] at hwait
    cases blocks with
    | true =>
      cases hwait
      exact ⟨hsig.frame rfl rfl rfl, q, hnew⟩
    | false =>
      cases hwait
      exact ⟨hsig.frame rfl rfl rfl, q, hnew⟩
  | get a =>
    have ha : a ∈ u.reading := (ite_none_right_eq_some.mp hstep).1
    cases q with
    | nil => exact absurd rfl (hq.ne_nil ha)
    | cons x q =>
      rw [uartStep, if_pos ha, bufferGet_cons hq.ring] at hstep
      cases hstep
      exact ⟨hsig.frame rfl rfl rfl, q, hq.get ha⟩

theorem Inv.run (h : Reaches uartStep anyAction initial u) : u.Inv :=
  h.invariant (P := Inv) ⟨signalled_initial, [], delivers_initial⟩ fun _ _ _ hi _ hstep => hi.step hstep

end Uart

def Uart.pending (u : Uart) : ℕ :=
  5 * u.rbr.length + match u.daemon, u.rxIrq with
    | .filling, _ => 0
    | .posting, _ => 1
    | .waiting, false => 2
    | .blocked, _ => 3
    | .waiting, true => 4

theorem pending_lt {u v : Uart} (h : u.Signalled) (hrbr : u.rbr ≠ []) {op : UartOp}
    (hop : op ∈ [UartOp.irq, .waitFill, .fill, .postCount]) (hstep : uartStep u op = some v) :
    v.pending < u.pending := by
  unfold Uart.pending
  simp only [mem_cons, not_mem_nil, or_false] at hop
  rcases hop with rfl | rfl | rfl | rfl
  · obtain ⟨⟨hirq, -⟩, hstep⟩ := ite_none_right_eq_some.mp hstep
    rw [h.irq_eq hirq] at hstep
    cases hstep
    rcases h.waiting_or_blocked hirq with hpoint | hpoint <;> simp [hpoint, hirq]
  · obtain ⟨hpoint, hstep⟩ := ite_none_right_eq_some.mp hstep
    have hcount := h.given
    cases hirq : u.rxIrq with
    | false =>
      rw [if_pos ⟨hirq, hpoint⟩] at hcount
      rw [semWait_pos fillDaemon (by omega)] at hstep
      cases hstep
      simp [hpoint]
    | true =>
      rw [if_neg (by simp [hirq])] at hcount
      rw [semWait_empty fillDaemon (by omega)] at hstep
      cases hstep
      simp [hpoint]
  · obtain ⟨hpoint, hstep⟩ := ite_none_right_eq_some.mp hstep
    cases hstep
    obtain ⟨c, rbr, hcons⟩ := exists_cons_of_ne_nil hrbr
    simp only [fillRxBuff, hcons, hpoint]
    split_ifs <;> simp only [length_cons] <;> omega
  · obtain ⟨hpoint, hstep⟩ := ite_none_right_eq_some.mp hstep
    cases hpost : semPost u.rxCount with
    | none => simp [hpost] at hstep
    | some r =>
      rw [hpost] at hstep
      cases hstep
      simp [hpoint]

/-- While a character waits in the device, the handler or the daemon can go on, and whatever
they do brings them nearer to an empty device. -/
theorem device_drains {u : Uart} (h : Reaches uartStep anyAction .initial u) (hrbr : u.rbr ≠ []) :
    (∃ op ∈ [UartOp.irq, .waitFill, .fill, .postCount], (uartStep u op).isSome) ∧
      ∀ op ∈ [UartOp.irq, .waitFill, .fill, .postCount], ∀ v, uartStep u op = some v → v.pending < u.pending := by
  obtain ⟨hsig, q, hq⟩ := Uart.Inv.run h
  refine ⟨?_, fun op hop v hstep => pending_lt hsig hrbr hop hstep⟩
  rcases hsig.served with hirq | hpoint | hpoint | ⟨hpoint, hcount⟩
  · refine ⟨.irq, by simp, ?_⟩
    rw [uartStep, if_pos ⟨hirq, hrbr⟩, hsig.irq_eq hirq]
    rfl
  · refine ⟨.fill, by simp, ?_⟩
    rw [uartStep, if_pos hpoint]
    rfl
  · exact ⟨.postCount, by simp, hq.postCount_isSome hpoint⟩
  · refine ⟨.waitFill, by simp, ?_⟩
    rw [uartStep, if_pos hpoint, semWait_pos fillDaemon hcount]
    rfl

/-- A character has come and the handler has not run. -/
theorem device_drains_receive : ∃ u, run uartStep .initial [.waitFill, .receive 97] = some u ∧ u.rbr = [97] ∧
    ∃ op ∈ [UartOp.irq, .waitFill, .fill, .postCount], (uartStep u op).isSome := by
  refine ⟨_, rfl, rfl, ?_⟩
  exact (device_drains (.of_run [.waitFill, .receive 97] (allowed_anyAction _ _) rfl) (by decide)).1

/-- In every interleaving of the device, the handler, the daemon and any number of readers
the characters returned are a prefix of those accepted, no reader finds the ring empty,
the tokens account for the buffered characters, one is refused only when 127 are
buffered, and every post is defined. -/
theorem received_in_order {u : Uart} (h : Reaches uartStep anyAction .initial u) :
    u.returned <+: u.accepted ∧
      (∀ a ∈ u.reading, bufferEmpty u.rxBuffer = false) ∧
      u.rxCount.count + u.reading.length + u.owed = u.rxBuffer.size uartRxBufferSize ∧
      (∀ c, (bufferPut u.rxBuffer c).1 ≠ 0 → u.rxBuffer.size uartRxBufferSize = uartRxBufferSize - 1) ∧
      (u.daemon = .posting → (uartStep u .postCount).isSome) := by
  obtain ⟨-, q, hq⟩ := Uart.Inv.run h
  rw [hq.ring.size_eq]
  refine ⟨⟨q, hq.order.symm⟩, fun a ha => ?_, hq.tokens, fun c hc => ?_, fun hpoint => ?_⟩
  · rw [← Bool.not_eq_true, bufferEmpty_iff hq.ring]
    exact hq.ne_nil ha
  · rcases bufferPut_cases hq.ring c with ⟨hfull, -⟩ | ⟨-, hput⟩
    · exact Nat.eq_sub_of_add_eq hfull
    · exact absurd (congrArg Prod.fst hput) hc
  · exact hq.postCount_isSome hpoint

def twoReaders : List UartOp :=
  [.waitFill, .waitCount 7, .waitCount 8, .receive 97, .receive 98, .irq, .fill, .postCount, .fill, .postCount,
    .get 8, .fill]

theorem received_in_order_twoReaders :
    ∃ u, run uartStep .initial twoReaders = some u ∧ u.returned <+: u.accepted ∧ u.accepted = [97, 98] ∧
      u.returned = [97] ∧ u.reading = [7] := by
  refine ⟨_, rfl, ?_, rfl, rfl, rfl⟩
  exact (received_in_order (.of_run twoReaders (allowed_anyAction _ _) rfl)).1

end RvMiniOs.Drivers
