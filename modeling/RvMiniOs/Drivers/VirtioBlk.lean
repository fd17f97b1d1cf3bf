import RvMiniOs.Lib.Counting
import RvMiniOs.Lib.Ring
import RvMiniOs.Lib.Runs
import RvMiniOs.Sync.Semaphore
import Mathlib.Algebra.Order.BigOperators.Group.Finset

/-!
# The disk driver

`kernel/drivers/blk/virtio_blk.c`: the queue of three-descriptor requests, the
tasks in `virtio_blk_request`, the device and the interrupt handler. A step is a
section under `vq_lock` or under a semaphore, one access of the device, or one
part of a turn of the handler's loop. `plic_handle_irq` completes the interrupt
after the handler has returned, so there is one handler at a time; a task that it
posts may run before the handler moves on.

The requests are numbered in the order of their submission. The queues `availQ`
and `usedQ`, the numbers in `pending` and `postedBy` are ghosts.
-/
namespace RvMiniOs.Drivers

open Lib Sync

abbrev virtqDescFNext : ℕ := 1
abbrev virtqDescFWrite : ℕ := 2
abbrev virtioReqNumDesc : ℕ := 3
abbrev virtioBlkTIn : ℕ := 0
abbrev virtioIrqQueue : ℕ := 1

/-- What a descriptor points to, in the frame of request `r`. -/
inductive Buffer where
  | hdr (r : ℕ)
  | data (r : ℕ)
  | status (r : ℕ)
  deriving DecidableEq, Repr

structure VirtqDesc where
  addr : Option Buffer
  len : ℕ
  flags : ℕ
  next : ℕ
  deriving DecidableEq, Repr

structure VirtqUsedElem where
  id : ℕ
  len : ℕ
  deriving DecidableEq, Repr

structure VirtioBlkReq where
  type : ℕ
  head : ℕ
  completionSem : Semaphore
  len : ℕ
  deriving DecidableEq, Repr

structure VirtioBlkDriver where
  num : ℕ
  desc : ℕ → VirtqDesc
  avail : IndexRing ℕ
  used : IndexRing VirtqUsedElem
  freeHeadIdx : ℕ
  inflight : ℕ → Option ℕ
  freeSlots : Semaphore
  lastSeenUsed : UInt16

/-- The page of the queue comes zeroed from `page_alloc`. -/
def initFreeList (n : ℕ) : VirtioBlkDriver where
  num := n
  desc := fun i => { addr := none, len := 0, flags := 0, next := if i < n - 1 then i + 1 else 0 }
  avail := ⟨fun _ => 0, 0⟩
  used := ⟨fun _ => ⟨0, 0⟩, 0⟩
  freeHeadIdx := 0
  inflight := fun _ => none
  freeSlots := semInit (n / virtioReqNumDesc : ℕ)
  lastSeenUsed := 0

def submitReq (d : VirtioBlkDriver) (r type size : ℕ) : ℕ × VirtioBlkDriver :=
  let idx0 := d.freeHeadIdx
  let idx1 := (d.desc idx0).next
  let idx2 := (d.desc idx1).next
  let newFreeSlot := (d.desc idx2).next
  let dataFlags := if type = virtioBlkTIn then virtqDescFNext ||| virtqDescFWrite
    else virtqDescFNext
  let desc := Function.update d.desc idx0
    { addr := some (.hdr r), len := 16, flags := virtqDescFNext, next := idx1 }
  let desc := Function.update desc idx1
    { addr := some (.data r), len := size, flags := dataFlags, next := idx2 }
  let desc := Function.update desc idx2
    { addr := some (.status r), len := 1, flags := virtqDescFWrite, next := 0 }
  (idx0, { d with
    desc
    avail := d.avail.push d.num idx0
    freeHeadIdx := newFreeSlot
    inflight := Function.update d.inflight idx0 (some r) })

/-- The loop of `release_desc_chain` from descriptor `curr`: it clears the flags
on its way and stops at the last descriptor. -/
def unchain : ℕ → (ℕ → VirtqDesc) → ℕ → Option (ℕ × (ℕ → VirtqDesc))
  | 0, _, _ => none
  | fuel + 1, desc, curr =>
    if (desc curr).flags &&& virtqDescFNext ≠ 0 then
      unchain fuel (Function.update desc curr { desc curr with flags := 0 }) (desc curr).next
    else some (curr, desc)

def relink (d : VirtioBlkDriver) (head status : ℕ) : VirtioBlkDriver :=
  { d with
    desc := Function.update d.desc status { d.desc status with next := d.freeHeadIdx }
    freeHeadIdx := head }

inductive Phase where
  | outside
  /-- Blocked in `sem_wait` of the free slots. -/
  | slotWait
  | granted
  /-- Request `r` is submitted, the wait for its completion is next. -/
  | submitted (r : ℕ)
  | waiting (r : ℕ)
  | completed (r : ℕ)
  /-- The flags of the chain are cleared, its last descriptor is `status`. -/
  | unchained (r status : ℕ)
  /-- The chain is in the free list, the post of its slot is next. -/
  | relinked
  deriving DecidableEq, Repr

inductive Handler where
  | outside
  | loop
  /-- It has read the used element. -/
  | acked (elem : VirtqUsedElem)
  /-- It has posted the request of the element and not moved on. -/
  | posted
  deriving DecidableEq, Repr

structure Sys where
  driver : VirtioBlkDriver
  phase : ℕ → Phase
  req : ℕ → VirtioBlkReq
  count : ℕ
  handler : Handler
  /-- The device: its index in the available ring, and the heads of the chains it
  has taken, with the request that submitted each. -/
  devSeen : UInt16
  pending : List (ℕ × ℕ)
  availQ : List ℕ
  usedQ : List ℕ
  /-- The requests whose used elements made the handler post this one. -/
  postedBy : ℕ → List ℕ

namespace Sys

def setPhase (s : Sys) (t : ℕ) (p : Phase) : Sys :=
  { s with phase := Function.update s.phase t p }

def setReq (s : Sys) (r : ℕ) (q : VirtioBlkReq) : Sys :=
  { s with req := Function.update s.req r q }

def wake (s : Sys) : Option ℕ → Sys
  | none => s
  | some t =>
    match s.phase t with
    | .slotWait => s.setPhase t .granted
    | .waiting r => s.setPhase t (.completed r)
    | _ => s

def initial (n : ℕ) : Sys where
  driver := initFreeList n
  phase := fun _ => .outside
  req := fun _ => ⟨0, 0, semInit 0, 0⟩
  count := 0
  handler := .outside
  devSeen := 0
  pending := []
  availQ := []
  usedQ := []
  postedBy := fun _ => []

end Sys

inductive Op where
  | slot (a : ℕ)
  | submit (a type size : ℕ)
  | wait (a : ℕ)
  | unchain (a : ℕ)
  | relink (a : ℕ)
  | freeSlot (a : ℕ)
  /-- The device takes the next chain. -/
  | take
  /-- The device completes the chain at position `k` of those it has taken. -/
  | complete (k len : ℕ)
  /-- The handler is entered and reads the interrupt status. -/
  | irq (status : ℕ)
  | ack
  | post
  | advance
  deriving DecidableEq, Repr

def Op.apply (s : Sys) : Op → Option Sys
  | .slot a =>
    if s.phase a = .outside then
      match semWait s.driver.freeSlots a with
      | (true, freeSlots) => some ({ s with driver := { s.driver with freeSlots } }.setPhase a .slotWait)
      | (false, freeSlots) => some ({ s with driver := { s.driver with freeSlots } }.setPhase a .granted)
    else none
  | .submit a type size =>
    if s.phase a = .granted then
      let r := s.count
      let (head, driver) := submitReq s.driver r type size
      some (({ s with driver, count := r + 1, availQ := s.availQ ++ [r] }.setReq r
        ⟨type, head, semInit 0, 0⟩).setPhase a (.submitted r))
    else none
  | .wait a =>
    match s.phase a with
    | .submitted r =>
      match semWait (s.req r).completionSem a with
      | (true, completionSem) =>
        some ((s.setReq r { s.req r with completionSem }).setPhase a (.waiting r))
      | (false, completionSem) =>
        some ((s.setReq r { s.req r with completionSem }).setPhase a (.completed r))
    | _ => none
  | .unchain a =>
    match s.phase a with
    | .completed r =>
      (Drivers.unchain s.driver.num s.driver.desc (s.req r).head).map fun (status, desc) =>
        { s with driver := { s.driver with desc } }.setPhase a (.unchained r status)
    | _ => none
  | .relink a =>
    match s.phase a with
    | .unchained r status =>
      some ({ s with driver := Drivers.relink s.driver (s.req r).head status }.setPhase a .relinked)
    | _ => none
  | .freeSlot a =>
    if s.phase a = .relinked then
      (semPost s.driver.freeSlots).map fun (woken, freeSlots) =>
        ({ s with driver := { s.driver with freeSlots } }.setPhase a .outside).wake woken
    else none
  | .take =>
    if s.devSeen ≠ s.driver.avail.idx then
      some { s with
        devSeen := s.devSeen + 1
        pending := s.pending ++ [(s.driver.avail.peek s.driver.num s.devSeen, s.availQ.headD 0)]
        availQ := s.availQ.tail }
    else none
  | .complete k len =>
    (s.pending[k]?).map fun (head, r) =>
      { s with
        driver := { s.driver with used := s.driver.used.push s.driver.num ⟨head, len⟩ }
        pending := s.pending.eraseIdx k
        usedQ := s.usedQ ++ [r] }
  | .irq status =>
    if s.handler = .outside then
      some (if status &&& virtioIrqQueue = 0 then s else { s with handler := .loop })
    else none
  | .ack =>
    if s.handler = .loop then
      if s.driver.lastSeenUsed ≠ s.driver.used.idx then
        some { s with handler := .acked (s.driver.used.peek s.driver.num s.driver.lastSeenUsed) }
      else some { s with handler := .outside }
    else none
  | .post =>
    match s.handler with
    | .acked elem =>
      match s.driver.inflight elem.id with
      | none => none
      | some r =>
        (semPost (s.req r).completionSem).map fun (woken, completionSem) =>
          ({ s.setReq r { s.req r with len := elem.len, completionSem } with
            handler := .posted
            postedBy := Function.update s.postedBy r (s.postedBy r ++ [s.usedQ.headD 0]) }).wake woken
    | _ => none
  | .advance =>
    if s.handler = .posted then
      some { s with
        driver := { s.driver with lastSeenUsed := s.driver.lastSeenUsed + 1 }
        handler := .loop
        usedQ := s.usedQ.tail }
    else none

def Op.task : Op → Option ℕ
  | .slot a | .submit a _ _ | .wait a | .unchain a | .relink a | .freeSlot a => some a
  | .take | .complete _ _ | .irq _ | .ack | .post | .advance => none

def step (T : Finset ℕ) (s : Sys) (op : Op) : Option Sys :=
  if ∀ a ∈ op.task, a ∈ T then op.apply s else none

end RvMiniOs.Drivers
