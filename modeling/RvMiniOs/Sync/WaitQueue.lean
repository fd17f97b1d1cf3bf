import Mathlib.Data.List.Nodup
import Mathlib.Logic.Function.Basic

/-!
# Tasks that block on a wait queue

What `scheduler_block_on_locked` and `scheduler_ready_task` do to the callers of
one mutex or semaphore. A caller that has to wait is queued and the spinlock is
dropped before it is switched out, so another task may already release it in
between. A released task comes back from its call when it is next dispatched.
-/
namespace RvMiniOs.Sync

open Function List

inductive Point where
  | outside
  /-- Queued, the spinlock dropped, still to call `switch_out_active`. -/
  | queued
  | switchedOut
  /-- Readied by another task, not yet back from its call. -/
  | released
  deriving DecidableEq, Repr

def Point.Waiting (p : Point) : Prop := p = .queued ∨ p = .switchedOut

instance (p : Point) : Decidable p.Waiting := inferInstanceAs (Decidable (_ ∨ _))

/-- The callers of one object. The last two fields are ghosts: every task that
has ever been queued and every task that has ever been released, in order. -/
structure Callers where
  point : ℕ → Point
  joined : List ℕ
  left : List ℕ

namespace Callers

def setPoint (c : Callers) (t : ℕ) (p : Point) : Callers :=
  { c with point := Function.update c.point t p }

/-- `scheduler_block_on_locked` up to `spinlock_unlock`. -/
def block (c : Callers) (t : ℕ) : Callers :=
  { c.setPoint t .queued with joined := c.joined ++ [t] }

/-- `scheduler_ready_task` of the task that `wq_pop_head` returned. -/
def ready (c : Callers) (t : ℕ) : Callers :=
  { c.setPoint t .released with left := c.left ++ [t] }

def initial : Callers where
  point := fun _ => .outside
  joined := []
  left := []

/-- The queue `wq` holds exactly the waiting callers, each once, and has been
served in the order it was joined in. -/
structure Tracks (c : Callers) (wq : List ℕ) : Prop where
  nodup : wq.Nodup
  mem_iff : ∀ t, t ∈ wq ↔ (c.point t).Waiting
  order : c.joined = c.left ++ wq

variable {c : Callers} {wq : List ℕ} {t : ℕ}

theorem tracks_initial : Tracks initial [] where
  nodup := nodup_nil
  mem_iff := by simp [initial, Point.Waiting]
  order := rfl

theorem Tracks.setPoint_away (h : c.Tracks wq) {p : Point} (ht : ¬ (c.point t).Waiting)
    (hp : ¬ p.Waiting) : (c.setPoint t p).Tracks wq where
  nodup := h.nodup
  mem_iff := by
    intro u
    rcases eq_or_ne u t with rfl | hu
    · simp [setPoint, hp, h.mem_iff, ht]
    · simp [setPoint, update_of_ne hu, h.mem_iff]
  order := h.order

theorem Tracks.switchOut (h : c.Tracks wq) (ht : c.point t = .queued) :
    (c.setPoint t .switchedOut).Tracks wq where
  nodup := h.nodup
  mem_iff := by
    intro u
    rcases eq_or_ne u t with rfl | hu
    · simp [setPoint, h.mem_iff, ht, Point.Waiting]
    · simp [setPoint, update_of_ne hu, h.mem_iff]
  order := h.order

theorem Tracks.block (h : c.Tracks wq) (ht : ¬ (c.point t).Waiting) : (c.block t).Tracks (wq ++ [t]) where
  nodup := by
    have hnot : t ∉ wq := fun hmem => ht ((h.mem_iff t).mp hmem)
    exact nodup_append.mpr ⟨h.nodup, nodup_singleton t, by
      rintro a ha b hb rfl
      exact hnot (mem_singleton.mp hb ▸ ha)⟩
  mem_iff := by
    intro u
    rcases eq_or_ne u t with rfl | hu
    · simp [Callers.block, setPoint, Point.Waiting]
    · simp [Callers.block, setPoint, h.mem_iff, hu]
  order := by
    show c.joined ++ [t] = c.left ++ (wq ++ [t])
    rw [h.order, append_assoc]

theorem Tracks.ready (h : c.Tracks (t :: wq)) : (c.ready t).Tracks wq where
  nodup := h.nodup.of_cons
  mem_iff := by
    intro u
    have hnot : t ∉ wq := (nodup_cons.mp h.nodup).1
    rcases eq_or_ne u t with rfl | hu
    · simp [Callers.ready, setPoint, hnot, Point.Waiting]
    · have := h.mem_iff u
      simp only [mem_cons, hu, false_or] at this
      simp [Callers.ready, setPoint, update_of_ne hu, this]
  order := by
    show c.joined = (c.left ++ [t]) ++ wq
    rw [h.order, append_assoc, singleton_append]

end Callers

end RvMiniOs.Sync
