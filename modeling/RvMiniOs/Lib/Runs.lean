import Mathlib.Logic.Relation
import Mathlib.Data.Option.Basic

/-!
# Guarded runs of a partial step function

A step function `step : σ → α → Option σ` refuses an action with `none`. A run
is guarded by `ok` when every action it takes is allowed by `ok` in the state
it is taken in.
-/
namespace RvMiniOs.Lib

open Option

variable {σ α : Type*} {step : σ → α → Option σ} {ok : σ → α → Prop}

def Reaches (step : σ → α → Option σ) (ok : σ → α → Prop) : σ → σ → Prop :=
  Relation.ReflTransGen fun s t => ∃ a, ok s a ∧ step s a = some t

def anyAction (_ : σ) (_ : α) : Prop := True

namespace Reaches

theorem refl (s : σ) : Reaches step ok s s :=
  Relation.ReflTransGen.refl

theorem tail {s t u : σ} (h : Reaches step ok s t) (a : α) (ha : ok t a)
    (hstep : step t a = some u) : Reaches step ok s u :=
  Relation.ReflTransGen.tail h ⟨a, ha, hstep⟩

theorem invariant {P : σ → Prop} {s t : σ} (h : Reaches step ok s t) (h0 : P s)
    (hstep : ∀ s a s', P s → ok s a → step s a = some s' → P s') : P t := by
  induction h with
  | refl => exact h0
  | tail _ hst ih =>
    obtain ⟨a, ha, hs⟩ := hst
    exact hstep _ a _ ih ha hs

end Reaches

def run (step : σ → α → Option σ) : σ → List α → Option σ
  | s, [] => some s
  | s, a :: as => (step s a).bind fun t => run step t as

theorem run_append (s : σ) (as bs : List α) :
    run step s (as ++ bs) = (run step s as).bind fun t => run step t bs := by
  induction as generalizing s with
  | nil => rfl
  | cons a as ih => simp [run, ih, bind_assoc]

/-- Every action of `as` is allowed in the state the run takes it in. -/
def Allowed (step : σ → α → Option σ) (ok : σ → α → Prop) : σ → List α → Prop
  | _, [] => True
  | s, a :: as => ok s a ∧ ∀ t ∈ step s a, Allowed step ok t as

instance Allowed.decidable [∀ s a, Decidable (ok s a)] :
    ∀ (s : σ) (as : List α), Decidable (Allowed step ok s as)
  | _, [] => .isTrue trivial
  | s, a :: as =>
    have : Decidable (∀ t ∈ step s a, Allowed step ok t as) :=
      match h : step s a with
      | none => .isTrue (by simp)
      | some t => @decidable_of_iff _ (Allowed step ok t as) (by simp) (Allowed.decidable t as)
    inferInstanceAs (Decidable (_ ∧ _))

theorem Reaches.of_run {s t : σ} (as : List α) (hok : Allowed step ok s as)
    (h : run step s as = some t) : Reaches step ok s t := by
  induction as generalizing s with
  | nil =>
    exact some.inj h ▸ Reaches.refl s
  | cons a as ih =>
    obtain ⟨u, hu, hrest⟩ := bind_eq_some_iff.mp h
    exact Relation.ReflTransGen.head ⟨a, hok.1, hu⟩ (ih (hok.2 u hu) hrest)

theorem allowed_of_forall {as : List α} (h : ∀ a ∈ as, ∀ s, ok s a) (s : σ) :
    Allowed step ok s as := by
  induction as generalizing s with
  | nil => trivial
  | cons a as ih => exact ⟨h a (by simp) s, fun t _ => ih (fun b hb => h b (by simp [hb])) t⟩

theorem allowed_anyAction (s : σ) (as : List α) : Allowed step anyAction s as :=
  allowed_of_forall (fun _ _ _ => trivial) s

theorem exists_of_run_any {P : σ → Prop} [DecidablePred P] {s : σ} (as : List α)
    (h : (run step s as).any (fun t => decide (P t)) = true) : ∃ t, run step s as = some t ∧ P t := by
  cases ht : run step s as with
  | none => simp [ht] at h
  | some t => exact ⟨t, rfl, by simpa [ht] using h⟩

theorem Reaches.of_run_any {P : σ → Prop} [DecidablePred P] {s : σ} (as : List α)
    (h : (run step s as).any (fun t => decide (P t)) = true) : ∃ t, Reaches step anyAction s t ∧ P t := by
  obtain ⟨t, ht, hP⟩ := exists_of_run_any as h
  exact ⟨t, .of_run as (allowed_anyAction s as) ht, hP⟩

section Views

variable {π ε : Type*} {event : σ → α → ε} {next : π → ε → π} {view : σ → π}

end Views

end RvMiniOs.Lib
