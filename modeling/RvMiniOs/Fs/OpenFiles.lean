import RvMiniOs.Fs.Files

/-!
# Slots of the file table

`file_open`, `file_clone` and `file_put` of `file.c` as calls that overlap. A
call can be switched out between any two slots that `file_alloc` looks at, between
any two of its stores, and `file_open` before them, in `inode_lock`. Calls are
numbered in the order in which they begin to look for a slot; a number also names
the reference that its call returns. The task that clones a file is busy until the
clone is done, so it does not put or use the file meanwhile. What happens to inodes
is left out.
-/
namespace RvMiniOs.Fs.OpenFiles

open Lib List Option
open Tasks.Descriptors (fileMaxNum)

structure Slot where
  refcnt : ℕ
  i : ℕ
  mode : ℕ
  off : ℤ
  dev : Option ℕ
  deriving DecidableEq, Repr

inductive Purpose where
  | open (i flags : ℕ) (dev : Option ℕ)
  | clone (src : ℕ)
  deriving DecidableEq, Repr

inductive Ref where
  | none
  | scanning (p : Purpose) (k : ℕ)
  | filling (p : Purpose) (f n : ℕ)
  | held (f : ℕ)
  | lent (f : ℕ)
  | closed
  deriving DecidableEq, Repr

structure State where
  ftable : ℕ → Slot
  ref : ℕ → Ref
  calls : ℕ

namespace State

def setRef (s : State) (c : ℕ) (r : Ref) : State := { s with ref := Function.update s.ref c r }

def setSlot (s : State) (f : ℕ) (v : Slot) : State :=
  { s with ftable := Function.update s.ftable f v }

def begin (s : State) (p : Purpose) : State :=
  { s.setRef s.calls (.scanning p 0) with calls := s.calls + 1 }

def giveBack (s : State) : Purpose → State
  | .open .. => s
  | .clone src =>
    match s.ref src with
    | .lent g => s.setRef src (.held g)
    | _ => s

end State

def openStore (i flags : ℕ) (dev : Option ℕ) (slot : Slot) : ℕ → Slot
  | 0 => { slot with dev }
  | 1 => { slot with i }
  | 2 => { slot with mode := flags &&& oModeMask }
  | 3 => { slot with off := 0 }
  | _ => { slot with refcnt := 1 }

def cloneStore (src slot : Slot) : ℕ → Slot
  | 0 => src
  | 1 => { slot with i := src.i }
  | _ => { slot with refcnt := 1 }

inductive Action where
  | open (i flags : ℕ) (dev : Option ℕ)
  | clone (src : ℕ)
  | scan (c : ℕ)
  | store (c : ℕ)
  | fail (c : ℕ)
  | put (c : ℕ)
  | move (c : ℕ) (off : ℤ)
  deriving DecidableEq, Repr

def step (s : State) : Action → Option State
  | .open i flags dev => some (s.begin (.open i flags dev))
  | .clone src =>
    match s.ref src with
    | .held g => some ((s.setRef src (.lent g)).begin (.clone src))
    | _ => none
  | .scan c =>
    match s.ref c with
    | .scanning p k =>
      if k < fileMaxNum then
        some (s.setRef c (if (s.ftable k).refcnt = 0 then .filling p k 0 else .scanning p (k + 1)))
      else some ((s.setRef c .closed).giveBack p)
    | _ => none
  | .store c =>
    match s.ref c with
    | .filling (.open i flags dev) f n =>
      some ((s.setSlot f (openStore i flags dev (s.ftable f) n)).setRef c
        (if n < 4 then .filling (.open i flags dev) f (n + 1) else .held f))
    | .filling (.clone src) f n =>
      match s.ref src with
      | .lent g =>
        let s := s.setSlot f (cloneStore (s.ftable g) (s.ftable f) n)
        some (if n < 2 then s.setRef c (.filling (.clone src) f (n + 1))
          else (s.setRef c (.held f)).giveBack (.clone src))
      | _ => none
    | _ => none
  | .fail c =>
    match s.ref c with
    | .filling (.open ..) _ 0 => some (s.setRef c .closed)
    | _ => none
  | .put c =>
    match s.ref c with
    | .held f =>
      let refcnt := Tasks.Descriptors.filePut (fun f => (s.ftable f).refcnt) f f
      some ((s.setSlot f { s.ftable f with refcnt }).setRef c .closed)
    | _ => none
  | .move c off =>
    match s.ref c with
    | .held f => some (s.setSlot f { s.ftable f with off })
    | _ => none

def initial : State where
  ftable := fun _ => ⟨0, 0, 0, 0, none⟩
  ref := fun _ => .none
  calls := 0

namespace Ref

def slot : Ref → Option ℕ
  | filling _ f _ | held f | lent f => some f
  | none | scanning .. | closed => Option.none

def heldSlot : Ref → Option ℕ
  | held f | lent f => some f
  | _ => Option.none

def reserved : Ref → Bool
  | filling (.open ..) .. => true
  | filling (.clone _) _ n => n = 0
  | _ => false

def source : Ref → Option ℕ
  | scanning (.clone src) _ | filling (.clone src) _ _ => some src
  | _ => Option.none

theorem slot_of_heldSlot {r : Ref} {f : ℕ} (h : r.heldSlot = some f) : r.slot = some f := by
  cases r <;> first | exact h | cases h

end Ref

def Action.call (s : State) : Action → ℕ
  | .open .. | .clone _ => s.calls
  | .scan c | .store c | .fail c | .put c | .move c _ => c

def Settled (s : State) : Action → Prop
  | .scan c =>
    match s.ref c with
    | .scanning _ k => (s.ftable k).refcnt = 0 → ∀ c' < s.calls, (s.ref c').reserved = false
    | _ => True
  | _ => True

instance (s : State) (a : Action) : Decidable (Settled s a) := by
  unfold Settled
  split
  · split <;> infer_instance
  · infer_instance

def Distinct (s : State) : Prop :=
  ∀ c c' f f', (s.ref c).heldSlot = some f → (s.ref c').heldSlot = some f' → c ≠ c' → f ≠ f'

def Undisturbed (s : State) (a : Action) (s' : State) : Prop :=
  ∀ c f, (s.ref c).heldSlot = some f → a.call s ≠ c →
    (s'.ftable f).i = (s.ftable f).i ∧ (s'.ftable f).mode = (s.ftable f).mode ∧
      (s'.ftable f).off = (s.ftable f).off

structure Inv (s : State) : Prop where
  fresh : ∀ c, s.calls ≤ c → s.ref c = .none
  sole : ∀ c c' f, (s.ref c).slot = some f → (s.ref c').slot = some f → c = c'
  count : ∀ c f, (s.ref c).slot = some f →
    (s.ftable f).refcnt = if (s.ref c).reserved then 0 else 1
  lends : ∀ c src, (s.ref c).source = some src → ∃ g, s.ref src = .lent g
  lenders : ∀ c c' src, (s.ref c).source = some src → (s.ref c').source = some src → c = c'

section Steps

variable {s s' : State} {a : Action} {c f : ℕ}

theorem setRef_self (s : State) (c : ℕ) (r : Ref) : (s.setRef c r).ref c = r := by
  simp [State.setRef]

theorem setRef_ne {r : Ref} {c' : ℕ} (h : c' ≠ c) : (s.setRef c r).ref c' = s.ref c' := by
  simp [State.setRef, h]

theorem setSlot_self (s : State) (f : ℕ) (v : Slot) : (s.setSlot f v).ftable f = v := by
  simp [State.setSlot]

theorem setSlot_ne {v : Slot} {f' : ℕ} (h : f' ≠ f) : (s.setSlot f v).ftable f' = s.ftable f' := by
  simp [State.setSlot, h]

namespace Inv

theorem lt_calls (h : Inv s) (hc : s.ref c ≠ .none) : c < s.calls := by
  by_contra hge
  exact hc (h.fresh c (not_lt.mp hge))

theorem change (h : Inv s) {r : Ref} {T : ℕ → Slot} (hc : s.ref c ≠ .none)
    (hframe : ∀ c' ≠ c, ∀ f, (s.ref c').slot = some f →
      (T f).refcnt = (s.ftable f).refcnt ∧ r.slot ≠ some f)
    (hcount : ∀ f, r.slot = some f → (T f).refcnt = if r.reserved then 0 else 1)
    (hsource : r.source = none ∨ r.source = (s.ref c).source)
    (hlent : (∃ g, r = .lent g) ∨ ∀ c' ≠ c, (s.ref c').source ≠ some c) :
    Inv { s.setRef c r with ftable := T } := by
  have hother : ∀ c' ≠ c, (s.setRef c r).ref c' = s.ref c' := fun c' h' => setRef_ne h'
  have hself : (s.setRef c r).ref c = r := setRef_self ..
  have hback : ∀ c' src, ((s.setRef c r).ref c').source = some src →
      (s.ref c').source = some src := by
    intro c' src hsrc
    by_cases hc' : c' = c
    · rw [hc', hself] at hsrc
      rcases hsource with hr | hr <;> rw [hr] at hsrc
      · cases hsrc
      · rwa [hc']
    · rwa [hother c' hc'] at hsrc
  refine ⟨fun c' hc' => ?_, fun c₁ c₂ f h₁ h₂ => ?_, fun c' f hf => ?_,
    fun c' src hsrc => ?_, fun c₁ c₂ src h₁ h₂ => ?_⟩ <;> dsimp only at *
  · rw [hother c' (by rintro rfl; exact absurd hc' (not_le.mpr (h.lt_calls hc)))]
    exact h.fresh c' hc'
  · by_cases hc₁ : c₁ = c <;> by_cases hc₂ : c₂ = c
    · rw [hc₁, hc₂]
    · rw [hc₁, hself] at h₁
      rw [hother c₂ hc₂] at h₂
      exact absurd h₁ (hframe c₂ hc₂ f h₂).2
    · rw [hc₂, hself] at h₂
      rw [hother c₁ hc₁] at h₁
      exact absurd h₂ (hframe c₁ hc₁ f h₁).2
    · rw [hother c₁ hc₁] at h₁
      rw [hother c₂ hc₂] at h₂
      exact h.sole c₁ c₂ f h₁ h₂
  · by_cases hc' : c' = c
    · rw [hc', hself] at hf ⊢
      exact hcount f hf
    · rw [hother c' hc'] at hf ⊢
      rw [(hframe c' hc' f hf).1]
      exact h.count c' f hf
  · obtain ⟨g, hg⟩ := h.lends c' src (hback c' src hsrc)
    by_cases hsc : src = c
    · rw [hsc, hself]
      rcases hlent with hr | hr
      · exact hr
      · -- A lent reference is not itself a call that clones.
        have hne : c' ≠ c := by
          rintro rfl
          have hself' := hback c' src hsrc
          rw [← hsc, hg] at hself'
          cases hself'
        exact absurd (hsc ▸ hback c' src hsrc) (hr c' hne)
    · exact ⟨g, by rw [hother src hsc, hg]⟩
  · exact h.lenders c₁ c₂ src (hback c₁ src h₁) (hback c₂ src h₂)

theorem update (h : Inv s) {r : Ref} {v : Slot} (hold : (s.ref c).slot = some f)
    (hnew : r.slot = some f ∨ r.slot = none)
    (hcount : r.slot = some f → v.refcnt = if r.reserved then 0 else 1)
    (hsource : r.source = none ∨ r.source = (s.ref c).source)
    (hlent : (∃ g, r = .lent g) ∨ ∀ c' ≠ c, (s.ref c').source ≠ some c) :
    Inv ((s.setSlot f v).setRef c r) := by
  have hc : s.ref c ≠ .none := fun hnone => by rw [hnone] at hold; cases hold
  refine h.change hc (fun c' hne f' hf' => ?_) (fun f' hf' => ?_) hsource hlent
  · have hff : f' ≠ f := by
      rintro rfl
      exact hne (h.sole c' c f' hf' hold)
    refine ⟨by rw [setSlot_ne hff], ?_⟩
    rcases hnew with hr | hr
    · rw [hr]
      exact fun heq => hff (some.inj heq).symm
    · simp [hr]
  · rcases hnew with hr | hr
    · obtain rfl : f = f' := some.inj (hr.symm.trans hf')
      rw [setSlot_self]
      exact hcount hr
    · rw [hr] at hf'
      cases hf'

theorem update_ref (h : Inv s) {r : Ref} (hc : s.ref c ≠ .none)
    (hnew : r.slot = (s.ref c).slot ∧ r.reserved = (s.ref c).reserved ∨ r.slot = none)
    (hsource : r.source = none ∨ r.source = (s.ref c).source)
    (hlent : (∃ g, r = .lent g) ∨ ∀ c' ≠ c, (s.ref c').source ≠ some c) : Inv (s.setRef c r) := by
  refine h.change (T := s.ftable) hc (fun c' hne f hf => ⟨rfl, fun hr => ?_⟩)
    (fun f hr => ?_) hsource hlent
  all_goals obtain ⟨hslot, hres⟩ := hnew.resolve_right (by simp [hr])
  · exact hne (h.sole c' c f hf (hslot ▸ hr))
  · rw [hres]
    exact h.count c f (hslot ▸ hr)

theorem source_ne (h : Inv s) (hc : ∀ g, s.ref c ≠ .lent g) (c' : ℕ) : (s.ref c').source ≠ some c := by
  intro hsrc
  obtain ⟨g, hg⟩ := h.lends c' c hsrc
  exact hc g hg

theorem begin (h : Inv s) {p : Purpose}
    (hlends : ∀ src, p = .clone src → (∃ g, s.ref src = .lent g) ∧ ∀ c, (s.ref c).source ≠ some src) :
    Inv (s.begin p) := by
  have hother : ∀ c ≠ s.calls, (s.begin p).ref c = s.ref c := fun c hc => setRef_ne (s := s) hc
  have hself : (s.begin p).ref s.calls = .scanning p 0 := setRef_self s s.calls _
  have hslot : ∀ c f, ((s.begin p).ref c).slot = some f → c ≠ s.calls := by
    rintro c f hf rfl
    rw [hself] at hf
    cases hf
  have hsource : ∀ src, (Ref.scanning p 0).source = some src → p = .clone src := by
    intro src hsrc
    cases p with
    | «open» => cases hsrc
    | clone src' => rw [some.inj hsrc]
  refine ⟨fun c hc => ?_, fun c₁ c₂ f h₁ h₂ => ?_, fun c f hf => ?_, fun c src hsrc => ?_,
    fun c₁ c₂ src h₁ h₂ => ?_⟩
  · have hle : s.calls + 1 ≤ c := hc
    rw [hother c (by omega)]
    exact h.fresh c (by omega)
  · have hc₁ := hother c₁ (hslot c₁ f h₁)
    have hc₂ := hother c₂ (hslot c₂ f h₂)
    exact h.sole c₁ c₂ f (hc₁ ▸ h₁) (hc₂ ▸ h₂)
  · have hc := hother c (hslot c f hf)
    rw [hc] at hf ⊢
    exact h.count c f hf
  · obtain ⟨g, hg⟩ : ∃ g, s.ref src = .lent g := by
      by_cases hc : c = s.calls
      · rw [hc, hself] at hsrc
        exact (hlends src (hsource src hsrc)).1
      · rw [hother c hc] at hsrc
        exact h.lends c src hsrc
    exact ⟨g, by rw [hother src (h.lt_calls (by simp [hg])).ne, hg]⟩
  · by_cases hc₁ : c₁ = s.calls <;> by_cases hc₂ : c₂ = s.calls
    · rw [hc₁, hc₂]
    · rw [hc₁, hself] at h₁
      rw [hother c₂ hc₂] at h₂
      exact absurd h₂ ((hlends src (hsource src h₁)).2 c₂)
    · rw [hc₂, hself] at h₂
      rw [hother c₁ hc₁] at h₁
      exact absurd h₁ ((hlends src (hsource src h₂)).2 c₁)
    · rw [hother c₁ hc₁] at h₁
      rw [hother c₂ hc₂] at h₂
      exact h.lenders c₁ c₂ src h₁ h₂

theorem giveBack (h : Inv s) {p : Purpose}
    (hnone : ∀ src, p = .clone src → ∀ c, (s.ref c).source ≠ some src) : Inv (s.giveBack p) := by
  cases p with
  | «open» => exact h
  | clone src =>
    rw [State.giveBack]
    split
    case h_1 g hg =>
      exact h.update_ref (by simp [hg]) (.inl (by simp [hg, Ref.slot, Ref.reserved])) (.inl rfl)
        (.inr fun c' _ => hnone src rfl c')
    case h_2 => exact h

theorem source_after (h : Inv s) {r : Ref} (hr : r.source = none) {src : ℕ}
    (hsrc : (s.ref c).source = some src) (c' : ℕ) : ((s.setRef c r).ref c').source ≠ some src := by
  intro hc'
  by_cases hne : c' = c
  · rw [hne, setRef_self, hr] at hc'
    cases hc'
  · rw [setRef_ne hne] at hc'
    exact hne (h.lenders c' c src hc' hsrc)

theorem clone (h : Inv s) {src : ℕ} (hstep : step s (.clone src) = some s') : Inv s' := by
  simp only [step] at hstep
  split at hstep
  case h_2 => cases hstep
  case h_1 g hsrc =>
    cases hstep
    have hlent : Inv (s.setRef src (.lent g)) :=
      h.update_ref (by simp [hsrc]) (.inl (by simp [hsrc, Ref.slot, Ref.reserved])) (.inl rfl)
        (.inl ⟨g, rfl⟩)
    refine hlent.begin fun src' hp => ?_
    obtain rfl : src = src' := by simpa using hp
    refine ⟨⟨g, setRef_self ..⟩, fun c hc => ?_⟩
    by_cases hne : c = src
    · rw [hne, setRef_self] at hc
      cases hc
    · rw [setRef_ne hne] at hc
      exact h.source_ne (by simp [hsrc]) c hc

theorem scan (h : Inv s) (hset : Settled s (.scan c)) (hstep : step s (.scan c) = some s') : Inv s' := by
  simp only [step] at hstep
  split at hstep
  case h_2 => cases hstep
  case h_1 p k hc =>
    have hnone : ∀ c' ≠ c, (s.ref c').source ≠ some c := fun c' _ =>
      h.source_ne (by simp [hc]) c'
    have hbegun : s.ref c ≠ .none := by simp [hc]
    split at hstep
    · cases hstep
      split
      case isTrue hzero =>
        -- Nobody has a slot whose count is zero, for none is merely reserved.
        simp only [Settled, hc] at hset
        have hfree : ∀ c', (s.ref c').slot ≠ some k := by
          intro c' hc'
          have hlt : c' < s.calls := h.lt_calls fun hnone => by rw [hnone] at hc'; cases hc'
          have hcount := h.count c' k hc'
          rw [hset hzero c' hlt, hzero] at hcount
          cases hcount
        refine h.change (T := s.ftable) hbegun (fun c' _ f hf => ⟨rfl, ?_⟩) (fun f hf => ?_)
          (.inr (by rw [hc]; cases p <;> rfl)) (.inr hnone)
        · rintro ⟨⟩
          exact hfree c' hf
        · cases hf
          rw [hzero]
          cases p <;> rfl
      case isFalse =>
        exact h.update_ref hbegun (.inr rfl) (.inr (by rw [hc]; cases p <;> rfl)) (.inr hnone)
    · cases hstep
      have hend : Inv (s.setRef c .closed) :=
        h.update_ref hbegun (.inr rfl) (.inl rfl) (.inr hnone)
      refine hend.giveBack fun src hp => h.source_after rfl ?_
      rw [hc, hp]
      rfl

theorem store (h : Inv s) (hstep : step s (.store c) = some s') : Inv s' := by
  simp only [step] at hstep
  split at hstep
  case h_1 i flags dev f n hc =>
    have hslot : (s.ref c).slot = some f := by rw [hc]; rfl
    have hzero : (s.ftable f).refcnt = 0 := by simpa [hc, Ref.reserved] using h.count c f hslot
    cases hstep
    refine h.update hslot ?_ (fun _ => ?_) (.inl ?_) (.inr fun c' _ => h.source_ne (by simp [hc]) c')
    · split <;> exact .inl rfl
    · by_cases hn : n < 4
      · rw [if_pos hn]
        interval_cases n <;> exact hzero
      · obtain ⟨m, rfl⟩ := Nat.exists_eq_add_of_le' (not_lt.mp hn)
        rw [if_neg hn]
        rfl
    · split <;> rfl
  case h_2 src f n hc =>
    have hslot : (s.ref c).slot = some f := by rw [hc]; rfl
    have hsource : (s.ref c).source = some src := by rw [hc]; rfl
    obtain ⟨g, hsrc⟩ := h.lends c src hsource
    have hnone : ∀ c' ≠ c, (s.ref c').source ≠ some c := fun c' _ =>
      h.source_ne (by simp [hc]) c'
    simp only [hsrc, some.injEq] at hstep
    subst hstep
    by_cases hn : n < 2
    · rw [if_pos hn]
      refine h.update hslot (.inl rfl) (fun _ => ?_) (.inr hsource.symm) (.inr hnone)
      interval_cases n
      · -- The first store copies the count of the source, which is one.
        simpa [hsrc, Ref.reserved, cloneStore] using h.count src g (by rw [hsrc]; rfl)
      · simpa [hc, Ref.reserved, cloneStore] using h.count c f hslot
    · obtain ⟨m, rfl⟩ := Nat.exists_eq_add_of_le' (not_lt.mp hn)
      rw [if_neg hn]
      have hdone := h.update (v := cloneStore (s.ftable g) (s.ftable f) (m + 2)) (r := .held f)
        hslot (.inl rfl) (fun _ => rfl) (.inl rfl) (.inr hnone)
      refine hdone.giveBack fun src' hp => ?_
      obtain rfl : src = src' := by simpa using hp
      exact h.source_after (r := .held f) rfl hsource
  case h_3 => cases hstep

theorem fail (h : Inv s) (hstep : step s (.fail c) = some s') : Inv s' := by
  simp only [step] at hstep
  split at hstep
  case h_2 => cases hstep
  case h_1 i flags dev f hc =>
    cases hstep
    exact h.update_ref (by simp [hc]) (.inr rfl) (.inl rfl)
      (.inr fun c' _ => h.source_ne (by simp [hc]) c')

theorem put (h : Inv s) (hstep : step s (.put c) = some s') : Inv s' := by
  simp only [step] at hstep
  split at hstep
  case h_2 => cases hstep
  case h_1 f hc =>
    cases hstep
    exact h.update (by rw [hc]; rfl) (.inr rfl) (by simp [Ref.slot]) (.inl rfl)
      (.inr fun c' _ => h.source_ne (by simp [hc]) c')

theorem move (h : Inv s) {off : ℤ} (hstep : step s (.move c off) = some s') : Inv s' := by
  simp only [step] at hstep
  split at hstep
  case h_2 => cases hstep
  case h_1 f hc =>
    have hslot : (s.ref c).slot = some f := by rw [hc]; rfl
    have hsame : s.setSlot f { s.ftable f with off } =
        (s.setSlot f { s.ftable f with off }).setRef c (.held f) := by
      simp [State.setRef, State.setSlot, ← hc]
    cases hstep
    rw [hsame]
    exact h.update hslot (.inl rfl)
      (fun _ => by simpa [hc, Ref.reserved] using h.count c f hslot) (.inl rfl)
      (.inr fun c' _ => h.source_ne (by simp [hc]) c')

theorem step (h : Inv s) (hset : Settled s a) (hstep : step s a = some s') : Inv s' := by
  cases a with
  | «open» i flags dev =>
    cases hstep
    exact h.begin (by simp)
  | clone src => exact h.clone hstep
  | scan c => exact h.scan hset hstep
  | store c => exact h.store hstep
  | fail c => exact h.fail hstep
  | put c => exact h.put hstep
  | move c off => exact h.move hstep

theorem initial : Inv initial := by
  constructor <;> simp [OpenFiles.initial, Ref.slot, Ref.source]

theorem distinct (h : Inv s) : Distinct s := by
  rintro c c' f f' hf hf' hne rfl
  exact hne (h.sole c c' f (Ref.slot_of_heldSlot hf) (Ref.slot_of_heldSlot hf'))

end Inv

theorem giveBack_ftable (s : State) (p : Purpose) : (s.giveBack p).ftable = s.ftable := by
  unfold State.giveBack
  split
  · rfl
  · split <;> rfl

theorem step_ftable (hstep : step s a = some s') (hf : (s.ref (a.call s)).slot ≠ some f) :
    s'.ftable f = s.ftable f := by
  have hne : ∀ c g r, a.call s = c → s.ref c = r → r.slot = some g → f ≠ g := by
    rintro c g r rfl rfl hg rfl
    exact hf hg
  cases a <;> simp only [step] at hstep
  case «open» =>
    cases hstep
    rfl
  case clone =>
    split at hstep <;> cases hstep
    rfl
  case scan =>
    split at hstep
    · split at hstep <;> cases hstep
      · rfl
      · rw [giveBack_ftable]
        rfl
    · cases hstep
  case store c =>
    split at hstep
    case h_1 i flags dev g n hc =>
      cases hstep
      exact setSlot_ne (s := s) (hne c g _ rfl hc rfl)
    case h_2 src g n hc =>
      split at hstep <;> cases hstep
      split
      · exact setSlot_ne (s := s) (hne c g _ rfl hc rfl)
      · rw [giveBack_ftable]
        exact setSlot_ne (s := s) (hne c g _ rfl hc rfl)
    case h_3 => cases hstep
  case fail =>
    split at hstep <;> cases hstep
    rfl
  all_goals
    split at hstep
    case h_1 g hc =>
      cases hstep
      exact setSlot_ne (s := s) (hne _ g _ rfl hc rfl)
    case h_2 => cases hstep

theorem Inv.undisturbed (h : Inv s) (hstep : OpenFiles.step s a = some s') : Undisturbed s a s' := by
  intro c f hc hcall
  have hf : (s.ref (a.call s)).slot ≠ some f := fun hf =>
    hcall (h.sole _ c f hf (Ref.slot_of_heldSlot hc))
  rw [step_ftable hstep hf]
  exact ⟨rfl, rfl, rfl⟩

end Steps

/-- In every run in which no slot is found free while another call has chosen one
that it has not yet marked, references obtained by different calls denote
different slots, and no step changes the inode, mode or offset of a slot held
through another reference. -/
theorem references_apart {s : State} (hreach : Reaches step Settled initial s) :
    Distinct s ∧ ∀ a s', Settled s a → step s a = some s' → Undisturbed s a s' := by
  have hinv : Inv s := hreach.invariant Inv.initial fun _ _ _ h hset hstep => h.step hset hstep
  exact ⟨hinv.distinct, fun a s' _ hstep => hinv.undisturbed hstep⟩

/-- Opens of inodes 1 and 2, the second looking for a slot once the first has
marked its own, and a clone of the first: three slots. -/
theorem references_apart_clone : ∃ s, Reaches step Settled initial s ∧
    s.ref 0 = .held 0 ∧ s.ref 1 = .held 1 ∧ s.ref 2 = .held 2 ∧ (s.ftable 2).i = 1 ∧ Distinct s := by
  let ops : List Action := flatten [[.open 1 3 none, .open 2 3 none, .scan 0],
    replicate 5 (.store 0), replicate 2 (.scan 1), replicate 5 (.store 1),
    [.clone 0], replicate 3 (.scan 2), replicate 3 (.store 2), [.move 0 7]]
  obtain ⟨s, hrun, h⟩ : ∃ s, run step initial ops = some s ∧
      s.ref 0 = .held 0 ∧ s.ref 1 = .held 1 ∧ s.ref 2 = .held 2 ∧ (s.ftable 2).i = 1 :=
    exists_of_run_any ops (by decide +kernel)
  have hreach : Reaches step Settled initial s := .of_run ops (by decide +kernel) hrun
  exact ⟨s, hreach, h.1, h.2.1, h.2.2.1, h.2.2.2, (references_apart hreach).1⟩

/-- A second open looks for a slot while the first waits for the lock of its
inode: both return slot 0, which ends up with the inode of the second. -/
theorem opens_share_slot : ∃ s, Reaches step anyAction initial s ∧
    s.ref 0 = .held 0 ∧ s.ref 1 = .held 0 ∧ (s.ftable 0).i = 2 ∧ ¬ Distinct s := by
  obtain ⟨s, hreach, h₀, h₁, hi⟩ : ∃ s, Reaches step anyAction initial s ∧
      s.ref 0 = .held 0 ∧ s.ref 1 = .held 0 ∧ (s.ftable 0).i = 2 :=
    Reaches.of_run_any (flatten [[.open 1 3 none, .scan 0, .open 2 3 none, .scan 1],
      replicate 5 (.store 0), replicate 5 (.store 1)]) (by decide +kernel)
  refine ⟨s, hreach, h₀, h₁, hi, fun h => ?_⟩
  exact h 0 1 0 0 (by rw [h₀]; rfl) (by rw [h₁]; rfl) (by decide) rfl

end RvMiniOs.Fs.OpenFiles
