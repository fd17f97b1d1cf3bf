import RvMiniOs.Lib.Links
import RvMiniOs.Lib.Runs

/-!
# Waking a whole wait queue

`scheduler_wake_waiting_queue` on one wait queue, by the pointers of its nodes. Each task
that the loop of `clist_for_each_and_del` readies may preempt the waker, and whatever runs
before the waker goes on may use the queue: a step is one turn of a loop, or one use of the
queue by any task. The node that the loop takes out last closes the ring on the head alone,
so a task that has blocked on the queue before is lost.
-/
namespace RvMiniOs.Sched.WakeWaiting

open Lib Function List Option

inductive Node where
  | head
  | task (t : ℕ)
  deriving DecidableEq, Repr

structure Call where
  current : Node
  waiters : List ℕ
  woken : List ℕ
  blocked : List ℕ

structure Queue where
  links : Links Node
  waiting : List ℕ
  calls : ℕ → Option Call

def moveToWq (s : Queue) (t : ℕ) : Queue where
  links := s.links.insertBefore .head (.task t)
  waiting := s.waiting ++ [t]
  calls := fun u => (s.calls u).map fun call => { call with blocked := call.blocked ++ [t] }

def taskWake (s : Queue) (t : ℕ) : Queue :=
  if t ∈ s.waiting then
    { links := s.links.remove (.task t)
      waiting := s.waiting.erase t
      calls := fun u => (s.calls u).map fun call => { call with blocked := call.blocked.erase t } }
  else s

def beginWake (s : Queue) (waker : ℕ) : Queue :=
  { s with
    links := s.links.initNode .head
    calls := Function.update s.calls waker
      (some { current := s.links.next .head, waiters := s.waiting, woken := [], blocked := [] }) }

def turn (s : Queue) (waker t : ℕ) : Queue :=
  let next := s.links.next (.task t)
  let s := { s with links := s.links.remove (.task t) }
  let s := taskWake s t
  { s with
    calls := Function.update s.calls waker ((s.calls waker).map fun call =>
      { call with current := next, woken := call.woken ++ [t] }) }

inductive Op where
  | block (t : ℕ)
  | ready (t : ℕ)
  | wake (waker : ℕ)
  | turn (waker : ℕ)
  deriving DecidableEq, Repr

def step (s : Queue) : Op → Option Queue
  | .block t => if t ∉ s.waiting ∧ (s.calls t).isNone then some (moveToWq s t) else none
  | .ready t => if t ∈ s.waiting then some (taskWake s t) else none
  | .wake waker =>
    if waker ∉ s.waiting ∧ (s.calls waker).isNone then some (beginWake s waker) else none
  | .turn waker =>
    match s.calls waker with
    | none => none
    | some call =>
      match call.current with
      | .head => some { s with calls := Function.update s.calls waker none }
      | .task t => some (turn s waker t)

def initial : Queue where
  links := { next := id, prev := id, inList := fun _ => false }
  waiting := []
  calls := fun _ => none

def AllDone (s : Queue) : Prop := ∀ t, ∀ call ∈ s.calls t, call.current = .head

def Undisturbed (s : Queue) : Op → Prop
  | .turn _ => True
  | _ => AllDone s

structure WakesAll (s : Queue) : Prop where
  once : ∀ t, ∀ call ∈ s.calls t, call.current = .head →
    call.woken = call.waiters ∧ call.waiters.Nodup
  queue : AllDone s → ∀ t, ∀ call ∈ s.calls t,
    s.links.Ring .head (call.blocked.map .task) ∧ call.blocked = s.waiting
  returns : ∀ t, s.calls t ≠ none →
    ∃ n s', run step s (List.replicate n (.turn t)) = some s' ∧ s'.calls t = none

structure Walking (s : Queue) (waker : ℕ) (call : Call) : Prop where
  calls : s.calls waker = some call
  ne_nil : s.waiting ≠ []
  current : call.current = (s.waiting.map Node.task).head?.getD .head
  woken : call.woken ++ s.waiting = call.waiters
  blocked : call.blocked = []
  nodup : call.waiters.Nodup
  links : s.links.Unvisited .head (s.waiting.map .task)
  others : ∀ t, t ≠ waker → ∀ c ∈ s.calls t, c.current = .head

structure Base (s : Queue) : Prop where
  nodup : s.waiting.Nodup
  marks : ∀ t, s.links.inList (.task t) = decide (t ∈ s.waiting)
  done : ∀ t, ∀ call ∈ s.calls t, call.current = .head →
    call.woken = call.waiters ∧ call.waiters.Nodup ∧ call.blocked = s.waiting

structure Inv (s : Queue) : Prop extends Base s where
  list : (AllDone s ∧ s.links.Ring .head (s.waiting.map .task)) ∨ ∃ waker call, Walking s waker call

variable {s s' : Queue} {t : ℕ}

theorem nodup_nodes {l : List ℕ} (h : l.Nodup) : (Node.head :: l.map Node.task).Nodup := by
  refine nodup_cons.mpr ⟨by simp, h.map fun a b hab => ?_⟩
  cases hab
  rfl

theorem forall_calls_update {calls : ℕ → Option Call} {o : Option Call} {P : Call → Prop}
    (hself : ∀ c ∈ o, P c) (hothers : ∀ u, u ≠ t → ∀ c ∈ calls u, P c) :
    ∀ u, ∀ c ∈ update calls t o u, P c := by
  intro u c hc
  by_cases hu : u = t
  · rw [hu, update_self] at hc
    exact hself c hc
  · rw [update_of_ne hu] at hc
    exact hothers u hu c hc

theorem Inv.initial : Inv initial where
  nodup := nodup_nil
  marks := fun _ => rfl
  done := fun _ _ hcall => nomatch hcall
  list := .inl ⟨fun _ _ hcall => (nomatch hcall), ⟨rfl, rfl⟩, nodup_nodes nodup_nil,
    fun _ hx => (nomatch hx)⟩

theorem Inv.block (h : Inv s) (hdone : AllDone s) (hring : s.links.Ring .head (s.waiting.map .task))
    (ht : t ∉ s.waiting) : Inv (moveToWq s t) := by
  have hout : s.links.inList (.task t) = false := by simp [h.marks, ht]
  have hcalls : ∀ u, ∀ c ∈ (moveToWq s t).calls u, ∃ call ∈ s.calls u,
      c = { call with blocked := call.blocked ++ [t] } := by
    intro u c hc
    obtain ⟨call, hcall, rfl⟩ := map_eq_some_iff.mp hc
    exact ⟨call, hcall, rfl⟩
  refine ⟨⟨?_, fun u => ?_, fun u c hc hcur => ?_⟩, .inl ⟨fun u c hc => ?_, ?_⟩⟩
  · exact (perm_append_singleton t s.waiting).nodup_iff.mpr (nodup_cons.mpr ⟨ht, h.nodup⟩)
  · change (s.links.insertBefore .head (.task t)).inList (.task u) = decide (u ∈ s.waiting ++ [t])
    rw [Links.insertBefore_inList hout, h.marks]
    by_cases hu : u = t <;> simp [hu]
  · obtain ⟨call, hcall, rfl⟩ := hcalls u c hc
    obtain ⟨hwoken, hnodup, hblocked⟩ := h.done u call hcall hcur
    exact ⟨hwoken, hnodup, by rw [hblocked]; rfl⟩
  · obtain ⟨call, hcall, rfl⟩ := hcalls u c hc
    exact hdone u call hcall
  · rw [← append_nil (s.waiting.map Node.task)] at hring
    have hnew := hring.insertBefore (n := .task t) (by simpa using ht) hout
    simpa [moveToWq] using hnew

theorem Inv.ready (h : Inv s) (hdone : AllDone s) (hring : s.links.Ring .head (s.waiting.map .task))
    (ht : t ∈ s.waiting) : Inv (taskWake s t) := by
  have hin : s.links.inList (.task t) = true := by simp [h.marks, ht]
  obtain ⟨xs, ys, hsplit⟩ := List.append_of_mem ht
  have hnot : t ∉ xs := fun hx => by
    have hnodup := hsplit ▸ h.nodup
    exact (List.nodup_append'.mp hnodup).2.2 hx List.mem_cons_self
  have herase : s.waiting.erase t = xs ++ ys := by
    rw [hsplit, List.erase_append_right _ hnot, List.erase_cons_head]
  rw [taskWake, if_pos ht]
  refine ⟨⟨h.nodup.erase t, fun u => ?_, fun u c hc hcur => ?_⟩, .inl ⟨fun u c hc => ?_, ?_⟩⟩
  · rw [Links.remove_inList hin, h.marks]
    by_cases hu : u = t
    · simp [hu, h.nodup.not_mem_erase]
    · simp [hu, List.mem_erase_of_ne hu]
  · obtain ⟨call, hcall, rfl⟩ := Option.map_eq_some_iff.mp hc
    obtain ⟨hwoken, hnodup, hblocked⟩ := h.done u call hcall hcur
    exact ⟨hwoken, hnodup, congrArg (List.erase · t) hblocked⟩
  · obtain ⟨call, hcall, rfl⟩ := Option.map_eq_some_iff.mp hc
    exact hdone u call hcall
  · rw [hsplit, List.map_append, List.map_cons] at hring
    dsimp only
    rw [herase, List.map_append]
    exact hring.remove

theorem Inv.wake (h : Inv s) (hdone : AllDone s) (hring : s.links.Ring .head (s.waiting.map .task))
    (t : ℕ) : Inv (beginWake s t) := by
  have hother : ∀ u, u ≠ t → (beginWake s t).calls u = s.calls u := fun u hu =>
    update_of_ne hu _ _
  have hself : (beginWake s t).calls t = some ⟨s.links.next .head, s.waiting, [], []⟩ :=
    update_self _ _ _
  have hwalk : (beginWake s t).links.Unvisited .head (s.waiting.map .task) := hring.initNode
  have hmarks : ∀ u, (beginWake s t).links.inList (.task u) = decide (u ∈ s.waiting) := fun u => by
    rw [beginWake, Links.initNode_inList, if_neg (by simp), h.marks]
  have hcur : s.links.next .head = (s.waiting.map Node.task).head?.getD .head := hring.next_eq
  cases hw : s.waiting with
  | nil =>
    rw [hw] at hcur hwalk
    refine ⟨⟨h.nodup, hmarks, ?_⟩, .inl ⟨?_, ?_⟩⟩
    · refine forall_calls_update (fun c hc _ => ?_) fun u _ => h.done u
      cases hc
      exact ⟨hw.symm, h.nodup, hw.symm⟩
    · refine forall_calls_update (fun c hc => ?_) fun u _ => hdone u
      cases hc
      exact hcur
    · change (beginWake s t).links.Ring .head (s.waiting.map .task)
      rw [hw]
      exact hwalk.ring
  | cons m rest =>
    refine ⟨⟨h.nodup, hmarks, ?_⟩,
      .inr ⟨t, _, ⟨hself, ?_, hcur, rfl, rfl, h.nodup, hwalk, fun u hu c hc => ?_⟩⟩⟩
    · refine forall_calls_update (fun c hc hhead => ?_) fun u _ => h.done u
      cases hc
      rw [hw] at hcur
      exact absurd (hhead.symm.trans hcur) (by simp)
    · change s.waiting ≠ []
      simp [hw]
    · exact hdone u c (hother u hu ▸ hc)

theorem Walking.turn_eq {call : Call} {m : ℕ} {rest : List ℕ} (hw : Walking s t call)
    (hwaiting : s.waiting = m :: rest) : turn s t m =
      { links := s.links.remove (.task m)
        waiting := rest
        calls := update
          (fun u => (s.calls u).map fun c => { c with blocked := c.blocked.erase m }) t
          (some { call with
            current := (rest.map Node.task).head?.getD .head
            woken := call.woken ++ [m] }) } := by
  have hlinks := hw.links
  rw [hwaiting, map_cons] at hlinks
  have hblocked : call.blocked.erase m = call.blocked := by simp [hw.blocked]
  simp only [turn, taskWake, hwaiting, mem_cons_self, if_true, Links.remove_remove, hlinks.next_eq,
    hw.calls, map_some, hblocked, erase_cons_head]

theorem Inv.turn {call : Call} {m : ℕ} {rest : List ℕ} (h : Inv s) (hw : Walking s t call)
    (hwaiting : s.waiting = m :: rest) : Inv (turn s t m) := by
  have hin : s.links.inList (.task m) = true := by simp [h.marks, hwaiting]
  obtain ⟨hm, hrest⟩ := nodup_cons.mp (hwaiting ▸ h.nodup)
  have hlinks : (s.links.remove (.task m)).Unvisited .head (rest.map .task) := by
    have hall := hw.links
    have hnodes := nodup_nodes h.nodup
    rw [hwaiting, map_cons] at hall hnodes
    exact hall.remove hnodes hin
  have hwoken : (call.woken ++ [m]) ++ rest = call.waiters := by
    rw [append_assoc, singleton_append, ← hwaiting]
    exact hw.woken
  rw [hw.turn_eq hwaiting]
  -- the other calls have made their last callback
  have hothers : ∀ u, u ≠ t → ∀ c ∈ (s.calls u).map fun c => { c with blocked := c.blocked.erase m },
      c.current = .head ∧ c.woken = c.waiters ∧ c.waiters.Nodup ∧ c.blocked = rest := by
    intro u hu c hc
    obtain ⟨old, hold, rfl⟩ := map_eq_some_iff.mp hc
    have hhead := hw.others u hu old hold
    obtain ⟨hall, hnodup, hblocked⟩ := h.done u old hold hhead
    refine ⟨hhead, hall, hnodup, ?_⟩
    rw [hblocked, hwaiting, erase_cons_head]
  have hmarks : ∀ u, (s.links.remove (.task m)).inList (.task u) = decide (u ∈ rest) := by
    intro u
    rw [Links.remove_inList hin, h.marks, hwaiting]
    by_cases hu : u = m
    · simp [hu, hm]
    · simp [hu]
  have hdone : ∀ u, ∀ c ∈ update
      (fun u => (s.calls u).map fun c => { c with blocked := c.blocked.erase m }) t
      (some { call with
        current := (rest.map Node.task).head?.getD .head
        woken := call.woken ++ [m] }) u, c.current = .head →
      c.woken = c.waiters ∧ c.waiters.Nodup ∧ c.blocked = rest := by
    refine forall_calls_update (fun c hc hhead => ?_) fun u hu c hc _ => (hothers u hu c hc).2
    cases hc
    cases rest with
    | nil => exact ⟨by simpa using hwoken, hw.nodup, hw.blocked⟩
    | cons y ys => simp at hhead
  refine ⟨⟨hrest, hmarks, hdone⟩, ?_⟩
  cases rest with
  | nil =>
    refine .inl ⟨forall_calls_update (fun c hc => ?_) fun u hu c hc => (hothers u hu c hc).1, hlinks.ring⟩
    cases hc
    rfl
  | cons y ys =>
    refine .inr ⟨t, { call with current := .task y, woken := call.woken ++ [m] },
      ⟨by simp, by simp, rfl, hwoken, hw.blocked, hw.nodup, hlinks, fun u hu c hc => ?_⟩⟩
    dsimp only at hc
    rw [update_of_ne hu] at hc
    exact (hothers u hu c hc).1

theorem Inv.drop (h : Inv s) (hcur : ∀ call ∈ s.calls t, call.current = .head) :
    Inv { s with calls := update s.calls t none } := by
  have hsub : ∀ u, ∀ c ∈ update s.calls t none u, c ∈ s.calls u := by
    intro u c hc
    by_cases hu : u = t
    · rw [hu, update_self] at hc
      cases hc
    · rwa [update_of_ne hu] at hc
  refine ⟨⟨h.nodup, h.marks, fun u c hc => h.done u c (hsub u c hc)⟩, ?_⟩
  rcases h.list with ⟨hdone, hring⟩ | ⟨waker, call, hw⟩
  · exact .inl ⟨fun u c hc => hdone u c (hsub u c hc), hring⟩
  · have hne : waker ≠ t := by
      rintro rfl
      have hhead := hcur call hw.calls
      rw [hw.current] at hhead
      obtain ⟨m, rest, hwaiting⟩ := exists_cons_of_ne_nil hw.ne_nil
      simp [hwaiting] at hhead
    exact .inr ⟨waker, call, { hw with
      calls := (update_of_ne hne _ _).trans hw.calls
      others := fun u hu c hc => hw.others u hu c (hsub u c hc) }⟩

theorem Inv.walking_of_current {call : Call} {m : ℕ} (h : Inv s) (hcall : s.calls t = some call)
    (hcur : call.current = .task m) : Walking s t call ∧ ∃ rest, s.waiting = m :: rest := by
  rcases h.list with ⟨hdone, -⟩ | ⟨waker, c, hw⟩
  · rw [hdone t call hcall] at hcur
    cases hcur
  · obtain rfl : t = waker := by
      by_contra hne
      rw [hw.others t hne call hcall] at hcur
      cases hcur
    obtain rfl : call = c := some.inj (hcall.symm.trans hw.calls)
    obtain ⟨k, rest, hwaiting⟩ := exists_cons_of_ne_nil hw.ne_nil
    have hk := hw.current.symm.trans hcur
    rw [hwaiting] at hk
    obtain rfl : k = m := by simpa using hk
    exact ⟨hw, rest, hwaiting⟩

theorem Inv.ring (h : Inv s) (hdone : AllDone s) : s.links.Ring .head (s.waiting.map .task) := by
  rcases h.list with ⟨-, hring⟩ | ⟨waker, call, hw⟩
  · exact hring
  · obtain ⟨m, rest, hwaiting⟩ := exists_cons_of_ne_nil hw.ne_nil
    have hhead := hdone waker call hw.calls
    rw [hw.current, hwaiting] at hhead
    simp at hhead

theorem Inv.step {op : Op} (h : Inv s) (hok : Undisturbed s op) (hstep : step s op = some s') : Inv s' := by
  cases op with
  | block t =>
    simp only [WakeWaiting.step] at hstep
    split_ifs at hstep with hfree
    exact some.inj hstep ▸ h.block hok (h.ring hok) hfree.1
  | ready t =>
    simp only [WakeWaiting.step] at hstep
    split_ifs at hstep with hmem
    exact some.inj hstep ▸ h.ready hok (h.ring hok) hmem
  | wake t =>
    simp only [WakeWaiting.step] at hstep
    split_ifs at hstep
    exact some.inj hstep ▸ h.wake hok (h.ring hok) t
  | turn t =>
    simp only [WakeWaiting.step] at hstep
    rcases hcall : s.calls t with _ | call
    · simp [hcall] at hstep
    · rw [hcall] at hstep
      dsimp only at hstep
      rcases hcur : call.current with _ | m
      · rw [hcur] at hstep
        exact some.inj hstep ▸ h.drop fun c hc => some.inj (hcall.symm.trans hc) ▸ hcur
      · rw [hcur] at hstep
        obtain ⟨hw, rest, hwaiting⟩ := h.walking_of_current hcall hcur
        exact some.inj hstep ▸ h.turn hw hwaiting

theorem returns_of_head {call : Call} (hcall : s.calls t = some call) (hcur : call.current = .head) :
    ∃ n s', run step s (replicate n (.turn t)) = some s' ∧ s'.calls t = none := by
  have hstep : step s (.turn t) = some { s with calls := update s.calls t none } := by
    simp only [step, hcall, hcur]
  refine ⟨1, { s with calls := update s.calls t none }, ?_, update_self t none s.calls⟩
  simp [run, hstep]

theorem step_turn_task {call : Call} {m : ℕ} (hcall : s.calls t = some call) (hcur : call.current = .task m) :
    step s (.turn t) = some (turn s t m) := by
  simp only [step, hcall, hcur]

theorem Inv.returns : ∀ (waiting : List ℕ) {s : Queue}, Inv s → s.waiting = waiting → ∀ {call : Call},
    s.calls t = some call →
      ∃ n s', run WakeWaiting.step s (replicate n (.turn t)) = some s' ∧ s'.calls t = none := by
  intro waiting
  induction waiting with
  | nil =>
    intro s h hwaiting call hcall
    have hcur : call.current = .head := by
      cases hcur : call.current with
      | head => rfl
      | task m =>
        obtain ⟨hw, -⟩ := h.walking_of_current hcall hcur
        exact absurd hwaiting hw.ne_nil
    exact returns_of_head hcall hcur
  | cons m rest ih =>
    intro s h hwaiting call hcall
    cases hcur : call.current with
    | head => exact returns_of_head hcall hcur
    | task k =>
      obtain ⟨hw, rest', hwaiting'⟩ := h.walking_of_current hcall hcur
      obtain ⟨rfl, rfl⟩ : m = k ∧ rest = rest' := by simpa using hwaiting.symm.trans hwaiting'
      have hnext : (WakeWaiting.turn s t m).waiting = rest := by rw [hw.turn_eq hwaiting]
      obtain ⟨c, hc⟩ : ∃ c, (WakeWaiting.turn s t m).calls t = some c := by
        rw [hw.turn_eq hwaiting]
        simp
      obtain ⟨n, s', hrun, hend⟩ := ih (h.turn hw hwaiting) hnext hc
      refine ⟨n + 1, s', ?_, hend⟩
      rw [replicate_succ, run, step_turn_task hcall hcur]
      exact hrun

/-- In every run in which no other task uses the queue while a call has a node left to visit,
no task that waits is lost. -/
theorem wake_waiting_loses_no_one (h : Reaches step Undisturbed initial s) : WakesAll s := by
  have hinv : Inv s := h.invariant (P := Inv) Inv.initial fun _ _ _ hi hok hstep => hi.step hok hstep
  refine ⟨fun t call hcall hcur => ?_, fun hdone t call hcall => ?_, fun t ht => ?_⟩
  · obtain ⟨hwoken, hnodup, -⟩ := hinv.done t call hcall hcur
    exact ⟨hwoken, hnodup⟩
  · obtain ⟨-, -, hblocked⟩ := hinv.done t call hcall (hdone t call hcall)
    exact ⟨hblocked ▸ hinv.ring hdone, hblocked⟩
  · obtain ⟨call, hcall⟩ := ne_none_iff_exists'.mp ht
    exact hinv.returns s.waiting rfl hcall

theorem step_calls_none {op : Op} (hstep : step s op = some s') (hne : op ≠ .wake t)
    (hnone : s.calls t = none) : s'.calls t = none := by
  have hwake : ∀ {s : Queue} (u : ℕ), s.calls t = none → (taskWake s u).calls t = none := by
    intro s u hs
    unfold taskWake
    split_ifs
    · simp [hs]
    · exact hs
  cases op with
  | block u =>
    simp only [step] at hstep
    split_ifs at hstep
    rw [← some.inj hstep]
    simp [moveToWq, hnone]
  | ready u =>
    simp only [step] at hstep
    split_ifs at hstep
    exact some.inj hstep ▸ hwake u hnone
  | wake u =>
    have hu : t ≠ u := fun heq => hne (heq ▸ rfl)
    simp only [step] at hstep
    split_ifs at hstep
    rw [← some.inj hstep]
    exact (update_of_ne hu _ _).trans hnone
  | turn u =>
    simp only [step] at hstep
    rcases hcall : s.calls u with _ | call
    · simp [hcall] at hstep
    · have hu : t ≠ u := by
        rintro rfl
        rw [hnone] at hcall
        cases hcall
      rw [hcall] at hstep
      dsimp only at hstep
      rcases hcur : call.current with _ | m
      · rw [hcur] at hstep
        rw [← some.inj hstep]
        exact (update_of_ne hu _ _).trans hnone
      · rw [hcur] at hstep
        rw [← some.inj hstep]
        refine (update_of_ne hu _ _).trans (hwake m ?_)
        exact hnone

theorem run_calls_none {ops : List Op} (hrun : run step s ops = some s') (hne : ∀ op ∈ ops, op ≠ .wake t)
    (hnone : s.calls t = none) : s'.calls t = none := by
  induction ops generalizing s with
  | nil => exact some.inj hrun ▸ hnone
  | cons op ops ih =>
    obtain ⟨s1, hstep, hrest⟩ := bind_eq_some_iff.mp hrun
    refine ih hrest (fun o ho => hne o (mem_cons_of_mem _ ho)) ?_
    exact step_calls_none hstep (hne op mem_cons_self) hnone

theorem allDone_of_run (ops : List Op) (waker : ℕ) (hrun : run step initial ops = some s)
    (hne : ∀ t, .wake t ∈ ops → t = waker)
    (hhead : (s.calls waker).all (fun call => decide (call.current = .head)) = true) : AllDone s := by
  intro t call hcall
  by_cases ht : t = waker
  · rw [ht] at hcall
    rw [mem_def.mp hcall] at hhead
    simpa using hhead
  · have hnone : s.calls t = none := by
      refine run_calls_none hrun (fun op hop heq => ht (hne t (heq ▸ hop))) rfl
    rw [hnone] at hcall
    cases hcall

/-- Task 3 wakes tasks 1 and 2, and task 2, the last one, blocks again before task 3 goes on. -/
theorem wake_waiting_loses_no_one_lastBlocksAgain : ∃ s call, Reaches step Undisturbed initial s ∧
    s.calls 3 = some call ∧ call.current = .head ∧ call.woken = [1, 2] ∧ call.blocked = [2] ∧ WakesAll s := by
  have hblocked : Reaches step Undisturbed initial _ :=
    ((Reaches.refl _).tail (.block 1) (allDone_of_run [] 3 rfl (by simp) rfl) rfl).tail (.block 2)
      (allDone_of_run [.block 1] 3 rfl (by simp) rfl) rfl
  have hwoken : Reaches step Undisturbed initial _ :=
    ((hblocked.tail (.wake 3) (allDone_of_run [.block 1, .block 2] 3 rfl (by simp) rfl) rfl).tail (.turn 3)
      trivial rfl).tail (.turn 3) trivial rfl
  have hagain : Reaches step Undisturbed initial _ :=
    hwoken.tail (.block 2)
      (allDone_of_run [.block 1, .block 2, .wake 3, .turn 3, .turn 3] 3 rfl (by simp) rfl) rfl
  exact ⟨_, _, hagain, rfl, rfl, rfl, rfl, wake_waiting_loses_no_one hagain⟩

def firstBlocksAgain : List Op :=
  [.block 1, .block 2, .wake 3, .turn 3, .block 1, .turn 3]

/-- Task 1 waits, its node is marked, and the queue is empty. -/
theorem first_waiter_is_lost : ∃ s call, Reaches step anyAction initial s ∧ s.calls 3 = some call ∧
    AllDone s ∧ call.waiters = [1, 2] ∧ call.blocked = [1] ∧ s.links.inList (.task 1) = true ∧
    s.links.next .head = .head ∧ s.links.prev .head = .head ∧ ¬ WakesAll s := by
  obtain ⟨s, hrun, hcall, hnext, hprev, hmark⟩ : ∃ s, run step initial firstBlocksAgain = some s ∧
      (s.calls 3).any (fun call =>
        decide (call.current = .head ∧ call.waiters = [1, 2] ∧ call.blocked = [1])) = true ∧
      s.links.next .head = .head ∧ s.links.prev .head = .head ∧ s.links.inList (.task 1) = true :=
    exists_of_run_any firstBlocksAgain (by decide)
  obtain ⟨call, hcall, hcur, hwaiters, hblocked⟩ : ∃ call, s.calls 3 = some call ∧ call.current = .head ∧
      call.waiters = [1, 2] ∧ call.blocked = [1] := by
    rcases h3 : s.calls 3 with _ | call
    · simp [h3] at hcall
    · exact ⟨call, rfl, by simpa [h3] using hcall⟩
  have hdone : AllDone s := by
    refine allDone_of_run firstBlocksAgain 3 hrun (by simp [firstBlocksAgain]) ?_
    simp [hcall, hcur]
  refine ⟨s, call, .of_run firstBlocksAgain (allowed_anyAction _ _) hrun, hcall, hdone, hwaiters, hblocked, hmark,
    hnext, hprev, fun hwakes => ?_⟩
  have hring := (hwakes.queue hdone 3 call hcall).1
  rw [hblocked] at hring
  have hfirst := hring.next_eq
  rw [hnext] at hfirst
  simp at hfirst

end RvMiniOs.Sched.WakeWaiting
