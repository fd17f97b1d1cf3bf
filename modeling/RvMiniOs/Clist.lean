import RvMiniOs.Lib.Links
import Mathlib.Data.Int.Notation
import Mathlib.Data.List.Induction
import Mathlib.Data.List.Perm.Subperm
import Mathlib.Data.List.TakeWhile
import Mathlib.Data.Set.Insert
import Mathlib.Tactic.Common

/-!
# Intrusive lists

`lib/clist.c` over nodes of any type: the operations beside the pointer writes of
`Lib.Links`, the sequences that they stand for, and sorted insertion. Loops take fuel, and
`none` stands for a run that has not ended. A callback has a state of its own and touches
no list.
-/

namespace RvMiniOs.Clist

open Lib Function List Option

variable {α σ : Type*}

section

variable [DecidableEq α]

def empty (l : Links α) (head : α) : Bool := l.next head = head

def pushBack (l : Links α) (head node : α) : Links α := l.insertBefore head node

def pushFront (l : Links α) (head node : α) : Links α := l.insertAfter head node

def removeNode (l : Links α) : Option α → Links α
  | none => l
  | some node => l.remove node

def popFront (l : Links α) (head : α) : Option α × Links α :=
  if empty l head then (none, l) else (some (l.next head), l.remove (l.next head))

def findFrom (step : α → α) (head : α) (pred : α → Bool) : ℕ → α → Option (Option α)
  | 0, _ => none
  | fuel + 1, current =>
    if current = head then some none
    else if pred current then some (some current)
    else findFrom step head pred fuel (step current)

def find (l : Links α) (head : α) (pred : α → Bool) (fuel : ℕ) : Option (Option α) :=
  findFrom l.next head pred fuel (l.next head)

def findRev (l : Links α) (head : α) (pred : α → Bool) (fuel : ℕ) : Option (Option α) :=
  findFrom l.prev head pred fuel (l.prev head)

def forEachAndDelFrom (callback : α → σ → Bool × σ) (head : α) :
    ℕ → α → Option α → Links α → σ → Option (Option α × Links α × σ)
  | 0, _, _, _, _ => none
  | fuel + 1, current, failure, l, args =>
    if current = head then some (failure, l, args)
    else
      let next := l.next current
      let l := l.remove current
      let (failed, args) := callback current args
      forEachAndDelFrom callback head fuel next (if failed then failure.or (some current) else failure) l args

def forEachAndDel (l : Links α) (head : α) (callback : α → σ → Bool × σ) (args : σ) (fuel : ℕ) :
    Option (Option α × Links α × σ) :=
  forEachAndDelFrom callback head fuel (l.next head) none (l.initNode head) args

def insertSortedFrom (l : Links α) (head node : α) (cmp : α → α → ℤ) : ℕ → α → Option (Links α)
  | 0, _ => none
  | fuel + 1, current =>
    if current ≠ head ∧ cmp current node ≤ 0 then insertSortedFrom l head node cmp fuel (l.next current)
    else some (l.insertBefore current node)

def insertSorted (l : Links α) (head node : α) (cmp : α → α → ℤ) (fuel : ℕ) : Option (Links α) :=
  insertSortedFrom l head node cmp fuel (l.next head)

inductive Op (α σ : Type*) where
  | pushFront (head node : α)
  | pushBack (head node : α)
  | insertBefore (pos node : α)
  | insertAfter (pos node : α)
  | remove (node : Option α)
  | popFront (head : α)
  | forEachAndDel (head : α) (callback : α → σ → Bool × σ)

def Op.exec (fuel : ℕ) (l : Links α) (args : σ) : Op α σ → Option (Option α × Links α × σ)
  | .pushFront head node => some (none, Clist.pushFront l head node, args)
  | .pushBack head node => some (none, Clist.pushBack l head node, args)
  | .insertBefore pos node => some (none, l.insertBefore pos node, args)
  | .insertAfter pos node => some (none, l.insertAfter pos node, args)
  | .remove node => some (none, removeNode l node, args)
  | .popFront head => some ((Clist.popFront l head).1, (Clist.popFront l head).2, args)
  | .forEachAndDel head callback => Clist.forEachAndDel l head callback args fuel

def exec (fuel : ℕ) : List (Op α σ) → Links α → σ → Option (List (Option α) × Links α × σ)
  | [], l, args => some ([], l, args)
  | op :: ops, l, args =>
    (op.exec fuel l args).bind fun (res, l, args) =>
      (exec fuel ops l args).map fun (results, l, args) => (res :: results, l, args)

end

def Member (heads : Set α) (seq : α → List α) (node : α) : Prop := ∃ h ∈ heads, node ∈ seq h

def drained (callback : α → σ → Bool × σ) : List α → Option α → σ → Option α × σ
  | [], failure, args => (failure, args)
  | x :: xs, failure, args =>
    drained callback xs (if (callback x args).1 then failure.or (some x) else failure) (callback x args).2

def putBefore [DecidableEq α] (pos node : α) (xs : List α) : List α :=
  xs.takeWhile (· ≠ pos) ++ node :: xs.dropWhile (· ≠ pos)

open Classical in
noncomputable def Op.spec [DecidableEq α] (heads : Set α) (seq : α → List α) (args : σ) :
    Op α σ → Option α × (α → List α) × σ
  | .pushFront head node =>
    (none, if Member heads seq node then seq else Function.update seq head (node :: seq head), args)
  | .pushBack head node =>
    (none, if Member heads seq node then seq else Function.update seq head (seq head ++ [node]), args)
  | .insertBefore pos node =>
    (none, if Member heads seq node then seq else fun h =>
      if pos ∈ h :: seq h then putBefore pos node (seq h) else seq h, args)
  | .insertAfter pos node =>
    (none, if Member heads seq node then seq else fun h =>
      if pos ∈ h :: seq h then (putBefore pos node (seq h).reverse).reverse else seq h, args)
  | .remove node => (none, fun h => node.elim (seq h) (seq h).erase, args)
  | .popFront head => ((seq head).head?, Function.update seq head (seq head).tail, args)
  | .forEachAndDel head callback =>
    ((drained callback (seq head) none args).1, Function.update seq head [],
      (drained callback (seq head) none args).2)

noncomputable def spec [DecidableEq α] (heads : Set α) :
    List (Op α σ) → (α → List α) → σ → List (Option α) × (α → List α) × σ
  | [], seq, args => ([], seq, args)
  | op :: ops, seq, args =>
    let (res, seq, args) := op.spec heads seq args
    let (results, seq, args) := spec heads ops seq args
    (res :: results, seq, args)

def Op.Allowed (heads : Set α) (seq : α → List α) : Op α σ → Prop
  | .pushFront head node | .pushBack head node => head ∈ heads ∧ node ∉ heads
  | .insertBefore pos node | .insertAfter pos node => (∃ h ∈ heads, pos ∈ h :: seq h) ∧ node ∉ heads
  | .remove _ => True
  | .popFront head | .forEachAndDel head _ => head ∈ heads

def Allowed [DecidableEq α] (heads : Set α) : List (Op α σ) → (α → List α) → σ → Prop
  | [], _, _ => True
  | op :: ops, seq, args =>
    op.Allowed heads seq ∧ Allowed heads ops (op.spec heads seq args).2.1 (op.spec heads seq args).2.2

def Follows (step : α → α) : α → List α → α → Prop
  | a, [], b => step a = b
  | a, x :: xs, b => step a = x ∧ Follows step x xs b

section

variable {l l' : Links α} {a b h n x : α} {xs ys zs : List α}

theorem follows_of_segment (hs : l.Segment a xs b) : Follows l.next a xs b := by
  induction xs generalizing a with
  | nil => exact hs.1
  | cons x xs ih => exact ⟨hs.1, ih hs.2.2⟩

theorem not_of_mem_dropWhile {p : α → Bool} (hdown : xs.Pairwise fun a b => p b = true → p a = true)
    (hx : x ∈ xs.dropWhile p) : p x = false := by
  induction xs with
  | nil => cases hx
  | cons y ys ih =>
    obtain ⟨hy, hys⟩ := pairwise_cons.mp hdown
    by_cases hpy : p y = true
    · rw [dropWhile_cons_of_pos hpy] at hx
      exact ih hys hx
    · rw [dropWhile_cons_of_neg hpy] at hx
      rcases mem_cons.mp hx with rfl | hx
      · exact Bool.eq_false_iff.mpr hpy
      · exact Bool.eq_false_iff.mpr fun hpx => hpy (hy x hx hpx)

structure Rep (heads : Set α) (l : Links α) (seq : α → List α) : Prop where
  ring : ∀ h ∈ heads, l.Ring h (seq h)
  apart : ∀ h ∈ heads, ∀ h' ∈ heads, ∀ x ∈ h :: seq h, x ∈ h' :: seq h' → h' = h
  marks : ∀ x, l.inList x = true ↔ Member heads seq x

variable {heads : Set α} {seq seq' : α → List α} {args : σ}

theorem Rep.congr (hr : Rep heads l seq) (hseq : ∀ h ∈ heads, seq' h = seq h) : Rep heads l seq' := by
  refine ⟨fun h hh => ?_, fun h hh h' hh' => ?_, fun x => (hr.marks x).trans ?_⟩
  · rw [hseq h hh]
    exact hr.ring h hh
  · rw [hseq h hh, hseq h' hh']
    exact hr.apart h hh h' hh'
  · exact exists_congr fun h => and_congr_right fun hh => by rw [hseq h hh]

theorem Rep.head_out (hr : Rep heads l seq) (hh : h ∈ heads) : l.inList h = false := by
  rw [Bool.eq_false_iff, Ne, hr.marks]
  rintro ⟨h', hh', hmem⟩
  obtain rfl := hr.apart h' hh' h hh h (mem_cons_of_mem _ hmem) mem_cons_self
  exact (nodup_cons.mp (hr.ring h hh).nodup).1 hmem

theorem Rep.fresh (hr : Rep heads l seq) (hh : h ∈ heads) (hn : n ∉ heads) (hnot : ¬ Member heads seq n) :
    l.inList n = false ∧ n ∉ h :: seq h := by
  refine ⟨by rwa [Bool.eq_false_iff, Ne, hr.marks], ?_⟩
  rintro (_ | ⟨_, hmem⟩)
  · exact hn hh
  · exact hnot ⟨h, hh, hmem⟩

theorem Rep.length_lt (hr : Rep heads l seq) {nodes : List α} (hnodes : ∀ x, x ∈ nodes) {fuel : ℕ}
    (hfuel : nodes.length < fuel) (hh : h ∈ heads) : (seq h).length < fuel :=
  lt_of_le_of_lt (subperm_of_subset (nodup_cons.mp (hr.ring h hh).nodup).2 fun x _ => hnodes x).length_le hfuel

theorem Rep.flip (hr : Rep heads l seq) : Rep heads l.flip fun h => (seq h).reverse :=
  ⟨fun h hh => (hr.ring h hh).flip, fun h hh h' hh' x => by simpa using hr.apart h hh h' hh' x,
    fun x => (hr.marks x).trans (by simp [Member])⟩

open Classical in
theorem Rep.insertion (hr : Rep heads l seq) (hin : l.inList n = true → l' = l)
    (hnew : ¬ Member heads seq n → Rep heads l' seq') :
    Rep heads l' (if Member heads seq n then seq else seq') := by
  split_ifs with hmem
  · exact hin ((hr.marks n).mpr hmem) ▸ hr
  · exact hnew hmem

variable [DecidableEq α]

theorem Follows.findFrom {step : α → α} {pred : α → Bool} {fuel : ℕ} (hf : Follows step a xs h)
    (hh : h ∉ xs) (hfuel : xs.length < fuel) :
    findFrom step h pred fuel (step a) = some (xs.find? pred) := by
  induction xs generalizing a fuel with
  | nil =>
    obtain ⟨fuel, rfl⟩ := Nat.exists_eq_succ_of_ne_zero (Nat.ne_of_gt hfuel)
    have hend : step a = h := hf
    rw [Clist.findFrom, if_pos hend, find?_nil]
  | cons x xs ih =>
    obtain ⟨fuel, rfl⟩ := Nat.exists_eq_succ_of_ne_zero (Nat.ne_of_gt (Nat.zero_lt_of_lt hfuel))
    obtain ⟨hax, hrest⟩ := hf
    obtain ⟨hne, hh⟩ := not_or.mp (mt mem_cons.mpr hh)
    rw [hax, Clist.findFrom, if_neg (Ne.symm hne), find?_cons]
    rcases pred x with _ | _
    · exact ih hrest hh (Nat.lt_of_succ_lt_succ hfuel)
    · rfl

theorem Rep.update (hr : Rep heads l seq) (hh : h ∈ heads) (hring : l'.Ring h zs)
    (hzs : ∀ x ∈ zs, ∀ h' ∈ heads, x ∈ h' :: seq h' → h' = h)
    (hsame : ∀ x, x ∉ h :: seq h → x ∉ zs → l.SameAt l' x)
    (hout : ∀ x ∈ h :: seq h, x ∉ zs → l'.inList x = false) : Rep heads l' (Function.update seq h zs) := by
  have hold : ∀ h' ∈ heads, h' ≠ h → ∀ x ∈ h' :: seq h', x ∉ h :: seq h := fun h' hh' hne x hx hmem =>
    hne (hr.apart h hh h' hh' x hmem hx)
  have hnew : ∀ h' ∈ heads, h' ≠ h → ∀ x ∈ h' :: seq h', x ∉ h :: zs := by
    rintro h' hh' hne x hx (_ | ⟨_, hmem⟩)
    · exact hold h' hh' hne h hx mem_cons_self
    · exact hne (hzs x hmem h' hh' hx)
  refine ⟨fun h' hh' => ?_, fun h₁ hh₁ h₂ hh₂ x hx₁ hx₂ => ?_, fun x => ?_⟩
  · by_cases hne : h' = h
    · subst hne
      simpa using hring
    · rw [update_of_ne hne]
      exact (hr.ring h' hh').congr fun x hx =>
        hsame x (hold h' hh' hne x hx) fun hmem => hnew h' hh' hne x hx (mem_cons_of_mem _ hmem)
  · by_cases hne₁ : h₁ = h <;> by_cases hne₂ : h₂ = h
    · rw [hne₁, hne₂]
    · rw [hne₁, update_self] at hx₁
      rw [update_of_ne hne₂] at hx₂
      exact absurd hx₁ (hnew h₂ hh₂ hne₂ x hx₂)
    · rw [update_of_ne hne₁] at hx₁
      rw [hne₂, update_self] at hx₂
      exact absurd hx₂ (hnew h₁ hh₁ hne₁ x hx₁)
    · rw [update_of_ne hne₁] at hx₁
      rw [update_of_ne hne₂] at hx₂
      exact hr.apart h₁ hh₁ h₂ hh₂ x hx₁ hx₂
  · by_cases hx : x ∈ zs
    · exact iff_of_true (hring.inList x hx) ⟨h, hh, by rwa [update_self]⟩
    -- a node that is not in the new list is in another one, or has left
    have hmember : Member heads (Function.update seq h zs) x ↔ x ∉ h :: seq h ∧ Member heads seq x := by
      constructor
      · rintro ⟨h', hh', hmem⟩
        have hne : h' ≠ h := by
          rintro rfl
          exact hx (by rwa [update_self] at hmem)
        rw [update_of_ne hne] at hmem
        exact ⟨hold h' hh' hne x (mem_cons_of_mem _ hmem), h', hh', hmem⟩
      · rintro ⟨hnot, h', hh', hmem⟩
        have hne : h' ≠ h := by
          rintro rfl
          exact hnot (mem_cons_of_mem _ hmem)
        exact ⟨h', hh', by rwa [update_of_ne hne]⟩
    rw [hmember]
    by_cases hleft : x ∈ h :: seq h
    · exact iff_of_false (by rw [hout x hleft hx]; simp) fun h => h.1 hleft
    · rw [(hsame x hleft hx).2.2, hr.marks]
      exact ⟨fun h => ⟨hleft, h⟩, And.right⟩

theorem Rep.insert (hr : Rep heads l seq) (hh : h ∈ heads) (hseq : seq h = xs ++ ys) (hn : n ∉ heads)
    (hnot : ¬ Member heads seq n) :
    Rep heads (l.insertBefore (ys.head?.getD h) n) (Function.update seq h (xs ++ n :: ys)) := by
  have hring := hseq ▸ hr.ring h hh
  obtain ⟨hout, hnew⟩ := hr.fresh hh hn hnot
  have hpos : ys.head?.getD h ∈ h :: seq h := by
    rw [hseq]
    exact cons_subset_cons h (subset_append_right xs ys) (Links.head?_getD_mem h ys)
  have hposn : ys.head?.getD h ≠ n := ne_of_mem_of_not_mem hpos hnew
  have hmem : ∀ x, x ≠ n → (x ∈ xs ++ n :: ys ↔ x ∈ seq h) := fun x hx => by simp [hseq, hx]
  refine hr.update hh (hring.insertBefore (hseq ▸ hnew) hout) (fun x hx h' hh' hx' => ?_) (fun x hx hx' => ?_)
    fun x hx hx' => ?_
  · by_cases hxn : x = n
    · subst hxn
      exact absurd hx' (hr.fresh hh' hn hnot).2
    · exact hr.apart h hh h' hh' x (mem_cons_of_mem _ ((hmem x hxn).mp hx)) hx'
  · have hxn : x ≠ n := fun heq => hx' (by simp [heq])
    have hxpos : x ≠ ys.head?.getD h := fun heq => hx (heq ▸ hpos)
    have hxprev : x ≠ l.prev (ys.head?.getD h) := fun heq => hx (heq ▸ (hr.ring h hh).prev_mem hpos)
    refine ⟨?_, ?_, ?_⟩
    · rw [Links.insertBefore_next hout hposn, if_neg hxprev, if_neg hxn]
    · rw [Links.insertBefore_prev hout, if_neg hxpos, if_neg hxn]
    · rw [Links.insertBefore_inList hout, if_neg hxn]
  · have hxn : x ≠ n := ne_of_mem_of_not_mem hx hnew
    have hxh : x = h := (mem_cons.mp hx).resolve_right fun hmem' => hx' ((hmem x hxn).mpr hmem')
    rw [Links.insertBefore_inList hout, if_neg hxn, hxh]
    exact hr.head_out hh

theorem Rep.of_flip (hr : Rep heads l seq) (hh : h ∈ heads) (ha : a ∈ h :: seq h) (hn : n ∉ heads)
    (hnot : ¬ Member heads seq n) (hr' : Rep heads (l.flip.insertBefore a n) seq') :
    Rep heads (l.insertAfter a n) fun h => (seq' h).reverse := by
  obtain ⟨hout, hnew⟩ := hr.fresh hh hn hnot
  rw [Links.insertAfter_eq hout (ne_of_mem_of_not_mem ha hnew)
    (ne_of_mem_of_not_mem ((hr.ring h hh).next_mem ha) hnew)]
  exact hr'.flip

theorem Rep.insertBefore (hr : Rep heads l seq) (hh : h ∈ heads) (ha : a ∈ h :: seq h) (hn : n ∉ heads)
    (hnot : ¬ Member heads seq n) : Rep heads (l.insertBefore a n) fun h =>
      if a ∈ h :: seq h then putBefore a n (seq h) else seq h := by
  have hpos : ∀ xs : List α, a ∈ h :: xs → (xs.dropWhile (· ≠ a)).head?.getD h = a := by
    intro xs
    induction xs with
    | nil => simp [eq_comm]
    | cons x xs ih =>
      by_cases hx : x = a
      · simp [hx]
      · intro hmem
        rw [dropWhile_cons_of_pos (by simpa using hx)]
        exact ih (by simpa [Ne.symm hx] using hmem)
  have hins := hr.insert hh (takeWhile_append_dropWhile (p := (· ≠ a))).symm hn hnot
  rw [hpos _ ha] at hins
  refine hins.congr fun h' hh' => ?_
  by_cases hne : h' = h
  · subst hne
    rw [if_pos ha, update_self, putBefore]
  · rw [if_neg fun ha' => hne (hr.apart h hh h' hh' a ha ha'), update_of_ne hne]

theorem Rep.remove (hr : Rep heads l seq) (hh : h ∈ heads) (hseq : seq h = xs ++ n :: ys) :
    Rep heads (l.remove n) (Function.update seq h (xs ++ ys)) := by
  have hring := hseq ▸ hr.ring h hh
  have hmem : n ∈ h :: seq h := by simp [hseq]
  have hin : l.inList n = true := hring.inList n (by simp)
  have hsub : xs ++ ys ⊆ seq h := by
    rw [hseq]
    exact ((sublist_cons_self n ys).append_left xs).subset
  have hself : l.prev n ≠ n := by
    have hnodup : ((h :: xs) ++ n :: ys).Nodup := hring.nodup
    exact fun heq => (nodup_append'.mp hnodup).2.2 (heq ▸ hring.split.1.prev_mem) mem_cons_self
  refine hr.update hh hring.remove (fun x hx h' hh' => ?_) (fun x hx hx' => ?_) fun x hx hx' => ?_
  · exact hr.apart h hh h' hh' x (mem_cons_of_mem _ (hsub hx))
  · have hne : ∀ {y}, y ∈ h :: seq h → x ≠ y := fun hy heq => hx (heq ▸ hy)
    exact Links.remove_sameAt hin hself (hne hmem) (hne ((hr.ring h hh).prev_mem hmem))
      (hne ((hr.ring h hh).next_mem hmem))
  · rw [Links.remove_inList hin]
    split_ifs with hxn
    · rfl
    · rcases mem_cons.mp hx with rfl | hx
      · exact hr.head_out hh
      · exact absurd (by simpa [hseq, hxn] using hx) hx'

theorem Rep.removeNode (hr : Rep heads l seq) (node : Option α) :
    Rep heads (removeNode l node) fun h => node.elim (seq h) (seq h).erase := by
  cases node with
  | none => exact hr
  | some n =>
    by_cases hin : l.inList n = true
    · obtain ⟨h, hh, hmem⟩ := (hr.marks n).mp hin
      obtain ⟨xs, ys, -, hseq, herase⟩ := exists_erase_eq hmem
      refine (hr.remove hh hseq).congr fun h' hh' => ?_
      by_cases hne : h' = h
      · rw [hne, update_self, ← herase, Option.elim_some]
      · rw [update_of_ne hne, Option.elim_some, erase_of_not_mem fun hmem' =>
          hne (hr.apart h hh h' hh' n (mem_cons_of_mem _ hmem) (mem_cons_of_mem _ hmem'))]
    · rw [Clist.removeNode, Links.remove, if_neg hin]
      exact hr.congr fun h hh => erase_of_not_mem fun hmem => hin ((hr.marks n).mpr ⟨h, hh, hmem⟩)

theorem Rep.popFront (hr : Rep heads l seq) (hh : h ∈ heads) :
    (popFront l h).1 = (seq h).head? ∧ Rep heads (popFront l h).2 (Function.update seq h (seq h).tail) := by
  have hring := hr.ring h hh
  have hfirst := hring.next_eq
  rw [Clist.popFront, empty]
  rcases hseq : seq h with _ | ⟨x, xs⟩
  · rw [hseq, head?_nil, Option.getD_none] at hfirst
    rw [if_pos (decide_eq_true hfirst)]
    have hsame : Function.update seq h [] = seq := Function.update_eq_self_iff.mpr hseq.symm
    exact ⟨rfl, hsame.symm ▸ hr⟩
  · rw [hseq] at hfirst hring
    have hne : x ≠ h := ne_of_mem_of_not_mem mem_cons_self (nodup_cons.mp hring.nodup).1
    have hfirst' : l.next h = x := hfirst
    rw [hfirst', if_neg (by simpa using hne)]
    exact ⟨rfl, hr.remove hh (hseq.trans (nil_append _).symm)⟩

theorem forEachAndDelFrom_eq (callback : α → σ → Bool × σ) (failure : Option α) (args : σ) {fuel : ℕ}
    (hu : l.Unvisited h xs) (hnodup : (h :: xs).Nodup) (hin : ∀ x ∈ xs, l.inList x = true)
    (hout : l.inList h = false) (hfuel : xs.length < fuel) :
    ∃ l', forEachAndDelFrom callback h fuel (xs.head?.getD h) failure l args =
        some ((drained callback xs failure args).1, l', (drained callback xs failure args).2) ∧
      l'.Ring h [] ∧ (∀ x, x ∉ h :: xs → l.SameAt l' x) ∧ ∀ x ∈ h :: xs, l'.inList x = false := by
  induction xs generalizing l failure args fuel with
  | nil =>
    obtain ⟨fuel, rfl⟩ := Nat.exists_eq_succ_of_ne_zero (Nat.ne_of_gt hfuel)
    refine ⟨l, ?_, hu.ring, fun x _ => ⟨rfl, rfl, rfl⟩, fun x hx => ?_⟩
    · rw [head?_nil, getD_none, forEachAndDelFrom, if_pos rfl, drained]
    · rwa [mem_singleton.mp hx]
  | cons y ys ih =>
    obtain ⟨fuel, rfl⟩ := Nat.exists_eq_succ_of_ne_zero (Nat.ne_of_gt (Nat.zero_lt_of_lt hfuel))
    obtain ⟨hh, hys⟩ := nodup_cons.mp hnodup
    have hy : y ∉ h :: ys := by
      rintro (_ | ⟨_, hmem⟩)
      · exact hh mem_cons_self
      · exact (nodup_cons.mp hys).1 hmem
    have hyh : y ≠ h := fun heq => hy (heq ▸ mem_cons_self)
    have hyin := hin y mem_cons_self
    have hself : l.prev y ≠ y := hu.1.symm ▸ hyh.symm
    have hmarks := Links.remove_inList hyin
    -- the rest of the walk starts in the list without `y`
    obtain ⟨l', hrun, hring, hsame, hunmarked⟩ := ih
      (if (callback y args).1 then failure.or (some y) else failure) (callback y args).2
      (hu.remove hnodup hyin) (hnodup.sublist (by simp))
      (fun x hx => by
        rw [hmarks, if_neg (ne_of_mem_of_not_mem (mem_cons_of_mem _ hx) hy), hin x (by simp [hx])])
      (by rw [hmarks, if_neg hyh.symm, hout]) (Nat.lt_of_succ_lt_succ hfuel)
    refine ⟨l', ?_, hring, fun x hx => ?_, fun x hx => ?_⟩
    · rw [head?_cons, getD_some, forEachAndDelFrom, if_neg hyh, hu.next_eq, drained]
      exact hrun
    · have hne : ∀ {z}, z ∈ h :: y :: ys → x ≠ z := fun hz heq => hx (heq ▸ hz)
      have hnext : l.next y ∈ h :: y :: ys := by
        rw [hu.next_eq]
        exact cons_subset_cons h (subset_cons_self y ys) (Links.head?_getD_mem h ys)
      refine (Links.remove_sameAt hyin hself (hne (by simp)) (hne (by simp [hu.1])) (hne hnext)).trans
        (hsame x fun hmem => hx ?_)
      exact cons_subset_cons h (subset_cons_self y ys) hmem
    · by_cases hxy : x = y
      · subst hxy
        rw [(hsame x hy).2.2, hmarks, if_pos rfl]
      · exact hunmarked x (by simpa [hxy] using hx)

theorem Rep.forEachAndDel (hr : Rep heads l seq) (hh : h ∈ heads) (callback : α → σ → Bool × σ) (args : σ)
    {fuel : ℕ} (hfuel : (seq h).length < fuel) :
    ∃ l', forEachAndDel l h callback args fuel = some ((drained callback (seq h) none args).1, l',
        (drained callback (seq h) none args).2) ∧ Rep heads l' (Function.update seq h []) := by
  have hring := hr.ring h hh
  have hhead : ∀ x, x ≠ h → l.SameAt (l.initNode h) x := fun x hx =>
    ⟨by rw [Links.initNode_next, if_neg hx], by rw [Links.initNode_prev, if_neg hx],
      by rw [Links.initNode_inList, if_neg hx]⟩
  have hne : ∀ x ∈ seq h, x ≠ h := fun x hx =>
    ne_of_mem_of_not_mem hx (List.nodup_cons.mp hring.nodup).1
  obtain ⟨l', hrun, hring', hsame, hout⟩ := forEachAndDelFrom_eq callback none args hring.initNode hring.nodup
    (fun x hx => (hhead x (hne x hx)).2.2.trans (hring.inList x hx))
    (by rw [Links.initNode_inList, if_pos rfl]) hfuel
  refine ⟨l', ?_, hr.update hh hring' (by simp) (fun x hx _ => ?_) fun x hx _ => hout x hx⟩
  · rw [Clist.forEachAndDel, hring.next_eq]
    exact hrun
  · exact (hhead x fun heq => hx (heq ▸ List.mem_cons_self)).trans (hsame x hx)

theorem Rep.step (hr : Rep heads l seq) {nodes : List α} (hnodes : ∀ x, x ∈ nodes) {fuel : ℕ}
    (hfuel : nodes.length < fuel) (op : Op α σ) (hop : op.Allowed heads seq) (args : σ) :
    ∃ l', op.exec fuel l args = some ((op.spec heads seq args).1, l', (op.spec heads seq args).2.2) ∧
      Rep heads l' (op.spec heads seq args).2.1 := by
  have hback : ∀ {n}, ¬ Member heads seq n → ¬ Member heads (fun h => (seq h).reverse) n := by simp [Member]
  cases op with
  | pushFront head node =>
    refine ⟨_, rfl, hr.insertion (fun hin => if_pos hin) fun hnot => ?_⟩
    have hfront := hr.of_flip hop.1 mem_cons_self hop.2 hnot
      (hr.flip.insert hop.1 (append_nil _).symm hop.2 (hback hnot))
    refine hfront.congr fun h _ => ?_
    by_cases hne : h = head <;> simp [hne]
  | pushBack head node =>
    refine ⟨_, rfl, hr.insertion (fun hin => if_pos hin) fun hnot => ?_⟩
    exact hr.insert hop.1 (append_nil _).symm hop.2 hnot
  | insertBefore pos node =>
    obtain ⟨⟨h, hh, hpos⟩, hn⟩ := hop
    exact ⟨_, rfl, hr.insertion (fun hin => if_pos hin) (hr.insertBefore hh hpos hn)⟩
  | insertAfter pos node =>
    obtain ⟨⟨h, hh, hpos⟩, hn⟩ := hop
    refine ⟨_, rfl, hr.insertion (fun hin => if_pos hin) fun hnot => ?_⟩
    have hafter := hr.of_flip hh hpos hn hnot (hr.flip.insertBefore hh (by simpa using hpos) hn (hback hnot))
    refine hafter.congr fun h' _ => ?_
    by_cases hmem : pos ∈ h' :: seq h'
    · rw [if_pos hmem, if_pos (by simpa using hmem)]
    · rw [if_neg hmem, if_neg (by simpa using hmem), reverse_reverse]
  | remove node => exact ⟨_, rfl, hr.removeNode node⟩
  | popFront head =>
    refine ⟨_, ?_, (hr.popFront hop).2⟩
    rw [Op.exec, (hr.popFront hop).1]
    rfl
  | forEachAndDel head callback => exact hr.forEachAndDel hop callback args (hr.length_lt hnodes hfuel hop)

theorem Rep.run (hr : Rep heads l seq) {nodes : List α} (hnodes : ∀ x, x ∈ nodes) {fuel : ℕ}
    (hfuel : nodes.length < fuel) (ops : List (Op α σ)) (args : σ) (hops : Allowed heads ops seq args) :
    ∃ l', exec fuel ops l args = some ((spec heads ops seq args).1, l', (spec heads ops seq args).2.2) ∧
    Rep heads l' (spec heads ops seq args).2.1 := by
  induction ops generalizing l seq args with
  | nil => exact ⟨l, rfl, hr⟩
  | cons op ops ih =>
    obtain ⟨l₁, hop, hr₁⟩ := hr.step hnodes hfuel op hops.1 args
    obtain ⟨l₂, hrun, hr₂⟩ := ih hr₁ _ hops.2
    refine ⟨l₂, ?_, hr₂⟩
    simp only [exec, hop, bind_some, hrun, map_some, spec]

theorem Rep.init (heads : Set α) (l : Links α) {nodes : List α} (hnodes : ∀ x, x ∈ nodes) :
    Rep heads (nodes.foldl Links.initNode l) fun _ => [] := by
  have hinit : ∀ (nodes : List α) (l : Links α) (x : α),
      x ∈ nodes ∨ (l.next x = x ∧ l.prev x = x ∧ l.inList x = false) →
      (nodes.foldl Links.initNode l).next x = x ∧ (nodes.foldl Links.initNode l).prev x = x ∧
        (nodes.foldl Links.initNode l).inList x = false := by
    intro nodes
    induction nodes with
    | nil => exact fun l x hx => hx.resolve_left not_mem_nil
    | cons n nodes ih =>
      intro l x hx
      refine ih (l.initNode n) x ?_
      rw [Links.initNode_next, Links.initNode_prev, Links.initNode_inList]
      by_cases hxn : x = n
      · simp [hxn]
      · simpa [hxn] using hx
  have hall := fun x => hinit nodes l x (.inl (hnodes x))
  refine ⟨fun h _ => ⟨⟨(hall h).1, (hall h).2.1⟩, nodup_singleton h, by simp⟩,
    fun h _ h' _ x hx hx' => (mem_singleton.mp hx').symm.trans (mem_singleton.mp hx), fun x => iff_of_false (by simp [(hall x).2.2]) ?_⟩
  rintro ⟨h, -, hx⟩
  cases hx

structure Represents (heads : Set α) (fuel : ℕ) (l : Links α) (seq : α → List α) : Prop where
  forward : ∀ h ∈ heads, Follows l.next h (seq h) h
  backward : ∀ h ∈ heads, Follows l.prev h (seq h).reverse h
  nodup : ∀ h ∈ heads, (seq h).Nodup
  inList_iff : ∀ x, l.inList x = true ↔ ∃! h, h ∈ heads ∧ x ∈ seq h
  heads_out : ∀ h ∈ heads, l.inList h = false
  insert_member : ∀ pos n, (∃ h ∈ heads, n ∈ seq h) → l.insertBefore pos n = l ∧ l.insertAfter pos n = l
  remove_other : ∀ n, (¬ ∃ h ∈ heads, n ∈ seq h) → l.remove n = l
  found : ∀ h ∈ heads, ∀ pred, find l h pred fuel = some ((seq h).find? pred) ∧
    findRev l h pred fuel = some ((seq h).reverse.find? pred)

theorem Rep.represents (hr : Rep heads l seq) {fuel : ℕ} (hfuel : ∀ h ∈ heads, (seq h).length < fuel) :
    Represents heads fuel l seq where
  forward h hh := follows_of_segment (hr.ring h hh).segment
  backward h hh := follows_of_segment (hr.ring h hh).flip.segment
  nodup h hh := (nodup_cons.mp (hr.ring h hh).nodup).2
  inList_iff x := by
    rw [hr.marks]
    refine ⟨fun ⟨h, hh, hx⟩ => ⟨h, ⟨hh, hx⟩, fun h' hh' => ?_⟩, ?_⟩
    · exact hr.apart h hh h' hh'.1 x (mem_cons_of_mem _ hx) (mem_cons_of_mem _ hh'.2)
    rintro ⟨h, ⟨hh, hx⟩, -⟩
    exact ⟨h, hh, hx⟩
  heads_out h hh := hr.head_out hh
  insert_member pos n hn := ⟨if_pos ((hr.marks n).mpr hn), if_pos ((hr.marks n).mpr hn)⟩
  remove_other n hn := if_neg fun hin => hn ((hr.marks n).mp hin)
  found h hh pred := by
    have hnot := (nodup_cons.mp (hr.ring h hh).nodup).1
    exact ⟨(follows_of_segment (hr.ring h hh).segment).findFrom hnot (hfuel h hh),
      (follows_of_segment (hr.ring h hh).flip.segment).findFrom (by simpa using hnot) (by simpa using hfuel h hh)⟩

/-- Any operations on lists whose nodes were initialised give the results and the sequences
of the same operations on sequences. -/
theorem clist_implements_sequences (heads : Set α) (l : Links α) (nodes : List α) (hnodes : ∀ x, x ∈ nodes)
    (ops : List (Op α σ)) (args : σ) (hops : Allowed heads ops (fun _ => []) args) (fuel : ℕ)
    (hfuel : nodes.length < fuel) :
    ∃ l', exec fuel ops (nodes.foldl Links.initNode l) args =
        some ((spec heads ops (fun _ => []) args).1, l', (spec heads ops (fun _ => []) args).2.2) ∧
      Represents heads fuel l' (spec heads ops (fun _ => []) args).2.1 := by
  obtain ⟨l', hrun, hr⟩ := (Rep.init heads l hnodes).run hnodes hfuel ops args hops
  exact ⟨l', hrun, hr.represents fun h hh => hr.length_lt hnodes hfuel hh⟩

def moveAndDrain : List (Op (Fin 5) ℕ) :=
  [.pushBack 0 2, .pushFront 0 3, .insertAfter 3 4, .remove (some 2), .pushBack 1 2, .pushBack 1 2,
    .popFront 0, .forEachAndDel 0 fun x calls => (decide (x = 4), calls + 1)]

theorem clist_implements_sequences_moveAndDrain :
    ∃ l', exec 6 moveAndDrain ([0, 1, 2, 3, 4].foldl Links.initNode ⟨id, id, fun _ => true⟩) 0 =
        some ([none, none, none, none, none, none, some 3, some 4], l', 1) ∧
      l'.next 0 = 0 ∧ l'.next 1 = 2 ∧ l'.next 2 = 1 ∧
      Represents {0, 1} 6 l' (spec {0, 1} moveAndDrain (fun _ => []) 0).2.1 := by
  have hallowed : Allowed {0, 1} moveAndDrain (fun _ => []) 0 := by
    simp [Allowed, moveAndDrain, Op.Allowed, Op.spec, Member]
  obtain ⟨l', hrun, hrep⟩ := clist_implements_sequences {0, 1} ⟨id, id, fun _ => true⟩
    [0, 1, 2, 3, 4] (by decide) moveAndDrain 0 hallowed 6 (by decide)
  have hexec : ∃ l', exec 6 moveAndDrain ([0, 1, 2, 3, 4].foldl Links.initNode ⟨id, id, fun _ => true⟩) 0 =
      some ([none, none, none, none, none, none, some 3, some 4], l', 1) ∧
      l'.next 0 = 0 ∧ l'.next 1 = 2 ∧ l'.next 2 = 1 := ⟨_, rfl, by decide⟩
  obtain ⟨l₁, hexec, hnext⟩ := hexec
  obtain rfl : l₁ = l' := by
    have hsame := some.inj (hexec.symm.trans hrun)
    exact (Prod.mk.inj (Prod.mk.inj hsame).2).1
  exact ⟨l₁, hexec, hnext.1, hnext.2.1, hnext.2.2, hrep⟩
structure Compares (cmp : α → α → ℤ) (le : α → α → Prop) : Prop where
  total : ∀ a b, le a b ∨ le b a
  trans : ∀ {a b c}, le a b → le b c → le a c
  pos_iff : ∀ a b, 0 < cmp a b ↔ ¬ le a b

theorem insertSortedFrom_eq {cmp : α → α → ℤ} {fuel : ℕ} (hs : l.Segment a xs h) (hh : h ∉ xs)
    (hfuel : xs.length < fuel) : insertSortedFrom l h n cmp fuel (l.next a) =
      some (l.insertBefore ((xs.dropWhile (cmp · n ≤ 0)).head?.getD h) n) := by
  induction xs generalizing a fuel with
  | nil =>
    obtain ⟨fuel, rfl⟩ := Nat.exists_eq_succ_of_ne_zero (Nat.ne_of_gt hfuel)
    rw [hs.1, insertSortedFrom, if_neg fun hc => hc.1 rfl]
    rfl
  | cons x xs ih =>
    obtain ⟨fuel, rfl⟩ := Nat.exists_eq_succ_of_ne_zero (Nat.ne_of_gt (Nat.zero_lt_of_lt hfuel))
    obtain ⟨hax, -, hrest⟩ := hs
    obtain ⟨hne, hh⟩ := not_or.mp (mt mem_cons.mpr hh)
    rw [hax, insertSortedFrom]
    by_cases hcmp : cmp x n ≤ 0
    · rw [if_pos ⟨Ne.symm hne, hcmp⟩, dropWhile_cons_of_pos (by simpa using hcmp)]
      exact ih hrest hh (Nat.lt_of_succ_lt_succ hfuel)
    · rw [if_neg fun hc => hcmp hc.2, dropWhile_cons_of_neg (by simpa using hcmp)]
      rfl

theorem insertSorted_sorted {cmp : α → α → ℤ} {le : α → α → Prop} (hcmp : Compares cmp le) {fuel : ℕ}
    (hr : l.Ring h xs) (hsorted : xs.Pairwise le) (hn : n ∉ h :: xs) (hout : l.inList n = false)
    (hfuel : xs.length < fuel) : ∃ l' before after, xs = before ++ after ∧ insertSorted l h n cmp fuel =
    some l' ∧ l'.Ring h (before ++ n :: after) ∧ (before ++ n :: after).Pairwise le ∧ (∀ x ∈ after,
    ¬ le x n) ∧ ∀ x, x ≠ n → l'.inList x = l.inList x := by
  have hle : ∀ x, cmp x n ≤ 0 ↔ le x n := fun x => by rw [← not_lt, hcmp.pos_iff, not_not]
  obtain ⟨before, after, hbefore, hafter⟩ : ∃ before after, xs.takeWhile (cmp · n ≤ 0) = before ∧
      xs.dropWhile (cmp · n ≤ 0) = after := ⟨_, _, rfl, rfl⟩
  have hxs : xs = before ++ after := by rw [← hbefore, ← hafter, takeWhile_append_dropWhile]
  have hlow : ∀ x ∈ before, le x n := by
    intro x hx
    have hp := mem_takeWhile_imp (hbefore ▸ hx)
    simpa [hle] using hp
  have hhigh : ∀ x ∈ after, ¬ le x n := by
    intro x hx
    have hp := not_of_mem_dropWhile (hsorted.imp fun hab hb => ?_) (hafter ▸ hx)
    · simpa [hle] using hp
    · simp only [decide_eq_true_eq, hle] at hb ⊢
      exact hcmp.trans hab hb
  rw [hxs, pairwise_append] at hsorted
  obtain ⟨hsorted₁, hsorted₂, hcross⟩ := hsorted
  refine ⟨_, before, after, hxs, ?_, (hxs ▸ hr).insertBefore (hxs ▸ hn) hout, ?_, hhigh, fun x hx => ?_⟩
  · rw [insertSorted, insertSortedFrom_eq hr.segment (nodup_cons.mp hr.nodup).1 hfuel, hafter]
  · refine pairwise_append.mpr ⟨hsorted₁, pairwise_cons.mpr ⟨fun x hx => ?_, hsorted₂⟩, fun x hx y hy => ?_⟩
    · exact (hcmp.total x n).resolve_left (hhigh x hx)
    · rcases mem_cons.mp hy with rfl | hy
      · exact hlow x hx
      · exact hcross x hx y hy
  · rw [Links.insertBefore_inList hout, if_neg hx]

/-- New nodes inserted one after another into an empty list. -/
theorem insertSorted_stable {cmp : α → α → ℤ} {le : α → α → Prop} (hcmp : Compares cmp le) {fuel : ℕ}
    (hr : l.Ring h []) (ns : List α) (hnodup : (h :: ns).Nodup) (hout : ∀ n ∈ ns, l.inList n = false)
    (hfuel : ns.length < fuel) :
    ∃ l' xs, ns.foldlM (fun l n => insertSorted l h n cmp fuel) l = some l' ∧ l'.Ring h xs ∧
      xs.Pairwise le ∧ xs.Perm ns ∧
      (∀ a b, le a b → le b a → [a, b].Sublist ns → [a, b].Sublist xs) ∧
      (∀ n ∈ xs, insertSorted l' h n cmp fuel = some l') ∧ ∀ x, x ∉ ns → l'.inList x = l.inList x := by
  induction ns using reverseRecOn with
  | nil => exact ⟨l, [], rfl, hr, .nil, .nil, fun a b _ _ h => h, by simp, fun x _ => rfl⟩
  | append_singleton ns n ih =>
    rw [length_append, length_singleton] at hfuel
    obtain ⟨hnodup₁, hnot⟩ : (h :: ns).Nodup ∧ n ∉ h :: ns := by
      have hall : ((h :: ns) ++ [n]).Nodup := hnodup
      exact ⟨hall.of_append_left, fun hmem => (nodup_append'.mp hall).2.2 hmem mem_cons_self⟩
    obtain ⟨l₁, xs, hrun, hr₁, hsorted, hperm, hstable, -, hmarks⟩ := ih hnodup₁
      (fun m hm => hout m (mem_append_left _ hm)) (by omega)
    have hn : n ∉ h :: xs := by rwa [(hperm.cons h).mem_iff]
    have hnout : l₁.inList n = false := by
      rw [hmarks n fun hmem => hnot (mem_cons_of_mem _ hmem), hout n (by simp)]
    have hlength : xs.length < fuel := by
      rw [hperm.length_eq]
      omega
    obtain ⟨l', before, after, rfl, hins, hr', hsorted', hhigh, hmarks'⟩ :=
      insertSorted_sorted hcmp hr₁ hsorted hn hnout hlength
    have hperm' : (before ++ n :: after).Perm (ns ++ [n]) :=
      perm_middle.trans ((hperm.cons n).trans (perm_append_singleton n ns).symm)
    refine ⟨l', _, ?_, hr', hsorted', hperm', fun a b hab hba hsub => ?_, fun m hm => ?_, fun x hx => ?_⟩
    · rw [foldlM_append, hrun]
      simpa using hins
    · -- the later of the two is `n`, which comes after all that are not above it
      obtain ⟨ys, zs, heq, hys, hzs⟩ := sublist_append_iff.mp hsub
      rcases sublist_singleton.mp hzs with rfl | rfl
      · rw [append_nil] at heq
        exact (hstable a b hab hba (heq ▸ hys)).trans ((sublist_cons_self n after).append_left before)
      · obtain ⟨rfl, hb⟩ := append_inj' (show [a] ++ [b] = ys ++ [n] from heq) rfl
        cases hb
        have hmem := hperm.mem_iff.mpr (singleton_sublist.mp hys)
        have hbefore := (mem_append.mp hmem).resolve_right fun ha => hhigh a ha hab
        exact (singleton_sublist.mpr hbefore).append (singleton_sublist.mpr mem_cons_self)
    · rw [insertSorted, insertSortedFrom_eq hr'.segment (nodup_cons.mp hr'.nodup).1
        (by rw [hperm'.length_eq]; simpa using hfuel), Links.insertBefore, if_pos (hr'.inList m hm)]
    · obtain ⟨hxns, hxn⟩ : x ∉ ns ∧ x ≠ n := by simpa using hx
      rw [hmarks' x hxn, hmarks x hxns]

/-- The keys 1, 0, 1 of the nodes 1, 2, 3, compared with the values 1 and 0 as `wake_up_cmp` does. -/
theorem insertSorted_stable_three : ∃ l' xs, [1, 2, 3].foldlM
    (fun l n => insertSorted l (0 : Fin 4) n (fun a b => if a.val % 2 ≤ b.val % 2 then 0 else 1) 4)
    ⟨id, id, fun _ => false⟩ = some l' ∧ l'.Ring 0 xs ∧ [1, 3].Sublist xs := by
  have hcmp : Compares (α := Fin 4) (fun a b => if a.val % 2 ≤ b.val % 2 then 0 else 1)
      (fun a b => a.val % 2 ≤ b.val % 2) :=
    ⟨fun a b => le_total _ _, le_trans, fun a b => by split_ifs with hle <;> simp [hle]⟩
  obtain ⟨l', xs, hrun, hring, -, -, hstable, -⟩ := insertSorted_stable hcmp (h := 0)
    (l := ⟨id, id, fun _ => false⟩) ⟨⟨rfl, rfl⟩, by decide, by simp⟩ [1, 2, 3] (by decide) (fun _ _ => rfl)
    (Nat.lt_succ_self 3)
  exact ⟨l', xs, hrun, hring, hstable 1 3 (by decide) (by decide) (by decide)⟩

end

end RvMiniOs.Clist
