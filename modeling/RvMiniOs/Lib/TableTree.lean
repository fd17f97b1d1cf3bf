import Mathlib.Data.Set.Lattice
import Mathlib.Data.Set.Insert
import Mathlib.Tactic

/-!
# Trees of tables in a memory

A memory of pages, each a table of `width` words. `child` reads a word as a
reference to the table of the next level, or as none. A tree of `l` levels below
its root has its tables pairwise distinct; a key selects one word of every table
on its way down.
-/
namespace RvMiniOs.Lib.TableTree

open Function List Option

variable (child : ℕ → Option ℕ) (width : ℕ)

def gather (last : ℕ → Set ℕ) (mem : ℕ → ℕ → ℕ) : ℕ → ℕ → Set ℕ
  | 0, t => last t
  | l + 1, t => {p | p = t ∨ ∃ i < width, ∃ c, child (mem t i) = some c ∧ p ∈ gather last mem l c}

def tables (mem : ℕ → ℕ → ℕ) (l t : ℕ) : Set ℕ := gather child width (fun t => {t}) mem l t

def inner (mem : ℕ → ℕ → ℕ) (l t : ℕ) : Set ℕ := gather child width (fun _ => ∅) mem l t

def Tree (mem : ℕ → ℕ → ℕ) : ℕ → ℕ → Prop
  | 0, _ => True
  | l + 1, t =>
    (∀ i < width, ∀ c, child (mem t i) = some c → Tree mem l c ∧ t ∉ tables child width mem l c) ∧
    ∀ i < width, ∀ j < width, i ≠ j → ∀ c d, child (mem t i) = some c → child (mem t j) = some d →
      Disjoint (tables child width mem l c) (tables child width mem l d)

def reach (mem : ℕ → ℕ → ℕ) : ℕ → ℕ → Set ℕ
  | 0, t => {t}
  | l + 1, t => {p | ∃ i < width, ∃ c, child (mem t i) = some c ∧ p ∈ reach mem l c}

def slot (mem : ℕ → ℕ → ℕ) (key : ℕ → ℕ) : ℕ → ℕ → Option (ℕ × ℕ)
  | 0, t => some (t, key 0)
  | l + 1, t => (child (mem t (key (l + 1)))).bind (slot mem key l)

def value (mem : ℕ → ℕ → ℕ) (key : ℕ → ℕ) (l t : ℕ) : ℕ :=
  ((slot child mem key l t).map fun p => mem p.1 p.2).getD 0

variable {child width} {mem mem' : ℕ → ℕ → ℕ} {key key' : ℕ → ℕ} {l t p i : ℕ}

theorem mem_tables_self (l t : ℕ) : t ∈ tables child width mem l t := by
  cases l with
  | zero => exact Set.mem_singleton t
  | succ l => exact .inl rfl

theorem inner_subset : inner child width mem l t ⊆ tables child width mem l t := by
  induction l generalizing t with
  | zero => exact Set.empty_subset _
  | succ l ih =>
    rintro p (rfl | ⟨i, hi, c, hc, hp⟩)
    · exact .inl rfl
    · exact .inr ⟨i, hi, c, hc, ih hp⟩

def SameRefs (child : ℕ → Option ℕ) (width : ℕ) (mem mem' : ℕ → ℕ → ℕ) (l t : ℕ) : Prop :=
  ∀ p ∈ inner child width mem l t, ∀ i < width, child (mem' p i) = child (mem p i)

theorem SameRefs.below (h : SameRefs child width mem mem' (l + 1) t) (hi : i < width) {c : ℕ}
    (hc : child (mem t i) = some c) : SameRefs child width mem mem' l c :=
  fun p hp => h p (.inr ⟨i, hi, c, hc, hp⟩)

theorem SameRefs.gather_eq (h : SameRefs child width mem mem' l t) (last : ℕ → Set ℕ) :
    gather child width last mem' l t = gather child width last mem l t := by
  induction l generalizing t with
  | zero => rfl
  | succ l ih =>
    have href := h t (.inl rfl)
    ext p
    refine or_congr Iff.rfl ⟨?_, ?_⟩
    · rintro ⟨i, hi, c, hc, hp⟩
      rw [href i hi] at hc
      exact ⟨i, hi, c, hc, ih (h.below hi hc) ▸ hp⟩
    · rintro ⟨i, hi, c, hc, hp⟩
      refine ⟨i, hi, c, (href i hi).trans hc, ?_⟩
      rw [ih (h.below hi hc)]
      exact hp

theorem SameRefs.tables_eq (h : SameRefs child width mem mem' l t) :
    tables child width mem' l t = tables child width mem l t :=
  h.gather_eq _

theorem SameRefs.inner_eq (h : SameRefs child width mem mem' l t) :
    inner child width mem' l t = inner child width mem l t :=
  h.gather_eq _

theorem SameRefs.tree (h : SameRefs child width mem mem' l t) (ht : Tree child width mem l t) :
    Tree child width mem' l t := by
  induction l generalizing t with
  | zero => trivial
  | succ l ih =>
    have href := h t (.inl rfl)
    refine ⟨fun i hi c hc => ?_, fun i hi j hj hij c d hc hd => ?_⟩
    · rw [href i hi] at hc
      obtain ⟨hsub, hout⟩ := ht.1 i hi c hc
      exact ⟨ih (h.below hi hc) hsub, by rwa [(h.below hi hc).tables_eq]⟩
    · rw [href i hi] at hc
      rw [href j hj] at hd
      rw [(h.below hi hc).tables_eq, (h.below hj hd).tables_eq]
      exact ht.2 i hi j hj hij c d hc hd

theorem SameRefs.slot_eq (h : SameRefs child width mem mem' l t) (hkey : ∀ k, key k < width) :
    slot child mem' key l t = slot child mem key l t := by
  induction l generalizing t with
  | zero => rfl
  | succ l ih =>
    simp only [slot]
    rw [h t (.inl rfl) _ (hkey _)]
    cases hc : child (mem t (key (l + 1))) with
    | none => rfl
    | some c => exact ih (h.below (hkey _) hc)

theorem reach_congr (h : ∀ p ∈ tables child width mem l t, mem' p = mem p) :
    reach child width mem' (l + 1) t = reach child width mem (l + 1) t := by
  induction l generalizing t with
  | zero =>
    simp only [reach]
    rw [h t (Set.mem_singleton t)]
  | succ l ih =>
    ext p
    rw [reach, reach, h t (.inl rfl)]
    refine exists_congr fun i => and_congr_right fun hi => exists_congr fun c =>
      and_congr_right fun hc => ?_
    rw [ih fun q hq => h q (.inr ⟨i, hi, c, hc, hq⟩)]

theorem slot_extend {c : ℕ} (hc : child (mem t i) = some c) (key : ℕ → ℕ) :
    slot child mem (fun k => if k = l + 1 then i else key k) (l + 1) t = slot child mem key l c := by
  have hsame : ∀ l' ≤ l, ∀ t, slot child mem (fun k => if k = l + 1 then i else key k) l' t =
      slot child mem key l' t := by
    intro l' hl'
    induction l' with
    | zero => intro t; rw [slot, slot, if_neg (by omega)]
    | succ l' ih =>
      intro t
      rw [slot, slot, if_neg (by omega)]
      congr 1
      funext c
      exact ih (by omega) c
  rw [slot, if_pos rfl, hc, bind_some, hsame l le_rfl]

theorem exists_key_of_reach (hp : p ∈ reach child width mem (l + 1) t) : ∃ key : ℕ → ℕ, (∀ k, key k <
    width) ∧ ∃ q i, slot child mem key l t = some (q, i) ∧ child (mem q i) = some p := by
  induction l generalizing t with
  | zero =>
    obtain ⟨i, hi, c, hc, rfl⟩ := hp
    exact ⟨fun _ => i, fun _ => hi, t, i, rfl, hc⟩
  | succ l ih =>
    obtain ⟨i, hi, c, hc, hp⟩ := hp
    obtain ⟨key, hkey, q, j, hs, hq⟩ := ih hp
    refine ⟨fun k => if k = l + 1 then i else key k, fun k => ?_, q, j, (slot_extend hc key).trans hs, hq⟩
    dsimp only
    split
    · exact hi
    · exact hkey k

theorem slot_mem (hs : slot child mem key l t = some (p, i)) (hkey : ∀ k, key k < width) :
    p ∈ tables child width mem l t ∧ i = key 0 := by
  induction l generalizing t with
  | zero =>
    obtain ⟨rfl, rfl⟩ := Prod.mk.inj (some.inj hs)
    exact ⟨Set.mem_singleton t, rfl⟩
  | succ l ih =>
    obtain ⟨c, hc, hs⟩ := bind_eq_some_iff.mp hs
    obtain ⟨hp, hi⟩ := ih hs
    exact ⟨.inr ⟨_, hkey _, c, hc, hp⟩, hi⟩

theorem Tree.slot_not_inner (h : Tree child width mem l t) (hs : slot child mem key l t = some (p, i))
    (hkey : ∀ k, key k < width) : p ∉ inner child width mem l t := by
  induction l generalizing t with
  | zero => exact Set.notMem_empty p
  | succ l ih =>
    obtain ⟨c, hc, hs⟩ := bind_eq_some_iff.mp hs
    obtain ⟨hsub, hout⟩ := h.1 _ (hkey _) c hc
    have hp := (slot_mem hs hkey).1
    rintro (rfl | ⟨j, hj, d, hd, hin⟩)
    · exact hout hp
    · by_cases hij : j = key (l + 1)
      · subst hij
        obtain rfl := some.inj (hc.symm.trans hd)
        exact ih hsub hs hin
      · exact Set.disjoint_left.mp (h.2 j hj _ (hkey _) hij d c hd hc) (inner_subset hin) hp

theorem Tree.slot_inj (h : Tree child width mem l t) {j : ℕ} (hs : slot child mem key l t = some (p, i))
    (hs' : slot child mem key' l t = some (p, j)) (hkey : ∀ k, key k < width) (hkey' : ∀ k, key' k < width)
    {k : ℕ} (hk : k ≤ l) (hk0 : k ≠ 0) : key k = key' k := by
  induction l generalizing t with
  | zero => exact absurd (Nat.le_zero.mp hk) hk0
  | succ l ih =>
    obtain ⟨c, hc, hs⟩ := bind_eq_some_iff.mp hs
    obtain ⟨d, hd, hs'⟩ := bind_eq_some_iff.mp hs'
    have hsame : key (l + 1) = key' (l + 1) := by
      by_contra hne
      exact Set.disjoint_left.mp (h.2 _ (hkey _) _ (hkey' _) hne c d hc hd) (slot_mem hs hkey).1
        (slot_mem hs' hkey').1
    rcases hk.eq_or_lt with rfl | hlt
    · exact hsame
    · rw [← hsame] at hd
      obtain rfl := some.inj (hc.symm.trans hd)
      exact ih (h.1 _ (hkey _) c hc).1 hs hs' (by omega)

theorem Tree.replace {c : ℕ} {new : Set ℕ} (h : Tree child width mem (l + 1) t) (hi : i < width)
    (hc : child (mem' t i) = some c) (hsub : Tree child width mem' l c)
    (htables : ∀ p ∈ tables child width mem' l c, p ∈ new ∨
      ∃ d, child (mem t i) = some d ∧ p ∈ tables child width mem l d)
    (hnew : ∀ p ∈ new, p ∉ tables child width mem (l + 1) t)
    (hothers : ∀ j < width, j ≠ i → child (mem' t j) = child (mem t j))
    (hsame : ∀ j < width, j ≠ i → ∀ d, child (mem t j) = some d → SameRefs child width mem mem' l d) :
    Tree child width mem' (l + 1) t := by
  have hout : ∀ p ∈ tables child width mem' l c, p ≠ t := by
    rintro p hp rfl
    rcases htables p hp with hn | ⟨d, hd, hpd⟩
    · exact hnew p hn (.inl rfl)
    · exact (h.1 i hi d hd).2 hpd
  -- the new subtree and an old one
  have hapart : ∀ j < width, j ≠ i → ∀ d, child (mem t j) = some d →
      Disjoint (tables child width mem' l c) (tables child width mem l d) := by
    intro j hj hij d hd
    refine Set.disjoint_left.mpr fun p hp hpd => ?_
    rcases htables p hp with hn | ⟨e, he, hpe⟩
    · exact hnew p hn (.inr ⟨j, hj, d, hd, hpd⟩)
    · exact Set.disjoint_left.mp (h.2 i hi j hj hij.symm e d he hd) hpe hpd
  refine ⟨fun j hj d hd => ?_, fun j hj k hk hjk d e hd he => ?_⟩
  · by_cases hij : j = i
    · subst hij
      obtain rfl := some.inj (hc.symm.trans hd)
      exact ⟨hsub, fun hp => hout _ hp rfl⟩
    · rw [hothers j hj hij] at hd
      obtain ⟨hold, hnot⟩ := h.1 j hj d hd
      have hrefs := hsame j hj hij d hd
      exact ⟨hrefs.tree hold, by rwa [hrefs.tables_eq]⟩
  · by_cases hji : j = i
    · subst hji
      obtain rfl := some.inj (hc.symm.trans hd)
      rw [hothers k hk hjk.symm] at he
      rw [(hsame k hk hjk.symm e he).tables_eq]
      exact hapart k hk hjk.symm e he
    · rw [hothers j hj hji] at hd
      rw [(hsame j hj hji d hd).tables_eq]
      by_cases hki : k = i
      · subst hki
        obtain rfl := some.inj (hc.symm.trans he)
        exact (hapart j hj hji d hd).symm
      · rw [hothers k hk hki] at he
        rw [(hsame k hk hki e he).tables_eq]
        exact h.2 j hj k hk hjk d e hd he

theorem tree_of_blank (h : ∀ i < width, child (mem t i) = none) (l : ℕ) :
    Tree child width mem l t ∧ tables child width mem l t = {t} := by
  cases l with
  | zero => exact ⟨trivial, rfl⟩
  | succ l =>
    refine ⟨⟨fun i hi c hc => ?_, fun i hi _ _ _ c _ hc => ?_⟩, ?_⟩
    · simp [h i hi] at hc
    · simp [h i hi] at hc
    · ext p
      refine ⟨?_, fun hp => .inl hp⟩
      rintro (rfl | ⟨i, hi, c, hc, -⟩)
      · exact Set.mem_singleton p
      · simp [h i hi] at hc

theorem value_of_slot (hs : slot child mem key l t = some (p, i)) : value child mem key l t = mem p i := by
  rw [value, hs]
  rfl

theorem value_of_none (hs : slot child mem key l t = none) : value child mem key l t = 0 := by
  rw [value, hs]
  rfl

theorem value_succ {c : ℕ} (hc : child (mem t (key (l + 1))) = some c) :
    value child mem key (l + 1) t = value child mem key l c := by
  simp only [value, slot, hc, bind_some]

theorem value_succ_none (hc : child (mem t (key (l + 1))) = none) : value child mem key (l + 1) t = 0 :=
  value_of_none (by simp only [slot, hc, bind_none])

theorem value_congr (h : ∀ p ∈ tables child width mem l t, mem' p = mem p) (hkey : ∀ k, key k < width) :
    value child mem' key l t = value child mem key l t := by
  have hrefs : SameRefs child width mem mem' l t := fun p hp i _ => by rw [h p (inner_subset hp)]
  cases hs : slot child mem key l t with
  | none => rw [value_of_none hs, value_of_none ((hrefs.slot_eq hkey).trans hs)]
  | some p =>
    rw [value_of_slot hs, value_of_slot ((hrefs.slot_eq hkey).trans hs), h _ (slot_mem hs hkey).1]

theorem Tree.value_write (h : Tree child width mem l t) (hs : slot child mem key l t = some (p, i))
    (hkey : ∀ k, key k < width) (hkey' : ∀ k, key' k < width) {w : ℕ}
    (hmem : ∀ q j, mem' q j = if q = p ∧ j = i then w else mem q j) :
    value child mem' key' l t = if ∀ k ≤ l, key' k = key k then w else value child mem key' l t := by
  have hrefs : SameRefs child width mem mem' l t := fun q hq j _ => by
    have hne : q ≠ p := fun heq => h.slot_not_inner hs hkey (heq ▸ hq)
    rw [hmem, if_neg fun hqp => hne hqp.1]
  obtain ⟨-, rfl⟩ := slot_mem hs hkey
  have hslot := hrefs.slot_eq hkey'
  split
  · rename_i hsame
    have hs' : slot child mem key' l t = some (p, key 0) := by
      rw [← hs]
      clear hs hmem hslot hrefs h
      induction l generalizing t with
      | zero => simp only [slot, hsame 0 le_rfl]
      | succ l ih =>
        simp only [slot, hsame (l + 1) le_rfl]
        cases child (mem t (key (l + 1))) with
        | none => rfl
        | some c => exact ih fun k hk => hsame k (by omega)
    rw [value_of_slot (hslot.trans hs'), hmem, if_pos ⟨rfl, rfl⟩]
  · rename_i hdiff
    cases hs' : slot child mem key' l t with
    | none => rw [value_of_none hs', value_of_none (hslot.trans hs')]
    | some q =>
      rw [value_of_slot hs', value_of_slot (hslot.trans hs'), hmem, if_neg]
      rintro ⟨hq, hj⟩
      obtain ⟨-, hq0⟩ := slot_mem hs' hkey'
      refine hdiff fun k hk => ?_
      by_cases hk0 : k = 0
      · rw [hk0, ← hq0, hj]
      · have hs'' : slot child mem key' l t = some (p, q.2) := by rw [hs', ← hq]
        exact h.slot_inj hs'' hs hkey' hkey hk hk0

structure Rewritten (child : ℕ → Option ℕ) (width : ℕ) (g : (ℕ → ℕ) → ℕ → ℕ) (mem mem' : ℕ → ℕ → ℕ)
    (l t : ℕ) : Prop where
  inner : ∀ p ∈ inner child width mem l t, mem' p = mem p
  value : ∀ key : ℕ → ℕ, (∀ k, key k < width) →
    value child mem' key l t = g key (value child mem key l t)

structure RewrittenTo (child : ℕ → Option ℕ) (width : ℕ) (g : (ℕ → ℕ) → ℕ → ℕ)
    (mem mem' : ℕ → ℕ → ℕ) (l t n : ℕ) : Prop where
  inner : ∀ p ∈ inner child width mem (l + 1) t, mem' p = mem p
  done : ∀ key : ℕ → ℕ, (∀ k, key k < width) → key (l + 1) < n →
    value child mem' key (l + 1) t = g key (value child mem key (l + 1) t)
  rest : ∀ i < width, n ≤ i → ∀ c, child (mem t i) = some c →
    ∀ p ∈ tables child width mem l c, mem' p = mem p

section Rewriting

variable {g : (ℕ → ℕ) → ℕ → ℕ} {mem'' : ℕ → ℕ → ℕ} {n c : ℕ}

theorem RewrittenTo.refl : RewrittenTo child width g mem mem l t 0 :=
  ⟨fun _ _ => rfl, fun _ _ h => absurd h (Nat.not_lt_zero _), fun _ _ _ _ _ _ _ => rfl⟩

theorem RewrittenTo.refs (h : RewrittenTo child width g mem mem' l t n) (hi : i < width) {d : ℕ}
    (hd : child (mem t i) = some d) : SameRefs child width mem mem' l d := fun p hp j _ => by
  rw [h.inner p (.inr ⟨i, hi, d, hd, hp⟩)]

theorem RewrittenTo.skip (h : RewrittenTo child width g mem mem' l t n) (hg : ∀ key, g key 0 = 0)
    (hc : child (mem t n) = none) : RewrittenTo child width g mem mem' l t (n + 1) := by
  refine ⟨h.inner, fun key hkey hlt => ?_, fun i hi hn => h.rest i hi (by omega)⟩
  by_cases hn : key (l + 1) = n
  · have hself : mem' t = mem t := h.inner t (.inl rfl)
    have hnone : child (mem t (key (l + 1))) = none := by rw [hn, hc]
    rw [value_succ_none hnone, value_succ_none (by rw [hself, hnone]), hg]
  · exact h.done key hkey (by omega)

theorem RewrittenTo.next (h : RewrittenTo child width g mem mem' l t n)
    (ht : Tree child width mem (l + 1) t) (hn : n < width) (hc : child (mem t n) = some c)
    (hinner : ∀ p ∈ TableTree.inner child width mem' l c, mem'' p = mem' p)
    (hvalue : ∀ key : ℕ → ℕ, (∀ k, key k < width) → key (l + 1) = n →
      value child mem'' key l c = g key (value child mem' key l c))
    (hframe : ∀ p ∈ tables child width mem (l + 1) t, p ∉ tables child width mem l c → mem'' p = mem' p) :
    RewrittenTo child width g mem mem'' l t (n + 1) := by
  have hout : ∀ j < width, j ≠ n → ∀ d, child (mem t j) = some d → ∀ p ∈ tables child width mem l d,
      mem'' p = mem' p := fun j hj hjn d hd p hp =>
    hframe p (.inr ⟨j, hj, d, hd, hp⟩) (Set.disjoint_left.mp (ht.2 j hj n hn hjn d c hd hc) hp)
  have hself : mem'' t = mem' t := hframe t (.inl rfl) (ht.1 n hn c hc).2
  have hold : mem' t = mem t := h.inner t (.inl rfl)
  refine ⟨?_, fun key hkey hlt => ?_, fun i hi hni d hd p hp => ?_⟩
  · rintro p (rfl | ⟨j, hj, d, hd, hp⟩)
    · rw [hself, hold]
    · by_cases hjn : j = n
      · subst hjn
        obtain rfl := some.inj (hc.symm.trans hd)
        have hp' : p ∈ TableTree.inner child width mem' l c := by rwa [(h.refs hj hd).inner_eq]
        rw [hinner p hp', h.rest j hj le_rfl c hc p (inner_subset hp)]
      · rw [hout j hj hjn d hd p (inner_subset hp), h.inner p (.inr ⟨j, hj, d, hd, hp⟩)]
  · by_cases hkn : key (l + 1) = n
    · have hck : child (mem t (key (l + 1))) = some c := by rw [hkn, hc]
      rw [value_succ (by rw [hself, hold, hck]), hvalue key hkey hkn, value_succ hck,
        value_congr (h.rest n hn le_rfl c hc) hkey]
    · rw [← h.done key hkey (by omega)]
      cases hd : child (mem t (key (l + 1))) with
      | none =>
        rw [value_succ_none (by rw [hself, hold, hd]), value_succ_none (by rw [hold, hd])]
      | some d =>
        rw [value_succ (by rw [hself, hold, hd]), value_succ (by rw [hold, hd])]
        refine value_congr (fun p hp => hout _ (hkey _) hkn d hd p ?_) hkey
        rwa [(h.refs (hkey _) hd).tables_eq] at hp
  · rw [hout i hi (by omega) d hd p hp, h.rest i hi (by omega) d hd p hp]

theorem RewrittenTo.all (h : RewrittenTo child width g mem mem' l t width) :
    Rewritten child width g mem mem' (l + 1) t :=
  ⟨h.inner, fun key hkey => h.done key hkey (hkey _)⟩

theorem Rewritten.congr {m m' : ℕ → ℕ → ℕ} (h : Rewritten child width g mem mem' l t)
    (hpre : ∀ p ∈ tables child width mem l t, m p = mem p)
    (hpost : ∀ p ∈ tables child width mem l t, m' p = mem' p) : Rewritten child width g m m' l t := by
  have hrefs : SameRefs child width mem m l t := fun p hp i _ => by rw [hpre p (inner_subset hp)]
  have hrefs' : SameRefs child width mem mem' l t := fun p hp i _ => by rw [h.inner p hp]
  refine ⟨fun p hp => ?_, fun key hkey => ?_⟩
  · rw [hrefs.inner_eq] at hp
    rw [hpost p (inner_subset hp), h.inner p hp, hpre p (inner_subset hp)]
  · rw [value_congr hpre hkey, ← h.value key hkey]
    refine value_congr (fun p hp => hpost p ?_) hkey
    rwa [hrefs'.tables_eq] at hp

end Rewriting

def collect (child : ℕ → Option ℕ) (width : ℕ) (last : ℕ → List ℕ) (mem : ℕ → ℕ → ℕ) :
    ℕ → ℕ → List ℕ
  | 0, t => (List.range width).flatMap (fun i => last (mem t i)) ++ [t]
  | l + 1, t => (List.range width).flatMap
      (fun i => (child (mem t i)).elim [] (collect child width last mem l)) ++ [t]

section Collect

variable {last : ℕ → List ℕ}

theorem collect_congr (h : ∀ p ∈ tables child width mem l t, mem' p = mem p) :
    collect child width last mem' l t = collect child width last mem l t := by
  induction l generalizing t with
  | zero => rw [collect, collect, h t (Set.mem_singleton t)]
  | succ l ih =>
    rw [collect, collect, h t (.inl rfl)]
    congr 1
    refine flatMap_congr fun i hi => ?_
    cases hc : child (mem t i) with
    | none => rfl
    | some c => exact ih fun p hp => h p (.inr ⟨i, mem_range.mp hi, c, hc, hp⟩)

theorem mem_collect_of_tables (hp : p ∈ tables child width mem l t) :
    p ∈ collect child width last mem l t := by
  induction l generalizing t with
  | zero =>
    rw [Set.mem_singleton_iff.mp hp]
    exact mem_append_right _ (mem_singleton_self t)
  | succ l ih =>
    rcases hp with rfl | ⟨i, hi, c, hc, hp⟩
    · exact mem_append_right _ (mem_singleton_self p)
    · refine mem_append_left _ (mem_flatMap.mpr ⟨i, mem_range.mpr hi, ?_⟩)
      rw [hc]
      exact ih hp

theorem tables_of_mem_collect (hp : p ∈ collect child width (fun _ => []) mem l t) :
    p ∈ tables child width mem l t := by
  induction l generalizing t with
  | zero =>
    rw [collect, flatMap_eq_nil_iff.mpr fun _ _ => rfl, nil_append] at hp
    exact mem_singleton.mp hp
  | succ l ih =>
    rcases mem_append.mp hp with hp | hp
    · obtain ⟨i, hi, hp⟩ := mem_flatMap.mp hp
      cases hc : child (mem t i) with
      | none =>
        rw [hc] at hp
        cases hp
      | some c =>
        rw [hc] at hp
        exact .inr ⟨i, mem_range.mp hi, c, hc, ih hp⟩
    · exact .inl (mem_singleton.mp hp)

theorem Tree.nodup_collect (h : Tree child width mem l t) :
    (collect child width (fun _ => []) mem l t).Nodup := by
  induction l generalizing t with
  | zero =>
    rw [collect, flatMap_eq_nil_iff.mpr fun _ _ => rfl, nil_append]
    exact nodup_singleton t
  | succ l ih =>
    rw [collect]
    refine nodup_append.mpr ⟨nodup_flatMap.mpr ⟨fun i hi => ?_, ?_⟩, nodup_singleton t, ?_⟩
    · cases hc : child (mem t i) with
      | none => exact nodup_nil
      | some c => exact ih (h.1 i (mem_range.mp hi) c hc).1
    · refine nodup_range.imp_of_mem fun {i j} hi hj hne => ?_
      change Disjoint ((child (mem t i)).elim [] _) ((child (mem t j)).elim [] _)
      cases hc : child (mem t i) with
      | none => exact disjoint_nil_left _
      | some c =>
        cases hd : child (mem t j) with
        | none => exact disjoint_nil_right _
        | some d =>
          have hdisj := h.2 i (mem_range.mp hi) j (mem_range.mp hj) hne c d hc hd
          exact fun p hp hp' =>
            Set.disjoint_left.mp hdisj (tables_of_mem_collect hp) (tables_of_mem_collect hp')
    · intro p hp q hq heq
      obtain ⟨i, hi, hp⟩ := mem_flatMap.mp hp
      rw [heq, mem_singleton.mp hq] at hp
      cases hc : child (mem t i) with
      | none =>
        rw [hc] at hp
        cases hp
      | some c =>
        rw [hc] at hp
        exact (h.1 i (mem_range.mp hi) c hc).2 (tables_of_mem_collect hp)

theorem collect_of_blank (h : ∀ i < width, child (mem t i) = none) (hlast : ∀ i < width, last (mem t i) = [])
    (l : ℕ) : collect child width last mem l t = [t] := by
  cases l with
  | zero =>
    rw [collect, flatMap_eq_nil_iff.mpr fun i hi => hlast i (mem_range.mp hi), nil_append]
  | succ l =>
    rw [collect, flatMap_eq_nil_iff.mpr fun i hi => by rw [h i (mem_range.mp hi)]; rfl,
      nil_append]

theorem not_table_of_nodup (h : (collect child width last mem l t).Nodup) (hkey : ∀ k, key k < width)
    {q : ℕ} (hs : slot child mem key l t = some (p, i)) (hq : q ∈ last (mem p i)) :
    q ∈ collect child width last mem l t ∧ q ∉ tables child width mem l t := by
  induction l generalizing t with
  | zero =>
    obtain ⟨rfl, rfl⟩ := Prod.mk.inj (some.inj hs)
    have hin : q ∈ (range width).flatMap fun i => last (mem t i) :=
      mem_flatMap.mpr ⟨key 0, mem_range.mpr (hkey 0), hq⟩
    refine ⟨mem_append_left _ hin, fun heq => ?_⟩
    exact (nodup_append.mp h).2.2 q hin t (mem_singleton_self t) heq
  | succ l ih =>
    obtain ⟨c, hc, hs⟩ := bind_eq_some_iff.mp hs
    rw [collect] at h
    obtain ⟨hflat, -, hself⟩ := nodup_append.mp h
    obtain ⟨heach, hpair⟩ := nodup_flatMap.mp hflat
    have hi := mem_range.mpr (hkey (l + 1))
    have hcn := heach _ hi
    rw [hc] at hcn
    obtain ⟨hin, hout⟩ := ih hcn hs
    have hin' : q ∈ (range width).flatMap fun i => (child (mem t i)).elim []
        (collect child width last mem l) := by
      refine mem_flatMap.mpr ⟨_, hi, ?_⟩
      rw [hc]
      exact hin
    refine ⟨mem_append_left _ hin', ?_⟩
    rintro (rfl | ⟨j, hj, d, hd, hqd⟩)
    · exact hself q hin' q (mem_singleton_self q) rfl
    · by_cases hjk : j = key (l + 1)
      · rw [hjk, hc] at hd
        exact hout (some.inj hd ▸ hqd)
      · have : Std.Symm (onFun Disjoint fun i => (child (mem t i)).elim []
            (collect child width last mem l)) := ⟨fun _ _ h => h.symm⟩
        have hdis := hpair.forall (mem_range.mpr hj) hi hjk
        simp only [onFun, hd, hc, elim_some] at hdis
        exact disjoint_left.mp hdis (mem_collect_of_tables hqd) hin

theorem flatMap_perm_of_change {n : ℕ} {f f' : ℕ → List ℕ} {a b : List ℕ} (hi : i < n)
    (hother : ∀ j < n, j ≠ i → f' j = f j) (hself : (f' i ++ a).Perm (f i ++ b)) :
    ((range n).flatMap f' ++ a).Perm ((range n).flatMap f ++ b) := by
  have hrange : (range n).Perm (i :: (range n).erase i) :=
    perm_cons_erase (mem_range.mpr hi)
  have hrest : ((range n).erase i).flatMap f' = ((range n).erase i).flatMap f :=
    flatMap_congr fun j hj =>
      hother j (mem_range.mp (mem_of_mem_erase hj)) (nodup_range.mem_erase_iff.mp hj).1
  have hsplit : ∀ h : ℕ → List ℕ, ((range n).flatMap h).Perm
      (h i ++ ((range n).erase i).flatMap h) := fun h => hrange.flatMap_right h
  have hswap : ∀ x y z : List ℕ, ((x ++ y) ++ z).Perm ((x ++ z) ++ y) := fun x y z => by
    rw [append_assoc, append_assoc]
    exact perm_append_comm.append_left x
  calc Perm ((range n).flatMap f' ++ a) ((f' i ++ ((range n).erase i).flatMap f') ++ a) :=
        (hsplit f').append_right a
    Perm _ ((f' i ++ a) ++ ((range n).erase i).flatMap f') := hswap _ _ _
    Perm _ ((f i ++ b) ++ ((range n).erase i).flatMap f) := by
      rw [hrest]
      exact hself.append_right _
    Perm _ ((f i ++ ((range n).erase i).flatMap f) ++ b) := hswap _ _ _
    Perm _ ((range n).flatMap f ++ b) := (hsplit f).symm.append_right b

theorem collect_table_perm {f f' : ℕ → List ℕ} {a b : List ℕ} (hi : i < width)
    (hother : ∀ j < width, j ≠ i → f' j = f j) (hself : (f' i ++ a).Perm (f i ++ b)) :
    ((range width).flatMap f' ++ [t] ++ a).Perm ((range width).flatMap f ++ [t] ++ b) := by
  have hswap : ∀ x y : List ℕ, ((x ++ [t]) ++ y).Perm (x ++ y ++ [t]) := fun x y => by
    rw [append_assoc, append_assoc]
    exact perm_append_comm.append_left x
  exact ((hswap _ _).trans ((flatMap_perm_of_change hi hother hself).append_right [t])).trans
    (hswap _ _).symm

theorem Tree.collect_write (h : Tree child width mem l t) (hs : slot child mem key l t = some (p, i))
    (hkey : ∀ k, key k < width) {w : ℕ} (hmem : ∀ q j, mem' q j = if q = p ∧ j = i then w else mem q j) :
    (collect child width last mem' l t ++ last (value child mem key l t)).Perm
      (collect child width last mem l t ++ last w) := by
  induction l generalizing t with
  | zero =>
    cases hs
    refine collect_table_perm (hkey 0) (fun j _ hj => ?_) ?_
    · rw [hmem, if_neg fun hq => hj hq.2]
    · rw [hmem, if_pos ⟨rfl, rfl⟩]
      exact perm_append_comm
  | succ l ih =>
    obtain ⟨c, hc, hs⟩ := bind_eq_some_iff.mp hs
    have hin := (slot_mem hs hkey).1
    have hout : ∀ q, q ≠ p → mem' q = mem q := fun q hq => by
      funext j
      rw [hmem, if_neg fun hqp => hq hqp.1]
    have hself : mem' t = mem t := hout t fun heq => (h.1 _ (hkey _) c hc).2 (heq ▸ hin)
    rw [value_succ hc, collect, collect, hself]
    refine collect_table_perm (hkey (l + 1)) (fun j hj hjk => ?_) ?_
    · cases hd : child (mem t j) with
      | none => rfl
      | some d =>
        refine collect_congr fun q hq => hout q fun heq => ?_
        exact Set.disjoint_left.mp (h.2 j hj _ (hkey _) hjk d c hd hc) hq (heq ▸ hin)
    · rw [hc]
      exact ih (h.1 _ (hkey _) c hc).1 hs

def words (child : ℕ → Option ℕ) (width : ℕ) (mem : ℕ → ℕ → ℕ) : ℕ → ℕ → List ℕ
  | 0, t => (List.range width).map (mem t)
  | l + 1, t => (List.range width).flatMap fun i => (child (mem t i)).elim [] (words child width mem l)

theorem mem_words {w : ℕ} : w ∈ words child width mem l t ↔
    ∃ key : ℕ → ℕ, (∀ k, key k < width) ∧ ∃ q i, slot child mem key l t = some (q, i) ∧ mem q i = w := by
  induction l generalizing t with
  | zero =>
    rw [words, List.mem_map]
    constructor
    · rintro ⟨i, hi, rfl⟩
      exact ⟨fun _ => i, fun _ => List.mem_range.mp hi, t, i, rfl, rfl⟩
    · rintro ⟨key, hkey, q, i, hs, rfl⟩
      cases hs
      exact ⟨key 0, List.mem_range.mpr (hkey 0), rfl⟩
  | succ l ih =>
    rw [words, List.mem_flatMap]
    constructor
    · rintro ⟨i, hi, hw⟩
      cases hc : child (mem t i) with
      | none =>
        rw [hc] at hw
        cases hw
      | some c =>
        rw [hc] at hw
        obtain ⟨key, hkey, q, j, hs, hq⟩ := ih.mp hw
        refine ⟨fun k => if k = l + 1 then i else key k, fun k => ?_, q, j, (slot_extend hc key).trans hs, hq⟩
        dsimp only
        split
        · exact List.mem_range.mp hi
        · exact hkey k
    · rintro ⟨key, hkey, q, i, hs, hq⟩
      obtain ⟨c, hc, hs⟩ := Option.bind_eq_some_iff.mp hs
      refine ⟨key (l + 1), List.mem_range.mpr (hkey _), ?_⟩
      rw [hc]
      exact ih.mpr ⟨key, hkey, q, i, hs, hq⟩

theorem collect_perm : (collect child width last mem l t).Perm
    ((words child width mem l t).flatMap last ++ collect child width (fun _ => []) mem l t) := by
  induction l generalizing t with
  | zero =>
    rw [collect, collect, words, flatMap_map, flatMap_eq_nil_iff.mpr fun _ _ => rfl, nil_append]
  | succ l ih =>
    have hsplit : ∀ is : List ℕ, (is.flatMap fun i => (child (mem t i)).elim [] (collect child width last mem l)).Perm
        ((is.flatMap fun i => (child (mem t i)).elim [] (words child width mem l)).flatMap last ++
          is.flatMap fun i => (child (mem t i)).elim [] (collect child width (fun _ => []) mem l)) := by
      intro is
      induction is with
      | nil => exact Perm.refl _
      | cons i is ihs =>
        simp only [flatMap_cons, flatMap_append]
        have hhead : ((child (mem t i)).elim [] (collect child width last mem l)).Perm
            (((child (mem t i)).elim [] (words child width mem l)).flatMap last ++
              (child (mem t i)).elim [] (collect child width (fun _ => []) mem l)) := by
          cases child (mem t i) with
          | none => exact Perm.refl _
          | some c => exact ih
        refine (hhead.append ihs).trans ?_
        rw [perm_iff_count]
        intro a
        simp only [count_append]
        omega
    rw [collect, collect, words, ← append_assoc]
    exact (hsplit _).append_right _

end Collect

end RvMiniOs.Lib.TableTree
