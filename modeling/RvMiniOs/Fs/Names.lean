import RvMiniOs.Fs.Lookups

/-!
# Distinct names

Two names are the same for `strncmp` if they agree up to a terminator. A directory
whose names are distinct keeps them so when an entry is added under a name that
none of its entries has.
-/

namespace RvMiniOs.Fs

open Lib

theorem strncmp_comm {s1 s2 : Bytes} {n : ℕ} (h : strncmp s1 s2 n = 0) : strncmp s2 s1 n = 0 := by
  rw [strncmp_eq_zero_iff] at h ⊢
  intro k hk hpre
  -- the names agree up to here, so the other one has no terminator either
  have hsame : ∀ j < k, s1 j ≠ 0 := by
    intro j
    induction j using Nat.strong_induction_on with
    | _ j ih =>
      intro hj
      rw [h j (by omega) fun i hi => ih i hi (by omega)]
      exact hpre j hj
  exact (h k hk hsame).symm

theorem strncmp_congr_left {s1 s1' s2 : Bytes} {n L : ℕ} (heq : ∀ k ≤ L, s1 k = s1' k)
    (hnul : s1 L = 0) : strncmp s1 s2 n = 0 ↔ strncmp s1' s2 n = 0 := by
  have hone : ∀ {a b : Bytes}, (∀ k ≤ L, a k = b k) → a L = 0 →
      strncmp a s2 n = 0 → strncmp b s2 n = 0 := by
    intro a b hab ha h
    rw [strncmp_eq_zero_iff] at h ⊢
    intro k hk hpre
    have hle : k ≤ L := by
      by_contra hgt
      exact hpre L (by omega) ((hab L le_rfl).symm.trans ha)
    rw [← hab k hle]
    exact h k hk fun j hj => by rw [hab j (by omega)]; exact hpre j hj
  exact ⟨hone heq hnul, hone (fun k hk => (heq k hk).symm) ((heq L le_rfl).symm.trans hnul)⟩

/-- The names `a` and `b` are the same to `dir_lookup`. -/
def SameName (a b : List UInt8) : Prop := strncmp (listBytes a) (listBytes b) maxname = 0

instance (a b : List UInt8) : Decidable (SameName a b) := inferInstanceAs (Decidable (_ = _))

theorem SameName.symm {a b : List UInt8} (h : SameName a b) : SameName b a := strncmp_comm h

theorem strncmp_newDirent {stack s2 : Bytes} {name : List UInt8} {inum : ℕ}
    (hname : name.length < maxname) : strncmp (newDirent stack name inum) s2 maxname = 0 ↔
    strncmp (listBytes name) s2 maxname = 0 := by
  refine strncmp_congr_left (L := name.length) (fun k hk => ?_) ?_
  · rw [newDirent, if_pos (by omega), if_pos hk]
  · rw [newDirent, if_pos hname, if_pos le_rfl]
    simp [listBytes]

def DistinctNames (s : Store) (d : Dinode) : Prop :=
  ∀ e e', 20 * e < d.size.toNat → 20 * e' < d.size.toNat → entryInum s d e ≠ 0 →
    entryInum s d e' ≠ 0 → strncmp (dirEntry s d e) (dirEntry s d e') maxname = 0 → e = e'

section Entries

variable {s s' : Store} {d d' : Dinode} {name : List UInt8} {last : Bytes}

theorem entryInum_congr {e e' : ℕ} (h : ∀ k < 20, dirEntry s' d' e' k = dirEntry s d e k) :
    entryInum s' d' e' = entryInum s d e := by
  unfold entryInum
  rw [getU32_congr fun k hk => h _ (by simp only [maxname]; omega)]

theorem named_congr {e e' : ℕ} (h : ∀ k < 20, dirEntry s' d' e' k = dirEntry s d e k) :
    Named s' d' name e' ↔ Named s d name e := by
  unfold Named
  rw [entryInum_congr h, strncmp_congr (fun k hk => h k (by simp only [maxname] at hk; omega))
    fun _ _ => rfl]

theorem strncmp_entries {e e' : ℕ} (h : ∀ k < 20, dirEntry s' d' e k = dirEntry s d e k)
    (h' : ∀ k < 20, dirEntry s' d' e' k = dirEntry s d e' k) :
    strncmp (dirEntry s' d' e) (dirEntry s' d' e') maxname =
      strncmp (dirEntry s d e) (dirEntry s d e') maxname :=
  strncmp_congr (fun k hk => h k (by simp only [maxname] at hk; omega))
    fun k hk => h' k (by simp only [maxname] at hk; omega)

theorem SameDir.entry (h : SameDir s d s' d') (hd : sizeofDirent ∣ d.size.toNat) {e : ℕ}
    (he : 20 * e < d.size.toNat) {k : ℕ} (hk : k < 20) : dirEntry s' d' e k = dirEntry s d e k := by
  obtain ⟨q, hq⟩ := hd
  refine h.byte _ ?_
  simp only [sizeofDirent] at hq ⊢
  omega

theorem SameDir.named (h : SameDir s d s' d') (hd : sizeofDirent ∣ d.size.toNat) {e : ℕ}
    (he : 20 * e < d.size.toNat) : Named s' d' name e ↔ Named s d name e :=
  named_congr fun _ hk => h.entry hd he hk

theorem OneMore.old (h : OneMore s d s' d' last) (hd : sizeofDirent ∣ d.size.toNat) {e : ℕ}
    (he : 20 * e < d.size.toNat) {k : ℕ} (hk : k < 20) : dirEntry s' d' e k = dirEntry s d e k := by
  obtain ⟨q, hq⟩ := hd
  unfold dirEntry
  simp only [sizeofDirent] at hq ⊢
  rw [h.byte _ (by omega), splice_outside (by omega)]

theorem OneMore.new (h : OneMore s d s' d' last) {e : ℕ} (he : 20 * e = d.size.toNat) {k : ℕ}
    (hk : k < 20) : dirEntry s' d' e k = last k := by
  unfold dirEntry
  simp only [sizeofDirent]
  rw [h.byte _ (by omega), splice_inside (by omega) (by omega)]
  congr 1
  omega

theorem OneMore.cases (h : OneMore s d s' d' last) (hd : sizeofDirent ∣ d.size.toNat) {e : ℕ}
    (he : 20 * e < d'.size.toNat) : 20 * e < d.size.toNat ∨ 20 * e = d.size.toNat := by
  obtain ⟨q, hq⟩ := hd
  have hsize := h.size
  simp only [sizeofDirent] at hq
  omega

theorem OneMore.named_new {stack : Bytes} {name' : List UInt8} {inum : ℕ}
    (h : OneMore s d s' d' (newDirent stack name' inum)) (hname : name'.length < maxname) {e : ℕ}
    (he : 20 * e = d.size.toNat) (hn : Named s' d' name e) : SameName name' name := by
  have hcmp : strncmp (newDirent stack name' inum) (listBytes name) maxname = 0 := by
    rw [← hn.2]
    exact strncmp_congr (fun k hk => (h.new he (by simp only [maxname] at hk; omega)).symm)
      fun _ _ => rfl
  exact (strncmp_newDirent hname).mp hcmp

theorem DistinctNames.same (h : DistinctNames s d) (hsame : SameDir s d s' d')
    (hd : sizeofDirent ∣ d.size.toNat) : DistinctNames s' d' := by
  intro e e' he he' h0 h0' hcmp
  rw [hsame.size] at he he'
  have hent := fun k hk => hsame.entry hd he (k := k) hk
  have hent' := fun k hk => hsame.entry hd he' (k := k) hk
  rw [entryInum_congr hent] at h0
  rw [entryInum_congr hent'] at h0'
  exact h e e' he he' h0 h0' ((strncmp_entries hent hent').symm.trans hcmp)

theorem DistinctNames.more (h : DistinctNames s d) {stack : Bytes} {inum : ℕ}
    (hmore : OneMore s d s' d' (newDirent stack name inum)) (hname : name.length < maxname)
    (hd : sizeofDirent ∣ d.size.toNat)
    (hnone : ∀ e, 20 * e < d.size.toNat → ¬ Named s d name e) : DistinctNames s' d' := by
  -- an old entry does not have the name of the last one
  have hmixed : ∀ e e', 20 * e < d.size.toNat → 20 * e' = d.size.toNat →
      entryInum s' d' e ≠ 0 → strncmp (dirEntry s' d' e') (dirEntry s' d' e) maxname ≠ 0 := by
    intro e e' he he' h0 hcmp
    have hent := fun k hk => hmore.old hd he (k := k) hk
    have hnew : strncmp (newDirent stack name inum) (dirEntry s d e) maxname = 0 := by
      rw [← hcmp]
      exact strncmp_congr (fun k hk => (hmore.new he' (by simp only [maxname] at hk; omega)).symm)
        fun k hk => (hent k (by simp only [maxname] at hk; omega)).symm
    exact hnone e he ⟨entryInum_congr hent ▸ h0, strncmp_comm ((strncmp_newDirent hname).mp hnew)⟩
  intro e e' he he' h0 h0' hcmp
  rcases hmore.cases hd he with hold | hlast <;> rcases hmore.cases hd he' with hold' | hlast'
  · have hent := fun k hk => hmore.old hd hold (k := k) hk
    have hent' := fun k hk => hmore.old hd hold' (k := k) hk
    exact h e e' hold hold' (entryInum_congr hent ▸ h0) (entryInum_congr hent' ▸ h0')
      ((strncmp_entries hent hent').symm.trans hcmp)
  · exact absurd (strncmp_comm hcmp) (hmixed e e' hold hlast' h0)
  · exact absurd hcmp (hmixed e' e hold' hlast h0')
  · omega

end Entries

def UniqueNames (fs : Filesys) : Prop :=
  ∀ ino d, Stored fs ino d → d.type = .directory → DistinctNames fs.store d

end RvMiniOs.Fs
