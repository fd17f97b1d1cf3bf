import RvMiniOs.Fs.Names
import RvMiniOs.Lib.Runs

/-!
# Tasks that create files at the same time

`fs_inode_from_path` run by any number of tasks on the file system itself.
`dir_lookup` and `dir_add_entry` hold the lock of the directory, `inode_create`
works on an inode that nobody else can see: each of the three is a step, and so is
what a call does between them. The position of `strtok` is shared by all calls. A
path that does not fit in `kpath` is not modelled, and neither is a read through a
position or of a token that lies in the stack of a call that has returned: such a
step is `none`.
-/

namespace RvMiniOs.Fs.Creators

open Lib List Option

inductive Phase where
  | idle
  | looking (curr : Fin inodeCacheSize) (token : Token) (next : Option Token)
  | creating (curr : Fin inodeCacheSize) (token : Token) (next : Option Token)
  | inserting (curr : Fin inodeCacheSize) (token : Token) (next : Option Token)
      (k : Fin inodeCacheSize)
  | leaving (curr : Fin inodeCacheSize) (res : Except ℤ (Fin inodeCacheSize))
      (next : Option Token)
  | done (res : Except ℤ (Fin inodeCacheSize))
  | released
  deriving DecidableEq

def Phase.returned : Phase → Bool
  | .done _ | .released => true
  | _ => false

structure Call where
  path : List UInt8
  flags : ℕ
  leafType : InodeType
  phase : Phase

structure State where
  fs : Filesys
  holder : Option (List UInt8)
  owner : ℕ
  call : ℕ → Call
  calls : ℕ

namespace State

def setPhase (s : State) (c : ℕ) (phase : Phase) : State :=
  { s with call := Function.update s.call c { s.call c with phase } }

def strtokNull (s : State) : Option (Option Token × State) :=
  if s.holder.isSome ∧ (s.call s.owner).phase.returned then none
  else some ((strtok s.holder).1.map (Token.mk s.owner), { s with holder := (strtok s.holder).2 })

def enterLoop (s : State) (c : ℕ) (curr : Fin inodeCacheSize) (token : Token) : Option State :=
  s.strtokNull.map fun (next, s) => s.setPhase c (.looking curr token next)

def begin (s : State) (path : List UInt8) (flags : ℕ) (leafType : InodeType) : State :=
  { s with
    calls := s.calls + 1
    call := Function.update s.call s.calls ⟨path, flags, leafType, .idle⟩ }

def denied (s : State) (deny : List Bool) : State :=
  { s with fs := { s.fs with store := { s.fs.store with deny } } }

end State

inductive Action where
  | start (path : List UInt8) (flags : ℕ) (leafType : InodeType)
  | lookup (c : ℕ) (stack : Bytes)
  | create (c : ℕ)
  | insert (c : ℕ) (stack : Bytes) (deny : List Bool)
  | leave (c : ℕ)
  | release (c : ℕ)

def start (s : State) (path : List UInt8) (flags : ℕ) (leafType : InodeType) : Option State :=
  let c := s.calls
  let s := s.begin path flags leafType
  if path.length < 1 then some (s.setPhase c (.done (.error (-einval))))
  else if path.head? ≠ some 47 then some (s.setPhase c (.done (.error (-einval))))
  else if fsMaxPath ≤ path.length then none
  else
    let first := strtok (some path)
    let s := { s with holder := first.2, owner := c }
    (inodeGet s.fs (s.fs.islots s.fs.root).ino).bind fun (curr, fs) =>
      let s := { s with fs }
      match first.1 with
      | none => some (s.setPhase c (.done (.ok curr)))
      | some token => s.enterLoop c curr ⟨c, token⟩

def afterLookup (flags : ℕ) (curr : Fin inodeCacheSize) (token : Token)
    (next : Option Token) : Except ℤ (Fin inodeCacheSize) → Phase
  | .ok k => .leaving curr (.ok k) next
  | .error e =>
    if e = -enoent ∧ flags &&& oCreat ≠ 0 then .creating curr token next
    else .leaving curr (.error e) next

def lookup (s : State) (c : ℕ) (stack : Bytes) : Option State :=
  match (s.call c).phase with
  | .looking curr token next =>
    if (s.call token.owner).phase.returned then none
    else (dirLookup stack s.fs curr token.name).map fun (res, fs) =>
      { s with fs }.setPhase c (afterLookup (s.call c).flags curr token next res)
  | _ => none

def create (s : State) (c : ℕ) : Option State :=
  match (s.call c).phase with
  | .creating curr token next =>
    (inodeCreate s.fs (if next.isSome then .directory else (s.call c).leafType)).map fun (res, fs) =>
      { s with fs }.setPhase c
        (match res with
          | .error e => .leaving curr (.error e) next
          | .ok k => .inserting curr token next k)
  | _ => none

def insert (s : State) (c : ℕ) (stack : Bytes) : Option State :=
  match (s.call c).phase with
  | .inserting curr token next k =>
    if (s.call token.owner).phase.returned then none
    else (dirAddEntry stack s.fs curr token.name (s.fs.islots k).ino).map fun (res, fs) =>
      { s with fs }.setPhase c (.leaving curr (if res < 0 then .error res else .ok k) next)
  | _ => none

def leave (s : State) (c : ℕ) : Option State :=
  match (s.call c).phase with
  | .leaving curr res next =>
    (inodePut s.fs curr).bind fun fs =>
      let s := { s with fs }
      match res, next with
      | .error e, _ => some (s.setPhase c (.done (.error e)))
      | .ok k, none => some (s.setPhase c (.done (.ok k)))
      | .ok k, some token => s.enterLoop c k token
  | _ => none

def release (s : State) (c : ℕ) : Option State :=
  match (s.call c).phase with
  | .done (.ok k) => (inodePut s.fs k).map fun fs => { s with fs }.setPhase c .released
  | _ => none

def step (s : State) : Action → Option State
  | .start path flags leafType => start s path flags leafType
  | .lookup c stack => lookup s c stack
  | .create c => create s c
  | .insert c stack deny => insert (s.denied deny) c stack
  | .leave c => leave s c
  | .release c => release s c

def initial (fs : Filesys) : State :=
  ⟨fs, none, 0, fun _ => ⟨[], 0, .file, .idle⟩, 0⟩

def Phase.missing : Phase → Option (Fin inodeCacheSize × List UInt8)
  | .creating curr token _ | .inserting curr token _ _ => some (curr, token.name)
  | _ => none

def Phase.pending : Phase → ℕ
  | .inserting .. => 1
  | _ => 0

def Unclaimed (s : State) (c : ℕ) (curr : Fin inodeCacheSize) (token : List UInt8) : Prop :=
  ∀ c' < s.calls, c' ≠ c → ∀ w ∈ (s.call c').phase.missing, w.1 = curr → ¬ SameName w.2 token

instance (s : State) (c : ℕ) (curr : Fin inodeCacheSize) (token : List UInt8) :
    Decidable (Unclaimed s c curr token) :=
  inferInstanceAs (Decidable (∀ c' < s.calls, c' ≠ c → ∀ w ∈ (s.call c').phase.missing, _))

instance (s : Store) (d : Dinode) (n : ℕ) : Decidable (Available s d n) :=
  have : Decidable (∃ b, s.sb.dataStart ≤ b ∧ b < s.sb.nbBlk ∧ dataBit s b = false) :=
    decidable_of_iff (∃ b < s.sb.nbBlk, s.sb.dataStart ≤ b ∧ dataBit s b = false)
      ⟨fun ⟨b, hlt, hle, hbit⟩ => ⟨b, hle, hlt, hbit⟩, fun ⟨b, hle, hlt, hbit⟩ => ⟨b, hlt, hle, hbit⟩⟩
  inferInstanceAs (Decidable ((_ ∧ _) ∨ _))

instance (s : Store) (d : Dinode) : Decidable (EntryFits s d) :=
  inferInstanceAs (Decidable (_ ∨ _))

def Settled (s : State) : Action → Prop
  | .lookup c _ =>
    match (s.call c).phase with
    | .looking curr token _ => (s.call c).flags &&& oCreat ≠ 0 → Unclaimed s c curr token.name
    | _ => True
  | .insert c _ deny =>
    match (s.call c).phase with
    | .inserting curr .. => EntryFits { s.fs.store with deny } (effective s.fs curr)
    | _ => True
  | _ => True

instance (s : State) (a : Action) : Decidable (Settled s a) := by
  unfold Settled
  split
  · split <;> infer_instance
  · split <;> infer_instance
  · infer_instance

def Phase.held : Phase → List (Fin inodeCacheSize)
  | .idle | .done (.error _) | .released => []
  | .looking curr _ _ | .creating curr _ _ | .leaving curr (.error _) _ => [curr]
  | .inserting curr _ _ k | .leaving curr (.ok k) _ => [curr, k]
  | .done (.ok k) => [k]

def total (f : Phase → ℕ) (s : State) : ℕ := ∑ c ∈ Finset.range s.calls, f (s.call c).phase

def refs (s : State) : Fin inodeCacheSize → ℕ := fun k => total (fun p => p.held.count k) s

section Totals

variable {s : State} {c : ℕ} {f : Phase → ℕ}

theorem total_setPhase (hc : c < s.calls) (p : Phase) :
    total f (s.setPhase c p) + f (s.call c).phase = total f s + f p := by
  have hmem : c ∈ Finset.range s.calls := Finset.mem_range.mpr hc
  have hrest : ∑ c' ∈ (Finset.range s.calls).erase c, f ((s.setPhase c p).call c').phase =
      ∑ c' ∈ (Finset.range s.calls).erase c, f (s.call c').phase := by
    refine Finset.sum_congr rfl fun c' hc' => ?_
    simp [State.setPhase, Finset.ne_of_mem_erase hc']
  have hself : f ((s.setPhase c p).call c).phase = f p := by simp [State.setPhase]
  have hnew := Finset.add_sum_erase (Finset.range s.calls)
    (fun c' => f ((s.setPhase c p).call c').phase) hmem
  have hold := Finset.add_sum_erase (Finset.range s.calls) (fun c' => f (s.call c').phase) hmem
  rw [hrest, hself] at hnew
  change ∑ c' ∈ Finset.range s.calls, f ((s.setPhase c p).call c').phase + _ =
    ∑ c' ∈ Finset.range s.calls, f (s.call c').phase + _
  omega

theorem total_begin (hf : f .idle = 0) (path : List UInt8) (flags : ℕ) (leafType : InodeType) :
    total f (s.begin path flags leafType) = total f s := by
  unfold total
  change ∑ c ∈ Finset.range (s.calls + 1), _ = _
  rw [Finset.sum_range_succ]
  have hlast : f ((s.begin path flags leafType).call s.calls).phase = 0 := by
    simp [State.begin, hf]
  rw [hlast, add_zero]
  refine Finset.sum_congr rfl fun c hc => ?_
  simp [State.begin, (Finset.mem_range.mp hc).ne]

theorem refs_setPhase (hc : c < s.calls) (p : Phase) (k : Fin inodeCacheSize) :
    refs (s.setPhase c p) k + (s.call c).phase.held.count k = refs s k + p.held.count k :=
  total_setPhase hc p

theorem refs_pos (hc : c < s.calls) {k : Fin inodeCacheSize} (hk : k ∈ (s.call c).phase.held) :
    0 < refs s k :=
  (count_pos_iff.mpr hk).trans_le
    (Finset.single_le_sum (f := fun c => (s.call c).phase.held.count k) (fun _ _ => Nat.zero_le _)
      (Finset.mem_range.mpr hc))

end Totals

def Misses (fs : Filesys) (curr : Fin inodeCacheSize) (token : List UInt8) : Prop :=
  (effective fs curr).type = .directory ∧
    ∀ e, 20 * e < (effective fs curr).size.toNat → ¬ Named fs.store (effective fs curr) token e

structure Inv (s : State) : Prop where
  dirs : DirInv s.fs
  names : UniqueNames s.fs
  held : Held s.fs (refs s)
  fresh : ∀ c, s.calls ≤ c → (s.call c).phase = .idle
  room : ∀ ino d, Stored s.fs ino d → d.type = .directory →
    d.size.toNat + 20 * total Phase.pending s ≤ 20 * allocated s.fs.store
  missing : ∀ c, ∀ w ∈ (s.call c).phase.missing, Misses s.fs w.1 w.2
  apart : ∀ c c', c ≠ c' → ∀ w ∈ (s.call c).phase.missing, ∀ w' ∈ (s.call c').phase.missing,
    w'.1 = w.1 → ¬ SameName w'.2 w.2

theorem Phase.held_of_missing {p : Phase} {w : Fin inodeCacheSize × List UInt8}
    (h : w ∈ p.missing) : w.1 ∈ p.held := by
  cases p <;> simp_all [Phase.missing, Phase.held]
  all_goals subst h; simp

section Steps

variable {s s' : State} {c : ℕ} {p : Phase} {fs fs' : Filesys}

theorem enterLoop_eq {curr : Fin inodeCacheSize} {token : Token}
    (h : s.enterLoop c curr token = some s') :
    s' = { s with holder := (strtok s.holder).2 }.setPhase c
      (.looking curr token ((strtok s.holder).1.map (Token.mk s.owner))) := by
  simp only [State.enterLoop, map_eq_some_iff, Prod.exists] at h
  obtain ⟨next, s₁, hnull, hs'⟩ := h
  unfold State.strtokNull at hnull
  split at hnull <;> cases hnull
  exact hs'.symm

theorem Misses.stays {r : Fin inodeCacheSize → ℕ} {curr : Fin inodeCacheSize} {token : List UInt8}
    (h : Misses fs curr token) (hstore : fs'.store = fs.store) (hs : Stays fs fs' r)
    (hr : 0 < r curr) : Misses fs' curr token := by
  unfold Misses
  rw [(hs curr hr).2, hstore]
  exact h

namespace Inv

theorem lt_calls (h : Inv s) (hc : (s.call c).phase ≠ .idle) : c < s.calls := by
  by_contra hge
  exact hc (h.fresh c (not_lt.mp hge))

theorem holder (h : Inv s) (holder : Option (List UInt8)) (owner : ℕ) :
    Inv { s with holder, owner } :=
  { h with }

theorem move (h : Inv s) (hc : c < s.calls) (hdirs : DirInv fs') (hnames : UniqueNames fs')
    (hheld : Held fs' (refs (s.setPhase c p)))
    (hroom : ∀ ino d, Stored fs' ino d → d.type = .directory →
      d.size.toNat + 20 * total Phase.pending (s.setPhase c p) ≤ 20 * allocated fs'.store)
    (hkeep : ∀ c' ≠ c, ∀ w ∈ (s.call c').phase.missing, Misses fs' w.1 w.2)
    (hown : ∀ w ∈ p.missing, Misses fs' w.1 w.2 ∧ (w ∈ (s.call c).phase.missing ∨ Unclaimed s c w.1 w.2)) :
    Inv ({ s with fs := fs' }.setPhase c p) := by
  have hother : ∀ c' ≠ c, ({ s with fs := fs' }.setPhase c p).call c' = s.call c' := fun c' hne => by
    simp [State.setPhase, hne]
  have hself : (({ s with fs := fs' }.setPhase c p).call c).phase = p := by simp [State.setPhase]
  -- the call that moves and another one
  have happart : ∀ c' ≠ c, ∀ w ∈ p.missing, ∀ w' ∈ (s.call c').phase.missing, w'.1 = w.1 →
      ¬ SameName w'.2 w.2 := by
    intro c' hne w hw w' hw' heq
    rcases (hown w hw).2 with hold | hclaim
    · exact h.apart c c' hne.symm w hold w' hw' heq
    · have hlt : c' < s.calls := h.lt_calls fun hidle => by
        rw [hidle] at hw'
        cases hw'
      exact hclaim c' hlt hne w' hw' heq
  refine ⟨hdirs, hnames, hheld, fun c' hge => ?_, hroom, fun c' w hw => ?_,
    fun c₁ c₂ hne w hw w' hw' heq => ?_⟩
  · have hne : c' ≠ c := by
      rintro rfl
      exact absurd hge (not_le.mpr hc)
    rw [hother c' hne]
    exact h.fresh c' hge
  · by_cases hcc : c' = c
    · rw [hcc, hself] at hw
      exact (hown w hw).1
    · rw [hother c' hcc] at hw
      exact hkeep c' hcc w hw
  · by_cases h₁ : c₁ = c <;> by_cases h₂ : c₂ = c
    · exact absurd (h₁.trans h₂.symm) hne
    · rw [h₁, hself] at hw
      rw [hother c₂ h₂] at hw'
      exact happart c₂ h₂ w hw w' hw' heq
    · rw [h₂, hself] at hw'
      rw [hother c₁ h₁] at hw
      exact fun hsame => happart c₁ h₁ w' hw' w hw heq.symm hsame.symm
    · rw [hother c₁ h₁] at hw
      rw [hother c₂ h₂] at hw'
      exact h.apart c₁ c₂ hne w hw w' hw' heq

theorem shrink (h : Inv s) (hc : c < s.calls) (hdirs : DirInv fs') (hshrink : Shrinks s.fs fs')
    (hheld : Held fs' (refs (s.setPhase c p))) {r : Fin inodeCacheSize → ℕ} (hstay : Stays s.fs fs' r)
    (hr : ∀ k, refs (s.setPhase c p) k ≤ r k ∨ refs s k ≤ r k)
    (hpending : p.pending = (s.call c).phase.pending)
    (hown : ∀ w ∈ p.missing, Misses fs' w.1 w.2 ∧ (w ∈ (s.call c).phase.missing ∨ Unclaimed s c w.1 w.2)) :
    Inv ({ s with fs := fs' }.setPhase c p) := by
  refine h.move hc hdirs (fun ino d hd hdir => ?_) hheld (fun ino d hd hdir => ?_)
    (fun c' hne w hw => ?_) hown
  · rw [hshrink.store]
    exact h.names ino d (hshrink.stored ino d hd) hdir
  · have hsame := total_setPhase (f := Phase.pending) hc p
    rw [hpending] at hsame
    rw [hshrink.store, Nat.add_right_cancel hsame]
    exact h.room ino d (hshrink.stored ino d hd) hdir
  · have hmem := Phase.held_of_missing hw
    have hlt : c' < s.calls := h.lt_calls fun hidle => by
      rw [hidle] at hw
      cases hw
    refine (h.missing c' w hw).stays hshrink.store hstay ?_
    rcases hr w.1 with hle | hle
    · have hcall : (s.setPhase c p).call c' = s.call c' := by simp [State.setPhase, hne]
      exact (refs_pos (s := s.setPhase c p) hlt (by rw [hcall]; exact hmem)).trans_le hle
    · exact (refs_pos hlt hmem).trans_le hle

theorem setPhase (h : Inv s) (hc : c < s.calls) (hle : ∀ k, p.held.count k ≤ (s.call c).phase.held.count k)
    (hpending : p.pending = (s.call c).phase.pending) (hown : p.missing = none) : Inv (s.setPhase c p) := by
  refine h.shrink hc h.dirs ⟨rfl, rfl, fun _ _ hd => hd⟩ (h.held.mono fun k => ?_)
    (Stays.refl s.fs (refs s)) (fun k => .inr le_rfl) hpending (by simp [hown])
  have hsum := refs_setPhase hc p k
  have hcount := hle k
  omega

theorem begin (h : Inv s) (path : List UInt8) (flags : ℕ) (leafType : InodeType) :
    Inv (s.begin path flags leafType) := by
  have hrefs : refs (s.begin path flags leafType) = refs s :=
    funext fun k => total_begin (f := fun p => p.held.count k) rfl path flags leafType
  have hcall : ∀ c w, w ∈ ((s.begin path flags leafType).call c).phase.missing →
      w ∈ (s.call c).phase.missing := by
    intro c w hw
    by_cases hc : c = s.calls
    · rw [hc] at hw
      simp [State.begin, Phase.missing] at hw
    · simpa [State.begin, hc] using hw
  refine ⟨h.dirs, h.names, by rw [hrefs]; exact h.held, fun c hge => ?_, ?_,
    fun c w hw => h.missing c w (hcall c w hw),
    fun c c' hne w hw w' hw' => h.apart c c' hne w (hcall c w hw) w' (hcall c' w' hw')⟩
  · have hle : s.calls + 1 ≤ c := hge
    have hne : c ≠ s.calls := by omega
    simpa [State.begin, hne] using h.fresh c (by omega)
  · rw [total_begin (f := Phase.pending) rfl]
    exact h.room

end Inv

theorem refs_bump {q : Phase} (hc : c < s.calls) (hold : (s.call c).phase = q)
    {k : Fin inodeCacheSize} (hnew : ∀ j, p.held.count j = q.held.count j + [k].count j) :
    refs (s.setPhase c p) = bump (refs s) k := by
  funext j
  have hsum := refs_setPhase hc p j
  rw [hold, hnew j] at hsum
  rw [bump, Function.update_apply]
  split
  · rename_i hj
    subst hj
    simp at hsum
    omega
  · rename_i hj
    rw [count_singleton, if_neg (by simpa using fun h => hj h.symm)] at hsum
    omega

theorem start_inv (h : Inv s) {path : List UInt8} {flags : ℕ} {leafType : InodeType}
    (hstep : start s path flags leafType = some s') : Inv s' := by
  have hb := h.begin path flags leafType
  have hlt : s.calls < (s.begin path flags leafType).calls := Nat.lt_succ_self _
  have hidle : ((s.begin path flags leafType).call s.calls).phase = .idle := by simp [State.begin]
  have hend : ∀ e, Inv ((s.begin path flags leafType).setPhase s.calls (.done (.error e))) :=
    fun e => hb.setPhase hlt (fun k => by simp [Phase.held]) (by rw [hidle]; rfl) rfl
  unfold start at hstep
  dsimp only at hstep
  split_ifs at hstep
  · cases hstep
    exact hend _
  · cases hstep
    exact hend _
  · obtain ⟨⟨curr, fs'⟩, hget, hstep⟩ := bind_eq_some_iff.mp hstep
    have hroot := hb.dirs.rooted
    obtain ⟨hdirs, hshrink⟩ := hb.dirs.get hroot (hb.dirs.cached _ hroot) (hb.dirs.disk_linked _ hroot)
      hget
    obtain ⟨hstay, hheld, -⟩ := hb.held.get hroot hget
    -- the call holds the root, whatever it does next
    have hroot' : ∀ p : Phase, p.held = [curr] → p.pending = 0 → p.missing = none →
        Inv ({ s.begin path flags leafType with fs := fs' }.setPhase s.calls p) := by
      intro p hp hpending hmissing
      have hrefs := refs_bump (p := p) hlt hidle (k := curr) fun j => by rw [hp]; simp [Phase.held]
      exact hb.shrink hlt hdirs hshrink (by rw [hrefs]; exact hheld) hstay (fun k => .inr le_rfl)
        (by rw [hidle, hpending]; rfl) (by simp [hmissing])
    dsimp only at hstep
    split at hstep
    · cases hstep
      exact (hroot' (.done (.ok curr)) rfl rfl rfl).holder _ _
    · rw [enterLoop_eq hstep]
      exact (hroot' (.looking curr _ _) rfl rfl rfl).holder _ _

theorem lookup_inv (h : Inv s) {stack : Bytes} (hset : Settled s (.lookup c stack))
    (hstep : lookup s c stack = some s') : Inv s' := by
  unfold lookup at hstep
  split at hstep
  case h_2 => cases hstep
  case h_1 curr token next hphase =>
    have hc : c < s.calls := h.lt_calls (by simp [hphase])
    split_ifs at hstep
    obtain ⟨⟨res, fs'⟩, hlookup, rfl⟩ := map_eq_some_iff.mp hstep
    obtain ⟨hdirs, hshrink, hstay, hlooked⟩ := h.dirs.lookup h.held
      (refs_pos hc (by rw [hphase]; simp [Phase.held])) hlookup
    simp only [Settled, hphase] at hset
    have hsame : ∀ p : Phase, p.held = [curr] → refs (s.setPhase c p) = refs s := by
      intro p hp
      funext k
      have hsum := refs_setPhase hc p k
      rw [hphase, hp] at hsum
      exact Nat.add_right_cancel hsum
    cases res with
    | ok j =>
      have hrefs := refs_bump (p := .leaving curr (.ok j) next) hc hphase (k := j)
        fun i => by simp only [Phase.held, count_cons]; simp; omega
      exact h.shrink (p := .leaving curr (.ok j) next) hc hdirs hshrink (by rw [hrefs]; exact hlooked.1) hstay (fun k => .inr le_rfl)
        (by rw [hphase]; rfl) (by simp [Phase.missing])
    | error e =>
      obtain ⟨hheld, hwhy⟩ := hlooked
      simp only [afterLookup]
      split_ifs with hcreat
      · obtain ⟨rfl, hcreat⟩ := hcreat
        obtain ⟨hdir, -, hnone⟩ := hwhy.resolve_left fun hnot => absurd hnot.2 (by decide)
        have hmiss : Misses s.fs curr token.name := ⟨hdir, hnone⟩
        refine h.shrink hc hdirs hshrink (by rw [hsame _ rfl]; exact hheld) hstay
          (fun k => .inr le_rfl) (by rw [hphase]; rfl) fun w hw => ?_
        obtain rfl : (curr, token.name) = w := some.inj hw
        exact ⟨hmiss.stays hshrink.store hstay (refs_pos hc (by rw [hphase]; simp [Phase.held])),
          .inr (hset hcreat)⟩
      · exact h.shrink hc hdirs hshrink (by rw [hsame _ rfl]; exact hheld) hstay
          (fun k => .inr le_rfl) (by rw [hphase]; rfl) (by simp [Phase.missing])

theorem create_inv (h : Inv s) (hstep : create s c = some s') : Inv s' := by
  unfold create at hstep
  split at hstep
  case h_2 => cases hstep
  case h_1 curr token next hphase =>
    have hc : c < s.calls := h.lt_calls (by simp [hphase])
    obtain ⟨⟨res, fs'⟩, hcreate, rfl⟩ := map_eq_some_iff.mp hstep
    cases res with
    | error e =>
      rcases inodeCreate_cases h.dirs.apart.wf h.dirs.inodes hcreate with
        ⟨-, rfl⟩ | ⟨_, _, _, _, _, _, _, hok, _⟩
      · exact h.setPhase hc (fun k => by rw [hphase]; simp [Phase.held]) (by rw [hphase]; rfl) rfl
      · cases hok
    | ok k =>
      have hcr := h.dirs.create hcreate
      obtain ⟨hstay, hheld⟩ := h.held.create h.dirs hcreate
      have hrefs := refs_bump (p := .inserting curr token next k) hc hphase (k := k)
        fun i => by simp only [Phase.held, count_cons]; simp; omega
      -- a slot that somebody holds shows the same entries
      have hmiss : ∀ w : Fin inodeCacheSize × List UInt8, 0 < refs s w.1 →
          Misses s.fs w.1 w.2 → Misses fs' w.1 w.2 := by
        rintro ⟨k', name⟩ hpos ⟨hdir, hnone⟩
        obtain ⟨hino, heff⟩ := hstay k' hpos
        have hlt : (fs'.islots k').ino < nbInodes fs'.store.sb := by
          rw [hino, hcr.store.sb]
          exact h.held.ino_lt k' hpos
        have hstored : Stored fs' (fs'.islots k').ino (effective fs' k') := Stored.effective fun _ => hlt
        unfold Misses
        rw [heff] at hstored ⊢
        refine ⟨hdir, fun e he => ?_⟩
        have hne : (fs'.islots k').ino ≠ (fs'.islots k).ino := fun heq =>
          (h.held.backed.create h.dirs hcreate).2 k' hpos (hcr.inv.distinct k' k heq hlt)
        rcases hcr.dirs _ _ hstored hdir with ⟨hnew, -⟩ | ⟨hold, hsame⟩
        · exact absurd hnew hne
        · rw [hsame.named (h.dirs.dirs _ _ hold hdir).size he]
          exact hnone e he
      have hown := h.missing c (curr, token.name) (by rw [hphase]; rfl)
      have hcurr : 0 < refs s curr := refs_pos hc (by rw [hphase]; simp [Phase.held])
      refine h.move hc hcr.inv (fun ino d hd hdir => ?_) (by rw [hrefs]; exact hheld)
        (fun ino d hd hdir => ?_) (fun c' hne w hw => ?_) fun w hw => ?_
      · rcases hcr.dirs ino d hd hdir with ⟨-, hsize⟩ | ⟨hold, hsame⟩
        · intro e e' he
          rw [hsize] at he
          exact absurd he (Nat.not_lt_zero _)
        · exact (h.names ino d hold hdir).same hsame (h.dirs.dirs ino d hold hdir).size
      · have hsum := total_setPhase (f := Phase.pending) hc (.inserting curr token next k)
        rw [hphase] at hsum
        simp only [Phase.pending, Nat.add_zero] at hsum
        have hcount := hcr.count
        have hsize : ∀ ino d, Stored s.fs ino d → d.type = .directory →
            d.size.toNat + 20 * (total Phase.pending s + 1) ≤ 20 * allocated fs'.store := by
          intro ino d hd hdir
          have hroom := h.room ino d hd hdir
          omega
        rw [hsum]
        rcases hcr.dirs ino d hd hdir with ⟨-, hzero⟩ | ⟨hold, -⟩
        · -- there is at least the directory the call works on
          have hle := hsize _ _ (Stored.effective fun _ => h.held.ino_lt curr hcurr) hown.1
          rw [hzero]
          exact le_trans (by simp) hle
        · exact hsize ino d hold hdir
      · have hlt : c' < s.calls := h.lt_calls fun hidle => by
          rw [hidle] at hw
          cases hw
        exact hmiss w (refs_pos hlt (Phase.held_of_missing hw)) (h.missing c' w hw)
      · obtain rfl : (curr, token.name) = w := some.inj hw
        exact ⟨hmiss _ hcurr hown, .inl (by rw [hphase]; rfl)⟩

theorem length_of_dirAddEntry {k : Fin inodeCacheSize} {stack : Bytes} {token : List UInt8} {inum : ℕ}
    {res : ℤ} (ha : dirAddEntry stack fs k token inum = some (res, fs')) (hres : 0 ≤ res) :
    token.length < maxname := by
  by_contra hlong
  rw [dirAddEntry, if_pos (by omega)] at ha
  obtain rfl := (Prod.mk.inj (some.inj ha)).1
  exact absurd hres (by decide)

theorem Inv.denied (h : Inv s) (deny : List Bool) : Inv (s.denied deny) :=
  ⟨h.dirs.denied deny, h.names, ⟨h.held.backed, h.held.ino_lt⟩, h.fresh, h.room, h.missing, h.apart⟩

theorem Misses.added {k : Fin inodeCacheSize} {stack : Bytes} {name token : List UInt8} {inum : ℕ} {res : ℤ}
    (h : Misses fs k name) (hd : sizeofDirent ∣ (effective fs k).size.toNat)
    (hstored : Stored fs' (fs.islots k).ino (effective fs' k))
    (hadded : EntryAdded fs fs' k (newDirent stack token inum) res)
    (hlong : 0 ≤ res → token.length < maxname) (hother : ¬ SameName name token) : Misses fs' k name := by
  rcases hadded _ hstored with ⟨hres, hmore⟩ | ⟨-, hsame⟩
  · refine ⟨hmore.type.trans h.1, fun e he hn => ?_⟩
    rcases hmore.cases hd he with hold | hlast
    · exact h.2 e hold ((named_congr fun k hk => hmore.old hd hold hk).mp hn)
    · exact hother (hmore.named_new (hlong hres) hlast hn).symm
  · refine ⟨hsame.type.trans h.1, fun e he hn => ?_⟩
    rw [hsame.size] at he
    exact h.2 e he ((hsame.named hd he).mp hn)

theorem insert_inv (h : Inv s) {stack : Bytes}
    (hfit : ∀ curr token next k, (s.call c).phase = .inserting curr token next k →
      EntryFits s.fs.store (effective s.fs curr)) (hstep : insert s c stack = some s') : Inv s' := by
  unfold insert at hstep
  split at hstep
  case h_2 => cases hstep
  case h_1 curr token next k hphase =>
    have hc : c < s.calls := h.lt_calls (by simp [hphase])
    split_ifs at hstep
    obtain ⟨⟨res, fs'⟩, hadd, rfl⟩ := map_eq_some_iff.mp hstep
    have hcurr : 0 < refs s curr := refs_pos hc (by rw [hphase]; simp [Phase.held])
    have hk : 0 < refs s k := refs_pos hc (by rw [hphase]; simp [Phase.held])
    have hclaim : (curr, token.name) ∈ (s.call c).phase.missing := by rw [hphase]; rfl
    obtain ⟨hdir, hnone⟩ := h.missing c _ hclaim
    have hlt := h.held.ino_lt curr hcurr
    have hold : Stored s.fs (s.fs.islots curr).ino (effective s.fs curr) :=
      Stored.effective fun _ => hlt
    have hsize := (h.dirs.dirs _ _ hold hdir).size
    -- the call has an inode in addition to those with an entry
    dsimp only
    generalize hp : Phase.leaving curr (if res < 0 then .error res else .ok k) next = p
    have hpending : total Phase.pending (s.setPhase c p) + 1 = total Phase.pending s := by
      have hsum := total_setPhase (f := Phase.pending) hc p
      rw [hphase, ← hp] at hsum
      exact hp ▸ hsum
    have hroom := h.room _ _ hold hdir
    obtain ⟨hdirs, htouch, hadded, -⟩ := h.dirs.addEntry h.held hcurr hdir
      (hfit curr token next k hphase) (by omega) (h.held.ino_lt k hk)
      (h.dirs.cached k (h.held.ino_lt k hk)) hadd
    have hlong := length_of_dirAddEntry hadd
    refine h.move hc hdirs (fun ino d hd hd' => ?_) ((htouch.held h.held).mono fun j => ?_)
      (fun ino d hd hd' => ?_) (fun c' hne w hw => ?_) (by simp [← hp, Phase.missing])
    · by_cases hino : ino = (s.fs.islots curr).ino
      · subst hino
        rcases hadded d hd with ⟨hres, hmore⟩ | ⟨-, hsame⟩
        · exact (h.names _ _ hold hdir).more hmore (hlong hres) hsize hnone
        · exact (h.names _ _ hold hdir).same hsame hsize
      · have hd₀ := htouch.stored hd hino
        exact (h.names ino d hd₀ hd').same (htouch.dirs ino d hd₀ hino hd') (h.dirs.dirs ino d hd₀ hd').size
    · have hsum := refs_setPhase hc p j
      have hle : p.held.count j ≤ (s.call c).phase.held.count j := by
        rw [hphase, ← hp]
        split <;> simp [Phase.held, count_cons]
      omega
    · have hcount := htouch.count
      by_cases hino : ino = (s.fs.islots curr).ino
      · subst hino
        rcases hadded d hd with ⟨-, hmore⟩ | ⟨-, hsame⟩
        · have hgrow := hmore.size
          omega
        · rw [hsame.size]
          omega
      · have hd₀ := htouch.stored hd hino
        have hroom' := h.room ino d hd₀ hd'
        omega
    · have hlt' : c' < s.calls := h.lt_calls fun hidle => by
        rw [hidle] at hw
        cases hw
      have hpos := refs_pos hlt' (Phase.held_of_missing hw)
      have hmiss := h.missing c' w hw
      by_cases heq : w.1 = curr
      · have hstored : Stored fs' (s.fs.islots curr).ino (effective fs' curr) :=
          htouch.slot.1 ▸ Stored.effective fun _ => by rw [htouch.slot.1, htouch.sb]; exact hlt
        rw [heq] at hmiss ⊢
        exact hmiss.added hsize hstored hadded hlong (h.apart c c' hne.symm _ hclaim w hw heq)
      · have hino := fun heq' => heq (h.dirs.distinct w.1 curr heq' (h.held.ino_lt w.1 hpos))
        have hd₀ : Stored s.fs (s.fs.islots w.1).ino (effective s.fs w.1) :=
          Stored.effective fun _ => h.held.ino_lt w.1 hpos
        have hsame := htouch.dirs _ _ hd₀ hino hmiss.1
        unfold Misses
        rw [htouch.effective h.dirs h.held hpos heq]
        exact ⟨hmiss.1, fun e he hn =>
          hmiss.2 e he ((hsame.named (h.dirs.dirs _ _ hd₀ hmiss.1).size he).mp hn)⟩

theorem put_inv (h : Inv s) (hc : c < s.calls) {k : Fin inodeCacheSize} (hput : inodePut s.fs k = some fs')
    (hold : ∀ j, (s.call c).phase.held.count j = p.held.count j + [k].count j)
    (hpending : p.pending = (s.call c).phase.pending) (hmissing : p.missing = none) :
    Inv ({ s with fs := fs' }.setPhase c p) := by
  have hrefs : refs s = bump (refs (s.setPhase c p)) k := by
    have hback := refs_bump (s := s.setPhase c p) (p := (s.call c).phase) (k := k) hc
      (by simp [State.setPhase]) hold
    rw [← hback]
    congr 1
    simp [State.setPhase]
  obtain ⟨hdirs, hshrink⟩ := h.dirs.put hput
  obtain ⟨hstay, hheld⟩ := Held.put (hrefs ▸ h.held) h.dirs hput
  exact h.shrink hc hdirs hshrink hheld hstay (fun j => .inl le_rfl) hpending (by simp [hmissing])

theorem leave_inv (h : Inv s) (hstep : leave s c = some s') : Inv s' := by
  unfold leave at hstep
  split at hstep
  case h_2 => cases hstep
  case h_1 curr res next hphase =>
    have hc : c < s.calls := h.lt_calls (by simp [hphase])
    obtain ⟨fs', hput, hstep⟩ := bind_eq_some_iff.mp hstep
    have hleave : ∀ p : Phase, (∀ j, (s.call c).phase.held.count j = p.held.count j + [curr].count j) →
        p.pending = 0 → p.missing = none → Inv ({ s with fs := fs' }.setPhase c p) :=
      fun p hold hpending hmissing => put_inv h hc hput hold (by rw [hphase, hpending]; rfl) hmissing
    dsimp only at hstep
    split at hstep
    · cases hstep
      exact hleave _ (fun j => by rw [hphase]; simp [Phase.held]) rfl rfl
    · cases hstep
      exact hleave _ (fun j => by rw [hphase]; simp only [Phase.held, count_cons]; simp) rfl rfl
    · rw [enterLoop_eq hstep]
      exact (hleave (.looking _ _ _)
        (fun j => by rw [hphase]; simp only [Phase.held, count_cons]; simp) rfl rfl).holder _ _

theorem release_inv (h : Inv s) (hstep : release s c = some s') : Inv s' := by
  unfold release at hstep
  split at hstep
  case h_2 => cases hstep
  case h_1 k hphase =>
    obtain ⟨fs', hput, rfl⟩ := map_eq_some_iff.mp hstep
    exact put_inv h (h.lt_calls (by simp [hphase])) hput (fun j => by rw [hphase]; simp [Phase.held])
      (by rw [hphase]; rfl) rfl

theorem step_inv {a : Action} (h : Inv s) (hset : Settled s a) (hstep : step s a = some s') : Inv s' := by
  cases a with
  | start path flags leafType => exact start_inv h hstep
  | lookup c stack => exact lookup_inv h hset hstep
  | create c => exact create_inv h hstep
  | insert c stack deny =>
    refine insert_inv (h.denied deny) (fun curr token next k hphase => ?_) hstep
    have hphase' : (s.call c).phase = .inserting curr token next k := hphase
    simp only [Settled, hphase'] at hset
    exact hset
  | leave c => exact leave_inv h hstep
  | release c => exact release_inv h hstep

end Steps

theorem initial_inv {fs : Filesys} (h : DirInv fs) (hnames : UniqueNames fs)
    (hrefs : ∀ k, 0 ≤ (fs.islots k).refcnt) : Inv (initial fs) where
  dirs := h
  names := hnames
  held := ⟨hrefs, fun _ hk => absurd hk (lt_irrefl 0)⟩
  fresh := fun _ _ => rfl
  room := fun ino d hd hdir => (h.dirs ino d hd hdir).room
  missing := fun _ _ hw => by cases hw
  apart := fun _ _ _ _ hw => by cases hw

theorem ImageOf.uniqueNames_empty {img : Bytes} (h : ImageOf [] img) : UniqueNames (mounted img 0) := by
  intro ino d hd hdir e _ he
  obtain ⟨hino, rfl⟩ := Stored.of_mounted h hd
  have hzero : (diskDinode (imgStore img) ino).size.toNat = 0 := by
    rcases h.dinode_cases hino with ⟨-, heq⟩ | ⟨_, hj, _⟩ | ⟨-, heq⟩
    · rw [heq]
      rfl
    · exact absurd hj (Nat.not_lt_zero _)
    · rw [heq]
      rfl
  rw [hzero] at he
  exact absurd he (Nat.not_lt_zero _)

def RootEntry (fs : Filesys) (e inum : ℕ) (name : List UInt8) : Prop :=
  20 * e < (diskDinode fs.store 1).size.toNat ∧ entryInum fs.store (diskDinode fs.store 1) e = inum ∧
    strncmp (dirEntry fs.store (diskDinode fs.store 1) e) (listBytes name) maxname = 0

instance (fs : Filesys) (e inum : ℕ) (name : List UInt8) : Decidable (RootEntry fs e inum name) :=
  inferInstanceAs (Decidable (_ ∧ _ ∧ _))

end RvMiniOs.Fs.Creators
