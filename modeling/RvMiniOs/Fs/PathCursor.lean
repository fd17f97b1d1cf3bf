import RvMiniOs.Fs.Path
import RvMiniOs.Lib.Runs

/-!
# Path resolutions that overlap

`fs_inode_from_path` on a tree that does not change, run by many tasks at once.
`strtok` keeps its position in one static variable, `holder`, that all of them
share. A call can be switched out in `dir_lookup`, so from one of its lookups to
the next is one step, and the lookup itself another. Inodes are known by their
numbers; a path that does not fit in `kpath` is not modelled, and neither is a
read through a holder or of a token that lies in the stack of a call that has
returned: such a step is `none`.
-/

namespace RvMiniOs.Fs.PathCursor

open Lib

/-- What `dir_lookup` answers for a directory and a name. -/
abbrev Tree := ℕ → List UInt8 → Except ℤ ℕ

inductive Phase where
  | idle
  /-- `dir_lookup(curr, token)` is under way, and `next` is the next token. -/
  | looking (curr : ℕ) (token : Token) (next : Option Token)
  | looked (res : Except ℤ ℕ) (next : Option Token)
  | done (res : Except ℤ ℕ)
  deriving DecidableEq

def Phase.returned : Phase → Bool
  | .done _ => true
  | _ => false

structure Call where
  path : List UInt8
  flags : ℕ
  phase : Phase

/-- `owner` is the call whose `kpath` the holder points into. -/
structure State where
  holder : Option (List UInt8)
  owner : ℕ
  call : ℕ → Call
  calls : ℕ

namespace State

def setPhase (s : State) (c : ℕ) (phase : Phase) : State :=
  { s with call := Function.update s.call c { s.call c with phase } }

def strtokNull (s : State) : Option (Option Token × State) :=
  if s.holder.isSome ∧ (s.call s.owner).phase.returned then none
  else some ((strtok s.holder).1.map (Token.mk s.owner), { s with holder := (strtok s.holder).2 })

/-- The top of the loop: cut off the token after `token` and begin to look `token`
up in `curr`. -/
def enterLoop (s : State) (c curr : ℕ) (token : Token) : Option State :=
  s.strtokNull.map fun (next, s) => s.setPhase c (.looking curr token next)

end State

inductive Action where
  | start (path : List UInt8) (flags : ℕ)
  | lookup (c : ℕ)
  | resume (c : ℕ)

def start (root : ℕ) (s : State) (path : List UInt8) (flags : ℕ) : Option State :=
  let c := s.calls
  let s := { s with calls := s.calls + 1
                    call := Function.update s.call c ⟨path, flags, .idle⟩ }
  if path.length < 1 then some (s.setPhase c (.done (.error (-einval))))
  else if path.head? ≠ some 47 then some (s.setPhase c (.done (.error (-einval))))
  else if fsMaxPath ≤ path.length then none
  else
    let first := strtok (some path)
    let s := { s with holder := first.2, owner := c }
    match first.1 with
    | none => some (s.setPhase c (.done (.ok root)))
    | some token => s.enterLoop c root ⟨c, token⟩

/-- From the return of one lookup to the next one. A call that would create the
missing entry takes no step, for the tree does not change. -/
def resume (s : State) (c : ℕ) : Option State :=
  match (s.call c).phase with
  | .looked (.error e) _ =>
    if e = -enoent ∧ (s.call c).flags &&& oCreat ≠ 0 then none
    else some (s.setPhase c (.done (.error e)))
  | .looked (.ok k) none => some (s.setPhase c (.done (.ok k)))
  | .looked (.ok k) (some token) => s.enterLoop c k token
  | _ => none

def step (tree : Tree) (root : ℕ) (s : State) : Action → Option State
  | .start path flags => start root s path flags
  | .lookup c =>
    match (s.call c).phase with
    | .looking curr token next =>
      if (s.call token.owner).phase.returned then none
      else some (s.setPhase c (.looked (tree curr token.name) next))
    | _ => none
  | .resume c => resume s c

def initial : State := ⟨none, 0, fun _ => ⟨[], 0, .idle⟩, 0⟩

/-- The loop of a call that nobody disturbs, as `walkPath` but on a tree. -/
def walk (tree : Tree) (curr : ℕ) (token : List UInt8) (holder : Option (List UInt8)) :
    Except ℤ ℕ :=
  match tree curr token with
  | .error e => .error e
  | .ok k =>
    match _h : (strtok holder).1 with
    | none => .ok k
    | some token => walk tree k token (strtok holder).2
termination_by holderSize holder
decreasing_by exact holderSize_strtok _h

def resolve (tree : Tree) (root : ℕ) (path : List UInt8) : Option (Except ℤ ℕ) :=
  if path.length < 1 then some (.error (-einval))
  else if path.head? ≠ some 47 then some (.error (-einval))
  else if fsMaxPath ≤ path.length then none
  else
    match (strtok (some path)).1 with
    | none => some (.ok root)
    | some token => some (walk tree root token (strtok (some path)).2)

/-- The next token, which a call that has one will look up after another
`strtok(NULL)`. -/
def Phase.next : Phase → Option Token
  | .looking _ _ next | .looked _ next => next
  | .idle | .done _ => none

/-- No call but `c` has another `strtok(NULL)` to make. -/
def Alone (s : State) (c : ℕ) : Prop :=
  ∀ c' < s.calls, c' ≠ c → (s.call c').phase.next = none

/-- `strtok` is called only while no other call depends on the holder. -/
def Settled (s : State) : Action → Prop
  | .start path _ => path.head? = some 47 → Alone s s.calls
  | .resume c =>
    match (s.call c).phase with
    | .looked (.ok _) (some _) => Alone s c
    | _ => True
  | .lookup _ => True

instance (s : State) (a : Action) : Decidable (Settled s a) := by
  unfold Settled Alone
  split
  · infer_instance
  · split <;> infer_instance
  · infer_instance

def finish (tree : Tree) (holder : Option (List UInt8)) (res : Except ℤ ℕ)
    (next : Option (List UInt8)) : Except ℤ ℕ :=
  match res, next with
  | .error e, _ => .error e
  | .ok k, none => .ok k
  | .ok k, some token => walk tree k token holder

/-- What a call returns if nobody else uses the holder from now on. -/
def Phase.outcome (tree : Tree) (holder : Option (List UInt8)) : Phase → Option (Except ℤ ℕ)
  | .idle => none
  | .looking curr token next =>
    some (finish tree holder (tree curr token.name) (next.map Token.name))
  | .looked res next => some (finish tree holder res (next.map Token.name))
  | .done res => some res

section Steps

variable {tree : Tree} {root : ℕ} {s s' : State} {a : Action} {c : ℕ}

theorem walk_eq (tree : Tree) (curr : ℕ) (token : List UInt8) (holder : Option (List UInt8)) :
    walk tree curr token holder = finish tree (strtok holder).2 (tree curr token) (strtok holder).1 := by
  rw [walk]
  split
  · simp [finish, *]
  · rename_i k hk
    rw [hk]
    split <;> simp [finish, *]

theorem outcome_congr {p : Phase} (hp : p.next = none) (h h' : Option (List UInt8)) :
    p.outcome tree h = p.outcome tree h' := by
  cases p with
  | idle => rfl
  | looking curr token next =>
    obtain rfl : next = none := hp
    cases htree : tree curr token.name <;> simp [Phase.outcome, finish, htree]
  | looked res next =>
    obtain rfl : next = none := hp
    cases res <;> rfl
  | done res => rfl

/-- Every call is on its way to the result it has alone. -/
def Inv (tree : Tree) (root : ℕ) (s : State) : Prop :=
  ∀ c < s.calls, (s.call c).phase.outcome tree s.holder = resolve tree root (s.call c).path

theorem enterLoop_eq {curr : ℕ} {token : Token} (h : s.enterLoop c curr token = some s') :
    s' = { s with holder := (strtok s.holder).2 }.setPhase c
      (.looking curr token ((strtok s.holder).1.map (Token.mk s.owner))) := by
  simp only [State.enterLoop, Option.map_eq_some_iff, Prod.exists] at h
  obtain ⟨next, s₁, hnull, hs'⟩ := h
  unfold State.strtokNull at hnull
  split at hnull <;> cases hnull
  exact hs'.symm

theorem outcome_enterLoop (tree : Tree) {curr : ℕ} {token : Token}
    (h : s.enterLoop c curr token = some s') : (s'.call c).phase.outcome tree s'.holder =
    some (walk tree curr token.name s.holder) ∧ (s'.call c).path = (s.call c).path := by
  rw [enterLoop_eq h, walk_eq]
  simp [State.setPhase, Phase.outcome, Function.comp_def]

theorem Inv.of_others (h : Inv tree root s)
    (hother : ∀ c' < s'.calls, c' ≠ c → c' < s.calls ∧ s'.call c' = s.call c' ∧
      (s'.holder = s.holder ∨ (s.call c').phase.next = none))
    (hc : (s'.call c).phase.outcome tree s'.holder = resolve tree root (s'.call c).path) :
    Inv tree root s' := by
  intro c' hlt
  by_cases hne : c' = c
  · rwa [hne]
  · obtain ⟨hlt', hcall, hholder⟩ := hother c' hlt hne
    rw [hcall, ← h c' hlt']
    rcases hholder with heq | hnone
    · rw [heq]
    · exact outcome_congr hnone _ _

theorem Inv.setPhase (h : Inv tree root s) (hc : c < s.calls) {phase : Phase}
    (hphase : phase.outcome tree s.holder = (s.call c).phase.outcome tree s.holder) :
    Inv tree root (s.setPhase c phase) := by
  refine h.of_others (c := c) (fun c' hlt hne => ⟨hlt, ?_, .inl rfl⟩) ?_
  · simp [State.setPhase, hne]
  · simpa [State.setPhase, hphase] using h c hc

def Begun (s : State) : Prop := ∀ c, s.calls ≤ c → (s.call c).phase = .idle

theorem Begun.lt (h : Begun s) (hc : (s.call c).phase ≠ .idle) : c < s.calls := by
  by_contra hge
  exact hc (h c (not_lt.mp hge))

theorem Begun.setPhase (h : Begun s) (hc : c < s.calls) (phase : Phase) : Begun (s.setPhase c phase) := by
  intro c' hge
  have hne : c' ≠ c := by
    rintro rfl
    exact absurd hge (not_le.mpr hc)
  simpa [State.setPhase, hne] using h c' hge

theorem Begun.enterLoop (h : Begun s) (hc : c < s.calls) {curr : ℕ} {token : Token}
    (hloop : s.enterLoop c curr token = some s') : Begun s' := by
  rw [enterLoop_eq hloop]
  exact Begun.setPhase (s := { s with holder := (strtok s.holder).2 }) h hc _

theorem Inv.enterLoop (h : Inv tree root s) (halone : Alone s c) {curr : ℕ} {token : Token}
    (hwalk : some (walk tree curr token.name s.holder) = resolve tree root (s.call c).path)
    (hloop : s.enterLoop c curr token = some s') : Inv tree root s' := by
  obtain ⟨hout, hpath⟩ := outcome_enterLoop tree hloop
  refine h.of_others (c := c) (fun c' hlt hne => ?_) (by rw [hout, hpath, hwalk])
  rw [enterLoop_eq hloop] at hlt ⊢
  exact ⟨hlt, by simp [State.setPhase, hne], .inr (halone c' hlt hne)⟩

theorem start_inv (hb : Begun s) (h : Inv tree root s) {path : List UInt8} {flags : ℕ}
    (hset : Settled s (.start path flags)) (hstep : start root s path flags = some s') :
    Begun s' ∧ Inv tree root s' := by
  set s₁ : State := { s with calls := s.calls + 1
                             call := Function.update s.call s.calls ⟨path, flags, .idle⟩ } with hs₁
  have hlt : s.calls < s₁.calls := Nat.lt_succ_self _
  have hcall : ∀ c ≠ s.calls, s₁.call c = s.call c := fun c hc => by simp [hs₁, hc]
  have hpath : (s₁.call s.calls).path = path := by simp [hs₁]
  have hold : ∀ c < s₁.calls, c ≠ s.calls → c < s.calls := by
    intro c hc hne
    have hle : c < s.calls + 1 := hc
    omega
  have hb₁ : Begun s₁ := by
    intro c hc
    have hle : s.calls + 1 ≤ c := hc
    rw [hcall c (by omega)]
    exact hb c (by omega)
  -- A call that ends at once leaves the others alone, except for the holder.
  have hend : ∀ (holder : Option (List UInt8)) (owner : ℕ) (res : Except ℤ ℕ),
      (holder = s.holder ∨ Alone s s.calls) → resolve tree root path = some res →
      Begun ({ s₁ with holder, owner }.setPhase s.calls (.done res)) ∧
        Inv tree root ({ s₁ with holder, owner }.setPhase s.calls (.done res)) := by
    intro holder owner res hor hres
    refine ⟨Begun.setPhase (s := { s₁ with holder, owner }) hb₁ hlt _, ?_⟩
    refine h.of_others (c := s.calls) (fun c hc hne => ⟨hold c hc hne, ?_, ?_⟩) ?_
    · simp [State.setPhase, hne, hcall c hne]
    · exact hor.imp id fun halone => halone c (hold c hc hne) hne
    · simp [State.setPhase, Phase.outcome, hpath, hres]
  unfold start at hstep
  simp only [← hs₁] at hstep
  split_ifs at hstep with hlen hslash hlong
  · cases hstep
    exact hend s.holder s.owner _ (.inl rfl) (by rw [resolve, if_pos hlen])
  · cases hstep
    exact hend s.holder s.owner _ (.inl rfl) (by rw [resolve, if_neg hlen, if_pos hslash])
  · have halone : Alone s s.calls := hset (not_not.mp hslash)
    have hres : resolve tree root path = match (strtok (some path)).1 with
        | none => some (.ok root)
        | some token => some (walk tree root token (strtok (some path)).2) := by
      rw [resolve, if_neg hlen, if_neg hslash, if_neg hlong]
    split at hstep
    case h_1 hfirst =>
      cases hstep
      exact hend _ _ _ (.inr halone) (by rw [hres, hfirst])
    case h_2 token hfirst =>
      have hb₂ : Begun { s₁ with holder := (strtok (some path)).2, owner := s.calls } := hb₁
      refine ⟨hb₂.enterLoop hlt hstep, ?_⟩
      obtain ⟨hout, hpath'⟩ := outcome_enterLoop tree hstep
      refine h.of_others (c := s.calls) (fun c hc hne => ?_) ?_
      · rw [enterLoop_eq hstep] at hc ⊢
        refine ⟨hold c hc hne, ?_, .inr (halone c (hold c hc hne) hne)⟩
        simp [State.setPhase, hne]
      · rw [hout, hpath', hpath, hres, hfirst]

theorem resume_inv (hb : Begun s) (h : Inv tree root s) (hset : Settled s (.resume c))
    (hstep : resume s c = some s') : Begun s' ∧ Inv tree root s' := by
  unfold resume at hstep
  split at hstep
  case h_1 e next hphase =>
    have hc : c < s.calls := hb.lt (by simp [hphase])
    split at hstep <;> cases hstep
    exact ⟨hb.setPhase hc _, h.setPhase hc (by simp [hphase, Phase.outcome, finish])⟩
  case h_2 k hphase =>
    have hc : c < s.calls := hb.lt (by simp [hphase])
    cases hstep
    exact ⟨hb.setPhase hc _, h.setPhase hc (by simp [hphase, Phase.outcome, finish])⟩
  case h_3 k token hphase =>
    have hc : c < s.calls := hb.lt (by simp [hphase])
    have halone : Alone s c := by simpa only [Settled, hphase] using hset
    refine ⟨hb.enterLoop hc hstep, h.enterLoop halone ?_ hstep⟩
    rw [← h c hc, hphase]
    rfl
  case h_4 => cases hstep

theorem step_inv (hb : Begun s) (h : Inv tree root s) (hset : Settled s a)
    (hstep : step tree root s a = some s') : Begun s' ∧ Inv tree root s' := by
  cases a with
  | start path flags => exact start_inv hb h hset hstep
  | resume c => exact resume_inv hb h hset hstep
  | lookup c =>
    simp only [step] at hstep
    split at hstep
    case h_2 => cases hstep
    case h_1 curr token next hphase =>
      have hc : c < s.calls := hb.lt (by simp [hphase])
      split at hstep <;> cases hstep
      exact ⟨hb.setPhase hc _, h.setPhase hc (by simp [hphase, Phase.outcome])⟩

end Steps

/-! The holder and the tokens are places in a `kpath`, whoever uses them. -/

section Buffers

variable {tree : Tree} {root : ℕ} {s s' : State} {a : Action} {c : ℕ}

end Buffers

/-- In every run in which `strtok` is called only while no other call has yet to
call `strtok(NULL)`, each call that returns has the result it has alone. -/
theorem resolutions_apart (tree : Tree) (root : ℕ) {s : State}
    (hreach : Reaches (step tree root) Settled initial s) (c : ℕ) {res : Except ℤ ℕ}
    (hdone : (s.call c).phase = .done res) : resolve tree root (s.call c).path = some res := by
  have hinv : Begun s ∧ Inv tree root s :=
    hreach.invariant (P := fun s => Begun s ∧ Inv tree root s)
      ⟨fun _ _ => rfl, fun c hc => absurd hc (Nat.not_lt_zero c)⟩
      fun _ _ _ h hset hstep => step_inv h.1 h.2 hset hstep
  rw [← hinv.2 c (hinv.1.lt (by simp [hdone])), hdone]
  rfl

def chain : Tree := fun dir name =>
  if dir = 1 ∧ name = [97] then .ok 2
  else if dir = 2 ∧ name = [98] then .ok 3
  else if dir = 3 ∧ name = [99] then .ok 4
  else .error (-enoent)

/-- `/a/b` begins after the last `strtok` of `/a/b/c`, in its last lookup. -/
theorem resolutions_apart_chain : ∃ s, Reaches (step chain 1) Settled initial s ∧
    (s.call 0).phase = .done (.ok 4) ∧ resolve chain 1 (s.call 0).path = some (.ok 4) ∧
    resolve chain 1 (s.call 1).path = some (.ok 3) := by
  let ops : List Action := [.start [47, 97, 47, 98, 47, 99] 0, .lookup 0, .resume 0, .lookup 0,
    .resume 0, .start [47, 97, 47, 98] 0, .lookup 0, .lookup 1, .resume 0, .resume 1, .lookup 1, .resume 1]
  obtain ⟨s, hrun, h₀, h₁⟩ : ∃ s, run (step chain 1) initial ops = some s ∧
      (s.call 0).phase = .done (.ok 4) ∧ (s.call 1).phase = .done (.ok 3) :=
    exists_of_run_any ops (by decide +kernel)
  have hreach : Reaches (step chain 1) Settled initial s := .of_run ops (by decide +kernel) hrun
  exact ⟨s, hreach, h₀, resolutions_apart chain 1 hreach 0 h₀, resolutions_apart chain 1 hreach 1 h₁⟩

/-- While the lookup of `a` waits in a resolution of `/a/b/c`, another task
resolves `/a`: the first call returns the inode of `/a/b`. -/
theorem resolutions_share_holder : ∃ s, Reaches (step chain 1) anyAction initial s ∧
    (s.call 0).path = [47, 97, 47, 98, 47, 99] ∧ (s.call 0).phase = .done (.ok 3) ∧
    resolve chain 1 (s.call 0).path = some (.ok 4) :=
  Reaches.of_run_any [.start [47, 97, 47, 98, 47, 99] 0, .start [47, 97] 0, .lookup 0, .resume 0,
    .lookup 0, .resume 0] (by decide +kernel)

end RvMiniOs.Fs.PathCursor
