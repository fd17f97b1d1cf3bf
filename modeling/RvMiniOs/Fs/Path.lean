import RvMiniOs.Fs.BlockMap

/-!
# Mounting and path lookup

`fs.c` and the string functions it walks paths with. A C string is the list of
its bytes without the terminator; the path buffer of `fs_inode_from_path` has
room for 179 of them, and a longer path is not modelled (`none`). The bytes of a
new directory entry behind its name are whatever was on the stack.
-/

namespace RvMiniOs.Fs

open Lib List

abbrev fsMaxPath : ℕ := 180
abbrev oCreat : ℕ := 8

def strncmpFrom (s1 s2 : Bytes) (k : ℕ) : ℕ → ℤ
  | 0 => 0
  | n + 1 =>
    let d : ℤ := (s1 k).toNat - (s2 k).toNat
    if d ≠ 0 ∨ s1 k = 0 then d else strncmpFrom s1 s2 (k + 1) n

def strncmp (s1 s2 : Bytes) (n : ℕ) : ℤ := strncmpFrom s1 s2 0 n

theorem strncmpFrom_eq_zero_iff {s1 s2 : Bytes} {k n : ℕ} : strncmpFrom s1 s2 k n = 0 ↔ ∀ m, k ≤ m → m <
    k + n → (∀ j, k ≤ j → j < m → s1 j ≠ 0) → s1 m = s2 m := by
  induction n generalizing k with
  | zero => exact ⟨fun _ m hlo hhi => absurd hhi (by omega), fun _ => rfl⟩
  | succ n ih =>
    have hdiff : ((s1 k).toNat : ℤ) - (s2 k).toNat = 0 ↔ s1 k = s2 k := by
      rw [sub_eq_zero, Nat.cast_inj, UInt8.toNat_inj]
    simp only [strncmpFrom]
    by_cases heq : s1 k = s2 k
    · by_cases hnul : s1 k = 0
      · rw [if_pos (.inr hnul), hdiff]
        refine ⟨fun _ m hlo _ hpre => ?_, fun _ => heq⟩
        rcases hlo.eq_or_lt with rfl | hlt
        · exact heq
        · exact absurd hnul (hpre k le_rfl hlt)
      · rw [if_neg (by rw [not_or, not_not, hdiff]; exact ⟨heq, hnul⟩), ih]
        constructor
        · intro h m hlo hhi hpre
          rcases hlo.eq_or_lt with rfl | hlt
          · exact heq
          · exact h m hlt (by omega) fun j hj => hpre j (by omega)
        · intro h m hlo hhi hpre
          refine h m (by omega) (by omega) fun j hj hjm => ?_
          rcases hj.eq_or_lt with rfl | hlt
          · exact hnul
          · exact hpre j hlt hjm
    · rw [if_pos (.inl (hdiff.not.mpr heq)), hdiff]
      exact ⟨fun h => absurd h heq, fun h => h k le_rfl (by omega) fun j hlo hlt => absurd hlo (by omega)⟩

theorem strncmp_eq_zero_iff {s1 s2 : Bytes} {n : ℕ} :
    strncmp s1 s2 n = 0 ↔ ∀ k < n, (∀ j < k, s1 j ≠ 0) → s1 k = s2 k := by
  unfold strncmp
  rw [strncmpFrom_eq_zero_iff]
  simp only [Nat.zero_le, true_implies, Nat.zero_add]

/-- `strsep(&holder, "/")`: the next token and the new holder. -/
def strsep : Option (List UInt8) → Option (List UInt8) × Option (List UInt8)
  | none => (none, none)
  | some s =>
    (some (s.takeWhile (· ≠ 47)),
      match s.dropWhile (· ≠ 47) with
      | [] => none
      | _ :: rest => some rest)

/-- The characters left in a holder, its terminator included. -/
def holderSize : Option (List UInt8) → ℕ
  | none => 0
  | some s => s.length + 1

theorem holderSize_strsep {s : List UInt8} : holderSize (strsep (some s)).2 < holderSize (some s) := by
  have hle := (dropWhile_suffix (l := s) (· ≠ 47)).length_le
  simp only [strsep]
  split
  · simp [holderSize]
  · rename_i heq
    rw [heq, length_cons] at hle
    simp only [holderSize]
    omega

/-- `strtok(holder, "/")`: skips empty tokens. -/
def strtok (holder : Option (List UInt8)) : Option (List UInt8) × Option (List UInt8) :=
  match holder with
  | none => (none, none)
  | some s =>
    let r := strsep (some s)
    if r.1 = some [] then strtok r.2 else r
termination_by holderSize holder
decreasing_by exact holderSize_strsep

/-- A token among calls that share the holder: `owner` is the call in whose `kpath` it
lies. -/
structure Token where
  owner : ℕ
  name : List UInt8
  deriving DecidableEq

def setRoot (fs : Filesys) : Option (ℤ × Filesys) := do
  let (k, fs) ← inodeGet fs fsRootInodeId
  let fs := { fs with root := k }
  let (res, fs) ← inodeLock fs k
  if res < 0 then return (res, fs)
  if (fs.islots k).content.type ≠ .directory then return (-eio, inodeUnlock fs k)
  return (0, inodeUnlock fs k)

def fsInit (blk : ℕ → Bytes) : Option (ℤ × Filesys) :=
  let sb := FsMeta.read (blk fsSuperblk)
  let fs := inodeInit (.mounted sb blk)
  if sb.magic ≠ fsMagicNumber then some (-eio, fs)
  else if sb.blkSize ≠ fsBlkSize then some (-eio, fs)
  else setRoot fs

def newDirent (stack : Bytes) (name : List UInt8) (inum : ℕ) : Bytes := fun k =>
  if k < maxname then
    if k ≤ name.length then listBytes name k else stack k
  else getByte inum (k - maxname)

def dirAddEntry (stack : Bytes) (fs : Filesys) (dir : Fin inodeCacheSize) (name : List UInt8)
    (inum : ℕ) : Option (ℤ × Filesys) := do
  if maxname < name.length + 1 then return (-enametoolong, fs)
  let (res, fs) ← inodeLock fs dir
  if res < 0 then return (res, fs)
  let i := fs.islots dir
  let w := inodeWrite fs.store i (kernelSrc (newDirent stack name inum)) i.content.size.toNat
    sizeofDirent
  return (w.1, inodeUnlock ({ fs with store := w.2.1 }.setSlot dir w.2.2) dir)

/-- The loop of `dir_lookup` from byte `off` on: the inode number of the first
entry with that name, or an error. `entry` is the buffer the entries are read to. -/
def dirLookupFrom (s : Store) (i : Inode) (name : List UInt8) (entry : Bytes) (off : ℕ) :
    Except ℤ ℕ × Store × Inode :=
  if _h : off < i.content.size.toNat then
    let r := inodeRead s i kernelDst entry off sizeofDirent
    if r.1 < 0 then (.error r.1, r.2.2)
    else
      let inum := (getU32 r.2.1 maxname).toNat
      if inum ≠ 0 ∧ strncmp r.2.1 (listBytes name) maxname = 0 then (.ok inum, r.2.2)
      else dirLookupFrom r.2.2.1 r.2.2.2 name r.2.1 (off + sizeofDirent)
  else (.error (-enoent), s, i)
termination_by i.content.size.toNat - off
decreasing_by
  obtain ⟨p, hp⟩ := inodeRead_inode s i kernelDst entry off sizeofDirent
  rw [hp]
  simp only [sizeofDirent]
  omega

/-- `dir_lookup`: the result and, when it is 0, the slot of the inode found. -/
def dirLookup (stack : Bytes) (fs : Filesys) (dir : Fin inodeCacheSize) (name : List UInt8) :
    Option (Except ℤ (Fin inodeCacheSize) × Filesys) := do
  let (res, fs) ← inodeLock fs dir
  if res < 0 then return (.error res, fs)
  if (fs.islots dir).content.type ≠ .directory then
    return (.error (-enotdir), inodeUnlock fs dir)
  let l := dirLookupFrom fs.store (fs.islots dir) name stack 0
  let fs := { fs with store := l.2.1 }.setSlot dir l.2.2
  match l.1 with
  | .error e => return (.error e, inodeUnlock fs dir)
  | .ok inum =>
    let (k, fs) ← inodeGet fs inum
    return (.ok k, inodeUnlock fs dir)

theorem holderSize_strtok {holder : Option (List UInt8)} {token : List UInt8}
    (h : (strtok holder).1 = some token) : holderSize (strtok holder).2 < holderSize holder := by
  fun_induction strtok holder with
  | case1 => cases h
  | case2 s r hempty ih => exact (ih h).trans holderSize_strsep
  | case3 s r hne => exact holderSize_strsep

/-- One component of a path: look `token` up in `curr` and, with `O_CREAT`, make
it when it is missing. `leaf` says that no component follows. -/
def stepPath (stack : Bytes) (flags : ℕ) (leafType : InodeType) (fs : Filesys)
    (curr : Fin inodeCacheSize) (token : List UInt8) (leaf : Bool) :
    Option (Except ℤ (Fin inodeCacheSize) × Filesys) := do
  let (res, fs) ← dirLookup stack fs curr token
  match res with
  | .ok k => return (.ok k, fs)
  | .error e =>
    if e = -enoent ∧ flags &&& oCreat ≠ 0 then
      let (created, fs) ← inodeCreate fs (if leaf then leafType else .directory)
      match created with
      | .error e => return (.error e, fs)
      | .ok k =>
        let (res, fs) ← dirAddEntry stack fs curr token (fs.islots k).ino
        if res < 0 then return (.error res, fs)
        return (.ok k, fs)
    else return (.error e, fs)

/-- The loop of `fs_inode_from_path` at slot `curr`, with `token` to be looked up
there and the rest of the path in `holder`. -/
def walkPath (stack : Bytes) (flags : ℕ) (leafType : InodeType) (fs : Filesys)
    (curr : Fin inodeCacheSize) (token : List UInt8) (holder : Option (List UInt8)) :
    Option (Except ℤ (Fin inodeCacheSize) × Filesys) :=
  (stepPath stack flags leafType fs curr token (strtok holder).1.isNone).bind fun r =>
    (inodePut r.2 curr).bind fun fs =>
      match r.1 with
      | .error e => some (.error e, fs)
      | .ok k =>
        match _h : (strtok holder).1 with
        | none => some (.ok k, fs)
        | some token => walkPath stack flags leafType fs k token (strtok holder).2
termination_by holderSize holder
decreasing_by exact holderSize_strtok _h

/-- `fs_inode_from_path`: the slot of the inode, with a reference taken. -/
def fsInodeFromPath (stack : Bytes) (fs : Filesys) (path : List UInt8) (flags : ℕ)
    (leafType : InodeType) : Option (Except ℤ (Fin inodeCacheSize) × Filesys) :=
  if path.length < 1 then some (.error (-einval), fs)
  else if path.head? ≠ some 47 then some (.error (-einval), fs)
  else if fsMaxPath ≤ path.length then none
  else
    let first := strtok (some path)
    (inodeGet fs (fs.islots fs.root).ino).bind fun (curr, fs) =>
      match first.1 with
      | none => some (.ok curr, fs)
      | some token => walkPath stack flags leafType fs curr token first.2

end RvMiniOs.Fs
