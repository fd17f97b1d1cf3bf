import RvMiniOs.Fs.Path
import RvMiniOs.Tasks.Descriptors

/-!
# Open files

`file.c` and the system calls of `sys_io.c` on the mounted file system, one call
after the other. What a copy from or to user memory does, what a device returns
and the word that `task_release_fd` finds behind the table are the environment's,
and so are the answers of `balloc` that a call is denied a block with. For counts and
descriptors a call is a run of the descriptor model.
-/

namespace RvMiniOs.Fs

open Lib
open Tasks.Descriptors (FdTable nofile fileAlloc taskGiveFd taskGetFd toNat_lt_nofile)

abbrev oModeMask : ℕ := 7
abbrev oR : ℕ := 1
abbrev oW : ℕ := 2
abbrev seekSet : ℤ := 1
abbrev seekCur : ℤ := 2
abbrev seekEnd : ℤ := 4

/-- `struct file` without its count. `dev` is the device whose callbacks the file
has, none for `file_reader` and `file_writer`. -/
structure File where
  i : Fin inodeCacheSize
  off : ℤ
  mode : ℕ
  dev : Option UInt8

/-- The file system with the file table and the descriptors of every task. -/
structure Files where
  fs : Filesys
  ftable : ℕ → File
  refcnt : ℕ → ℕ
  fdtable : ℕ → FdTable

def Files.boot (fs : Filesys) : Files where
  fs := fs
  ftable := fun _ => ⟨0, 0, 0, none⟩
  refcnt := fun _ => 0
  fdtable := fun _ _ => none

def Files.setFd (s : Files) (a : ℕ) (fd : Fin nofile) (f : Option ℕ) : Files :=
  { s with fdtable := Function.update s.fdtable a (Function.update (s.fdtable a) fd f) }

/-- The parameter `uint32_t offset` of `inode_read` and `inode_write`. -/
def File.offset (f : File) : ℕ := (f.off % 2 ^ 32).toNat

/-- `file_reader`, with the memory that its copies leave. An error of `inode_read` is not
returned: `res` is still that of `inode_lock`. -/
def fileReader {σ : Type} (s : Files) (f : ℕ) (copyout : Copyout σ) (dst : σ) (count : ℕ) :
    Option (ℤ × σ × Files) := do
  let k := (s.ftable f).i
  let (res, fs) ← inodeLock s.fs k
  if res < 0 then return (-eio, dst, { s with fs })
  let r := inodeRead fs.store (fs.islots k) copyout dst (s.ftable f).offset count
  let fs := inodeUnlock ({ fs with store := r.2.2.1 }.setSlot k r.2.2.2) k
  if r.1 < 0 then return (res, r.2.1, { s with fs })
  return (r.1, r.2.1, { s with
    fs
    ftable := Function.update s.ftable f { s.ftable f with off := (s.ftable f).off + r.1 } })

/-- `file_writer`, with the same slip. -/
def fileWriter (s : Files) (f : ℕ) (copyin : Copyin) (count : ℕ) : Option (ℤ × Files) := do
  let k := (s.ftable f).i
  let (res, fs) ← inodeLock s.fs k
  if res < 0 then return (-eio, { s with fs })
  let w := inodeWrite fs.store (fs.islots k) copyin (s.ftable f).offset count
  let fs := { fs with store := w.2.1 }.setSlot k w.2.2
  if w.1 < 0 then return (res, { s with fs := inodeUnlock fs k })
  let (res, fs) ← inodeMarkDirty fs k
  if res < 0 then return (res, { s with fs := inodeUnlock fs k })
  return (w.1, { s with
    fs := inodeUnlock fs k
    ftable := Function.update s.ftable f { s.ftable f with off := (s.ftable f).off + w.1 } })

/-- `file_write`, where `dev` is what a device returns. -/
def fileWrite (s : Files) (f : ℕ) (copyin : Copyin) (count : ℕ) (dev : ℤ) : Option (ℤ × Files) :=
  if (s.ftable f).mode &&& oW = 0 then some (-ebadf, s)
  else if (s.ftable f).dev.isSome then some (dev, s)
  else fileWriter s f copyin count

def fileRead {σ : Type} (s : Files) (f : ℕ) (copyout : Copyout σ) (dst : σ) (count : ℕ) (dev : ℤ) :
    Option (ℤ × σ × Files) :=
  if (s.ftable f).mode &&& oR = 0 then some (-ebadf, dst, s)
  else if (s.ftable f).dev.isSome then some (dev, dst, s)
  else fileReader s f copyout dst count

def seekTo (s : Files) (f : ℕ) (next : ℤ) : ℤ × Files :=
  if next < 0 then (-einval, s)
  else (next, { s with ftable := Function.update s.ftable f { s.ftable f with off := next } })

/-- Sums are those of `int64_t`. -/
def fileSeek (s : Files) (f : ℕ) (offset whence : ℤ) : Option (ℤ × Files) :=
  if whence = seekSet then some (seekTo s f offset)
  else if whence = seekCur then some (seekTo s f (((s.ftable f).off + offset).bmod (2 ^ 64)))
  else if whence = seekEnd then
    (inodeLock s.fs (s.ftable f).i).map fun (res, fs) =>
      if res < 0 then (res, { s with fs })
      else
        let size : ℤ := (fs.islots (s.ftable f).i).content.size.toNat
        seekTo { s with fs := inodeUnlock fs (s.ftable f).i } f ((size + offset).bmod (2 ^ 64))
  else some (-einval, s)

section Descriptors

open Option
open Tasks.Descriptors (Sys Careful openFiles)

variable {s s' : Files} {a f : ℕ} {res : ℤ}

end Descriptors

end RvMiniOs.Fs
