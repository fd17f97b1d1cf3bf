import Mathlib.Data.Int.Notation

/-!
# Error codes shared by kernel and userland

The positive values of `lib/err.h`; functions return their negation.
-/

namespace RvMiniOs

abbrev enoent : ℤ := 2
abbrev eio : ℤ := 5
abbrev enoexec : ℤ := 8
abbrev e2big : ℤ := 7
abbrev ebadf : ℤ := 9
abbrev eagain : ℤ := 11
abbrev enomem : ℤ := 12
abbrev efault : ℤ := 14
abbrev ebusy : ℤ := 16
abbrev enotdir : ℤ := 20
abbrev einval : ℤ := 22
abbrev enfile : ℤ := 23
abbrev emfile : ℤ := 24
abbrev efbig : ℤ := 27
abbrev enospc : ℤ := 28
abbrev enametoolong : ℤ := 36

end RvMiniOs
