import Mathlib.Data.Int.Notation

/-!
# V2I.Zasbsc

The error codes of `zasbsc.h`, which the functions of `zsfd` return negated, and the byte strings
they are handed.
-/

namespace V2I

/-- The bytes of a buffer or of a `std::string`. -/
abbrev Bytes := List UInt8

/-- A string that is handed over as a pointer: it has no zero byte. -/
abbrev CString := { text : Bytes // 0 ∉ text }

def EBADPARM : ℤ := 1000

def EEXISTS : ℤ := 1001

def EINVALID : ℤ := 1002

def ELOGIC : ℤ := 1003

def ENOTEXISTS : ℤ := 1005

def ENOTSUPPORT : ℤ := 1010

def ENOTAVAIL : ℤ := 1011

def ENOTALLOWED : ℤ := 1012

def EBADOBJ : ℤ := 1013

def ENOTFOUND : ℤ := 1017

end V2I
