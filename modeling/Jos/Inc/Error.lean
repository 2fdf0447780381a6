import Jos.Inc.Mmu

/-!
# Error codes

`inc/error.h`.  A function that can fail returns an `Except Errno`; what user
code sees is the negated code (`Errno.ret`).
-/

namespace Jos

/-- The kernel and file-system error codes. -/
inductive Errno
  | unspecified | badEnv | inval | noMem | noFreeEnv | fault | ipcNotRecv | eof
  | noDisk | maxOpen | notFound | badPath | fileExists | notExec | notSupp
  deriving DecidableEq, Repr

/-- The number of an error code. -/
def Errno.code : Errno → ℕ
  | .unspecified => 1
  | .badEnv => 2
  | .inval => 3
  | .noMem => 4
  | .noFreeEnv => 5
  | .fault => 6
  | .ipcNotRecv => 7
  | .eof => 8
  | .noDisk => 9
  | .maxOpen => 10
  | .notFound => 11
  | .badPath => 12
  | .fileExists => 13
  | .notExec => 14
  | .notSupp => 15

/-- What a system call returns for the error: `-E_…`. -/
def Errno.ret (e : Errno) : Word := -BitVec.ofNat 32 e.code

theorem Errno.ret_neg (e : Errno) : e.ret.toInt < 0 := by
  cases e <;> decide

end Jos
