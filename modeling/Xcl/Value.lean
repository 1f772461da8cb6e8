import Mathlib.Data.BitVec

/-!
# Words

A `Value` of the kernel is a word of 64 bits whose three lowest bits are its tag.
-/

namespace Xcl

/-- `NULL_VALUE`, which is no Lisp value -/
def nullValue : BitVec 64 := 5

def lowtagOf (word : BitVec 64) : ℕ := word.toNat % 8

def makeFixnum (n : BitVec 64) : BitVec 64 := n <<< 2

def xlong (word : BitVec 64) : BitVec 64 := word.sshiftRight 2

def makeCharacter (c : BitVec 8) : BitVec 64 := (c.setWidth 64 <<< 3) ||| 6

def charValue (word : BitVec 64) : BitVec 8 := (word.sshiftRight 3).setWidth 8

end Xcl
