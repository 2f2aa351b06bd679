import Mathlib.Tactic.Common
import Mathlib.Algebra.Group.Nat.Defs
import Mathlib.Algebra.Group.Int.Defs

/-!
# Signed arithmetic of C

The operators of C on 64 bit signed integers.  An operation has no value where its behaviour is
undefined: when the result can not be represented, when a divisor is zero, and when the count of a
shift is negative or not less than the width.
-/

namespace Signed

/-- The integer as a 64 bit integer, when it can be represented. -/
def checked (v : ℤ) : Option Int64 :=
  if -2 ^ 63 ≤ v ∧ v < 2 ^ 63 then some (Int64.ofInt v) else none

/-- The value of a comparison. -/
def truth (p : Prop) [Decidable p] : Int64 := if p then 1 else 0

def add (a b : Int64) : Option Int64 := checked (a.toInt + b.toInt)

def sub (a b : Int64) : Option Int64 := checked (a.toInt - b.toInt)

def mul (a b : Int64) : Option Int64 := checked (a.toInt * b.toInt)

def neg (a : Int64) : Option Int64 := checked (-a.toInt)

/-- The quotient is rounded towards zero. -/
def div (a b : Int64) : Option Int64 :=
  if b = 0 then none else checked (a.toInt.tdiv b.toInt)

/-- There is no remainder where there is no quotient. -/
def mod (a b : Int64) : Option Int64 :=
  (div a b).bind fun _ => checked (a.toInt.tmod b.toInt)

/-- A negative integer has no shift to the left. -/
def shiftLeft (a b : Int64) : Option Int64 :=
  if 0 ≤ b.toInt ∧ b.toInt < 64 ∧ 0 ≤ a.toInt then
    checked (a.toInt * 2 ^ b.toInt.toNat)
  else none

/-- A shift to the right keeps the sign. -/
def shiftRight (a b : Int64) : Option Int64 :=
  if 0 ≤ b.toInt ∧ b.toInt < 64 then checked (a.toInt / 2 ^ b.toInt.toNat) else none

end Signed
