import Abacus.Formula.Token
import Abacus.Outcome

/-!
# Running sums

`*`, `/` and `%` bind tighter than `+` and `-`, all of them to the left; a sign binds tighter than
both. Division cuts off the fraction. A sum can therefore be computed from left to right with a
total, one product and one sign in hand.
-/
namespace Abacus.Formula

structure Failure where
  kind : ErrorKind
  pos : Nat
  deriving DecidableEq

/-- The quotient of the absolute values, with a sign if just one of the operands has one. -/
def cutQuotient (a b : Int) : Int :=
  let q : Int := (a.natAbs / b.natAbs : Nat)
  if decide (a < 0) != decide (b < 0) then -q else q

def cutRemainder (a b : Int) : Int := a - b * cutQuotient a b

@[simp]
theorem cutQuotient_eq_tdiv (a b : Int) : cutQuotient a b = a.tdiv b := by
  unfold cutQuotient
  rw [Int.ofNat_tdiv]
  by_cases ha : a < 0 <;> by_cases hb : b < 0
  · rw [Int.ofNat_natAbs_of_nonpos (Int.le_of_lt ha), Int.ofNat_natAbs_of_nonpos (Int.le_of_lt hb)]
    simp [ha, hb, Int.neg_tdiv, Int.tdiv_neg]
  · rw [Int.ofNat_natAbs_of_nonpos (Int.le_of_lt ha), Int.natAbs_of_nonneg (Int.not_lt.mp hb)]
    simp [ha, hb, Int.neg_tdiv]
  · rw [Int.natAbs_of_nonneg (Int.not_lt.mp ha), Int.ofNat_natAbs_of_nonpos (Int.le_of_lt hb)]
    simp [ha, hb, Int.tdiv_neg]
  · rw [Int.natAbs_of_nonneg (Int.not_lt.mp ha), Int.natAbs_of_nonneg (Int.not_lt.mp hb)]
    simp [ha, hb]

@[simp]
theorem cutRemainder_eq_tmod (a b : Int) : cutRemainder a b = a.tmod b := by
  rw [cutRemainder, cutQuotient_eq_tdiv, Int.tmod_def]

/-- `none` if the right operand is zero and has to divide. -/
def Factor.apply : Factor → Int → Int → Option Int
  | times, a, b => some (a * b)
  | quotient, a, b => if b = 0 then none else some (cutQuotient a b)
  | remainder, a, b => if b = 0 then none else some (cutRemainder a b)

/-- What has been read of a sum before the operand that comes next: the total so far, whether the
present product is to be subtracted, the left operand and operator of that product with the
operator's position, and whether the signs before the operand negate it. -/
structure RunningSum where
  total : Int := 0
  subtract : Bool := false
  product : Option (Int × Factor × Nat) := none
  negate : Bool := false
  deriving DecidableEq

namespace RunningSum

def multiply (r : RunningSum) (operand : Int) : Except Failure Int :=
  let v := if r.negate then -operand else operand
  match r.product with
  | none => .ok v
  | some (a, op, pos) =>
    match op.apply a v with
    | some p => .ok p
    | none => .error ⟨.divideByZero, pos⟩

def add (r : RunningSum) (p : Int) : Int :=
  if r.subtract then r.total - p else r.total + p

end RunningSum

end Abacus.Formula
