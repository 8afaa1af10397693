import ArrayCalc.Mat.LU

namespace ArrayCalc.Mat

variable {α : Type} {n : Nat} [Zero α] [One α] [Add α] [Sub α] [Mul α] [Div α] [Neg α] [Numeric α]

/-- Square and multiply: `acc`, if there is one, times the `count`-th power of `base`. The base is squared
    only while digits of the exponent are left. -/
def powerLoop (acc : Option (Mat α n n)) (base : Mat α n n) (count : Nat) : Option (Mat α n n) :=
  if count = 0 then acc
  else
    let acc :=
      if count % 2 = 1 then
        match acc with
        | some a => some (a.mul base)
        | none => some base
      else acc
    if count / 2 = 0 then acc else powerLoop acc (base.mul base) (count / 2)
termination_by count
decreasing_by omega

/-- An integer power. The zeroth is the identity, also of a singular matrix; a negative one is a power of
    the inverse. -/
def power (a : Mat α n n) (exponent : Int) : Except SolveError (Mat α n n) :=
  if exponent = 0 then .ok (identity n)
  else do
    let base ← if exponent < 0 then a.inverse else .ok a
    .ok ((powerLoop none base exponent.natAbs).getD (identity n))

end ArrayCalc.Mat
