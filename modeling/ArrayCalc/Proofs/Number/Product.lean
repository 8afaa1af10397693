import Mathlib
import ArrayCalc.Number.Binary

namespace ArrayCalc.Number

open Float.Model

theorem unpacked_mul_comm (format : Format) (x y : UnpackedFloat) :
    UnpackedFloat.mul format x y = UnpackedFloat.mul format y x := by
  have hsign (s t : UnpackedFloat.Sign) : s * t = t * s := by
    cases s <;> cases t <;> rfl
  cases x <;> cases y
  case finite.finite s m e _ s' m' e' _ =>
    simp only [UnpackedFloat.mul]
    rw [hsign, Nat.mul_comm, Int.add_comm]
  all_goals simp only [UnpackedFloat.mul, hsign]

/-- The product of two doubles does not depend on their order. All values that are not numbers are one. -/
theorem float_mul_comm (x y : Float) : x * y = y * x := by
  obtain ⟨x⟩ := x
  obtain ⟨y⟩ := y
  exact congrArg (fun z => Float.ofModel (Float.Model.pack z)) (unpacked_mul_comm .binary64 x.unpack y.unpack)

end ArrayCalc.Number
