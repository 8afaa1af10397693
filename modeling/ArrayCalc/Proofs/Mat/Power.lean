import ArrayCalc.Eval.Operators
import ArrayCalc.Proofs.Mat.Solve
import ArrayCalc.Proofs.Number.Compact
import ArrayCalc.Proofs.Tensor.Product

namespace ArrayCalc

namespace Number

/-- Half of a whole double, rounded down, is a double. -/
theorem Representable.half {n : Nat} (h : Representable n) : Representable (n / 2) := by
  obtain ⟨code, hcode, hunits⟩ := units_of_representable h
  rcases Nat.lt_or_ge 1074 (lift code) with hlarge | hsmall
  · have hlift := lift_le hcode
    obtain ⟨half, hhalf, hhalfUnits⟩ :=
      exists_units (mantissa_lt code) (show 52 ≤ lift code - 1 by omega) (by omega)
    obtain ⟨k, hk⟩ : ∃ k, lift code = 1074 + k + 1 := ⟨lift code - 1075, by omega⟩
    -- The whole number is the significand, moved up by at least one place.
    have hwhole : n = mantissa code * 2 ^ k * 2 := by
      refine Nat.eq_of_mul_eq_mul_right unitsPerOne_pos ?_
      rw [← hunits, units, two_pow_eq (a := k + 1) rfl (by omega), Nat.pow_succ, ← Nat.mul_assoc, ← Nat.mul_assoc]
    refine ⟨_, toNat?_of_units hhalf ?_⟩
    rw [hhalfUnits, hwhole, Nat.mul_div_cancel _ Nat.two_pos, two_pow_eq (a := k) rfl (by omega), Nat.mul_assoc]
  · have hle : n ≤ mantissa code := by
      refine Nat.le_of_mul_le_mul_right (c := unitsPerOne) ?_ unitsPerOne_pos
      rw [← hunits, units, unitsPerOne_eq (Nat.add_sub_cancel' hsmall)]
      exact Nat.mul_le_mul_left _ (Nat.le_mul_of_pos_right _ (Nat.two_pow_pos _))
    have hmantissa := mantissa_lt code
    exact representable_of_lt (by omega)

/-- Halving, rounded down each time, goes through doubles only. -/
theorem Representable.halves {n : Nat} (h : Representable n) (i : Nat) : Representable (n / 2 ^ i) := by
  induction i with
  | zero => rwa [Nat.pow_zero, Nat.div_one]
  | succ i ih =>
    rw [Nat.pow_succ, ← Nat.div_div_eq_div_mul]
    exact ih.half

end Number

namespace Mat

section

variable {α : Type} {n : Nat} [Semiring α]

/-- Square and multiply gives the product of the accumulator and the power; the accumulator that is missing counts as
    the identity, and is there in the end. -/
theorem powerLoop_eq (acc : Option (Mat α n n)) (base : Mat α n n) {count : Nat} (hcount : 0 < count) :
    ∃ r, powerLoop acc base count = some r ∧ r.toMatrix = acc.elim 1 toMatrix * base.toMatrix ^ count := by
  induction count using Nat.strong_induction_on generalizing acc base with
  | h count ih =>
    rw [powerLoop.eq_def, if_neg (Nat.ne_of_gt hcount)]
    dsimp only
    have hsplit := Nat.mod_add_div count 2
    generalize hnext : (if count % 2 = 1 then _ else acc) = next
    -- What this digit of the exponent contributes.
    have hdigit : next.elim 1 toMatrix = acc.elim 1 toMatrix * base.toMatrix ^ (count % 2) := by
      subst hnext
      rcases Nat.mod_two_eq_zero_or_one count with heven | hodd
      · rw [if_neg (by omega), heven, pow_zero, mul_one]
      · rw [if_pos hodd, hodd, pow_one]
        cases acc with
        | none => exact (one_mul _).symm
        | some a => exact toMatrix_mul a base
    split
    · rename_i hlast
      have hone : count = 1 := by omega
      subst hone
      cases acc with
      | none => exact ⟨base, hnext.symm, by rw [pow_one, Option.elim_none, one_mul]⟩
      | some a => exact ⟨a.mul base, hnext.symm, by rw [pow_one, Option.elim_some, toMatrix_mul]⟩
    · rename_i hmore
      obtain ⟨r, hr, hvalue⟩ := ih (count / 2) (by omega) next (base.mul base) (by omega)
      refine ⟨r, hr, ?_⟩
      rw [hvalue, hdigit, toMatrix_mul, ← pow_two, ← pow_mul, mul_assoc, ← pow_add, hsplit]

end

section

variable {α : Type} {n : Nat} [Field α] [Numeric α] (a : Mat α n n)

theorem power_natCast (k : Nat) : ∃ b, a.power k = .ok b ∧ b.toMatrix = a.toMatrix ^ k := by
  rcases Nat.eq_zero_or_pos k with rfl | hk
  · exact ⟨identity n, if_pos rfl, by rw [toMatrix_identity, pow_zero]⟩
  · obtain ⟨b, hb, hvalue⟩ := powerLoop_eq none a hk
    refine ⟨b, ?_, by rw [hvalue, Option.elim_none, one_mul]⟩
    rw [power, if_neg (by omega), if_neg (by omega), Int.natAbs_natCast]
    change Except.ok ((powerLoop none a k).getD (identity n)) = _
    rw [hb, Option.getD_some]

theorem power_neg {k : Nat} (hk : 0 < k) : a.power (-k) = a.inverse >>= fun b => b.power k := by
  rw [power, if_neg (by omega), if_pos (by omega), Int.natAbs_neg, Int.natAbs_natCast]
  refine bind_congr fun b => ?_
  rw [power, if_neg (by omega), if_neg (by omega), Int.natAbs_natCast]
  rfl

theorem power_add (j k : Nat) {x y z : Mat α n n} (hx : a.power j = .ok x) (hy : a.power k = .ok y)
    (hz : a.power ((j + k : Nat) : Int) = .ok z) : x.mul y = z := by
  obtain ⟨x', hx', hxvalue⟩ := a.power_natCast j
  obtain ⟨y', hy', hyvalue⟩ := a.power_natCast k
  obtain ⟨z', hz', hzvalue⟩ := a.power_natCast (j + k)
  obtain rfl : x' = x := Except.ok.inj (hx'.symm.trans hx)
  obtain rfl : y' = y := Except.ok.inj (hy'.symm.trans hy)
  obtain rfl : z' = z := Except.ok.inj (hz'.symm.trans hz)
  apply toMatrix_injective
  rw [toMatrix_mul, hxvalue, hyvalue, hzvalue, pow_add]

end

end Mat

/-- The matrix power of an array with two axes of one size. -/
theorem matrixPower_square (label : String) {n : Nat} {t : Tensor Float} (hshape : t.shape = [n, n]) (exponent : Int) :
    matrixPower label t exponent = (((Mat.ofRowMajor t.data : Mat Float n n).power exponent).mapError
      (Mat.SolveError.toFailure label)).map Mat.toTensor := by
  obtain ⟨shape, data⟩ := t
  obtain rfl : shape = [n, n] := hshape
  have hsquare : Tensor.toSquare label ⟨[n, n], data⟩ = .ok ⟨n, .ofRowMajor data⟩ := if_pos rfl
  rw [matrixPower, hsquare]
  change ((Mat.ofRowMajor data : Mat Float n n).power exponent).mapError _ >>= _ = _
  cases (Mat.ofRowMajor data : Mat Float n n).power exponent <;> rfl

namespace Mat

/-- Powers of a square matrix with exact numbers: products of the matrix with itself, the identity for zero, and for
    a negative exponent products of the inverse, which only a singular matrix lacks. The powers of arrays are computed
    in this way, and the exponents that the loop goes through are doubles if the first one is. -/
theorem power_eq_pow {α : Type} {n : Nat} [Field α] [Numeric α] [Numeric.Exact α] (a : Mat α n n) :
    (∀ k : Nat, ∃ b, a.power k = .ok b ∧ b.toMatrix = a.toMatrix ^ k) ∧
      a.power 0 = .ok (identity n) ∧
      (0 < n → ∀ k : Nat, 0 < k →
        (a.toMatrix.det = 0 → a.power (-k) = .error .singular) ∧
        (a.toMatrix.det ≠ 0 → ∃ b, a.power (-k) = .ok b ∧ b.toMatrix = a.toMatrix⁻¹ ^ k)) ∧
      (∀ j k : Nat, ∃ x y z, a.power j = .ok x ∧ a.power k = .ok y ∧ a.power ((j + k : Nat) : Int) = .ok z ∧
        x.mul y = z ∧ x.toTensor.matmul y.toTensor = .ok z.toTensor) ∧
      (∀ (acc : Option (Mat α n n)) (base : Mat α n n) (count : Nat), 0 < count →
        (powerLoop acc base count).isSome = true) ∧
      (∀ count, Number.Representable count → ∀ i, Number.Representable (count / 2 ^ i)) ∧
      (∀ label (t : Tensor Float) (exponent : Int), t.shape = [n, n] →
        matrixPower label t exponent = (((ofRowMajor t.data : Mat Float n n).power exponent).mapError
          (SolveError.toFailure label)).map toTensor) ∧
      ∀ label, ∃ err, SolveError.toFailure label .singular = .evaluation err ∧ err.code = "MC_EVAL_NUMERIC" := by
  refine ⟨a.power_natCast, if_pos rfl, fun hn k hk => ⟨fun hdet => ?_, fun hdet => ?_⟩, fun j k => ?_,
    fun acc base count hcount => ?_, fun _ hcount => hcount.halves, fun label _ exponent hshape =>
    matrixPower_square label hshape exponent, fun label => ⟨.singular label, rfl, rfl⟩⟩
  · rw [a.power_neg hk, (a.inverse_eq hn).1 hdet]
    rfl
  · obtain ⟨x, hx, hinverse⟩ := (a.inverse_eq hn).2 hdet
    obtain ⟨b, hb, hvalue⟩ := x.power_natCast k
    exact ⟨b, by rw [a.power_neg hk, hx]; exact hb, by rw [hvalue, hinverse]⟩
  · obtain ⟨x, hx, -⟩ := a.power_natCast j
    obtain ⟨y, hy, -⟩ := a.power_natCast k
    obtain ⟨z, hz, -⟩ := a.power_natCast (j + k)
    have hproduct := a.power_add j k hx hy hz
    exact ⟨x, y, z, hx, hy, hz, hproduct, by rw [Tensor.matmul_toTensor, hproduct]⟩
  · obtain ⟨r, hr, -⟩ := powerLoop_eq acc base hcount
    rw [hr, Option.isSome_some]

/-- A singular matrix has a zeroth power, but no negative ones. -/
theorem power_eq_pow_singular :
    let a : Mat ℚ 2 2 := ofRowMajor #[1, 2, 2, 4]
    0 < 2 ∧ 0 < 3 ∧ a.toMatrix.det = 0 ∧ a.power (-(3 : Nat)) = .error .singular ∧ a.power 0 = .ok (identity 2) := by
  intro a
  obtain ⟨-, hzero, hnegative, -⟩ := power_eq_pow a
  have hdet : a.toMatrix.det = 0 := by
    rw [Matrix.det_fin_two]
    decide +kernel
  exact ⟨by decide, by decide, hdet, (hnegative (by decide) 3 (by decide)).1 hdet, hzero⟩

end Mat

end ArrayCalc
