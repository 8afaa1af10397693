import ArrayCalc.Proofs.Number.Nearest
import ArrayCalc.Proofs.Number.Written

namespace ArrayCalc.Number

theorem mark_notMem_digits {cs : List Char} (h : AllDigits cs) : 'e' ∉ cs :=
  fun hmem => absurd (h 'e' hmem) (by decide)

theorem Positional.mark_notMem {cs : List Char} {d : Decimal} (h : Positional cs d) : 'e' ∉ cs := by
  cases h with
  | whole hds _ => exact mark_notMem_digits hds
  | point hds hps _ _ =>
    rw [List.mem_append, List.mem_cons]
    rintro (hmem | hmem | hmem)
    · exact mark_notMem_digits hds hmem
    · revert hmem
      decide
    · exact mark_notMem_digits hps hmem

/-- A whole number with a point and a zero after it. -/
theorem positional_whole_point (d : Decimal) (h : (digits d.coeff).length ≤ d.order + 1) :
    ∃ d' : Decimal, d'.nearestCode = d.nearestCode ∧
      Positional (digits d.coeff ++ List.replicate (d.order + 1 - (digits d.coeff).length).toNat '0' ++ ['.', '0']) d' := by
  have hdigits := (allDigits_digits d.coeff).append (allDigits_zeros (d.order + 1 - (digits d.coeff).length).toNat)
  refine ⟨_, ?_, Positional.point hdigits (allDigits_zeros 1) (by simp [digits_ne_nil]) (List.cons_ne_nil _ _)⟩
  have hzero : ['0'] = List.replicate 1 '0' := rfl
  rw [hzero, ofDigits_append_zeros, ofDigits_append_zeros, ofDigits_digits, Nat.mul_assoc, ← Nat.pow_add,
    Decimal.nearestCode_shift_pow, List.length_replicate]
  have hexp : -((1 : Nat) : Int) + ((d.order + 1 - (digits d.coeff).length).toNat + 1 : Nat) = d.exp := by
    rw [Decimal.order, digitCount] at h ⊢
    omega
  rw [hexp]

/-- The text of a finite number in full: it reads back as the number, and by the order of the number it has an
    exponent or a point. -/
theorem lossless_of_read {x : Float} {negative : Bool} {mant : Nat} {exp : Int}
    (hread : read x = .finite negative mant exp) :
    ∃ body d, lossless x = signText negative ++ body ∧ Unsigned body d ∧ d.toFloat negative = x ∧
      ('e' ∈ body ↔ (shortest (magnitudeCode x)).order < -4 ∨ 16 ≤ (shortest (magnitudeCode x)).order) ∧
      ('e' ∈ body ∨ '.' ∈ body) := by
  obtain ⟨code, hcode, rfl, rfl, rfl⟩ := ofCode_of_read hread
  have hshortest := nearestCode_shortest_of_lt hcode
  have hfloat {d : Decimal} (h : d.nearestCode = code) : d.toFloat negative = ofCode negative code := by
    rw [Decimal.toFloat, h]
  rw [lossless, hread, magnitudeCode_ofCode (Nat.le_of_lt hcode)]
  generalize shortest code = d at *
  dsimp only
  rw [leading]
  dsimp only
  by_cases hscientific : d.order < -4 ∨ 16 ≤ d.order
  · have hbody := (significand_pointAfterFirst (allDigits_digits d.coeff) (digits_ne_nil _)).unsigned_exponentText d.order
    have hexp : d.order + (1 - (digits d.coeff).length) = d.exp := by
      rw [Decimal.order, digitCount]
      omega
    dsimp only at hbody
    rw [ofDigits_digits, hexp] at hbody
    have hmark : 'e' ∈ pointAfterFirst (digits d.coeff) ++ exponentText d.order :=
      List.mem_append_right _ List.mem_cons_self
    rw [if_pos hscientific]
    exact ⟨_, d, rfl, hbody, hfloat hshortest, ⟨fun _ => hscientific, fun _ => hmark⟩, .inl hmark⟩
  · have hpositional {body : List Char} {d' : Decimal} (h : Positional body d') (hd' : d'.nearestCode = code)
        (hpoint : '.' ∈ body) :
        ∃ body' d', signText negative ++ body = signText negative ++ body' ∧ Unsigned body' d' ∧
          d'.toFloat negative = ofCode negative code ∧ ('e' ∈ body' ↔ d.order < -4 ∨ 16 ≤ d.order) ∧
          ('e' ∈ body' ∨ '.' ∈ body') :=
      ⟨body, d', rfl, h.significand.unsigned, hfloat hd',
        ⟨fun hmark => absurd hmark h.mark_notMem, fun h => absurd h hscientific⟩, .inr hpoint⟩
    rw [if_neg hscientific]
    by_cases hbelow : d.order < 0
    · rw [if_pos hbelow]
      exact hpositional (positional_below_one d hbelow) hshortest (List.mem_cons_of_mem _ List.mem_cons_self)
    rw [if_neg hbelow]
    by_cases hwhole : ((digits d.coeff).length : Int) ≤ d.order + 1
    · rw [if_pos hwhole]
      obtain ⟨d', hd', hbody⟩ := positional_whole_point d hwhole
      exact hpositional hbody (hd'.trans hshortest) (List.mem_append_right _ List.mem_cons_self)
    · rw [if_neg hwhole]
      exact hpositional (positional_between d (by omega) (by omega)) hshortest
        (List.mem_append_right _ List.mem_cons_self)

theorem written_lossless (x : Float) : Written x (lossless x) := by
  cases hread : read x with
  | nan =>
    rw [lossless, hread]
    exact .nan hread
  | infinite negative =>
    rw [lossless, hread]
    exact .infinite hread
  | finite negative mant exp =>
    obtain ⟨body, d, htext, hbody, -⟩ := lossless_of_read hread
    rw [htext]
    exact .finite hread hbody

section

variable {x : Float} {negative : Bool} {mant : Nat} {exp : Int} (hread : read x = .finite negative mant exp)

include hread

/-- The text of a number in full is read as the number. -/
theorem ofText?_lossless : ofText? (lossless x) = some x := by
  obtain ⟨body, d, htext, hbody, hx, -⟩ := lossless_of_read hread
  rw [htext, hbody.ofText?, hx]

/-- Without an exponent there is a point. -/
theorem mark_or_point_mem_lossless : 'e' ∈ lossless x ∨ '.' ∈ lossless x := by
  obtain ⟨body, d, htext, -, -, -, hmem⟩ := lossless_of_read hread
  rw [htext]
  exact hmem.imp (List.mem_append_right _) (List.mem_append_right _)

/-- An exponent is written for what lies below `1e-4`, other than zero, and from `1e16` on. -/
theorem mark_mem_lossless_iff : 'e' ∈ lossless x ↔
    mant ≠ 0 ∧ (magnitude mant exp < 10 ^ (-4 : Int) ∨ 10 ^ (16 : Int) ≤ magnitude mant exp) := by
  obtain ⟨body, d, htext, -, -, hmark, -⟩ := lossless_of_read hread
  have hsign : 'e' ∉ signText negative := by
    cases negative <;> decide
  rw [htext, List.mem_append, or_iff_right hsign, hmark]
  obtain ⟨code, hcode, rfl, rfl, rfl⟩ := ofCode_of_read hread
  rw [magnitudeCode_ofCode (Nat.le_of_lt hcode)]
  rcases Nat.eq_zero_or_pos code with rfl | hpos
  · have horder : (shortest 0).order = 0 := by decide +kernel
    have hmant : mantissa 0 = 0 := rfl
    simp [horder, hmant]
  · rw [order_shortest_lt_neg_four_iff hcode hpos, ← Int.not_lt, order_shortest_lt_sixteen_iff hcode hpos, not_lt,
      and_iff_right (Nat.ne_of_gt (mantissa_pos hpos))]
    rfl

end

end ArrayCalc.Number
