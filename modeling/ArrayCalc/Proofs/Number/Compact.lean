import ArrayCalc.Number.Layout
import ArrayCalc.Proofs.Number.Shortest

namespace ArrayCalc.Number

theorem isDigit_digitChar {d : Nat} (h : d < 10) : (digitChar d).isDigit = true := by
  have hcases : ∀ d : Fin 10, (digitChar d).isDigit = true := by decide
  exact hcases ⟨d, h⟩

theorem allDigits_digits (n : Nat) : AllDigits (digits n) := by
  induction n using digits.induct with
  | case1 n h =>
    intro c hc
    rw [digits_of_lt h, List.mem_singleton] at hc
    rw [hc]
    exact isDigit_digitChar h
  | case2 n h ih =>
    rw [digits_of_le (by omega)]
    refine ih.append fun c hc => ?_
    rw [List.mem_singleton] at hc
    rw [hc]
    exact isDigit_digitChar (Nat.mod_lt _ (by omega))

theorem digits_ne_nil (n : Nat) : digits n ≠ [] :=
  List.ne_nil_of_length_pos (digitCount_pos n)

theorem allDigits_zeros (k : Nat) : AllDigits (List.replicate k '0') := by
  intro c hc
  rw [List.eq_of_mem_replicate hc]
  decide

/-- Zeros at the end multiply by a power of ten. -/
theorem ofDigits_append_zeros (ds : List Char) (k : Nat) :
    ofDigits (ds ++ List.replicate k '0') = ofDigits ds * 10 ^ k := by
  induction k with
  | zero => simp
  | succ k ih =>
    have hzero : '0'.toNat - 48 = 0 := rfl
    rw [List.replicate_succ', ← List.append_assoc, ofDigits_append_singleton, ih, hzero, Nat.add_zero, Nat.pow_succ,
      Nat.mul_comm 10, Nat.mul_assoc]

/-- Zeros in front do not count. -/
theorem ofDigits_zeros_append (k : Nat) (ds : List Char) : ofDigits (List.replicate k '0' ++ ds) = ofDigits ds := by
  induction k with
  | zero => rfl
  | succ k ih =>
    rw [List.replicate_succ, List.cons_append, ← ih, ofDigits, ofDigits, List.foldl_cons]
    rfl

theorem exponentPart?_signed (exp : Int) :
    exponentPart? ('e' :: (if exp < 0 then '-' else '+') :: digits exp.natAbs) = some exp := by
  have hdigits : digits exp.natAbs ≠ [] ∧ (digits exp.natAbs).all Char.isDigit = true :=
    ⟨digits_ne_nil exp.natAbs, (allDigits_digits exp.natAbs).all⟩
  have hvalue := ofDigits_digits exp.natAbs
  split
  · have hexp : -(exp.natAbs : Int) = exp := by omega
    rw [exponentPart?, if_pos (.inl rfl), if_pos hdigits, if_pos rfl, hvalue, hexp]
  · have hexp : (exp.natAbs : Int) = exp := by omega
    rw [exponentPart?, if_pos (.inl rfl), if_pos hdigits, if_neg Bool.false_ne_true, hvalue, hexp]

/-- Digits with a point after the first are a significand. -/
theorem significand_pointAfterFirst {ds : List Char} (hds : AllDigits ds) (hne : ds ≠ []) :
    Significand (pointAfterFirst ds) ⟨ofDigits ds, 1 - ds.length⟩ := by
  cases ds with
  | nil => contradiction
  | cons d ds =>
    have hhead : AllDigits [d] := fun c hc => hds c (by simpa using Or.inl (List.mem_singleton.mp hc))
    have htail : AllDigits ds := fun c hc => hds c (List.mem_cons_of_mem d hc)
    cases ds with
    | nil => exact .whole hhead hne
    | cons d' ds =>
      have hpoint := Significand.point hhead htail (.inl (List.cons_ne_nil d []))
      have hexp : (1 : Int) - (d :: d' :: ds).length = -(d' :: ds).length := by
        simp only [List.length_cons]
        omega
      rw [hexp]
      exact hpoint

/-- Digits, or digits on both sides of a point: how a number is written without an exponent. -/
inductive Positional : List Char → Decimal → Prop where
  | whole {ds : List Char} (hds : AllDigits ds) (hne : ds ≠ []) : Positional ds ⟨ofDigits ds, 0⟩
  | point {ds ps : List Char} (hds : AllDigits ds) (hps : AllDigits ps) (hfront : ds ≠ []) (hback : ps ≠ []) :
      Positional (ds ++ '.' :: ps) ⟨ofDigits (ds ++ ps), -ps.length⟩

theorem Positional.significand {cs : List Char} {d : Decimal} (h : Positional cs d) : Significand cs d := by
  cases h with
  | whole hds hne => exact .whole hds hne
  | point hds hps hfront _ => exact .point hds hps (.inl hfront)

section

variable (d : Decimal)

/-- The digits of a decimal, its leading digit before the point and its exponent after a mark. -/
theorem unsigned?_exponential :
    unsigned? (pointAfterFirst (digits d.coeff) ++
      'e' :: (if d.order < 0 then '-' else '+') :: digits d.order.natAbs) = some d := by
  have hsignificand := significand_pointAfterFirst (allDigits_digits d.coeff) (digits_ne_nil _)
  rw [unsigned?_significand hsignificand _ (by simp), if_neg (List.cons_ne_nil _ _), exponentPart?_signed,
    Option.map_some, ofDigits_digits]
  have hexp : d.order + (1 - (digits d.coeff).length) = d.exp := by
    rw [Decimal.order, digitCount]
    omega
  rw [hexp]

/-- A decimal below one, with zeros between the point and its digits. -/
theorem positional_below_one (h : d.order < 0) :
    Positional ('0' :: '.' :: List.replicate (-d.order - 1).toNat '0' ++ digits d.coeff) d := by
  have hplaces := (allDigits_zeros (-d.order - 1).toNat).append (allDigits_digits d.coeff)
  have hpositional := Positional.point (allDigits_zeros 1) hplaces (by simp) (by simp [digits_ne_nil])
  rw [ofDigits_zeros_append, ofDigits_zeros_append, ofDigits_digits] at hpositional
  have hexp : -((List.replicate (-d.order - 1).toNat '0' ++ digits d.coeff).length : Int) = d.exp := by
    rw [List.length_append, List.length_replicate]
    rw [Decimal.order, digitCount] at h ⊢
    omega
  rw [hexp] at hpositional
  exact hpositional

/-- A whole number, with zeros after its digits: they belong to the coefficient. -/
theorem positional_whole (h : (digits d.coeff).length ≤ d.order + 1) :
    ∃ d' : Decimal, d'.nearestCode = d.nearestCode ∧
      Positional (digits d.coeff ++ List.replicate (d.order + 1 - (digits d.coeff).length).toNat '0') d' := by
  have hdigits := (allDigits_digits d.coeff).append
    (allDigits_zeros (d.order + 1 - (digits d.coeff).length).toNat)
  refine ⟨_, ?_, Positional.whole hdigits (by simp [digits_ne_nil])⟩
  rw [ofDigits_append_zeros, ofDigits_digits, Decimal.nearestCode_shift_pow]
  have hexp : (0 : Int) + (d.order + 1 - (digits d.coeff).length).toNat = d.exp := by
    rw [Decimal.order, digitCount] at h ⊢
    omega
  rw [hexp]

/-- A point between the digits. -/
theorem positional_between (hlow : 0 ≤ d.order) (hhigh : d.order + 1 < (digits d.coeff).length) :
    Positional ((digits d.coeff).take (d.order + 1).toNat ++ '.' :: (digits d.coeff).drop (d.order + 1).toNat) d := by
  have hall := allDigits_digits d.coeff
  have htake : AllDigits ((digits d.coeff).take (d.order + 1).toNat) := fun c hc => hall c (List.mem_of_mem_take hc)
  have hdrop : AllDigits ((digits d.coeff).drop (d.order + 1).toNat) := fun c hc => hall c (List.mem_of_mem_drop hc)
  have hfront : (digits d.coeff).take (d.order + 1).toNat ≠ [] := by
    apply List.ne_nil_of_length_pos
    rw [List.length_take]
    omega
  have hback : (digits d.coeff).drop (d.order + 1).toNat ≠ [] := by
    apply List.ne_nil_of_length_pos
    rw [List.length_drop]
    omega
  have hpositional := Positional.point htake hdrop hfront hback
  rw [List.take_append_drop, ofDigits_digits, List.length_drop] at hpositional
  have hexp : -(((digits d.coeff).length - (d.order + 1).toNat : Nat) : Int) = d.exp := by
    rw [Decimal.order, digitCount] at hlow hhigh ⊢
    omega
  rw [hexp] at hpositional
  exact hpositional

end

theorem mem_pointAfterFirst {ds : List Char} {c : Char} (h : c ∈ pointAfterFirst ds) : c ∈ ds ∨ c = '.' := by
  match ds, h with
  | [d], h => exact .inl h
  | d :: d' :: ds, h =>
    simp only [pointAfterFirst, List.mem_cons (b := d), List.mem_cons (b := '.')] at h
    rcases h with h | h | h
    · exact .inl (h ▸ List.mem_cons_self)
    · exact .inr h
    · exact .inl (List.mem_cons_of_mem d h)

/-- The text of a finite number other than zero is made of digits, points, marks and signs, and reads back
    as the number. Without a mark it is positional. -/
theorem compact_of_read {x : Float} {negative : Bool} {mant : Nat} {exp : Int}
    (hread : read x = .finite negative mant exp) (hmant : mant ≠ 0) :
    ∃ body, compact x = signText negative ++ body ∧ (∀ c ∈ body, isNumberChar c = true) ∧
      ∃ d, unsigned? body = some d ∧ d.toFloat negative = x ∧ ('e' ∈ body ∨ Positional body d) := by
  obtain ⟨code, hcode, rfl, rfl, rfl⟩ := ofCode_of_read hread
  have hpos : 0 < code := Nat.pos_of_ne_zero fun hzero => hmant (by rw [hzero]; rfl)
  have hshortest := nearestCode_shortest hpos hcode
  have hfloat {d : Decimal} (h : d.nearestCode = code) : d.toFloat negative = ofCode negative code := by
    rw [Decimal.toFloat, h]
  rw [compact, hread, magnitudeCode_ofCode (Nat.le_of_lt hcode)]
  dsimp only
  rw [if_neg hmant, leading]
  refine ⟨_, rfl, ?_⟩
  have hpositional {body : List Char} {d : Decimal} (h : Positional body d) (hd : d.nearestCode = code) :
      (∀ c ∈ body, isNumberChar c = true) ∧
        ∃ d, unsigned? body = some d ∧ d.toFloat negative = ofCode negative code ∧ ('e' ∈ body ∨ Positional body d) :=
    ⟨h.significand.isNumberChar, d, unsigned?_literal (.plain h.significand), hfloat hd, .inr h⟩
  by_cases hmark : (shortest code).order < -6 ∨ 21 ≤ (shortest code).order
  · have hdigits (n : Nat) : ∀ c ∈ digits n, isNumberChar c = true := isNumberChar_of_allDigits (allDigits_digits n)
    rw [if_pos hmark]
    refine ⟨fun c hc => ?_, _, unsigned?_exponential _, hfloat hshortest, .inl (by simp)⟩
    rw [List.mem_append, List.mem_cons, List.mem_cons] at hc
    rcases hc with hc | rfl | rfl | hc
    · rcases mem_pointAfterFirst hc with hc | rfl
      · exact hdigits _ c hc
      · decide
    · decide
    · split <;> decide
    · exact hdigits _ c hc
  rw [if_neg hmark]
  by_cases hbelow : (shortest code).order < 0
  · rw [if_pos hbelow]
    exact hpositional (positional_below_one _ hbelow) hshortest
  rw [if_neg hbelow]
  by_cases hwhole : ((digits (shortest code).coeff).length : Int) ≤ (shortest code).order + 1
  · rw [if_pos hwhole]
    obtain ⟨d', hd', hbody⟩ := positional_whole _ hwhole
    exact hpositional hbody (hd'.trans hshortest)
  · rw [if_neg hwhole]
    exact hpositional (positional_between _ (by omega) (by omega)) hshortest

/-- The compact text of a finite number other than zero is read as the number. -/
theorem ofText?_compact {x : Float} {negative : Bool} {mant : Nat} {exp : Int}
    (hread : read x = .finite negative mant exp) (hmant : mant ≠ 0) : ofText? (compact x) = some x := by
  obtain ⟨body, hbody, hchars, d, hunsigned, hx, -⟩ := compact_of_read hread hmant
  rw [hbody]
  cases negative with
  | false => exact (ofText?_of_unsigned? hunsigned hchars).trans (congrArg some hx)
  | true => exact (ofText?_neg_of_unsigned? hunsigned hchars).trans (congrArg some hx)

/-- A magnitude in units and as a fraction. -/
theorem units_mul (code : Nat) :
    units code * (fraction (mantissa code) (exponent code)).2 =
      (fraction (mantissa code) (exponent code)).1 * unitsPerOne := by
  rw [fraction, units, Nat.mul_assoc, Nat.mul_assoc, two_pow_exponent]

theorem le_units_of_le {code n : Nat}
    (h : (fraction (mantissa code) (exponent code)).2 * n ≤ (fraction (mantissa code) (exponent code)).1) :
    n * unitsPerOne ≤ units code := by
  have hscaled := Nat.mul_le_mul_right unitsPerOne h
  rw [← units_mul, Nat.mul_assoc, Nat.mul_comm] at hscaled
  exact Nat.le_of_mul_le_mul_right hscaled (Nat.two_pow_pos _)

/-- The code of `10 ^ 21`, from where on numbers are no longer written in full. -/
private theorem exists_units_ten_pow : ∃ code, code < infiniteCode ∧ units code = 10 ^ 21 * unitsPerOne ∧
    (shortest code).order = 21 := by
  obtain ⟨k, hk⟩ : ∃ k, k = 1091 := ⟨_, rfl⟩
  have hunits := units_add (k := k) (m := 5 ^ 21 * 2 ^ 4) (by decide) (.inr (by decide))
  have hscale : 2 ^ k = 2 ^ 17 * unitsPerOne := two_pow_eq rfl (by omega)
  have hten : 5 ^ 21 * 2 ^ 4 * 2 ^ 17 = 10 ^ 21 := by decide
  have hshortest : (shortest (1091 * 2 ^ 52 + 5 ^ 21 * 2 ^ 4)).order = 21 := by decide +kernel
  rw [hscale, ← Nat.mul_assoc, hten] at hunits
  subst hk
  exact ⟨1091 * 2 ^ 52 + 5 ^ 21 * 2 ^ 4, by decide, hunits, hshortest⟩

/-- A positive decimal of a low order lies below a power of ten. -/
theorem Decimal.coeff_mul_lt {d : Decimal} {k : Nat} (h : d.order < k) :
    d.coeff * 10 ^ d.exp.toNat < 10 ^ k * 10 ^ (-d.exp).toNat := by
  obtain ⟨hcoeff, -⟩ := digitCount_bounds d.coeff
  rw [Decimal.order] at h
  calc d.coeff * 10 ^ d.exp.toNat < 10 ^ digitCount d.coeff * 10 ^ d.exp.toNat :=
        Nat.mul_lt_mul_of_pos_right hcoeff (Nat.pow_pos (by omega))
    _ = 10 ^ (digitCount d.coeff + d.exp.toNat) := (Nat.pow_add ..).symm
    _ ≤ 10 ^ (k + (-d.exp).toNat) := Nat.pow_le_pow_right (by omega) (by omega)
    _ = 10 ^ k * 10 ^ (-d.exp).toNat := Nat.pow_add ..

/-- Where a decimal is read as a positive finite double, its order is in range and its fraction is what is rounded. -/
theorem Decimal.nearestCode_fraction {d : Decimal} {code : Nat} (hpos : 0 < code) (hcode : code < infiniteCode)
    (h : d.nearestCode = code) :
    Number.nearestCode (d.coeff * 10 ^ d.exp.toNat) (10 ^ (-d.exp).toNat) = code := by
  rw [Decimal.nearestCode] at h
  split at h
  · omega
  · split at h
    · omega
    · rwa [Decimal.fraction, scaleTen, Nat.one_mul] at h

/-- A decimal below `10 ^ 21` reads back as a magnitude up to it: that number is a double itself, and nearer than all
    larger ones. -/
theorem order_shortest_of_le {code : Nat} (hcode : code < infiniteCode) (hlarge : 10 ^ 21 * unitsPerOne ≤ units code) :
    21 ≤ (shortest code).order := by
  obtain ⟨top, htop, hunits, horder⟩ := exists_units_ten_pow
  have hpos : 0 < code := by
    rcases Nat.eq_zero_or_pos code with rfl | hpos
    · rw [units_zero] at hlarge
      exact absurd (Nat.mul_pos (by decide) unitsPerOne_pos) (Nat.not_lt.mpr hlarge)
    · exact hpos
  refine Int.not_lt.mp fun hlow => ?_
  have hshortest := nearestCode_shortest hpos hcode
  have hless := Decimal.coeff_mul_lt (d := shortest code) (k := 21) hlow
  have hsame : units code = units top := by
    generalize shortest code = d at *
    have hden : 0 < 10 ^ (-d.exp).toNat := Nat.pow_pos (by omega)
    have hround := Decimal.nearestCode_fraction hpos hcode hshortest
    have hnear := (distance_nearestCode_le hden (hround ▸ hcode) top).1
    have hbelow := Nat.mul_lt_mul_of_pos_right hless unitsPerOne_pos
    have habove := Nat.mul_le_mul_right (10 ^ (-d.exp).toNat) hlarge
    rw [hround, hunits] at hnear
    rw [Nat.mul_right_comm (10 ^ 21)] at hbelow
    have hle : units code * 10 ^ (-d.exp).toNat ≤ 10 ^ 21 * unitsPerOne * 10 ^ (-d.exp).toNat := by
      simp only [distance] at hnear
      omega
    rw [hunits]
    exact Nat.le_antisymm (Nat.le_of_mul_le_mul_right hle hden) hlarge
  rw [units_inj hsame, horder] at hlow
  exact absurd hlow (by decide)

section

variable {code : Nat} (hcode : code < infiniteCode)
  (h : (fraction (mantissa code) (exponent code)).2 * 10 ^ 21 ≤ (fraction (mantissa code) (exponent code)).1)
  (negative : Bool)

include hcode h

/-- Numbers of `10 ^ 21` and more are written with an exponent. -/
theorem compact_of_le : compact (ofCode negative code) = signText negative ++
    (pointAfterFirst (digits (shortest code).coeff) ++ 'e' :: '+' :: digits (shortest code).order.natAbs) := by
  have hlarge := le_units_of_le h
  have horder := order_shortest_of_le hcode hlarge
  have hmant : mantissa code ≠ 0 := by
    intro hzero
    rw [units, hzero, Nat.zero_mul] at hlarge
    exact absurd (Nat.mul_pos (by decide) unitsPerOne_pos) (Nat.not_lt.mpr hlarge)
  rw [compact, read_ofCode hcode, magnitudeCode_ofCode (Nat.le_of_lt hcode)]
  dsimp only
  rw [if_neg hmant, leading]
  dsimp only
  rw [if_pos (.inr horder), if_neg (by omega)]

theorem mem_compact_of_le : 'e' ∈ compact (ofCode negative code) := by
  rw [compact_of_le hcode h]
  exact List.mem_append_right _ (List.mem_append_right _ List.mem_cons_self)

end

theorem Decimal.nearestCode_le (d : Decimal) : d.nearestCode ≤ infiniteCode := by
  rw [nearestCode]
  split
  · exact Nat.zero_le _
  · split
    · exact Nat.le_refl _
    · rw [Number.nearestCode]
      split
      · exact Nat.zero_le _
      · exact Nat.min_le_left _ _

/-- A finite number that is written without an exponent. -/
def Plain (x : Float) : Prop :=
  (∃ negative mant exp, read x = .finite negative mant exp) ∧ 'e' ∉ compact x

/-- The text of a decimal that is written without an exponent is read as it. -/
theorem positional_compact {d : Decimal} (h : Plain (d.toFloat false)) :
    ∃ d', Positional (compact (d.toFloat false)) d' ∧ d'.toFloat false = d.toFloat false := by
  obtain ⟨⟨negative, mant, exp, hread⟩, hmark⟩ := h
  obtain ⟨code, hcode, hx, hmant, -⟩ := ofCode_of_read hread
  have hsign : negative = false := by
    rw [← hasSign_ofCode d.nearestCode_le false, ← hasSign_ofCode (Nat.le_of_lt hcode) negative, ← hx, Decimal.toFloat]
  rw [hsign] at hread hx
  by_cases hzero : mant = 0
  · have hnone : code = 0 := by
      rcases Nat.eq_zero_or_pos code with hnone | hpos
      · exact hnone
      · exact absurd (hmant.symm.trans hzero) (Nat.ne_of_gt (mantissa_pos hpos))
    have htext : compact (d.toFloat false) = ['0'] := by
      rw [compact, hread]
      exact if_pos hzero
    rw [htext, hx, hnone]
    exact ⟨⟨0, 0⟩, .whole (allDigits_zeros 1) (List.cons_ne_nil _ _), rfl⟩
  · obtain ⟨body, hbody, -, d', -, hd', hpositional⟩ := compact_of_read hread hzero
    have htext : compact (d.toFloat false) = body := hbody
    rw [htext] at hmark ⊢
    exact ⟨d', hpositional.resolve_left hmark, hd'⟩

/-- A whole number that some double is. -/
def Representable (n : Nat) : Prop :=
  ∃ x : Float, toNat? x = some n

theorem units_eq_iff (code n : Nat) :
    units code = n * unitsPerOne ↔
      (fraction (mantissa code) (exponent code)).1 = n * (fraction (mantissa code) (exponent code)).2 := by
  have hden : 0 < (fraction (mantissa code) (exponent code)).2 := Nat.two_pow_pos _
  have hcross := units_mul code
  constructor
  · intro h
    rw [h, Nat.mul_right_comm] at hcross
    exact (Nat.eq_of_mul_eq_mul_right unitsPerOne_pos hcross).symm
  · intro h
    rw [h, Nat.mul_right_comm] at hcross
    exact Nat.eq_of_mul_eq_mul_right hden hcross

theorem units_of_representable {n : Nat} (h : Representable n) :
    ∃ code, code < infiniteCode ∧ units code = n * unitsPerOne := by
  obtain ⟨x, hx⟩ := h
  rw [toNat?] at hx
  split at hx
  · rename_i negative mant exp hread
    obtain ⟨code, hcode, rfl, rfl, rfl⟩ := ofCode_of_read hread
    refine ⟨code, hcode, (units_eq_iff code n).mpr ?_⟩
    dsimp only at hx
    split at hx
    · rename_i hwhole
      rw [← Option.some.inj hx]
      exact (Nat.div_mul_cancel (Nat.dvd_of_mod_eq_zero hwhole.1)).symm
    · cases hx
  · cases hx

theorem toNat?_of_units {code n : Nat} (hcode : code < infiniteCode) (h : units code = n * unitsPerOne) :
    toNat? (ofCode false code) = some n := by
  rw [units_eq_iff] at h
  have hden : 0 < (fraction (mantissa code) (exponent code)).2 := Nat.two_pow_pos _
  rw [toNat?, read_ofCode hcode]
  dsimp only
  rw [h, Nat.mul_mod_left, Nat.mul_div_cancel n hden, if_pos ⟨rfl, .inl rfl⟩]

/-- A whole number that is a double is its own nearest double. -/
theorem ofNat_of_units {code n : Nat} (hcode : code < infiniteCode) (h : units code = n * unitsPerOne) :
    ofNat n = ofCode false code := by
  rw [ofNat, nearestCode_units Nat.one_pos hcode (by rw [h, Nat.mul_one])]

theorem representable_of_lt {n : Nat} (h : n < 2 ^ 53) : Representable n := by
  obtain ⟨k, hk⟩ : ∃ k, k = 1074 := ⟨_, rfl⟩
  obtain ⟨code, hcode, hunits⟩ := exists_units h (show 52 ≤ k by omega) (by omega)
  have hone : 2 ^ k = unitsPerOne := by rw [hk, unitsPerOne]
  exact ⟨_, toNat?_of_units hcode (by rw [hunits, hone])⟩

section

variable {n : Nat} (h : Representable n)

include h

theorem toNat?_ofNat : toNat? (ofNat n) = some n := by
  obtain ⟨code, hcode, hunits⟩ := units_of_representable h
  rw [ofNat_of_units hcode hunits, toNat?_of_units hcode hunits]

theorem lt_of_representable {k : Nat} (hk : k = 1024) : n < 2 ^ k := by
  obtain ⟨code, hcode, hunits⟩ := units_of_representable h
  have hlift := lift_le hcode
  refine Nat.lt_of_mul_lt_mul_right (a := unitsPerOne) ?_
  calc n * unitsPerOne = mantissa code * 2 ^ lift code := hunits.symm
    _ < 2 ^ 53 * 2 ^ lift code := Nat.mul_lt_mul_of_pos_right (mantissa_lt code) (Nat.two_pow_pos _)
    _ ≤ 2 ^ (k + 1074) := by
        rw [← Nat.pow_add]
        exact Nat.pow_le_pow_right (by omega) (by omega)
    _ = 2 ^ k * unitsPerOne := two_pow_eq rfl rfl

theorem nearestCode_whole : Decimal.nearestCode ⟨n, 0⟩ = nearestCode n 1 := by
  rcases Nat.eq_zero_or_pos n with rfl | hpos
  · rw [Decimal.nearestCode, if_pos (.inl rfl), nearestCode, if_pos rfl]
  · have hfew : digitCount n - 1 < 400 := by
      rw [← Nat.pow_lt_pow_iff_right (a := 10) (by omega)]
      obtain ⟨k, hk⟩ : ∃ k, k = 1024 := ⟨_, rfl⟩
      calc 10 ^ (digitCount n - 1) ≤ n := (digitCount_bounds n).2 hpos
        _ < 2 ^ k := lt_of_representable h hk
        _ ≤ 10 ^ 400 := two_pow_le_ten_pow (by omega)
    have hsome := digitCount_pos n
    rw [Decimal.nearestCode_of_order hpos]
    · rw [Int.neg_zero, Int.toNat_zero, Nat.pow_zero, Nat.mul_one]
    · simp only [Decimal.order]
      omega
    · simp only [Decimal.order]
      omega

/-- The digits of a whole number are read as it. -/
theorem ofText?_digits : ofText? (digits n) = some (ofNat n) := by
  have hunsigned := unsigned?_significand (.whole (allDigits_digits n) (digits_ne_nil n)) [] (by simp)
  rw [List.append_nil, if_pos rfl, ofDigits_digits] at hunsigned
  rw [ofText?_of_unsigned? hunsigned (isNumberChar_of_allDigits (allDigits_digits n)), Decimal.toFloat, ofNat]
  rw [nearestCode_whole h]

/-- The text of a whole number is made of digits, points, marks and signs, and reads back as the number. -/
theorem natText_of_representable :
    natText n ≠ [] ∧ (∀ c ∈ natText n, isNumberChar c = true) ∧ ofText? (natText n) = some (ofNat n) := by
  rw [natText]
  split
  · exact ⟨digits_ne_nil n, isNumberChar_of_allDigits (allDigits_digits n), ofText?_digits h⟩
  · rename_i hlarge
    obtain ⟨code, hcode, hunits⟩ := units_of_representable h
    have hmant : mantissa code ≠ 0 := by
      intro hzero
      have hpos : 0 < n * unitsPerOne := Nat.mul_pos (by omega) unitsPerOne_pos
      rw [← hunits, units, hzero, Nat.zero_mul] at hpos
      omega
    have hread := read_ofCode hcode false
    rw [ofNat_of_units hcode hunits]
    obtain ⟨body, hbody, hchars, d, hunsigned, -⟩ := compact_of_read hread hmant
    have hne : body ≠ [] := by
      rintro rfl
      cases hunsigned
    rw [hbody]
    refine ⟨hne, hchars, ?_⟩
    rw [← hbody]
    exact ofText?_compact hread hmant

end

end ArrayCalc.Number
