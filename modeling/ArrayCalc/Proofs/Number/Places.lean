import ArrayCalc.Proofs.Number.General

namespace ArrayCalc.Number

def signed (negative : Bool) (q : ℚ) : ℚ :=
  if negative then -q else q

/-- The number that a double stands for, if it is finite. -/
def value? (x : Float) : Option ℚ :=
  match read x with
  | .finite negative mant exp => some (signed negative (magnitude mant exp))
  | _ => none

theorem value?_of_read {x : Float} {negative : Bool} {mant : Nat} {exp : Int} (h : read x = .finite negative mant exp) :
    value? x = some (signed negative (magnitude mant exp)) := by
  rw [value?, h]

theorem read_of_value? {x : Float} {v : ℚ} (h : value? x = some v) :
    ∃ negative mant exp, read x = .finite negative mant exp ∧ v = signed negative (magnitude mant exp) := by
  rw [value?] at h
  split at h
  · next negative mant exp hread => exact ⟨negative, mant, exp, hread, (Option.some.inj h).symm⟩
  · cases h

theorem signed_zero (negative : Bool) : signed negative 0 = 0 := by
  cases negative <;> simp [signed]

theorem signed_inj {negative : Bool} {q r : ℚ} : signed negative q = signed negative r ↔ q = r := by
  cases negative <;> simp [signed]

theorem signed_ne_ten_mul_iff (negative : Bool) (n : Nat) : (∀ m : Int, signed negative n ≠ 10 * m) ↔ n % 10 ≠ 0 := by
  have hint : signed negative n = ((if negative then -(n : Int) else n : Int) : ℚ) := by
    cases negative <;> simp [signed]
  rw [hint]
  constructor
  · intro h hzero
    apply h ((if negative then -(n : Int) else n) / 10)
    have hdiv : (if negative then -(n : Int) else n) = 10 * ((if negative then -(n : Int) else n) / 10) := by
      split <;> omega
    exact_mod_cast hdiv
  · intro h m hm
    have hsame : (if negative then -(n : Int) else n) = 10 * m := by exact_mod_cast hm
    split at hsame <;> omega

theorem abs_signed (negative : Bool) (q : ℚ) : |signed negative q| = |q| := by
  cases negative <;> simp [signed]

theorem magnitude_nonneg (mant : Nat) (exp : Int) : 0 ≤ magnitude mant exp :=
  mul_nonneg mant.cast_nonneg (zpow_nonneg (by norm_num) exp)

/-- A number rounded to whole units of a decimal place: no multiple of the unit is nearer to it, and none that is as
    near is farther from zero. -/
structure RoundsToPlaces (places : Nat) (v w : ℚ) : Prop where
  unit : ∃ n : Int, w = n / 10 ^ places
  nearest : ∀ n : Int, |v - w| ≤ |v - n / 10 ^ places|
  tie : ∀ n : Int, |v - n / 10 ^ places| = |v - w| → |(n / 10 ^ places : ℚ)| ≤ |w|

private theorem abs_sub_units (v : ℚ) (places : Nat) (n : ℚ) :
    |v - n / 10 ^ places| = |v * 10 ^ places - n| / 10 ^ places := by
  have hunit : (0 : ℚ) < 10 ^ places := by positivity
  rw [eq_div_iff hunit.ne', ← abs_of_pos hunit, ← abs_mul, abs_of_pos hunit, sub_mul, div_mul_cancel₀ n hunit.ne']

namespace RoundsToPlaces

variable {places : Nat} {v w : ℚ}

/-- Rounding moves a number by half a unit at most. -/
theorem abs_sub_le (h : RoundsToPlaces places v w) : |v - w| ≤ 1 / 2 / 10 ^ places := by
  refine (h.nearest (round (v * 10 ^ places))).trans ?_
  rw [abs_sub_units]
  exact div_le_div_of_nonneg_right (abs_sub_round _) (by positivity)

theorem neg (h : RoundsToPlaces places v w) : RoundsToPlaces places (-v) (-w) := by
  have hflip (u : ℚ) : |-v - -u| = |v - u| := by rw [← abs_neg, neg_sub_neg, neg_sub]
  have hmultiple (n : Int) : |-v - n / 10 ^ places| = |v - (-n : Int) / 10 ^ places| := by
    rw [← hflip, Int.cast_neg, neg_div, neg_neg]
  obtain ⟨n, rfl⟩ := h.unit
  constructor
  · exact ⟨-n, by rw [Int.cast_neg, neg_div]⟩
  · intro m
    rw [hflip, hmultiple]
    exact h.nearest (-m)
  · intro m htie
    rw [hflip, hmultiple] at htie
    have hle := h.tie (-m) htie
    rwa [Int.cast_neg, neg_div, abs_neg, ← abs_neg (n / 10 ^ places : ℚ)] at hle

theorem signed (h : RoundsToPlaces places v w) (negative : Bool) :
    RoundsToPlaces places (signed negative v) (signed negative w) := by
  cases negative with
  | false => exact h
  | true => exact h.neg

/-- No whole number, of either sign, is nearer than the rounded one, and none that is as near is larger. -/
private theorem abs_sub_floor_half_le_int (hv : 0 ≤ v) (n : Int) :
    |v - ⌊v + 1 / 2⌋₊| ≤ |v - n| ∧ (|v - n| = |v - ⌊v + 1 / 2⌋₊| → |(n : ℚ)| ≤ ⌊v + 1 / 2⌋₊) := by
  rcases Int.lt_or_le n 0 with hneg | hpos
  · have hn : (n : ℚ) < 0 := by exact_mod_cast hneg
    have hzero := (abs_sub_floor_half_le hv 0).1
    rw [Nat.cast_zero, sub_zero, abs_of_nonneg hv] at hzero
    have hfar : v < |v - n| := by
      rw [abs_of_pos (by linarith)]
      linarith
    exact ⟨by linarith, fun htie => by linarith⟩
  · obtain ⟨j, rfl⟩ := Int.eq_ofNat_of_zero_le hpos
    obtain ⟨hnear, htie⟩ := abs_sub_floor_half_le hv j
    simp only [Int.cast_natCast, Nat.abs_cast, Nat.cast_le]
    exact ⟨hnear, htie⟩

theorem of_nonneg (hv : 0 ≤ v) : RoundsToPlaces places v (⌊v * 10 ^ places + 1 / 2⌋₊ / 10 ^ places) := by
  have hunit : (0 : ℚ) < 10 ^ places := by positivity
  have hscaled : 0 ≤ v * 10 ^ places := mul_nonneg hv hunit.le
  refine ⟨⟨⌊v * 10 ^ places + 1 / 2⌋₊, by rw [Int.cast_natCast]⟩, fun n => ?_, fun n htie => ?_⟩
  · rw [abs_sub_units, abs_sub_units]
    exact div_le_div_of_nonneg_right (abs_sub_floor_half_le_int hscaled n).1 hunit.le
  · rw [abs_sub_units, abs_sub_units, div_left_inj' hunit.ne'] at htie
    rw [abs_div, abs_div, Nat.abs_cast]
    exact div_le_div_of_nonneg_right ((abs_sub_floor_half_le_int hscaled n).2 htie) (abs_nonneg _)

end RoundsToPlaces

/-- Digits around a point, after a sign if need be, and the number that they stand for. -/
inductive PointNotation : List Char → ℚ → Prop where
  | mk (negative : Bool) {ds ps : List Char} (hds : AllDigits ds) (hps : AllDigits ps) (hne : ds ≠ [] ∨ ps ≠ []) :
    PointNotation (signText negative ++ ds ++ '.' :: ps) (signed negative (ofDigits (ds ++ ps) / 10 ^ ps.length))

theorem signText_append_inj {negative negative' : Bool} {ds ds' : List Char} (hds : AllDigits ds) (hds' : AllDigits ds')
    (h : signText negative ++ ds = signText negative' ++ ds') : negative = negative' ∧ ds = ds' := by
  have hminus {ds : List Char} (hds : AllDigits ds) (rest : List Char) : '-' :: rest ≠ ds := by
    rintro rfl
    exact absurd (hds '-' List.mem_cons_self) (by decide)
  cases negative <;> cases negative'
  · exact ⟨rfl, h⟩
  · exact absurd h.symm (hminus hds _)
  · exact absurd h (hminus hds' _)
  · exact ⟨rfl, List.cons_injective h⟩

theorem AllDigits.notMem_point {ds : List Char} (h : AllDigits ds) : '.' ∉ ds :=
  fun hmem => absurd (h '.' hmem) (by decide)

theorem notMem_signText_append {negative : Bool} {ds : List Char} (hds : AllDigits ds) :
    '.' ∉ signText negative ++ ds := by
  intro hmem
  rcases List.mem_append.mp hmem with hmem | hmem
  · cases negative <;> simp [signText] at hmem
  · exact hds.notMem_point hmem

/-- A text in point notation stands for one number. -/
theorem pointNotation_iff {negative : Bool} {ds ps : List Char} (hds : AllDigits ds) (hps : AllDigits ps) (w : ℚ) :
    PointNotation (signText negative ++ ds ++ '.' :: ps) w ↔
      (ds ≠ [] ∨ ps ≠ []) ∧ w = signed negative (ofDigits (ds ++ ps) / 10 ^ ps.length) := by
  constructor
  · intro h
    generalize hcs : signText negative ++ ds ++ '.' :: ps = cs at h
    obtain @⟨negative', ds', ps', hds', hps', hne⟩ := h
    obtain ⟨hfront, -, rfl⟩ := (List.append_cons_inj_of_notMem (notMem_signText_append hds) hps.notMem_point).mp hcs
    obtain ⟨rfl, rfl⟩ := signText_append_inj hds hds' hfront
    exact ⟨hne, rfl⟩
  · rintro ⟨hne, rfl⟩
    exact .mk negative hds hps hne

/-- The digits that are left before and after the point of a number of units of a decimal place when the zeros at the
    end of its text are dropped. Without places there is no point that would keep the zeros of the number. -/
structure Stripped (places n : Nat) (ds ps : List Char) : Prop where
  whole : AllDigits ds
  fraction : AllDigits ps
  value : 0 < places → (ofDigits (ds ++ ps) / 10 ^ ps.length : ℚ) = n / 10 ^ places ∧ ds ≠ []
  kept : places = 0 → ps = [] ∧ ds.getLast? ≠ some '0' ∧ ∃ k, digits n = ds ++ List.replicate k '0'

theorem getLast?_digits (n : Nat) : (digits n).getLast? = some (digitChar (n % 10)) := by
  rcases Nat.lt_or_ge n 10 with hlt | hge
  · rw [digits_of_lt hlt, Nat.mod_eq_of_lt hlt]
    rfl
  · rw [digits_of_le hge, List.getLast?_concat]

namespace Stripped

variable {places n : Nat} {ds ps : List Char}

/-- Without places, the digits that are left write the number exactly if it does not end in a zero. -/
theorem exists_zeros (h : Stripped 0 n ds ps) :
    ∃ k, digits n = ds ++ List.replicate k '0' ∧ n = ofDigits ds * 10 ^ k ∧ (k = 0 ↔ n % 10 ≠ 0) := by
  obtain ⟨-, hlast, k, hdigits⟩ := h.kept rfl
  have hvalue : n = ofDigits ds * 10 ^ k := by rw [← ofDigits_append_zeros, ← hdigits, ofDigits_digits]
  refine ⟨k, hdigits, hvalue, ?_⟩
  constructor
  · rintro rfl hzero
    have hds := getLast?_digits n
    rw [hdigits, List.replicate_zero, List.append_nil, hzero] at hds
    exact hlast hds
  · intro hne
    cases k with
    | zero => rfl
    | succ k =>
      rw [hvalue, Nat.pow_succ, ← Nat.mul_assoc, Nat.mul_mod_left] at hne
      contradiction

/-- The text that is left stands for the units exactly if there are places or the number does not end in a zero. -/
theorem pointNotation_iff (h : Stripped places n ds ps) (negative : Bool) :
    PointNotation (signText negative ++ ds ++ '.' :: ps) (signed negative (n / 10 ^ places)) ↔
      0 < places ∨ n % 10 ≠ 0 := by
  rw [Number.pointNotation_iff h.whole h.fraction, signed_inj]
  rcases Nat.eq_zero_or_pos places with rfl | hpos
  · obtain ⟨rfl, -⟩ := h.kept rfl
    obtain ⟨k, hdigits, hvalue, hk⟩ := h.exists_zeros
    simp only [ne_eq, not_true_eq_false, or_false, List.append_nil, List.length_nil, pow_zero, div_one, Nat.cast_inj,
      lt_irrefl, false_or]
    rw [← ne_eq (n % 10), ← hk]
    constructor
    · rintro ⟨hne, hsame⟩
      by_contra hmore
      have hpow : 10 ^ 1 ≤ 10 ^ k := Nat.pow_le_pow_right (by omega) (by omega)
      have hzero : n = 0 := by
        rw [← hsame] at hvalue
        nlinarith
      have hlength := congrArg List.length hdigits
      have hpos := List.length_pos_iff.mpr hne
      rw [hzero, digits_of_lt (by omega), List.length_append, List.length_replicate, List.length_singleton] at hlength
      omega
    · rintro rfl
      rw [List.replicate_zero, List.append_nil] at hdigits
      rw [Nat.pow_zero, Nat.mul_one] at hvalue
      exact ⟨hdigits ▸ digits_ne_nil n, hvalue⟩
  · obtain ⟨hvalue, hne⟩ := h.value hpos
    exact iff_of_true ⟨.inl hne, hvalue.symm⟩ (.inl hpos)

end Stripped

/-- Zeros at the end of the places do not count. -/
theorem ofDigits_append_zeros_div (ds ps : List Char) (k : Nat) :
    (ofDigits (ds ++ (ps ++ List.replicate k '0')) / 10 ^ (ps ++ List.replicate k '0').length : ℚ) =
      ofDigits (ds ++ ps) / 10 ^ ps.length := by
  rw [← List.append_assoc, ofDigits_append_zeros, List.length_append, List.length_replicate, pow_add, Nat.cast_mul,
    Nat.cast_pow, Nat.cast_ofNat, mul_div_mul_right _ _ (by positivity)]

/-- Zeros at the end of a text go, what stands before it stays. -/
theorem stripRight_append {front cs kept : List Char} {k : Nat} (hcs : cs = kept ++ List.replicate k '0')
    (hlast : kept.getLast? ≠ some '0') (hfront : kept = [] → front.getLast? ≠ some '0') :
    Text.stripRight '0' (front ++ cs) = front ++ kept := by
  have hend : (front ++ kept).getLast? ≠ some '0' := by
    rw [List.getLast?_append]
    cases hkept : kept.getLast? with
    | none => simpa using hfront (List.getLast?_eq_none_iff.mp hkept)
    | some c => simpa [hkept] using hlast
  rw [hcs, ← List.append_assoc, stripRight_append_zeros, stripRight_of_getLast? hend]

/-- The text of a number of units of a decimal place, without the zeros at its end. -/
theorem exists_stripRight_places (places n : Nat) : ∃ ds ps, Stripped places n ds ps ∧
    ∀ front, front.getLast? ≠ some '0' →
      Text.stripRight '0' (front ++ pointBefore places (Text.padLeft (places + 1) '0' (digits n))) =
        front ++ ds ++ if places = 0 then [] else '.' :: ps := by
  obtain ⟨ps, hps, rfl, hcut⟩ := padLeft_digits n places
  have hunits : ofDigits (digits (n / 10 ^ ps.length) ++ ps) = n := by rw [← hcut, ofDigits_padLeft]
  rw [hcut]
  by_cases hne : ps = []
  · subst hne
    obtain ⟨kept, k, hkept, hlast⟩ := exists_append_zeros (digits n)
    have hdigits : AllDigits kept := fun c hc => allDigits_digits n c (by rw [hkept]; exact List.mem_append_left _ hc)
    refine ⟨kept, [], ⟨hdigits, nofun, nofun, fun _ => ⟨rfl, hlast, k, hkept⟩⟩, fun front hfront => ?_⟩
    rw [pointBefore, List.length_nil, if_pos rfl, if_pos rfl, Nat.pow_zero, Nat.div_one, List.append_nil,
      stripRight_append hkept hlast fun _ => hfront, List.append_nil]
  · obtain ⟨kept, k, rfl, hlast⟩ := exists_append_zeros ps
    have hpositive := List.length_pos_iff.mpr hne
    have hdigits : AllDigits kept := fun c hc => hps c (List.mem_append_left _ hc)
    have hend : ('.' :: kept).getLast? ≠ some '0' := by
      cases kept with
      | nil => simp
      | cons c cs => simpa using hlast
    refine ⟨digits (n / 10 ^ (kept ++ List.replicate k '0').length), kept,
      ⟨allDigits_digits _, hdigits, fun _ => ⟨?_, digits_ne_nil _⟩, fun hzero => by omega⟩, fun front _ => ?_⟩
    · rw [← ofDigits_append_zeros_div _ kept k, hunits]
    · rw [pointBefore_append hne, if_neg (by omega), ← List.append_assoc,
        stripRight_append (List.cons_append ..).symm hend (absurd · (List.cons_ne_nil _ _))]

/-- A count of places from 0 to 100 is taken as it is. -/
theorem places?_of_truncated? {count : Float} {places : Nat} (h : truncated? count = some (places : Int))
    (hmax : places ≤ maxPlaces) : places? count = some places := by
  have hfinite := h
  rw [truncated?] at hfinite
  rw [places?]
  split at hfinite
  · rename_i hread
    rw [hread]
    simp only [h]
    exact if_pos hmax
  · cases hfinite

/-- The significant digits of a magnitude in scientific notation are as many as are asked for. -/
theorem exists_exponential_eq (mant : Nat) (exp : Int) (extra : Nat) :
    ∃ d ds, exponential mant exp extra = (d :: ds, (roundSignificant mant exp extra).exp + extra) ∧
      AllDigits (d :: ds) ∧ ds.length = extra := by
  have hcount : (digits (roundSignificant mant exp extra).coeff).length ≤ extra + 1 := by
    rcases Nat.eq_zero_or_pos mant with rfl | hmant
    · have hzero : digits 0 = ['0'] := digits_of_lt (by omega)
      rw [roundSignificant, if_pos rfl, hzero, List.length_singleton]
      omega
    · exact ((roundsTo_roundSignificant mant exp extra).hasDigits (magnitude_pos hmant exp)).digitCount_eq.le
  have hlength : (Text.padLeft (extra + 1) '0' (digits (roundSignificant mant exp extra).coeff)).length = extra + 1 := by
    rw [Text.padLeft, List.length_append, List.length_replicate]
    omega
  obtain ⟨d, ds, hds⟩ := List.exists_cons_of_length_eq_add_one hlength
  have hdigits := allDigits_padLeft (extra + 1) (roundSignificant mant exp extra).coeff
  rw [hds] at hdigits hlength
  exact ⟨d, ds, by rw [exponential_eq, hds], hdigits, Nat.succ.inj hlength⟩

/-- The exponent of a rounded magnitude lies between those of the powers of ten around the magnitude. -/
theorem order_roundSignificant_bounds {mant : Nat} {exp low high : Int} (hlow : 10 ^ low ≤ magnitude mant exp)
    (hhigh : magnitude mant exp < 10 ^ high) (extra : Nat) :
    low ≤ (roundSignificant mant exp extra).exp + extra ∧ (roundSignificant mant exp extra).exp + extra ≤ high := by
  have hmant : 0 < mant := by
    refine Nat.pos_of_ne_zero fun hzero => ?_
    rw [hzero, magnitude_zero] at hlow
    exact absurd hlow (not_le.mpr (zpow_pos (by norm_num) low))
  obtain ⟨last, n, hlast, hnext, -, hround⟩ := roundSignificant_eq hmant exp extra
  have hless : low < last + extra + 1 := (zpow_lt_zpow_iff_right₀ (by norm_num)).mp (hlow.trans_lt hnext)
  have hmore : last + extra < high := (zpow_lt_zpow_iff_right₀ (by norm_num)).mp (hlast.trans_lt hhigh)
  rw [hround]
  split
  · dsimp only
    omega
  · dsimp only
    omega

/-- Exponents below a hundred are written with two digits. -/
theorem length_exponentText {exp : Int} (h : exp.natAbs < 100) : (exponentText exp).length = 4 := by
  have hcount : (digits exp.natAbs).length ≤ 2 := by
    rcases Nat.lt_or_ge exp.natAbs 10 with hlt | hge
    · rw [digits_of_lt hlt, List.length_singleton]
      omega
    · rw [digits_of_le hge, digits_of_lt (by omega), List.length_append, List.length_singleton, List.length_singleton]
  rw [exponentText, List.length_cons, List.length_cons, Text.padLeft, List.length_append, List.length_replicate]
  omega

end ArrayCalc.Number
