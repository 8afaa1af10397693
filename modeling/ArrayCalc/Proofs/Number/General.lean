import ArrayCalc.Proofs.Number.Compact
import ArrayCalc.Proofs.Number.Significant

namespace ArrayCalc.Number

/-- How a decimal is written without superfluous zeros: a whole number, with a point and further digits if need be, the
    last of them not zero. -/
inductive Trimmed : List Char → Decimal → Prop where
  | whole (n : Nat) : Trimmed (digits n) ⟨n, 0⟩
  | point (n : Nat) {ps : List Char} (hps : AllDigits ps) (hne : ps ≠ []) (hlast : ps.getLast? ≠ some '0') :
      Trimmed (digits n ++ '.' :: ps) ⟨ofDigits (digits n ++ ps), -ps.length⟩

theorem Trimmed.significand {cs : List Char} {d : Decimal} (h : Trimmed cs d) : Significand cs d := by
  cases h with
  | whole n =>
    have hwhole := Significand.whole (allDigits_digits n) (digits_ne_nil n)
    rwa [ofDigits_digits] at hwhole
  | point n hps hne hlast => exact .point (allDigits_digits n) hps (.inr hne)

theorem exponentText_ne_nil (exp : Int) : exponentText exp ≠ [] :=
  List.cons_ne_nil _ _

theorem ofDigits_padLeft (width n : Nat) : ofDigits (Text.padLeft width '0' (digits n)) = n := by
  rw [Text.padLeft, ofDigits_zeros_append, ofDigits_digits]

theorem allDigits_padLeft (width n : Nat) : AllDigits (Text.padLeft width '0' (digits n)) :=
  (allDigits_zeros _).append (allDigits_digits n)

/-- A padded exponent is read as one that is not. -/
theorem exponentPart?_exponentText (exp : Int) : exponentPart? (exponentText exp) = some exp := by
  have hne : Text.padLeft 2 '0' (digits exp.natAbs) ≠ [] :=
    List.append_ne_nil_of_right_ne_nil _ (digits_ne_nil _)
  have hdigits : Text.padLeft 2 '0' (digits exp.natAbs) ≠ [] ∧
      (Text.padLeft 2 '0' (digits exp.natAbs)).all Char.isDigit = true := ⟨hne, (allDigits_padLeft 2 _).all⟩
  have hvalue := ofDigits_padLeft 2 exp.natAbs
  rw [exponentText]
  split
  · have hexp : -(exp.natAbs : Int) = exp := by omega
    rw [exponentPart?, if_pos (.inl rfl), if_pos hdigits, if_pos rfl, hvalue, hexp]
  · have hexp : (exp.natAbs : Int) = exp := by omega
    rw [exponentPart?, if_pos (.inl rfl), if_pos hdigits, if_neg Bool.false_ne_true, hvalue, hexp]

/-- A significand with an exponent is read with this exponent added to its own. -/
theorem unsigned?_exponentText {cs : List Char} {d : Decimal} (h : Significand cs d) (exp : Int) :
    unsigned? (cs ++ exponentText exp) = some ⟨d.coeff, exp + d.exp⟩ := by
  rw [unsigned?_significand h _ (by simp [exponentText]), if_neg (exponentText_ne_nil exp), exponentPart?_exponentText]
  rfl

/-- Zeros at the end of a text, and what stands before them. -/
theorem stripRight_append_zeros (cs : List Char) (k : Nat) :
    Text.stripRight '0' (cs ++ List.replicate k '0') = Text.stripRight '0' cs := by
  rw [Text.stripRight, Text.stripRight, List.reverse_append, List.reverse_replicate, List.dropWhile_append_of_pos]
  intro c hc
  exact decide_eq_true (List.eq_of_mem_replicate hc)

theorem stripRight_of_getLast? {cs : List Char} (h : cs.getLast? ≠ some '0') : Text.stripRight '0' cs = cs := by
  have hdrop : cs.reverse.dropWhile (fun c => decide (c = '0')) = cs.reverse := by
    rw [List.getLast?_eq_head?_reverse] at h
    cases hrev : cs.reverse with
    | nil => rfl
    | cons c rest =>
      rw [hrev, List.head?_cons] at h
      rw [List.dropWhile_cons_of_neg]
      simpa using h
  rw [Text.stripRight, hdrop, List.reverse_reverse]

/-- Every text is one that does not end in zero, with zeros after it. -/
theorem exists_append_zeros (cs : List Char) :
    ∃ (kept : List Char) (k : Nat), cs = kept ++ List.replicate k '0' ∧ kept.getLast? ≠ some '0' := by
  induction cs using List.reverseRecOn with
  | nil => exact ⟨[], 0, rfl, nofun⟩
  | append_singleton cs c ih =>
    by_cases hc : c = '0'
    · obtain ⟨kept, k, rfl, hkept⟩ := ih
      exact ⟨kept, k + 1, by rw [hc, List.append_assoc, List.replicate_succ'], hkept⟩
    · exact ⟨cs ++ [c], 0, by simp, by simpa using hc⟩

/-- A number with places after the point, without the zeros at its end: the decimal keeps its value. -/
theorem trimmed_stripFraction (n : Nat) {ps : List Char} (hps : AllDigits ps) :
    ∃ d, Trimmed (stripFraction (digits n ++ '.' :: ps)) d ∧
      d.value = Decimal.value ⟨ofDigits (digits n ++ ps), -ps.length⟩ := by
  obtain ⟨kept, k, rfl, hkept⟩ := exists_append_zeros ps
  have hkeptDigits : AllDigits kept := fun c hc => hps c (List.mem_append_left _ hc)
  have hvalue : Decimal.value ⟨ofDigits (digits n ++ (kept ++ List.replicate k '0')),
      -(kept ++ List.replicate k '0').length⟩ = Decimal.value ⟨ofDigits (digits n ++ kept), -kept.length⟩ := by
    rw [← List.append_assoc, ofDigits_append_zeros, Decimal.value, Decimal.value, List.length_append,
      List.length_replicate]
    push_cast
    rw [neg_add, zpow_add₀ (by norm_num), zpow_neg, zpow_neg, zpow_natCast, zpow_natCast]
    field_simp
  have hstrip : Text.stripRight '0' (digits n ++ '.' :: (kept ++ List.replicate k '0')) = digits n ++ '.' :: kept := by
    have hlast : (digits n ++ '.' :: kept).getLast? ≠ some '0' := by
      cases kept with
      | nil => simp
      | cons c cs => simpa using hkept
    rw [← List.cons_append, ← List.append_assoc, stripRight_append_zeros, stripRight_of_getLast? hlast]
  rw [hvalue, stripFraction, if_pos (by simp), hstrip]
  dsimp only
  cases kept with
  | nil =>
    rw [if_pos (by simp), List.dropLast_concat, List.append_nil, ofDigits_digits]
    exact ⟨_, .whole n, rfl⟩
  | cons c cs =>
    have hpoint : (digits n ++ '.' :: c :: cs).getLast? ≠ some '.' := by
      intro hlast
      have hmem : '.' ∈ c :: cs := by
        apply List.mem_of_getLast?
        simpa using hlast
      exact absurd (hkeptDigits '.' hmem) (by decide)
    rw [if_neg hpoint]
    exact ⟨_, .point n hkeptDigits (List.cons_ne_nil c cs) hkept, rfl⟩

theorem stripFraction_digits (n : Nat) : stripFraction (digits n) = digits n := by
  have hpoint : '.' ∉ digits n := fun h => absurd (allDigits_digits n '.' h) (by decide)
  rw [stripFraction, if_neg hpoint]

/-- Digits with a point before the last `k` of them. -/
def pointBefore (k : Nat) (ds : List Char) : List Char :=
  if k = 0 then ds else ds.take (ds.length - k) ++ '.' :: ds.drop (ds.length - k)

theorem pointBefore_append {ps : List Char} (hne : ps ≠ []) (ds : List Char) :
    pointBefore ps.length (ds ++ ps) = ds ++ '.' :: ps := by
  have hlength : ps.length ≠ 0 := fun h => hne (List.length_eq_zero_iff.mp h)
  rw [pointBefore, if_neg hlength, List.length_append, Nat.add_sub_cancel, List.take_left, List.drop_left]

theorem pointAfterFirst_eq {ds : List Char} {k : Nat} (h : ds.length = k + 1) : pointAfterFirst ds = pointBefore k ds := by
  match ds, h with
  | [d], h =>
    cases Nat.succ.inj h
    rfl
  | d :: d' :: ds, h =>
    have hk : k = (d' :: ds).length := (Nat.succ.inj h).symm
    rw [hk]
    exact (pointBefore_append (List.cons_ne_nil d' ds) [d]).symm

theorem padLeft_digits_succ (n k : Nat) :
    Text.padLeft (k + 2) '0' (digits n) = Text.padLeft (k + 1) '0' (digits (n / 10)) ++ [digitChar (n % 10)] := by
  rcases Nat.lt_or_ge n 10 with hlt | hge
  · rw [digits_of_lt hlt, Nat.div_eq_of_lt hlt, Nat.mod_eq_of_lt hlt]
    simp [Text.padLeft, digits_of_lt, digitChar, List.replicate_succ']
  · have hlength : k + 2 - ((digits (n / 10)).length + 1) = k + 1 - (digits (n / 10)).length := Nat.succ_sub_succ _ _
    rw [digits_of_le hge, Text.padLeft, Text.padLeft, List.append_assoc, List.length_append, List.length_singleton,
      hlength]

/-- The digits of a number, cut before the last `k` of them: what stands before is the number without them. -/
theorem padLeft_digits (n k : Nat) :
    ∃ ps, AllDigits ps ∧ ps.length = k ∧ Text.padLeft (k + 1) '0' (digits n) = digits (n / 10 ^ k) ++ ps := by
  induction k generalizing n with
  | zero =>
    have hfull : 1 - (digits n).length = 0 := Nat.sub_eq_zero_of_le (digitCount_pos n)
    refine ⟨[], nofun, rfl, ?_⟩
    rw [Text.padLeft, hfull, Nat.pow_zero, Nat.div_one, List.append_nil]
    rfl
  | succ k ih =>
    obtain ⟨ps, hps, hlength, hcut⟩ := ih (n / 10)
    have hlast : AllDigits [digitChar (n % 10)] := by
      intro c hc
      rw [List.mem_singleton.mp hc]
      exact isDigit_digitChar (Nat.mod_lt n (by omega))
    refine ⟨ps ++ [digitChar (n % 10)], hps.append hlast, by rw [List.length_append, hlength]; rfl, ?_⟩
    rw [padLeft_digits_succ, hcut, Nat.div_div_eq_div_mul, ← Nat.pow_succ', List.append_assoc]

/-- A multiple of `10 ^ -k`, written with its `k` places and without the zeros at their end. -/
theorem trimmed_places (n k : Nat) :
    ∃ d, Trimmed (stripFraction (pointBefore k (Text.padLeft (k + 1) '0' (digits n)))) d ∧
      d.value = Decimal.value ⟨n, -k⟩ := by
  obtain ⟨ps, hps, rfl, hcut⟩ := padLeft_digits n k
  have hvalue : ofDigits (digits (n / 10 ^ ps.length) ++ ps) = n := by rw [← hcut, ofDigits_padLeft]
  by_cases hne : ps = []
  · subst hne
    rw [hcut, pointBefore, List.length_nil, if_pos rfl, List.append_nil, stripFraction_digits, Nat.pow_zero, Nat.div_one]
    exact ⟨_, .whole n, rfl⟩
  · obtain ⟨d, hd, hvalueOf⟩ := trimmed_stripFraction (n / 10 ^ ps.length) hps
    rw [hcut, pointBefore_append hne]
    rw [hvalue] at hvalueOf
    exact ⟨d, hd, hvalueOf⟩

/-- The significant digits of a magnitude, all of them written, and the exponent of the first. -/
theorem exponential_eq (mant : Nat) (exp : Int) (extra : Nat) :
    exponential mant exp extra =
      (Text.padLeft (extra + 1) '0' (digits (roundSignificant mant exp extra).coeff),
        (roundSignificant mant exp extra).exp + extra) := by
  rcases Nat.eq_zero_or_pos mant with rfl | hmant
  · have hzero : digits 0 = ['0'] := digits_of_lt (by omega)
    rw [exponential, roundSignificant, if_pos rfl, if_pos rfl, hzero, Text.padLeft, List.length_singleton,
      Nat.add_sub_cancel, List.replicate_succ', neg_add_cancel]
  · have hdigits := (roundsTo_roundSignificant mant exp extra).hasDigits (magnitude_pos hmant exp)
    have hcount := hdigits.digitCount_eq
    have hfull : extra + 1 - (digits (roundSignificant mant exp extra).coeff).length = 0 := by
      rw [← hcount]
      exact Nat.sub_self _
    rw [exponential, if_neg (Nat.ne_of_gt hmant), leading, Decimal.order, hcount, Text.padLeft, hfull, List.replicate_zero,
      List.nil_append]
    congr 1
    omega

/-- Below `10 ^ 21` a magnitude is written in units of its last place. -/
theorem fixed_eq {mant : Nat} {exp : Int} (h : magnitude mant exp < 10 ^ 21) (x : Float) (places : Nat) :
    fixed x mant exp places =
      pointBefore places (Text.padLeft (places + 1) '0' (digits (roundPlaces mant exp places))) := by
  have hsmall : ¬ (fraction mant exp).2 * 10 ^ 21 ≤ (fraction mant exp).1 := by
    have hden : (0 : ℚ) < (fraction mant exp).2 := by exact_mod_cast fraction_pos mant exp
    rw [← fraction_div, div_lt_iff₀ hden, mul_comm] at h
    exact Nat.not_le.mpr (by exact_mod_cast h)
  exact if_neg hsmall

theorem fraction_le_of_le {mant n : Nat} {exp : Int} (h : (n : ℚ) ≤ magnitude mant exp) :
    (fraction mant exp).2 * n ≤ (fraction mant exp).1 := by
  have hden : (0 : ℚ) < (fraction mant exp).2 := by exact_mod_cast fraction_pos mant exp
  rw [← fraction_div, le_div_iff₀ hden, mul_comm] at h
  exact_mod_cast h

/-- Numbers of `10 ^ 21` and more are not: they are written compactly, and that is with an exponent. -/
theorem fixed_of_le {x : Float} {negative : Bool} {mant : Nat} {exp : Int} (hread : read x = .finite negative mant exp)
    (h : 10 ^ 21 ≤ magnitude mant exp) (places : Nat) : fixed x mant exp places = compact x.abs ∧ 'e' ∈ compact x.abs := by
  have hlarge := fraction_le_of_le (n := 10 ^ 21) (by exact_mod_cast h)
  obtain ⟨code, hcode, rfl, rfl, rfl⟩ := ofCode_of_read hread
  rw [abs_ofCode (Nat.le_of_lt hcode)]
  refine ⟨?_, mem_compact_of_le hcode hlarge false⟩
  rw [fixed, abs_ofCode (Nat.le_of_lt hcode)]
  exact if_pos hlarge

theorem mem_stripRight {cs : List Char} {c : Char} (hc : c ≠ '0') (h : c ∈ cs) : c ∈ Text.stripRight '0' cs := by
  obtain ⟨kept, k, rfl, hkept⟩ := exists_append_zeros cs
  rw [stripRight_append_zeros, stripRight_of_getLast? hkept]
  exact (List.mem_append.mp h).resolve_right fun hzeros => hc (List.eq_of_mem_replicate hzeros)

theorem mem_stripFraction {cs : List Char} {c : Char} (hc : c ≠ '0') (hpoint : c ≠ '.') (h : c ∈ cs) :
    c ∈ stripFraction cs := by
  rw [stripFraction]
  split
  · have hkept := mem_stripRight hc h
    dsimp only
    split
    · rename_i hlast
      obtain ⟨front, hfront⟩ := List.getLast?_eq_some_iff.mp hlast
      rw [hfront] at hkept ⊢
      rw [List.dropLast_concat]
      exact (List.mem_append.mp hkept).resolve_right fun hmem => hpoint (List.mem_singleton.mp hmem)
    · exact hkept
  · exact h

/-- A whole number that is a double is its own count of digits. -/
theorem Significance.ofFloat_ofNat {n : Nat} (h : Representable n) : ofFloat (ofNat n) = .count (n - 1) := by
  obtain ⟨code, hcode, hunits⟩ := units_of_representable h
  have hread := read_ofCode hcode false
  have hwhole := (units_eq_iff code n).mp hunits
  have hden : 0 < (fraction (mantissa code) (exponent code)).2 := fraction_pos _ _
  have htruncated : truncated? (ofCode false code) = some (n : Int) := by
    rw [truncated?, hread]
    dsimp only
    rw [hwhole, Nat.mul_div_cancel n hden]
    rfl
  rw [ofNat_of_units hcode hunits, ofFloat, hread, htruncated]
  rfl

/-- The text with an exponent: its significand and exponent make up the rounded number. -/
theorem trimmed_exponential {d : Decimal} {extra : Nat} (h : d.HasDigits (extra + 1)) :
    ∃ m, Trimmed (stripFraction (pointAfterFirst (Text.padLeft (extra + 1) '0' (digits d.coeff)))) m ∧
      m.value * 10 ^ (d.exp + extra) = d.value := by
  have hlength : (Text.padLeft (extra + 1) '0' (digits d.coeff)).length = extra + 1 := by
    have hcount : (digits d.coeff).length = extra + 1 := h.digitCount_eq
    rw [Text.padLeft, List.length_append, List.length_replicate, hcount, Nat.sub_self, Nat.zero_add]
  obtain ⟨m, hm, hvalue⟩ := trimmed_places d.coeff extra
  rw [pointAfterFirst_eq hlength]
  refine ⟨m, hm, ?_⟩
  rw [hvalue, Decimal.value, Decimal.value, mul_assoc, ← zpow_add₀ (by norm_num), neg_add_cancel_comm_assoc]

/-- Zero stands without an exponent, however many digits are asked for. -/
theorem pos_of_scientific {mant : Nat} {exp : Int} {extra : Nat}
    (h : (roundSignificant mant exp extra).exp + extra < -4 ∨ 0 < (roundSignificant mant exp extra).exp) : 0 < mant := by
  refine Nat.pos_of_ne_zero fun hzero => ?_
  rw [roundSignificant, if_pos hzero] at h
  dsimp only at h
  omega

theorem unsigned?_of_trimmed {cs : List Char} {m : Decimal} (h : Trimmed cs m) (exp : Int) :
    ∃ m', unsigned? (cs ++ exponentText exp) = some m' ∧ m'.value = m.value * 10 ^ exp := by
  refine ⟨_, unsigned?_exponentText h.significand exp, ?_⟩
  rw [Decimal.value, Decimal.value, zpow_add₀ (by norm_num)]
  ring

/-- The text without an exponent stands for the rounded number: rounding at a place and rounding to significant digits
    agree, also where the digits carry into the next power of ten. -/
theorem trimmed_fixed {mant : Nat} {exp : Int} {extra places : Nat} (hsmall : magnitude mant exp < 10 ^ 21)
    (hplaces : (roundSignificant mant exp extra).exp = -places) (x : Float) :
    ∃ m, Trimmed (stripFraction (fixed x mant exp places)) m ∧ m.value = (roundSignificant mant exp extra).value := by
  obtain ⟨m, hm, hvalue⟩ := trimmed_places (roundSignificant mant exp extra).coeff places
  rw [fixed_eq hsmall, roundPlaces_eq_coeff hplaces]
  rw [← hplaces] at hvalue
  exact ⟨m, hm, hvalue⟩

/-- The layout of a finite number, by the exponent of the rounded one: the texts stand in units of its last digit. -/
theorem general_eq {x : Float} {negative : Bool} {mant : Nat} {exp : Int} (hread : read x = .finite negative mant exp)
    {extra : Nat} (hextra : extra ≤ 96) :
    general x (ofNat (extra + 1)) = .ok (signText negative ++
      if (roundSignificant mant exp extra).exp + extra < -4 ∨ 0 < (roundSignificant mant exp extra).exp then
        stripFraction (pointAfterFirst (Text.padLeft (extra + 1) '0' (digits (roundSignificant mant exp extra).coeff))) ++
          exponentText ((roundSignificant mant exp extra).exp + extra)
      else stripFraction (fixed x mant exp (-(roundSignificant mant exp extra).exp).toNat)) := by
  have hcount := Significance.ofFloat_ofNat (representable_of_lt (by omega : extra + 1 < 2 ^ 53))
  have hmax : maxPlaces = 100 := rfl
  rw [Nat.add_sub_cancel] at hcount
  rw [general, hread, hcount]
  dsimp only
  rw [if_neg (by omega), exponential_eq]
  generalize roundSignificant mant exp extra = d
  dsimp only
  by_cases hmark : d.exp + extra < -4 ∨ 0 < d.exp
  · rw [if_pos hmark, if_pos (hmark.imp_right fun h => by omega), List.append_assoc]
  · have hplaces : (extra : Int) - (d.exp + extra) = -d.exp := by omega
    rw [if_neg hmark, if_neg fun h => hmark (h.imp_right fun h => by omega), hplaces, if_neg (by omega)]

/-- A finite number with `p` significant digits: the nearest decimal with `p` digits decides by its exponent whether one is
    written. The text stands for exactly this decimal, with the sign of the number and without zeros at the end of the
    fraction, save for numbers of `10 ^ 21` and more whose exponent is below `p`: they get an exponent nevertheless, and
    from their compact text even zeros of the exponent are taken. -/
theorem general_of_finite {x : Float} {negative : Bool} {mant : Nat} {exp : Int}
    (hread : read x = .finite negative mant exp) {p : Nat} (hp : 1 ≤ p) (hp' : p ≤ 97) :
    ∃ d body, (∀ d', RoundsTo p (magnitude mant exp) d' ↔ d' = d) ∧
      general x (ofNat p) = .ok (signText negative ++ body) ∧
      let e : Int := d.exp + p - 1
      (e < -4 ∨ p ≤ e ∨ magnitude mant exp < 10 ^ 21 → ∃ m, unsigned? body = some m ∧ m.value = d.value) ∧
        (e < -4 ∨ p ≤ e → ∃ cs m, Trimmed cs m ∧ body = cs ++ exponentText e) ∧
        (¬ (e < -4 ∨ p ≤ e) → magnitude mant exp < 10 ^ 21 → ∃ m, Trimmed body m) ∧
        (¬ (e < -4 ∨ p ≤ e) → 10 ^ 21 ≤ magnitude mant exp →
          body = stripFraction (compact x.abs) ∧ 'e' ∈ body) := by
  obtain ⟨extra, rfl⟩ : ∃ extra, p = extra + 1 := ⟨p - 1, by omega⟩
  have hround := roundsTo_roundSignificant mant exp extra
  have hgeneral := general_eq hread (Nat.le_of_succ_le_succ hp')
  refine ⟨roundSignificant mant exp extra, _, fun d' => ⟨fun h => h.unique hround, fun h => h ▸ hround⟩, hgeneral, ?_⟩
  intro e
  have he : e = (roundSignificant mant exp extra).exp + extra := by
    dsimp only [e]
    push_cast
    ring
  have hmark : (e < -4 ∨ ((extra + 1 : Nat) : Int) ≤ e) ↔
      (roundSignificant mant exp extra).exp + extra < -4 ∨ 0 < (roundSignificant mant exp extra).exp := by
    omega
  by_cases hscientific : (roundSignificant mant exp extra).exp + extra < -4 ∨ 0 < (roundSignificant mant exp extra).exp
  · have hdigits := hround.hasDigits (magnitude_pos (pos_of_scientific hscientific) exp)
    obtain ⟨m, hm, hvalue⟩ := trimmed_exponential hdigits
    obtain ⟨m', hread', hvalue'⟩ := unsigned?_of_trimmed hm e
    rw [← he] at hvalue
    rw [if_pos hscientific, ← he]
    exact ⟨fun _ => ⟨m', hread', hvalue'.trans hvalue⟩, fun _ => ⟨_, m, hm, rfl⟩,
      fun hpositional => absurd (hmark.mpr hscientific) hpositional,
      fun hpositional => absurd (hmark.mpr hscientific) hpositional⟩
  · obtain ⟨places, hplaces⟩ : ∃ places : Nat, (roundSignificant mant exp extra).exp = -places :=
      ⟨(-(roundSignificant mant exp extra).exp).toNat, by omega⟩
    rw [if_neg hscientific, hplaces, neg_neg, Int.toNat_natCast]
    rw [← hmark] at hscientific
    by_cases hsmall : magnitude mant exp < 10 ^ 21
    · obtain ⟨m, hm, hvalue⟩ := trimmed_fixed hsmall hplaces x
      exact ⟨fun _ => ⟨m, unsigned?_literal (.plain hm.significand), hvalue⟩, fun h => absurd h hscientific,
        fun _ _ => ⟨m, hm⟩, fun _ hlarge => absurd hsmall (not_lt.mpr hlarge)⟩
    · obtain ⟨hfixed, hmem⟩ := fixed_of_le hread (not_lt.mp hsmall) places
      rw [hfixed]
      refine ⟨fun h => ?_, fun h => absurd h hscientific, fun _ h => absurd h hsmall,
        fun _ _ => ⟨rfl, mem_stripFraction (by decide) (by decide) hmem⟩⟩
      rcases h with h | h | h
      · exact absurd (.inl h) hscientific
      · exact absurd (.inr h) hscientific
      · exact absurd h hsmall

/-- A hundred thousand with four digits. -/
theorem general_of_finite_scientific :
    let x := ofNat 100000
    read x = .finite false 6871947673600000 (-36) ∧ 1 ≤ 4 ∧ 4 ≤ 97 ∧
      general x (ofNat 4) = .ok "1e+05".toList ∧
      ∃ d m, RoundsTo 4 (magnitude 6871947673600000 (-36)) d ∧ unsigned? "1e+05".toList = some m ∧ m.value = d.value := by
  intro x
  have hread : read x = .finite false 6871947673600000 (-36) := by decide +kernel
  have htext : (general x (ofNat 4)).toOption = some "1e+05".toList := by decide +kernel
  obtain ⟨d, body, hround, hgeneral, hvalue, -⟩ := general_of_finite hread (by decide : 1 ≤ 4) (by decide)
  have hsmall : magnitude 6871947673600000 (-36) < 10 ^ 21 := by norm_num [magnitude]
  obtain ⟨m, hm, hsame⟩ := hvalue (.inr (.inr hsmall))
  rw [hgeneral] at htext
  cases htext
  exact ⟨hread, by decide, by decide, hgeneral, d, m, (hround d).mpr rfl, hm, hsame⟩

/-- The leading digit of `2 ^ 100` stands at `10 ^ 30`, but with 31 digits its text is that of a number below two
    thousand. -/
theorem general_two_pow :
    let x := ofNat (2 ^ 100)
    let d : Decimal := ⟨2 ^ 100, 0⟩
    read x = .finite false (2 ^ 52) 48 ∧ RoundsTo 31 (magnitude (2 ^ 52) 48) d ∧ d.exp + 31 - 1 = 30 ∧
      (general x (ofNat 31)).toOption = some "1.2676506002282294e+3".toList ∧
      ∃ m, unsigned? "1.2676506002282294e+3".toList = some m ∧ m.value < 2000 ∧ 2000 < d.value := by
  intro x d
  have hround := roundsTo_roundSignificant (2 ^ 52) 48 30
  have hdigits : roundSignificant (2 ^ 52) 48 30 = d := by decide +kernel
  rw [hdigits] at hround
  refine ⟨by decide +kernel, hround, rfl, by decide +kernel, ⟨12676506002282294, -13⟩, by decide +kernel, ?_, ?_⟩
  · norm_num [Decimal.value]
  · norm_num [Decimal.value, d]

end ArrayCalc.Number
