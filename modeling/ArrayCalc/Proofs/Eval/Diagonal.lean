import ArrayCalc.Proofs.Eval.Failure
import ArrayCalc.Proofs.Tensor.Product

namespace ArrayCalc

namespace Tensor

variable {α : Type} [Zero α] {m n : Nat}

/-- The main diagonal of an array with `m` rows and `n` columns. -/
def mainDiagonal (t : Tensor α) (m n : Nat) : Tensor α :=
  generate [min m n] fun i => t.flat (i * n + i)

theorem hasEntry_mainDiagonal {t : Tensor α} (hwell : t.WellFormed) (hshape : t.shape = [m, n]) {i : Nat}
    (hi : i < min m n) : ∃ x, t.HasEntry [i, i] x ∧ (t.mainDiagonal m n).HasEntry [i] x := by
  have hwithin : t.shape.Within [i, i] := by
    rw [hshape]
    exact ⟨lt_min_iff.mp hi |>.1, lt_min_iff.mp hi |>.2, trivial⟩
  have hentry := hwell.hasEntry hwithin
  rw [hshape, Shape.ravel_pair] at hentry
  have hdiagonal : (t.mainDiagonal m n).HasEntry [i] _ := hasEntry_generate ⟨hi, trivial⟩
  rw [Shape.ravel_singleton] at hdiagonal
  exact ⟨_, hentry, hdiagonal⟩

/-- Transposition leaves the main diagonal where it is. -/
theorem mainDiagonal_transpose {t : Tensor α} (hshape : t.shape = [m, n]) :
    t.transpose.mainDiagonal n m = t.mainDiagonal m n := by
  rw [mainDiagonal, mainDiagonal, Nat.min_comm n m]
  refine generate_congr fun i hi => ?_
  rw [Shape.size_singleton] at hi
  have hrow : i < m := by omega
  have hcol : i < n := by omega
  exact flat_transpose hshape hrow hcol

/-- The square array with the elements of a vector on its diagonal and zeros elsewhere. -/
def onDiagonal (v : Tensor α) : Tensor α :=
  generate [v.data.size, v.data.size] fun k =>
    if k / v.data.size = k % v.data.size then v.flat (k / v.data.size) else 0

theorem hasEntry_onDiagonal (v : Tensor α) {i j : Nat} (hi : i < v.data.size) (hj : j < v.data.size) :
    v.onDiagonal.HasEntry [i, j] (if i = j then v.flat i else 0) := by
  obtain ⟨hrow, hcol⟩ := Shape.div_mod_block hj i
  have hwithin : Shape.Within [v.data.size, v.data.size] [i, j] := ⟨hi, hj, trivial⟩
  have hentry : v.onDiagonal.HasEntry [i, j] _ := hasEntry_generate hwithin
  rwa [Shape.ravel_pair, hrow, hcol] at hentry

/-- The diagonal of the square array is the vector. -/
theorem mainDiagonal_onDiagonal {v : Tensor α} (hwell : v.WellFormed) {k : Nat} (hshape : v.shape = [k]) :
    v.onDiagonal.mainDiagonal v.data.size v.data.size = v := by
  have hsize : v.data.size = k := by
    rw [hwell, hshape, Shape.size_singleton]
  have hdiagonal : v.onDiagonal.mainDiagonal v.data.size v.data.size = generate v.shape v.flat := by
    rw [mainDiagonal, Nat.min_self, hshape, hsize]
    refine generate_congr fun i hi => ?_
    rw [Shape.size_singleton] at hi
    obtain ⟨hrow, hcol⟩ := Shape.div_mod_block hi i
    have hplace : i * k + i < Shape.size [k, k] := by
      rw [Shape.size_pair]
      exact Shape.pair_lt hi hi
    rw [onDiagonal, hsize, flat_generate _ hplace, hrow, hcol, if_pos rfl]
  rw [hdiagonal, hwell.generate_flat]

end Tensor

/-- The trace of a matrix is the sum of its diagonal, term by term. -/
theorem Mat.trace_ofRowMajor (t : Tensor Float) (m n : Nat) :
    (ofRowMajor t.data : Mat Float m n).trace = total (t.mainDiagonal m n).data := by
  rw [trace, sumBetween, total, ← Array.foldl_toList, Tensor.mainDiagonal, Tensor.toList_data_generate, List.foldl_map,
    Shape.size_singleton, Nat.sub_zero, ← List.range_eq_range']
  -- Both sums run over the same places in the same order, so they round alike.
  refine List.foldl_ext _ _ 0 fun sum i hi => ?_
  rw [List.mem_range] at hi
  rw [ofRowMajor, get_ofFn _ (by omega) (by omega)]
  rfl

section

variable {capacity : Capacity} {label : String} {m n : Nat}

theorem diagonal_matrix {t : Tensor Float} (hshape : t.shape = [m, n]) :
    diagonal capacity label t = .ok (t.mainDiagonal m n) := by
  rw [diagonal, hshape]
  rfl

variable {v : Tensor Float}

theorem diagonal_vector_eq (hrank : v.rank = 1) :
    diagonal capacity label v = filled capacity [v.data.size, v.data.size] 0 >>= fun zeros =>
      .ok ⟨zeros.shape, zeros.data.mapIdx fun k x =>
        if k / v.data.size = k % v.data.size then v.flat (k / v.data.size) else x⟩ := by
  obtain ⟨k, hshape⟩ := List.length_eq_one_iff.mp hrank
  rw [diagonal, hshape]

theorem diagonal_vector (hrank : v.rank = 1) (hlargest : v.data.size * v.data.size ≤ capacity.largest)
    (havailable : v.data.size * v.data.size ≤ capacity.available) :
    diagonal capacity label v = .ok v.onDiagonal := by
  rw [← Shape.size_pair] at hlargest havailable
  -- The zeros that the diagonal is written over are the elements of the square array beside it.
  have hdata : v.onDiagonal = ⟨[v.data.size, v.data.size], (Array.replicate _ 0).mapIdx fun k x =>
      if k / v.data.size = k % v.data.size then v.flat (k / v.data.size) else x⟩ :=
    Tensor.generate_eq (by rw [Array.size_mapIdx, Array.size_replicate]) fun k hk => by simp
  rw [diagonal_vector_eq hrank, filled, Tensor.filled, if_neg hlargest.not_gt, if_neg havailable.not_gt, hdata]
  rfl

theorem diagonal_vector_too_large (hrank : v.rank = 1) (hlarge : capacity.largest < v.data.size * v.data.size) :
    diagonal capacity label v = .error (.fault (.build (.tooLarge
      (Shape.floatSize [Number.ofNat v.data.size, Number.ofNat v.data.size])))) := by
  rw [← Shape.size_pair] at hlarge
  rw [diagonal_vector_eq hrank, filled, Tensor.filled, if_pos hlarge]
  rfl

theorem diagonal_vector_no_memory (hrank : v.rank = 1) (hlargest : v.data.size * v.data.size ≤ capacity.largest)
    (hmemory : capacity.available < v.data.size * v.data.size) :
    diagonal capacity label v = .error (.fault (.build .noMemory)) := by
  rw [← Shape.size_pair] at hlargest hmemory
  rw [diagonal_vector_eq hrank, filled, Tensor.filled, if_neg hlargest.not_gt, if_pos hmemory]
  rfl

theorem matrix_singleton {t : Tensor Float} (hshape : t.shape = [m, n]) :
    Arguments.matrix [.array t] label 0 = .ok ⟨m, n, .ofRowMajor t.data⟩ := by
  have harray : Arguments.array [.array t] label 0 = .ok t := rfl
  have hmatrix : t.toMat label = .ok ⟨m, n, .ofRowMajor t.data⟩ := by
    rw [Tensor.toMat, hshape]
  rw [Arguments.matrix, harray]
  exact congrArg (Except.mapError Failure.evaluation) hmatrix

end

/-- The vector of a given number of zeros. -/
def zeroVector (n : Nat) : Tensor Float :=
  ⟨[n], Array.replicate n 0⟩

theorem size_zeroVector (n : Nat) : (zeroVector n).data.size = n :=
  Array.size_replicate

theorem wellFormed_zeroVector (n : Nat) : (zeroVector n).WellFormed := by
  rw [Tensor.WellFormed, size_zeroVector]
  exact (Shape.size_singleton n).symm

/-- The square of so many elements is larger than any array. -/
theorem largest_lt_zeroVector (capacity : Capacity) :
    capacity.largest < (zeroVector (10 ^ 8)).data.size * (zeroVector (10 ^ 8)).data.size := by
  rw [size_zeroVector]
  exact capacity.largest_lt.trans (by decide)

namespace Builtin

section

variable {host : Host} {f : Builtin} {v : Value}

/-- A call with one argument gives what its function computes, unless that is to be filled with samples. -/
theorem call_unary (hf : f ≠ rand) (hleast : f.signature.least ≤ 1) (hmost : 1 ≤ f.signature.most) {r : Result}
    (h : f.pureValue host.capacity [v] = .ok r) : call host f.name [v] = pure r := by
  have hcount : ¬ ([v].length < f.signature.least ∨ f.signature.most < [v].length) := by
    rw [List.length_singleton]
    omega
  have happly : f.apply host [v] = pure r := by
    have hlift : (liftM (f.pureValue host.capacity [v]) : Draw Result) = pure r := by
      rw [h]
      rfl
    rw [apply, hlift, pure_bind]
    split
    · contradiction
    · rfl
  rw [call, ofName?_name]
  dsimp only
  rw [if_neg hcount, happly]
  rfl

theorem call_unary_eq_error (hleast : f.signature.least ≤ 1) (hmost : 1 ≤ f.signature.most) {failure : Failure}
    (h : f.pureValue host.capacity [v] = .error failure) (drawn : Nat) :
    call host f.name [v] drawn = .error (failure.inside f) := by
  refine call_of_apply_eq_error ?_ ?_ (apply_eq_error_iff.mpr h)
  · exact hleast
  · exact hmost

end

section

variable (host : Host) {t : Tensor Float}

theorem pureValue_diag (capacity : Capacity) (t : Tensor Float) :
    diag.pureValue capacity [.array t] = diagonal capacity diag.name t >>= fun u => .ok (.array u) :=
  rfl

theorem call_diag {u : Tensor Float} (h : diagonal host.capacity diag.name t = .ok u) :
    call host diag.name [.array t] = pure (.array u) := by
  refine call_unary (f := diag) (by decide) (by decide) (by decide) ?_
  rw [pureValue_diag, bind_eq_ok_iff]
  exact ⟨u, h, rfl⟩

theorem call_diag_eq_error {failure : Failure} (h : diagonal host.capacity diag.name t = .error failure) (drawn : Nat) :
    call host diag.name [.array t] drawn = .error (failure.inside diag) := by
  refine call_unary_eq_error (f := diag) (by decide) (by decide) ?_ drawn
  rw [pureValue_diag, bind_eq_error_iff]
  exact .inl h

theorem call_trace {m n : Nat} (hshape : t.shape = [m, n]) :
    call host trace.name [.array t] = pure (.scalar (total (t.mainDiagonal m n).data)) := by
  refine call_unary (f := trace) (by decide) (by decide) (by decide) ?_
  rw [pureValue, matrix_singleton hshape]
  exact congrArg (fun x => Except.ok (Result.scalar x)) (Mat.trace_ofRowMajor t m n)

theorem call_sum (t : Tensor Float) : call host sum.name [.array t] = pure (.scalar (total t.data)) :=
  call_unary (f := sum) (by decide) (by decide) (by decide) rfl

/-- The trace of a well-formed array with two axes is the sum of its main diagonal, and transposition changes neither of
    them. A vector whose square the machine grants stands on the diagonal of a square array that is zero elsewhere, and it
    is the diagonal of that array. For a longer one the call fails with what the machine says to the square: that it is
    larger than any array, or that there is no memory for it. -/
theorem diagonal_laws :
    (∀ a : Tensor Float, a.WellFormed → a.rank = 2 → ∃ (d : Tensor Float) (x : Float),
      call host "diag" [.array a] = pure (.array d) ∧
      (∃ m n, a.shape = [m, n] ∧ d.shape = [min m n] ∧ d.WellFormed ∧
        ∀ i < min m n, ∃ y, a.HasEntry [i, i] y ∧ d.HasEntry [i] y) ∧
      call host "sum" [.array d] = pure (.scalar x) ∧ call host "trace" [.array a] = pure (.scalar x) ∧
      call host "diag" [.array a.transpose] = pure (.array d) ∧
      call host "trace" [.array a.transpose] = pure (.scalar x)) ∧
    ∀ v : Tensor Float, v.WellFormed → v.rank = 1 →
      (v.data.size * v.data.size ≤ host.capacity.largest → v.data.size * v.data.size ≤ host.capacity.available →
        ∃ d : Tensor Float,
          call host "diag" [.array v] = pure (.array d) ∧ d.shape = [v.data.size, v.data.size] ∧ d.WellFormed ∧
          (∀ i x, v.HasEntry [i] x → d.HasEntry [i, i] x) ∧
          (∀ i j, i < v.data.size → j < v.data.size → i ≠ j → d.HasEntry [i, j] 0) ∧
          call host "diag" [.array d] = pure (.array v)) ∧
      (host.capacity.largest < v.data.size * v.data.size → ∀ drawn, call host "diag" [.array v] drawn =
        complain (.numeric "diag" (.build (.tooLarge
          (Shape.floatSize [Number.ofNat v.data.size, Number.ofNat v.data.size]))))) ∧
      (v.data.size * v.data.size ≤ host.capacity.largest → host.capacity.available < v.data.size * v.data.size →
        ∀ drawn, call host "diag" [.array v] drawn = complain (.numeric "diag" (.build .noMemory))) := by
  refine ⟨fun a hwell hrank => ?_, fun v hwell hrank => ⟨fun hlargest havailable => ?_, fun hlarge => ?_, ?_⟩⟩
  · obtain ⟨m, n, hshape⟩ := List.length_eq_two.mp hrank
    have hswapped : a.transpose.shape = [n, m] := Tensor.shape_transpose [] hshape
    have hsame := Tensor.mainDiagonal_transpose hshape
    have hdiag := call_diag host (diagonal_matrix hswapped)
    have htrace := call_trace host hswapped
    rw [hsame] at hdiag htrace
    exact ⟨a.mainDiagonal m n, total (a.mainDiagonal m n).data, call_diag host (diagonal_matrix hshape),
      ⟨m, n, hshape, rfl, Tensor.wellFormed_generate _ _, fun i => Tensor.hasEntry_mainDiagonal hwell hshape⟩,
      call_sum host _, call_trace host hshape, hdiag, htrace⟩
  · obtain ⟨k, hshape⟩ := List.length_eq_one_iff.mp hrank
    have hback := call_diag host (diagonal_matrix (t := v.onDiagonal) rfl)
    rw [Tensor.mainDiagonal_onDiagonal hwell hshape] at hback
    refine ⟨v.onDiagonal, call_diag host (diagonal_vector hrank hlargest havailable), rfl,
      Tensor.wellFormed_generate _ _, fun i x hx => ?_, fun i j hi hj hne => ?_, hback⟩
    · have hi : i < v.data.size := by
        rw [hwell, hshape, Shape.size_singleton]
        exact (hshape ▸ hx.1 : Shape.Within [k] [i]).1
      have hentry := v.hasEntry_onDiagonal hi hi
      have hx' := hwell.hasEntry hx.1
      rw [hshape, Shape.ravel_singleton] at hx'
      rwa [if_pos rfl, hx'.unique hx] at hentry
    · have hentry := v.hasEntry_onDiagonal hi hj
      rwa [if_neg hne] at hentry
  · exact call_diag_eq_error host (diagonal_vector_too_large hrank hlarge)
  · exact fun hlargest hmemory => call_diag_eq_error host (diagonal_vector_no_memory hrank hlargest hmemory)

end

/-- A matrix that is wider than high, and vectors on a machine that grants up to ten elements and has memory for five of
    them: one that fits on a diagonal, one without the memory for that, and two that are too long. -/
theorem diagonal_laws_wide :
    let host : Host := ⟨fun _ => 0, ⟨10, by decide, 5⟩⟩
    let a : Tensor Float := ⟨[2, 3], #[1, 2, 3, 4, 5, 6]⟩
    let v : Tensor Float := ⟨[2], #[1, 5]⟩
    let u : Tensor Float := ⟨[3], #[1, 5, 6]⟩
    let long := zeroVector (10 ^ 8)
    a.WellFormed ∧ a.rank = 2 ∧ v.WellFormed ∧ v.rank = 1 ∧ u.WellFormed ∧ u.rank = 1 ∧ long.WellFormed ∧ long.rank = 1 ∧
      (∃ d x, call host "diag" [.array a] = pure (.array d) ∧ call host "sum" [.array d] = pure (.scalar x) ∧
        call host "trace" [.array a] = pure (.scalar x) ∧
        call host "trace" [.array a.transpose] = pure (.scalar x)) ∧
      (∃ d, call host "diag" [.array v] = pure (.array d) ∧ d.HasEntry [0, 1] 0 ∧ d.HasEntry [1, 1] 5 ∧
        call host "diag" [.array d] = pure (.array v)) ∧
      call host "diag" [.array u] 0 = complain (.numeric "diag" (.build .noMemory)) ∧
      ∃ length, call host "diag" [.array long] 0 = complain (.numeric "diag" (.build (.tooLarge length))) := by
  intro host a v u long
  have ha : a.WellFormed := by decide
  have hv : v.WellFormed := by decide
  have hu : u.WellFormed := by decide
  have hlong : long.WellFormed := wellFormed_zeroVector (10 ^ 8)
  obtain ⟨hmatrix, hvector⟩ := diagonal_laws host
  obtain ⟨d, x, hd, -, hsum, htrace, -, htrace'⟩ := hmatrix a ha rfl
  obtain ⟨w, hw, -, -, hon, hoff, hback⟩ := (hvector v hv rfl).1 (by decide) (by decide)
  have hmemory := (hvector u hu rfl).2.2 (by decide) (by decide) 0
  have herror := (hvector long hlong rfl).2.1 (largest_lt_zeroVector host.capacity) 0
  exact ⟨ha, rfl, hv, rfl, hu, rfl, hlong, rfl, ⟨d, x, hd, hsum, htrace, htrace'⟩,
    ⟨w, hw, hoff 0 1 (by decide) (by decide) (by decide), hon 1 5 ⟨⟨by decide, trivial⟩, rfl⟩, hback⟩, hmemory,
    _, herror⟩

/-- Not every vector is put on a diagonal: the square of `10 ^ 8` elements is more than an array may have anywhere. -/
theorem no_diagonal_of_many_zeros :
    let v := zeroVector (10 ^ 8)
    v.WellFormed ∧ v.rank = 1 ∧ ∀ host, ¬ ∃ d, call host "diag" [.array v] = pure (.array d) := by
  intro v
  refine ⟨wellFormed_zeroVector (10 ^ 8), rfl, fun host => ?_⟩
  rintro ⟨d, hd⟩
  have herror := call_diag_eq_error host (diagonal_vector_too_large rfl (largest_lt_zeroVector host.capacity)) 0
  have hvalue := (congrFun hd 0).symm.trans herror
  cases hvalue

end Builtin

end ArrayCalc
