import ArrayCalc.Text.Split

namespace ArrayCalc

/-- The functions that expressions can call. -/
inductive Builtin where
  | inv | pinv | matrixPower | exp | sin | cos
  | det | trace | tr | norm | rank | cond | sum | prod | mean | std
  | svd | eig | qr | lu | cholesky
  | solve | lstsq | eye | diag | rand | zeros | ones
  deriving DecidableEq, Repr

namespace Builtin

inductive Category where
  | matrix | reduction | decomposition | construct
  deriving DecidableEq, Repr

def Category.name : Category → String
  | matrix => "matrix"
  | reduction => "reduction"
  | decomposition => "decomposition"
  | construct => "construct"

/-- What kind of result a call gives. The elementwise functions give a scalar for a scalar all the same. -/
inductive Returns where
  | array | scalar | tuple
  deriving DecidableEq, Repr

def Returns.name : Returns → String
  | array => "array"
  | scalar => "scalar"
  | tuple => "tuple"

structure Signature where
  category : Category
  returns : Returns
  least : Nat
  most : Nat
  summary : String

/-- All functions, in the order in which they are listed to users. -/
def all : List Builtin :=
  [inv, pinv, matrixPower, exp, sin, cos, det, trace, tr, norm, rank, cond, sum, prod, mean, std,
   svd, eig, qr, lu, cholesky, solve, lstsq, eye, diag, rand, zeros, ones]

theorem mem_all (f : Builtin) : f ∈ all := by
  cases f <;> decide

def name : Builtin → String
  | inv => "inv"
  | pinv => "pinv"
  | matrixPower => "matrix_power"
  | exp => "exp"
  | sin => "sin"
  | cos => "cos"
  | det => "det"
  | trace => "trace"
  | tr => "tr"
  | norm => "norm"
  | rank => "rank"
  | cond => "cond"
  | sum => "sum"
  | prod => "prod"
  | mean => "mean"
  | std => "std"
  | svd => "svd"
  | eig => "eig"
  | qr => "qr"
  | lu => "lu"
  | cholesky => "cholesky"
  | solve => "solve"
  | lstsq => "lstsq"
  | eye => "eye"
  | diag => "diag"
  | rand => "rand"
  | zeros => "zeros"
  | ones => "ones"

def ofName? (name : String) : Option Builtin :=
  all.find? fun f => f.name = name

theorem ofName?_name (f : Builtin) : ofName? f.name = some f := by
  cases f <;> decide

theorem name_of_ofName? {s : String} {f : Builtin} (h : ofName? s = some f) : f.name = s := by
  simpa using List.find?_some h

def signature : Builtin → Signature
  | inv => ⟨.matrix, .array, 1, 1, "Matrix inverse"⟩
  | pinv => ⟨.matrix, .array, 1, 1, "Moore-Penrose pseudo-inverse"⟩
  | matrixPower => ⟨.matrix, .array, 2, 2, "Integer matrix power"⟩
  | exp => ⟨.matrix, .array, 1, 1, "Elementwise exponential"⟩
  | sin => ⟨.matrix, .array, 1, 1, "Elementwise sine"⟩
  | cos => ⟨.matrix, .array, 1, 1, "Elementwise cosine"⟩
  | det => ⟨.reduction, .scalar, 1, 1, "Determinant"⟩
  | trace => ⟨.reduction, .scalar, 1, 1, "Sum of the main diagonal"⟩
  | tr => ⟨.reduction, .scalar, 1, 1, "Alias of trace"⟩
  | norm => ⟨.reduction, .scalar, 1, 1, "Frobenius (or vector 2-) norm"⟩
  | rank => ⟨.reduction, .scalar, 1, 1, "Numerical rank"⟩
  | cond => ⟨.reduction, .scalar, 1, 1, "2-norm condition number"⟩
  | sum => ⟨.reduction, .scalar, 1, 1, "Sum of all elements"⟩
  | prod => ⟨.reduction, .scalar, 1, 1, "Product of all elements"⟩
  | mean => ⟨.reduction, .scalar, 1, 1, "Mean of all elements"⟩
  | std => ⟨.reduction, .scalar, 1, 1, "Population standard deviation"⟩
  | svd => ⟨.decomposition, .tuple, 1, 1, "Full SVD as (U, S, Vh)"⟩
  | eig => ⟨.decomposition, .tuple, 1, 1, "Eigenvalues and unit eigenvectors (w, v)"⟩
  | qr => ⟨.decomposition, .tuple, 1, 1, "Reduced QR as (Q, R)"⟩
  | lu => ⟨.decomposition, .tuple, 1, 1, "Pivoted LU as (P, L, U)"⟩
  | cholesky => ⟨.decomposition, .array, 1, 1, "Lower Cholesky factor"⟩
  | solve => ⟨.construct, .array, 2, 2, "Solve A x = b"⟩
  | lstsq => ⟨.construct, .array, 2, 2, "Least-squares solution of A x = b"⟩
  | eye => ⟨.construct, .array, 1, 1, "n x n identity"⟩
  | diag => ⟨.construct, .array, 1, 1, "Diagonal matrix from a vector, or a matrix diagonal"⟩
  | rand => ⟨.construct, .array, 1, 2, "Uniform [0, 1) samples"⟩
  | zeros => ⟨.construct, .array, 1, 2, "Array of zeros"⟩
  | ones => ⟨.construct, .array, 1, 2, "Array of ones"⟩

def inCategory (category : Category) : List Builtin :=
  all.filter fun f => f.signature.category = category

/-- How many arguments a function takes, in words. -/
def arityText (f : Builtin) : String :=
  let s := f.signature
  if s.least = s.most then
    "exactly " ++ toString s.least ++ " argument" ++ (if s.least = 1 then "" else "s")
  else toString s.least ++ " or " ++ toString s.most ++ " arguments"

end Builtin

end ArrayCalc
