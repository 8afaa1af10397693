import ArrayCalc.Tensor.Index

namespace ArrayCalc.Tensor

variable {α : Type} [Zero α]

/-- Swaps the last two sizes. -/
def swapShape : Shape → Shape
  | [r, c] => [c, r]
  | d :: ds => d :: swapShape ds
  | [] => []

/-- Writes the element in row `i` and column `j` of an `r × c` block to row `j` and column `i`. -/
def writeEntry (t : Tensor α) (r c block i : Nat) (out : Array α) (j : Nat) : Array α :=
  let base := block * (r * c)
  out.setIfInBounds (base + (j * r + i)) (t.flat (base + (i * c + j)))

def writeRow (t : Tensor α) (r c block : Nat) (out : Array α) (i : Nat) : Array α :=
  (List.range c).foldl (t.writeEntry r c block i) out

def writeBlock (t : Tensor α) (r c : Nat) (out : Array α) (block : Nat) : Array α :=
  (List.range r).foldl (t.writeRow r c block) out

/-- The array with its last two axes swapped, block by block; with fewer than two axes it is unchanged. -/
def transpose (t : Tensor α) : Tensor α :=
  match t.shape.reverse with
  | c :: r :: _ =>
    let blocks := if r * c = 0 then 0 else t.shape.size / (r * c)
    ⟨swapShape t.shape, (List.range blocks).foldl (t.writeBlock r c) (Array.replicate t.shape.size 0)⟩
  | _ => t

end ArrayCalc.Tensor
