namespace ArrayCalc

/-- A path as it is written. -/
abbrev Path := List Char

namespace Path

/-- The pieces between the slashes. -/
def components (path : Path) : List (List Char) :=
  path.splitOn '/'

/-- The last piece, slashes at the end aside. -/
def fileName (path : Path) : List Char :=
  ((path.reverse.dropWhile (· = '/')).takeWhile (· ≠ '/')).reverse

/-- A file name cut before its last point; a point at the front starts no extension, and neither does the
    name of the parent directory have one. -/
def splitName (name : List Char) : List Char × List Char :=
  let tail := name.reverse.takeWhile (· ≠ '.')
  match name.reverse.dropWhile (· ≠ '.') with
  | point :: c :: front => if name = ['.', '.'] then (name, []) else ((c :: front).reverse, point :: tail.reverse)
  | _ => (name, [])

theorem splitName_append (name : List Char) : (splitName name).1 ++ (splitName name).2 = name := by
  have hsplit := List.takeWhile_append_dropWhile (p := (· ≠ '.')) (l := name.reverse)
  unfold splitName
  split
  · next point c front hback =>
    split
    · simp
    · rw [hback] at hsplit
      have hname := congrArg List.reverse hsplit
      simpa using hname
  · simp

/-- The extension of the last piece, with its point. -/
def extension (path : Path) : List Char :=
  (splitName path.fileName).2

/-- The last piece without its extension. -/
def stem (path : Path) : List Char :=
  (splitName path.fileName).1

end Path

end ArrayCalc
