import ArrayCalc.Text.Split

namespace ArrayCalc.Lexer

def isUpper (c : Char) : Bool := 'A' ≤ c && c ≤ 'Z'

/-- Letters and the underscore: after them a point never starts a fraction. -/
def isNameChar (c : Char) : Bool := isUpper c || ('a' ≤ c && c ≤ 'z') || c = '_'

/-- The characters that are a token wherever they stand. -/
def structural : List Char := ['+', '-', '*', '@', '^', '(', ')', ',']

/-- Writes the piped placeholder as its letter in braces. -/
def letterForPipe : List Char → List Char
  | '{' :: 'P' :: 'I' :: 'P' :: 'E' :: '}' :: cs => '{' :: 'P' :: '}' :: letterForPipe cs
  | c :: cs => c :: letterForPipe cs
  | [] => []

/-- Drops the braces around a single capital letter. -/
def dropBraces : List Char → List Char
  | '{' :: c :: '}' :: cs => if isUpper c then c :: dropBraces cs else '{' :: dropBraces (c :: '}' :: cs)
  | c :: cs => c :: dropBraces cs
  | [] => []
termination_by cs => cs.length

/-- Sets every structural character apart by spaces. -/
def spaceStructural (cs : List Char) : List Char :=
  cs.flatMap fun c => if c ∈ structural then [' ', c, ' '] else [c]

/-- Sets every point apart by spaces that a digit does not follow or that a letter or underscore precedes.
    `named` tells whether such a character stands before the text. -/
def spaceDots (named : Bool) : List Char → List Char
  | [] => []
  | c :: cs =>
    let rest := spaceDots (isNameChar c) cs
    if c = '.' ∧ (named = true ∨ (cs.head?.all fun d => !d.isDigit) = true) then ' ' :: c :: ' ' :: rest
    else c :: rest

/-- The text with placeholders reduced to letters. -/
def unbrace (cs : List Char) : List Char :=
  dropBraces (letterForPipe cs)

/-- The tokens of an expression. -/
def tokens (cs : List Char) : List (List Char) :=
  Text.words (spaceDots false (spaceStructural (unbrace cs)))

end ArrayCalc.Lexer
