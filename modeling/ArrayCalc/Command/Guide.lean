namespace ArrayCalc

/-- The lines of the overview of the command line. -/
def helpLines : List String :=
  ["matcalc - linear algebra calculator for NumPy .npy arrays",
   "",
   "USAGE:",
   "  matcalc EXPRESSION [FILES...] [options]",
   "",
   "ARGUMENTS:",
   "  EXPRESSION                 Expression with placeholders like \x7bA\x7d, \x7bB\x7d, or \x7bP\x7d for piped input",
   "  FILES                      NumPy .npy files named after their placeholder (A.npy, B.npy, ...)",
   "",
   "OPTIONS:",
   "  -h, --help                 Show this help message",
   "  --version                  Show version information",
   "  --prompt                   Print the full usage guide",
   "  -o, --output PATH          Write the result to PATH instead of stdout",
   "  -n, --npy                  Write binary NPY to stdout for piping into another matcalc",
   "  -f, --format FORMAT        plain, text, csv, json, latex, table, npy (default: plain)",
   "  --pretty                   Same as --format table",
   "  --precision N              Significant digits (default: 4)",
   "  -t, --threshold X          Print magnitudes below X as 0 (default: 1e-10)",
   "  -c, --components           With --output, save each tuple component to its own file",
   "  -v, --verbose              Describe each step on stderr",
   "",
   "EXAMPLES:",
   "  matcalc \"\x7bA\x7d@\x7bB\x7d\" A.npy B.npy",
   "  matcalc \"inv(\x7bA\x7d)\" A.npy --format json",
   "  matcalc \"\x7bA\x7d.T\" A.npy --npy | matcalc \"\x7bPIPE\x7d@\x7bB\x7d\" B.npy"]

/-- The overview of the command line, without a new line at its end. -/
def helpText : String :=
  String.intercalate "\n" helpLines

/-- The name and the version of the program. -/
def versionText : String :=
  "matcalc 0.1.0"

/-- The lines of the usage guide. -/
def guideLines : List String :=
  ["# matcalc - linear algebra expressions on NumPy arrays",
   "",
   "matcalc evaluates one expression over matrices stored in `.npy` files and prints",
   "the result. Results can be piped into another matcalc invocation.",
   "",
   "## Usage",
   "",
   "    matcalc EXPRESSION [FILES...] [options]",
   "",
   "Each file must be named after the placeholder it binds: `A.npy` is `\x7bA\x7d`,",
   "`B.npy` is `\x7bB\x7d`, up to `Z.npy`. Data piped on stdin (binary NPY or",
   "whitespace-separated text) is available as `\x7bPIPE\x7d`, or `\x7bP\x7d` for short.",
   "The file name `pipe.npy` is reserved.",
   "",
   "## Expressions",
   "",
   "- Placeholders: `\x7bA\x7d` ... `\x7bZ\x7d`, `\x7bPIPE\x7d`",
   "- Numbers: `2`, `0.5`, `.25`, `1e3`",
   "- Elementwise: `\x7bA\x7d+\x7bB\x7d`, `\x7bA\x7d-\x7bB\x7d`, `\x7bA\x7d*\x7bB\x7d` (NumPy broadcasting)",
   "- Matrix product: `\x7bA\x7d@\x7bB\x7d`",
   "- Integer matrix power: `\x7bA\x7d^3`, `\x7bA\x7d^-1`; the exponent must be a scalar and",
   "  is truncated toward zero",
   "- Transpose: `\x7bA\x7d.T`",
   "- Negation: `-\x7bA\x7d`",
   "- Grouping: `(\x7bA\x7d+\x7bB\x7d)@\x7bC\x7d`",
   "",
   "Precedence, lowest to highest: `+ -`, then `* @`, then `^`. All binary",
   "operators associate to the left and `^` does not chain.",
   "",
   "## Functions",
   "",
   "    matrix -> matrix   inv pinv matrix_power exp sin cos",
   "    matrix -> scalar   det trace tr norm rank cond sum prod mean std",
   "    decompositions     svd eig qr lu (tuples), cholesky (lower factor)",
   "    solve/construct    solve lstsq eye diag rand zeros ones",
   "",
   "- `svd(A)` gives `U, S, Vh` with full `U` and `Vh`",
   "- `eig(A)` gives eigenvalues and unit eigenvectors (real spectra only)",
   "- `qr(A)` gives reduced `Q, R`",
   "- `lu(A)` gives `P, L, U` with `A = P @ L @ U`",
   "- `solve(A, b)` and `lstsq(A, b)` return the solution only",
   "- `rand`, `zeros`, `ones` take `n` (a vector of length `n`) or `rows, cols`",
   "",
   "## Output",
   "",
   "- `-f, --format`: `plain` (default), `text`, `csv`, `json`, `latex`, `table`, `npy`",
   "- `--pretty`: same as `--format table`",
   "- `-n, --npy`: write binary NPY to stdout for piping",
   "- `-o, --output PATH`: write to a file instead of stdout",
   "- `-c, --components`: with `--output`, save each part of a tuple result as",
   "  `<base>_<i><ext>`",
   "- `--precision N`: significant digits (default 4)",
   "- `-t, --threshold X`: print magnitudes below `X` as 0 (default 1e-10)",
   "- `-v, --verbose`: narrate each step on stderr",
   "",
   "## Examples",
   "",
   "    matcalc \"\x7bA\x7d@\x7bB\x7d\" A.npy B.npy",
   "    matcalc \"inv(\x7bA\x7d)\" A.npy --format json",
   "    matcalc \"\x7bA\x7d.T\" A.npy --npy | matcalc \"\x7bPIPE\x7d@\x7bB\x7d\" B.npy",
   "    printf '1 2\\n3 4\\n' | matcalc \"det(\x7bP\x7d)\"",
   "    matcalc \"svd(\x7bA\x7d)\" A.npy -o svd.npy -c"]

/-- The usage guide, with a new line at its end. -/
def guideText : String :=
  String.intercalate "\n" guideLines ++ "\n"

end ArrayCalc
