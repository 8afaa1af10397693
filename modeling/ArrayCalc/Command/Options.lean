import ArrayCalc.Command.Error
import ArrayCalc.Number.Literal

namespace ArrayCalc

/-- The options that stand alone. -/
inductive Switch where
  | help | version | prompt | npy | pretty | verbose | components
  deriving DecidableEq, Repr

namespace Switch

def all : List Switch := [help, version, prompt, npy, pretty, verbose, components]

def flags : Switch → List String
  | help => ["-h", "--help"]
  | version => ["--version"]
  | prompt => ["--prompt"]
  | npy => ["-n", "--npy"]
  | pretty => ["--pretty"]
  | verbose => ["-v", "--verbose"]
  | components => ["-c", "--components"]

def ofFlag? (flag : List Char) : Option Switch :=
  all.find? fun s => String.ofList flag ∈ s.flags

end Switch

/-- The options that take a value. -/
inductive Setting where
  | output | precision | format | threshold
  deriving DecidableEq, Repr

namespace Setting

def all : List Setting := [output, precision, format, threshold]

def flags : Setting → List String
  | output => ["-o", "--output"]
  | precision => ["--precision"]
  | format => ["-f", "--format"]
  | threshold => ["-t", "--threshold"]

def ofFlag? (flag : List Char) : Option Setting :=
  all.find? fun s => String.ofList flag ∈ s.flags

end Setting

/-- What a command line says, one thing at a time. -/
inductive Argument where
  | positional (text : List Char)
  | switch (s : Switch)
  | output (path : Path)
  | precision (count : Float)
  | format (f : OutputFormat)
  | threshold (x : Float)

namespace Argument

/-- A whole number in decimal digits, with a sign if need be. -/
def integer? (text : List Char) : Option Float :=
  let digits := (Number.splitSign (Text.trim text)).2
  if digits ≠ [] ∧ digits.all Char.isDigit then Number.ofText? text else none

/-- The value of a setting, as the command line writes it after the given flag. -/
def ofSetting (setting : Setting) (flag text : List Char) : Except UsageError Argument :=
  match setting with
  | .output => .ok (output text)
  | .precision =>
    match integer? text with
    | some count => .ok (precision count)
    | none => .error (.notInteger flag text)
  | .format =>
    match OutputFormat.ofName? (String.ofList text) with
    | some f => .ok (format f)
    | none => .error (.unknownFormat flag text)
  | .threshold =>
    match Number.ofText? text with
    | some x => if Text.trim text = [] then .error (.notNumber flag text) else .ok (threshold x)
    | none => .error (.notNumber flag text)

/-- The argument that ends all options. -/
def endOfOptions : List Char := ['-', '-']

/-- Whether an argument is no option: it does not begin with a dash, or it is a lone dash or a number. -/
def isPositional (arg : List Char) : Bool :=
  arg.head? ≠ some '-' || arg = ['-'] || (Number.ofText? arg).isSome

/-- A long flag and the value that an equals sign joins to it. -/
def splitInline (arg : List Char) : List Char × Option (List Char) :=
  if endOfOptions.isPrefixOf arg then
    match arg.dropWhile (· ≠ '=') with
    | _ :: text => (arg.takeWhile (· ≠ '='), some text)
    | [] => (arg, none)
  else (arg, none)

/-- Reads a command line from left to right. A setting without a joined value takes the next argument,
    whatever it looks like. -/
def ofArgs : List (List Char) → Except UsageError (List Argument)
  | [] => .ok []
  | arg :: rest =>
    if isPositional arg then return positional arg :: (← ofArgs rest)
    else if arg = endOfOptions then .ok (rest.map positional)
    else
      let (flag, value?) := splitInline arg
      match Switch.ofFlag? flag, value? with
      | some s, none => return switch s :: (← ofArgs rest)
      | some _, some text => .error (.needlessValue flag text)
      | none, _ =>
        match Setting.ofFlag? flag with
        | none => .error (.unrecognized arg)
        | some setting =>
          match value?, rest with
          | some text, rest => return (← ofSetting setting flag text) :: (← ofArgs rest)
          | none, text :: rest => return (← ofSetting setting flag text) :: (← ofArgs rest)
          | none, [] => .error (.missingValue flag)

end Argument

/-- What a command line asks for. -/
structure Options where
  help : Bool := false
  version : Bool := false
  prompt : Bool := false
  npy : Bool := false
  pretty : Bool := false
  verbose : Bool := false
  components : Bool := false
  expression : Option (List Char) := none
  files : List Path := []
  output : Option Path := none
  precision : Option Float := none
  format : Option OutputFormat := none
  threshold : Option Float := none

namespace Options

def set (o : Options) : Switch → Options
  | .help => { o with help := true }
  | .version => { o with version := true }
  | .prompt => { o with prompt := true }
  | .npy => { o with npy := true }
  | .pretty => { o with pretty := true }
  | .verbose => { o with verbose := true }
  | .components => { o with components := true }

/-- Takes an argument in. The first positional one is the expression and the others are files; a setting
    replaces the earlier one. -/
def add (o : Options) : Argument → Options
  | .positional text =>
    match o.expression with
    | none => { o with expression := some text }
    | some _ => { o with files := o.files ++ [text] }
  | .switch s => o.set s
  | .output path => { o with output := some path }
  | .precision count => { o with precision := some count }
  | .format f => { o with format := some f }
  | .threshold x => { o with threshold := some x }

def ofArguments (arguments : List Argument) : Options :=
  arguments.foldl add {}

def parse (args : List (List Char)) : Except UsageError Options :=
  (Argument.ofArgs args).map ofArguments

/-- The format of the output. A table asked for by its switch goes before everything, and the switch for
    array files only replaces the default. -/
def outputFormat (o : Options) : OutputFormat :=
  if o.pretty then .layout .table
  else
    let format := o.format.getD OutputOptions.defaultFormat
    if o.npy ∧ format = .layout .plain then .npy else format

end Options

end ArrayCalc
