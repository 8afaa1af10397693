import ArrayCalc.Number.Layout

namespace ArrayCalc

/-- The ways to lay a result out as text. -/
inductive Layout where
  | plain | text | csv | json | latex | table
  deriving DecidableEq, Repr

/-- What a result is written as: laid-out text, or an array file. -/
inductive OutputFormat where
  | layout (l : Layout)
  | npy
  deriving DecidableEq, Repr

namespace OutputFormat

/-- All formats, in the order in which they are listed to users. -/
def all : List OutputFormat :=
  [layout .plain, layout .text, layout .csv, layout .json, layout .latex, layout .table, npy]

def name : OutputFormat → String
  | layout .plain => "plain"
  | layout .text => "text"
  | layout .csv => "csv"
  | layout .json => "json"
  | layout .latex => "latex"
  | layout .table => "table"
  | npy => "npy"

def ofName? (name : String) : Option OutputFormat :=
  all.find? fun f => f.name = name

theorem ofName?_name (f : OutputFormat) : ofName? f.name = some f := by
  obtain (_ | _ | _ | _ | _ | _) | _ := f <;> decide

end OutputFormat

/-- How results are written: the significant digits of a number, and the magnitude below which it counts
    as zero. -/
structure OutputOptions where
  format : OutputFormat
  precision : Float
  threshold : Float

namespace OutputOptions

def defaultFormat : OutputFormat := .layout .plain

def defaultPrecision : Float := 4

def defaultThreshold : Float := 1e-10

end OutputOptions

/-- Numbers of a magnitude below the threshold become zero. -/
def applyThreshold (threshold x : Float) : Float :=
  if x.abs < threshold then 0 else x

end ArrayCalc
