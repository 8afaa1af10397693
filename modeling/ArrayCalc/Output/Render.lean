import ArrayCalc.Eval.Value
import ArrayCalc.Npy.File
import ArrayCalc.Output.Error
import ArrayCalc.Output.Json
import ArrayCalc.Output.Layout
import ArrayCalc.Output.Table

namespace ArrayCalc

/-- The text of an array in a layout. -/
def Tensor.render (t : Tensor Float) (layout : Layout) (precision : Float) :
    Except Number.DigitRange (List Char) :=
  match layout with
  | .plain => Output.plain t precision
  | .text => Output.bracketed t precision
  | .csv => .ok (Output.csv t)
  | .json => .ok (Output.json t)
  | .latex => Output.latex t precision
  | .table => Output.table t precision

namespace Value

/-- The text of a value. A scalar is written alike in every layout. -/
def render (v : Value) (layout : Layout) (precision threshold : Float) :
    Except Number.DigitRange (List Char) :=
  match v.map (applyThreshold threshold) with
  | .scalar x => Number.general x precision
  | .array t => t.render layout precision

/-- The array file of a value. -/
def toNpy (v : Value) (threshold : Float) : List UInt8 :=
  Npy.write (v.map (applyThreshold threshold)).toTensor

end Value

/-- What is written for a result. -/
inductive Output where
  | text (cs : List Char)
  | binary (bytes : List UInt8)

namespace Output

/-- The bytes of a file with this output. -/
def toBytes : Output → List UInt8
  | text cs => Text.encodeUtf8 cs
  | binary bytes => bytes

/-- The bytes on a terminal or a pipe: a text that is not empty ends in a new line there. -/
def toStream : Output → List UInt8
  | text [] => []
  | text cs => Text.encodeUtf8 (cs ++ ['\n'])
  | binary bytes => bytes

/-- The paragraphs for a part of a tuple: in the plain layout its heading is one of its own. -/
def component (layout : Layout) (precision threshold : Float) (i : Nat) (v : Value) :
    Except Number.DigitRange (List (List Char)) := do
  let text ← v.render layout precision threshold
  if layout = .plain then .ok ["COMPONENT_".toList ++ Number.digits i, text]
  else .ok ["Component ".toList ++ Number.digits i ++ [':', '\n'] ++ text]

/-- The paragraphs for the parts of a tuple from a given place on. -/
def components (layout : Layout) (precision threshold : Float) (i : Nat) :
    List Value → Except Number.DigitRange (List (List Char))
  | [] => .ok []
  | v :: vs => do
    let head ← component layout precision threshold i v
    let tail ← components layout precision threshold (i + 1) vs
    .ok (head ++ tail)

end Output

/-- What is written for a result. The parts of a tuple are paragraphs of one text, so there is no array
    file for it. -/
def Result.render (result : Result) (options : OutputOptions) : Except OutputError Output :=
  match options.format, result with
  | .npy, .value v => .ok (.binary (v.toNpy options.threshold))
  | .npy, .tuple _ => .error .tupleStream
  | .layout l, .value v => (v.render l options.precision options.threshold).map .text |>.mapError .digits
  | .layout l, .tuple items =>
    (Output.components l options.precision options.threshold 0 items).map
      (fun parts => .text (List.intercalate ['\n', '\n'] parts)) |>.mapError .digits

end ArrayCalc
