import ArrayCalc.Input.Error

namespace ArrayCalc

/-- The array in piped bytes: an array file if they begin like one, otherwise numbers in UTF-8 text. No
    bytes and blank text carry no array. -/
def decodePiped (bytes : List UInt8) : Except InputError (Option (Tensor Float)) :=
  if bytes = [] then .ok none
  else if Npy.hasMagic bytes then (Npy.read bytes).map some |>.mapError .piped
  else
    match Text.decodeUtf8? (Text.dropMark bytes) with
    | none => .error .notUtf8
    | some text =>
      if Text.trim text = [] then .ok none
      else (TextMatrix.parse text).map some |>.mapError .text

/-- Where piped data comes from: nowhere, as at a terminal, from bytes, or from a stream that fails. -/
inductive Stream where
  | terminal
  | bytes (bs : List UInt8)
  | failing (message : String)

/-- The array that a stream carries, if it carries one. -/
def Stream.readArray : Stream → Except InputError (Option (Tensor Float))
  | terminal => .ok none
  | bytes bs => decodePiped bs
  | failing message => .error (.stream message)

end ArrayCalc
