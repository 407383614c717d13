import HookPatch.Text.Digit

namespace HookPatch.Text

inductive NumeralFault
  | empty
  | invalidDigit
  | tooLarge
  | tooSmall
  deriving DecidableEq, Repr

def NumeralFault.message : NumeralFault → String
  | empty => "cannot parse integer from empty string"
  | invalidDigit => "invalid digit found in string"
  | tooLarge => "number too large to fit in target type"
  | tooSmall => "number too small to fit in target type"

def readDigits (limit : Nat) (beyond : NumeralFault) : Nat → List Char → Except NumeralFault Nat
  | n, [] => .ok n
  | n, c :: rest =>
    match digit? c with
    | none => .error .invalidDigit
    | some d =>
      if 10 * n + d ≤ limit then readDigits limit beyond (10 * n + d) rest else .error beyond

def readMagnitude (limit : Nat) (beyond : NumeralFault) (s : List Char) : Except NumeralFault Nat :=
  if s.isEmpty then .error .invalidDigit else readDigits limit beyond 0 s

def readNat (limit : Nat) (s : List Char) : Except NumeralFault Nat :=
  match s with
  | [] => .error .empty
  | '+' :: rest => readMagnitude limit .tooLarge rest
  | _ => readMagnitude limit .tooLarge s

def readUInt16 (s : List Char) : Except NumeralFault UInt16 :=
  (readNat (UInt16.size - 1) s).map UInt16.ofNat

def readInt64 (s : List Char) : Except NumeralFault Int64 :=
  match s with
  | '-' :: rest =>
    (readMagnitude Int64.minValue.toInt.natAbs .tooSmall rest).map fun n ↦ Int64.ofInt (-n)
  | _ => (readNat Int64.maxValue.toInt.natAbs s).map fun n ↦ Int64.ofInt n

end HookPatch.Text
