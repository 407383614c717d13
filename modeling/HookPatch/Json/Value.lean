import HookPatch.Decimal

namespace HookPatch

inductive Json
  | null
  | bool (b : Bool)
  | integer (n : Int)
  /-- A number written with a fraction, with an exponent, or as a negative zero. -/
  | decimal (d : Decimal)
  /-- A string; `none` is a literal that is not Unicode text. -/
  | string (s : Option String)
  | array (items : List Json)
  | object (members : List (Option String × Json))
  deriving Repr

namespace Json

def text (s : String) : Json := string (some s)

def record (fields : List (String × Json)) : Json :=
  object (fields.map fun (name, value) ↦ (some name, value))

def text? : Json → Option String
  | string s => s
  | _ => none

def bool? : Json → Option Bool
  | bool b => some b
  | _ => none

def integer? : Json → Option Int
  | integer n => some n
  | _ => none

def natBelow? (bound : Nat) : Json → Option Nat
  | integer (.ofNat n) => if n < bound then some n else none
  | _ => none

def uint16? (j : Json) : Option UInt16 := (j.natBelow? UInt16.size).map UInt16.ofNat

def uint32? (j : Json) : Option UInt32 := (j.natBelow? UInt32.size).map UInt32.ofNat

def between? (least greatest : Int) : Json → Option Int
  | integer n => if least ≤ n ∧ n ≤ greatest then some n else none
  | _ => none

def int64? (j : Json) : Option Int64 :=
  (j.between? Int64.minValue.toInt Int64.maxValue.toInt).map Int64.ofInt

def int32? (j : Json) : Option Int32 :=
  (j.between? Int32.minValue.toInt Int32.maxValue.toInt).map Int32.ofInt

def list? (f : Json → Option α) : Json → Option (List α)
  | array items => items.mapM f
  | _ => none

def nullable? (f : Json → Option α) : Json → Option (Option α)
  | null => some none
  | j => (f j).map some

/-- The value of the field `name` among the members of an object, at most one. -/
def member? (members : List (Option String × Json)) (name : String) : Option (Option Json) :=
  match members.filter (·.1 = some name) with
  | [] => some none
  | [(_, value)] => some (some value)
  | _ => none

/-- The values of the fields `names` of a record. An object may have other members, whose keys are
text; an array lists the first fields in order. -/
def fields? (names : List String) : Json → Option (List (Option Json))
  | object members =>
    if members.all (·.1.isSome) then names.mapM (member? members) else none
  | array items =>
    if items.length ≤ names.length then
      some (items.map some ++ List.replicate (names.length - items.length) none)
    else none
  | _ => none

def required (f : Json → Option α) (value : Option Json) : Option α := value.bind f

def orDefault (d : α) (f : Json → Option α) : Option Json → Option α
  | none => some d
  | some j => f j

end Json

end HookPatch
