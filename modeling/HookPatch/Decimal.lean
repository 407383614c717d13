namespace HookPatch

structure Decimal where
  negative : Bool
  digits : Nat
  exponent : Int
  deriving DecidableEq, Repr

namespace Decimal

/-- The least size that rounds to infinity: halfway between the largest double and the next power
of two. -/
def overflowBound : Nat := Nat.pow 2 1024 - Nat.pow 2 970

/-- Whether the size rounds to infinity. The count of digits decides unless the size is near the
bound, which has 309 digits. -/
def overflows (d : Decimal) : Bool :=
  if d.digits = 0 then false
  else
    let places : Int := (Nat.toDigits 10 d.digits).length + d.exponent
    if 309 < places then true
    else if places < 309 then false
    else
      match d.exponent with
      | .ofNat e => overflowBound ≤ d.digits * Nat.pow 10 e
      | .negSucc e => overflowBound * Nat.pow 10 (e + 1) ≤ d.digits

/-- The number rounded to 53 binary digits, where a tie goes to the even neighbour. -/
def nearestDouble (n : Nat) : Nat :=
  let unit := 1 <<< (n.log2 - 52)
  let count := n / unit
  let rest := n % unit
  if unit < 2 * rest || (2 * rest = unit && count % 2 = 1) then (count + 1) * unit
  else count * unit

def leadingDigits (limit n : Nat) : Nat × Nat :=
  if n ≤ limit then (n, 0)
  else
    let (lead, count) := leadingDigits limit (n / 10)
    (lead, count + 1)
  termination_by n
  decreasing_by omega

def maxPower : Nat := 308

/-- Whether the size goes to infinity when it is the product of two doubles: the leading digits that
fit 64 bits, and the power of ten. The digits behind them count as zeros. -/
def overflowsScaled (d : Decimal) : Bool :=
  let (lead, count) := leadingDigits (UInt64.size - 1) d.digits
  match d.exponent + count with
  | .negSucc _ => false
  | .ofNat e =>
    lead ≠ 0 &&
      (maxPower < e || overflowBound ≤ nearestDouble lead * nearestDouble (Nat.pow 10 e))

end Decimal

end HookPatch
