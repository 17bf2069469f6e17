import Pictogram.Json.Error

/-! # Numerals

A number is read one character at a time, and it ends before the first character that cannot belong to it.
Its digits are kept, so that its value is settled once, at the end. A whole number in the range of 64 bits
is exact; every other one becomes a double.
-/
namespace Pictogram.Json
set_option autoImplicit false

/-- The last thing that was read of a number. -/
inductive NumeralPhase where
  | minus
  | zero
  | whole
  | point
  | fraction
  | mark
  | sign
  | power
deriving DecidableEq

/-- The part of a number that was read. Digits are kept last first. -/
structure Numeral where
  phase : NumeralPhase
  negative : Bool := false
  whole : List Nat := []
  fraction : List Nat := []
  lowered : Bool := false
  power : List Nat := []
deriving DecidableEq

namespace Numeral

def digit? (c : Char) : Option Nat :=
  if '0' ≤ c ∧ c ≤ '9' then some (c.toNat - '0'.toNat) else none

def lead (negative : Bool) (digit : Nat) : Numeral :=
  { phase := if digit = 0 then .zero else .whole, negative, whole := [digit] }

def start? (c : Char) : Option Numeral :=
  if c = '-' then some { phase := .minus, negative := true }
  else (digit? c).map (lead false)

/-- What may follow a complete whole part or fraction; `none` means that the number is over. -/
def leave (n : Numeral) (c : Char) : Option Numeral :=
  if c = '.' ∧ n.phase ≠ .fraction then some { n with phase := .point }
  else if c = 'e' ∨ c = 'E' then some { n with phase := .mark }
  else none

/-- Reads one more character; `none` means that the number ended before it. -/
def step (n : Numeral) (c : Char) : Except ReadError (Option Numeral) :=
  match n.phase, digit? c with
  | .minus, some d => .ok (some (lead n.negative d))
  | .minus, none => .error .malformed
  | .zero, some _ => .error .malformed
  | .zero, none => .ok (n.leave c)
  | .whole, some d => .ok (some { n with whole := d :: n.whole })
  | .whole, none => .ok (n.leave c)
  | .point, some d | .fraction, some d =>
    .ok (some { n with phase := .fraction, fraction := d :: n.fraction })
  | .point, none => .error .malformed
  | .fraction, none => .ok (n.leave c)
  | .mark, some d | .sign, some d | .power, some d =>
    .ok (some { n with phase := .power, power := d :: n.power })
  | .mark, none =>
    if c = '+' then .ok (some { n with phase := .sign })
    else if c = '-' then .ok (some { n with phase := .sign, lowered := true })
    else .error .malformed
  | .sign, none => .error .malformed
  | .power, none => .ok none

def complete (n : Numeral) : Bool :=
  match n.phase with
  | .zero | .whole | .fraction | .power => true
  | .minus | .point | .mark | .sign => false

def limit : Nat := Nat.pow 2 64 - 1

/-- Takes digits into a significand as long as it stays within the limit. The second part counts them. -/
def absorb (significand : Nat) : List Nat → Nat × Nat
  | [] => (significand, 0)
  | d :: rest =>
    if 10 * significand + d ≤ limit then
      let (result, count) := absorb (10 * significand + d) rest
      (result, count + 1)
    else (significand, 0)

def value (digits : List Nat) : Nat :=
  digits.foldr (fun d rest => 10 * rest + d) 0

def tenTo (n : Nat) : Float :=
  Float.ofScientific 1 false n

/-- Divides by `10 ^ n`, by at most `10 ^ 308` at a time. -/
def shrink (x : Float) (n : Nat) : Float :=
  if n ≤ 308 then x / tenTo n
  else if x == 0 then x
  else shrink (x / tenTo 308) (n - 308)
termination_by n

/-- The double for `significand * 10 ^ exponent`, unless it is too large for one. -/
def approximate (significand : Nat) (exponent : Int) : Option Float :=
  let x := significand.toUInt64.toFloat
  if exponent < 0 then some (shrink x exponent.natAbs)
  else if x == 0 then some x
  else if exponent > 308 then none
  else
    let y := x * tenTo exponent.toNat
    if y.isInf then none else some y

def real (negative : Bool) (magnitude : Float) : Found :=
  .real (if negative then -magnitude else magnitude).toBits

/-- What a complete number is: an integer if it is written as one and fits, otherwise a double. A number
too large for a double breaks the grammar. -/
def found (n : Numeral) : Except ReadError Found :=
  let (whole, count) := absorb 0 n.whole.reverse
  -- No integer is written `-0`, and none lies below `-2 ^ 63`.
  if n.fraction = [] ∧ n.power = [] ∧ count = n.whole.length ∧
      (!n.negative || (0 < whole && whole ≤ Nat.pow 2 63)) then
    .ok (.integer (if n.negative then -whole else whole))
  else
    -- Digits that do not fit are dropped; those before the point still count as powers of ten.
    let (significand, places) := absorb whole n.fraction.reverse
    let power : Int := value n.power
    let exponent := (n.whole.length - count : Int) - places + (if n.lowered then -power else power)
    match approximate significand exponent with
    | some magnitude => .ok (real n.negative magnitude)
    | none => .error .malformed

end Numeral
end Pictogram.Json
