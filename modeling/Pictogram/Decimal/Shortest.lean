/-! # Shortest decimals

The decimal with the fewest digits that reads back as a given double. A double is `m * 2 ^ q`; the reals
that round to it form an interval whose ends belong to it when `m` is even. `Binary.shortest` takes the
coarsest decimal grid that has a point in the interval.
-/
namespace Pictogram.Decimal
set_option autoImplicit false

/-- A positive binary fraction `m * 2 ^ q`. At the bottom of a range of exponents the gap below it is half
as wide as the gap above it. -/
structure Binary where
  m : Nat
  q : Int
  bottom : Bool

/-- The magnitude of a finite double: eleven bits of exponent above fifty-two of fraction. -/
def Binary.ofBits (bits : UInt64) : Binary :=
  let fraction : Nat := bits.toNat % Nat.pow 2 52
  let exponent : Nat := bits.toNat / Nat.pow 2 52 % Nat.pow 2 11
  if exponent = 0 then ⟨fraction, -1074, false⟩
  else ⟨fraction + Nat.pow 2 52, Int.ofNat exponent - 1075, fraction = 0 && exponent != 1⟩

/-- The point of the grid `10 ^ k` that lies in the interval of `b`: of two the nearer, of two equally
near the even one. All lengths are counted in quarters of the last binary place. -/
def Binary.onGrid (b : Binary) (k : Int) : Option Nat :=
  let scale := Nat.pow 2 (b.q - 2).toNat * Nat.pow 10 (-k).toNat
  let step := Nat.pow 2 (2 - b.q).toNat * Nat.pow 10 k.toNat
  let value := 4 * b.m * scale
  let low := (4 * b.m - (if b.bottom then 1 else 2)) * scale
  let high := (4 * b.m + 2) * scale
  let inside (c : Nat) : Bool :=
    if b.m % 2 = 0 then low ≤ c * step && c * step ≤ high else low < c * step && c * step < high
  let below := value / step
  let above := below + 1
  if inside below then
    if inside above then
      let down := value - below * step
      let up := above * step - value
      if down < up then some below
      else if up < down then some above
      else if below % 2 = 0 then some below else some above
    else some below
  else if inside above then some above
  else none

/-- The coarsest grid with a point in the interval, from the largest power of ten of a double down. -/
def Binary.shortest (b : Binary) : Nat × Int :=
  let grids := (List.range 660).map fun i => 309 - Int.ofNat i
  (grids.findSome? fun k => (b.onGrid k).map (·, k)).getD (0, 0)

/-- Where positional notation begins and ends, by the power of ten of the first digit, and whether a
positive exponent has a sign. -/
structure Style where
  lowest : Int
  highest : Int
  signed : Bool

/-- A decimal `c * 10 ^ k` in a style, with at least one digit on each side of the point. -/
def Style.render (style : Style) (c : Nat) (k : Int) : List Char :=
  let digits := Nat.toDigits 10 c
  let first := (digits.length : Int) - 1 + k
  if style.lowest ≤ first ∧ first ≤ style.highest then
    if 0 ≤ k then digits ++ List.replicate k.toNat '0' ++ ['.', '0']
    else if 0 ≤ first then digits.take (first.toNat + 1) ++ '.' :: digits.drop (first.toNat + 1)
    else '0' :: '.' :: List.replicate (-first - 1).toNat '0' ++ digits
  else
    let tail := if digits.length = 1 then [] else '.' :: digits.drop 1
    let sign := if first < 0 then ['-'] else if style.signed then ['+'] else []
    digits.take 1 ++ tail ++ 'e' :: sign ++ Nat.toDigits 10 first.natAbs

def Style.text (style : Style) (bits : UInt64) : String :=
  let sign := if bits.toNat / Nat.pow 2 63 = 1 then ['-'] else []
  let b := Binary.ofBits bits
  let magnitude := if b.m = 0 then ['0', '.', '0'] else
    let (c, k) := b.shortest
    style.render c k
  String.ofList (sign ++ magnitude)

end Pictogram.Decimal
