/-! # Hexadecimal digits

Lower case is written; both cases are read.
-/
namespace Pictogram.Text.Hex
set_option autoImplicit false

def digit (n : Nat) : Char :=
  if n < 10 then Char.ofNat ('0'.toNat + n) else Char.ofNat ('a'.toNat + (n - 10))

/-- The value of a hexadecimal digit of either case. -/
def value? (c : Char) : Option Nat :=
  if '0' ≤ c ∧ c ≤ '9' then some (c.toNat - '0'.toNat)
  else if 'a' ≤ c ∧ c ≤ 'f' then some (c.toNat - 'a'.toNat + 10)
  else if 'A' ≤ c ∧ c ≤ 'F' then some (c.toNat - 'A'.toNat + 10)
  else none

theorem value?_digit : ∀ n, n < 16 → value? (digit n) = some n := by decide

/-- The value of exactly four hexadecimal digits. -/
def unit? : List Char → Option Nat
  | [a, b, c, d] => do
    return ((← value? a) * 16 + (← value? b)) * 256 + ((← value? c) * 16 + (← value? d))
  | _ => none

end Pictogram.Text.Hex
