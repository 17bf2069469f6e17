import Pictogram.Text.Printable

/-! # Quoted text

The form in which a text is shown to a person: between quotes, with a backslash before a quote or a
backslash, and with every character that has no form of its own spelled out.
-/
namespace Pictogram.Text.Quoted
set_option autoImplicit false

/-- A character by its number in lower-case hexadecimal digits, without leading zeros. -/
def numbered (n : Nat) : List Char :=
  ['\\', 'u', '{'] ++ Nat.toDigits 16 n ++ ['}']

def encodeChar (c : Char) : List Char :=
  match c with
  | '"' => ['\\', '"']
  | '\\' => ['\\', '\\']
  | '\t' => ['\\', 't']
  | '\n' => ['\\', 'n']
  | '\r' => ['\\', 'r']
  | '\x00' => ['\\', '0']
  | c => if printable c then [c] else numbered c.toNat

def encode (text : List Char) : List Char :=
  '"' :: text.flatMap encodeChar ++ ['"']

def quote (text : String) : String :=
  String.ofList (encode text.toList)

end Pictogram.Text.Quoted
