import Pictogram.Json.Error
import Pictogram.Text.Hex

/-! # String literals

A literal is read one character at a time, from the character after the opening quote to the closing one.
In a string that is kept, two numbered escapes have to form one character where one alone cannot; in a
string that is passed over they need not.
-/
namespace Pictogram.Json
set_option autoImplicit false

inductive Progress (σ α : Type) where
  | more (state : σ)
  | done (result : α)

def shortEscape? (c : Char) : Option Char :=
  match c with
  | '"' => some '"'
  | '\\' => some '\\'
  | '/' => some '/'
  | 'b' => some '\x08'
  | 'f' => some '\x0c'
  | 'n' => some '\n'
  | 'r' => some '\r'
  | 't' => some '\t'
  | _ => none

def bytes (text : List Char) : Nat :=
  text.foldr (fun c n => c.utf8Size + n) 0

/-- Reads one more character of a numbered escape. The escape takes the next four bytes of the text, and
they have to be hexadecimal digits. -/
def stepUnit (seen : List Char) (c : Char) : Except ReadError (Progress (List Char) Nat) :=
  let seen := seen ++ [c]
  if bytes seen < 4 then .ok (.more seen)
  else match Text.Hex.unit? seen with
    | some n => .ok (.done n)
    | none => .error .malformed

/-- A number that only the first of two escapes may have. -/
def isLeading (n : Nat) : Bool :=
  0xD800 ≤ n && n < 0xDC00

/-- A number that only the second of two escapes may have. -/
def isTrailing (n : Nat) : Bool :=
  0xDC00 ≤ n && n < 0xE000

def joined (leading trailing : Nat) : Char :=
  Char.ofNat (0x10000 + (leading - 0xD800) * 0x400 + (trailing - 0xDC00))

inductive LiteralPhase where
  | plain
  | escape
  | unit (seen : List Char)
  | backslash (leading : Nat)
  | letter (leading : Nat)
  | secondUnit (leading : Nat) (seen : List Char)
deriving DecidableEq

/-- A kept string up to where it was read, its characters last first. -/
structure Literal where
  text : List Char := []
  phase : LiteralPhase := .plain
deriving DecidableEq

namespace Literal

def push (l : Literal) (c : Char) : Literal :=
  ⟨c :: l.text, .plain⟩

def step (l : Literal) (c : Char) : Except ReadError (Progress Literal String) :=
  match l.phase with
  | .plain =>
    if c = '"' then .ok (.done (String.ofList l.text.reverse))
    else if c = '\\' then .ok (.more { l with phase := .escape })
    else if c.toNat < 0x20 then .error .malformed
    else .ok (.more (l.push c))
  | .escape =>
    if c = 'u' then .ok (.more { l with phase := .unit [] })
    else match shortEscape? c with
      | some denoted => .ok (.more (l.push denoted))
      | none => .error .malformed
  | .unit seen => do
    match ← stepUnit seen c with
    | .more seen => .ok (.more { l with phase := .unit seen })
    | .done n =>
      if isTrailing n then .error .malformed
      else if isLeading n then .ok (.more { l with phase := .backslash n })
      else .ok (.more (l.push (Char.ofNat n)))
  | .backslash leading =>
    if c = '\\' then .ok (.more { l with phase := .letter leading }) else .error .malformed
  | .letter leading =>
    if c = 'u' then .ok (.more { l with phase := .secondUnit leading [] }) else .error .malformed
  | .secondUnit leading seen => do
    match ← stepUnit seen c with
    | .more seen => .ok (.more { l with phase := .secondUnit leading seen })
    | .done n => if isTrailing n then .ok (.more (l.push (joined leading n))) else .error .malformed

end Literal

inductive PassedLiteral where
  | plain
  | escape
  | unit (seen : List Char)
deriving DecidableEq

def PassedLiteral.step (l : PassedLiteral) (c : Char) : Except ReadError (Progress PassedLiteral Unit) :=
  match l with
  | .plain =>
    if c = '"' then .ok (.done ())
    else if c = '\\' then .ok (.more .escape)
    else if c.toNat < 0x20 then .error .malformed
    else .ok (.more .plain)
  | .escape =>
    if c = 'u' then .ok (.more (.unit []))
    else if (shortEscape? c).isSome then .ok (.more .plain)
    else .error .malformed
  | .unit seen => do
    match ← stepUnit seen c with
    | .more seen => .ok (.more (.unit seen))
    | .done _ => .ok (.more .plain)

end Pictogram.Json
