import Pictogram.Json.Literal
import Pictogram.Json.Numeral

/-! # Values that are passed over

The value of an unknown member can be any value of the format. It is checked against the grammar and
nothing of it is kept but the brackets that are open, so that it may nest to any depth.
-/
namespace Pictogram.Json
set_option autoImplicit false

def isBlank (c : Char) : Bool :=
  c = ' ' || c = '\t' || c = '\n' || c = '\r'

def word? (c : Char) : Option (List Char × Found) :=
  match c with
  | 'n' => some (['u', 'l', 'l'], .null)
  | 't' => some (['r', 'u', 'e'], .boolean true)
  | 'f' => some (['a', 'l', 's', 'e'], .boolean false)
  | _ => none

/-- Reads one more letter of a word; `done` comes with its last letter. -/
def stepWord (rest : List Char) (c : Char) : Except ReadError (Progress (List Char) Unit) :=
  match rest with
  | [] => .error .malformed
  | expected :: rest =>
    if c ≠ expected then .error .malformed
    else if rest = [] then .ok (.done ())
    else .ok (.more rest)

inductive Bracket where
  | list
  | object
deriving DecidableEq

inductive SkipPhase where
  | value
  | listStart
  | objectStart
  | key
  | colon
  | after
  | string (isKey : Bool) (literal : PassedLiteral)
  | word (rest : List Char)
  | numeral (numeral : Numeral)
deriving DecidableEq

/-- A value that is passed over, up to where it was read. The innermost bracket comes first. -/
structure Skip where
  brackets : List Bracket := []
  phase : SkipPhase := .value
deriving DecidableEq

/-- What one more character does to a value that is passed over. A number is over only when the next
character is seen, and that character is then not part of it. -/
inductive SkipProgress where
  | more (skip : Skip)
  | done
  | doneBefore

namespace Skip

def close (brackets : List Bracket) : SkipProgress :=
  if brackets = [] then .done else .more ⟨brackets, .after⟩

def enter (brackets : List Bracket) (c : Char) : Except ReadError SkipProgress :=
  if c = '"' then .ok (.more ⟨brackets, .string false .plain⟩)
  else if c = '[' then .ok (.more ⟨.list :: brackets, .listStart⟩)
  else if c = '{' then .ok (.more ⟨.object :: brackets, .objectStart⟩)
  else match word? c with
    | some (rest, _) => .ok (.more ⟨brackets, .word rest⟩)
    | none => match Numeral.start? c with
      | some n => .ok (.more ⟨brackets, .numeral n⟩)
      | none => .error .malformed

def stepAfter (brackets : List Bracket) (c : Char) : Except ReadError SkipProgress :=
  if isBlank c then .ok (.more ⟨brackets, .after⟩)
  else match brackets with
    | [] => .error .malformed
    | .list :: outer =>
      if c = ',' then .ok (.more ⟨brackets, .value⟩)
      else if c = ']' then .ok (close outer)
      else .error .malformed
    | .object :: outer =>
      if c = ',' then .ok (.more ⟨brackets, .key⟩)
      else if c = '}' then .ok (close outer)
      else .error .malformed

def step (s : Skip) (c : Char) : Except ReadError SkipProgress :=
  match s.phase with
  | .value => if isBlank c then .ok (.more s) else enter s.brackets c
  | .listStart =>
    if isBlank c then .ok (.more s)
    else if c = ']' then .ok (close s.brackets.tail)
    else enter s.brackets c
  | .objectStart =>
    if isBlank c then .ok (.more s)
    else if c = '"' then .ok (.more { s with phase := .string true .plain })
    else if c = '}' then .ok (close s.brackets.tail)
    else .error .malformed
  | .key =>
    if isBlank c then .ok (.more s)
    else if c = '"' then .ok (.more { s with phase := .string true .plain })
    else .error .malformed
  | .colon =>
    if isBlank c then .ok (.more s)
    else if c = ':' then .ok (.more { s with phase := .value })
    else .error .malformed
  | .after => stepAfter s.brackets c
  | .string isKey literal => do
    match ← literal.step c with
    | .more literal => .ok (.more { s with phase := .string isKey literal })
    | .done () => .ok (if isKey then .more { s with phase := .colon } else close s.brackets)
  | .word rest => do
    match ← stepWord rest c with
    | .more rest => .ok (.more { s with phase := .word rest })
    | .done () => .ok (close s.brackets)
  | .numeral n => do
    match ← n.step c with
    | some n => .ok (.more { s with phase := .numeral n })
    | none => if s.brackets = [] then .ok .doneBefore else stepAfter s.brackets c

/-- The error if the text ends here. A number that stops short breaks the grammar. -/
def atEnd (s : Skip) : ReadError :=
  match s.phase with
  | .numeral n => if n.complete then .ended else .malformed
  | _ => .ended

end Skip
end Pictogram.Json
