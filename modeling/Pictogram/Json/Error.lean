import Pictogram.Decimal.Shortest
import Pictogram.Text.Quoted

/-! # What can be wrong with a text

A text that should hold a tree can end too early, break the grammar, or hold a value that is no tree. Only
the last kind has more to say, and its wording is `Flaw.message`.
-/
namespace Pictogram.Json
set_option autoImplicit false

inductive RecordKind where
  | element
  | attribute
deriving DecidableEq

inductive Expected where
  | record (kind : RecordKind)
  | list
  | string
deriving DecidableEq

/-- What stands in a slot that does not take it. A number that is no integer is a double, by its bits. -/
inductive Found where
  | null
  | boolean (value : Bool)
  | integer (value : Int)
  | real (bits : UInt64)
  | string (text : String)
  | list
  | object
deriving DecidableEq

inductive Flaw where
  | missing (field : String)
  | duplicate (field : String)
  | short (length : Nat) (kind : RecordKind)
  | mismatch (found : Found) (expected : Expected)
deriving DecidableEq

inductive ReadError where
  | ended
  | malformed
  | flawed (flaw : Flaw)
deriving DecidableEq

def RecordKind.name : RecordKind → String
  | .element => "struct SvgElement"
  | .attribute => "struct Attribute"

def RecordKind.fields : RecordKind → Nat
  | .element => 3
  | .attribute => 2

def Expected.phrase : Expected → String
  | .record kind => kind.name
  | .list => "a sequence"
  | .string => "a string"

/-- Doubles are positional from `0.00001` up to sixteen digits before the point, and every exponent has its
sign. -/
def realStyle : Decimal.Style := ⟨-5, 15, true⟩

def Found.phrase : Found → String
  | .null => "null"
  | .boolean value => "boolean `" ++ (if value then "true" else "false") ++ "`"
  | .integer value => "integer `" ++ toString value ++ "`"
  | .real bits => "floating point `" ++ realStyle.text bits ++ "`"
  | .string text => "string " ++ Text.Quoted.quote text
  | .list => "sequence"
  | .object => "map"

def Flaw.message : Flaw → String
  | .missing field => "missing field `" ++ field ++ "`"
  | .duplicate field => "duplicate field `" ++ field ++ "`"
  | .short length kind =>
    "invalid length " ++ toString length ++ ", expected " ++ kind.name ++ " with " ++ toString kind.fields
      ++ " elements"
  | .mismatch found expected => "invalid type: " ++ found.phrase ++ ", expected " ++ expected.phrase

end Pictogram.Json
