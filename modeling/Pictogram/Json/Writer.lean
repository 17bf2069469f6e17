import Pictogram.Element.Basic
import Pictogram.Text.Hex

/-! # JSON text of a tree

No blanks, and every field written in a fixed order, empty lists too. Inside a string only quotes,
backslashes and the characters below U+0020 are escaped.
-/
namespace Pictogram.Json
set_option autoImplicit false

def writeChar (c : Char) : List Char :=
  match c with
  | '"' => ['\\', '"']
  | '\\' => ['\\', '\\']
  | '\x08' => ['\\', 'b']
  | '\x0c' => ['\\', 'f']
  | '\n' => ['\\', 'n']
  | '\r' => ['\\', 'r']
  | '\t' => ['\\', 't']
  | c =>
    if c.toNat < 0x20 then
      ['\\', 'u', '0', '0', Text.Hex.digit (c.toNat / 16), Text.Hex.digit (c.toNat % 16)]
    else [c]

def writeString (s : String) : List Char :=
  '"' :: s.toList.flatMap writeChar ++ ['"']

def writeItems : List (List Char) → List Char
  | [] => ['[', ']']
  | item :: rest => '[' :: item ++ rest.flatMap (',' :: ·) ++ [']']

def writeAttribute (a : Attribute) : List Char :=
  "\x7b\"name\":".toList ++ writeString a.name ++ ",\"value\":".toList ++ writeString a.value ++ ['}']

mutual

def write : Element → List Char
  | ⟨tag, attributes, children⟩ =>
    "\x7b\"tag\":".toList ++ writeString tag
      ++ ",\"attributes\":".toList ++ writeItems (attributes.map writeAttribute)
      ++ ",\"children\":".toList ++ writeItems (writeAll children) ++ ['}']

def writeAll : List Element → List (List Char)
  | [] => []
  | child :: rest => write child :: writeAll rest

end

end Json

def Element.json (e : Element) : String :=
  String.ofList (Json.write e)

end Pictogram
