import Pictogram.Element.Basic
import Pictogram.Text.Entity

/-! # Markup

The text that a browser reads. An element without children is a single tag; nothing is added between tags,
and names stand as they are. Only values are escaped, so outside of names a quote begins or ends a value.
-/
namespace Pictogram.Markup
set_option autoImplicit false

def writeAttribute (a : Attribute) : List Char :=
  ' ' :: a.name.toList ++ ['=', '"'] ++ Text.Entity.encode a.value.toList ++ ['"']

def writeAttributes (attributes : List Attribute) : List Char :=
  attributes.flatMap writeAttribute

mutual

def write : Element → List Char
  | ⟨tag, attributes, []⟩ => '<' :: tag.toList ++ writeAttributes attributes ++ ['/', '>']
  | ⟨tag, attributes, child :: rest⟩ =>
    '<' :: tag.toList ++ writeAttributes attributes ++ ['>'] ++ (write child ++ writeAll rest)
      ++ ['<', '/'] ++ tag.toList ++ ['>']

def writeAll : List Element → List Char
  | [] => []
  | child :: rest => write child ++ writeAll rest

end

end Markup

def Element.markup (e : Element) : String :=
  String.ofList (Markup.write e)

end Pictogram
