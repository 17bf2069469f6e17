import Pictogram.Element.Basic

/-! # JSON values

Values of the general format, and the value that stands for a tree. The members of an object are kept in
order, repeated names too; a number is kept as its literal.
-/
namespace Pictogram.Json
set_option autoImplicit false

inductive Value where
  | null
  | boolean (value : Bool)
  | number (literal : String)
  | string (text : String)
  | list (items : List Value)
  | object (members : List (String × Value))
deriving Inhabited

def Value.ofAttribute (a : Attribute) : Value :=
  .object [("name", .string a.name), ("value", .string a.value)]

mutual

def Value.ofElement : Element → Value
  | ⟨tag, attributes, children⟩ =>
    .object [("tag", .string tag), ("attributes", .list (attributes.map ofAttribute)),
      ("children", .list (ofElements children))]

def Value.ofElements : List Element → List Value
  | [] => []
  | child :: rest => ofElement child :: ofElements rest

end

end Pictogram.Json
