import Pictogram.Element.Basic
import Pictogram.Text.Quoted

/-! # Inspection

Two texts that show every field of a tree: one on a single line, and one with a field or an item on each
line, four blanks deeper than the bracket around it and with a comma after it.
-/
namespace Pictogram.Inspect
set_option autoImplicit false

def text (s : String) : List Char :=
  Text.Quoted.encode s.toList

def flatAttribute (a : Attribute) : List Char :=
  "Attribute \x7b name: ".toList ++ text a.name ++ ", value: ".toList ++ text a.value ++ " \x7d".toList

def flatItems : List (List Char) → List Char
  | [] => "[]".toList
  | item :: rest => '[' :: item ++ rest.flatMap (", ".toList ++ ·) ++ [']']

mutual

def flat : Element → List Char
  | ⟨tag, attributes, children⟩ =>
    "SvgElement \x7b tag: ".toList ++ text tag
      ++ ", attributes: ".toList ++ flatItems (attributes.map flatAttribute)
      ++ ", children: ".toList ++ flatItems (flatAll children) ++ " \x7d".toList

def flatAll : List Element → List (List Char)
  | [] => []
  | child :: rest => flat child :: flatAll rest

end

def margin (depth : Nat) : List Char :=
  List.replicate (4 * depth) ' '

def line (depth : Nat) (content : List Char) : List Char :=
  margin depth ++ (content ++ [',', '\n'])

def field (depth : Nat) (name : String) (content : List Char) : List Char :=
  line depth (name.toList ++ ':' :: ' ' :: content)

/-- Lines between two brackets; the closing one stands at depth `depth`. -/
def block (depth : Nat) (head : List Char) (lines : List Char) (close : Char) : List Char :=
  head ++ '\n' :: (lines ++ (margin depth ++ [close]))

def indentedAttribute (depth : Nat) (a : Attribute) : List Char :=
  block depth "Attribute \x7b".toList
    (field (depth + 1) "name" (text a.name) ++ field (depth + 1) "value" (text a.value)) '}'

/-- Items on lines of their own between square brackets, nothing between the brackets of an empty list. -/
def indentedItems (depth : Nat) : List (List Char) → List Char
  | [] => "[]".toList
  | item :: rest => block depth ['['] ((item :: rest).flatMap (line (depth + 1))) ']'

mutual

def indented (depth : Nat) : Element → List Char
  | ⟨tag, attributes, children⟩ =>
    block depth "SvgElement \x7b".toList
      (field (depth + 1) "tag" (text tag)
        ++ (field (depth + 1) "attributes"
            (indentedItems (depth + 1) (attributes.map (indentedAttribute (depth + 2))))
          ++ field (depth + 1) "children"
            (indentedItems (depth + 1) (indentedAll (depth + 2) children)))) '}'

def indentedAll (depth : Nat) : List Element → List (List Char)
  | [] => []
  | child :: rest => indented depth child :: indentedAll depth rest

end

end Inspect

def Element.inspect (e : Element) : String :=
  String.ofList (Inspect.flat e)

def Element.inspectIndented (e : Element) : String :=
  String.ofList (Inspect.indented 0 e)

end Pictogram
