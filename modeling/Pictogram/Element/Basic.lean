/-! # Elements

A drawing is a rose tree of elements. Attribute order is kept, and nothing forces the attribute names of
an element apart: `Element.setAttribute` never repeats a name, reading a text can.
-/
namespace Pictogram
set_option autoImplicit false

structure Attribute where
  name : String
  value : String
deriving DecidableEq, Inhabited

namespace Attribute

/-- Writes `value` to the first attribute called `name`, or adds one at the end if there is none. -/
def set (name value : String) : List Attribute → List Attribute
  | [] => [⟨name, value⟩]
  | a :: rest => if a.name = name then { a with value } :: rest else a :: set name value rest

def lookup (name : String) (attributes : List Attribute) : Option String :=
  (attributes.find? (·.name = name)).map (·.value)

theorem lookup_cons (name : String) (a : Attribute) (rest : List Attribute) :
    lookup name (a :: rest) = if a.name = name then some a.value else lookup name rest := by
  by_cases h : a.name = name <;> simp [lookup, h]

theorem lookup_set (name other value : String) (attributes : List Attribute) :
    lookup other (set name value attributes) =
      if other = name then some value else lookup other attributes := by
  induction attributes with
  | nil => by_cases h : other = name <;> simp [set, lookup, h, eq_comm]
  | cons a rest ih =>
    by_cases hName : a.name = name <;> by_cases hOther : other = name <;>
      simp_all [set, lookup_cons, eq_comm]

end Attribute

/-- A tag with attributes in order and children in document order. -/
structure Element where
  tag : String
  attributes : List Attribute := []
  children : List Element := []
deriving Inhabited

namespace Element

/-- What holds of an element whenever it holds of its children holds of every element. -/
@[elab_as_elim]
theorem induction {motive : Element → Prop}
    (node : ∀ tag attributes children, (∀ child ∈ children, motive child) → motive ⟨tag, attributes, children⟩) :
    ∀ e, motive e
  | ⟨tag, attributes, children⟩ => node tag attributes children fun child _ => induction node child

mutual

/-- Whether two trees agree in every tag, attribute and child. -/
def same : Element → Element → Bool
  | ⟨tag, attributes, children⟩, ⟨tag', attributes', children'⟩ =>
    tag == tag' && attributes == attributes' && sameAll children children'

def sameAll : List Element → List Element → Bool
  | [], [] => true
  | a :: rest, b :: rest' => same a b && sameAll rest rest'
  | _, _ => false

end

mutual

theorem same_iff : ∀ a b : Element, same a b = true ↔ a = b
  | ⟨tag, attributes, children⟩, ⟨tag', attributes', children'⟩ => by
    simp [same, sameAll_iff children children', and_assoc]

theorem sameAll_iff : ∀ as bs : List Element, sameAll as bs = true ↔ as = bs
  | [], [] => by simp [sameAll]
  | [], _ :: _ => by simp [sameAll]
  | _ :: _, [] => by simp [sameAll]
  | a :: as, b :: bs => by simp [sameAll, same_iff a b, sameAll_iff as bs]

end

instance : DecidableEq Element := fun a b => decidable_of_iff _ (same_iff a b)

def attribute? (e : Element) (name : String) : Option String :=
  Attribute.lookup name e.attributes

/-- Gives the attribute `name` the value `value`, in its old place if the element has it already. -/
def setAttribute (e : Element) (name value : String) : Element :=
  { e with attributes := Attribute.set name value e.attributes }

def push (e child : Element) : Element :=
  { e with children := e.children ++ [child] }

end Element
end Pictogram
