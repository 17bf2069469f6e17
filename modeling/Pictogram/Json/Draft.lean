import Pictogram.Element.Basic
import Pictogram.Json.Error

/-! # Records under construction

Elements and attributes can be written as objects, with named fields in any order, or as lists of their
fields. Either way a draft collects the fields, and a hole says where the next value of the text goes.
-/
namespace Pictogram.Json
set_option autoImplicit false

inductive Layout where
  | object
  | list
deriving DecidableEq

inductive ElementField where
  | tag
  | attributes
  | children
deriving DecidableEq

inductive AttributeField where
  | name
  | value
deriving DecidableEq

def ElementField.ofKey? (key : String) : Option ElementField :=
  if key = "tag" then some .tag
  else if key = "attributes" then some .attributes
  else if key = "children" then some .children
  else none

def AttributeField.ofKey? (key : String) : Option AttributeField :=
  if key = "name" then some .name
  else if key = "value" then some .value
  else none

structure ElementDraft where
  layout : Layout
  tag : Option String := none
  attributes : Option (List Attribute) := none
  children : Option (List Element) := none
deriving DecidableEq

structure AttributeDraft where
  layout : Layout
  name : Option String := none
  value : Option String := none
deriving DecidableEq

namespace ElementDraft

def has (d : ElementDraft) : ElementField → Bool
  | .tag => d.tag.isSome
  | .attributes => d.attributes.isSome
  | .children => d.children.isSome

/-- In a list the fields come in order. -/
def next? (d : ElementDraft) : Option ElementField :=
  if d.tag = none then some .tag
  else if d.attributes = none then some .attributes
  else if d.children = none then some .children
  else none

/-- The element, if it has a tag. Lists that were not read are empty. -/
def complete (d : ElementDraft) : Except Flaw Element :=
  match d.tag with
  | some tag => .ok ⟨tag, d.attributes.getD [], d.children.getD []⟩
  | none => match d.layout with
    | .object => .error (.missing "tag")
    | .list => .error (.short 0 .element)

end ElementDraft

namespace AttributeDraft

def has (d : AttributeDraft) : AttributeField → Bool
  | .name => d.name.isSome
  | .value => d.value.isSome

def next? (d : AttributeDraft) : Option AttributeField :=
  if d.name = none then some .name
  else if d.value = none then some .value
  else none

def complete (d : AttributeDraft) : Except Flaw Attribute :=
  match d.name, d.value, d.layout with
  | some name, some value, _ => .ok ⟨name, value⟩
  | none, _, .object => .error (.missing "name")
  | none, _, .list => .error (.short 0 .attribute)
  | some _, none, .object => .error (.missing "value")
  | some _, none, .list => .error (.short 1 .attribute)

end AttributeDraft

/-- An element whose list of children is being read, and the children so far, last first. -/
structure Ancestor where
  draft : ElementDraft
  elders : List Element := []
deriving DecidableEq

/-- The elements around a place in the text, the innermost first. -/
abbrev Path := List Ancestor

/-- An element whose list of attributes is being read, and the attributes so far, last first. -/
structure AttributeList where
  owner : ElementDraft
  path : Path
  elders : List Attribute := []
deriving DecidableEq

inductive Hole where
  | element (path : Path)
  | attribute (list : AttributeList)
  | elementField (field : ElementField) (draft : ElementDraft) (path : Path)
  | attributeField (field : AttributeField) (draft : AttributeDraft) (list : AttributeList)
deriving DecidableEq

inductive Record where
  | element (draft : ElementDraft) (path : Path)
  | attribute (draft : AttributeDraft) (list : AttributeList)
deriving DecidableEq

def Hole.expected : Hole → Expected
  | .element _ => .record .element
  | .attribute _ => .record .attribute
  | .elementField .tag _ _ => .string
  | .elementField _ _ _ => .list
  | .attributeField _ _ _ => .string

/-- How many brackets are open around a hole. Each ancestor has opened one for itself and one for its
children. -/
def Hole.depth : Hole → Nat
  | .element path => 2 * path.length
  | .elementField _ _ path => 2 * path.length + 1
  | .attribute list => 2 * list.path.length + 2
  | .attributeField _ _ list => 2 * list.path.length + 3

namespace Record

def layout : Record → Layout
  | .element draft _ => draft.layout
  | .attribute draft _ => draft.layout

/-- Where the value of a member goes: nowhere if its key is unknown. A known key must not come twice. -/
def member (r : Record) (key : String) : Except ReadError (Option Hole) :=
  match r with
  | .element draft path => match ElementField.ofKey? key with
    | none => .ok none
    | some field =>
      if draft.has field then .error (.flawed (.duplicate key))
      else .ok (some (.elementField field draft path))
  | .attribute draft list => match AttributeField.ofKey? key with
    | none => .ok none
    | some field =>
      if draft.has field then .error (.flawed (.duplicate key))
      else .ok (some (.attributeField field draft list))

/-- Where the next item of a record written as a list goes, unless it has all its fields. -/
def next? : Record → Option Hole
  | .element draft path => draft.next?.map (.elementField · draft path)
  | .attribute draft list => draft.next?.map (.attributeField · draft list)

end Record
end Pictogram.Json
