import Pictogram.Dom.Page
import Pictogram.Icon

/-! # Trees on a page

A tree is built top down: an element is made and gets its attributes, then each child is built and
appended. The namespace belongs to the node, so an attribute of that name is left out. Mounting appends the
root to a node of the page as the last step, so a tree that fails half-way is never seen.
-/
namespace Pictogram.Dom
set_option autoImplicit false

def written (attributes : List Attribute) : List Attribute :=
  attributes.filter (·.name ≠ "xmlns")

def setAttributes (node : Nat) : List Attribute → Action HostError Unit
  | [] => pure ()
  | a :: rest => do
    setAttribute node a.name a.value
    setAttributes node rest

mutual

def construct (document : Nat) : Element → Action HostError Nat
  | ⟨tag, attributes, children⟩ => do
    let node ← createElement document Icon.namespaceUri tag
    setAttributes node (written attributes)
    constructChildren document node children
    return node

/-- Makes the nodes of trees one after another, each appended as soon as it is complete. -/
def constructChildren (document parent : Nat) : List Element → Action HostError Unit
  | [] => pure ()
  | child :: rest => do
    let node ← construct document child
    appendChild parent node
    constructChildren document parent rest

end

def currentDocument : Action HostError Nat := do
  window
  document

def constructHere (tree : Element) : Action HostError Nat := do
  let document ← currentDocument
  construct document tree

def documentFor (node : Nat) : Action HostError Nat := do
  match ← ownerDocument node with
  | some document => pure document
  | none => currentDocument

def attached (tree : Element) : Log.Record :=
  ⟨.debug, "mounted <" ++ tree.tag ++ "> with " ++ toString tree.children.length ++ " children"⟩

/-- Builds a tree and makes its root the last child of a node. -/
def attach (parent : Nat) (tree : Element) : Action HostError Nat := do
  let document ← documentFor parent
  let node ← construct document tree
  appendChild parent node
  Action.record (attached tree)
  return node

def attachIcon (parent : Nat) : Action ScriptValue Nat :=
  (attach parent Icon.arrowUp).announcing

end Pictogram.Dom
