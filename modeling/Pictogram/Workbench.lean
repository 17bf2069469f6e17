import Pictogram.Icon
import Pictogram.Json.Reader

/-! # The workbench

Trees are made on a stack. Each step takes what it needs from the top and leaves its result there.
-/
namespace Pictogram.Workbench
set_option autoImplicit false

/-- The trees on the bench, the top first. -/
abbrev Stack := List Element

inductive Step where
  | new (tag : String)
  | icon
  | duplicate
  | swap
  /-- A child of the top, which stays. -/
  | child (index : Nat)
  | setAttribute (name value : String)
  /-- The top becomes the last child of the tree below it. -/
  | push
  | read (json : String)
  | drop
deriving DecidableEq

inductive Obstacle where
  | tooFew
  | noChild (index : Nat)
  | unreadable (e : Json.ReadError)
deriving DecidableEq

def Step.apply (step : Step) (stack : Stack) : Except Obstacle Stack :=
  match step, stack with
  | .new tag, stack => .ok ({ tag } :: stack)
  | .icon, stack => .ok (Icon.arrowUp :: stack)
  | .duplicate, top :: rest => .ok (top :: top :: rest)
  | .swap, top :: next :: rest => .ok (next :: top :: rest)
  | .child index, top :: rest => match top.children[index]? with
    | some inner => .ok (inner :: top :: rest)
    | none => .error (.noChild index)
  | .setAttribute name value, top :: rest => .ok (top.setAttribute name value :: rest)
  | .push, last :: parent :: rest => .ok (parent.push last :: rest)
  | .read json, stack => match Element.ofJson json with
    | .ok tree => .ok (tree :: stack)
    | .error e => .error (.unreadable e)
  | .drop, _ :: rest => .ok rest
  | _, _ => .error .tooFew

end Pictogram.Workbench
