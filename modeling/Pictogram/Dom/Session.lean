import Pictogram.Dom.Construction

/-! # Sessions

Steps that a script takes on one page, one after another. A step that fails leaves what it did behind, and
the next step goes on from there.
-/
namespace Pictogram.Dom
set_option autoImplicit false

inductive Step where
  | document
  | construct (owner : Nat) (tree : Element)
  | constructHere (tree : Element)
  | attach (parent : Nat) (tree : Element)
  | attachIcon (parent : Nat)
deriving DecidableEq

/-- How a step fails: with an error, or with what a script catches. -/
inductive Failure where
  | error (e : HostError)
  | thrown (value : ScriptValue)
deriving DecidableEq

def Step.run : Step → Action Failure Nat
  | .document => currentDocument.mapError .error
  | .construct owner tree => (Dom.construct owner tree).mapError .error
  | .constructHere tree => (Dom.constructHere tree).mapError .error
  | .attach parent tree => (Dom.attach parent tree).mapError .error
  | .attachIcon parent => (Dom.attachIcon parent).mapError .thrown

def Page.takeSteps (page : Page) : List Step → List (Run Failure Nat)
  | [] => []
  | step :: rest =>
    let run := step.run page
    run :: run.page.takeSteps rest

end Pictogram.Dom
