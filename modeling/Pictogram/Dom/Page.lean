import Pictogram.Dom.Error

/-! # Pages

A page as a script sees it: a window with a document, nodes that are known by their numbers, and a list of
calls that it refuses. Nodes are numbered in the order in which they are made. An action on a page answers
with a result, and tells the calls it made and the records it wrote up to where it stopped.
-/
namespace Pictogram.Dom
set_option autoImplicit false

inductive Operation where
  | createElement
  | setAttribute
  | appendChild
deriving DecidableEq

def Operation.name : Operation → String
  | .createElement => "createElementNS"
  | .setAttribute => "setAttribute"
  | .appendChild => "appendChild"

structure Tally where
  createElement : Nat := 0
  setAttribute : Nat := 0
  appendChild : Nat := 0
deriving DecidableEq

def Tally.count (t : Tally) : Operation → Nat
  | .createElement => t.createElement
  | .setAttribute => t.setAttribute
  | .appendChild => t.appendChild

def Tally.bump (t : Tally) : Operation → Tally
  | .createElement => { t with createElement := t.createElement + 1 }
  | .setAttribute => { t with setAttribute := t.setAttribute + 1 }
  | .appendChild => { t with appendChild := t.appendChild + 1 }

/-- The call number `nth` of an operation, counted from 1, throws a value. -/
structure Refusal where
  operation : Operation
  nth : Nat
  value : ScriptValue
deriving DecidableEq

/-- A page. `owners` has the document of each node, by the node's number; a node may be without one. -/
structure Page where
  hasWindow : Bool
  hasDocument : Bool
  owners : Array (Option Nat)
  refusals : List Refusal := []
  tally : Tally := {}
deriving DecidableEq

def windowDocument : Nat := 0

def Page.nextNode (page : Page) : Nat :=
  page.owners.size

def Page.owner? (page : Page) (node : Nat) : Option Nat :=
  page.owners.getD node none

/-- What the next call of an operation throws, if the page refuses it. -/
def Page.refusal? (page : Page) (operation : Operation) : Option ScriptValue :=
  (page.refusals.find? fun r =>
    r.operation = operation && r.nth = page.tally.count operation + 1).map (·.value)

/-- A call with everything that was handed over, and the node that was made. -/
inductive Call where
  | window
  | document
  | ownerDocument (node : Nat)
  | createElement (document : Nat) (namespaceUri tag : String) (made : Option Nat)
  | setAttribute (node : Nat) (name value : String)
  | appendChild (parent child : Nat)
deriving DecidableEq

structure Event where
  call : Call
  accepted : Bool := true
deriving DecidableEq

structure Run (ε α : Type) where
  result : Except ε α
  page : Page
  events : List Event := []
  records : List Log.Record := []

def Action (ε α : Type) := Page → Run ε α

namespace Action
variable {ε ε' α β : Type}

def pure (value : α) : Action ε α := fun page =>
  ⟨.ok value, page, [], []⟩

def bind (action : Action ε α) (next : α → Action ε β) : Action ε β := fun page =>
  let first := action page
  match first.result with
  | .error e => ⟨.error e, first.page, first.events, first.records⟩
  | .ok value =>
    let second := next value first.page
    ⟨second.result, second.page, first.events ++ second.events, first.records ++ second.records⟩

instance : Monad (Action ε) where
  pure := pure
  bind := bind

theorem bind_ok {action : Action ε α} {page : Page} {value : α} (next : α → Action ε β)
    (h : (action page).result = .ok value) :
    (action >>= next) page =
      let first := action page
      let second := next value first.page
      ⟨second.result, second.page, first.events ++ second.events, first.records ++ second.records⟩ := by
  simp only [Bind.bind, bind, h]

theorem bind_error {action : Action ε α} {page : Page} {e : ε} (next : α → Action ε β)
    (h : (action page).result = .error e) :
    (action >>= next) page = ⟨.error e, (action page).page, (action page).events, (action page).records⟩ := by
  simp only [Bind.bind, bind, h]

def record (r : Log.Record) : Action ε Unit := fun page =>
  ⟨.ok (), page, [], [r]⟩

def mapError (f : ε → ε') (action : Action ε α) : Action ε' α := fun page =>
  let run := action page
  ⟨run.result.mapError f, run.page, run.events, run.records⟩

def announcing (action : Action HostError α) : Action ScriptValue α := fun page =>
  let run := action page
  match run.result with
  | .ok value => ⟨.ok value, run.page, run.events, run.records⟩
  | .error e => ⟨.error e.announce.value, run.page, run.events, run.records ++ e.announce.records⟩

end Action

def window : Action HostError Unit := fun page =>
  ⟨if page.hasWindow then .ok () else .error .windowMissing, page, [⟨.window, true⟩], []⟩

def document : Action HostError Nat := fun page =>
  ⟨if page.hasDocument then .ok windowDocument else .error .documentMissing, page, [⟨.document, true⟩], []⟩

def ownerDocument (node : Nat) : Action HostError (Option Nat) := fun page =>
  ⟨.ok (page.owner? node), page, [⟨.ownerDocument node, true⟩], []⟩

/-- A call of an operation, which is counted whether or not it is refused. -/
def attempt {α : Type} (operation : Operation) (refused accepted : Call) (answer : α)
    (effect : Page → Page) : Action HostError α := fun page =>
  let counted := { page with tally := page.tally.bump operation }
  match page.refusal? operation with
  | some value => ⟨.error (.refused operation.name value), counted, [⟨refused, false⟩], []⟩
  | none => ⟨.ok answer, effect counted, [⟨accepted, true⟩], []⟩

/-- Makes a node that belongs to a document. A refused call uses up no number. -/
def createElement (document : Nat) (namespaceUri tag : String) : Action HostError Nat := fun page =>
  attempt .createElement (.createElement document namespaceUri tag none)
    (.createElement document namespaceUri tag (some page.nextNode)) page.nextNode
    (fun p => { p with owners := p.owners.push (some document) }) page

def setAttribute (node : Nat) (name value : String) : Action HostError Unit :=
  attempt .setAttribute (.setAttribute node name value) (.setAttribute node name value) () id

def appendChild (parent child : Nat) : Action HostError Unit :=
  attempt .appendChild (.appendChild parent child) (.appendChild parent child) () id

end Pictogram.Dom
