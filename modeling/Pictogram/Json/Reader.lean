import Pictogram.Json.Draft
import Pictogram.Json.Skip

/-! # Reading a tree

The reader goes through a text once, one character at a time, and stops at the first problem. Its state
holds everything that was read, so what a text is read as is a fold of `step` over its characters. Only
`finish` knows that a text is over.
-/
namespace Pictogram.Json
set_option autoImplicit false

inductive RecordPhase where
  | start
  | key
  | inKey (literal : Literal)
  /-- A colon has to follow; then comes the value, for a hole or for nothing. -/
  | colon (target : Option Hole)
  | skip (skip : Skip)
  | after
deriving DecidableEq

inductive ListPhase where
  | start
  | after
deriving DecidableEq

inductive State where
  | awaiting (hole : Hole)
  | string (hole : Hole) (literal : Literal)
  | word (hole : Hole) (rest : List Char) (found : Found)
  | numeral (hole : Hole) (numeral : Numeral)
  | record (record : Record) (phase : RecordPhase)
  | attributes (list : AttributeList) (phase : ListPhase)
  | children (parent : Ancestor) (path : Path) (phase : ListPhase)
  | finished (tree : Element)
deriving DecidableEq

namespace State

def initial : State :=
  .awaiting (.element [])

/-- At most this many brackets may be open at once. -/
def maxDepth : Nat := 127

def mismatch {α : Type} (hole : Hole) (found : Found) : Except ReadError α :=
  .error (.flawed (.mismatch found hole.expected))

def putString (hole : Hole) (text : String) : Except ReadError State :=
  match hole with
  | .elementField .tag draft path => .ok (.record (.element { draft with tag := some text } path) .after)
  | .attributeField .name draft list =>
    .ok (.record (.attribute { draft with name := some text } list) .after)
  | .attributeField .value draft list =>
    .ok (.record (.attribute { draft with value := some text } list) .after)
  | hole => mismatch hole (.string text)

/-- A complete tree goes to its parent's children, or it is the result. -/
def putElement (path : Path) (tree : Element) : State :=
  match path with
  | [] => .finished tree
  | parent :: path => .children { parent with elders := tree :: parent.elders } path .after

def putAttribute (list : AttributeList) (a : Attribute) : State :=
  .attributes { list with elders := a :: list.elders } .after

def closeAttributes (list : AttributeList) : State :=
  .record (.element { list.owner with attributes := some list.elders.reverse } list.path) .after

def closeChildren (parent : Ancestor) (path : Path) : State :=
  .record (.element { parent.draft with children := some parent.elders.reverse } path) .after

def closeRecord (r : Record) : Except ReadError State :=
  match r with
  | .element draft path => (draft.complete.mapError .flawed).map (putElement path)
  | .attribute draft list => (draft.complete.mapError .flawed).map (putAttribute list)

/-- An opening bracket for a value in a hole, if it is the right one and not too many are open. A wrong
bracket is a mismatch at any depth. -/
def openBracket (hole : Hole) (layout : Layout) : Except ReadError State :=
  let next : Option State := match hole, layout with
    | .element path, layout => some (.record (.element { layout } path) .start)
    | .attribute list, layout => some (.record (.attribute { layout } list) .start)
    | .elementField .attributes owner path, .list => some (.attributes { owner, path } .start)
    | .elementField .children draft path, .list => some (.children { draft } path .start)
    | _, _ => none
  match next with
  | some next => if hole.depth < maxDepth then .ok next else .error .malformed
  | none => mismatch hole (match layout with | .object => .object | .list => .list)

def enter (hole : Hole) (c : Char) : Except ReadError State :=
  if c = '"' then .ok (.string hole {})
  else if c = '[' then openBracket hole .list
  else if c = '{' then openBracket hole .object
  else match word? c with
    | some (rest, found) => .ok (.word hole rest found)
    | none => match Numeral.start? c with
      | some n => .ok (.numeral hole n)
      | none => .error .malformed

def putKey (r : Record) (key : String) : Except ReadError State :=
  (r.member key).map fun target => .record r (.colon target)

def stepAfter (r : Record) (c : Char) : Except ReadError State :=
  if isBlank c then .ok (.record r .after)
  else match r.layout with
    | .object =>
      if c = ',' then .ok (.record r .key)
      else if c = '}' then closeRecord r
      else .error .malformed
    | .list =>
      -- After the last field no comma may come, whatever would follow it.
      if c = ',' then match r.next? with
        | some hole => .ok (.awaiting hole)
        | none => .error .malformed
      else if c = ']' then closeRecord r
      else .error .malformed

def stepRecord (r : Record) (phase : RecordPhase) (c : Char) : Except ReadError State :=
  match phase with
  | .start =>
    if isBlank c then .ok (.record r .start)
    else match r.layout with
      | .object =>
        if c = '"' then .ok (.record r (.inKey {}))
        else if c = '}' then closeRecord r
        else .error .malformed
      | .list =>
        if c = ']' then closeRecord r
        else match r.next? with
          | some hole => enter hole c
          | none => .error .malformed
  | .key =>
    if isBlank c then .ok (.record r .key)
    else if c = '"' then .ok (.record r (.inKey {}))
    else .error .malformed
  | .inKey literal => do
    match ← literal.step c with
    | .more literal => .ok (.record r (.inKey literal))
    | .done key => putKey r key
  | .colon target =>
    if isBlank c then .ok (.record r (.colon target))
    else if c = ':' then match target with
      | some hole => .ok (.awaiting hole)
      | none => .ok (.record r (.skip {}))
    else .error .malformed
  | .skip skip => do
    match ← skip.step c with
    | .more skip => .ok (.record r (.skip skip))
    | .done => .ok (.record r .after)
    | .doneBefore => stepAfter r c
  | .after => stepAfter r c

/-- Reads one more character between the items of a list: blanks, a comma after an item, or the closing
bracket. Anything else begins the first item. -/
def stepList (phase : ListPhase) (c : Char) (again closed : State) (item : Hole) : Except ReadError State :=
  if isBlank c then .ok again
  else if c = ']' then .ok closed
  else match phase with
    | .start => enter item c
    | .after => if c = ',' then .ok (.awaiting item) else .error .malformed

def step (s : State) (c : Char) : Except ReadError State :=
  match s with
  | .awaiting hole => if isBlank c then .ok s else enter hole c
  | .string hole literal => do
    match ← literal.step c with
    | .more literal => .ok (.string hole literal)
    | .done text => putString hole text
  | .word hole rest found => do
    match ← stepWord rest c with
    | .more rest => .ok (.word hole rest found)
    | .done () => mismatch hole found
  | .numeral hole n => do
    match ← n.step c with
    | some n => .ok (.numeral hole n)
    | none => mismatch hole (← n.found)
  | .record r phase => stepRecord r phase c
  | .attributes list phase => stepList phase c s (closeAttributes list) (.attribute list)
  | .children parent path phase =>
    stepList phase c s (closeChildren parent path) (.element (parent :: path))
  | .finished _ => if isBlank c then .ok s else .error .malformed

def finish (s : State) : Except ReadError Element :=
  match s with
  | .finished tree => .ok tree
  -- Only a number can be complete without a character that ends it.
  | .numeral hole n => if n.complete then do mismatch hole (← n.found) else .error .ended
  | .record _ (.skip skip) => .error skip.atEnd
  | _ => .error .ended

def run (s : State) (text : List Char) : Except ReadError State :=
  text.foldlM step s

@[simp] theorem run_nil (s : State) : s.run [] = .ok s := rfl

@[simp] theorem run_cons (s : State) (c : Char) (text : List Char) :
    s.run (c :: text) = s.step c >>= fun t => t.run text := rfl

theorem run_append (s : State) (text rest : List Char) :
    s.run (text ++ rest) = s.run text >>= fun t => t.run rest := by
  simp [run, List.foldlM_append]

theorem run_append_of_error {s : State} {text : List Char} {error : ReadError} (h : s.run text = .error error)
    (rest : List Char) : s.run (text ++ rest) = .error error := by
  rw [run_append, h]
  rfl

end State

def read (text : List Char) : Except ReadError Element :=
  State.initial.run text >>= State.finish

end Json

def Element.ofJson (text : String) : Except Json.ReadError Element :=
  Json.read text.toList

end Pictogram
