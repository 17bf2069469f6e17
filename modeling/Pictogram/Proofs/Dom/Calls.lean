import Pictogram.Dom.Construction

/-! # What calls leave behind

A page changes only by the calls that are made on it: each is counted, and each accepted creation adds a
node. So the page after an action is known from the calls of the action.
-/
namespace Pictogram.Dom
set_option autoImplicit false

/-- The operation of a call that a page can refuse. -/
def Call.operation? : Call → Option Operation
  | .createElement _ _ _ _ => some .createElement
  | .setAttribute _ _ _ => some .setAttribute
  | .appendChild _ _ => some .appendChild
  | .window => none
  | .document => none
  | .ownerDocument _ => none

/-- How many calls of an operation are among these, refused ones too. -/
def callsOf (operation : Operation) (events : List Event) : Nat :=
  events.countP fun e => e.call.operation? = some operation

/-- The document of the node that a call has made. -/
def Event.birth? : Event → Option Nat
  | ⟨.createElement document _ _ _, true⟩ => some document
  | _ => none

/-- The page that these calls leave behind. -/
def Page.after (page : Page) (events : List Event) : Page :=
  { page with
    owners := page.owners ++ ((events.filterMap Event.birth?).map some).toArray
    tally := ⟨page.tally.createElement + callsOf .createElement events,
      page.tally.setAttribute + callsOf .setAttribute events,
      page.tally.appendChild + callsOf .appendChild events⟩ }

theorem callsOf_append (operation : Operation) (events rest : List Event) :
    callsOf operation (events ++ rest) = callsOf operation events + callsOf operation rest :=
  List.countP_append

@[simp] theorem Page.count_after (page : Page) (events : List Event) (operation : Operation) :
    (page.after events).tally.count operation = page.tally.count operation + callsOf operation events := by
  cases operation <;> rfl

theorem Page.nextNode_after (page : Page) (events : List Event) :
    (page.after events).nextNode = page.nextNode + (events.filterMap Event.birth?).length := by
  simp [nextNode, after]

@[simp] theorem Page.after_nil (page : Page) : page.after [] = page := by
  simp [after, callsOf]

theorem Page.after_append (page : Page) (events rest : List Event) :
    page.after (events ++ rest) = (page.after events).after rest := by
  simp [after, callsOf_append, Nat.add_assoc]

namespace Action
variable {ε α β : Type}

theorem bind_result_eq_ok_iff {action : Action ε α} {next : α → Action ε β} {page : Page} {value : β} :
    ((action >>= next) page).result = .ok value ↔ ∃ middle, (action page).result = .ok middle ∧
      (next middle (action page).page).result = .ok value := by
  cases h : (action page).result with
  | error e => simp [bind_error next h]
  | ok middle => simp [bind_ok next h]

/-- The calls of an action account for all that it does to a page. -/
def Accounts (action : Action ε α) : Prop :=
  ∀ page, (action page).page = page.after (action page).events

theorem accounts_pure (value : α) : Accounts (Pure.pure value : Action ε α) := by
  intro page
  exact page.after_nil.symm

theorem Accounts.bind {action : Action ε α} {next : α → Action ε β} (hFirst : Accounts action)
    (hNext : ∀ value, Accounts (next value)) : Accounts (action >>= next) := by
  intro page
  cases h : (action page).result with
  | error e =>
    rw [bind_error next h]
    exact hFirst page
  | ok value =>
    rw [bind_ok next h]
    dsimp only
    rw [hNext value, Page.after_append, ← hFirst page]

end Action

open Pictogram.Dom.Action

theorem Page.after_single (page : Page) {call : Call} {operation : Operation} {accepted : Bool}
    (hOperation : call.operation? = some operation) (hBirth : Event.birth? ⟨call, accepted⟩ = none) :
    page.after [⟨call, accepted⟩] = { page with tally := page.tally.bump operation } := by
  cases operation <;> simp [after, callsOf, hOperation, hBirth, Tally.bump]

theorem page_attempt {α : Type} {operation : Operation} {refused accepted : Call} {answer : α}
    {effect : Page → Page} {page : Page} (hRefused : refused.operation? = some operation)
    (hAccepted : effect { page with tally := page.tally.bump operation } = page.after [⟨accepted, true⟩]) :
    (attempt operation refused accepted answer effect page).page =
      page.after (attempt operation refused accepted answer effect page).events := by
  simp only [attempt]
  split
  · have hBirth : Event.birth? ⟨refused, false⟩ = none := by
      cases refused <;> rfl
    exact (page.after_single hRefused hBirth).symm
  · exact hAccepted

theorem accounts_createElement (document : Nat) (namespaceUri tag : String) :
    Accounts (createElement document namespaceUri tag) := by
  intro page
  refine page_attempt rfl ?_
  simp [Page.after, callsOf, Call.operation?, Event.birth?, Tally.bump]

theorem accounts_setAttribute (node : Nat) (name value : String) : Accounts (setAttribute node name value) :=
  fun page => page_attempt rfl (page.after_single rfl rfl).symm

theorem accounts_appendChild (parent child : Nat) : Accounts (appendChild parent child) :=
  fun page => page_attempt rfl (page.after_single rfl rfl).symm

theorem accounts_setAttributes (node : Nat) (attributes : List Attribute) :
    Accounts (setAttributes node attributes) := by
  induction attributes with
  | nil => exact accounts_pure ()
  | cons a rest ih => exact (accounts_setAttribute node a.name a.value).bind fun _ => ih

mutual

theorem accounts_construct (document : Nat) : ∀ tree : Element, Accounts (construct document tree)
  | ⟨tag, attributes, children⟩ =>
    (accounts_createElement document Icon.namespaceUri tag).bind fun node =>
      (accounts_setAttributes node (written attributes)).bind fun _ =>
        (accounts_constructChildren document node children).bind fun _ => accounts_pure node

theorem accounts_constructChildren (document parent : Nat) :
    ∀ children : List Element, Accounts (constructChildren document parent children)
  | [] => accounts_pure ()
  | child :: rest =>
    (accounts_construct document child).bind fun node =>
      (accounts_appendChild parent node).bind fun _ => accounts_constructChildren document parent rest

end

/-- Appending is refused if the page refuses it, or else it is done. Either way no node is made. -/
theorem appendChild_cases (parent child : Nat) (page : Page) :
    (appendChild parent child page).page.owners = page.owners ∧
      ((∃ value, page.refusal? .appendChild = some value ∧
          (appendChild parent child page).result = .error (.refused "appendChild" value) ∧
            (appendChild parent child page).events = [⟨.appendChild parent child, false⟩]) ∨
        page.refusal? .appendChild = none ∧ (appendChild parent child page).result = .ok () ∧
          (appendChild parent child page).events = [⟨.appendChild parent child, true⟩]) := by
  cases hRefusal : page.refusal? .appendChild with
  | some value =>
    refine ⟨by simp [appendChild, attempt, hRefusal], .inl ⟨value, rfl, ?_, ?_⟩⟩
    · simp [appendChild, attempt, hRefusal, Operation.name]
    · simp [appendChild, attempt, hRefusal]
  | none =>
    refine ⟨by simp [appendChild, attempt, hRefusal], .inr ⟨rfl, ?_, ?_⟩⟩
    · simp [appendChild, attempt, hRefusal]
    · simp [appendChild, attempt, hRefusal]

/-- A tree answers with its first node. -/
theorem construct_result {document : Nat} {tree : Element} {page : Page} {node : Nat}
    (h : (construct document tree page).result = .ok node) : node = page.nextNode := by
  obtain ⟨tag, attributes, children⟩ := tree
  rw [construct] at h
  obtain ⟨made, hMade, hRest⟩ := bind_result_eq_ok_iff.mp h
  obtain ⟨-, -, hRest⟩ := bind_result_eq_ok_iff.mp hRest
  obtain ⟨-, -, hNode⟩ := bind_result_eq_ok_iff.mp hRest
  have hSame : made = node := Except.ok.inj hNode
  subst hSame
  simp only [createElement, attempt] at hMade
  split at hMade
  · cases hMade
  · exact (Except.ok.inj hMade).symm

end Pictogram.Dom
