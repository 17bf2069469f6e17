import Pictogram.Export
import Pictogram.Proofs.Dom.Runs

/-! # What is thrown and what is logged

Building trees logs nothing. Mounting a tree is told by one record, which is written after the last call and
therefore never before a failure. An error is logged where it is turned into what a script catches, in the same
words and once.
-/
namespace Pictogram.Dom
set_option autoImplicit false

/-! ## Actions and their records -/

namespace Action
variable {ε ε' α β : Type}

/-- Nothing is logged, however the action ends. -/
def Silent (action : Action ε α) : Prop :=
  ∀ page, (action page).records = []

/-- A record is logged if the action succeeds, and nothing if it fails. -/
def ToldBy (action : Action ε α) (r : Log.Record) : Prop :=
  ∀ page, (∀ value, (action page).result = .ok value → (action page).records = [r]) ∧
    ∀ e, (action page).result = .error e → (action page).records = []

theorem silent_pure (value : α) : Silent (Pure.pure value : Action ε α) := fun _ => rfl

theorem Silent.bind {action : Action ε α} {next : α → Action ε β} (h : Silent action)
    (hNext : ∀ value, Silent (next value)) : Silent (action >>= next) := by
  intro page
  cases hResult : (action page).result with
  | error e =>
    rw [bind_error next hResult]
    exact h page
  | ok value =>
    rw [bind_ok next hResult]
    dsimp only
    rw [h page, hNext value, List.append_nil]

/-- Silence before the action that is told changes nothing, even if it ends in a failure. -/
theorem ToldBy.after {action : Action ε α} {next : α → Action ε β} {r : Log.Record} (h : Silent action)
    (hNext : ∀ value, ToldBy (next value) r) : ToldBy (action >>= next) r := by
  intro page
  cases hResult : (action page).result with
  | error e =>
    rw [bind_error next hResult]
    exact ⟨nofun, fun _ _ => h page⟩
  | ok value =>
    rw [bind_ok next hResult]
    dsimp only
    rw [h page, List.nil_append]
    exact hNext value (action page).page

theorem told_record (r : Log.Record) (value : α) : ToldBy (record r >>= fun _ => Pure.pure value : Action ε α) r :=
  fun _ => ⟨fun _ _ => rfl, nofun⟩

theorem ToldBy.mapError {action : Action ε α} {r : Log.Record} (h : ToldBy action r) (f : ε → ε') :
    ToldBy (action.mapError f) r := by
  intro page
  have hRecords : (action.mapError f page).records = (action page).records := rfl
  have hResult : (action.mapError f page).result = (action page).result.mapError f := rfl
  rw [hRecords, hResult]
  obtain ⟨hOk, hError⟩ := h page
  cases hFirst : (action page).result with
  | error e => exact ⟨nofun, fun _ _ => hError e hFirst⟩
  | ok value => exact ⟨fun _ _ => hOk value hFirst, nofun⟩

end Action

open Pictogram.Dom.Action

theorem silent_attempt {α : Type} (operation : Operation) (refused accepted : Call) (answer : α)
    (effect : Page → Page) : Silent (attempt operation refused accepted answer effect) := by
  intro page
  simp only [attempt]
  split <;> rfl

theorem silent_setAttributes (node : Nat) (attributes : List Attribute) : Silent (setAttributes node attributes) := by
  induction attributes with
  | nil => exact silent_pure ()
  | cons a rest ih => exact (silent_attempt _ _ _ _ _).bind fun _ => ih

mutual

theorem silent_construct (document : Nat) : ∀ tree : Element, Silent (construct document tree)
  | ⟨tag, attributes, children⟩ =>
    have hCreate : Silent (createElement document Icon.namespaceUri tag) :=
      fun page => silent_attempt _ _ _ _ _ page
    hCreate.bind fun node => (silent_setAttributes node (written attributes)).bind fun _ =>
      (silent_constructChildren document node children).bind fun _ => silent_pure node

theorem silent_constructChildren (document parent : Nat) :
    ∀ children : List Element, Silent (constructChildren document parent children)
  | [] => silent_pure ()
  | child :: rest =>
    (silent_construct document child).bind fun _ =>
      (silent_attempt _ _ _ _ _).bind fun _ => silent_constructChildren document parent rest

end

theorem silent_currentDocument : Silent currentDocument :=
  Silent.bind (fun _ => rfl) fun _ _ => rfl

theorem silent_documentFor (node : Nat) : Silent (documentFor node) := by
  refine Silent.bind (fun _ => rfl) fun owner? => ?_
  cases owner? with
  | some document => exact silent_pure document
  | none => exact silent_currentDocument

theorem told_attach (parent : Nat) (tree : Element) : ToldBy (attach parent tree) (attached tree) :=
  ToldBy.after (silent_documentFor parent) fun document =>
    ToldBy.after (silent_construct document tree) fun node =>
      ToldBy.after (silent_attempt _ _ _ _ _) fun _ => told_record (attached tree) node

/-! ## Steps and their records -/

/-- An error is thrown as a string and logged once, both times with its message. -/
def HostError.Reported (e : HostError) (value : ScriptValue) (records : List Log.Record) : Prop :=
  value = .string e.message ∧ records = [⟨.error, e.message⟩]

/-- A run hands on another one: the same calls and the same answer, told by one record, or a report of its error. -/
structure Relayed (first : Run HostError Nat) (run : Run Failure Nat) : Prop where
  events : run.events = first.events
  page : run.page = first.page
  succeeded : ∀ node, first.result = .ok node →
    run.result = .ok node ∧ ∃ message, run.records = [⟨.debug, message⟩]
  failed : ∀ e, first.result = .error e →
    ∃ value, run.result = .error (.thrown value) ∧ e.Reported value run.records
  throws_iff : (∃ value, run.result = .error (.thrown value)) ↔ ∃ e, first.result = .error e

/-- What is thrown and what is logged in the run of a step on a page. -/
def Step.Told (page : Page) (run : Run Failure Nat) : Step → Prop
  | .document => run.records = []
  | .construct _ _ => run.records = []
  | .constructHere _ => run.records = []
  | .attach _ tree =>
    (∀ node, run.result = .ok node → run.records =
        [⟨.debug, "mounted <" ++ tree.tag ++ "> with " ++ toString tree.children.length ++ " children"⟩]) ∧
      ∀ failure, run.result = .error failure → run.records = []
  | .attachIcon parent => Relayed (Dom.attach parent Icon.arrowUp page) run

theorem relayed_announcing {action : Action HostError Nat} {message : String}
    (h : ToldBy action ⟨.debug, message⟩) (page : Page) :
    Relayed (action page) (action.announcing.mapError Failure.thrown page) := by
  obtain ⟨hOk, hError⟩ := h page
  rw [Action.mapError, Action.announcing]
  generalize action page = first at hOk hError
  obtain ⟨result, after, events, records⟩ := first
  cases result with
  | ok node =>
    refine ⟨rfl, rfl, ?_, nofun, ?_⟩
    · intro node' hNode
      cases hNode
      exact ⟨rfl, message, hOk node rfl⟩
    · exact ⟨nofun, nofun⟩
  | error e =>
    refine ⟨rfl, rfl, nofun, ?_, ?_⟩
    · intro e' hSame
      cases hSame
      have hRecords : records ++ e.announce.records = [e.record] := by
        rw [show records = [] from hError e rfl]
        rfl
      exact ⟨e.thrown, rfl, rfl, hRecords⟩
    · exact ⟨fun _ => ⟨e, rfl⟩, fun _ => ⟨e.thrown, rfl⟩⟩

theorem told_run (step : Step) (page : Page) : step.Told page (step.run page) := by
  cases step with
  | document => exact silent_currentDocument page
  | construct owner tree => exact silent_construct owner tree page
  | constructHere tree =>
    have hSilent : Silent (constructHere tree) :=
      silent_currentDocument.bind fun document => silent_construct document tree
    exact hSilent page
  | attach parent tree => exact (told_attach parent tree).mapError Failure.error page
  | attachIcon parent => exact relayed_announcing (told_attach parent Icon.arrowUp) page

/-- Each of some runs tells what the step of the same number does on the page that the runs before it left. -/
def Page.Told (page : Page) : List Step → List (Run Failure Nat) → Prop
  | [], [] => True
  | step :: rest, run :: runs => step.Told page run ∧ run.page.Told rest runs
  | _, _ => False

theorem told_takeSteps (page : Page) (steps : List Step) : page.Told steps (page.takeSteps steps) := by
  induction steps generalizing page with
  | nil => trivial
  | cons step rest ih => exact ⟨told_run step page, ih (step.run page).page⟩

/-- In every run of steps, whatever is refused, only mounting a tree and failing to mount the icon leave a record. An
export that fails leaves one as well, and its words are those that are thrown. -/
theorem reported_everywhere (page : Page) (steps : List Step) (context message : String) :
    page.Told steps (page.takeSteps steps) ∧
      (∃ value, (Export.object context (.failing message)).value = .error value ∧
        (HostError.unserialized (context ++ ": " ++ Export.shownError message)).Reported value
          (Export.object context (.failing message)).records) ∧
      ∃ value, (Export.text context (.failing message)).value = .error value ∧
        (HostError.unserialized (context ++ ": " ++ message)).Reported value
          (Export.text context (.failing message)).records :=
  ⟨told_takeSteps page steps, ⟨_, rfl, rfl, rfl⟩, ⟨_, rfl, rfl, rfl⟩⟩

end Pictogram.Dom
