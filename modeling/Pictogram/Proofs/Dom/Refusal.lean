import Pictogram.Proofs.Dom.Calls

/-! # Refused calls

On a page that refuses nothing an action makes all its calls. On any other page it makes the same calls up
to the first one that is refused, and nothing after it.
-/
namespace Pictogram.Dom
set_option autoImplicit false

def Page.unrefused (page : Page) : Page :=
  { page with refusals := [] }

/-- What the call number `nth` of an operation throws, if it is one that the page refuses. -/
def Page.scripted? (page : Page) (operation : Operation) (nth : Nat) : Option ScriptValue :=
  (page.refusals.find? fun r => r.operation = operation && r.nth = nth).map (·.value)

/-- What the call at a position among these throws. Calls of the same operation are counted with all that
were made before. -/
def Page.thrown? (page : Page) (events : List Event) (position : Nat) : Option ScriptValue :=
  events[position]?.bind fun e => e.call.operation?.bind fun operation =>
    page.scripted? operation (page.tally.count operation + callsOf operation (events.take position) + 1)

/-- A call that was refused shows no node. -/
def Call.unmade : Call → Call
  | .createElement owner namespaceUri tag _ => .createElement owner namespaceUri tag none
  | call => call

/-- How a run ends on a page, where `events` are the calls that it makes when none is refused and `answer`
is its result then. -/
inductive Outcome {α : Type} (page : Page) (events : List Event) (answer : α) (run : Run HostError α) : Prop
  | completed (hNone : ∀ position, page.thrown? events position = none)
      (hEvents : run.events = events) (hResult : run.result = .ok answer)
  | refused (position : Nat) (call : Call) (operation : Operation) (value : ScriptValue)
      (hCall : events[position]? = some ⟨call, true⟩) (hOperation : call.operation? = some operation)
      (hThrown : page.thrown? events position = some value)
      (hFirst : ∀ earlier < position, page.thrown? events earlier = none)
      (hEvents : run.events = events.take position ++ [⟨call.unmade, false⟩])
      (hResult : run.result = .error (.rejected (operation.name ++ ": " ++ value.detail)))

theorem Page.thrown?_nil (page : Page) (position : Nat) : page.thrown? [] position = none := rfl

theorem Page.thrown?_append_left (page : Page) {events : List Event} (rest : List Event) {position : Nat}
    (h : position < events.length) : page.thrown? (events ++ rest) position = page.thrown? events position := by
  rw [thrown?, thrown?, List.getElem?_append_left h, List.take_append_of_le_length (Nat.le_of_lt h)]

theorem Page.thrown?_append_right (page : Page) (events rest : List Event) (position : Nat) :
    page.thrown? (events ++ rest) (events.length + position) = (page.after events).thrown? rest position := by
  have hGet : (events ++ rest)[events.length + position]? = rest[position]? := by
    rw [List.getElem?_append_right (by omega), Nat.add_sub_cancel_left]
  rw [thrown?, thrown?, hGet, List.take_length_add_append]
  simp only [callsOf_append, count_after, Nat.add_assoc]
  rfl

theorem Page.thrown?_single (page : Page) {call : Call} {operation : Operation} {accepted : Bool}
    (h : call.operation? = some operation) :
    page.thrown? [⟨call, accepted⟩] 0 = page.refusal? operation := by
  have hScript : page.refusal? operation = page.scripted? operation (page.tally.count operation + 1) := rfl
  simp [thrown?, h, callsOf, hScript]

theorem Page.thrown?_of_length_le (page : Page) {events : List Event} {position : Nat} (h : events.length ≤ position) :
    page.thrown? events position = none := by
  rw [thrown?, List.getElem?_eq_none h]
  rfl

/-- None of some calls and one more is refused if none of them is and the page that they leave allows another one. -/
theorem Page.thrown?_concat_iff (page : Page) (events : List Event) {call : Call} {operation : Operation}
    (h : call.operation? = some operation) :
    (∀ position, page.thrown? (events ++ [⟨call, true⟩]) position = none) ↔
      (∀ position, page.thrown? events position = none) ∧ (page.after events).refusal? operation = none := by
  have hLast : page.thrown? (events ++ [⟨call, true⟩]) events.length = (page.after events).refusal? operation :=
    (page.thrown?_append_right events [⟨call, true⟩] 0).trans ((page.after events).thrown?_single h)
  constructor
  · intro hNone
    refine ⟨fun position => ?_, hLast ▸ hNone events.length⟩
    obtain hLess | hMore := Nat.lt_or_ge position events.length
    · rw [← page.thrown?_append_left [⟨call, true⟩] hLess, hNone]
    · exact page.thrown?_of_length_le hMore
  · rintro ⟨hNone, hRefusal⟩ position
    obtain hLess | rfl | hMore := Nat.lt_trichotomy position events.length
    · rw [page.thrown?_append_left _ hLess, hNone]
    · rw [hLast, hRefusal]
    · apply page.thrown?_of_length_le
      rwa [List.length_append]

/-- Refusals of calls that were made before are over. -/
theorem Page.thrown?_of_past (page : Page) (h : ∀ r ∈ page.refusals, r.nth ≤ page.tally.count r.operation)
    (events : List Event) (position : Nat) : page.thrown? events position = none := by
  rw [thrown?, Option.bind_eq_none_iff]
  intro e _
  rw [Option.bind_eq_none_iff]
  intro operation _
  rw [scripted?, Option.map_eq_none_iff, List.find?_eq_none]
  intro r hMem hMatch
  rw [Bool.and_eq_true, decide_eq_true_eq, decide_eq_true_eq] at hMatch
  obtain ⟨rfl, hNth⟩ := hMatch
  have hPast := h r hMem
  omega

/-- A page without refusals lets an action make all its calls, and any other page stops it at the first call
that it refuses. -/
def Stoppable {α : Type} (action : Action HostError α) (page : Page) : Prop :=
  ∃ answer, (action page.unrefused).result = .ok answer ∧
    Outcome page (action page.unrefused).events answer (action page)

theorem stoppable_pure {α : Type} (value : α) (page : Page) : Stoppable (pure value) page :=
  ⟨value, rfl, .completed page.thrown?_nil rfl rfl⟩

theorem stoppable_attempt {α : Type} {operation : Operation} {call : Call} {answer : α} {effect : Page → Page}
    {page : Page} (h : call.operation? = some operation) :
    Stoppable (attempt operation call.unmade call answer effect) page := by
  have hFree : attempt operation call.unmade call answer effect page.unrefused =
      ⟨.ok answer, effect { page.unrefused with tally := page.tally.bump operation }, [⟨call, true⟩], []⟩ := rfl
  refine ⟨answer, by rw [hFree], ?_⟩
  rw [hFree]
  cases hRefusal : page.refusal? operation with
  | none =>
    refine .completed ?_ (by simp [attempt, hRefusal]) (by simp [attempt, hRefusal])
    intro position
    cases position with
    | zero => rw [page.thrown?_single h, hRefusal]
    | succ position => rfl
  | some value =>
    refine .refused 0 call operation value rfl h ?_ (by simp) (by simp [attempt, hRefusal]) ?_
    · rw [page.thrown?_single h, hRefusal]
    · simp [attempt, hRefusal, HostError.refused]

/-- Calls that are all accepted may come first. -/
theorem Outcome.after {α : Type} {page : Page} {events rest : List Event} {answer : α} {run : Run HostError α}
    (hNone : ∀ position, page.thrown? events position = none) (h : Outcome (page.after events) rest answer run)
    (records : List Log.Record) :
    Outcome page (events ++ rest) answer ⟨run.result, run.page, events ++ run.events, records⟩ := by
  cases h with
  | completed hNone' hEvents hResult =>
    refine .completed ?_ (congrArg _ hEvents) hResult
    intro position
    rcases Nat.lt_or_ge position events.length with hLess | hMore
    · rw [page.thrown?_append_left _ hLess, hNone]
    · obtain ⟨offset, rfl⟩ := Nat.exists_eq_add_of_le hMore
      rw [page.thrown?_append_right, hNone']
  | refused position call operation value hCall hOperation hThrown hFirst hEvents hResult =>
    refine .refused (events.length + position) call operation value ?_ hOperation ?_ ?_ ?_ hResult
    · rw [List.getElem?_append_right (by omega), Nat.add_sub_cancel_left, hCall]
    · rw [page.thrown?_append_right, hThrown]
    · intro earlier hEarlier
      rcases Nat.lt_or_ge earlier events.length with hLess | hMore
      · rw [page.thrown?_append_left _ hLess, hNone]
      · obtain ⟨offset, rfl⟩ := Nat.exists_eq_add_of_le hMore
        rw [page.thrown?_append_right, hFirst offset (by omega)]
    · rw [hEvents, List.take_length_add_append, List.append_assoc]

/-- After a refused call nothing else is called. -/
theorem Outcome.stop {α β : Type} {page : Page} {events : List Event} {answer : α} {run : Run HostError α}
    {e : HostError} (h : Outcome page events answer run) (hError : run.result = .error e) (rest : List Event)
    (last : β) : Outcome page (events ++ rest) last ⟨.error e, run.page, run.events, run.records⟩ := by
  cases h with
  | completed _ _ hResult =>
    rw [hResult] at hError
    cases hError
  | refused position call operation value hCall hOperation hThrown hFirst hEvents hResult =>
    have hLess : position < events.length := (List.getElem?_eq_some_iff.mp hCall).1
    rw [hResult] at hError
    cases hError
    refine .refused position call operation value ?_ hOperation ?_ ?_ ?_ rfl
    · rw [List.getElem?_append_left hLess, hCall]
    · rw [page.thrown?_append_left _ hLess, hThrown]
    · intro earlier hEarlier
      rw [page.thrown?_append_left _ (by omega), hFirst earlier hEarlier]
    · rw [List.take_append_of_le_length (Nat.le_of_lt hLess)]
      exact hEvents

theorem Outcome.of_ok {α : Type} {page : Page} {events : List Event} {answer value : α} {run : Run HostError α}
    (h : Outcome page events answer run) (hOk : run.result = .ok value) :
    value = answer ∧ run.events = events ∧ ∀ position, page.thrown? events position = none := by
  cases h with
  | completed hNone hEvents hResult =>
    rw [hResult] at hOk
    exact ⟨(Except.ok.inj hOk).symm, hEvents, hNone⟩
  | refused _ _ _ _ _ _ _ _ _ hResult =>
    rw [hResult] at hOk
    cases hOk

theorem Outcome.of_unthrown {α : Type} {page : Page} {events : List Event} {answer : α} {run : Run HostError α}
    (h : Outcome page events answer run) (hNone : ∀ position, page.thrown? events position = none) :
    run.result = .ok answer ∧ run.events = events := by
  cases h with
  | completed _ hEvents hResult => exact ⟨hResult, hEvents⟩
  | refused position _ _ _ _ _ hThrown =>
    rw [hNone position] at hThrown
    cases hThrown

theorem Stoppable.bind {α β : Type} {action : Action HostError α} {next : α → Action HostError β} {page : Page}
    (hFirst : Stoppable action page) (hAccounts : action.Accounts)
    (hNext : ∀ value page, Stoppable (next value) page) : Stoppable (action >>= next) page := by
  obtain ⟨answer, hAnswer, hOutcome⟩ := hFirst
  -- Without refusals the second action meets the page that the calls of the first one leave.
  have hPage : (action page.unrefused).page = (page.after (action page.unrefused).events).unrefused :=
    hAccounts page.unrefused
  obtain ⟨last, hLast, hRest⟩ := hNext answer (page.after (action page.unrefused).events)
  have hFree := Action.bind_ok next hAnswer
  dsimp only at hFree
  rw [hPage] at hFree
  refine ⟨last, by rw [hFree]; exact hLast, ?_⟩
  rw [hFree]
  cases hResult : (action page).result with
  | error e =>
    rw [Action.bind_error next hResult]
    exact hOutcome.stop hResult _ last
  | ok value =>
    obtain ⟨rfl, hEvents, hNone⟩ := hOutcome.of_ok hResult
    have hRun := Action.bind_ok next hResult
    dsimp only at hRun
    rw [hRun, hAccounts page, hEvents]
    exact hRest.after hNone _

theorem stoppable_createElement (document : Nat) (namespaceUri tag : String) (page : Page) :
    Stoppable (createElement document namespaceUri tag) page :=
  @stoppable_attempt _ .createElement (.createElement document namespaceUri tag (some page.nextNode)) page.nextNode
    (fun p => { p with owners := p.owners.push (some document) }) page rfl

theorem stoppable_setAttribute (node : Nat) (name value : String) (page : Page) :
    Stoppable (setAttribute node name value) page :=
  @stoppable_attempt _ .setAttribute (.setAttribute node name value) () id page rfl

theorem stoppable_appendChild (parent child : Nat) (page : Page) : Stoppable (appendChild parent child) page :=
  @stoppable_attempt _ .appendChild (.appendChild parent child) () id page rfl

theorem stoppable_setAttributes (node : Nat) (attributes : List Attribute) (page : Page) :
    Stoppable (setAttributes node attributes) page := by
  induction attributes generalizing page with
  | nil => exact stoppable_pure () page
  | cons a rest ih =>
    exact (stoppable_setAttribute node a.name a.value page).bind (accounts_setAttribute node a.name a.value)
      fun _ => ih

mutual

theorem stoppable_construct (document : Nat) :
    ∀ (tree : Element) (page : Page), Stoppable (construct document tree) page
  | ⟨tag, attributes, children⟩, page =>
    (stoppable_createElement document Icon.namespaceUri tag page).bind
      (accounts_createElement document Icon.namespaceUri tag) fun node page =>
        (stoppable_setAttributes node (written attributes) page).bind
          (accounts_setAttributes node (written attributes)) fun _ page =>
            (stoppable_constructChildren document node children page).bind
              (accounts_constructChildren document node children) fun _ page => stoppable_pure node page

theorem stoppable_constructChildren (document parent : Nat) :
    ∀ (children : List Element) (page : Page), Stoppable (constructChildren document parent children) page
  | [], page => stoppable_pure () page
  | child :: rest, page =>
    (stoppable_construct document child page).bind (accounts_construct document child) fun node page =>
      (stoppable_appendChild parent node page).bind (accounts_appendChild parent node) fun _ page =>
        stoppable_constructChildren document parent rest page

end

end Pictogram.Dom
