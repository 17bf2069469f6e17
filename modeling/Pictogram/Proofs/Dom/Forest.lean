import Pictogram.Dom.Session
import Pictogram.Proofs.Dom.Calls

/-! # The nodes form a forest

Whatever a page refuses, the nodes that are made get consecutive numbers, and a node is appended at most once,
by the step that made it and to a node that is older. What one action keeps to, any sequence of them keeps to:
`Forest` relates two pages by the calls between them, and such relations compose.
-/
namespace Pictogram.Dom
set_option autoImplicit false

/-- The node that a call has made. -/
def Event.made? : Event → Option Nat
  | ⟨.createElement _ _ _ made, _⟩ => made
  | _ => none

/-- The node that a call appends, whether or not it is refused. -/
def Event.appended? : Event → Option Nat
  | ⟨.appendChild _ child, _⟩ => some child
  | _ => none

/-- What every single call between two pages keeps to. A node is appended to an older node of its own document,
or to one that has no document if its own is that of the window. -/
def Event.Lawful (start page : Page) (e : Event) : Prop :=
  match e.call with
  | .createElement _ namespaceUri _ _ => namespaceUri = Icon.namespaceUri
  | .setAttribute _ name _ => name ≠ "xmlns"
  | .appendChild parent child => parent < child ∧ start.nextNode ≤ child ∧ child < page.nextNode ∧
      (e.accepted = true → page.owner? child = some ((page.owner? parent).getD windowDocument))
  | _ => True

/-- The calls of a log lead from one page to another, and only make trees of new nodes. -/
structure Forest (start : Page) (log : List Event) (page : Page) : Prop where
  le : start.nextNode ≤ page.nextNode
  -- No number is left out or given twice.
  made : log.filterMap Event.made? = List.range' start.nextNode (page.nextNode - start.nextNode)
  kept : ∀ node < start.nextNode, page.owner? node = start.owner? node
  once : (log.filterMap Event.appended?).Nodup
  lawful : ∀ e ∈ log, e.Lawful start page

theorem mem_appended_iff {log : List Event} {child : Nat} :
    child ∈ log.filterMap Event.appended? ↔ ∃ e ∈ log, ∃ parent, e.call = .appendChild parent child := by
  rw [List.mem_filterMap]
  constructor
  · rintro ⟨⟨call, accepted⟩, hMem, h⟩
    cases call <;> simp only [Event.appended?, reduceCtorEq, Option.some.injEq] at h
    subst h
    exact ⟨_, hMem, _, rfl⟩
  · rintro ⟨⟨call, accepted⟩, hMem, parent, rfl⟩
    exact ⟨_, hMem, rfl⟩

/-- A lawful call stays lawful when more nodes are made. -/
theorem Event.Lawful.mono {start middle page : Page} {e : Event} (h : e.Lawful start middle)
    (hLe : middle.nextNode ≤ page.nextNode)
    (hKept : ∀ node < middle.nextNode, page.owner? node = middle.owner? node) : e.Lawful start page := by
  obtain ⟨call, accepted⟩ := e
  cases call with
  | appendChild parent child =>
    obtain ⟨hOlder, hNew, hMade, hOwner⟩ := h
    refine ⟨hOlder, hNew, by omega, ?_⟩
    rw [hKept child hMade, hKept parent (by omega)]
    exact hOwner
  | _ => exact h

/-- Fewer nodes may have been there before. -/
theorem Event.Lawful.weaken {start middle page : Page} {e : Event} (h : e.Lawful middle page)
    (hLe : start.nextNode ≤ middle.nextNode) : e.Lawful start page := by
  obtain ⟨call, accepted⟩ := e
  cases call with
  | appendChild parent child =>
    obtain ⟨hOlder, hNew, hRest⟩ := h
    exact ⟨hOlder, by omega, hRest⟩
  | _ => exact h

namespace Forest
variable {start middle page : Page} {log rest : List Event}

theorem bounds (h : Forest start log page) {child : Nat} (hChild : child ∈ log.filterMap Event.appended?) :
    start.nextNode ≤ child ∧ child < page.nextNode := by
  obtain ⟨e, hMem, parent, hCall⟩ := mem_appended_iff.mp hChild
  have hLawful := h.lawful e hMem
  rw [Event.Lawful, hCall] at hLawful
  exact ⟨hLawful.2.1, hLawful.2.2.1⟩

/-- Nothing is called. -/
theorem refl (page : Page) : Forest page [] page where
  le := Nat.le_refl _
  made := by simp
  kept _ _ := rfl
  once := List.nodup_nil
  lawful := by simp

/-- Only the nodes of a page and their owners matter. -/
theorem congr (h : Forest start log middle) (hOwners : page.owners = middle.owners) : Forest start log page := by
  have hNext : page.nextNode = middle.nextNode := congrArg Array.size hOwners
  have hOwner : page.owner? = middle.owner? := by
    funext node
    rw [Page.owner?, Page.owner?, hOwners]
  constructor
  · rw [hNext]
    exact h.le
  · rw [hNext]
    exact h.made
  · rw [hOwner]
    exact h.kept
  · exact h.once
  · intro e hMem
    have hLawful := h.lawful e hMem
    unfold Event.Lawful at hLawful ⊢
    rwa [hNext, hOwner]

theorem trans (h : Forest start log middle) (hRest : Forest middle rest page) :
    Forest start (log ++ rest) page := by
  have hLe := h.le
  have hLe' := hRest.le
  constructor
  · exact Nat.le_trans hLe hLe'
  · have hStart : middle.nextNode = start.nextNode + (middle.nextNode - start.nextNode) := by
      omega
    have hCount : middle.nextNode - start.nextNode + (page.nextNode - middle.nextNode) =
        page.nextNode - start.nextNode := by
      omega
    rw [List.filterMap_append, h.made, hRest.made, ← hCount, ← List.range'_append_1, ← hStart]
  · intro node hNode
    exact (hRest.kept node (by omega)).trans (h.kept node hNode)
  · rw [List.filterMap_append, List.nodup_append]
    refine ⟨h.once, hRest.once, ?_⟩
    intro child hChild other hOther
    have hOld := h.bounds hChild
    have hNew := hRest.bounds hOther
    omega
  · intro e hMem
    rw [List.mem_append] at hMem
    cases hMem with
    | inl hMem => exact (h.lawful e hMem).mono hLe' hRest.kept
    | inr hMem => exact (hRest.lawful e hMem).weaken hLe

/-- A tree that was made is appended by its root. -/
theorem append (h : Forest start log page) {parent child : Nat} (hOlder : parent < child)
    (hNew : start.nextNode ≤ child) (hMade : child < page.nextNode)
    (hFree : child ∉ log.filterMap Event.appended?)
    (hOwner : page.owner? child = some ((page.owner? parent).getD windowDocument)) (accepted : Bool) :
    Forest start (log ++ [⟨.appendChild parent child, accepted⟩]) page where
  le := h.le
  made := by
    rw [List.filterMap_append, h.made]
    exact List.append_nil _
  kept := h.kept
  once := by
    rw [List.filterMap_append, List.nodup_append]
    refine ⟨h.once, by simp [Event.appended?], ?_⟩
    rintro other hOther last hLast rfl
    obtain rfl : other = child := by simpa [Event.appended?] using hLast
    exact hFree hOther
  lawful e hMem := by
    rw [List.mem_append, List.mem_singleton] at hMem
    obtain hMem | rfl := hMem
    · exact h.lawful e hMem
    · exact ⟨hOlder, hNew, hMade, fun _ => hOwner⟩

end Forest

/-! ## Actions -/

/-- The calls of an action on a page, refused ones too, only make trees of new nodes. -/
def Action.Grows {ε α : Type} (action : Action ε α) (page : Page) : Prop :=
  Forest page (action page).events (action page).page

section
variable {ε ε' α β : Type} {action : Action ε α} {page : Page}

theorem Action.Grows.bind_of_error {e : ε} (hFirst : action.Grows page) (h : (action page).result = .error e)
    (next : α → Action ε β) : (action >>= next).Grows page := by
  rw [Action.Grows, Action.bind_error next h]
  exact hFirst

theorem Action.Grows.bind_of_ok {value : α} {next : α → Action ε β} (hFirst : action.Grows page)
    (h : (action page).result = .ok value) (hNext : (next value).Grows (action page).page) :
    (action >>= next).Grows page := by
  rw [Action.Grows, Action.bind_ok next h]
  exact Forest.trans hFirst hNext

theorem Action.Grows.bind {next : α → Action ε β} (hFirst : action.Grows page)
    (hNext : ∀ value, (action page).result = .ok value → (next value).Grows (action page).page) :
    (action >>= next).Grows page := by
  cases h : (action page).result with
  | error e => exact hFirst.bind_of_error h next
  | ok value => exact hFirst.bind_of_ok h (hNext value h)

theorem grows_pure (value : α) (page : Page) : (pure value : Action ε α).Grows page :=
  Forest.refl page

theorem grows_record (r : Log.Record) (page : Page) : (Action.record r : Action ε Unit).Grows page :=
  Forest.refl page

end

/-- A call that makes and appends nothing. -/
theorem forest_single {page page' : Page} {e : Event} (hOwners : page'.owners = page.owners)
    (hMade : e.made? = none) (hAppended : e.appended? = none) (hLawful : e.Lawful page page) :
    Forest page [e] page' := by
  refine Forest.congr ?_ hOwners
  constructor
  · exact Nat.le_refl _
  · simp [hMade]
  · intro node _
    rfl
  · simp [hAppended]
  · simpa using hLawful

theorem forest_created {page page' : Page} {document : Nat} {tag : String}
    (hOwners : page'.owners = page.owners.push (some document)) :
    Forest page [⟨.createElement document Icon.namespaceUri tag (some page.nextNode), true⟩] page' := by
  have hNext : page'.nextNode = page.nextNode + 1 := by
    rw [Page.nextNode, hOwners, Array.size_push]
    rfl
  constructor
  · omega
  · simp [Event.made?, hNext]
  · intro node hNode
    have hBound : node < page.owners.size := hNode
    simp [Page.owner?, hOwners, Array.getD, hBound, Nat.lt_succ_of_lt hBound, Array.getElem_push_lt]
  · exact List.nodup_nil
  · intro e hMem
    rw [List.mem_singleton.mp hMem]
    rfl

/-! ### Making a tree -/

/-- An action makes trees of new nodes and answers with the first of them, which belongs to a document and was
not appended. -/
structure Makes (document : Nat) (action : Action HostError Nat) (page : Page) : Prop where
  grows : action.Grows page
  free : page.nextNode ∉ (action page).events.filterMap Event.appended?
  answer : ∀ node, (action page).result = .ok node → node = page.nextNode ∧
    node < (action page).page.nextNode ∧ (action page).page.owner? node = some document

theorem makes_createElement (document : Nat) (tag : String) (page : Page) :
    Makes document (createElement document Icon.namespaceUri tag) page := by
  cases hRefusal : page.refusal? .createElement with
  | some value =>
    constructor
    · simp only [Action.Grows, createElement, attempt, hRefusal]
      exact forest_single rfl rfl rfl rfl
    · simp [createElement, attempt, hRefusal, Event.appended?]
    · intro node h
      simp [createElement, attempt, hRefusal] at h
  | none =>
    constructor
    · simp only [Action.Grows, createElement, attempt, hRefusal]
      exact forest_created rfl
    · simp [createElement, attempt, hRefusal, Event.appended?]
    · intro node h
      simp only [createElement, attempt, hRefusal, Except.ok.injEq] at h
      subst h
      simp [createElement, attempt, hRefusal, Page.nextNode, Page.owner?, Array.getD]

/-- More may be done with the first node, as long as it is not appended. -/
theorem Makes.bind {document : Nat} {action : Action HostError Nat} {page : Page}
    {next : Nat → Action HostError Nat} (h : Makes document action page)
    (hNext : ∀ page', page.nextNode < page'.nextNode → page'.owner? page.nextNode = some document →
      (next page.nextNode).Grows page' ∧
        ∀ node, (next page.nextNode page').result = .ok node → node = page.nextNode) :
    Makes document (action >>= next) page := by
  cases hResult : (action page).result with
  | error e =>
    constructor
    · exact h.grows.bind_of_error hResult next
    · rw [Action.bind_error next hResult]
      exact h.free
    · intro node hNode
      rw [Action.bind_error next hResult] at hNode
      cases hNode
  | ok node =>
    obtain ⟨rfl, hMade, hOwner⟩ := h.answer node hResult
    obtain ⟨hGrows, hSame⟩ := hNext (action page).page hMade hOwner
    have hRun := Action.bind_ok next hResult
    dsimp only at hRun
    constructor
    · exact h.grows.bind_of_ok hResult hGrows
    · rw [hRun, List.filterMap_append, List.mem_append]
      rintro (hFirst | hSecond)
      · exact h.free hFirst
      · have hBound := hGrows.bounds hSecond
        omega
    · intro node hNode
      rw [hRun] at hNode ⊢
      obtain rfl := hSame node hNode
      exact ⟨rfl, Nat.lt_of_lt_of_le hMade hGrows.le, (hGrows.kept _ hMade).trans hOwner⟩

/-- A new tree is appended to a node that was there before, and more may follow. -/
theorem Makes.appending {document parent : Nat} {action : Action HostError Nat} {page : Page} {α : Type}
    {next : Nat → Action HostError α} (h : Makes document action page) (hParent : parent < page.nextNode)
    (hOwner : (page.owner? parent).getD windowDocument = document)
    (hNext : ∀ page', page.nextNode ≤ page'.nextNode →
      (∀ node < page.nextNode, page'.owner? node = page.owner? node) → (next page.nextNode).Grows page') :
    (action >>= fun node => appendChild parent node >>= fun _ => next node).Grows page := by
  cases hResult : (action page).result with
  | error e => exact h.grows.bind_of_error hResult _
  | ok node =>
    obtain ⟨rfl, hMade, hDocument⟩ := h.answer node hResult
    have hRoot : (action page).page.owner? page.nextNode =
        some (((action page).page.owner? parent).getD windowDocument) := by
      rw [h.grows.kept parent hParent, hOwner, hDocument]
    obtain ⟨hOwners, hCases⟩ := appendChild_cases parent page.nextNode (action page).page
    have hAppended (accepted : Bool) :
        Forest page ((action page).events ++ [⟨.appendChild parent page.nextNode, accepted⟩])
          (appendChild parent page.nextNode (action page).page).page :=
      (h.grows.append hParent (Nat.le_refl _) hMade h.free hRoot accepted).congr hOwners
    rw [Action.Grows, Action.bind_ok _ hResult]
    dsimp only
    obtain ⟨value, -, hAnswer, hEvents⟩ | ⟨-, hAnswer, hEvents⟩ := hCases
    · rw [Action.bind_error _ hAnswer, hEvents]
      exact hAppended false
    · rw [Action.bind_ok _ hAnswer]
      dsimp only
      rw [hEvents, ← List.append_assoc]
      exact (hAppended true).trans (hNext _ (hAppended true).le (hAppended true).kept)

theorem grows_setAttribute (node : Nat) {name : String} (value : String) (hName : name ≠ "xmlns") (page : Page) :
    (setAttribute node name value).Grows page := by
  cases hRefusal : page.refusal? .setAttribute <;>
    simp only [Action.Grows, setAttribute, attempt, hRefusal] <;>
    exact forest_single rfl rfl rfl hName

theorem grows_setAttributes (node : Nat) {attributes : List Attribute} (h : ∀ a ∈ attributes, a.name ≠ "xmlns")
    (page : Page) : (setAttributes node attributes).Grows page := by
  induction attributes generalizing page with
  | nil => exact grows_pure () page
  | cons a rest ih =>
    rw [List.forall_mem_cons] at h
    exact (grows_setAttribute node a.value h.1 page).bind fun _ _ => ih h.2 _

theorem name_ne_of_mem_written {attributes : List Attribute} {a : Attribute} (h : a ∈ written attributes) :
    a.name ≠ "xmlns" :=
  of_decide_eq_true (List.mem_filter.mp h).2

mutual

theorem makes_construct (document : Nat) :
    ∀ (tree : Element) (page : Page), Makes document (construct document tree) page
  | ⟨tag, attributes, children⟩, page => by
    refine (makes_createElement document tag page).bind fun page' hMade hOwner => ⟨?_, ?_⟩
    · have hAttributes : (setAttributes page.nextNode (written attributes)).Grows page' :=
        grows_setAttributes page.nextNode (fun _ => name_ne_of_mem_written) page'
      refine hAttributes.bind fun _ _ => ?_
      refine (grows_constructChildren document page.nextNode children _ ?_ ?_).bind fun _ _ => grows_pure _ _
      · exact Nat.lt_of_lt_of_le hMade hAttributes.le
      · rw [hAttributes.kept _ hMade, hOwner]
        rfl
    · intro node hNode
      obtain ⟨-, -, hRest⟩ := Action.bind_result_eq_ok_iff.mp hNode
      obtain ⟨-, -, hLast⟩ := Action.bind_result_eq_ok_iff.mp hRest
      exact (Except.ok.inj hLast).symm

theorem grows_constructChildren (document parent : Nat) : ∀ (children : List Element) (page : Page),
    parent < page.nextNode → (page.owner? parent).getD windowDocument = document →
      (constructChildren document parent children).Grows page
  | [], page, _, _ => grows_pure () page
  | child :: rest, page, hParent, hOwner => by
    refine (makes_construct document child page).appending hParent hOwner fun page' hLe hKept => ?_
    refine grows_constructChildren document parent rest page' (by omega) ?_
    rw [hKept parent hParent, hOwner]

end

end Pictogram.Dom
