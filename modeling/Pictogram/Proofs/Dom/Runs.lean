import Mathlib.Logic.Relation
import Pictogram.Proofs.Dom.Forest
import Pictogram.Proofs.Dom.Mounting

/-! # Runs of steps

Each step of a session only makes trees of new nodes, even if it fails half-way, and mounts at most one of them.
So after any steps the nodes that were appended form a forest, in which every node has the documents of its
ancestors.
-/
namespace Pictogram.Dom
set_option autoImplicit false

/-! ## Steps -/

theorem grows_mapError {ε ε' α : Type} {action : Action ε α} {page : Page} (f : ε → ε') (h : action.Grows page) :
    (action.mapError f).Grows page :=
  h

theorem grows_announcing {α : Type} {action : Action HostError α} {page : Page} (h : action.Grows page) :
    action.announcing.Grows page := by
  unfold Action.announcing Action.Grows
  dsimp only
  split <;> exact h

theorem grows_currentDocument (page : Page) : currentDocument.Grows page := by
  have hWindow : window.Grows page := forest_single rfl rfl rfl trivial
  exact hWindow.bind fun _ _ => forest_single rfl rfl rfl trivial

theorem grows_constructHere (tree : Element) (page : Page) : (constructHere tree).Grows page :=
  (grows_currentDocument page).bind fun document _ => (makes_construct document tree _).grows

theorem grows_documentFor (node : Nat) (page : Page) : (documentFor node).Grows page := by
  have hOwner : (ownerDocument node).Grows page := forest_single rfl rfl rfl trivial
  refine hOwner.bind fun owner? _ => ?_
  cases owner? with
  | some document => exact grows_pure document _
  | none => exact grows_currentDocument _

theorem owner?_of_home {node document : Nat} {page : Page} (h : page.home node = .ok document) :
    (page.owner? node).getD windowDocument = document := by
  unfold Page.home at h
  split at h
  · rename_i hOwner
    rw [hOwner]
    exact Except.ok.inj h
  · rename_i hOwner
    rw [hOwner]
    split at h
    · cases h
    split at h
    · cases h
    · exact Except.ok.inj h

theorem grows_attach {parent : Nat} {page : Page} (h : parent < page.nextNode) (tree : Element) :
    (attach parent tree).Grows page := by
  refine (grows_documentFor parent page).bind fun document hFound => ?_
  rw [documentFor_run] at hFound ⊢
  refine (makes_construct document tree page).appending h (owner?_of_home hFound) fun page' _ _ => ?_
  exact (grows_record _ page').bind fun _ _ => grows_pure _ _

/-- A tree can only be mounted under a node that is there. -/
def Step.Possible (page : Page) : Step → Prop
  | .attach parent _ => parent < page.nextNode
  | .attachIcon parent => parent < page.nextNode
  | _ => True

theorem grows_step {step : Step} {page : Page} (h : step.Possible page) : step.run.Grows page := by
  cases step with
  | document => exact grows_mapError _ (grows_currentDocument page)
  | construct owner tree => exact grows_mapError _ (makes_construct owner tree page).grows
  | constructHere tree => exact grows_mapError _ (grows_constructHere tree page)
  | attach parent tree => exact grows_mapError _ (grows_attach h tree)
  | attachIcon parent => exact grows_mapError _ (grows_announcing (grows_attach h Icon.arrowUp))

/-! ## Sequences -/

/-- Every step finds the node that it needs, which may be one that an earlier step made. -/
def Page.Allows (page : Page) : List Step → Prop
  | [] => True
  | step :: rest => step.Possible page ∧ (step.run page).page.Allows rest

/-- The page that the last of some runs has left. -/
def Page.afterRuns (page : Page) (runs : List (Run Failure Nat)) : Page :=
  runs.foldl (fun _ run => run.page) page

theorem grows_takeSteps {page : Page} {steps : List Step} (h : page.Allows steps) :
    Forest page ((page.takeSteps steps).flatMap (·.events)) (page.afterRuns (page.takeSteps steps)) := by
  induction steps generalizing page with
  | nil => exact Forest.refl page
  | cons step rest ih =>
    obtain ⟨hPossible, hRest⟩ := h
    exact (grows_step hPossible).trans (ih hRest)

/-- What is appended between two pages was made between them. -/
theorem Forest.made_of_appended {start page : Page} {log : List Event} (h : Forest start log page) {child : Nat}
    (hChild : child ∈ log.filterMap Event.appended?) : child ∈ log.filterMap Event.made? := by
  have hBounds := h.bounds hChild
  rw [h.made, List.mem_range'_1]
  omega

theorem made_of_appended_takeSteps {page : Page} {steps : List Step} (h : page.Allows steps) :
    ∀ run ∈ page.takeSteps steps, ∀ child ∈ run.events.filterMap Event.appended?,
      child ∈ run.events.filterMap Event.made? := by
  induction steps generalizing page with
  | nil => simp [Page.takeSteps]
  | cons step rest ih =>
    obtain ⟨hPossible, hRest⟩ := h
    rw [Page.takeSteps]
    refine List.forall_mem_cons.mpr ⟨?_, ih hRest⟩
    intro child hChild
    exact (grows_step hPossible).made_of_appended hChild

/-- Parents are older than their children, so no node is its own ancestor. -/
theorem Forest.acyclic {start page : Page} {log : List Event} (h : Forest start log page) (node : Nat) :
    ¬ Relation.TransGen (fun parent child => (parent, child) ∈ adoptions log) node node := by
  have hOlder (parent child : Nat) (hPair : (parent, child) ∈ adoptions log) : parent < child := by
    obtain ⟨e, hMem, hCall, -⟩ := concerns_of_mem_adoptions hPair
    have hLawful := h.lawful e hMem
    rw [Event.Lawful, hCall] at hLawful
    exact hLawful.1
  have hDescendant {first last : Nat}
      (hPath : Relation.TransGen (fun parent child => (parent, child) ∈ adoptions log) first last) :
      first < last := by
    induction hPath with
    | single hPair => exact hOlder _ _ hPair
    | tail _ hPair ih => exact Nat.lt_trans ih (hOlder _ _ hPair)
  exact fun hCycle => Nat.lt_irrefl node (hDescendant hCycle)

/-- After any steps, whatever was refused: every node was appended at most once, by the step that made it, to an
older node, and no node is among its own ancestors. -/
theorem takeSteps_forest {page : Page} {steps : List Step} (h : page.Allows steps) :
    let runs := page.takeSteps steps
    let log := runs.flatMap (·.events)
    Forest page log (page.afterRuns runs) ∧
      (∀ run ∈ runs, ∀ child ∈ run.events.filterMap Event.appended?, child ∈ run.events.filterMap Event.made?) ∧
      ∀ node, ¬ Relation.TransGen (fun parent child => (parent, child) ∈ adoptions log) node node :=
  ⟨grows_takeSteps h, made_of_appended_takeSteps h, (grows_takeSteps h).acyclic⟩

/-- The first step fails when it has made two nodes, and the second step mounts a tree under one of them. -/
theorem takeSteps_forest_resumed :
    let page : Page := ⟨true, true, #[none, some 3], [⟨.createElement, 3, .other "\x7b\x7d"⟩], {}⟩
    let steps : List Step := [.attachIcon 0, .attach 2 Icon.arrowUp, .constructHere Icon.arrowUp]
    page.Allows steps ∧
      (((page.takeSteps steps).flatMap (·.events)).filterMap Event.appended?).Nodup := by
  intro page steps
  have hAllows : page.Allows steps := by
    refine ⟨?_, ?_, trivial, trivial⟩
    · change 0 < page.nextNode
      decide
    · change 2 < (Step.run (.attachIcon 0) page).page.nextNode
      decide
  exact ⟨hAllows, (takeSteps_forest hAllows).1.once⟩

end Pictogram.Dom
