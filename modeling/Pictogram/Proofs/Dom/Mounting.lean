import Pictogram.Proofs.Dom.Drawing

/-! # Mounting is all or nothing

A tree is mounted by its last call. Until then only new nodes are appended, and only to new nodes, so if
anything fails the nodes that were there before keep the children that they had.
-/
namespace Pictogram.Dom
set_option autoImplicit false
open Element

/-! ## The document -/

/-- The document in which a tree for a node is built: the node's own, or else that of the window. -/
def Page.home (page : Page) (node : Nat) : Except HostError Nat :=
  match page.owner? node with
  | some document => .ok document
  | none =>
    if page.hasWindow = false then .error .windowMissing
    else if page.hasDocument = false then .error .documentMissing
    else .ok windowDocument

/-- The calls that find it. The window is only asked for if the node has no document. -/
def Page.lookups (page : Page) (node : Nat) : List Event :=
  ⟨.ownerDocument node, true⟩ :: match page.owner? node with
    | some _ => []
    | none => ⟨.window, true⟩ :: if page.hasWindow then [⟨.document, true⟩] else []

theorem documentFor_run (node : Nat) (page : Page) :
    documentFor node page = ⟨page.home node, page, page.lookups node, []⟩ := by
  have hOwner : (ownerDocument node page).result = .ok (page.owner? node) := rfl
  rw [documentFor, Action.bind_ok _ hOwner]
  cases h : page.owner? node with
  | some document => simp [ownerDocument, Page.home, Page.lookups, h, Pure.pure, Action.pure]
  | none =>
    cases hWindow : page.hasWindow with
    | false =>
      simp [ownerDocument, currentDocument, window, Page.home, Page.lookups, h, hWindow, Bind.bind, Action.bind]
    | true =>
      cases hDocument : page.hasDocument <;>
        simp [ownerDocument, currentDocument, window, document, Page.home, Page.lookups, h, hWindow, hDocument,
          Bind.bind, Action.bind]

theorem adoptions_lookups (page : Page) (node : Nat) : adoptions (page.lookups node) = [] := by
  unfold Page.lookups
  split
  · rfl
  · split <;> rfl

/-! ## The calls -/

/-- How mounting a tree goes: no document is found, the tree is not built, its root is refused by the page that the
tree was built on, or all goes well. Each way makes the calls of the one before and at most those of one more part. -/
inductive Course (parent : Nat) (tree : Element) (page : Page) (run : Run HostError Nat) : Prop
  | homeless (e : HostError) (hHome : page.home parent = .error e) (hEvents : run.events = page.lookups parent)
      (hResult : run.result = .error e) (hPage : run.page = page)
  | unbuilt (document : Nat) (e : HostError) (hHome : page.home parent = .ok document)
      (hBuild : (construct document tree page).result = .error e)
      (hEvents : run.events = page.lookups parent ++ (construct document tree page).events)
      (hResult : run.result = .error e)
  | refused (document : Nat) (value : ScriptValue) (hHome : page.home parent = .ok document)
      (hBuild : (construct document tree page).result = .ok page.nextNode)
      (hRefusal : (construct document tree page).page.refusal? .appendChild = some value)
      (hEvents : run.events = page.lookups parent ++ (construct document tree page).events ++
        [⟨.appendChild parent page.nextNode, false⟩])
      (hResult : run.result = .error (.refused "appendChild" value))
  | mounted (document : Nat) (hHome : page.home parent = .ok document)
      (hBuild : (construct document tree page).result = .ok page.nextNode)
      (hRefusal : (construct document tree page).page.refusal? .appendChild = none)
      (hEvents : run.events = page.lookups parent ++ (construct document tree page).events ++
        [⟨.appendChild parent page.nextNode, true⟩])
      (hResult : run.result = .ok page.nextNode)

theorem attach_course (parent : Nat) (tree : Element) (page : Page) :
    Course parent tree page (attach parent tree page) := by
  have hDocument := documentFor_run parent page
  rw [attach]
  cases hHome : page.home parent with
  | error e =>
    have hAnswer : (documentFor parent page).result = .error e := by
      rw [hDocument, hHome]
    rw [Action.bind_error _ hAnswer, hDocument]
    exact .homeless e hHome rfl rfl rfl
  | ok document =>
    have hAnswer : (documentFor parent page).result = .ok document := by
      rw [hDocument, hHome]
    rw [Action.bind_ok _ hAnswer, hDocument]
    dsimp only
    cases hBuild : (construct document tree page).result with
    | error e =>
      rw [Action.bind_error _ hBuild]
      exact .unbuilt document e hHome hBuild rfl rfl
    | ok node =>
      obtain rfl := construct_result hBuild
      rw [Action.bind_ok _ hBuild]
      dsimp only
      obtain ⟨-, ⟨value, hRefusal, hRefused, hEvents⟩ | ⟨hRefusal, hDone, hEvents⟩⟩ :=
        appendChild_cases parent page.nextNode (construct document tree page).page
      · rw [Action.bind_error _ hRefused, hEvents]
        exact .refused document value hHome hBuild hRefusal (List.append_assoc _ _ _).symm rfl
      · rw [Action.bind_ok _ hDone]
        dsimp only
        rw [hEvents]
        exact .mounted document hHome hBuild hRefusal (List.append_assoc _ _ _).symm rfl

/-! ## What is appended -/

/-- A tree is built with all the calls of its tour or up to the first one that is refused. -/
theorem outcome_tour (document : Nat) (tree : Element) (page : Page) :
    Outcome page (tour document page.nextNode tree) page.nextNode (construct document tree page) := by
  have hFree : Performs (construct document tree) page.unrefused page.nextNode
      (tour document page.nextNode tree) tree.size := performs_construct document tree rfl
  obtain ⟨node, hNode, hOutcome⟩ := stoppable_construct document tree page
  obtain rfl : node = page.nextNode := Except.ok.inj (hNode.symm.trans hFree.result)
  rwa [hFree.events] at hOutcome

/-- Up to a refusal the nodes are appended as they would be without one. -/
theorem adoptions_construct_initial (document : Nat) (tree : Element) (page : Page) :
    adoptions (construct document tree page).events <+: adoptions (tour document page.nextNode tree) := by
  cases outcome_tour document tree page with
  | completed _ hEvents _ => simp only [hEvents, List.prefix_refl]
  | refused position call _ _ _ _ _ _ hEvents _ =>
    have hRefused : adoptions [⟨call.unmade, false⟩] = [] := by
      cases call <;> rfl
    rw [hEvents, adoptions_append, hRefused, List.append_nil]
    exact (List.take_prefix position _).filterMap Event.adoption?

theorem construct_events_of_ok {document node : Nat} {tree : Element} {page : Page}
    (h : (construct document tree page).result = .ok node) :
    (construct document tree page).events = tour document page.nextNode tree :=
  ((outcome_tour document tree page).of_ok h).2.1

/-- A log appends new nodes only, and only to new ones. -/
def Page.Untouched (page : Page) (log : List Event) : Prop :=
  ∀ pair ∈ adoptions log, page.nextNode ≤ pair.1 ∧ page.nextNode ≤ pair.2

theorem untouched_construct (document : Nat) (tree : Element) (page : Page) :
    page.Untouched (construct document tree page).events := by
  intro pair hPair
  have hTour := (adoptions_construct_initial document tree page).subset hPair
  exact ⟨(adopter_tour tree hTour).1, Nat.le_of_lt (adopted_bounds_tour hTour).1⟩

theorem Page.Untouched.lookups_append {page : Page} {log : List Event} (h : page.Untouched log) (node : Nat) :
    page.Untouched (page.lookups node ++ log) := by
  intro pair hPair
  rw [adoptions_append, adoptions_lookups, List.nil_append] at hPair
  exact h pair hPair

/-! ## Families -/

/-- Children of nodes among the nodes of a page. -/
structure Page.Hosts (page : Page) (family : Nat → List Nat) : Prop where
  members : ∀ node, ∀ child ∈ family node, child < page.nextNode
  others : ∀ node, page.nextNode ≤ node → family node = []

/-- The children that the calls of a log leave, where these were there before. -/
def regrow (family : Nat → List Nat) (log : List Event) : Nat → List Nat :=
  (adoptions log).foldl adopt family

theorem regrow_eq {page : Page} {family : Nat → List Nat} {log : List Event} (hFamily : page.Hosts family)
    (hOnce : ((adoptions log).map (·.2)).Nodup) (hNew : ∀ pair ∈ adoptions log, page.nextNode ≤ pair.2)
    (node : Nat) : regrow family log node = family node ++ adopted (adoptions log) node := by
  rw [regrow, foldl_adopt hOnce]
  intro pair hPair other hMem
  have hOld := hFamily.members other pair.2 hMem
  have hBound := hNew pair hPair
  omega

theorem regrow_of_untouched {page : Page} {family : Nat → List Nat} {log : List Event} (hFamily : page.Hosts family)
    (hOnce : ((adoptions log).map (·.2)).Nodup) (h : page.Untouched log) {node : Nat} (hNode : node < page.nextNode) :
    regrow family log node = family node := by
  have hNone : adopted (adoptions log) node = [] := by
    apply adopted_eq_nil
    intro pair hPair
    have hBound := (h pair hPair).1
    omega
  rw [regrow_eq hFamily hOnce (fun pair hPair => (h pair hPair).2), hNone, List.append_nil]

theorem nodup_construct (document : Nat) (tree : Element) (page : Page) :
    ((adoptions (construct document tree page).events).map (·.2)).Nodup :=
  (nodup_tour document tree page.nextNode).sublist
    ((adoptions_construct_initial document tree page).sublist.map (·.2))

namespace Course
variable {parent node : Nat} {tree : Element} {page : Page} {run : Run HostError Nat} {e : HostError}

/-- A tree that is not mounted was built in part, or not at all. -/
theorem adoptions_of_error (h : Course parent tree page run) (hError : run.result = .error e) :
    adoptions run.events = [] ∨
      ∃ document, adoptions run.events = adoptions (construct document tree page).events := by
  cases h with
  | homeless _ _ hEvents _ _ =>
    rw [hEvents, adoptions_lookups]
    exact .inl rfl
  | unbuilt document _ _ _ hEvents _ =>
    refine .inr ⟨document, ?_⟩
    rw [hEvents, adoptions_append, adoptions_lookups, List.nil_append]
  | refused document _ _ _ _ hEvents _ =>
    refine .inr ⟨document, ?_⟩
    rw [hEvents, adoptions_append, adoptions_append, adoptions_lookups, List.nil_append]
    exact List.append_nil _
  | mounted _ _ _ _ _ hResult =>
    rw [hResult] at hError
    cases hError

theorem untouched_of_error (h : Course parent tree page run) (hError : run.result = .error e) :
    page.Untouched run.events ∧ ((adoptions run.events).map (·.2)).Nodup := by
  rw [Page.Untouched]
  obtain hNone | ⟨document, hBuilt⟩ := h.adoptions_of_error hError
  · rw [hNone]
    exact ⟨by simp, List.nodup_nil⟩
  · rw [hBuilt]
    exact ⟨untouched_construct document tree page, nodup_construct document tree page⟩

/-- A tree that is mounted was built in full. -/
theorem of_ok (h : Course parent tree page run) (hOk : run.result = .ok node) :
    node = page.nextNode ∧ ∃ document, page.home parent = .ok document ∧
      (construct document tree page).result = .ok node ∧
      (construct document tree page).events = tour document node tree ∧
      run.events = page.lookups parent ++ (construct document tree page).events ++
        [⟨.appendChild parent node, true⟩] := by
  cases h with
  | homeless _ _ _ hResult _ | unbuilt _ _ _ _ _ hResult | refused _ _ _ _ _ _ hResult =>
    rw [hResult] at hOk
    cases hOk
  | mounted document hHome hBuild _ hEvents hResult =>
    obtain rfl := Except.ok.inj (hResult.symm.trans hOk)
    exact ⟨rfl, document, hHome, hBuild, construct_events_of_ok hBuild, hEvents⟩

theorem of_homeless (h : Course parent tree page run) (hHome : page.home parent = .error e) :
    run.result = .error e ∧ run.page = page := by
  cases h with
  | homeless _ hOther _ hResult hPage =>
    rw [hHome] at hOther
    cases hOther
    exact ⟨hResult, hPage⟩
  | unbuilt _ _ hFound _ _ _ | refused _ _ hFound _ _ _ _ | mounted _ hFound _ _ _ _ =>
    rw [hHome] at hFound
    cases hFound

/-- A tree is mounted exactly if there is a document and the page refuses none of the calls that are needed. -/
theorem mounted_iff (h : Course parent tree page run) : run.result = .ok page.nextNode ↔
    ∃ document, page.home parent = .ok document ∧ ∀ position, page.thrown?
      (tour document page.nextNode tree ++ [⟨.appendChild parent page.nextNode, true⟩]) position = none := by
  have hPage (document : Nat) : (construct document tree page).page =
      page.after (construct document tree page).events := accounts_construct document tree page
  constructor
  · intro hOk
    cases h with
    | homeless _ _ _ hResult _ | unbuilt _ _ _ _ _ hResult | refused _ _ _ _ _ _ hResult =>
      rw [hResult] at hOk
      cases hOk
    | mounted document hHome hBuild hRefusal _ _ =>
      obtain ⟨-, hTour, hNone⟩ := (outcome_tour document tree page).of_ok hBuild
      rw [hPage, hTour] at hRefusal
      exact ⟨document, hHome, (page.thrown?_concat_iff _ rfl).mpr ⟨hNone, hRefusal⟩⟩
  · rintro ⟨document, hHome, hCalls⟩
    obtain ⟨hNone, hLast⟩ := (page.thrown?_concat_iff _ rfl).mp hCalls
    obtain ⟨hBuild, hTour⟩ := (outcome_tour document tree page).of_unthrown hNone
    cases h with
    | homeless _ hOther _ _ _ =>
      rw [hHome] at hOther
      cases hOther
    | unbuilt _ _ hOther hFailed _ _ =>
      obtain rfl := Except.ok.inj (hHome.symm.trans hOther)
      rw [hBuild] at hFailed
      cases hFailed
    | refused _ _ hOther _ hRefusal _ _ =>
      obtain rfl := Except.ok.inj (hHome.symm.trans hOther)
      rw [hPage, hTour, hLast] at hRefusal
      cases hRefusal
    | mounted _ _ _ _ _ hResult => exact hResult

end Course

/-- What mounting a tree under a node does: all of it, or nothing to the nodes that were there before. -/
structure AllOrNothing (parent : Nat) (tree : Element) (page : Page) (run : Run HostError Nat) : Prop where
  course : Course parent tree page run
  -- Only a call that is refused keeps a tree from being mounted in a document.
  mounted : run.result = .ok page.nextNode ↔ ∃ document, page.home parent = .ok document ∧ ∀ position, page.thrown?
    (tour document page.nextNode tree ++ [⟨.appendChild parent page.nextNode, true⟩]) position = none
  -- Without a document nothing is made.
  windowless : page.owner? parent = none → page.hasWindow = false →
    run.result = .error .windowMissing ∧ run.page = page
  documentless : page.owner? parent = none → page.hasWindow = true → page.hasDocument = false →
    run.result = .error .documentMissing ∧ run.page = page
  -- A tree that is not mounted hangs nowhere, and no older node gained or lost a child.
  failed : ∀ e, run.result = .error e → page.Untouched run.events ∧
    ∀ family, page.Hosts family → ∀ node < page.nextNode, regrow family run.events node = family node
  -- The last call mounts the tree.
  last : ∀ node, run.result = .ok node → ∃ before,
    run.events = before ++ [⟨.appendChild parent node, true⟩] ∧ page.Untouched before
  gained : ∀ node, run.result = .ok node → ∀ family, page.Hosts family → ∀ other < page.nextNode,
    regrow family run.events other = if other = parent then family parent ++ [node] else family other
  -- The node that was mounted is the root of the whole tree.
  drawn : ∀ node, run.result = .ok node → node = page.nextNode ∧ ∃ document, page.home parent = .ok document ∧
    (construct document tree page).result = .ok node ∧ Draws document node tree (construct document tree page).events
  complete : ∀ node, run.result = .ok node → ∀ family, page.Hosts family → ∀ k e, tree.preorder[k]? = some e →
    regrow family run.events (node + k) = numbersFrom (node + k + 1) e.children

/-- The families after a tree was mounted. -/
theorem regrow_mounted {parent document : Nat} {tree : Element} {page : Page} {family : Nat → List Nat}
    {log : List Event} (hFamily : page.Hosts family) (hLog : log = page.lookups parent ++
      tour document page.nextNode tree ++ [⟨.appendChild parent page.nextNode, true⟩]) (node : Nat) :
    regrow family log node = family node ++ adopted (adoptions (tour document page.nextNode tree)) node ++
      if node = parent then [page.nextNode] else [] := by
  have hAdoptions : adoptions log =
      adoptions (tour document page.nextNode tree) ++ [(parent, page.nextNode)] := by
    rw [hLog, adoptions_append, adoptions_append, adoptions_lookups, List.nil_append]
    rfl
  have hOnce : ((adoptions log).map (·.2)).Nodup := by
    rw [hAdoptions, List.map_append, List.nodup_append]
    refine ⟨nodup_tour document tree page.nextNode, by simp, ?_⟩
    intro child hChild other hOther
    obtain ⟨pair, hPair, rfl⟩ := List.mem_map.mp hChild
    rw [List.map_singleton, List.mem_singleton] at hOther
    have hBound := adopted_bounds_tour hPair
    omega
  have hNew : ∀ pair ∈ adoptions log, page.nextNode ≤ pair.2 := by
    intro pair hPair
    rw [hAdoptions, List.mem_append, List.mem_singleton] at hPair
    obtain hTour | rfl := hPair
    · exact Nat.le_of_lt (adopted_bounds_tour hTour).1
    · exact Nat.le_refl _
  have hLast : adopted [(parent, page.nextNode)] node = if node = parent then [page.nextNode] else [] := by
    by_cases hNode : node = parent
    · simp [adopted, hNode]
    · simp [adopted, hNode, Ne.symm hNode]
  rw [regrow_eq hFamily hOnce hNew, hAdoptions, adopted_append, hLast, List.append_assoc]

theorem attach_all_or_nothing {parent : Nat} {tree : Element} {page : Page} (hParent : parent < page.nextNode) :
    AllOrNothing parent tree page (attach parent tree page) := by
  have hCourse := attach_course parent tree page
  refine ⟨hCourse, hCourse.mounted_iff, ?_, ?_, ?_, ?_, ?_, ?_, ?_⟩
  · intro hOwner hWindow
    exact hCourse.of_homeless (by simp [Page.home, hOwner, hWindow])
  · intro hOwner hWindow hDocument
    exact hCourse.of_homeless (by simp [Page.home, hOwner, hWindow, hDocument])
  · intro e hError
    obtain ⟨hUntouched, hOnce⟩ := hCourse.untouched_of_error hError
    refine ⟨hUntouched, ?_⟩
    intro family hFamily node hNode
    exact regrow_of_untouched hFamily hOnce hUntouched hNode
  · intro node hOk
    obtain ⟨-, document, -, -, -, hEvents⟩ := hCourse.of_ok hOk
    exact ⟨_, hEvents, (untouched_construct document tree page).lookups_append parent⟩
  · intro node hOk family hFamily other hOther
    obtain ⟨rfl, document, -, -, hTour, hEvents⟩ := hCourse.of_ok hOk
    have hNone : adopted (adoptions (tour document page.nextNode tree)) other = [] := by
      apply adopted_eq_nil
      intro pair hPair
      have hBound := adopter_tour tree hPair
      omega
    rw [regrow_mounted hFamily (hTour ▸ hEvents), hNone, List.append_nil]
    split
    · rename_i hSame
      rw [hSame]
    · exact List.append_nil _
  · intro node hOk
    obtain ⟨rfl, document, hHome, hBuild, hTour, -⟩ := hCourse.of_ok hOk
    exact ⟨rfl, document, hHome, hBuild, hTour ▸ draws_tour document page.nextNode tree⟩
  · intro node hOk family hFamily k e hElement
    obtain ⟨rfl, document, -, -, hTour, hEvents⟩ := hCourse.of_ok hOk
    have hOther : page.nextNode + k ≠ parent := by
      omega
    rw [regrow_mounted hFamily (hTour ▸ hEvents), hFamily.others _ (Nat.le_add_right _ _), List.nil_append,
      adopted_tour tree hElement, if_neg hOther, List.append_nil]

theorem attach_all_or_nothing_refused :
    let page : Page := ⟨true, true, #[none, some 2], [⟨.appendChild, 3, .string "full"⟩], {}⟩
    0 < page.nextNode ∧ (attach 0 Icon.arrowUp page).result = .error (.rejected "appendChild: full") ∧
      page.Untouched (attach 0 Icon.arrowUp page).events := by
  intro page
  have hParent : 0 < page.nextNode := by
    decide
  have hResult : (attach 0 Icon.arrowUp page).result = .error (.rejected "appendChild: full") := by
    decide
  exact ⟨hParent, hResult, ((attach_all_or_nothing hParent).failed _ hResult).1⟩

end Pictogram.Dom
