import Pictogram.Proofs.Dom.Refusal
import Pictogram.Proofs.Element.Numbering

/-! # The calls that build a tree

When nothing is refused, the nodes of a tree are made in document order and each gets its attributes at once,
but a node is appended only after all nodes below it. The calls are a function of the tree and of the first
number that is free.
-/
namespace Pictogram.Dom
set_option autoImplicit false
open Element

/-- A node is made and gets all attributes but the namespace. -/
def opening (document node : Nat) (e : Element) : List Event :=
  ⟨.createElement document Icon.namespaceUri e.tag (some node), true⟩ ::
    (e.attributes.filter (·.name ≠ "xmlns")).map fun a => ⟨.setAttribute node a.name a.value, true⟩

theorem written_eq (attributes : List Attribute) : written attributes = attributes.filter (·.name ≠ "xmlns") := rfl

mutual

/-- The calls that build a tree whose root gets the number `node`. -/
def tour (document node : Nat) : Element → List Event
  | ⟨tag, attributes, children⟩ =>
    opening document node ⟨tag, attributes, children⟩ ++ tourAll document node (node + 1) children

def tourAll (document parent node : Nat) : List Element → List Event
  | [] => []
  | child :: rest =>
    tour document node child ++ ⟨.appendChild parent node, true⟩ ::
      tourAll document parent (node + child.size) rest

end

/-! ## Every call of the tour is made -/

/-- An action is not refused on a page: it answers, makes these calls and uses up so many numbers. -/
structure Performs {α : Type} (action : Action HostError α) (page : Page) (answer : α) (events : List Event)
    (made : Nat) : Prop where
  result : (action page).result = .ok answer
  events : (action page).events = events
  nextNode : (action page).page.nextNode = page.nextNode + made
  refusals : (action page).page.refusals = []

theorem Performs.bind {α β : Type} {action : Action HostError α} {next : α → Action HostError β} {page : Page}
    {value : α} {answer : β} {events rest : List Event} {made more : Nat}
    (hFirst : Performs action page value events made)
    (hNext : Performs (next value) (action page).page answer rest more) :
    Performs (action >>= next) page answer (events ++ rest) (made + more) := by
  have hRun := Action.bind_ok next hFirst.result
  dsimp only at hRun
  constructor
  · rw [hRun]
    exact hNext.result
  · rw [hRun, ← hFirst.events, ← hNext.events]
  · rw [hRun, ← Nat.add_assoc, ← hFirst.nextNode]
    exact hNext.nextNode
  · rw [hRun]
    exact hNext.refusals

theorem performs_pure {α : Type} (value : α) {page : Page} (h : page.refusals = []) :
    Performs (pure value) page value [] 0 :=
  ⟨rfl, rfl, rfl, h⟩

theorem refusal?_of_nil {page : Page} (h : page.refusals = []) (operation : Operation) :
    page.refusal? operation = none := by
  simp [Page.refusal?, h]

theorem performs_createElement (document : Nat) (namespaceUri tag : String) {page : Page}
    (h : page.refusals = []) : Performs (createElement document namespaceUri tag) page page.nextNode
      [⟨.createElement document namespaceUri tag (some page.nextNode), true⟩] 1 := by
  constructor <;> simp [createElement, attempt, refusal?_of_nil h, Page.nextNode, h]

theorem performs_setAttribute (node : Nat) (name value : String) {page : Page} (h : page.refusals = []) :
    Performs (setAttribute node name value) page () [⟨.setAttribute node name value, true⟩] 0 := by
  constructor <;> simp [setAttribute, attempt, refusal?_of_nil h, Page.nextNode, h]

theorem performs_appendChild (parent child : Nat) {page : Page} (h : page.refusals = []) :
    Performs (appendChild parent child) page () [⟨.appendChild parent child, true⟩] 0 := by
  constructor <;> simp [appendChild, attempt, refusal?_of_nil h, Page.nextNode, h]

theorem performs_setAttributes (node : Nat) (attributes : List Attribute) {page : Page}
    (h : page.refusals = []) : Performs (setAttributes node attributes) page ()
      (attributes.map fun a => ⟨.setAttribute node a.name a.value, true⟩) 0 := by
  induction attributes generalizing page with
  | nil => exact performs_pure () h
  | cons a rest ih =>
    have hFirst := performs_setAttribute node a.name a.value h
    have hMade : 0 = 0 + 0 := rfl
    rw [setAttributes, List.map_cons, ← List.singleton_append, hMade]
    exact hFirst.bind (ih hFirst.refusals)

mutual

theorem performs_construct (document : Nat) : ∀ (tree : Element) {page : Page}, page.refusals = [] →
    Performs (construct document tree) page page.nextNode (tour document page.nextNode tree) tree.size
  | ⟨tag, as, cs⟩, page, h => by
    have hNode := performs_createElement document Icon.namespaceUri tag h
    have hAttributes := performs_setAttributes page.nextNode (written as) hNode.refusals
    have hChildren := performs_constructChildren document page.nextNode cs hAttributes.refusals
    rw [hAttributes.nextNode, hNode.nextNode] at hChildren
    have hEvents : tour document page.nextNode ⟨tag, as, cs⟩ =
        [⟨.createElement document Icon.namespaceUri tag (some page.nextNode), true⟩] ++
          ((written as).map (fun a => ⟨.setAttribute page.nextNode a.name a.value, true⟩) ++
            (tourAll document page.nextNode (page.nextNode + 1) cs ++ [])) := by
      simp [tour, opening, written_eq]
    have hSize : size ⟨tag, as, cs⟩ = 1 + (0 + (sizeAll cs + 0)) := by
      rw [size]
      omega
    rw [construct, hEvents, hSize]
    exact hNode.bind (hAttributes.bind (hChildren.bind (performs_pure page.nextNode hChildren.refusals)))

theorem performs_constructChildren (document parent : Nat) : ∀ (children : List Element) {page : Page},
    page.refusals = [] → Performs (constructChildren document parent children) page ()
      (tourAll document parent page.nextNode children) (sizeAll children)
  | [], page, h => performs_pure () h
  | child :: rest, page, h => by
    have hChild := performs_construct document child h
    have hAppend := performs_appendChild parent page.nextNode hChild.refusals
    have hRest := performs_constructChildren document parent rest hAppend.refusals
    rw [hAppend.nextNode, hChild.nextNode] at hRest
    have hEvents : tourAll document parent page.nextNode (child :: rest) =
        tour document page.nextNode child ++ ([⟨.appendChild parent page.nextNode, true⟩] ++
          tourAll document parent (page.nextNode + child.size) rest) := rfl
    have hSize : sizeAll (child :: rest) = child.size + (0 + sizeAll rest) := by
      rw [sizeAll, Nat.zero_add]
    rw [constructChildren, hEvents, hSize]
    exact hChild.bind (hAppend.bind hRest)

end

/-! ## Where the calls stand -/

/-- A call that makes a node, sets one of its attributes or appends it. -/
def Call.Concerns : Call → Nat → Prop
  | .createElement _ _ _ made, node => made = some node
  | .setAttribute target _ _, node => target = node
  | .appendChild _ child, node => child = node
  | _, _ => False

theorem concerns_opening {document first node : Nat} {e : Element} {event : Event}
    (hEvent : event ∈ opening document first e) (h : event.call.Concerns node) : node = first := by
  rcases List.mem_cons.mp hEvent with rfl | hAttribute
  · exact (Option.some.inj h).symm
  · obtain ⟨a, -, rfl⟩ := List.mem_map.mp hAttribute
    exact h.symm

theorem not_append_of_mem_opening {document first : Nat} {e : Element} {event : Event}
    (hEvent : event ∈ opening document first e) : event.call.operation? ≠ some .appendChild := by
  rcases List.mem_cons.mp hEvent with rfl | hAttribute
  · simp [Call.operation?]
  · obtain ⟨a, -, rfl⟩ := List.mem_map.mp hAttribute
    simp [Call.operation?]

mutual

theorem concerns_tour {document : Nat} : ∀ (tree : Element) {first node : Nat} {event : Event},
    event ∈ tour document first tree → event.call.Concerns node → first ≤ node ∧ node < first + tree.size
  | ⟨tag, as, cs⟩, first, node, event, hEvent, h => by
    rw [tour] at hEvent
    rw [size]
    rcases List.mem_append.mp hEvent with hOpening | hBelow
    · have hNode := concerns_opening hOpening h
      omega
    · have hNode := concerns_tourAll cs hBelow h
      omega

theorem concerns_tourAll {document parent : Nat} : ∀ (children : List Element) {first node : Nat} {event : Event},
    event ∈ tourAll document parent first children → event.call.Concerns node →
      first ≤ node ∧ node < first + sizeAll children
  | [], first, node, event, hEvent, h => by
    simp [tourAll] at hEvent
  | child :: rest, first, node, event, hEvent, h => by
    rw [tourAll] at hEvent
    rw [sizeAll]
    have hSize := child.size_pos
    rcases List.mem_append.mp hEvent with hChild | hLater
    · have hNode := concerns_tour child hChild h
      omega
    · rcases List.mem_cons.mp hLater with rfl | hRest
      · have hNode : first = node := h
        omega
      · have hNode := concerns_tourAll rest hRest h
        omega

end

end Pictogram.Dom
