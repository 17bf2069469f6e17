import Mathlib.Data.List.Induction
import Pictogram.Proofs.Dom.Tour

/-! # The nodes form the tree

The calls of a tour make one node for each element and append each node once, to the node of its parent. So
whoever carries out the calls gets the tree back.
-/
namespace Pictogram.Dom
set_option autoImplicit false
open Element

/-! ## Appended nodes -/

/-- A node is appended once: after all calls for the nodes below it, and before any call for a node that
comes later in the document. -/
def Attached (log : List Event) (parent child size : Nat) : Prop :=
  ∃ before after, log = before ++ ⟨.appendChild parent child, true⟩ :: after ∧
    (∀ e ∈ before, ∀ node, e.call.Concerns node → node < child + size) ∧
    (∀ e ∈ after, ∀ node, e.call.Concerns node → node < child ∨ child + size ≤ node) ∧
    ∀ e ∈ before, ∀ other, e.call ≠ .appendChild other child

/-- Calls for earlier nodes may come first, and calls for earlier or later ones may follow. -/
theorem Attached.extend {log : List Event} {parent child size : Nat} (h : Attached log parent child size)
    (first last : List Event) (hFirst : ∀ e ∈ first, ∀ node, e.call.Concerns node → node < child)
    (hLast : ∀ e ∈ last, ∀ node, e.call.Concerns node → node < child ∨ child + size ≤ node) :
    Attached (first ++ log ++ last) parent child size := by
  obtain ⟨before, after, rfl, hBefore, hAfter, hOnce⟩ := h
  refine ⟨first ++ before, after ++ last, by simp, ?_, ?_, ?_⟩
  · intro e hMem node hNode
    rcases List.mem_append.mp hMem with hMem | hMem
    · have hLess := hFirst e hMem node hNode
      omega
    · exact hBefore e hMem node hNode
  · intro e hMem node hNode
    rcases List.mem_append.mp hMem with hMem | hMem
    · exact hAfter e hMem node hNode
    · exact hLast e hMem node hNode
  · intro e hMem other hCall
    rcases List.mem_append.mp hMem with hMem | hMem
    · have hLess := hFirst e hMem child (by rw [hCall]; rfl)
      omega
    · exact hOnce e hMem other hCall

theorem not_appended_root {document first other : Nat} {tree : Element} {e : Event}
    (hEvent : e ∈ tour document first tree) : e.call ≠ .appendChild other first := by
  intro hCall
  obtain ⟨tag, attributes, children⟩ := tree
  rw [tour] at hEvent
  rcases List.mem_append.mp hEvent with hOpening | hBelow
  · exact not_append_of_mem_opening hOpening (by rw [hCall]; rfl)
  · have hConcerns : e.call.Concerns first := by
      rw [hCall]
      rfl
    have hNode := concerns_tourAll children hBelow hConcerns
    omega

/-- Only nodes below the root are appended. -/
theorem appended_tour {document first parent child : Nat} {tree : Element} {e : Event}
    (hEvent : e ∈ tour document first tree) (hCall : e.call = .appendChild parent child) :
    first < child ∧ child < first + tree.size := by
  have hConcerns : e.call.Concerns child := by
    rw [hCall]
    rfl
  have hBound := concerns_tour tree hEvent hConcerns
  have hRoot : child ≠ first := by
    rintro rfl
    exact not_appended_root hEvent hCall
  omega

/-- The calls for a tree and the one that appends it concern the numbers of the tree. -/
theorem concerns_elder {document parent first node : Nat} {child : Element} {e : Event}
    (hEvent : e ∈ tour document first child ++ [⟨.appendChild parent first, true⟩])
    (h : e.call.Concerns node) : node < first + child.size := by
  have hSize := child.size_pos
  rcases List.mem_append.mp hEvent with hChild | hAppend
  · exact (concerns_tour child hChild h).2
  · rw [List.mem_singleton] at hAppend
    subst hAppend
    have hNode : first = node := h
    omega

theorem tourAll_cons (document parent first : Nat) (child : Element) (rest : List Element) :
    tourAll document parent first (child :: rest) =
      (tour document first child ++ [⟨.appendChild parent first, true⟩]) ++
        tourAll document parent (first + child.size) rest := by
  simp [tourAll]

theorem attached_root {document parent first : Nat} {children : List Element} {i m : Nat} {child : Element}
    (hChild : children[i]? = some child) (hNumber : (numbersFrom first children)[i]? = some m) :
    Attached (tourAll document parent first children) parent m child.size := by
  induction children generalizing first i with
  | nil => simp at hChild
  | cons eldest rest ih =>
    cases i with
    | zero =>
      rw [numbersFrom, List.getElem?_cons_zero, Option.some.injEq] at hNumber
      rw [List.getElem?_cons_zero, Option.some.injEq] at hChild
      subst hNumber hChild
      refine ⟨tour document first eldest, tourAll document parent (first + eldest.size) rest, rfl, ?_, ?_, ?_⟩
      · exact fun e hMem node hNode => (concerns_tour eldest hMem hNode).2
      · exact fun e hMem node hNode => .inr (concerns_tourAll rest hMem hNode).1
      · exact fun e hMem other => not_appended_root hMem
    | succ i =>
      rw [List.getElem?_cons_succ] at hChild
      rw [numbersFrom, List.getElem?_cons_succ] at hNumber
      have hFits := numbersFrom_fits hNumber hChild
      have hElder (e : Event) (hMem : e ∈ tour document first eldest ++ [⟨.appendChild parent first, true⟩])
          (node : Nat) (hNode : e.call.Concerns node) : node < m := by
        have hLess := concerns_elder hMem hNode
        omega
      have hAttached := (ih hChild hNumber).extend _ [] hElder (by simp)
      rwa [List.append_nil, ← tourAll_cons] at hAttached

mutual

theorem attached_tour {document : Nat} : ∀ (tree : Element) {first p i m : Nat} {parent child : Element},
    tree.preorder[p]? = some parent → parent.children[i]? = some child →
      (numbersFrom (first + p + 1) parent.children)[i]? = some m →
        Attached (tour document first tree) (first + p) m child.size
  | ⟨tag, as, cs⟩, first, p, i, m, parent, child => by
    intro hParent hChild hNumber
    have hBelow : Attached (tourAll document first (first + 1) cs) (first + p) m child.size := by
      cases p with
      | zero =>
        rw [preorder, List.getElem?_cons_zero, Option.some.injEq] at hParent
        subst hParent
        exact attached_root hChild hNumber
      | succ p =>
        rw [preorder, List.getElem?_cons_succ] at hParent
        have hPlace : first + (p + 1) = first + 1 + p := by omega
        rw [hPlace] at hNumber ⊢
        exact attached_tourAll cs hParent hChild hNumber
    have hFits := numbersFrom_fits hNumber hChild
    have hOpening (e : Event) (hMem : e ∈ opening document first ⟨tag, as, cs⟩) (node : Nat)
        (hNode : e.call.Concerns node) : node < m := by
      have hSame := concerns_opening hMem hNode
      omega
    have hAttached := hBelow.extend _ [] hOpening (by simp)
    rwa [List.append_nil, ← tour] at hAttached

theorem attached_tourAll {document root : Nat} : ∀ (trees : List Element) {first p i m : Nat}
    {parent child : Element}, (preorderAll trees)[p]? = some parent → parent.children[i]? = some child →
      (numbersFrom (first + p + 1) parent.children)[i]? = some m →
        Attached (tourAll document root first trees) (first + p) m child.size
  | [], first, p, i, m, parent, child => by
    intro hParent
    simp [preorderAll] at hParent
  | eldest :: rest, first, p, i, m, parent, child => by
    intro hParent hChild hNumber
    have hFits := numbersFrom_fits hNumber hChild
    rcases getElem?_preorderAll_cons hParent with ⟨-, hFirst⟩ | ⟨q, rfl, hOther⟩
    · -- The parent belongs to the first tree; what follows concerns its root or later trees.
      have hSize : sizeAll parent.children + 1 = parent.size := by
        cases parent
        rw [size]
      have hRoom := preorder_fits eldest hFirst
      have hLater (e : Event) (hMem : e ∈ ⟨.appendChild root first, true⟩ ::
          tourAll document root (first + eldest.size) rest) (node : Nat) (hNode : e.call.Concerns node) :
          node < m ∨ m + child.size ≤ node := by
        rcases List.mem_cons.mp hMem with rfl | hRest
        · have hSame : first = node := hNode
          omega
        · have hBound := concerns_tourAll rest hRest hNode
          omega
      exact (attached_tour eldest hFirst hChild hNumber).extend [] _ (by simp) hLater
    · rw [← Nat.add_assoc] at hNumber ⊢
      have hRest : Attached (tourAll document root (first + eldest.size) rest) (first + eldest.size + q) m child.size :=
        attached_tourAll rest hOther hChild hNumber
      have hElder (e : Event) (hMem : e ∈ tour document first eldest ++ [⟨.appendChild root first, true⟩])
          (node : Nat) (hNode : e.call.Concerns node) : node < m := by
        have hBound := concerns_elder hMem hNode
        omega
      have hAttached := hRest.extend _ [] hElder (by simp)
      rwa [List.append_nil, ← tourAll_cons] at hAttached

end

/-! ## Made nodes -/

theorem filter_opening (document node : Nat) (e : Element) :
    (opening document node e).filter (·.call.operation? ≠ some .appendChild) = opening document node e := by
  rw [List.filter_eq_self]
  intro event hMem
  exact decide_eq_true (not_append_of_mem_opening hMem)

mutual

theorem filter_tour (document : Nat) : ∀ (tree : Element) (first : Nat),
    (tour document first tree).filter (·.call.operation? ≠ some .appendChild) =
      (tree.preorder.mapIdx fun k e => opening document (first + k) e).flatten
  | ⟨tag, as, cs⟩, first => by
    rw [tour, List.filter_append, filter_opening, filter_tourAll document first cs (first + 1), preorder,
      List.mapIdx_cons, List.flatten_cons]
    simp only [Nat.add_assoc, Nat.add_comm 1, Nat.add_zero]

theorem filter_tourAll (document parent : Nat) : ∀ (trees : List Element) (first : Nat),
    (tourAll document parent first trees).filter (·.call.operation? ≠ some .appendChild) =
      ((preorderAll trees).mapIdx fun k e => opening document (first + k) e).flatten
  | [], first => rfl
  | child :: rest, first => by
    have hAppend : [(⟨.appendChild parent first, true⟩ : Event)].filter
        (·.call.operation? ≠ some .appendChild) = [] := rfl
    rw [tourAll_cons, List.filter_append, List.filter_append, hAppend, List.append_nil,
      filter_tour document child first, filter_tourAll document parent rest (first + child.size), preorderAll,
      List.mapIdx_append, List.flatten_append, length_preorder]
    simp only [Nat.add_assoc, Nat.add_comm child.size]

end

mutual

theorem opening_infix_tour {document : Nat} : ∀ (tree : Element) {first k : Nat} {e : Element},
    tree.preorder[k]? = some e → opening document (first + k) e <:+: tour document first tree
  | ⟨tag, as, cs⟩, first, k, e => by
    intro h
    rw [preorder] at h
    rw [tour]
    cases k with
    | zero =>
      rw [List.getElem?_cons_zero, Option.some.injEq] at h
      subst h
      exact List.infix_append_of_infix_left (List.infix_refl _)
    | succ k =>
      have hPlace : first + (k + 1) = first + 1 + k := by omega
      rw [hPlace]
      exact List.infix_append_of_infix_right (opening_infix_tourAll cs h)

theorem opening_infix_tourAll {document parent : Nat} : ∀ (trees : List Element) {first k : Nat} {e : Element},
    (preorderAll trees)[k]? = some e → opening document (first + k) e <:+: tourAll document parent first trees
  | [], first, k, e => by
    intro h
    simp [preorderAll] at h
  | child :: rest, first, k, e => by
    intro h
    rw [tourAll_cons]
    rcases getElem?_preorderAll_cons h with ⟨-, hChild⟩ | ⟨j, rfl, hRest⟩
    · have hOpening : opening document (first + k) e <:+: tour document first child :=
        opening_infix_tour child hChild
      exact List.infix_append_of_infix_left (List.infix_append_of_infix_left hOpening)
    · rw [← Nat.add_assoc]
      exact List.infix_append_of_infix_right (opening_infix_tourAll rest hRest)

end

/-! ## Carrying out the calls -/

def Event.adoption? : Event → Option (Nat × Nat)
  | ⟨.appendChild parent child, true⟩ => some (parent, child)
  | _ => none

def adoptions (log : List Event) : List (Nat × Nat) :=
  log.filterMap Event.adoption?

/-- A node that is appended leaves the node that it belonged to, and becomes the last child. -/
def adopt (family : Nat → List Nat) (adoption : Nat × Nat) (node : Nat) : List Nat :=
  let others := (family node).filter (· ≠ adoption.2)
  if node = adoption.1 then others ++ [adoption.2] else others

/-- The children of each node, when nodes without children are appended as a log says. -/
def replay (log : List Event) : Nat → List Nat :=
  (adoptions log).foldl adopt fun _ => []

def adopted (pairs : List (Nat × Nat)) (node : Nat) : List Nat :=
  (pairs.filter (·.1 = node)).map (·.2)

/-- Nodes that are appended once, and that stood nowhere before, become the last children of their parents. -/
theorem foldl_adopt {family : Nat → List Nat} {pairs : List (Nat × Nat)} (h : (pairs.map (·.2)).Nodup)
    (hNew : ∀ pair ∈ pairs, ∀ node, pair.2 ∉ family node) :
    pairs.foldl adopt family = fun node => family node ++ adopted pairs node := by
  induction pairs using List.reverseRecOn with
  | nil =>
    funext node
    exact (List.append_nil _).symm
  | append_singleton pairs last ih =>
    rw [List.map_append, List.nodup_append] at h
    obtain ⟨hPairs, -, hOnce⟩ := h
    rw [List.forall_mem_append] at hNew
    have hOthers (node : Nat) : (family node ++ adopted pairs node).filter (· ≠ last.2) =
        family node ++ adopted pairs node := by
      rw [List.filter_eq_self]
      intro child hChild
      rw [List.mem_append] at hChild
      cases hChild with
      | inl hFamily =>
        refine decide_eq_true ?_
        rintro rfl
        exact hNew.2 last List.mem_cons_self node hFamily
      | inr hAdopted =>
        obtain ⟨pair, hPair, rfl⟩ := List.mem_map.mp hAdopted
        have hMem : pair.2 ∈ pairs.map (·.2) := List.mem_map_of_mem (List.mem_filter.mp hPair).1
        exact decide_eq_true (hOnce _ hMem _ (by simp))
    rw [List.foldl_append, ih hPairs hNew.1]
    funext node
    rw [List.foldl_cons, List.foldl_nil, adopt, hOthers, adopted, adopted, List.filter_append]
    by_cases hNode : node = last.1
    · subst hNode
      simp
    · have hOther : ¬ last.1 = node := fun h => hNode h.symm
      simp [hNode, hOther]

theorem adoptions_append (log rest : List Event) : adoptions (log ++ rest) = adoptions log ++ adoptions rest :=
  List.filterMap_append

theorem adopted_append (pairs rest : List (Nat × Nat)) (node : Nat) :
    adopted (pairs ++ rest) node = adopted pairs node ++ adopted rest node := by
  simp [adopted]

theorem adopted_eq_nil {pairs : List (Nat × Nat)} {node : Nat} (h : ∀ pair ∈ pairs, pair.1 ≠ node) :
    adopted pairs node = [] := by
  rw [adopted, List.map_eq_nil_iff, List.filter_eq_nil_iff]
  intro pair hPair
  simp [h pair hPair]

theorem call_of_adoption? {e : Event} {pair : Nat × Nat} (h : e.adoption? = some pair) :
    e.call = .appendChild pair.1 pair.2 := by
  obtain ⟨call, accepted⟩ := e
  cases call <;> cases accepted <;> simp [Event.adoption?] at h
  exact h ▸ rfl

theorem adoptions_opening (document node : Nat) (e : Element) : adoptions (opening document node e) = [] := by
  rw [adoptions, List.filterMap_eq_nil_iff]
  intro event hMem
  cases hAdoption : event.adoption? with
  | none => rfl
  | some pair => exact (not_append_of_mem_opening hMem (by rw [call_of_adoption? hAdoption]; rfl)).elim

theorem adoptions_tour (document first : Nat) (tag : String) (attributes : List Attribute)
    (children : List Element) : adoptions (tour document first ⟨tag, attributes, children⟩) =
      adoptions (tourAll document first (first + 1) children) := by
  rw [tour, adoptions_append, adoptions_opening, List.nil_append]

theorem adoptions_tourAll_cons (document root first : Nat) (child : Element) (rest : List Element) :
    adoptions (tourAll document root first (child :: rest)) = adoptions (tour document first child) ++
      (root, first) :: adoptions (tourAll document root (first + child.size) rest) := by
  rw [tourAll, adoptions_append]
  rfl

theorem concerns_of_mem_adoptions {log : List Event} {pair : Nat × Nat} (h : pair ∈ adoptions log) :
    ∃ e ∈ log, e.call = .appendChild pair.1 pair.2 ∧ e.call.Concerns pair.2 := by
  obtain ⟨e, hMem, hAdoption⟩ := List.mem_filterMap.mp h
  have hCall := call_of_adoption? hAdoption
  refine ⟨e, hMem, hCall, ?_⟩
  rw [hCall]
  rfl

theorem adopted_bounds_tour {document first : Nat} {tree : Element} {pair : Nat × Nat}
    (h : pair ∈ adoptions (tour document first tree)) : first < pair.2 ∧ pair.2 < first + tree.size := by
  obtain ⟨e, hMem, hCall, -⟩ := concerns_of_mem_adoptions h
  exact appended_tour hMem hCall

mutual

theorem nodup_tour (document : Nat) : ∀ (tree : Element) (first : Nat),
    ((adoptions (tour document first tree)).map (·.2)).Nodup
  | ⟨tag, as, cs⟩, first => by
    rw [adoptions_tour]
    exact nodup_tourAll document first cs (first + 1)

theorem nodup_tourAll (document root : Nat) : ∀ (trees : List Element) (first : Nat),
    ((adoptions (tourAll document root first trees)).map (·.2)).Nodup
  | [], first => List.nodup_nil
  | child :: rest, first => by
    have hSize := child.size_pos
    -- Nodes of the first tree are below its end, and those of the others are not.
    have hChild (node : Nat) (hNode : node ∈ (adoptions (tour document first child)).map (·.2)) :
        first < node ∧ node < first + child.size := by
      obtain ⟨pair, hPair, rfl⟩ := List.mem_map.mp hNode
      exact adopted_bounds_tour hPair
    have hRest (node : Nat)
        (hNode : node ∈ (adoptions (tourAll document root (first + child.size) rest)).map (·.2)) :
        first + child.size ≤ node := by
      obtain ⟨pair, hPair, rfl⟩ := List.mem_map.mp hNode
      obtain ⟨e, hMem, -, hConcerns⟩ := concerns_of_mem_adoptions hPair
      exact (concerns_tourAll rest hMem hConcerns).1
    rw [adoptions_tourAll_cons, List.map_append, List.map_cons, List.nodup_append, List.nodup_cons]
    refine ⟨nodup_tour document child first, ⟨?_, nodup_tourAll document root rest (first + child.size)⟩, ?_⟩
    · intro hMem
      have hBound := hRest first hMem
      omega
    · intro node hNode other hOther
      obtain ⟨hNotRoot, hLess⟩ := hChild node hNode
      rcases List.mem_cons.mp hOther with rfl | hOther
      · omega
      · have hBound := hRest other hOther
        omega

end

mutual

theorem adopter_tour {document : Nat} : ∀ (tree : Element) {first : Nat} {pair : Nat × Nat},
    pair ∈ adoptions (tour document first tree) → first ≤ pair.1 ∧ pair.1 < first + tree.size
  | ⟨tag, as, cs⟩, first, pair => by
    intro h
    rw [adoptions_tour] at h
    rw [size]
    rcases adopter_tourAll cs h with hRoot | hBelow
    · omega
    · omega

theorem adopter_tourAll {document root : Nat} : ∀ (trees : List Element) {first : Nat} {pair : Nat × Nat},
    pair ∈ adoptions (tourAll document root first trees) →
      pair.1 = root ∨ first ≤ pair.1 ∧ pair.1 < first + sizeAll trees
  | [], first, pair => by
    intro h
    simp [tourAll, adoptions] at h
  | child :: rest, first, pair => by
    intro h
    rw [adoptions_tourAll_cons] at h
    rw [sizeAll]
    rcases List.mem_append.mp h with hChild | hLater
    · have hBound := adopter_tour child hChild
      omega
    · rcases List.mem_cons.mp hLater with rfl | hRest
      · exact .inl rfl
      · have hBound := adopter_tourAll rest hRest
        omega

end

theorem adopted_root {document root first : Nat} {trees : List Element} (h : root < first) :
    adopted (adoptions (tourAll document root first trees)) root = numbersFrom first trees := by
  induction trees generalizing first with
  | nil => rfl
  | cons child rest ih =>
    have hChild : adopted (adoptions (tour document first child)) root = [] := by
      apply adopted_eq_nil
      intro pair hPair
      have hBound := adopter_tour child hPair
      omega
    have hFirst : adopted [(root, first)] root = [first] := by
      simp [adopted]
    rw [adoptions_tourAll_cons, adopted_append, hChild, List.nil_append, ← List.singleton_append,
      adopted_append, hFirst, ih (by omega), numbersFrom, List.singleton_append]

mutual

theorem adopted_tour {document : Nat} : ∀ (tree : Element) {first k : Nat} {e : Element},
    tree.preorder[k]? = some e →
      adopted (adoptions (tour document first tree)) (first + k) = numbersFrom (first + k + 1) e.children
  | ⟨tag, as, cs⟩, first, k, e => by
    intro h
    rw [preorder] at h
    rw [adoptions_tour]
    cases k with
    | zero =>
      rw [List.getElem?_cons_zero, Option.some.injEq] at h
      subst h
      exact adopted_root (by omega)
    | succ k =>
      have hPlace : first + (k + 1) = first + 1 + k := by omega
      rw [hPlace]
      exact adopted_tourAll cs (by omega) h

theorem adopted_tourAll {document root : Nat} : ∀ (trees : List Element) {first k : Nat} {e : Element},
    root < first → (preorderAll trees)[k]? = some e →
      adopted (adoptions (tourAll document root first trees)) (first + k) = numbersFrom (first + k + 1) e.children
  | [], first, k, e => by
    intro _ h
    simp [preorderAll] at h
  | child :: rest, first, k, e => by
    intro hRoot h
    have hFirst : adopted [(root, first)] (first + k) = [] := by
      apply adopted_eq_nil
      intro pair hPair
      rw [List.mem_singleton] at hPair
      subst hPair
      exact Nat.ne_of_lt (by omega)
    rw [adoptions_tourAll_cons, adopted_append, ← List.singleton_append, adopted_append, hFirst, List.nil_append]
    rcases getElem?_preorderAll_cons h with ⟨hLess, hIn⟩ | ⟨j, rfl, hOther⟩
    · have hRest : adopted (adoptions (tourAll document root (first + child.size) rest)) (first + k) = [] := by
        apply adopted_eq_nil
        intro pair hPair
        have hBound := adopter_tourAll rest hPair
        omega
      rw [hRest, List.append_nil, adopted_tour child hIn]
    · have hChild : adopted (adoptions (tour document first child)) (first + (child.size + j)) = [] := by
        apply adopted_eq_nil
        intro pair hPair
        have hBound := adopter_tour child hPair
        omega
      rw [hChild, List.nil_append, ← Nat.add_assoc]
      exact adopted_tourAll rest (by omega) hOther

end

/-! ## The tree -/

/-- The calls of a log draw a tree with the numbers from `base` on. -/
structure Draws (document base : Nat) (tree : Element) (log : List Event) : Prop where
  -- The nodes are made in document order, and a node gets its attributes before any other call is made.
  made : log.filter (·.call.operation? ≠ some .appendChild) =
    (tree.preorder.mapIdx fun k e => opening document (base + k) e).flatten
  opened : ∀ k e, tree.preorder[k]? = some e → opening document (base + k) e <:+: log
  -- Every node but the root is appended once, to the node of its parent, and no other node is.
  attached : ∀ m e, 0 < m → tree.preorder[m]? = some e →
    ∃ p, ChildIn tree.preorder p m e ∧ Attached log (base + p) (base + m) e.size
  below : ∀ e ∈ log, ∀ parent child, e.call = .appendChild parent child →
    base < child ∧ child < base + tree.size
  -- The calls leave every node with the nodes of its element's children, in order.
  family : ∀ k e, tree.preorder[k]? = some e → replay log (base + k) = numbersFrom (base + k + 1) e.children
  strangers : ∀ node, node < base ∨ base + tree.size ≤ node → replay log node = []

theorem draws_tour (document base : Nat) (tree : Element) : Draws document base tree (tour document base tree) := by
  have hReplay : replay (tour document base tree) = adopted (adoptions (tour document base tree)) :=
    foldl_adopt (nodup_tour document tree base) (by simp)
  constructor
  · exact filter_tour document tree base
  · intro k e h
    exact opening_infix_tour tree h
  · intro m e hBelow h
    obtain ⟨p, hChild⟩ := exists_parent tree hBelow h
    refine ⟨p, hChild, ?_⟩
    obtain ⟨parent, i, hParent, hMember, hNumber⟩ := hChild
    refine attached_tour tree hParent hMember ?_
    rw [Nat.add_assoc, numbersFrom_add, List.getElem?_map, hNumber]
    rfl
  · intro e hMem parent child hCall
    exact appended_tour hMem hCall
  · intro k e h
    rw [hReplay]
    exact adopted_tour tree h
  · intro node hNode
    rw [hReplay]
    apply adopted_eq_nil
    intro pair hPair
    have hBound := adopter_tour tree hPair
    omega

/-- A tree that meets no refusal is drawn with the next free numbers. -/
theorem construct_draws (document : Nat) (tree : Element) (page : Page)
    (h : ∀ position, page.thrown? (construct document tree page.unrefused).events position = none) :
    (construct document tree page).result = .ok page.nextNode ∧
      (construct document tree page).page.nextNode = page.nextNode + tree.size ∧
        Draws document page.nextNode tree (construct document tree page).events := by
  have hFree : Performs (construct document tree) page.unrefused page.nextNode
      (tour document page.nextNode tree) tree.size := performs_construct document tree rfl
  obtain ⟨node, hNode, hOutcome⟩ := stoppable_construct document tree page
  have hRoot : node = page.nextNode := Except.ok.inj (hNode.symm.trans hFree.result)
  subst hRoot
  cases hOutcome with
  | completed hNone hEvents hResult =>
    have hPage : (construct document tree page).page.nextNode = page.nextNode + tree.size := by
      rw [accounts_construct document tree page, Page.nextNode_after, hEvents]
      have hMade := hFree.nextNode
      rw [accounts_construct document tree page.unrefused, Page.nextNode_after] at hMade
      exact hMade
    rw [hFree.events] at hEvents
    exact ⟨hResult, hPage, hEvents ▸ draws_tour document page.nextNode tree⟩
  | refused position _ _ _ _ _ hThrown =>
    rw [h position] at hThrown
    cases hThrown

theorem construct_draws_arrowUp :
    let page : Page := ⟨true, true, #[none, some 0], [⟨.createElement, 2, .string "gone"⟩], ⟨2, 7, 1⟩⟩
    (∀ position, page.thrown? (construct 0 Icon.arrowUp page.unrefused).events position = none) ∧
      Draws 0 2 Icon.arrowUp (construct 0 Icon.arrowUp page).events := by
  intro page
  have hPast : ∀ position, page.thrown? (construct 0 Icon.arrowUp page.unrefused).events position = none :=
    page.thrown?_of_past (by decide) _
  exact ⟨hPast, (construct_draws 0 Icon.arrowUp page hPast).2.2⟩

end Pictogram.Dom
