import Pictogram.Proofs.Dom.Mounting
import Pictogram.Proofs.Element.Building
import Pictogram.Proofs.Element.Searching

/-! # Nodes beside elements

What can be looked up in a tree can be looked up in its nodes as well. A node gets the attributes of its element one
after another, so it has the last value of a name where the element answers with the first; and the nodes of a tag have
the numbers of the elements that a search finds.
-/
namespace Pictogram.Dom
set_option autoImplicit false
open Element

/-! ## The calls for each element -/

theorem construct_of_unrefused {document : Nat} {tree : Element} {page : Page}
    (h : ∀ position, page.thrown? (construct document tree page.unrefused).events position = none) :
    (construct document tree page).result = .ok page.nextNode ∧
      (construct document tree page).events = tour document page.nextNode tree := by
  have hFree : Performs (construct document tree) page.unrefused page.nextNode
      (tour document page.nextNode tree) tree.size := performs_construct document tree rfl
  rw [hFree.events] at h
  exact (outcome_tour document tree page).of_unthrown h

section
variable {β : Type} {f : Event → Option β}

mutual

/-- Apart from the calls that append nodes, each element has the calls that open it. -/
theorem filterMap_tour (hAppend : ∀ parent child, f ⟨.appendChild parent child, true⟩ = none) (document : Nat) :
    ∀ (tree : Element) (first : Nat), (tour document first tree).filterMap f =
      (tree.preorder.zipIdx first).flatMap fun p => (opening document p.2 p.1).filterMap f
  | ⟨tag, as, cs⟩, first => by
    rw [tour, List.filterMap_append, filterMap_tourAll hAppend document first cs (first + 1), preorder,
      List.zipIdx_cons, List.flatMap_cons]

theorem filterMap_tourAll (hAppend : ∀ parent child, f ⟨.appendChild parent child, true⟩ = none)
    (document parent : Nat) : ∀ (trees : List Element) (first : Nat),
      (tourAll document parent first trees).filterMap f =
        ((preorderAll trees).zipIdx first).flatMap fun p => (opening document p.2 p.1).filterMap f
  | [], first => rfl
  | child :: rest, first => by
    rw [tourAll, List.filterMap_append, List.filterMap_cons_none (hAppend parent first),
      filterMap_tour hAppend document child first, filterMap_tourAll hAppend document parent rest (first + child.size),
      preorderAll, List.zipIdx_append, List.flatMap_append, length_preorder]

end

end

theorem flatMap_zipIdx {α β : Type} {l : List α} {k : Nat} {a : α} (h : l[k]? = some a) (f : α → List β)
    (first : Nat) : (l.zipIdx first).flatMap (fun p => if p.2 = first + k then f p.1 else []) = f a := by
  induction l generalizing first k with
  | nil => simp at h
  | cons b l ih =>
    rw [List.zipIdx_cons, List.flatMap_cons]
    cases k with
    | zero =>
      rw [List.getElem?_cons_zero, Option.some.injEq] at h
      have hOthers : (l.zipIdx (first + 1)).flatMap (fun p => if p.2 = first + 0 then f p.1 else []) = [] := by
        rw [List.flatMap_eq_nil_iff]
        intro p hMem
        have hBound := (List.mem_zipIdx hMem).1
        exact if_neg (by omega)
      have hPlace : (b, first).2 = first + 0 := rfl
      rw [if_pos hPlace, hOthers, List.append_nil, h]
    | succ k =>
      have hOther : first ≠ first + (k + 1) := by omega
      have hPlace : first + (k + 1) = first + 1 + k := by omega
      rw [if_neg hOther, List.nil_append, hPlace]
      exact ih h (first + 1)

/-! ## Attributes of a node -/

/-- Sets an attribute of a node: its value is replaced where it stands, and it comes last if the node has none of its
name. -/
def assign (attributes : List Attribute) (w : Attribute) : List Attribute :=
  if w.name ∈ attributes.map (·.name) then attributes.map fun a => if a.name = w.name then w else a
  else attributes ++ [w]

def Event.assignment? (node : Nat) : Event → Option Attribute
  | ⟨.setAttribute target name value, true⟩ => if target = node then some ⟨name, value⟩ else none
  | _ => none

/-- The attributes of a node without any after the calls of a log. -/
def shown (log : List Event) (node : Nat) : List Attribute :=
  (log.filterMap (Event.assignment? node)).foldl assign []

/-- As long as a node does not repeat a name, only the first attribute of a name can be meant. -/
theorem assign_eq_set {attributes : List Attribute} (h : (attributes.map (·.name)).Nodup) (w : Attribute) :
    assign attributes w = Attribute.set w.name w.value attributes := by
  unfold assign
  split
  · rename_i hMem
    induction attributes with
    | nil => simp at hMem
    | cons a rest ih =>
      rw [List.map_cons, List.nodup_cons] at h
      rw [List.map_cons, Attribute.set]
      by_cases hName : a.name = w.name
      · have hRest : rest.map (fun b => if b.name = w.name then w else b) = rest.map id := by
          apply List.map_congr_left
          intro b hb
          have hOther : b.name ≠ w.name := by
            rw [← hName]
            exact fun hSame => h.1 (hSame ▸ List.mem_map_of_mem hb)
          exact if_neg hOther
        rw [if_pos hName, if_pos hName, hRest, List.map_id, hName]
      · rw [List.map_cons, List.mem_cons] at hMem
        rw [if_neg hName, if_neg hName, ih h.2 (hMem.resolve_left (Ne.symm hName))]
  · rename_i hFresh
    exact (Attribute.set_of_notMem hFresh w.value).symm

theorem foldl_assign (writes : List Attribute) : writes.foldl assign [] = Attribute.setEach writes [] := by
  induction writes using List.reverseRecOn with
  | nil => rfl
  | append_singleton writes last ih =>
    have hNodup : ((Attribute.setEach writes []).map (·.name)).Nodup := by
      rw [Attribute.names_setEach]
      simpa using nodup_eraseDups (writes.map (·.name))
    rw [List.foldl_append, List.foldl_cons, List.foldl_nil, ih, assign_eq_set hNodup, Attribute.setEach_concat]

theorem assignments_opening (document first node : Nat) (e : Element) :
    (opening document first e).filterMap (Event.assignment? node) =
      if first = node then e.attributes.filter (·.name ≠ "xmlns") else [] := by
  rw [opening, List.filterMap_cons_none rfl, List.filterMap_map]
  by_cases hNode : first = node
  · simp [Event.assignment?, hNode]
  · simp [Event.assignment?, hNode]

theorem shown_tour {document first k : Nat} {tree e : Element} (h : tree.preorder[k]? = some e) :
    shown (tour document first tree) (first + k) = Attribute.setEach (e.attributes.filter (·.name ≠ "xmlns")) [] := by
  rw [shown, filterMap_tour (fun _ _ => rfl)]
  simp only [assignments_opening]
  rw [flatMap_zipIdx h fun e => e.attributes.filter (·.name ≠ "xmlns"), foldl_assign]

/-- So what holds of the attributes of all nodes is known from the elements. -/
theorem forall_shown_iff {document first : Nat} {tree : Element} {P : Element → List Attribute → Prop} :
    (∀ (k : Nat) e, tree.preorder[k]? = some e → P e (shown (tour document first tree) (first + k))) ↔
      ∀ e ∈ tree.preorder, P e (Attribute.setEach (e.attributes.filter (·.name ≠ "xmlns")) []) := by
  constructor
  · intro h e hMem
    obtain ⟨k, hGet⟩ := List.mem_iff_getElem?.mp hMem
    rw [← shown_tour hGet]
    exact h k e hGet
  · intro h k e hGet
    rw [shown_tour hGet]
    exact h e (List.mem_of_getElem? hGet)

/-! ## Both answers -/

theorem values_others {name : String} (h : name ≠ "xmlns") (attributes : List Attribute) :
    Attribute.values name (attributes.filter (·.name ≠ "xmlns")) = Attribute.values name attributes := by
  rw [Attribute.values, Attribute.values, List.filter_filter]
  congr 2
  funext a
  by_cases hName : a.name = name
  · simp [hName, h]
  · simp [hName]

/-- How the attributes of a node answer, beside the element that it stands for. -/
structure Shows (e : Element) (attributes : List Attribute) : Prop where
  -- The node has what an element has to which the same attributes are written one by one.
  built : attributes = (({ tag := e.tag } : Element).setEach (e.attributes.filter (·.name ≠ "xmlns"))).attributes
  last : ∀ name, name ≠ "xmlns" → Attribute.lookup name attributes = (Attribute.values name e.attributes).getLast?
  first : ∀ name, e.attribute? name = (Attribute.values name e.attributes).head?

theorem shows_setEach (e : Element) : Shows e (Attribute.setEach (e.attributes.filter (·.name ≠ "xmlns")) []) := by
  constructor
  · rw [Element.setEach_eq]
  · intro name hName
    rw [Attribute.lookup_setEach, values_others hName]
    exact Option.or_none
  · intro name
    exact Attribute.lookup_eq_head? name e.attributes

def Agree (e : Element) (attributes : List Attribute) : Prop :=
  ∀ name, name ≠ "xmlns" → Attribute.lookup name attributes = e.attribute? name

theorem Shows.agree_iff {e : Element} {attributes : List Attribute} (h : Shows e attributes) :
    Agree e attributes ↔ ∀ name, name ≠ "xmlns" →
      (Attribute.values name e.attributes).head? = (Attribute.values name e.attributes).getLast? := by
  apply forall_congr'
  intro name
  apply imp_congr_right
  intro hName
  rw [h.last name hName, h.first, eq_comm]

theorem agree_of_nodup {e : Element} (h : (e.attributes.map (·.name)).Nodup) :
    Agree e (Attribute.setEach (e.attributes.filter (·.name ≠ "xmlns")) []) := by
  rw [(shows_setEach e).agree_iff]
  intro name _
  rw [Attribute.values_of_nodup h]
  cases Attribute.lookup name e.attributes <;> rfl

/-- A node has the last value of each name and its element answers with the first. They agree unless an element gives
a name different values first and last, and the lists are the same unless it repeats a name. -/
theorem construct_shows (document : Nat) (tree : Element) (page : Page)
    (h : ∀ position, page.thrown? (construct document tree page.unrefused).events position = none) :
    let nodeOf := fun k => shown (construct document tree page).events (page.nextNode + k)
    (construct document tree page).result = .ok page.nextNode ∧
      (∀ (k : Nat) e, tree.preorder[k]? = some e → Shows e (nodeOf k)) ∧
      ((∀ (k : Nat) e, tree.preorder[k]? = some e → Agree e (nodeOf k)) ↔
        ∀ e ∈ tree.preorder, ∀ name, name ≠ "xmlns" →
          (Attribute.values name e.attributes).head? = (Attribute.values name e.attributes).getLast?) ∧
      (tree.Obtainable → ∀ (k : Nat) e, tree.preorder[k]? = some e → Agree e (nodeOf k)) ∧
      ((∀ (k : Nat) e, tree.preorder[k]? = some e → nodeOf k = e.attributes.filter (·.name ≠ "xmlns")) ↔
        ∀ e ∈ tree.preorder, ((e.attributes.filter (·.name ≠ "xmlns")).map (·.name)).Nodup) := by
  obtain ⟨hResult, hEvents⟩ := construct_of_unrefused h
  intro nodeOf
  dsimp only [nodeOf]
  rw [hEvents]
  refine ⟨hResult, ?_, ?_, ?_, ?_⟩
  · rw [forall_shown_iff]
    exact fun e _ => shows_setEach e
  · rw [forall_shown_iff]
    exact forall₂_congr fun e _ => (shows_setEach e).agree_iff
  · intro hTree
    rw [forall_shown_iff]
    exact fun e hMem => agree_of_nodup (hTree.distinct e hMem)
  · rw [@forall_shown_iff _ _ _ fun e attributes => attributes = e.attributes.filter (·.name ≠ "xmlns")]
    exact forall₂_congr fun e _ => Attribute.setEach_nil_eq_self_iff (e.attributes.filter (·.name ≠ "xmlns"))

/-- A page that refused calls before, and a tree whose root answers otherwise than its node. -/
theorem construct_shows_repeated :
    let page : Page := ⟨true, true, #[none, some 0], [⟨.setAttribute, 3, .string "late"⟩], ⟨2, 7, 1⟩⟩
    let tree : Element := ⟨"svg", [⟨"fill", "red"⟩, ⟨"xmlns", "n"⟩, ⟨"d", "a"⟩, ⟨"fill", "blue"⟩],
      [⟨"path", [⟨"d", "b"⟩, ⟨"d", "b"⟩], []⟩]⟩
    let nodeOf := fun k => shown (construct 0 tree page).events (page.nextNode + k)
    (∀ position, page.thrown? (construct 0 tree page.unrefused).events position = none) ∧
      Shows tree (nodeOf 0) ∧ nodeOf 0 = [⟨"fill", "blue"⟩, ⟨"d", "a"⟩] ∧
        ¬ ∀ (k : Nat) e, tree.preorder[k]? = some e → Agree e (nodeOf k) := by
  intro page tree nodeOf
  have hPast : ∀ position, page.thrown? (construct 0 tree page.unrefused).events position = none :=
    page.thrown?_of_past (by decide) _
  obtain ⟨-, hShows, hAgree, -, -⟩ := construct_shows 0 tree page hPast
  refine ⟨hPast, hShows 0 tree rfl, by decide, ?_⟩
  intro h
  have hFill := hAgree.mp h tree List.mem_cons_self "fill" (by decide)
  revert hFill
  decide

/-! ## Nodes of a tag -/

def Event.madeAs? (tag : String) : Event → Option Nat
  | ⟨.createElement _ _ called node, true⟩ => if called = tag then node else none
  | _ => none

theorem made_opening (document first : Nat) (tag : String) (e : Element) :
    (opening document first e).filterMap (Event.madeAs? tag) = if e.tag = tag then [first] else [] := by
  have hAttributes : ((e.attributes.filter (·.name ≠ "xmlns")).map fun a =>
      (⟨.setAttribute first a.name a.value, true⟩ : Event)).filterMap (Event.madeAs? tag) = [] := by
    simp [Event.madeAs?]
  rw [opening, List.filterMap_cons, hAttributes, Event.madeAs?]
  by_cases hTag : e.tag = tag
  · simp [hTag]
  · simp [hTag]

theorem made_tour (document first : Nat) (tag : String) (tree : Element) :
    (tour document first tree).filterMap (Event.madeAs? tag) =
      ((tree.preorder.zipIdx first).filter (·.1.tag = tag)).map (·.2) := by
  rw [filterMap_tour (fun _ _ => rfl)]
  simp only [made_opening]
  induction tree.preorder generalizing first with
  | nil => rfl
  | cons e rest ih =>
    rw [List.zipIdx_cons, List.flatMap_cons, ih (first + 1)]
    by_cases hTag : e.tag = tag
    · simp [hTag]
    · simp [hTag]

theorem made_below_root (document first : Nat) (tag : String) (tree : Element) :
    ((tour document first tree).filterMap (Event.madeAs? tag)).filter (· ≠ first) =
      (tree.numbers tag).map (first + ·) := by
  have hLater : ∀ node ∈ (((preorderAll tree.children).zipIdx (first + 1)).filter (·.1.tag = tag)).map (·.2),
      decide (node ≠ first) = true := by
    intro node hMem
    obtain ⟨p, hp, rfl⟩ := List.mem_map.mp hMem
    have hBound := (List.mem_zipIdx (List.mem_filter.mp hp).1).1
    exact decide_eq_true (by omega)
  rw [made_tour, map_add_numbers, preorder_eq, List.zipIdx_cons, List.filter_cons]
  split
  · rw [List.map_cons, List.filter_cons_of_neg (by simp), List.filter_eq_self.mpr hLater]
  · rw [List.filter_eq_self.mpr hLater]

/-- A search finds every element of its tag below the root and no other, in document order; all searches together
find each of them once; and in the same order the same nodes were made with that tag. -/
theorem search_numbers (tree : Element) :
    (∀ tag, (tree.numbers tag).Pairwise (· < ·) ∧ (∀ k ∈ tree.numbers tag, 1 ≤ k ∧ k ≤ tree.size - 1) ∧
      ∀ k e, (k, e) ∈ tree.search tag ↔ 0 < k ∧ tree.preorder[k]? = some e ∧ e.tag = tag) ∧
    (tree.tags.flatMap tree.numbers).Perm (List.range' 1 (tree.size - 1)) ∧
    ∀ (document : Nat) (page : Page),
      (∀ position, page.thrown? (construct document tree page.unrefused).events position = none) →
        (construct document tree page).result = .ok page.nextNode ∧
          ∀ tag, (tree.numbers tag).map (page.nextNode + ·) =
            ((construct document tree page).events.filterMap (Event.madeAs? tag)).filter (· ≠ page.nextNode) := by
  refine ⟨?_, tree.perm_numbers, ?_⟩
  · intro tag
    refine ⟨tree.numbers_pairwise tag, ?_, tree.mem_search_iff tag⟩
    intro k hMem
    obtain ⟨hBelow, e, hGet, -⟩ := (tree.mem_numbers_iff tag k).mp hMem
    have hLess := (List.getElem?_eq_some_iff.mp hGet).1
    rw [length_preorder] at hLess
    omega
  · intro document page h
    obtain ⟨hResult, hEvents⟩ := construct_of_unrefused h
    rw [hEvents]
    exact ⟨hResult, fun tag => (made_below_root document page.nextNode tag tree).symm⟩

theorem search_numbers_nested :
    let page : Page := ⟨false, false, #[none, some 0], [⟨.createElement, 1, .string "early"⟩], ⟨1, 0, 0⟩⟩
    let tree : Element := ⟨"g", [], [⟨"g", [], [⟨"path", [], []⟩, ⟨"g", [], []⟩]⟩, ⟨"path", [], []⟩]⟩
    (∀ position, page.thrown? (construct 7 tree page.unrefused).events position = none) ∧
      tree.numbers "g" = [1, 3] ∧
        ((construct 7 tree page).events.filterMap (Event.madeAs? "g")).filter (· ≠ page.nextNode) = [3, 5] := by
  intro page tree
  have hPast : ∀ position, page.thrown? (construct 7 tree page.unrefused).events position = none :=
    page.thrown?_of_past (by decide) _
  have hNumbers : tree.numbers "g" = [1, 3] := by decide
  obtain ⟨-, -, hNodes⟩ := search_numbers tree
  refine ⟨hPast, hNumbers, ?_⟩
  rw [← (hNodes 7 page hPast).2 "g", hNumbers]
  rfl

end Pictogram.Dom
