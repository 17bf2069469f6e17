import Mathlib.Data.List.Nodup
import Mathlib.Data.List.Range
import Pictogram.Proofs.Element.Numbering
import Pictogram.Proofs.Element.Writes

/-! # Searching by tag

A search walks the tree with a number of its own. It finds what is left of the document order when the root and the
elements of other tags are taken away, so each element below the root is found once, under its own tag.
-/
namespace Pictogram.Element
set_option autoImplicit false

theorem preorder_eq (e : Element) : e.preorder = e :: preorderAll e.children := by
  cases e
  rfl

/-- The elements called `tag` of a part of the document order whose first element has the number `first`. -/
def tagged (tag : String) (first : Nat) (elements : List Element) : List (Nat × Element) :=
  ((elements.zipIdx first).filter (·.1.tag = tag)).map Prod.swap

theorem tagged_append (tag : String) (first : Nat) (elements rest : List Element) :
    tagged tag first (elements ++ rest) = tagged tag first elements ++ tagged tag (first + elements.length) rest := by
  simp [tagged, List.zipIdx_append]

theorem tagged_cons (tag : String) (first : Nat) (e : Element) (rest : List Element) :
    tagged tag first (e :: rest) =
      (if e.tag = tag then [(first, e)] else []) ++ tagged tag (first + 1) rest := by
  by_cases h : e.tag = tag
  · simp [tagged, h]
  · simp [tagged, h]

mutual

theorem searchBelow_eq_tagged (tag : String) : ∀ (e : Element) (number : Nat),
    searchBelow tag number e = tagged tag (number + 1) (preorderAll e.children)
  | ⟨_, _, children⟩, number => searchAll_eq_tagged tag children (number + 1)

theorem searchAll_eq_tagged (tag : String) : ∀ (children : List Element) (number : Nat),
    searchAll tag number children = tagged tag number (preorderAll children)
  | [], _ => rfl
  | child :: rest, number => by
    rw [searchAll, preorderAll, tagged_append, preorder_eq, tagged_cons, ← preorder_eq, length_preorder,
      searchBelow_eq_tagged tag child number, searchAll_eq_tagged tag rest (number + child.size)]

end

/-- The numbers of the elements that a search finds. -/
def numbers (tree : Element) (tag : String) : List Nat :=
  (tree.search tag).map (·.1)

theorem numbers_eq (tree : Element) (tag : String) :
    tree.numbers tag = (((preorderAll tree.children).zipIdx 1).filter (·.1.tag = tag)).map (·.2) := by
  rw [numbers, search, searchBelow_eq_tagged, tagged, List.map_map]
  rfl

/-- In a document whose numbers begin with `base`. -/
theorem map_add_numbers (tree : Element) (tag : String) (base : Nat) :
    (tree.numbers tag).map (base + ·) =
      (((preorderAll tree.children).zipIdx (base + 1)).filter (·.1.tag = tag)).map (·.2) := by
  have hShift : (preorderAll tree.children).zipIdx (base + 1) =
      ((preorderAll tree.children).zipIdx 1).map (Prod.map id (base + ·)) := by
    rw [List.zipIdx_eq_map_add, @List.zipIdx_eq_map_add _ _ 1, List.map_map]
    apply List.map_congr_left
    intro p _
    exact Prod.ext rfl (Nat.add_assoc base 1 p.2)
  rw [numbers_eq, hShift, List.filter_map, List.map_map, List.map_map]
  rfl

theorem numbers_pairwise (tree : Element) (tag : String) : (tree.numbers tag).Pairwise (· < ·) := by
  have hOrder : ((preorderAll tree.children).zipIdx 1).Pairwise (·.2 < ·.2) := by
    have hNumbers : (((preorderAll tree.children).zipIdx 1).map Prod.snd).Pairwise (· < ·) := by
      rw [List.zipIdx_map_snd]
      exact List.pairwise_lt_range'
    rwa [List.pairwise_map] at hNumbers
  rw [numbers_eq, List.pairwise_map]
  exact hOrder.filter _

theorem mem_search_iff (tree : Element) (tag : String) (k : Nat) (e : Element) :
    (k, e) ∈ tree.search tag ↔ 0 < k ∧ tree.preorder[k]? = some e ∧ e.tag = tag := by
  rw [search, searchBelow_eq_tagged, tagged, List.mem_map, preorder_eq]
  constructor
  · rintro ⟨⟨e, k⟩, hMem, hSwap⟩
    cases hSwap
    obtain ⟨hMem, hTag⟩ := List.mem_filter.mp hMem
    obtain ⟨hBelow, hGet⟩ := List.mem_zipIdx_iff_le_and_getElem?_sub.mp hMem
    obtain ⟨k, rfl⟩ := Nat.exists_eq_add_of_le' hBelow
    exact ⟨hBelow, hGet, of_decide_eq_true hTag⟩
  · rintro ⟨hBelow, hGet, hTag⟩
    obtain ⟨k, rfl⟩ := Nat.exists_eq_add_of_le' hBelow
    refine ⟨(e, k + 1), List.mem_filter.mpr ⟨?_, decide_eq_true hTag⟩, rfl⟩
    exact List.mem_zipIdx_iff_le_and_getElem?_sub.mpr ⟨hBelow, hGet⟩

theorem mem_numbers_iff (tree : Element) (tag : String) (k : Nat) :
    k ∈ tree.numbers tag ↔ 0 < k ∧ ∃ e, tree.preorder[k]? = some e ∧ e.tag = tag := by
  rw [numbers, List.mem_map]
  constructor
  · rintro ⟨⟨k, e⟩, hMem, rfl⟩
    obtain ⟨hBelow, hFound⟩ := (mem_search_iff tree tag k e).mp hMem
    exact ⟨hBelow, e, hFound⟩
  · rintro ⟨hBelow, e, hFound⟩
    exact ⟨(k, e), (mem_search_iff tree tag k e).mpr ⟨hBelow, hFound⟩, rfl⟩

/-- The tags of a tree, each once. -/
def tags (tree : Element) : List String :=
  (tree.preorder.map (·.tag)).eraseDups

theorem mem_tags {tree : Element} {k : Nat} {e : Element} (h : tree.preorder[k]? = some e) : e.tag ∈ tree.tags := by
  rw [tags, List.mem_eraseDups]
  exact List.mem_map_of_mem (List.mem_of_getElem? h)

/-- Every number but that of the root is found under exactly one tag. -/
theorem perm_numbers (tree : Element) :
    (tree.tags.flatMap tree.numbers).Perm (List.range' 1 (tree.size - 1)) := by
  have hNodup : (tree.tags.flatMap tree.numbers).Nodup := by
    rw [List.nodup_flatMap]
    constructor
    · intro tag _
      exact (tree.numbers_pairwise tag).imp Nat.ne_of_lt
    · apply (nodup_eraseDups _).imp
      intro tag other hOther k hTag hSame
      obtain ⟨-, e, hGet, rfl⟩ := (mem_numbers_iff tree tag k).mp hTag
      obtain ⟨-, e', hGet', rfl⟩ := (mem_numbers_iff tree other k).mp hSame
      rw [hGet, Option.some.injEq] at hGet'
      exact hOther (congrArg (·.tag) hGet')
  rw [List.perm_ext_iff_of_nodup hNodup List.nodup_range']
  intro k
  rw [List.mem_flatMap, List.mem_range'_1]
  constructor
  · rintro ⟨tag, -, hMem⟩
    obtain ⟨hBelow, e, hGet, -⟩ := (mem_numbers_iff tree tag k).mp hMem
    have hLess := (List.getElem?_eq_some_iff.mp hGet).1
    rw [length_preorder] at hLess
    omega
  · intro hBounds
    have hLess : k < tree.preorder.length := by
      rw [length_preorder]
      omega
    have hGet : tree.preorder[k]? = some tree.preorder[k] := List.getElem?_eq_getElem hLess
    exact ⟨_, mem_tags hGet, (mem_numbers_iff tree _ k).mpr ⟨by omega, _, hGet, rfl⟩⟩

end Pictogram.Element
