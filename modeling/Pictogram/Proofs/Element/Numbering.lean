import Pictogram.Element.Order

/-! # Numbers of children

The trees below an element are numbered one after another, so the number of a child is known from the sizes
of the trees before it. Every element but the root is the child of another one.
-/
namespace Pictogram.Element
set_option autoImplicit false

/-- The numbers of the roots of several trees, the first of which has the number `first`. -/
def numbersFrom (first : Nat) : List Element → List Nat
  | [] => []
  | child :: rest => first :: numbersFrom (first + child.size) rest

theorem numbersFrom_add (base first : Nat) (children : List Element) :
    numbersFrom (base + first) children = (numbersFrom first children).map (base + ·) := by
  induction children generalizing first with
  | nil => rfl
  | cons child rest ih => rw [numbersFrom, numbersFrom, List.map_cons, Nat.add_assoc, ih]

theorem size_pos (e : Element) : 0 < e.size := by
  cases e
  rw [size]
  omega

/-- A child and its descendants lie between its elder and its younger siblings. -/
theorem numbersFrom_fits {first : Nat} {children : List Element} {i m : Nat} {child : Element}
    (hNumber : (numbersFrom first children)[i]? = some m) (hChild : children[i]? = some child) :
    first ≤ m ∧ m + child.size ≤ first + sizeAll children := by
  induction children generalizing first i with
  | nil => simp at hChild
  | cons eldest rest ih =>
    rw [sizeAll]
    cases i with
    | zero =>
      rw [numbersFrom, List.getElem?_cons_zero, Option.some.injEq] at hNumber
      rw [List.getElem?_cons_zero, Option.some.injEq] at hChild
      subst hNumber hChild
      omega
    | succ i =>
      have hFits := ih hNumber hChild
      omega

/-- An element of several trees belongs to the first one or to the others. -/
theorem getElem?_preorderAll_cons {child : Element} {rest : List Element} {k : Nat} {e : Element}
    (h : (preorderAll (child :: rest))[k]? = some e) :
    k < child.size ∧ child.preorder[k]? = some e ∨
      ∃ j, k = child.size + j ∧ (preorderAll rest)[j]? = some e := by
  rw [preorderAll] at h
  rcases Nat.lt_or_ge k child.preorder.length with hLess | hMore
  · rw [List.getElem?_append_left hLess] at h
    rw [length_preorder] at hLess
    exact .inl ⟨hLess, h⟩
  · rw [List.getElem?_append_right hMore, length_preorder] at h
    rw [length_preorder] at hMore
    exact .inr ⟨k - child.size, by omega, h⟩

mutual

theorem preorder_fits : ∀ (tree : Element) {p : Nat} {e : Element}, tree.preorder[p]? = some e →
    p + e.size ≤ tree.size
  | ⟨tag, as, cs⟩, p, e => by
    intro h
    rw [preorder] at h
    cases p with
    | zero =>
      rw [List.getElem?_cons_zero, Option.some.injEq] at h
      subst h
      omega
    | succ p =>
      have hFits := preorderAll_fits cs h
      rw [size]
      omega

theorem preorderAll_fits : ∀ (children : List Element) {p : Nat} {e : Element},
    (preorderAll children)[p]? = some e → p + e.size ≤ sizeAll children
  | [], p, e => by
    intro h
    simp [preorderAll] at h
  | child :: rest, p, e => by
    intro h
    rw [sizeAll]
    rcases getElem?_preorderAll_cons h with ⟨-, hChild⟩ | ⟨q, rfl, hRest⟩
    · have hFits := preorder_fits child hChild
      omega
    · have hFits := preorderAll_fits rest hRest
      omega

end

/-- The element number `m` of some trees is a child of the element number `p`. -/
def ChildIn (elements : List Element) (p m : Nat) (e : Element) : Prop :=
  ∃ (parent : Element) (i : Nat), elements[p]? = some parent ∧ parent.children[i]? = some e ∧
    (numbersFrom (p + 1) parent.children)[i]? = some m

theorem ChildIn.shift {elements : List Element} {p m : Nat} {e : Element} (h : ChildIn elements p m e)
    (before : List Element) : ChildIn (before ++ elements) (before.length + p) (before.length + m) e := by
  obtain ⟨parent, i, hParent, hChild, hNumber⟩ := h
  refine ⟨parent, i, ?_, hChild, ?_⟩
  · rw [List.getElem?_append_right (by omega), Nat.add_sub_cancel_left, hParent]
  · rw [Nat.add_assoc, numbersFrom_add, List.getElem?_map, hNumber]
    rfl

theorem ChildIn.append {elements : List Element} {p m : Nat} {e : Element} (h : ChildIn elements p m e)
    (after : List Element) : ChildIn (elements ++ after) p m e := by
  obtain ⟨parent, i, hParent, hChild, hNumber⟩ := h
  refine ⟨parent, i, ?_, hChild, hNumber⟩
  rw [List.getElem?_append_left (List.getElem?_eq_some_iff.mp hParent).1, hParent]

mutual

theorem exists_parent : ∀ (tree : Element) {m : Nat} {e : Element}, 0 < m → tree.preorder[m]? = some e →
    ∃ p, ChildIn tree.preorder p m e
  | ⟨tag, as, cs⟩, m, e => by
    intro hBelow h
    obtain ⟨m, rfl⟩ := Nat.exists_eq_succ_of_ne_zero (Nat.ne_of_gt hBelow)
    rcases exists_parent_all cs h with ⟨i, hChild, hNumber⟩ | ⟨p, hParent⟩
    · refine ⟨0, ⟨tag, as, cs⟩, i, rfl, hChild, ?_⟩
      rw [Nat.add_comm 0 1, numbersFrom_add, List.getElem?_map, hNumber]
      exact congrArg some (Nat.add_comm 1 m)
    · refine ⟨1 + p, ?_⟩
      have hShifted := hParent.shift [⟨tag, as, cs⟩]
      rwa [List.length_singleton, Nat.add_comm 1 m] at hShifted

/-- Among several trees an element is the root of one of them or the child of another element. -/
theorem exists_parent_all : ∀ (children : List Element) {m : Nat} {e : Element},
    (preorderAll children)[m]? = some e →
      (∃ i : Nat, children[i]? = some e ∧ (numbersFrom 0 children)[i]? = some m) ∨
        ∃ p, ChildIn (preorderAll children) p m e
  | [], m, e => by
    intro h
    simp [preorderAll] at h
  | child :: rest, m, e => by
    intro h
    rcases getElem?_preorderAll_cons h with ⟨-, hChild⟩ | ⟨j, rfl, hRest⟩
    · rcases Nat.eq_zero_or_pos m with rfl | hBelow
      · refine .inl ⟨0, ?_, rfl⟩
        obtain ⟨tag, as, cs⟩ := child
        exact hChild
      · obtain ⟨p, hParent⟩ := exists_parent child hBelow hChild
        exact .inr ⟨p, hParent.append _⟩
    · rcases exists_parent_all rest hRest with ⟨i, hRoot, hNumber⟩ | ⟨p, hParent⟩
      · refine .inl ⟨i + 1, hRoot, ?_⟩
        rw [numbersFrom, List.getElem?_cons_succ, Nat.zero_add, ← Nat.add_zero child.size, numbersFrom_add,
          List.getElem?_map, hNumber]
        rfl
      · refine .inr ⟨child.size + p, ?_⟩
        have hShifted := hParent.shift child.preorder
        rwa [length_preorder] at hShifted

end

end Pictogram.Element
