import Pictogram.Element.Basic

/-! # Document order

Elements are numbered in preorder, the root with 0. `Element.search` finds the descendants with a tag by
walking the tree with the number of the next element; `Element.preorder` lists the elements themselves.
-/
namespace Pictogram.Element
set_option autoImplicit false

mutual

def size : Element → Nat
  | ⟨_, _, children⟩ => sizeAll children + 1

def sizeAll : List Element → Nat
  | [] => 0
  | child :: rest => child.size + sizeAll rest

end

mutual

/-- How many elements lie on the longest way from the root down; a childless tree has one level. -/
def levels : Element → Nat
  | ⟨_, _, children⟩ => levelsAll children + 1

def levelsAll : List Element → Nat
  | [] => 0
  | child :: rest => max child.levels (levelsAll rest)

end

theorem levels_pos (e : Element) : 0 < e.levels := by
  obtain ⟨tag, attributes, children⟩ := e
  rw [levels]
  omega

theorem levelsAll_le_iff (es : List Element) (n : Nat) : levelsAll es ≤ n ↔ ∀ e ∈ es, e.levels ≤ n := by
  induction es with
  | nil => simp [levelsAll]
  | cons e es ih => rw [levelsAll, Nat.max_le, ih, List.forall_mem_cons]

mutual

/-- All elements of a tree, each before its children. -/
def preorder : Element → List Element
  | ⟨tag, attributes, children⟩ => ⟨tag, attributes, children⟩ :: preorderAll children

def preorderAll : List Element → List Element
  | [] => []
  | child :: rest => child.preorder ++ preorderAll rest

end

theorem preorderAll_eq_flatMap (es : List Element) : preorderAll es = es.flatMap preorder := by
  induction es with
  | nil => rfl
  | cons e es ih => rw [preorderAll, ih, List.flatMap_cons]

mutual

theorem length_preorder : ∀ e : Element, e.preorder.length = e.size
  | ⟨_, _, children⟩ => by simp [preorder, size, length_preorderAll children]

theorem length_preorderAll : ∀ es : List Element, (preorderAll es).length = sizeAll es
  | [] => rfl
  | child :: rest => by
    simp [preorderAll, sizeAll, length_preorder child, length_preorderAll rest]

end

mutual

/-- The elements called `tag` strictly below an element that has number `number`. -/
def searchBelow (tag : String) (number : Nat) : Element → List (Nat × Element)
  | ⟨_, _, children⟩ => searchAll tag (number + 1) children

def searchAll (tag : String) (number : Nat) : List Element → List (Nat × Element)
  | [] => []
  | child :: rest =>
    (if child.tag = tag then [(number, child)] else []) ++ searchBelow tag number child
      ++ searchAll tag (number + child.size) rest

end

/-- The descendants called `tag` in document order, each with its number; the root is not among them. -/
def search (e : Element) (tag : String) : List (Nat × Element) :=
  searchBelow tag 0 e

end Pictogram.Element
