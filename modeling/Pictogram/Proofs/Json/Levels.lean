import Pictogram.Proofs.Json.RoundTrip

/-! # Trees that can be read

Every element opens a bracket for itself and one for each list that is written for it. An element on level 64
opens the last bracket that there is room for, so it can be read only if it needs no list. Writing always
opens the lists, and therefore needs one level more than reading.
-/
namespace Pictogram
set_option autoImplicit false

namespace Element

/-- The elements on a level of a tree. The root is on level 1. -/
def atLevel : Nat → Element → List Element
  | 0, _ => []
  | 1, e => [e]
  | n + 2, e => e.children.flatMap (atLevel (n + 1))

/-- A tree has no more than so many levels, and no attributes on the last of them. -/
def BareAt (room : Nat) (tree : Element) : Prop :=
  tree.levels ≤ room ∧ ∀ e ∈ tree.atLevel room, e.attributes = []

theorem bareAt_one_iff (tag : String) (attributes : List Attribute) (children : List Element) :
    BareAt 1 ⟨tag, attributes, children⟩ ↔ attributes = [] ∧ children = [] := by
  rw [BareAt, levels, atLevel, List.forall_mem_singleton, and_comm]
  apply and_congr_right
  intro _
  constructor
  · intro hLevels
    cases children with
    | nil => rfl
    | cons child rest =>
      have hPositive := levels_pos child
      rw [levelsAll] at hLevels
      omega
  · rintro rfl
    exact Nat.le_refl 1

theorem bareAt_succ_iff (room : Nat) (tag : String) (attributes : List Attribute) (children : List Element) :
    BareAt (room + 2) ⟨tag, attributes, children⟩ ↔ ∀ child ∈ children, child.BareAt (room + 1) := by
  rw [BareAt, levels, atLevel, Nat.add_le_add_iff_right, levelsAll_le_iff]
  simp only [List.mem_flatMap]
  constructor
  · rintro ⟨hLevels, hBare⟩ child hChild
    exact ⟨hLevels child hChild, fun e hMem => hBare e ⟨child, hChild, hMem⟩⟩
  · intro h
    refine ⟨fun child hChild => (h child hChild).1, ?_⟩
    rintro e ⟨child, hChild, hMem⟩
    exact (h child hChild).2 e hMem

end Element

namespace Json
open Format Element

/-! ## What a text of a record tells -/

theorem listFields_field {fields : List Field} {values : List (List Char)} (h : ListFields fields values) :
    ∀ f ∈ fields, f.Absent ∨ ∃ value, f.Form value := by
  induction values generalizing fields with
  | nil =>
    intro f hMem
    exact .inl ((listFields_nil fields).mp h f hMem)
  | cons value values ih =>
    cases fields with
    | nil => exact h.elim
    | cons f fields => exact List.forall_mem_cons.mpr ⟨.inr ⟨value, h.1⟩, ih h.2⟩

/-- Every field of a record was left out or written. -/
theorem recordText_field {fields : List Field} {text : List Char} (h : RecordText fields text) :
    ∀ f ∈ fields, f.Absent ∨ ∃ value, f.Form value := by
  rcases h with ⟨members, -, -, hFields⟩ | ⟨values, -, hFields⟩
  · intro f hMem
    rcases hFields f hMem with ⟨-, hAbsent⟩ | ⟨value, -, hForm⟩
    · exact .inl hAbsent
    · exact .inr ⟨value, hForm⟩
  · exact listFields_field hFields

/-- A list that was written had room for its bracket. -/
theorem lists_of_elementText {depth : Nat} {tag : String} {attributes : List Attribute} {children : List Element}
    {text : List Char} (h : ElementText depth ⟨tag, attributes, children⟩ text) :
    (attributes = [] ∨ depth + 2 < 128) ∧
      (children = [] ∨ depth + 2 < 128 ∧ ∀ child ∈ children, ∃ item, ElementText (depth + 2) child item) := by
  rw [elementText_iff] at h
  have hFields := recordText_field h.2
  simp only [elementFields, List.forall_mem_cons] at hFields
  obtain ⟨-, hAttributes, hChildren, -⟩ := hFields
  constructor
  · apply hAttributes.imp_right
    rintro ⟨_, hRoom, -⟩
    exact hRoom
  · apply hChildren.imp_right
    rintro ⟨_, hRoom, items, hItems, -⟩
    refine ⟨hRoom, fun child hMem => ?_⟩
    obtain ⟨n, hGet⟩ := List.mem_iff_getElem?.mp hMem
    obtain ⟨item, -, hItem⟩ := forall₂_getElem? hItems.flip hGet
    exact ⟨item, hItem⟩

/-! ## Texts with no list that is not needed -/

theorem exists_forall₂ {α β : Type} {R : α → β → Prop} {as : List α} (h : ∀ a ∈ as, ∃ b, R a b) :
    ∃ bs, List.Forall₂ R as bs := by
  induction as with
  | nil => exact ⟨[], .nil⟩
  | cons a as ih =>
    rw [List.forall_mem_cons] at h
    obtain ⟨b, hHead⟩ := h.1
    obtain ⟨bs, hTail⟩ := ih h.2
    exact ⟨b :: bs, .cons hHead hTail⟩

theorem elementText_bare {depth : Nat} (tag : String) (hDepth : depth + 1 < 128) :
    ElementText depth ⟨tag, [], []⟩ (writeItems [writeString tag]) := by
  rw [elementText_iff]
  refine ⟨hDepth, .inr ⟨_, arrayText_writeItems _, stringText_writeString tag, ?_⟩⟩
  rw [listFields_nil]
  simp

theorem elementText_full {depth : Nat} (tag : String) (attributes : List Attribute) {children : List Element}
    (hDepth : depth + 3 < 128) (h : ∀ child ∈ children, ∃ item, ElementText (depth + 2) child item) :
    ∃ text, ElementText depth ⟨tag, attributes, children⟩ text := by
  obtain ⟨items, hItems⟩ := exists_forall₂ h
  have hAttributes : AttributesText (depth + 1) attributes (writeItems (attributes.map writeAttribute)) :=
    attributesText_written attributes (by omega)
  have hChildren : ChildrenText (depth + 1) children (writeItems items) :=
    ⟨by omega, items, hItems, arrayText_writeItems items⟩
  refine ⟨writeItems [writeString tag, writeItems (attributes.map writeAttribute), writeItems items], ?_⟩
  rw [elementText_iff]
  refine ⟨by omega, .inr ⟨_, arrayText_writeItems _, stringText_writeString tag, hAttributes, hChildren, ?_⟩⟩
  rw [listFields_nil]
  simp

/-- Inside `level` levels a tree has a text exactly if it is bare on the last level that there is room for. -/
theorem exists_elementText_iff (tree : Element) (level room : Nat) (hRoom : level + room = 64) :
    (∃ text, ElementText (2 * level) tree text) ↔ tree.BareAt room := by
  induction tree using Element.induction generalizing level room with
  | node tag attributes children ih =>
    match room with
    | 0 =>
      constructor
      · rintro ⟨text, hText⟩
        have hDepth := ((elementText_iff _ _ _ _ _).mp hText).1
        omega
      · rintro ⟨hLevels, -⟩
        exact absurd (levels_pos _) (Nat.not_lt.mpr hLevels)
    | 1 =>
      rw [bareAt_one_iff]
      constructor
      · rintro ⟨text, hText⟩
        obtain ⟨hAttributes, hChildren⟩ := lists_of_elementText hText
        exact ⟨hAttributes.resolve_right (by omega), hChildren.resolve_right (by omega)⟩
      · rintro ⟨rfl, rfl⟩
        exact ⟨_, elementText_bare tag (by omega)⟩
    | room + 2 =>
      rw [bareAt_succ_iff]
      have hBelow (child : Element) (hMem : child ∈ children) :
          (∃ item, ElementText (2 * level + 2) child item) ↔ child.BareAt (room + 1) :=
        ih child hMem (level + 1) (room + 1) (by omega)
      constructor
      · rintro ⟨text, hText⟩ child hMem
        rcases (lists_of_elementText hText).2 with rfl | ⟨-, hItems⟩
        · cases hMem
        · exact (hBelow child hMem).mp (hItems child hMem)
      · intro h
        apply elementText_full tag attributes (by omega)
        intro child hMem
        exact (hBelow child hMem).mpr (h child hMem)

/-! ## Reading and writing -/

theorem exists_presents_iff (tree : Element) : (∃ text, Presents tree text) ↔ tree.BareAt 64 := by
  rw [← exists_elementText_iff tree 0 64 rfl]
  constructor
  · rintro ⟨text, before, value, after, -, hValue, -⟩
    exact ⟨value, hValue⟩
  · rintro ⟨value, hValue⟩
    exact ⟨value, [], value, [], blanks_nil, hValue, blanks_nil, by simp⟩

theorem exists_read_iff (tree : Element) : (∃ text, read text = .ok tree) ↔ tree.BareAt 64 := by
  rw [← exists_presents_iff]
  constructor
  · rintro ⟨text, hText⟩
    exact ⟨text, State.presents_of_run ((read_eq_ok_iff text tree).mp hText)⟩
  · rintro ⟨text, hText⟩
    exact ⟨text, (read_eq_ok_iff text tree).mpr (State.run_of_presents hText)⟩

/-- Which trees are read from some text, and which of them are not read from the text that is written for
them. -/
theorem exists_ofJson_iff (tree : Element) :
    ((∃ text, Element.ofJson text = .ok tree) ↔
      tree.levels ≤ 64 ∧ ∀ e ∈ tree.atLevel 64, e.attributes = []) ∧
      ∀ text, Element.ofJson text = .ok tree →
        tree.levels ≤ 63 ∧ Element.ofJson tree.json = .ok tree ∨
          tree.levels = 64 ∧ Element.ofJson tree.json = .error .malformed := by
  have hReadable : (∃ text, Element.ofJson text = .ok tree) ↔ tree.BareAt 64 := by
    rw [← exists_read_iff]
    constructor
    · rintro ⟨text, hText⟩
      exact ⟨text.toList, hText⟩
    · rintro ⟨text, hText⟩
      exact ⟨String.ofList text, by rwa [Element.ofJson, String.toList_ofList]⟩
  refine ⟨hReadable, fun text hText => ?_⟩
  have hLevels := (hReadable.mp ⟨text, hText⟩).1
  rw [Element.ofJson, Element.json, String.toList_ofList]
  rcases Nat.lt_or_ge tree.levels 64 with hLess | hFull
  · exact .inl ⟨by omega, read_write (by omega)⟩
  · exact .inr ⟨by omega, read_write_overfull hFull⟩

/-- An element above so many others, each the only child of the one before. -/
def tower : Nat → Element
  | 0 => ⟨"g", [], []⟩
  | n + 1 => ⟨"g", [], [tower n]⟩

theorem levels_tower (n : Nat) : (tower n).levels = n + 1 := by
  induction n with
  | zero => rfl
  | succ n ih => rw [tower, levels, levelsAll, ih, levelsAll, Nat.max_zero]

theorem bareAt_tower (n : Nat) : (tower n).BareAt (n + 1) := by
  induction n with
  | zero => exact (bareAt_one_iff "g" [] []).mpr ⟨rfl, rfl⟩
  | succ n ih => exact (bareAt_succ_iff n "g" [] [tower n]).mpr (List.forall_mem_singleton.mpr ih)

/-- There is a text that is read as a tree whose own text is refused. -/
theorem exists_ofJson_tower :
    (∃ text, Element.ofJson text = .ok (tower 63)) ∧ Element.ofJson (tower 63).json = .error .malformed := by
  have hLevels : (tower 63).levels = 64 := levels_tower 63
  obtain ⟨hReadable, hWritten⟩ := exists_ofJson_iff (tower 63)
  obtain ⟨text, hText⟩ := hReadable.mpr (bareAt_tower 63)
  refine ⟨⟨text, hText⟩, ?_⟩
  rcases hWritten text hText with ⟨hLess, -⟩ | ⟨-, hRefused⟩
  · omega
  · exact hRefused

end Json
end Pictogram
