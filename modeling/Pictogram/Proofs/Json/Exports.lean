import Pictogram.Export
import Pictogram.Proofs.Json.Denotation
import Pictogram.Proofs.Json.RoundTrip

/-! # The two exports of a tree

The object of a tree repeats every tag, attribute and child of it and holds nothing else. The text of the tree is
written without a limit of nesting, and it denotes that object and no other value.
-/
namespace Pictogram.Json
set_option autoImplicit false
open Format

/-- An object says what a tree is made of: its members are the tag, the attributes as objects with a name and a
value, and the objects of the children, all in order. -/
inductive Mirrors : Element → Value → Prop
  | record {tag : String} {attributes : List Attribute} {children : List Element} {values : List Value}
      (hChildren : List.Forall₂ Mirrors children values) :
      Mirrors ⟨tag, attributes, children⟩
        (.object [("tag", .string tag),
          ("attributes", .list (attributes.map fun a =>
            .object [("name", .string a.name), ("value", .string a.value)])),
          ("children", .list values)])

theorem ofElements_eq_map (es : List Element) : Value.ofElements es = es.map Value.ofElement := by
  induction es with
  | nil => rfl
  | cons e es ih => rw [Value.ofElements, ih, List.map_cons]

theorem mirrors_ofElement (e : Element) : Mirrors e (.ofElement e) := by
  induction e using Element.induction with
  | node tag attributes children ih =>
    rw [Value.ofElement, ofElements_eq_map]
    apply Mirrors.record
    rwa [List.forall₂_map_right_iff, List.forall₂_same]

/-! ## Texts that are written -/

theorem denotes_writeString (s : String) : Denotes (.string s) (writeString s) :=
  .string (stringText_writeString s)

theorem denotes_writeItems {α : Type} (value : α → Value) (text : α → List Char) (as : List α)
    (h : ∀ a ∈ as, Denotes (value a) (text a)) : Denotes (.list (as.map value)) (writeItems (as.map text)) := by
  have hItems := @Denotes.list (as.map fun a => (value a, text a)) (writeItems (as.map text))
  simp only [List.forall_mem_map, List.map_map, Function.comp_def] at hItems
  exact hItems h (arrayText_writeItems _)

theorem denotes_writeAttribute (a : Attribute) : Denotes (.ofAttribute a) (writeAttribute a) := by
  refine @Denotes.object [("name", .string a.name, writeString a.name), ("value", .string a.value, writeString a.value)]
    _ ?_ (objectText_writeAttribute a)
  simp only [List.forall_mem_cons]
  exact ⟨denotes_writeString a.name, denotes_writeString a.value, by simp⟩

theorem denotes_write (e : Element) : Denotes (.ofElement e) (write e) := by
  induction e using Element.induction with
  | node tag attributes children ih =>
    rw [Value.ofElement, ofElements_eq_map]
    have hAttributes := denotes_writeItems _ _ attributes fun a _ => denotes_writeAttribute a
    have hChildren := denotes_writeItems _ _ children ih
    refine @Denotes.object [("tag", .string tag, writeString tag), ("attributes", _, _), ("children", _, _)]
      _ ?_ (objectText_write tag attributes children)
    simp only [List.forall_mem_cons]
    exact ⟨denotes_writeString tag, hAttributes, hChildren, by simp⟩

theorem means_json (e : Element) : Means e.json.toList (.ofElement e) := by
  rw [Element.json, String.toList_ofList]
  exact ⟨[], write e, [], blanks_nil, denotes_write e, blanks_nil, by simp⟩

/-- Both exports of a tree succeed and log nothing. The text is one of the format and denotes the object. -/
theorem exports_agree (context context' : String) (tree : Element) :
    ∃ value text, Export.object context (.tree tree) = ⟨.ok value, []⟩ ∧
      Export.text context' (.tree tree) = ⟨.ok text, []⟩ ∧ Mirrors tree value ∧ ValueText text.toList ∧
      ∀ other, Means text.toList other ↔ other = value := by
  refine ⟨.ofElement tree, tree.json, rfl, rfl, mirrors_ofElement tree, ?_, ?_⟩
  · rw [Element.json, String.toList_ofList]
    exact (denotes_write tree).valueText
  · intro other
    constructor
    · intro h
      exact h.unique (means_json tree)
    · rintro rfl
      exact means_json tree

end Pictogram.Json
