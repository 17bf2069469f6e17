import Mathlib.Tactic.TFAE
import Pictogram.Element.Inspect
import Pictogram.Proofs.Json.RoundTrip
import Pictogram.Proofs.Text.Quoted

/-! # Texts that tell trees apart

The JSON text of a tree and both of its inspections are delimited, whatever its depth and its strings. In the
indented one the lines of a list begin with more blanks than the line of its closing bracket.
-/
namespace Pictogram
set_option autoImplicit false
open Text

/-! ## JSON -/

namespace Json

/-- The character that an escape stands for, read from behind its backslash. -/
def readEscape : List Char → Option (Char × List Char)
  | 'u' :: a :: b :: c :: d :: rest => (Hex.unit? [a, b, c, d]).map fun n => (Char.ofNat n, rest)
  | letter :: rest => (shortEscape? letter).map (·, rest)
  | [] => none

theorem readChar_writeChar (c : Char) (rest : List Char) :
    readChar readEscape (writeChar c ++ rest) = some (c, rest) := by
  unfold writeChar
  split
  · rfl
  · rfl
  · rfl
  · rfl
  · rfl
  · rfl
  · rfl
  · rename_i hQuote hBackslash _ _ _ _ _
    split
    · rename_i hControl
      have hEscape (a b c d : Char) (rest : List Char) : readChar readEscape (['\\', 'u', a, b, c, d] ++ rest) =
          (Hex.unit? [a, b, c, d]).map fun n => (Char.ofNat n, rest) := rfl
      rw [hEscape, (unit?_eq_some_iff _ _).mpr (unitText_control hControl), Option.map_some, Char.ofNat_toNat]
    · exact readChar_plain (fun h => hQuote h) (fun h => hBackslash h) rest

theorem delimited_writeString (s : String) : Delimited writeString s :=
  delimited_quoted readChar_writeChar s

theorem writeItems_eq (items : List (List Char)) : writeItems items = bracketed [','] items := by
  cases items <;> simp [writeItems, bracketed]

theorem delimited_writeItems {α : Type} {text : α → List Char} {as : List α} (h : ∀ a ∈ as, Delimited text a)
    (hText : ∀ a x y, text a ++ x ≠ ']' :: y) : Delimited (fun bs => writeItems (bs.map text)) as :=
  (delimited_bracketed h (by simp) hText).congr fun bs => writeItems_eq (bs.map text)

theorem delimited_writeAttribute (a : Attribute) : Delimited writeAttribute a :=
  delimited_attribute delimited_writeString "\x7b\"name\":".toList ",\"value\":".toList ['}'] a

theorem writeAttribute_append_ne (a : Attribute) (x y : List Char) : writeAttribute a ++ x ≠ ']' :: y := by
  rw [writeAttribute_eq]
  intro h
  cases h

theorem write_append_ne (e : Element) (x y : List Char) : write e ++ x ≠ ']' :: y := by
  obtain ⟨tag, attributes, children⟩ := e
  rw [write_eq]
  intro h
  cases h

theorem delimited_write (e : Element) : Delimited write e := by
  induction e using Element.induction with
  | node tag attributes children ih =>
    have hAttributes : Delimited (fun as => writeItems (as.map writeAttribute)) attributes :=
      delimited_writeItems (fun a _ => delimited_writeAttribute a) writeAttribute_append_ne
    have hChildren : Delimited (fun es => writeItems (writeAll es)) children :=
      (delimited_writeItems ih write_append_ne).congr fun es => by rw [writeAll_eq_map]
    have hFields := delimited_element (delimited_writeString tag) hAttributes hChildren "\x7b\"tag\":".toList
      ",\"attributes\":".toList ",\"children\":".toList ['}']
    apply hFields.congr
    rintro ⟨tag, attributes, children⟩
    rfl

end Json

/-! ## Inspection -/

namespace Inspect

theorem delimited_text (s : String) : Delimited text s :=
  Quoted.delimited_encode s

/-! ### On a single line -/

theorem flatItems_eq (items : List (List Char)) : flatItems items = bracketed ", ".toList items := by
  cases items <;> simp [flatItems, bracketed]

theorem delimited_flatItems {α : Type} {text : α → List Char} {as : List α} (h : ∀ a ∈ as, Delimited text a)
    (hText : ∀ a x y, text a ++ x ≠ ']' :: y) : Delimited (fun bs => flatItems (bs.map text)) as :=
  (delimited_bracketed h (by simp) hText).congr fun bs => flatItems_eq (bs.map text)

theorem delimited_flatAttribute (a : Attribute) : Delimited flatAttribute a :=
  delimited_attribute delimited_text "Attribute \x7b name: ".toList ", value: ".toList " \x7d".toList a

theorem flatAttribute_append_ne (a : Attribute) (x y : List Char) : flatAttribute a ++ x ≠ ']' :: y := by
  intro h
  cases h

theorem flat_append_ne (e : Element) (x y : List Char) : flat e ++ x ≠ ']' :: y := by
  obtain ⟨tag, attributes, children⟩ := e
  intro h
  cases h

theorem flatAll_eq_map (es : List Element) : flatAll es = es.map flat := by
  induction es with
  | nil => rfl
  | cons e es ih => rw [flatAll, ih, List.map_cons]

theorem delimited_flat (e : Element) : Delimited flat e := by
  induction e using Element.induction with
  | node tag attributes children ih =>
    have hAttributes : Delimited (fun as => flatItems (as.map flatAttribute)) attributes :=
      delimited_flatItems (fun a _ => delimited_flatAttribute a) flatAttribute_append_ne
    have hChildren : Delimited (fun es => flatItems (flatAll es)) children :=
      (delimited_flatItems ih flat_append_ne).congr fun es => by rw [flatAll_eq_map]
    have hFields := delimited_element (delimited_text tag) hAttributes hChildren "SvgElement \x7b tag: ".toList
      ", attributes: ".toList ", children: ".toList " \x7d".toList
    apply hFields.congr
    rintro ⟨tag, attributes, children⟩
    rfl

/-! ### On lines of their own -/

theorem margin_succ (depth : Nat) : margin (depth + 1) = margin depth ++ "    ".toList := by
  rw [margin, margin, Nat.mul_succ, List.replicate_add]
  rfl

theorem delimited_indentedItems {α : Type} {text : α → List Char} {as : List α} {depth : Nat}
    (h : ∀ a ∈ as, Delimited text a) : Delimited (fun bs => indentedItems depth (bs.map text)) as := by
  have hClose (a : α) (x y : List Char) : line (depth + 1) (text a) ++ x ≠ margin depth ++ [']'] ++ y := by
    simp [line, margin_succ]
  have hLines := Delimited.flatMap (fun a hMem => (h a hMem).wrap (margin (depth + 1)) [',', '\n']) hClose
  rintro bs x y hSame
  cases as with
  | nil =>
    cases bs with
    | nil => exact ⟨rfl, List.append_cancel_left hSame⟩
    | cons b bs => cases hSame
  | cons a as =>
    cases bs with
    | nil => cases hSame
    | cons b bs =>
      apply hLines (b :: bs) x y
      simpa [indentedItems, block, line, List.flatMap_map] using hSame

/-- What stands before the content of a field. -/
def lead (depth : Nat) (name : String) : List Char :=
  margin depth ++ (name.toList ++ [':', ' '])

theorem field_eq (depth : Nat) (name : String) (content : List Char) :
    field depth name content = lead depth name ++ (content ++ [',', '\n']) := by
  simp [field, line, lead]

theorem delimited_indentedAttribute (depth : Nat) (a : Attribute) : Delimited (indentedAttribute depth) a := by
  have hFields := delimited_attribute delimited_text ("Attribute \x7b".toList ++ '\n' :: lead (depth + 1) "name")
    (',' :: '\n' :: lead (depth + 1) "value") (',' :: '\n' :: (margin depth ++ ['}'])) a
  apply hFields.congr
  intro b
  simp only [indentedAttribute, block, field_eq, List.append_assoc, List.cons_append, List.nil_append]

theorem indentedAll_eq_map (depth : Nat) (es : List Element) : indentedAll depth es = es.map (indented depth) := by
  induction es with
  | nil => rfl
  | cons e es ih => rw [indentedAll, ih, List.map_cons]

theorem delimited_indented (depth : Nat) (e : Element) : Delimited (indented depth) e := by
  induction e using Element.induction generalizing depth with
  | node tag attributes children ih =>
    have hAttributes :
        Delimited (fun as => indentedItems (depth + 1) (as.map (indentedAttribute (depth + 2)))) attributes :=
      delimited_indentedItems fun a _ => delimited_indentedAttribute (depth + 2) a
    have hChildren : Delimited (fun es => indentedItems (depth + 1) (indentedAll (depth + 2) es)) children :=
      (delimited_indentedItems fun child hMem => ih child hMem (depth + 2)).congr
        fun es => by rw [indentedAll_eq_map]
    have hFields := delimited_element (delimited_text tag) hAttributes hChildren
      ("SvgElement \x7b".toList ++ '\n' :: lead (depth + 1) "tag") (',' :: '\n' :: lead (depth + 1) "attributes")
      (',' :: '\n' :: lead (depth + 1) "children") (',' :: '\n' :: (margin depth ++ ['}']))
    apply hFields.congr
    rintro ⟨tag, attributes, children⟩
    simp only [indented, block, field_eq, List.append_assoc, List.cons_append, List.nil_append]

end Inspect

/-! ## All three -/

namespace Element

theorem json_injective : Function.Injective json :=
  fun a _ h => (Json.delimited_write a).eq_of_text_eq (String.ofList_injective h)

theorem inspect_injective : Function.Injective inspect :=
  fun a _ h => (Inspect.delimited_flat a).eq_of_text_eq (String.ofList_injective h)

theorem inspectIndented_injective : Function.Injective inspectIndented :=
  fun a _ h => (Inspect.delimited_indented 0 a).eq_of_text_eq (String.ofList_injective h)

/-- Two trees agree in every field if and only if they have the same JSON text, and if and only if they have the
same inspection, on a single line or indented. -/
theorem same_tfae_texts (a b : Element) :
    [a.same b = true, a.json = b.json, a.inspect = b.inspect, a.inspectIndented = b.inspectIndented].TFAE := by
  tfae_have 1 ↔ 2 := (same_iff a b).trans json_injective.eq_iff.symm
  tfae_have 1 ↔ 3 := (same_iff a b).trans inspect_injective.eq_iff.symm
  tfae_have 1 ↔ 4 := (same_iff a b).trans inspectIndented_injective.eq_iff.symm
  tfae_finish

end Element
end Pictogram
