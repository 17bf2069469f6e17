import Mathlib.Data.List.Basic
import Pictogram.Proofs.Markup.Unambiguous

/-! # Values stay between their quotes

Where no name holds a quote, the quotes of a text of markup are those around the values. Cutting the text at
them gives back the values, and what is left is the same whatever the values are.
-/
namespace Pictogram
set_option autoImplicit false

/-! ## Names and values of a whole tree -/

namespace Element

/-- The attributes of all elements in document order. -/
def allAttributes (tree : Element) : List Attribute :=
  tree.preorder.flatMap (·.attributes)

mutual

/-- A tree with every value left empty. Trees of one outline differ in nothing but values. -/
def outline : Element → Element
  | ⟨tag, attributes, children⟩ => ⟨tag, attributes.map fun a => ⟨a.name, ""⟩, outlineAll children⟩

def outlineAll : List Element → List Element
  | [] => []
  | child :: rest => child.outline :: outlineAll rest

end

theorem outlineAll_eq_map (es : List Element) : outlineAll es = es.map outline := by
  induction es with
  | nil => rfl
  | cons e es ih => rw [outlineAll, ih, List.map_cons]

theorem allAttributes_eq (tag : String) (attributes : List Attribute) (children : List Element) :
    allAttributes ⟨tag, attributes, children⟩ = attributes ++ children.flatMap allAttributes := by
  rw [allAttributes, preorder, preorderAll_eq_flatMap, List.flatMap_cons, List.flatMap_assoc]
  rfl

theorem preorder_outline (e : Element) : e.outline.preorder = e.preorder.map outline := by
  induction e using Element.induction with
  | node tag attributes children ih =>
    simp only [outline, preorder, preorderAll_eq_flatMap, outlineAll_eq_map, List.map_cons, List.map_flatMap,
      List.flatMap_map]
    congr 1
    exact List.flatMap_congr ih

end Element

namespace Markup
open Text

/-- The names of an element hold no quote. -/
def QuotelessTag (e : Element) : Prop :=
  '"' ∉ e.tag.toList ∧ ∀ a ∈ e.attributes, '"' ∉ a.name.toList

instance (e : Element) : Decidable (QuotelessTag e) :=
  inferInstanceAs (Decidable ('"' ∉ e.tag.toList ∧ ∀ a ∈ e.attributes, '"' ∉ a.name.toList))

/-- No tag and no attribute name of a tree holds a quote. -/
def Quoteless (tree : Element) : Prop :=
  ∀ e ∈ tree.preorder, QuotelessTag e

instance (tree : Element) : Decidable (Quoteless tree) :=
  inferInstanceAs (Decidable (∀ e ∈ tree.preorder, QuotelessTag e))

theorem quoteless_iff (tag : String) (attributes : List Attribute) (children : List Element) :
    Quoteless ⟨tag, attributes, children⟩ ↔
      QuotelessTag ⟨tag, attributes, children⟩ ∧ ∀ child ∈ children, Quoteless child := by
  simp only [Quoteless, Element.preorder, Element.preorderAll_eq_flatMap, List.forall_mem_cons, List.mem_flatMap]
  apply and_congr_right
  intro _
  constructor
  · intro h child hChild e hMem
    exact h e ⟨child, hChild, hMem⟩
  · rintro h e ⟨child, hChild, hMem⟩
    exact h child hChild e hMem

theorem quotelessTag_outline (e : Element) : QuotelessTag e.outline ↔ QuotelessTag e := by
  obtain ⟨tag, attributes, children⟩ := e
  simp [QuotelessTag, Element.outline]

theorem quoteless_outline (tree : Element) : Quoteless tree.outline ↔ Quoteless tree := by
  simp [Quoteless, Element.preorder_outline, quotelessTag_outline]

/-! ## Cutting at the quotes -/

/-- The pieces of a text between its quotes. The first piece stands outside of the quotes. -/
def cut (text : List Char) : List (List Char) :=
  text.splitOn '"'

mutual

/-- Every other piece from the first one on. -/
def outside : List (List Char) → List (List Char)
  | [] => []
  | piece :: rest => piece :: inside rest

/-- Every other piece from the second one on. -/
def inside : List (List Char) → List (List Char)
  | [] => []
  | _ :: rest => outside rest

end

theorem outside_modifyHead (f : List Char → List Char) (pieces : List (List Char)) :
    outside (pieces.modifyHead f) = (outside pieces).modifyHead f := by
  cases pieces <;> rfl

theorem inside_modifyHead (f : List Char → List Char) (pieces : List (List Char)) :
    inside (pieces.modifyHead f) = inside pieces := by
  cases pieces <;> rfl

theorem cut_append {part : List Char} (h : '"' ∉ part) (rest : List Char) :
    cut (part ++ rest) = (cut rest).modifyHead (part ++ ·) := by
  induction part with
  | nil => cases hRest : cut rest <;> simp [hRest]
  | cons c part ih =>
    rw [List.mem_cons, not_or] at h
    have hTail := ih h.2
    have hQuote : (c == '"') = false := beq_eq_false_iff_ne.mpr (Ne.symm h.1)
    rw [cut] at hTail ⊢
    rw [List.cons_append, List.splitOn_cons_eq_if_modifyHead, hQuote, hTail]
    cases hRest : cut rest <;> simp

theorem cut_quoted {value : List Char} (h : '"' ∉ value) (rest : List Char) :
    cut ('"' :: (value ++ '"' :: rest)) = [] :: value :: cut rest := by
  have hOpen := List.splitOn_append_cons_self_of_not_mem (List.not_mem_nil (a := '"')) (value ++ '"' :: rest)
  rw [List.nil_append] at hOpen
  rw [cut, hOpen, List.splitOn_append_cons_self_of_not_mem h]
  rfl

/-- Two texts that differ at most between their quotes, where the first one has the values `values`. What
follows either of them begins outside of the quotes. -/
structure Framed (values : List (List Char)) (text other : List Char) : Prop where
  outside_eq : ∀ rest rest', outside (cut rest) = outside (cut rest') →
    outside (cut (text ++ rest)) = outside (cut (other ++ rest'))
  inside_eq : ∀ rest, inside (cut (text ++ rest)) = values ++ inside (cut rest)
  length_eq : ∀ rest, (cut (text ++ rest)).length = 2 * values.length + (cut rest).length

theorem framed_plain {part : List Char} (h : '"' ∉ part) : Framed [] part part where
  outside_eq rest rest' hRest := by
    rw [cut_append h, cut_append h, outside_modifyHead, outside_modifyHead, hRest]
  inside_eq rest := by
    rw [cut_append h, inside_modifyHead, List.nil_append]
  length_eq rest := by
    rw [cut_append h, List.length_modifyHead, List.length_nil, Nat.mul_zero, Nat.zero_add]

theorem framed_quoted {value other : List Char} (h : '"' ∉ value) (hOther : '"' ∉ other) :
    Framed [value] ('"' :: (value ++ ['"'])) ('"' :: (other ++ ['"'])) where
  outside_eq rest rest' hRest := by
    simp only [List.cons_append, List.append_assoc, List.nil_append]
    rw [cut_quoted h, cut_quoted hOther]
    exact congrArg (List.cons []) hRest
  inside_eq rest := by
    simp only [List.cons_append, List.append_assoc, List.nil_append]
    rw [cut_quoted h]
    rfl
  length_eq rest := by
    simp only [List.cons_append, List.append_assoc, List.nil_append]
    rw [cut_quoted h, List.length_cons, List.length_cons, List.length_singleton]
    omega

theorem Framed.append {values values' : List (List Char)} {text text' other other' : List Char}
    (h : Framed values text other) (h' : Framed values' text' other') :
    Framed (values ++ values') (text ++ text') (other ++ other') where
  outside_eq rest rest' hRest := by
    rw [List.append_assoc, List.append_assoc]
    exact h.outside_eq _ _ (h'.outside_eq rest rest' hRest)
  inside_eq rest := by
    rw [List.append_assoc, h.inside_eq, h'.inside_eq, List.append_assoc]
  length_eq rest := by
    rw [List.append_assoc, h.length_eq, h'.length_eq, List.length_append]
    omega

theorem framed_flatMap {α : Type} {values : α → List (List Char)} {text other : α → List Char} {items : List α}
    (h : ∀ item ∈ items, Framed (values item) (text item) (other item)) :
    Framed (items.flatMap values) (items.flatMap text) (items.flatMap other) := by
  induction items with
  | nil => exact framed_plain (List.not_mem_nil)
  | cons item items ih =>
    rw [List.forall_mem_cons] at h
    exact h.1.append (ih h.2)

/-! ## Markup -/

theorem framed_writeAttribute {a : Attribute} (h : '"' ∉ a.name.toList) :
    Framed [Entity.encode a.value.toList] (writeAttribute a) (writeAttribute ⟨a.name, ""⟩) := by
  have hName : '"' ∉ ' ' :: (a.name.toList ++ ['=']) := by
    simp [h]
  have hQuoted := framed_quoted (Entity.quote_notMem_encode a.value.toList) (Entity.quote_notMem_encode [])
  simpa [writeAttribute] using (framed_plain hName).append hQuoted

theorem framed_writeAttributes {attributes : List Attribute} (h : ∀ a ∈ attributes, '"' ∉ a.name.toList) :
    Framed (attributes.map fun a => Entity.encode a.value.toList) (writeAttributes attributes)
      (writeAttributes (attributes.map fun a => ⟨a.name, ""⟩)) := by
  have hAll := framed_flatMap fun a hMem => framed_writeAttribute (h a hMem)
  rw [← List.map_eq_flatMap] at hAll
  rwa [writeAttributes, writeAttributes, List.flatMap_map]

theorem writeAll_eq_flatMap (es : List Element) : writeAll es = es.flatMap write := by
  induction es with
  | nil => rfl
  | cons e es ih => rw [writeAll, ih, List.flatMap_cons]

theorem write_eq_body (tag : String) (attributes : List Attribute) (children : List Element) :
    write ⟨tag, attributes, children⟩ =
      '<' :: tag.toList ++ (writeAttributes attributes ++ writeBody tag children) := by
  have h := write_append tag attributes children []
  simpa using h

/-- The values of a tree as they stand in its markup. -/
def written (tree : Element) : List (List Char) :=
  tree.allAttributes.map fun a => Entity.encode a.value.toList

theorem framed_writeBody {tag : String} {children : List Element} (hTag : '"' ∉ tag.toList)
    (h : ∀ child ∈ children, Framed (written child) (write child) (write child.outline)) :
    Framed (children.flatMap written) (writeBody tag children) (writeBody tag (children.map Element.outline)) := by
  cases children with
  | nil => exact @framed_plain ['/', '>'] (by decide)
  | cons child rest =>
    have hClosing : '"' ∉ '<' :: '/' :: (tag.toList ++ ['>']) := by
      simp [hTag]
    have hChildren := (framed_flatMap h).append (framed_plain hClosing)
    have hBody := (@framed_plain ['>'] (by decide)).append hChildren
    rw [List.nil_append, List.append_nil] at hBody
    rwa [writeBody, List.map_cons, writeBody, ← List.map_cons, writeAll_eq_flatMap, writeAll_eq_flatMap,
      List.flatMap_map]

/-- The markup of a tree differs from that of its outline only between the quotes. -/
theorem framed_write (tree : Element) (h : Quoteless tree) :
    Framed (written tree) (write tree) (write tree.outline) := by
  induction tree using Element.induction with
  | node tag attributes children ih =>
    obtain ⟨⟨hTag, hNames⟩, hChildren⟩ := (quoteless_iff tag attributes children).mp h
    have hOpening : '"' ∉ '<' :: tag.toList := by
      simpa using hTag
    have hBody := framed_writeBody hTag fun child hMem => ih child hMem (hChildren child hMem)
    have hAll := (framed_plain hOpening).append ((framed_writeAttributes hNames).append hBody)
    rw [List.nil_append] at hAll
    rw [write_eq_body, Element.outline, write_eq_body, Element.outlineAll_eq_map, written, Element.allAttributes_eq,
      List.map_append, List.map_flatMap]
    exact hAll

/-! ## Values in their quotes -/

def entities : List (List Char) :=
  ["&lt;".toList, "&gt;".toList, "&amp;".toList, "&apos;".toList, "&quot;".toList]

/-- No angle bracket and no apostrophe stands in the text, and every ampersand begins an entity. -/
def Escaped (text : List Char) : Prop :=
  '<' ∉ text ∧ '>' ∉ text ∧ '\'' ∉ text ∧
    ∀ before after, text = before ++ '&' :: after → ∃ entity ∈ entities, entity <+: '&' :: after

theorem encodeChar_cases (c : Char) :
    Entity.encodeChar c ∈ entities ∨ Entity.encodeChar c = [c] ∧ c ∉ ['<', '>', '&', '\'', '"'] := by
  unfold Entity.encodeChar
  split
  · exact .inl (by decide)
  · exact .inl (by decide)
  · exact .inl (by decide)
  · exact .inl (by decide)
  · exact .inl (by decide)
  · exact .inr ⟨rfl, by simp_all⟩

theorem notMem_encode {c : Char} (h : c ∈ ['<', '>', '\'', '"']) (value : List Char) : c ∉ Entity.encode value := by
  intro hMem
  obtain ⟨d, -, hMem⟩ := List.mem_flatMap.mp hMem
  rcases encodeChar_cases d with hEntity | ⟨hPlain, hOther⟩
  · have hNone : ∀ entity ∈ entities, ∀ c ∈ ['<', '>', '\'', '"'], c ∉ entity := by
      simp [entities]
    exact hNone _ hEntity c h hMem
  · rw [hPlain] at hMem
    obtain rfl := List.mem_singleton.mp hMem
    exact hOther ((by decide : ['<', '>', '\'', '"'] ⊆ ['<', '>', '&', '\'', '"']) h)

/-- In the code of one character an ampersand can only come first. -/
theorem entity_of_ampersand {c : Char} {before after : List Char}
    (h : Entity.encodeChar c = before ++ '&' :: after) : before = [] ∧ '&' :: after ∈ entities := by
  rcases encodeChar_cases c with hEntity | ⟨hPlain, hOther⟩
  · have hFirst : ∀ entity ∈ entities, '&' ∉ entity.tail := by
      decide
    rw [h] at hEntity
    cases before with
    | nil => exact ⟨rfl, hEntity⟩
    | cons d before =>
      have hNone := hFirst _ hEntity
      simp at hNone
  · have hMem : '&' ∈ Entity.encodeChar c := by
      rw [h]
      exact List.mem_append_right before List.mem_cons_self
    rw [hPlain] at hMem
    obtain rfl := List.mem_singleton.mp hMem
    exact (hOther (by decide)).elim

theorem ampersand_encode (value before after : List Char) (h : Entity.encode value = before ++ '&' :: after) :
    ∃ entity ∈ entities, entity <+: '&' :: after := by
  induction value generalizing before with
  | nil => simp at h
  | cons c value ih =>
    rw [Entity.encode_cons, List.append_eq_append_iff] at h
    rcases h with ⟨between, -, hRest⟩ | ⟨within, hChar, hRest⟩
    · exact ih between hRest
    · cases within with
      | nil => exact ih [] hRest.symm
      | cons d within =>
        obtain ⟨rfl, hAfter⟩ := List.cons.inj hRest
        refine ⟨'&' :: within, (entity_of_ampersand hChar).2, ?_⟩
        rw [hAfter]
        exact List.prefix_append ('&' :: within) _

theorem escaped_encode (value : List Char) : Escaped (Entity.encode value) :=
  ⟨notMem_encode (by decide) value, notMem_encode (by decide) value, notMem_encode (by decide) value,
    ampersand_encode value⟩

/-- Cutting markup at its quotes gives the values of the tree between the quotes, and outside of them a frame
that no value has a part in. -/
theorem cut_markup {tree : Element} (h : Quoteless tree) :
    (cut tree.markup.toList).length = 2 * tree.allAttributes.length + 1 ∧
      (inside (cut tree.markup.toList)).map (fun piece => String.ofList (Entity.decode piece)) =
        tree.allAttributes.map (·.value) ∧
      (∀ piece ∈ inside (cut tree.markup.toList), Escaped piece) ∧
      ∀ other : Element, other.outline = tree.outline →
        outside (cut other.markup.toList) = outside (cut tree.markup.toList) := by
  have hText (e : Element) : e.markup.toList = write e ++ [] := by
    rw [Element.markup, String.toList_ofList, List.append_nil]
  have hFramed := framed_write tree h
  have hInside : inside (cut tree.markup.toList) = written tree := by
    rw [hText, hFramed.inside_eq]
    exact List.append_nil _
  refine ⟨?_, ?_, ?_, ?_⟩
  · rw [hText, hFramed.length_eq, written, List.length_map]
    rfl
  · rw [hInside, written, List.map_map]
    apply List.map_congr_left
    intro a _
    rw [Function.comp_apply, Entity.decode_encode, String.ofList_toList]
  · intro piece hMem
    rw [hInside] at hMem
    obtain ⟨a, -, rfl⟩ := List.mem_map.mp hMem
    exact escaped_encode a.value.toList
  · intro other hSame
    have hOther : Quoteless other := by
      rwa [← quoteless_outline, hSame, quoteless_outline]
    rw [hText, hText, (framed_write other hOther).outside_eq [] [] rfl, hSame, hFramed.outside_eq [] [] rfl]

/-- Values that look like quotes, tags and entities stay values. -/
theorem cut_markup_lookalike :
    let tree : Element := ⟨"g", [⟨"id", "1\"><g id=\"2"⟩], [⟨"a<b", [⟨"=", "&lt;'&"⟩], []⟩]⟩
    let plain : Element := ⟨"g", [⟨"id", ""⟩], [⟨"a<b", [⟨"=", "7"⟩], []⟩]⟩
    Quoteless tree ∧ (cut tree.markup.toList).length = 5 ∧
      (inside (cut tree.markup.toList)).map (fun piece => String.ofList (Entity.decode piece)) =
        ["1\"><g id=\"2", "&lt;'&"] ∧
      outside (cut plain.markup.toList) = outside (cut tree.markup.toList) := by
  intro tree plain
  have hTree : Quoteless tree := by
    decide
  have hOutline : plain.outline = tree.outline := by
    decide
  obtain ⟨hLength, hValues, -, hFrame⟩ := cut_markup hTree
  exact ⟨hTree, hLength, hValues, hFrame plain hOutline⟩

end Markup
end Pictogram
