import Mathlib.Data.List.Induction
import Pictogram.Element.Order
import Pictogram.Json.Writer
import Pictogram.Proofs.Json.Acceptance

/-! # Writing and reading back

What is written for a tree is a text of the format as long as its brackets have room, and then it is read
back as the same tree. One level more, and the first bracket without room is refused.
-/
namespace Pictogram.Json
set_option autoImplicit false
open Format

/-! ## Texts that are written -/

theorem hexDigit_digit {n : Nat} (h : n < 16) : HexDigit (Text.Hex.digit n) n :=
  (value?_eq_some_iff _ n).mp (Text.Hex.value?_digit n h)

theorem unitText_control {n : Nat} (h : n < 0x20) :
    UnitText ['0', '0', Text.Hex.digit (n / 16), Text.Hex.digit (n % 16)] n := by
  rw [unitText_iff]
  refine ⟨'0', '0', _, _, 0, 0, n / 16, n % 16, rfl, .inl rfl, .inl rfl, ?_, ?_, by omega⟩
  · exact hexDigit_digit (by omega)
  · exact hexDigit_digit (by omega)

theorem spelling_writeChar (c : Char) : Spelling (writeChar c) c := by
  unfold writeChar
  split
  · exact .short (by decide)
  · exact .short (by decide)
  · exact .short (by decide)
  · exact .short (by decide)
  · exact .short (by decide)
  · exact .short (by decide)
  · exact .short (by decide)
  · rename_i hQuote hBackslash _ _ _ _ _
    split
    · rename_i hControl
      exact .unit (unitText_control hControl)
    · rename_i hControl
      exact .plain (fun h => hQuote h) (fun h => hBackslash h) (Nat.not_lt.mp hControl)

theorem stringText_writeString (s : String) : StringText s (writeString s) := by
  refine ⟨s.toList.map writeChar, ?_, by rw [writeString, List.flatMap_def]⟩
  rw [List.forall₂_map_left_iff, List.forall₂_same]
  exact fun c _ => spelling_writeChar c

theorem separated_joined (item : List Char) (rest : List (List Char)) :
    Separated (item :: rest) (item ++ rest.flatMap (',' :: ·)) := by
  induction rest using List.reverseRecOn with
  | nil => simpa using @Separated.one item [] [] blanks_nil blanks_nil
  | append_singleton rest last ih =>
    rw [List.flatMap_append, List.flatMap_singleton, ← List.append_assoc, ← List.cons_append]
    simpa using @Separated.more _ _ last [] [] ih blanks_nil blanks_nil

theorem arrayText_writeItems (items : List (List Char)) : ArrayText items (writeItems items) := by
  cases items with
  | nil => exact ⟨[], .inl ⟨rfl, blanks_nil⟩, rfl⟩
  | cons item rest => exact ⟨_, .inr (separated_joined item rest), by simp [writeItems]⟩

def writeMember (key : String) (value : List Char) : List Char :=
  writeString key ++ ':' :: value

theorem memberText_writeMember (key : String) (value : List Char) :
    MemberText StringText (key, value) (writeMember key value) :=
  ⟨writeString key, [], [], stringText_writeString key, blanks_nil, blanks_nil, by simp [writeMember]⟩

theorem writeAttribute_eq (a : Attribute) :
    writeAttribute a = '{' :: (writeMember "name" (writeString a.name) ++
      ',' :: (writeMember "value" (writeString a.value) ++ ['}'])) := by
  have hName : "\x7b\"name\":".toList = '{' :: (writeString "name" ++ [':']) := rfl
  have hValue : ",\"value\":".toList = ',' :: (writeString "value" ++ [':']) := rfl
  have hText : writeAttribute a = "\x7b\"name\":".toList ++ writeString a.name
      ++ ",\"value\":".toList ++ writeString a.value ++ ['}'] := rfl
  rw [hText, hName, hValue]
  simp only [writeMember, List.append_assoc, List.cons_append, List.nil_append]

theorem objectText_writeAttribute (a : Attribute) :
    ObjectText StringText [("name", writeString a.name), ("value", writeString a.value)] (writeAttribute a) := by
  have hMembers := List.Forall₂.cons (memberText_writeMember "name" (writeString a.name))
    (.cons (memberText_writeMember "value" (writeString a.value)) .nil)
  refine ⟨_, _, hMembers, .inr (separated_joined _ _), ?_⟩
  rw [writeAttribute_eq]
  simp only [List.flatMap_cons, List.flatMap_nil, List.append_assoc, List.cons_append, List.append_nil]

theorem attributeText_writeAttribute {depth : Nat} (a : Attribute) (hDepth : depth + 1 < 128) :
    AttributeText depth a (writeAttribute a) := by
  refine ⟨hDepth, .inl ⟨_, objectText_writeAttribute a, ?_⟩⟩
  refine ⟨by simp [attributeFields], ?_⟩
  simp only [attributeFields, List.forall_mem_cons]
  refine ⟨.inr ⟨writeString a.name, rfl, stringText_writeString a.name⟩,
    .inr ⟨writeString a.value, rfl, stringText_writeString a.value⟩, by simp⟩

theorem attributesText_written {depth : Nat} (attributes : List Attribute) (hDepth : depth + 2 < 128) :
    AttributesText depth attributes (writeItems (attributes.map writeAttribute)) := by
  refine ⟨by omega, _, ?_, arrayText_writeItems _⟩
  rw [List.forall₂_map_right_iff, List.forall₂_same]
  exact fun a _ => attributeText_writeAttribute a (by omega)

theorem writeAll_eq_map (es : List Element) : writeAll es = es.map write := by
  induction es with
  | nil => rfl
  | cons e es ih => rw [writeAll, ih, List.map_cons]

theorem write_eq (tag : String) (attributes : List Attribute) (children : List Element) :
    write ⟨tag, attributes, children⟩ = '{' :: (writeMember "tag" (writeString tag) ++
      ',' :: (writeMember "attributes" (writeItems (attributes.map writeAttribute)) ++
        ',' :: (writeMember "children" (writeItems (children.map write)) ++ ['}']))) := by
  have hTag : "\x7b\"tag\":".toList = '{' :: (writeString "tag" ++ [':']) := rfl
  have hAttributes : ",\"attributes\":".toList = ',' :: (writeString "attributes" ++ [':']) := rfl
  have hChildren : ",\"children\":".toList = ',' :: (writeString "children" ++ [':']) := rfl
  have hText : write ⟨tag, attributes, children⟩ = "\x7b\"tag\":".toList ++ writeString tag
      ++ ",\"attributes\":".toList ++ writeItems (attributes.map writeAttribute)
      ++ ",\"children\":".toList ++ writeItems (writeAll children) ++ ['}'] := rfl
  rw [hText, hTag, hAttributes, hChildren, writeAll_eq_map]
  simp only [writeMember, List.append_assoc, List.cons_append, List.nil_append]

theorem objectText_write (tag : String) (attributes : List Attribute) (children : List Element) :
    ObjectText StringText [("tag", writeString tag), ("attributes", writeItems (attributes.map writeAttribute)),
      ("children", writeItems (children.map write))] (write ⟨tag, attributes, children⟩) := by
  have hMembers := List.Forall₂.cons (memberText_writeMember "tag" (writeString tag))
    (.cons (memberText_writeMember "attributes" (writeItems (attributes.map writeAttribute)))
      (.cons (memberText_writeMember "children" (writeItems (children.map write))) .nil))
  refine ⟨_, _, hMembers, .inr (separated_joined _ _), ?_⟩
  rw [write_eq]
  simp only [List.flatMap_cons, List.flatMap_nil, List.append_assoc, List.cons_append, List.append_nil]

theorem elementText_record {depth : Nat} (tag : String) (attributes : List Attribute)
    (children : List Element) (hDepth : depth + 3 < 128)
    (hChildren : ∀ child ∈ children, ElementText (depth + 2) child (write child)) :
    ElementText depth ⟨tag, attributes, children⟩ (write ⟨tag, attributes, children⟩) := by
  have hAttributesText : AttributesText (depth + 1) attributes (writeItems (attributes.map writeAttribute)) :=
    attributesText_written attributes (by omega)
  have hChildrenText : ChildrenText (depth + 1) children (writeItems (children.map write)) := by
    refine ⟨by omega, _, ?_, arrayText_writeItems _⟩
    rw [List.forall₂_map_right_iff, List.forall₂_same]
    exact hChildren
  rw [elementText_iff]
  refine ⟨by omega, .inl ⟨_, objectText_write tag attributes children, ?_⟩⟩
  refine ⟨by simp [elementFields], ?_⟩
  simp only [elementFields, List.forall_mem_cons]
  exact ⟨.inr ⟨_, rfl, stringText_writeString tag⟩, .inr ⟨_, rfl, hAttributesText⟩,
    .inr ⟨_, rfl, hChildrenText⟩, by simp⟩

theorem elementText_write (e : Element) (n : Nat) (hLevels : n + e.levels ≤ 63) :
    ElementText (2 * n) e (write e) := by
  induction e using Element.induction generalizing n with
  | node tag attributes children ih =>
    rw [Element.levels] at hLevels
    apply elementText_record tag attributes children (by omega)
    intro child hMem
    have hChild := (Element.levelsAll_le_iff children _).mp (Nat.le_refl _) child hMem
    exact ih child hMem (n + 1) (by omega)

theorem presents_write {e : Element} (h : e.levels ≤ 63) : Presents e (write e) :=
  ⟨[], write e, [], blanks_nil, elementText_write e 0 (by omega), blanks_nil, by simp⟩

/-! ## Brackets without room -/

namespace State

theorem steps_writtenKey {r : Record} {s : State} {key : String} {hole : Hole}
    (hs : Next s '"' (.record r (.inKey {}))) (hMember : r.member key = .ok (some hole)) :
    Steps Next s (writeString key ++ [':']) (.awaiting hole) :=
  (steps_key hs (stringText_writeString key) hMember).trans (.single rfl)

/-- The text of a tree with too many levels is refused at the first bracket that has no room. -/
def Overfull (e : Element) : Prop :=
  ∀ (path : Path) (s : State), Ready s (.element path) → path.length ≤ 63 → 64 ≤ path.length + e.levels →
    s.run (write e) = .error .malformed

theorem run_overfull_items {rest : List Element} {first : Element} {parent : Ancestor} {path : Path} {s : State}
    (hItems : ∀ e ∈ first :: rest, Overfull e) (hs : Ready s (.element (parent :: path)))
    (hRoom : path.length ≤ 62) (hLevels : 63 ≤ path.length + Element.levelsAll (first :: rest)) :
    s.run (write first ++ (rest.map write).flatMap (',' :: ·)) = .error .malformed := by
  induction rest generalizing first parent s with
  | nil =>
    rw [Element.levelsAll, Element.levelsAll] at hLevels
    have hFirst := hItems first List.mem_cons_self (parent :: path) s hs
    exact run_append_of_error (hFirst (by simp only [List.length_cons]; omega)
      (by simp only [List.length_cons]; omega)) _
  | cons second rest ih =>
    by_cases hDeep : 63 ≤ path.length + first.levels
    · have hFirst := hItems first List.mem_cons_self (parent :: path) s hs
      exact run_append_of_error (hFirst (by simp only [List.length_cons]; omega)
        (by simp only [List.length_cons]; omega)) _
    · -- The first tree has room, so it is read and one of the others is refused.
      rw [Element.levelsAll] at hLevels
      have hText : ElementText (2 * (parent :: path).length) first (write first) :=
        elementText_write first _ (by simp only [List.length_cons]; omega)
      rw [run_of_steps (readable first (parent :: path) s _ hs hText), List.map_cons, List.flatMap_cons,
        List.cons_append, run_cons]
      exact ih (fun e hMem => hItems e (List.mem_cons_of_mem _ hMem))
        (ready_awaiting (.element ({ parent with elders := first :: parent.elders } :: path))) (by omega)

theorem steps_written_head {path : Path} {s : State} (tag : String) (hs : Ready s (.element path))
    (hRoom : path.length ≤ 63) :
    Steps Next s ('{' :: (writeMember "tag" (writeString tag) ++ ',' :: (writeString "attributes" ++ [':'])))
      (.awaiting (.elementField .attributes { layout := .object, tag := some tag } path)) := by
  have hOpen : Next s '{' (.record (.element { layout := .object } path) .start) :=
    (hs '{' rfl (by decide)).trans (openBracket_element .object (by omega))
  have hTag : Steps Next (.record (.element { layout := .object } path) .start) (writeMember "tag" (writeString tag))
      (.record (.element { layout := .object, tag := some tag } path) .after) := by
    have hKey : Steps Next (.record (.element { layout := .object } path) .start) (writeString "tag" ++ [':'])
        (.awaiting (.elementField .tag { layout := .object } path)) := steps_writtenKey rfl rfl
    have hValue := steps_string (ready_awaiting (.elementField .tag { layout := .object } path))
      (stringText_writeString tag) rfl
    simpa [writeMember] using hKey.trans hValue
  have hComma : Next (.record (.element { layout := .object, tag := some tag } path) .after) ','
      (.record (.element { layout := .object, tag := some tag } path) .key) := rfl
  exact .head hOpen (hTag.trans (.head hComma (steps_writtenKey rfl rfl)))

theorem steps_written_middle {path : Path} (draft : ElementDraft) (attributes : List Attribute)
    (hLayout : draft.layout = .object) (hFresh : draft.children = none) (hRoom : path.length ≤ 62) :
    Steps Next (.awaiting (.elementField .attributes draft path))
      (writeItems (attributes.map writeAttribute) ++ ',' :: (writeString "children" ++ [':', '[']))
      (.children { draft := { draft with attributes := some attributes } } path .start) := by
  have hAttributes := steps_attributes (attributesText_written attributes (by omega))
    (ready_awaiting (.elementField .attributes draft path))
  have hComma : Next (.record (.element { draft with attributes := some attributes } path) .after) ','
      (.record (.element { draft with attributes := some attributes } path) .key) := by
    simp [Next, step, stepRecord, stepAfter, Record.layout, hLayout, isBlank]
  have hKey : Steps Next (.record (.element { draft with attributes := some attributes } path) .key)
      (writeString "children" ++ [':'])
      (.awaiting (.elementField .children { draft with attributes := some attributes } path)) :=
    steps_writtenKey rfl (by simp [Record.member, ElementField.ofKey?, ElementDraft.has, hFresh])
  have hOpen := children_open
    (ready_awaiting (.elementField .children { draft with attributes := some attributes } path)) (by omega)
  simpa using hAttributes.trans (.head hComma (hKey.trans (.single hOpen)))

theorem run_full {draft : ElementDraft} {path : Path} (hFull : 63 ≤ path.length) (items : List (List Char))
    (rest : List Char) :
    (State.awaiting (.elementField .attributes draft path)).run (writeItems items ++ rest) = .error .malformed := by
  have hDepth : ¬ (Hole.elementField .attributes draft path).depth < maxDepth := by
    simp only [Hole.depth, maxDepth]
    omega
  have hOpen : (State.awaiting (.elementField .attributes draft path)).step '[' = .error .malformed := by
    refine (ready_awaiting _ '[' rfl (by decide)).trans ?_
    simp [enter, openBracket, hDepth]
  have hBracket : ∃ inner, writeItems items = '[' :: inner := by
    cases items with
    | nil => exact ⟨_, rfl⟩
    | cons item items => exact ⟨_, rfl⟩
  obtain ⟨inner, hInner⟩ := hBracket
  rw [hInner, List.cons_append, run_cons, hOpen]
  rfl

theorem overfull_record {tag : String} {attributes : List Attribute} {children : List Element}
    (hChildren : ∀ e ∈ children, Overfull e) : Overfull ⟨tag, attributes, children⟩ := by
  intro path s hs hRoom hLevels
  rw [Element.levels] at hLevels
  have hText : write ⟨tag, attributes, children⟩ =
      ('{' :: (writeMember "tag" (writeString tag) ++ ',' :: (writeString "attributes" ++ [':']))) ++
        (writeItems (attributes.map writeAttribute) ++
          ',' :: (writeMember "children" (writeItems (children.map write)) ++ ['}'])) := by
    rw [write_eq]
    simp [writeMember]
  rw [hText, run_of_steps (steps_written_head tag hs hRoom)]
  rcases Nat.eq_or_lt_of_le hRoom with hFull | hRoom
  · exact run_full (by omega) _ _
  · cases children with
    | nil =>
      rw [Element.levelsAll] at hLevels
      omega
    | cons first rest =>
      have hItems : writeItems (attributes.map writeAttribute) ++
          ',' :: (writeMember "children" (writeItems ((first :: rest).map write)) ++ ['}']) =
            (writeItems (attributes.map writeAttribute) ++ ',' :: (writeString "children" ++ [':', '['])) ++
              (write first ++ (rest.map write).flatMap (',' :: ·) ++ [']', '}']) := by
        simp [writeMember, writeItems]
      rw [hItems, run_of_steps (steps_written_middle _ attributes rfl rfl (by omega))]
      exact run_append_of_error (run_overfull_items hChildren (ready_children _ path) (by omega) (by omega)) _

theorem overfull (e : Element) : Overfull e := by
  induction e using Element.induction with
  | node tag attributes children ih => exact overfull_record ih

end State

theorem read_write {tree : Element} (h : tree.levels ≤ 63) : read (write tree) = .ok tree :=
  (read_eq_ok_iff _ tree).mpr (State.run_of_presents (presents_write h))

theorem read_write_overfull {tree : Element} (h : 64 ≤ tree.levels) : read (write tree) = .error .malformed := by
  rw [read, State.overfull tree [] .initial (State.ready_awaiting _) (by simp) (by simpa using h)]
  rfl

theorem ofJson_json (tree : Element) :
    Element.ofJson tree.json = if tree.levels ≤ 63 then .ok tree else .error .malformed := by
  rw [Element.ofJson, Element.json, String.toList_ofList]
  split
  · rename_i hLevels
    exact read_write hLevels
  · rename_i hLevels
    exact read_write_overfull (Nat.not_le.mp hLevels)

end Pictogram.Json
