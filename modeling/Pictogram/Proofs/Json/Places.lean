import Pictogram.Proofs.Json.Acceptance

/-! # Places in a text

Every value that is read for a tree, from the whole tree down to a single string, stands at a place of the text. A
place is given by what stands before the value and what stands after it, and it says which tree the text presents
with a value there. Whatever follows, the reader has come to a hole of the same kind when it has read what stands
before.
-/
namespace Pictogram.Json
set_option autoImplicit false
open Format

/-! ## Kinds of values -/

namespace RecordKind

def Value : RecordKind → Type
  | .element => Element
  | .attribute => Attribute

def Text : (kind : RecordKind) → Nat → kind.Value → List Char → Prop
  | .element => ElementText
  | .attribute => AttributeText

/-- The fields of a record that holds a value, inside `depth` open brackets. -/
def entries : (kind : RecordKind) → Nat → kind.Value → List Field
  | .element, depth, e => elementFields depth e.tag e.attributes e.children
  | .attribute, _, a => attributeFields a

instance (kind : RecordKind) : Inhabited kind.Value :=
  match kind with
  | .element => inferInstanceAs (Inhabited Element)
  | .attribute => inferInstanceAs (Inhabited Attribute)

theorem text_iff : ∀ (kind : RecordKind) (depth : Nat) (v : kind.Value) (text : List Char),
    kind.Text depth v text ↔ depth + 1 < 128 ∧ RecordText (kind.entries (depth + 1) v) text
  | .element, depth, ⟨tag, attributes, children⟩, text => elementText_iff depth tag attributes children text
  | .attribute, _, _, _ => Iff.rfl

theorem nodup_entries (kind : RecordKind) (depth : Nat) (v : kind.Value) :
    ((kind.entries depth v).map (·.key)).Nodup := by
  cases kind with
  | element => simp [entries, elementFields]
  | «attribute» => simp [entries, attributeFields]

end RecordKind

/-- What a value is read for at a place. -/
inductive Slot where
  | record (kind : RecordKind)
  | list (kind : RecordKind)
  | string

namespace Slot

def Value : Slot → Type
  | .record kind => kind.Value
  | .list kind => List kind.Value
  | .string => String

/-- The texts of a value that stands inside `depth` open brackets. -/
def Text : (slot : Slot) → Nat → slot.Value → List Char → Prop
  | .record kind => kind.Text
  | .list kind => fun depth values text => depth + 1 < 128 ∧
    ∃ items, List.Forall₂ (kind.Text (depth + 1)) values items ∧ ArrayText items text
  | .string => fun _ => StringText

/-- Only an empty list need not be written. -/
def Vacant : (slot : Slot) → slot.Value → Prop
  | .list kind => fun values : List kind.Value => values = []
  | _ => fun _ => False

instance (slot : Slot) : Inhabited slot.Value :=
  match slot with
  | .record kind => inferInstanceAs (Inhabited kind.Value)
  | .list kind => inferInstanceAs (Inhabited (List kind.Value))
  | .string => inferInstanceAs (Inhabited String)

end Slot

/-- The keys of a record with what their values are read for. -/
def RecordKind.slots : RecordKind → List (String × Slot)
  | .element => [("tag", .string), ("attributes", .list .attribute), ("children", .list .element)]
  | .attribute => [("name", .string), ("value", .string)]

theorem RecordKind.keys_entries (kind : RecordKind) (depth : Nat) (v : kind.Value) :
    (kind.entries depth v).map (·.key) = kind.slots.map (·.1) := by
  cases kind <;> rfl

/-! ## Places -/

namespace Format

/-- What stands between an item and the closing bracket, other items being still to come. -/
def Following (items : List (List Char)) (text : List Char) : Prop :=
  items = [] ∧ Blanks text ∨ ∃ blanks inner, Blanks blanks ∧ Separated items inner ∧ text = blanks ++ ',' :: inner

/-- Around one item of a list: other items may come before it and after it. -/
inductive ItemSpot {α : Type} (Form : α → List Char → Prop) (elders youngers : List α) :
    List Char → List Char → Prop
  | intro {items others : List (List Char)} {inner post : List Char} (hElders : List.Forall₂ Form elders items)
      (hYoungers : List.Forall₂ Form youngers others) (hInner : NextItem items inner)
      (hPost : Following others post) : ItemSpot Form elders youngers ('[' :: inner) (post ++ [']'])

/-- Around the value of one field of a record, `early` being the fields before it and `late` those after it. In an
object other members may come before it and after it in any order. -/
inductive FieldSpot (early : List Field) (key : String) (late : List Field) : List Char → List Char → Prop
  | object {done rest : List (String × List Char)} {items others : List (List Char)}
      {inner literal before after post : List Char} (hDone : List.Forall₂ (MemberText StringText) done items)
      (hRest : List.Forall₂ (MemberText StringText) rest others) (hFields : ObjectFields (early ++ late) (done ++ rest))
      (hOnly : key ∉ (done ++ rest).map (·.1)) (hInner : NextItem items inner) (hKey : StringText key literal)
      (hBefore : Blanks before) (hAfter : Blanks after) (hPost : Following others post) :
      FieldSpot early key late ('{' :: (inner ++ literal ++ before ++ ':' :: after)) (post ++ ['}'])
  | list {done rest : List (List Char)} {inner post : List Char} (hDone : List.Forall₂ Field.Form early done)
      (hRest : ListFields late rest) (hInner : NextItem done inner) (hPost : Following rest post) :
      FieldSpot early key late ('[' :: inner) (post ++ [']'])

/-- The places of a text: `Place slot depth whole before after` says that a value for `slot` can stand between
`before` and `after`, inside `depth` open brackets, and that the text presents the tree `whole v` if the value is
`v`. -/
inductive Place : (slot : Slot) → Nat → (slot.Value → Element) → List Char → List Char → Prop
  | root {before after : List Char} (hBefore : Blanks before) (hAfter : Blanks after) :
      Place (.record .element) 0 id before after
  /-- The value of a field; `put` gives the record that has it. -/
  | field {kind : RecordKind} {depth : Nat} {whole : kind.Value → Element} {start stop before after : List Char}
      {slot : Slot} {put : slot.Value → kind.Value} {early late : List Field} {key : String}
      {absent : slot.Value → Prop} (h : Place (.record kind) depth whole start stop) (hDepth : depth + 1 < 128)
      (hSlot : (key, slot) ∈ kind.slots)
      (hPut : ∀ v, kind.entries (depth + 1) (put v) = early ++ ⟨key, slot.Text (depth + 1) v, absent v⟩ :: late)
      (hSpot : FieldSpot early key late before after) :
      Place slot (depth + 1) (fun v => whole (put v)) (start ++ before) (after ++ stop)
  /-- An item of a list. -/
  | item {kind : RecordKind} {depth : Nat} {whole : List kind.Value → Element}
      {start stop before after : List Char} {elders youngers : List kind.Value}
      (h : Place (.list kind) depth whole start stop) (hDepth : depth + 1 < 128)
      (hSpot : ItemSpot (kind.Text (depth + 1)) elders youngers before after) :
      Place (.record kind) (depth + 1) (fun v : kind.Value => whole (elders ++ v :: youngers)) (start ++ before)
        (after ++ stop)

/-! ## What a place presents -/

theorem Separated.join {items others : List (List Char)} {inner inner' : List Char} (h : Separated items inner)
    (h' : Separated others inner') : Separated (items ++ others) (inner ++ ',' :: inner') := by
  induction h' with
  | one hBefore hAfter => exact .more h hBefore hAfter
  | more _ hBefore hAfter ih =>
    rw [← List.append_assoc, ← List.cons_append, ← List.append_assoc]
    exact .more ih hBefore hAfter

theorem NextItem.surround {items others : List (List Char)} {inner post : List Char} (h : NextItem items inner)
    (hPost : Following others post) (item : List Char) :
    Separated (items ++ item :: others) (inner ++ item ++ post) := by
  rcases hPost with ⟨rfl, hBlanks⟩ | ⟨blanks, inner', hBlanks, hOthers, rfl⟩
  · exact (h.put item).append_blanks hBlanks
  · rw [List.append_cons, ← List.append_assoc]
    exact ((h.put item).append_blanks hBlanks).join hOthers

theorem arrayText_surround {items others : List (List Char)} {inner post : List Char} (h : NextItem items inner)
    (hPost : Following others post) (item : List Char) :
    ArrayText (items ++ item :: others) ('[' :: inner ++ item ++ (post ++ [']'])) :=
  ⟨inner ++ item ++ post, .inr (h.surround hPost item), by simp⟩

theorem valuesOf_middle_of_ne {done rest : List (String × List Char)} {key other : String} (h : key ≠ other)
    (value : List Char) : valuesOf other (done ++ (key, value) :: rest) = valuesOf other (done ++ rest) := by
  simp [valuesOf, h]

theorem valuesOf_middle {done rest : List (String × List Char)} {key : String} (h : key ∉ (done ++ rest).map (·.1))
    (value : List Char) : valuesOf key (done ++ (key, value) :: rest) = [value] := by
  have hNone : valuesOf key done ++ valuesOf key rest = [] := by
    rw [← State.valuesOf_append]
    exact (State.valuesOf_eq_nil_iff key _).mpr h
  obtain ⟨hDone, hRest⟩ := List.append_eq_nil_iff.mp hNone
  rw [List.append_cons, State.valuesOf_append, State.valuesOf_append, hDone, hRest, State.valuesOf_single]
  rfl

theorem objectFields_middle {early late : List Field} {f : Field} {done rest : List (String × List Char)}
    {value : List Char} (h : ObjectFields (early ++ late) (done ++ rest)) (hOnly : f.key ∉ (done ++ rest).map (·.1))
    (hKey : f.key ∉ (early ++ late).map (·.key)) (hForm : f.Form value) :
    ObjectFields (early ++ f :: late) (done ++ (f.key, value) :: rest) := by
  constructor
  · intro m hMem
    rcases mem_middle_iff.mp hMem with rfl | hMem
    · exact .inl (mem_keys_middle_iff.mpr (.inl rfl))
    · exact (h.1 m hMem).imp_left fun hKnown => mem_keys_middle_iff.mpr (.inr hKnown)
  · intro g hMem
    rcases mem_middle_iff.mp hMem with rfl | hMem
    · exact .inr ⟨value, valuesOf_middle hOnly value, hForm⟩
    · have hOther : f.key ≠ g.key := fun hSame => hKey (hSame ▸ List.mem_map_of_mem hMem)
      rw [Field.Holds, valuesOf_middle_of_ne hOther]
      exact h.2 g hMem

theorem listFields_middle {early late : List Field} {f : Field} {done rest : List (List Char)} {value : List Char}
    (hDone : List.Forall₂ Field.Form early done) (hRest : ListFields late rest) (hForm : f.Form value) :
    ListFields (early ++ f :: late) (done ++ value :: rest) := by
  induction hDone with
  | nil => exact ⟨hForm, hRest⟩
  | cons hFirst _ ih => exact ⟨hFirst, ih⟩

theorem FieldSpot.recordText {early late : List Field} {f : Field} {before after value : List Char}
    (h : FieldSpot early f.key late before after) (hKeys : ((early ++ f :: late).map (·.key)).Nodup)
    (hForm : f.Form value) : RecordText (early ++ f :: late) (before ++ value ++ after) := by
  have hKey := key_notMem_middle hKeys
  cases h with
  | @object done rest items others inner literal blanks blanks' post hDone hRest hFields hOnly hInner hLiteral hBefore
      hAfter hPost =>
    have hMember : MemberText StringText (f.key, value) (literal ++ blanks ++ ':' :: (blanks' ++ value)) :=
      ⟨literal, blanks, blanks', hLiteral, hBefore, hAfter, rfl⟩
    refine .inl ⟨_, ⟨_, _, List.rel_append hDone (.cons hMember hRest), .inr (hInner.surround hPost _), ?_⟩,
      objectFields_middle hFields hOnly hKey hForm⟩
    simp
  | list hDone hRest hInner hPost =>
    exact .inr ⟨_, arrayText_surround hInner hPost value, listFields_middle hDone hRest hForm⟩

/-- A text is put together from what stands around a place and the text of a value there. -/
theorem Place.presents {slot : Slot} {depth : Nat} {whole : slot.Value → Element} {before after : List Char}
    (h : Place slot depth whole before after) {v : slot.Value} {value : List Char} (hValue : slot.Text depth v value) :
    Presents (whole v) (before ++ value ++ after) := by
  induction h generalizing value with
  | root hBefore hAfter => exact ⟨_, value, _, hBefore, hValue, hAfter, rfl⟩
  | @field kind depth whole start stop before after slot put early late key absent _ hDepth _ hPut hSpot ih =>
    have hNodup := kind.nodup_entries (depth + 1) (put v)
    rw [hPut] at hNodup
    have hRecord : kind.Text depth (put v) (before ++ value ++ after) := by
      rw [kind.text_iff, hPut]
      exact ⟨hDepth, hSpot.recordText hNodup hValue⟩
    simpa using ih hRecord
  | @item kind depth whole start stop before after elders youngers _ hDepth hSpot ih =>
    have hList : (Slot.list kind).Text depth (elders ++ @List.cons kind.Value v youngers)
        (before ++ value ++ after) := by
      obtain ⟨hElders, hYoungers, hInner, hPost⟩ := hSpot
      exact ⟨hDepth, _, List.rel_append hElders (.cons hValue hYoungers), arrayText_surround hInner hPost value⟩
    simpa using ih hList

/-- The only attribute of a tree that is written as a list. -/
theorem place_onlyAttribute {tag : String} {literal : List Char} (h : StringText tag literal) :
    Place (.record .attribute) 2 (fun a => ⟨tag, [a], []⟩) ('[' :: literal ++ [',', '[']) [']', ']'] := by
  have hTag : NextItem [literal] (literal ++ [',']) := by
    simpa using (@Separated.one literal [] [] blanks_nil blanks_nil).comma
  have hLate : ListFields [⟨"children", ChildrenText 1 [], [] = ([] : List Element)⟩] [] :=
    (listFields_nil _).mpr (by simp)
  have hSpot : FieldSpot [⟨"tag", StringText tag, False⟩] "attributes" [⟨"children", ChildrenText 1 [], [] = []⟩]
      ('[' :: (literal ++ [','])) [']'] := .list (.cons h .nil) hLate hTag (.inl ⟨rfl, blanks_nil⟩)
  have hRoot : Place (.record .element) 0 id [] [] := .root blanks_nil blanks_nil
  have hList := @Place.field .element 0 id [] [] _ _ (.list .attribute) (fun attributes => ⟨tag, attributes, []⟩)
    _ _ _ (· = []) hRoot (by decide) (by simp [RecordKind.slots]) (fun _ => rfl) hSpot
  have hItem : ItemSpot (AttributeText 2) [] [] ['['] [']'] :=
    .intro .nil .nil (.inl ⟨rfl, blanks_nil⟩) (.inl ⟨rfl, blanks_nil⟩)
  have hText : '[' :: literal ++ [',', '['] = '[' :: (literal ++ [',']) ++ ['['] := by simp
  rw [hText]
  exact Place.item hList (by decide) hItem

/-! ## What stands in a text

Conversely, every value that was written for a tree has a place in the text.
-/

theorem Following.push {others : List (List Char)} {item post before after : List Char} (h : Following others post)
    (hBefore : Blanks before) (hAfter : Blanks after) :
    Following (others ++ [item]) (post ++ ',' :: (before ++ item ++ after)) := by
  rcases h with ⟨rfl, hBlanks⟩ | ⟨blanks, inner, hBlanks, hInner, rfl⟩
  · exact .inr ⟨post, _, hBlanks, .one hBefore hAfter, rfl⟩
  · exact .inr ⟨blanks, _, hBlanks, .more hInner hBefore hAfter, by simp⟩

theorem Separated.split {items others : List (List Char)} {item inner : List Char}
    (h : Separated (items ++ item :: others) inner) :
    ∃ first post, NextItem items first ∧ Following others post ∧ inner = first ++ item ++ post := by
  generalize hAll : items ++ item :: others = all at h
  induction h generalizing others with
  | @one last before after hBefore hAfter =>
    obtain ⟨rfl, rfl, rfl⟩ : items = [] ∧ item = last ∧ others = [] := by
      simpa [List.append_eq_singleton_iff] using hAll
    exact ⟨before, after, .inl ⟨rfl, hBefore⟩, .inl ⟨rfl, hAfter⟩, rfl⟩
  | @more done inner last before after hDone hBefore hAfter ih =>
    -- The last item is the one that is looked for, or it comes after it.
    rcases List.eq_nil_or_concat others with rfl | ⟨others, x, rfl⟩
    · obtain ⟨rfl, rfl⟩ := List.append_singleton_inj.mp hAll
      exact ⟨inner ++ ',' :: before, after, .inr ⟨inner, before, hDone, hBefore, rfl⟩, .inl ⟨rfl, hAfter⟩, by simp⟩
    · rw [List.concat_eq_append, ← List.cons_append, ← List.append_assoc, List.append_singleton_inj] at hAll
      obtain ⟨hDone, rfl⟩ := hAll
      obtain ⟨first, post, hFirst, hPost, rfl⟩ := ih hDone
      rw [List.concat_eq_append]
      exact ⟨first, _, hFirst, hPost.push hBefore hAfter, by simp⟩

theorem ItemsText.split {items others : List (List Char)} {item inner : List Char}
    (h : ItemsText (items ++ item :: others) inner) :
    ∃ first post, NextItem items first ∧ Following others post ∧ inner = first ++ item ++ post := by
  rcases h with ⟨hNone, -⟩ | h
  · simp at hNone
  · exact h.split

theorem forall₂_split {α β : Type} {R : α → β → Prop} {earlier later : List α} {a : α} {bs : List β}
    (h : List.Forall₂ R (earlier ++ a :: later) bs) :
    ∃ before b after, List.Forall₂ R earlier before ∧ R a b ∧ List.Forall₂ R later after ∧
      bs = before ++ b :: after := by
  induction earlier generalizing bs with
  | nil =>
    obtain @⟨_, _⟩ | @⟨_, b, _, after, hHead, hLater⟩ := h
    exact ⟨[], b, after, .nil, hHead, hLater, rfl⟩
  | cons first earlier ih =>
    obtain @⟨_, _⟩ | @⟨_, item, _, rest, hFirst, hRest⟩ := h
    obtain ⟨before, b, after, hBefore, hHead, hLater, rfl⟩ := ih hRest
    exact ⟨item :: before, b, after, .cons hFirst hBefore, hHead, hLater, rfl⟩

theorem exists_itemSpot {α : Type} {Form : α → List Char → Prop} {elders youngers : List α} {a : α}
    {items : List (List Char)} {text : List Char} (hItems : List.Forall₂ Form (elders ++ a :: youngers) items)
    (h : ArrayText items text) :
    ∃ before value after, ItemSpot Form elders youngers before after ∧ Form a value ∧
      text = before ++ value ++ after := by
  obtain ⟨inner, hInner, rfl⟩ := h
  obtain ⟨done, value, others, hElders, hValue, hYoungers, rfl⟩ := forall₂_split hItems
  obtain ⟨first, post, hFirst, hPost, rfl⟩ := hInner.split
  exact ⟨_, value, _, .intro hElders hYoungers hFirst hPost, hValue, by simp⟩

theorem exists_only {members : List (String × List Char)} {key : String} {value : List Char}
    (h : valuesOf key members = [value]) :
    ∃ done rest, members = done ++ (key, value) :: rest ∧ key ∉ (done ++ rest).map (·.1) := by
  have hMem : value ∈ valuesOf key members := by
    rw [h]
    exact List.mem_singleton_self value
  obtain ⟨m, hFiltered, rfl⟩ := List.mem_map.mp hMem
  obtain ⟨hMember, hKey⟩ := List.mem_filter.mp hFiltered
  obtain rfl : m.1 = key := by simpa using hKey
  obtain ⟨done, rest, rfl⟩ := List.append_of_mem hMember
  refine ⟨done, rest, rfl, ?_⟩
  rw [List.append_cons, State.valuesOf_append, State.valuesOf_append, State.valuesOf_single] at h
  rw [← State.valuesOf_eq_nil_iff, State.valuesOf_append]
  have hLength := congrArg List.length h
  simp only [List.length_append, List.length_cons, List.length_nil] at hLength
  rw [List.append_eq_nil_iff, ← List.length_eq_zero_iff, ← List.length_eq_zero_iff]
  omega

theorem objectFields_others {early late : List Field} {f : Field} {done rest : List (String × List Char)}
    {value : List Char} (h : ObjectFields (early ++ f :: late) (done ++ (f.key, value) :: rest))
    (hOnly : f.key ∉ (done ++ rest).map (·.1)) (hKey : f.key ∉ (early ++ late).map (·.key)) :
    ObjectFields (early ++ late) (done ++ rest) := by
  constructor
  · intro m hMem
    refine (h.1 m (mem_middle_iff.mpr (.inr hMem))).imp_left fun hKnown => ?_
    apply (mem_keys_middle_iff.mp hKnown).resolve_left
    intro hSame
    exact hOnly (hSame ▸ List.mem_map_of_mem hMem)
  · intro g hMem
    have hOther : f.key ≠ g.key := fun hSame => hKey (hSame ▸ List.mem_map_of_mem hMem)
    have hHolds := h.2 g (mem_middle_iff.mpr (.inr hMem))
    rwa [valuesOf_middle_of_ne hOther] at hHolds

theorem listFields_split {early late : List Field} {f : Field} {values : List (List Char)}
    (h : ListFields (early ++ f :: late) values) :
    f.Absent ∨ ∃ done value rest, List.Forall₂ Field.Form early done ∧ f.Form value ∧ ListFields late rest ∧
      values = done ++ value :: rest := by
  induction early generalizing values with
  | nil =>
    cases values with
    | nil => exact .inl (h f List.mem_cons_self)
    | cons value rest => exact .inr ⟨[], value, rest, .nil, h.1, h.2, rfl⟩
  | cons g early ih =>
    cases values with
    | nil => exact .inl (h f (by simp))
    | cons first values =>
      refine (ih h.2).imp_right ?_
      rintro ⟨done, value, rest, hDone, hForm, hRest, rfl⟩
      exact ⟨first :: done, value, rest, .cons h.1 hDone, hForm, hRest, rfl⟩

theorem exists_fieldSpot {early late : List Field} {f : Field} {text : List Char}
    (hKeys : ((early ++ f :: late).map (·.key)).Nodup) (h : RecordText (early ++ f :: late) text) :
    f.Absent ∨ ∃ before value after, FieldSpot early f.key late before after ∧ f.Form value ∧
      text = before ++ value ++ after := by
  have hKey := key_notMem_middle hKeys
  rcases h with ⟨members, ⟨items, inner, hMembers, hItems, rfl⟩, hFields⟩ | ⟨values, ⟨inner, hItems, rfl⟩, hFields⟩
  · refine (hFields.2 f (by simp)).imp And.right ?_
    rintro ⟨value, hOne, hForm⟩
    obtain ⟨done, rest, rfl, hOnly⟩ := exists_only hOne
    obtain ⟨before, item, after, hDone, hMember, hRest, rfl⟩ := forall₂_split hMembers
    obtain ⟨literal, blanks, blanks', hLiteral, hBlanks, hBlanks', rfl⟩ := hMember
    obtain ⟨first, post, hFirst, hPost, rfl⟩ := hItems.split
    refine ⟨_, value, _, .object hDone hRest (objectFields_others hFields hOnly hKey) hOnly hFirst hLiteral hBlanks
      hBlanks' hPost, hForm, by simp⟩
  · refine (listFields_split hFields).imp_right ?_
    rintro ⟨done, value, rest, hDone, hForm, hRest, rfl⟩
    obtain ⟨first, post, hFirst, hPost, rfl⟩ := hItems.split
    exact ⟨_, value, _, .list hDone hRest hFirst hPost, hForm, by simp⟩

/-- A value stands in a text if it has a place there. -/
def Stands (text : List Char) (slot : Slot) (depth : Nat) (whole : slot.Value → Element) (v : slot.Value) : Prop :=
  ∃ before value after, Place slot depth whole before after ∧ slot.Text depth v value ∧ text = before ++ value ++ after

theorem Stands.item {kind : RecordKind} {depth : Nat} {whole : List kind.Value → Element} {text : List Char}
    {elders youngers : List kind.Value} {v : kind.Value}
    (h : Stands text (.list kind) depth whole (elders ++ v :: youngers)) :
    Stands text (.record kind) (depth + 1) (fun other : kind.Value => whole (elders ++ other :: youngers)) v := by
  obtain ⟨start, list, stop, hPlace, ⟨hDepth, items, hItems, hArray⟩, rfl⟩ := h
  obtain ⟨before, value, after, hSpot, hValue, rfl⟩ := exists_itemSpot hItems hArray
  exact ⟨start ++ before, value, after ++ stop, .item hPlace hDepth hSpot, hValue, by simp⟩

/-- A field of a record that stands in a text was left out, or its value stands there too. -/
theorem Stands.field {kind : RecordKind} {depth : Nat} {whole : kind.Value → Element} {text : List Char} {slot : Slot}
    {put : slot.Value → kind.Value} {v : slot.Value} (h : Stands text (.record kind) depth whole (put v)) {key : String}
    (hSlot : (key, slot) ∈ kind.slots) {early late : List Field} {absent : slot.Value → Prop}
    (hPut : ∀ v, kind.entries (depth + 1) (put v) = early ++ ⟨key, slot.Text (depth + 1) v, absent v⟩ :: late) :
    absent v ∨ Stands text slot (depth + 1) (fun other => whole (put other)) v := by
  obtain ⟨start, record, stop, hPlace, hText, rfl⟩ := h
  have hRecord : kind.Text depth (put v) record := hText
  rw [kind.text_iff, hPut] at hRecord
  have hNodup := kind.nodup_entries (depth + 1) (put v)
  rw [hPut] at hNodup
  refine (exists_fieldSpot hNodup hRecord.2).imp_right ?_
  rintro ⟨before, value, after, hSpot, hValue, rfl⟩
  exact ⟨start ++ before, value, after ++ stop, .field hPlace hRecord.1 hSlot hPut hSpot, hValue, by simp⟩

/-- The parts of a tree: `Part tree slot depth whole v` says that the tree has the value `v` for `slot` inside `depth`
brackets, and that it would be `whole w` with another value `w` in that place. -/
inductive Part (tree : Element) : (slot : Slot) → Nat → (slot.Value → Element) → slot.Value → Prop
  | root : Part tree (.record .element) 0 id tree
  | tag {depth : Nat} {whole : Element → Element} {tag : String} {attributes : List Attribute}
      {children : List Element} (h : Part tree (.record .element) depth whole ⟨tag, attributes, children⟩) :
      Part tree .string (depth + 1) (fun other : String => whole ⟨other, attributes, children⟩) tag
  | attributes {depth : Nat} {whole : Element → Element} {tag : String} {attributes : List Attribute}
      {children : List Element} (h : Part tree (.record .element) depth whole ⟨tag, attributes, children⟩) :
      Part tree (.list .attribute) (depth + 1) (fun others : List Attribute => whole ⟨tag, others, children⟩) attributes
  | children {depth : Nat} {whole : Element → Element} {tag : String} {attributes : List Attribute}
      {children : List Element} (h : Part tree (.record .element) depth whole ⟨tag, attributes, children⟩) :
      Part tree (.list .element) (depth + 1) (fun others : List Element => whole ⟨tag, attributes, others⟩) children
  | name {depth : Nat} {whole : Attribute → Element} {name value : String}
      (h : Part tree (.record .attribute) depth whole ⟨name, value⟩) :
      Part tree .string (depth + 1) (fun other : String => whole ⟨other, value⟩) name
  | value {depth : Nat} {whole : Attribute → Element} {name value : String}
      (h : Part tree (.record .attribute) depth whole ⟨name, value⟩) :
      Part tree .string (depth + 1) (fun other : String => whole ⟨name, other⟩) value
  | item {kind : RecordKind} {depth : Nat} {whole : List kind.Value → Element} {elders youngers : List kind.Value}
      {v : kind.Value} (h : Part tree (.list kind) depth whole (elders ++ v :: youngers)) :
      Part tree (.record kind) (depth + 1) (fun other : kind.Value => whole (elders ++ other :: youngers)) v

namespace Part
variable {tree : Element} {slot : Slot} {depth : Nat} {whole : slot.Value → Element} {v : slot.Value}

theorem whole_eq (h : Part tree slot depth whole v) : whole v = tree := by
  induction h with
  | root => rfl
  | tag _ ih | attributes _ ih | children _ ih | name _ ih | value _ ih | item _ ih => exact ih

/-- Every part of a tree stands in each text that presents the tree, but for empty lists that are left out. -/
theorem stands (h : Part tree slot depth whole v) {text : List Char} (hText : Presents tree text) :
    slot.Vacant v ∨ Stands text slot depth whole v := by
  induction h with
  | root =>
    obtain ⟨before, value, after, hBefore, hValue, hAfter, rfl⟩ := hText
    exact .inr ⟨before, value, after, .root hBefore hAfter, hValue, rfl⟩
  | @tag depth whole tag attributes children _ ih =>
    exact @Stands.field .element depth whole text .string (fun other => ⟨other, attributes, children⟩) tag
      (ih.resolve_left id) "tag" (by simp [RecordKind.slots]) []
      [⟨"attributes", AttributesText (depth + 1) attributes, attributes = []⟩,
        ⟨"children", ChildrenText (depth + 1) children, children = []⟩] (fun _ => False) (fun _ => rfl)
  | @attributes depth whole tag attributes children _ ih =>
    exact @Stands.field .element depth whole text (.list .attribute) (fun others => ⟨tag, others, children⟩) attributes
      (ih.resolve_left id) "attributes" (by simp [RecordKind.slots]) [⟨"tag", StringText tag, False⟩]
      [⟨"children", ChildrenText (depth + 1) children, children = []⟩] (· = []) (fun _ => rfl)
  | @children depth whole tag attributes children _ ih =>
    exact @Stands.field .element depth whole text (.list .element) (fun others => ⟨tag, attributes, others⟩) children
      (ih.resolve_left id) "children" (by simp [RecordKind.slots])
      [⟨"tag", StringText tag, False⟩, ⟨"attributes", AttributesText (depth + 1) attributes, attributes = []⟩] []
      (· = []) (fun _ => rfl)
  | @name depth whole name value _ ih =>
    exact @Stands.field .attribute depth whole text .string (fun other => ⟨other, value⟩) name (ih.resolve_left id)
      "name" (by simp [RecordKind.slots]) [] [⟨"value", StringText value, False⟩] (fun _ => False) (fun _ => rfl)
  | @value depth whole name value _ ih =>
    exact @Stands.field .attribute depth whole text .string (fun other => ⟨name, other⟩) value (ih.resolve_left id)
      "value" (by simp [RecordKind.slots]) [⟨"name", StringText name, False⟩] [] (fun _ => False) (fun _ => rfl)
  | @item kind depth whole elders youngers v _ ih =>
    obtain hNone | hList := ih
    · have hNone : elders ++ v :: youngers = [] := hNone
      exact absurd hNone (List.append_ne_nil_of_right_ne_nil _ (List.cons_ne_nil v youngers))
    · exact .inr hList.item

end Part

end Format
end Pictogram.Json
