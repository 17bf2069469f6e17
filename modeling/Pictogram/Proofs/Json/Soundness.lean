import Mathlib.Data.List.Nodup
import Pictogram.Proofs.Json.Completeness

/-! # What was read

Every state says of which form the text so far is: the brackets that are open, with what is complete inside
each of them. Every step keeps this account, so a text that is read to its end is a text of the format.
-/
namespace Pictogram.Json.State
set_option autoImplicit false
open Format

/-! ## Places -/

/-- A text that goes on inside a bracket, `depth` others being open around it. -/
def InBracket (Start : List Char → Prop) (depth : Nat) (bracket : Char) (Inner : List Char → Prop)
    (text : List Char) : Prop :=
  ∃ start inner, Start start ∧ depth + 1 < 128 ∧ Inner inner ∧ text = start ++ bracket :: inner

theorem InBracket.append {Start Inner Inner' : List Char → Prop} {depth : Nat} {bracket : Char}
    {text rest : List Char} (h : InBracket Start depth bracket Inner text)
    (hInner : ∀ inner, Inner inner → Inner' (inner ++ rest)) :
    InBracket Start depth bracket Inner' (text ++ rest) := by
  obtain ⟨start, inner, hStart, hDepth, hText, rfl⟩ := h
  exact ⟨start, inner ++ rest, hStart, hDepth, hInner inner hText, by simp⟩

def opening : Layout → Char
  | .object => '{'
  | .list => '['

/-- A field that was read if there is a value for it. -/
def given {α : Type} (key : String) (Form : α → List Char → Prop) (value : Option α) : Field where
  key
  Form text := ∃ a, value = some a ∧ Form a text
  Absent := value = none

def elementDraftFields (depth : Nat) (d : ElementDraft) : List Field :=
  [given "tag" StringText d.tag, given "attributes" (AttributesText depth) d.attributes,
    given "children" (ChildrenText depth) d.children]

def attributeDraftFields (d : AttributeDraft) : List Field :=
  [given "name" StringText d.name, given "value" StringText d.value]

/-- Inside a record where a key has to begin. -/
def KeyPlace (fields : List Field) (inner : List Char) : Prop :=
  ∃ members items, List.Forall₂ (MemberText StringText) members items ∧ NextItem items inner ∧
    ObjectFields fields members

/-- Inside a record where the value for a key has to begin. -/
def ValuePlace (fields : List Field) (layout : Layout) (key : String) (inner : List Char) : Prop :=
  match layout with
  | .object => ∃ place literal before after, KeyPlace fields place ∧ StringText key literal ∧
      Blanks before ∧ Blanks after ∧ inner = place ++ literal ++ before ++ ':' :: after
  | .list => ∃ values, NextItem values inner ∧ ListFields fields values

/-- Inside a record after one or more fields. -/
def Filled (fields : List Field) (layout : Layout) (inner : List Char) : Prop :=
  match layout with
  | .object => ∃ members items, List.Forall₂ (MemberText StringText) members items ∧
      Separated items inner ∧ ObjectFields fields members
  | .list => ∃ values, Separated values inner ∧ ListFields fields values

/-- A draft may take a field: it does not have it, and in a list it is the next one. -/
def Wants (d : ElementDraft) (field : ElementField) : Prop :=
  d.has field = false ∧ (d.layout = .list → d.next? = some field)

def AttributeWants (d : AttributeDraft) (field : AttributeField) : Prop :=
  d.has field = false ∧ (d.layout = .list → d.next? = some field)

/-- Inside a list, after its items so far, where another one has to begin. -/
def ListPlace {α : Type} (Form : α → List Char → Prop) (elders : List α) (inner : List Char) : Prop :=
  ∃ items, List.Forall₂ Form elders.reverse items ∧ NextItem items inner

/-- A place for an element, the path being around it. -/
def ElementPlace : Path → List Char → Prop
  | [], text => Blanks text
  | parent :: path, text =>
    InBracket
      (fun place => Wants parent.draft .children ∧
        InBracket (ElementPlace path) (2 * path.length) (opening parent.draft.layout)
          (ValuePlace (elementDraftFields (2 * path.length + 1) parent.draft) parent.draft.layout "children")
          place)
      (2 * path.length + 1) '[' (ListPlace (ElementText (2 * path.length + 2)) parent.elders) text

def InElement (draft : ElementDraft) (path : Path) (Inner : List Char → Prop) (text : List Char) : Prop :=
  InBracket (ElementPlace path) (2 * path.length) (opening draft.layout) Inner text

def fieldKey : ElementField → String
  | .tag => "tag"
  | .attributes => "attributes"
  | .children => "children"

def attributeKey : AttributeField → String
  | .name => "name"
  | .value => "value"

def FieldPlace (field : ElementField) (draft : ElementDraft) (path : Path) (text : List Char) : Prop :=
  Wants draft field ∧ InElement draft path
    (ValuePlace (elementDraftFields (2 * path.length + 1) draft) draft.layout (fieldKey field)) text

def AttributePlace (list : AttributeList) (text : List Char) : Prop :=
  InBracket (FieldPlace .attributes list.owner list.path) (2 * list.path.length + 1) '['
    (ListPlace (AttributeText (2 * list.path.length + 2)) list.elders) text

/-- Everything around the inside of a record. -/
def InRecord : Record → (List Char → Prop) → List Char → Prop
  | .element draft path, Inner, text => InElement draft path Inner text
  | .attribute draft list, Inner, text =>
    InBracket (AttributePlace list) (2 * list.path.length + 2) (opening draft.layout) Inner text

def fields : Record → List Field
  | .element draft path => elementDraftFields (2 * path.length + 1) draft
  | .attribute draft _ => attributeDraftFields draft

def HolePlace : Hole → List Char → Prop
  | .element path, text => ElementPlace path text
  | .attribute list, text => AttributePlace list text
  | .elementField field draft path, text => FieldPlace field draft path text
  | .attributeField field draft list, text => AttributeWants draft field ∧
      InRecord (.attribute draft list) (ValuePlace (attributeDraftFields draft) draft.layout (attributeKey field))
        text

def RecordHolds (r : Record) (phase : RecordPhase) (text : List Char) : Prop :=
  match phase with
  | .start => InRecord r Blanks text ∧ ∀ f ∈ fields r, f.Absent
  | .key => r.layout = .object ∧ InRecord r (KeyPlace (fields r)) text
  | .inKey l => r.layout = .object ∧ ∃ place body, InRecord r (KeyPlace (fields r)) place ∧ l.Holds body ∧
      text = place ++ '"' :: body
  | .colon target => r.layout = .object ∧ ∃ place key literal before, InRecord r (KeyPlace (fields r)) place ∧
      StringText key literal ∧ Blanks before ∧ r.member key = .ok target ∧ text = place ++ literal ++ before
  | .skip s => r.layout = .object ∧ ∃ place key value, r.member key = .ok none ∧
      InRecord r (ValuePlace (fields r) .object key) place ∧ s.Holds value ∧ text = place ++ value
  | .after => InRecord r (Filled (fields r) r.layout) text

def ListHolds {α : Type} (Form : α → List Char → Prop) (elders : List α) (phase : ListPhase)
    (inner : List Char) : Prop :=
  match phase with
  | .start => elders = [] ∧ Blanks inner
  | .after => ∃ items, List.Forall₂ Form elders.reverse items ∧ Separated items inner

/-- The text that leads to a state. Nothing is said of words and numbers, which no hole takes. -/
def Holds : State → List Char → Prop
  | .awaiting hole, text => HolePlace hole text
  | .string hole l, text => ∃ place body, HolePlace hole place ∧ l.Holds body ∧ text = place ++ '"' :: body
  | .word .., _ => True
  | .numeral .., _ => True
  | .record r phase, text => RecordHolds r phase text
  | .attributes list phase, text =>
    InBracket (FieldPlace .attributes list.owner list.path) (2 * list.path.length + 1) '['
      (ListHolds (AttributeText (2 * list.path.length + 2)) list.elders phase) text
  | .children parent path phase, text =>
    InBracket (FieldPlace .children parent.draft path) (2 * path.length + 1) '['
      (ListHolds (ElementText (2 * path.length + 2)) parent.elders phase) text
  | .finished tree, text => Presents tree text

theorem holds_initial : Holds initial [] :=
  blanks_nil

/-! ## Fields that are filled -/

theorem objectFields_put {before after : List Field} {f f' : Field} {members : List (String × List Char)}
    {value : List Char} (h : ObjectFields (before ++ f :: after) members)
    (hNodup : ((before ++ f :: after).map (·.key)).Nodup) (hKey : f'.key = f.key) (hFresh : ∀ v, ¬ f.Form v)
    (hForm : f'.Form value) : ObjectFields (before ++ f' :: after) (members ++ [(f.key, value)]) := by
  have hKeys : (before ++ f' :: after).map (·.key) = (before ++ f :: after).map (·.key) := by
    simp [hKey]
  constructor
  · intro m hMem
    rw [hKeys]
    rcases List.mem_append.mp hMem with hMem | hMem
    · exact h.1 m hMem
    · rw [List.mem_singleton.mp hMem]
      exact .inl (List.mem_map_of_mem (by simp))
  · intro g hMem
    rw [valuesOf_append]
    rcases mem_middle_iff.mp hMem with rfl | hMem
    · rcases h.2 f (mem_middle_iff.mpr (.inl rfl)) with ⟨hNone, -⟩ | ⟨v, -, hOld⟩
      · rw [hKey, hNone, valuesOf_single]
        exact .inr ⟨value, rfl, hForm⟩
      · exact absurd hOld (hFresh v)
    · have hOther : f.key ≠ g.key := fun hSame => key_notMem_middle hNodup (hSame ▸ List.mem_map_of_mem hMem)
      have hHolds := h.2 g (mem_middle_iff.mpr (.inr hMem))
      simpa [valuesOf, hOther] using hHolds

theorem listFields_put {before after : List Field} {f f' : Field} {values : List (List Char)}
    {value : List Char} (h : ListFields (before ++ f :: after) values) (hBefore : ∀ g ∈ before, ¬ g.Absent)
    (hFresh : ∀ v, ¬ f.Form v) (hForm : f'.Form value) :
    ListFields (before ++ f' :: after) (values ++ [value]) := by
  induction before generalizing values with
  | nil =>
    cases values with
    | nil =>
      have hAbsent := (listFields_nil (f :: after)).mp h
      exact ⟨hForm, (listFields_nil after).mpr fun g hMem => hAbsent g (List.mem_cons_of_mem f hMem)⟩
    | cons first values => exact absurd h.1 (hFresh first)
  | cons g before ih =>
    rw [List.forall_mem_cons] at hBefore
    cases values with
    | nil => exact absurd ((listFields_nil _).mp h g List.mem_cons_self) hBefore.1
    | cons first values => exact ⟨h.1, ih h.2 hBefore.2⟩

theorem valuePlace_put {before after : List Field} {f f' : Field} {layout : Layout} {inner value : List Char}
    (h : ValuePlace (before ++ f :: after) layout f.key inner)
    (hNodup : ((before ++ f :: after).map (·.key)).Nodup) (hKey : f'.key = f.key)
    (hBefore : layout = .list → ∀ g ∈ before, ¬ g.Absent) (hFresh : ∀ v, ¬ f.Form v) (hForm : f'.Form value) :
    Filled (before ++ f' :: after) layout (inner ++ value) := by
  cases layout with
  | object =>
    obtain ⟨place, literal, between, behind, ⟨members, items, hMembers, hNext, hFields⟩, hLiteral, hBetween,
      hBehind, rfl⟩ := h
    have hMember : MemberText StringText (f.key, value) (literal ++ between ++ ':' :: (behind ++ value)) :=
      ⟨literal, between, behind, hLiteral, hBetween, hBehind, rfl⟩
    refine ⟨members ++ [(f.key, value)], _, forall₂_concat hMembers hMember, ?_,
      objectFields_put hFields hNodup hKey hFresh hForm⟩
    simpa using hNext.put (literal ++ between ++ ':' :: (behind ++ value))
  | list =>
    obtain ⟨values, hNext, hFields⟩ := h
    exact ⟨values ++ [value], hNext.put value, listFields_put hFields (hBefore rfl) hFresh hForm⟩

theorem valuePlace_pass {fields : List Field} {key : String} {inner value : List Char}
    (h : ValuePlace fields .object key inner) (hUnknown : key ∉ fields.map (·.key)) (hValue : ValueText value) :
    Filled fields .object (inner ++ value) := by
  obtain ⟨place, literal, between, behind, ⟨members, items, hMembers, hNext, hFields⟩, hLiteral, hBetween,
    hBehind, rfl⟩ := h
  have hMember : MemberText StringText (key, value) (literal ++ between ++ ':' :: (behind ++ value)) :=
    ⟨literal, between, behind, hLiteral, hBetween, hBehind, rfl⟩
  refine ⟨members ++ [(key, value)], _, forall₂_concat hMembers hMember, ?_, ?_, ?_⟩
  · simpa using hNext.put (literal ++ between ++ ':' :: (behind ++ value))
  · intro m hMem
    rcases List.mem_append.mp hMem with hMem | hMem
    · exact hFields.1 m hMem
    · rw [List.mem_singleton.mp hMem]
      exact .inr hValue
  · intro f hField
    have hOther : key ≠ f.key := fun hEq => hUnknown (hEq ▸ List.mem_map_of_mem hField)
    simpa [valuesOf, hOther] using hFields.2 f hField

theorem Filled.append_blanks {fields : List Field} {layout : Layout} {inner after : List Char}
    (h : Filled fields layout inner) (hAfter : Blanks after) : Filled fields layout (inner ++ after) := by
  cases layout with
  | object =>
    obtain ⟨members, items, hMembers, hItems, hFields⟩ := h
    exact ⟨members, items, hMembers, hItems.append_blanks hAfter, hFields⟩
  | list =>
    obtain ⟨values, hItems, hFields⟩ := h
    exact ⟨values, hItems.append_blanks hAfter, hFields⟩

theorem KeyPlace.push_blank {fields : List Field} {inner : List Char} {c : Char} (h : KeyPlace fields inner)
    (hBlank : isBlank c = true) : KeyPlace fields (inner ++ [c]) := by
  obtain ⟨members, items, hMembers, hNext, hFields⟩ := h
  exact ⟨members, items, hMembers, hNext.push_blank hBlank, hFields⟩

theorem ValuePlace.push_blank {fields : List Field} {layout : Layout} {key : String} {inner : List Char}
    {c : Char} (h : ValuePlace fields layout key inner) (hBlank : isBlank c = true) :
    ValuePlace fields layout key (inner ++ [c]) := by
  cases layout with
  | object =>
    obtain ⟨place, literal, before, after, hPlace, hLiteral, hBefore, hAfter, rfl⟩ := h
    exact ⟨place, literal, before, after ++ [c], hPlace, hLiteral, hBefore, hAfter.push hBlank, by simp⟩
  | list =>
    obtain ⟨values, hNext, hFields⟩ := h
    exact ⟨values, hNext.push_blank hBlank, hFields⟩

/-! ## Records that are complete -/

def closing : Layout → Char
  | .object => '}'
  | .list => ']'

theorem recordText_of_filled {fields : List Field} {layout : Layout} {inner : List Char}
    (h : Filled fields layout inner) : RecordText fields (opening layout :: inner ++ [closing layout]) := by
  cases layout with
  | object =>
    obtain ⟨members, items, hMembers, hItems, hFields⟩ := h
    exact .inl ⟨members, ⟨items, inner, hMembers, .inr hItems, rfl⟩, hFields⟩
  | list =>
    obtain ⟨values, hItems, hFields⟩ := h
    exact .inr ⟨values, ⟨inner, .inr hItems, rfl⟩, hFields⟩

theorem objectFields_nil {fields : List Field} (h : ∀ f ∈ fields, f.Absent) : ObjectFields fields [] :=
  ⟨by simp, fun f hMem => .inl ⟨rfl, h f hMem⟩⟩

theorem recordText_of_blanks {fields : List Field} {inner : List Char} (layout : Layout) (h : Blanks inner)
    (hAbsent : ∀ f ∈ fields, f.Absent) : RecordText fields (opening layout :: inner ++ [closing layout]) := by
  cases layout with
  | object => exact .inl ⟨[], ⟨[], inner, .nil, .inl ⟨rfl, h⟩, rfl⟩, objectFields_nil hAbsent⟩
  | list => exact .inr ⟨[], ⟨inner, .inl ⟨rfl, h⟩, rfl⟩, (listFields_nil fields).mpr hAbsent⟩

/-- A field whose conditions are weaker. -/
def Weaker (f f' : Field) : Prop :=
  f'.key = f.key ∧ (∀ value, f.Form value → f'.Form value) ∧ (f.Absent → f'.Absent)

theorem listFields_weaken {fields fields' : List Field} (hFields : List.Forall₂ Weaker fields fields')
    {values : List (List Char)} (h : ListFields fields values) : ListFields fields' values := by
  induction hFields generalizing values with
  | nil => exact h
  | @cons f f' fields fields' hWeaker hRest ih =>
    cases values with
    | nil =>
      rw [listFields_nil, List.forall_mem_cons] at h
      rw [listFields_nil, List.forall_mem_cons]
      refine ⟨hWeaker.2.2 h.1, (listFields_nil fields').mp (ih ((listFields_nil fields).mpr h.2))⟩
    | cons value values => exact ⟨hWeaker.2.1 value h.1, ih h.2⟩

theorem keys_of_weaker {fields fields' : List Field} (h : List.Forall₂ Weaker fields fields') :
    fields'.map (·.key) = fields.map (·.key) := by
  induction h with
  | nil => rfl
  | cons hWeaker _ ih => rw [List.map_cons, List.map_cons, hWeaker.1, ih]

theorem objectFields_weaken {fields fields' : List Field} (hFields : List.Forall₂ Weaker fields fields')
    {members : List (String × List Char)} (h : ObjectFields fields members) : ObjectFields fields' members := by
  refine ⟨by rw [keys_of_weaker hFields]; exact h.1, ?_⟩
  intro f' hMem
  obtain ⟨n, hGet'⟩ := List.mem_iff_getElem?.mp hMem
  obtain ⟨f, hGet, hKey, hForm, hAbsent⟩ := forall₂_getElem? hFields hGet'
  rw [hKey]
  rcases h.2 f (List.mem_of_getElem? hGet) with ⟨hNone, hOld⟩ | ⟨value, hValues, hOld⟩
  · exact .inl ⟨hNone, hAbsent hOld⟩
  · exact .inr ⟨value, hValues, hForm value hOld⟩

theorem recordText_weaken {fields fields' : List Field} (hFields : List.Forall₂ Weaker fields fields')
    {text : List Char} (h : RecordText fields text) : RecordText fields' text := by
  rcases h with ⟨members, hText, hMembers⟩ | ⟨values, hText, hValues⟩
  · exact .inl ⟨members, hText, objectFields_weaken hFields hMembers⟩
  · exact .inr ⟨values, hText, listFields_weaken hFields hValues⟩

theorem elementText_of_draft {depth : Nat} {draft : ElementDraft} {e : Element} {text : List Char}
    (h : RecordText (elementDraftFields (depth + 1) draft) text) (hDepth : depth + 1 < 128)
    (hComplete : draft.complete = .ok e) : ElementText depth e text := by
  obtain ⟨layout, tag, attributes, children⟩ := draft
  cases tag with
  | none => cases layout <;> cases hComplete
  | some tag =>
    cases hComplete
    rw [elementText_iff]
    refine ⟨hDepth, recordText_weaken (.cons ?_ (.cons ?_ (.cons ?_ .nil))) h⟩
    · refine ⟨rfl, ?_, fun hAbsent => by cases hAbsent⟩
      rintro value ⟨a, hGiven, hForm⟩
      cases hGiven
      exact hForm
    · refine ⟨rfl, ?_, fun hAbsent => by simp_all [given]⟩
      rintro value ⟨a, hGiven, hForm⟩
      cases hGiven
      exact hForm
    · refine ⟨rfl, ?_, fun hAbsent => by simp_all [given]⟩
      rintro value ⟨a, hGiven, hForm⟩
      cases hGiven
      exact hForm

theorem attributeText_of_draft {depth : Nat} {draft : AttributeDraft} {a : Attribute} {text : List Char}
    (h : RecordText (attributeDraftFields draft) text) (hDepth : depth + 1 < 128)
    (hComplete : draft.complete = .ok a) : AttributeText depth a text := by
  obtain ⟨layout, name, value⟩ := draft
  match name, value, layout, hComplete with
  | some name, some value, layout, hComplete =>
    cases hComplete
    refine ⟨hDepth, recordText_weaken (.cons ?_ (.cons ?_ .nil)) h⟩
    · refine ⟨rfl, ?_, fun hAbsent => by cases hAbsent⟩
      rintro text ⟨b, hGiven, hForm⟩
      cases hGiven
      exact hForm
    · refine ⟨rfl, ?_, fun hAbsent => by cases hAbsent⟩
      rintro text ⟨b, hGiven, hForm⟩
      cases hGiven
      exact hForm

/-! ## Values that are complete -/

theorem not_form_given {α : Type} {key : String} {Form : α → List Char → Prop} {value : Option α}
    (h : value = none) : ∀ text, ¬ (given key Form value).Form text := by
  rintro text ⟨a, hSome, -⟩
  rw [h] at hSome
  cases hSome

theorem present_given {α : Type} {key : String} {Form : α → List Char → Prop} {value : Option α}
    (h : value ≠ none) : ¬ (given key Form value).Absent := h

theorem holds_tag {draft : ElementDraft} {path : Path} {place value : List Char} {tag : String}
    (hPlace : FieldPlace .tag draft path place) (hValue : StringText tag value) :
    RecordHolds (.element { draft with tag := some tag } path) .after (place ++ value) := by
  obtain ⟨⟨hHas, hNext⟩, hPlace⟩ := hPlace
  refine InBracket.append hPlace fun inner hInner => ?_
  have hFresh : draft.tag = none := by simpa [ElementDraft.has] using hHas
  exact @valuePlace_put [] _ _ (given "tag" StringText (some tag)) _ _ _ hInner
    (by simp [given]) rfl (by simp) (not_form_given hFresh) ⟨tag, rfl, hValue⟩

theorem holds_attributes {draft : ElementDraft} {path : Path} {place value : List Char}
    {attributes : List Attribute} (hPlace : FieldPlace .attributes draft path place)
    (hValue : AttributesText (2 * path.length + 1) attributes value) :
    RecordHolds (.element { draft with attributes := some attributes } path) .after (place ++ value) := by
  obtain ⟨⟨hHas, hNext⟩, hPlace⟩ := hPlace
  refine InBracket.append hPlace fun inner hInner => ?_
  have hFresh : draft.attributes = none := by simpa [ElementDraft.has] using hHas
  refine @valuePlace_put [given "tag" StringText draft.tag] _ _
    (given "attributes" (AttributesText (2 * path.length + 1)) (some attributes)) _ _ _ hInner
    (by simp [given]) rfl ?_ (not_form_given hFresh) ⟨attributes, rfl, hValue⟩
  intro hLayout g hMem
  rw [List.mem_singleton.mp hMem]
  have hNext := hNext hLayout
  refine present_given fun hTag => ?_
  simp [ElementDraft.next?, hTag] at hNext

theorem holds_children {draft : ElementDraft} {path : Path} {place value : List Char}
    {children : List Element} (hPlace : FieldPlace .children draft path place)
    (hValue : ChildrenText (2 * path.length + 1) children value) :
    RecordHolds (.element { draft with children := some children } path) .after (place ++ value) := by
  obtain ⟨⟨hHas, hNext⟩, hPlace⟩ := hPlace
  refine InBracket.append hPlace fun inner hInner => ?_
  have hFresh : draft.children = none := by simpa [ElementDraft.has] using hHas
  refine @valuePlace_put [given "tag" StringText draft.tag,
      given "attributes" (AttributesText (2 * path.length + 1)) draft.attributes] _ _
    (given "children" (ChildrenText (2 * path.length + 1)) (some children)) _ _ _ hInner
    (by simp [given]) rfl ?_ (not_form_given hFresh) ⟨children, rfl, hValue⟩
  intro hLayout g hMem
  have hNext := hNext hLayout
  rcases List.mem_cons.mp hMem with rfl | hMem
  · refine present_given fun hTag => ?_
    simp [ElementDraft.next?, hTag] at hNext
  · rw [List.mem_singleton.mp hMem]
    refine present_given fun hAttributes => ?_
    by_cases hTag : draft.tag = none <;> simp [ElementDraft.next?, hTag, hAttributes] at hNext

theorem holds_name {draft : AttributeDraft} {list : AttributeList} {place value : List Char} {name : String}
    (hPlace : HolePlace (.attributeField .name draft list) place) (hValue : StringText name value) :
    RecordHolds (.attribute { draft with name := some name } list) .after (place ++ value) := by
  obtain ⟨⟨hHas, hNext⟩, hPlace⟩ := hPlace
  refine InBracket.append hPlace fun inner hInner => ?_
  have hFresh : draft.name = none := by simpa [AttributeDraft.has] using hHas
  exact @valuePlace_put [] _ _ (given "name" StringText (some name)) _ _ _ hInner
    (by simp [given]) rfl (by simp) (not_form_given hFresh) ⟨name, rfl, hValue⟩

theorem holds_value {draft : AttributeDraft} {list : AttributeList} {place value : List Char} {text : String}
    (hPlace : HolePlace (.attributeField .value draft list) place) (hValue : StringText text value) :
    RecordHolds (.attribute { draft with value := some text } list) .after (place ++ value) := by
  obtain ⟨⟨hHas, hNext⟩, hPlace⟩ := hPlace
  refine InBracket.append hPlace fun inner hInner => ?_
  have hFresh : draft.value = none := by simpa [AttributeDraft.has] using hHas
  refine @valuePlace_put [given "name" StringText draft.name] _ _ (given "value" StringText (some text)) _ _ _
    hInner (by simp [given]) rfl ?_ (not_form_given hFresh) ⟨text, rfl, hValue⟩
  intro hLayout g hMem
  rw [List.mem_singleton.mp hMem]
  have hNext := hNext hLayout
  refine present_given fun hName => ?_
  simp [AttributeDraft.next?, hName] at hNext

theorem holds_putString {hole : Hole} {place literal : List Char} {text : String} {s : State}
    (hPlace : HolePlace hole place) (hText : StringText text literal) (h : putString hole text = .ok s) :
    Holds s (place ++ literal) := by
  match hole, hPlace with
  | .element path, _ | .attribute list, _ => cases h
  | .elementField .tag draft path, hPlace =>
    cases h
    exact holds_tag hPlace hText
  | .elementField .attributes draft path, _ | .elementField .children draft path, _ => cases h
  | .attributeField .name draft list, hPlace =>
    cases h
    exact holds_name hPlace hText
  | .attributeField .value draft list, hPlace =>
    cases h
    exact holds_value hPlace hText

theorem listHolds_put {α : Type} {Form : α → List Char → Prop} {elders : List α} {inner text : List Char} {a : α}
    (h : ListPlace Form elders inner) (hText : Form a text) :
    ListHolds Form (a :: elders) .after (inner ++ text) := by
  obtain ⟨items, hItems, hNext⟩ := h
  refine ⟨items ++ [text], ?_, hNext.put text⟩
  rw [List.reverse_cons]
  exact forall₂_concat hItems hText

theorem holds_putElement {path : Path} {place text : List Char} {e : Element} (hPlace : ElementPlace path place)
    (hText : ElementText (2 * path.length) e text) : Holds (putElement path e) (place ++ text) := by
  cases path with
  | nil => exact ⟨place, text, [], hPlace, hText, blanks_nil, by simp⟩
  | cons parent path => exact InBracket.append hPlace fun inner hInner => listHolds_put hInner hText

theorem holds_putAttribute {list : AttributeList} {place text : List Char} {a : Attribute}
    (hPlace : AttributePlace list place) (hText : AttributeText (2 * list.path.length + 2) a text) :
    Holds (putAttribute list a) (place ++ text) :=
  InBracket.append hPlace fun _ hInner => listHolds_put hInner hText

/-- The closing bracket of a record completes a tree or an attribute. -/
theorem holds_closeRecord {r : Record} {Inner : List Char → Prop} {text : List Char} {s : State}
    (hText : InRecord r Inner text)
    (hInner : ∀ inner, Inner inner → RecordText (fields r) (opening r.layout :: inner ++ [closing r.layout]))
    (h : closeRecord r = .ok s) : Holds s (text ++ [closing r.layout]) := by
  match r, hText with
  | .element draft path, hText =>
    obtain ⟨start, inner, hStart, hDepth, hInside, rfl⟩ := hText
    cases hComplete : draft.complete with
    | error flaw => simp [closeRecord, hComplete, Except.mapError, Except.map] at h
    | ok e =>
      simp only [closeRecord, hComplete, Except.mapError, Except.map, Except.ok.injEq] at h
      have hElement := elementText_of_draft (hInner inner hInside) hDepth hComplete
      rw [List.append_assoc, ← h]
      exact holds_putElement hStart hElement
  | .attribute draft list, hText =>
    obtain ⟨start, inner, hStart, hDepth, hInside, rfl⟩ := hText
    cases hComplete : draft.complete with
    | error flaw => simp [closeRecord, hComplete, Except.mapError, Except.map] at h
    | ok a =>
      simp only [closeRecord, hComplete, Except.mapError, Except.map, Except.ok.injEq] at h
      have hAttribute := attributeText_of_draft (hInner inner hInside) hDepth hComplete
      rw [List.append_assoc, ← h]
      exact holds_putAttribute hStart hAttribute

/-! ## Steps -/

theorem inRecord_append {r : Record} {Inner Inner' : List Char → Prop} {text rest : List Char}
    (h : InRecord r Inner text) (hInner : ∀ inner, Inner inner → Inner' (inner ++ rest)) :
    InRecord r Inner' (text ++ rest) := by
  cases r <;> exact InBracket.append h hInner

theorem push_blank_holePlace {hole : Hole} {place : List Char} {c : Char} (h : HolePlace hole place)
    (hBlank : isBlank c = true) : HolePlace hole (place ++ [c]) := by
  have hList {α : Type} {Form : α → List Char → Prop} {elders : List α} (inner : List Char)
      (hInner : ListPlace Form elders inner) : ListPlace Form elders (inner ++ [c]) := by
    obtain ⟨items, hItems, hNext⟩ := hInner
    exact ⟨items, hItems, hNext.push_blank hBlank⟩
  match hole, h with
  | .element [], h => exact Blanks.push h hBlank
  | .element (parent :: path), h => exact InBracket.append h hList
  | .attribute list, h => exact InBracket.append h hList
  | .elementField field draft path, ⟨hWants, h⟩ =>
    exact ⟨hWants, InBracket.append h fun inner hInner => hInner.push_blank hBlank⟩
  | .attributeField field draft list, ⟨hWants, h⟩ =>
    exact ⟨hWants, InBracket.append h fun inner hInner => hInner.push_blank hBlank⟩

theorem inBracket_start {Start Inner : List Char → Prop} {depth : Nat} {place : List Char} (bracket : Char)
    (hStart : Start place) (hDepth : depth + 1 < 128) (hInner : Inner []) :
    InBracket Start depth bracket Inner (place ++ [bracket]) :=
  ⟨place, [], hStart, hDepth, hInner, rfl⟩

/-- A bracket is only opened if there is room for it. -/
theorem room_of_open {depth : Nat} {next s : State}
    (h : (if depth < maxDepth then Except.ok next else .error ReadError.malformed) = .ok s) :
    depth + 1 < 128 ∧ next = s := by
  split at h
  · rename_i hDepth
    exact ⟨Nat.succ_lt_succ hDepth, Except.ok.inj h⟩
  · cases h

theorem holds_openBracket {hole : Hole} {layout : Layout} {place : List Char} {s : State}
    (hPlace : HolePlace hole place) (h : openBracket hole layout = .ok s) :
    Holds s (place ++ [opening layout]) := by
  cases hole with
  | element path =>
    obtain ⟨hDepth, rfl⟩ := room_of_open h
    refine ⟨inBracket_start (opening layout) hPlace hDepth blanks_nil, ?_⟩
    simp [fields, elementDraftFields, given]
  | «attribute» list =>
    obtain ⟨hDepth, rfl⟩ := room_of_open h
    refine ⟨inBracket_start (opening layout) hPlace hDepth blanks_nil, ?_⟩
    simp [fields, attributeDraftFields, given]
  | elementField field draft path =>
    cases layout with
    | object => cases field <;> cases h
    | list =>
      cases field with
      | tag => cases h
      | attributes =>
        obtain ⟨hDepth, rfl⟩ := room_of_open h
        exact inBracket_start '[' hPlace hDepth ⟨rfl, blanks_nil⟩
      | children =>
        obtain ⟨hDepth, rfl⟩ := room_of_open h
        exact inBracket_start '[' hPlace hDepth ⟨rfl, blanks_nil⟩
  | attributeField field draft list => cases layout <;> cases h

theorem holds_enter {hole : Hole} {place : List Char} {c : Char} {s : State} (hPlace : HolePlace hole place)
    (h : enter hole c = .ok s) : Holds s (place ++ [c]) := by
  unfold enter at h
  split at h
  · rename_i hQuote
    cases h
    exact ⟨place, [], hPlace, Literal.holds_empty, by rw [hQuote]⟩
  split at h
  · rename_i hList
    rw [hList]
    exact @holds_openBracket hole .list place s hPlace h
  split at h
  · rename_i hObject
    rw [hObject]
    exact @holds_openBracket hole .object place s hPlace h
  split at h
  · cases h
    trivial
  · split at h
    · cases h
      trivial
    · cases h

theorem not_has_of_next? {draft : ElementDraft} {field : ElementField} (h : draft.next? = some field) :
    draft.has field = false := by
  unfold ElementDraft.next? at h
  split at h
  · cases h
    simp_all [ElementDraft.has]
  split at h
  · cases h
    simp_all [ElementDraft.has]
  split at h
  · cases h
    simp_all [ElementDraft.has]
  · cases h

theorem attribute_not_has_of_next? {draft : AttributeDraft} {field : AttributeField} (h : draft.next? = some field) :
    draft.has field = false := by
  unfold AttributeDraft.next? at h
  split at h
  · cases h
    simp_all [AttributeDraft.has]
  split at h
  · cases h
    simp_all [AttributeDraft.has]
  · cases h

/-- In a list a record that wants another field has a place for it. -/
theorem holePlace_of_next? {r : Record} {hole : Hole} {text : List Char} (hLayout : r.layout = .list)
    (hNext : r.next? = some hole)
    (h : InRecord r (fun inner => ∃ values, NextItem values inner ∧ ListFields (fields r) values) text) :
    HolePlace hole text := by
  match r, hLayout, h with
  | .element draft path, hLayout, h =>
    obtain ⟨field, hField, rfl⟩ := Option.map_eq_some_iff.mp hNext
    have hHas := not_has_of_next? hField
    obtain ⟨layout, draft⟩ := draft
    cases hLayout
    exact ⟨⟨hHas, fun _ => hField⟩, h⟩
  | .attribute draft list, hLayout, h =>
    obtain ⟨field, hField, rfl⟩ := Option.map_eq_some_iff.mp hNext
    have hHas := attribute_not_has_of_next? hField
    obtain ⟨layout, draft⟩ := draft
    cases hLayout
    exact ⟨⟨hHas, fun _ => hField⟩, h⟩

theorem ofKey?_eq_some_iff (key : String) (field : ElementField) :
    ElementField.ofKey? key = some field ↔ key = fieldKey field := by
  constructor
  · intro h
    unfold ElementField.ofKey? at h
    split at h
    · rename_i hKey
      cases h
      exact hKey
    split at h
    · rename_i hKey
      cases h
      exact hKey
    split at h
    · rename_i hKey
      cases h
      exact hKey
    · cases h
  · rintro rfl
    cases field <;> rfl

theorem attribute_ofKey?_eq_some_iff (key : String) (field : AttributeField) :
    AttributeField.ofKey? key = some field ↔ key = attributeKey field := by
  constructor
  · intro h
    unfold AttributeField.ofKey? at h
    split at h
    · rename_i hKey
      cases h
      exact hKey
    split at h
    · rename_i hKey
      cases h
      exact hKey
    · cases h
  · rintro rfl
    cases field <;> rfl

/-- In an object a key that is known leads to the hole for its field. -/
theorem holePlace_of_member {r : Record} {hole : Hole} {key : String} {text : List Char}
    (hLayout : r.layout = .object) (hMember : r.member key = .ok (some hole))
    (h : InRecord r (ValuePlace (fields r) .object key) text) : HolePlace hole text := by
  match r, hLayout, h with
  | .element draft path, hLayout, h =>
    obtain ⟨layout, draft⟩ := draft
    cases hLayout
    simp only [Record.member] at hMember
    split at hMember
    · cases hMember
    · rename_i field hField
      split at hMember
      · cases hMember
      · rename_i hHas
        cases hMember
        rw [(ofKey?_eq_some_iff key field).mp hField] at h
        exact ⟨⟨Bool.eq_false_iff.mpr hHas, fun hList => by cases hList⟩, h⟩
  | .attribute draft list, hLayout, h =>
    obtain ⟨layout, draft⟩ := draft
    cases hLayout
    simp only [Record.member] at hMember
    split at hMember
    · cases hMember
    · rename_i field hField
      split at hMember
      · cases hMember
      · rename_i hHas
        cases hMember
        rw [(attribute_ofKey?_eq_some_iff key field).mp hField] at h
        exact ⟨⟨Bool.eq_false_iff.mpr hHas, fun hList => by cases hList⟩, h⟩

theorem unknown_of_member {r : Record} {key : String} (h : r.member key = .ok none) :
    key ∉ (fields r).map (·.key) := by
  intro hMem
  match r, h, hMem with
  | .element draft path, h, hMem =>
    obtain ⟨field, hField⟩ : ∃ field, key = fieldKey field := by
      simp only [fields, elementDraftFields, given, List.map_cons, List.map_nil, List.mem_cons,
        List.not_mem_nil, or_false] at hMem
      rcases hMem with rfl | rfl | rfl
      · exact ⟨.tag, rfl⟩
      · exact ⟨.attributes, rfl⟩
      · exact ⟨.children, rfl⟩
    simp only [Record.member, (ofKey?_eq_some_iff key field).mpr hField] at h
    split at h <;> cases h
  | .attribute draft list, h, hMem =>
    obtain ⟨field, hField⟩ : ∃ field, key = attributeKey field := by
      simp only [fields, attributeDraftFields, given, List.map_cons, List.map_nil, List.mem_cons,
        List.not_mem_nil, or_false] at hMem
      rcases hMem with rfl | rfl
      · exact ⟨.name, rfl⟩
      · exact ⟨.value, rfl⟩
    simp only [Record.member, (attribute_ofKey?_eq_some_iff key field).mpr hField] at h
    split at h <;> cases h

theorem holds_closeEmpty {r : Record} {layout : Layout} {text : List Char} {s : State} (hLayout : r.layout = layout)
    (hText : InRecord r Blanks text) (hAbsent : ∀ f ∈ fields r, f.Absent) (h : closeRecord r = .ok s) :
    Holds s (text ++ [closing layout]) := by
  subst hLayout
  exact holds_closeRecord hText (fun inner hInner => recordText_of_blanks r.layout hInner hAbsent) h

theorem holds_closeFilled {r : Record} {layout : Layout} {text : List Char} {s : State} (hLayout : r.layout = layout)
    (hText : InRecord r (Filled (fields r) layout) text) (h : closeRecord r = .ok s) :
    Holds s (text ++ [closing layout]) := by
  subst hLayout
  exact holds_closeRecord hText (fun inner hInner => recordText_of_filled hInner) h

theorem holds_after_member {r : Record} {text : List Char} {c : Char} {s : State} (hLayout : r.layout = .object)
    (hText : InRecord r (Filled (fields r) .object) text) (hBlank : ¬ isBlank c = true) (h : stepAfter r c = .ok s) :
    Holds s (text ++ [c]) := by
  simp only [stepAfter, if_neg hBlank, hLayout] at h
  split at h
  · rename_i hComma
    cases h
    rw [hComma]
    refine ⟨hLayout, inRecord_append hText fun inner hInner => ?_⟩
    obtain ⟨members, items, hMembers, hItems, hFields⟩ := hInner
    exact ⟨members, items, hMembers, hItems.comma, hFields⟩
  split at h
  · rename_i hClose
    rw [hClose]
    exact holds_closeFilled hLayout hText h
  · cases h

theorem holds_after_item {r : Record} {text : List Char} {c : Char} {s : State} (hLayout : r.layout = .list)
    (hText : InRecord r (Filled (fields r) .list) text) (hBlank : ¬ isBlank c = true) (h : stepAfter r c = .ok s) :
    Holds s (text ++ [c]) := by
  simp only [stepAfter, if_neg hBlank, hLayout] at h
  split at h
  · rename_i hComma
    split at h
    · rename_i hole hNext
      cases h
      rw [hComma]
      refine holePlace_of_next? hLayout hNext (inRecord_append hText fun inner hInner => ?_)
      obtain ⟨values, hItems, hFields⟩ := hInner
      exact ⟨values, hItems.comma, hFields⟩
    · cases h
  split at h
  · rename_i hClose
    rw [hClose]
    exact holds_closeFilled hLayout hText h
  · cases h

/-- Between two fields of a record, or after the last one. -/
theorem holds_stepAfter {r : Record} {text : List Char} {c : Char} {s : State}
    (hText : RecordHolds r .after text) (h : stepAfter r c = .ok s) : Holds s (text ++ [c]) := by
  have hText : InRecord r (Filled (fields r) r.layout) text := hText
  by_cases hBlank : isBlank c = true
  · rw [stepAfter, if_pos hBlank] at h
    cases h
    exact inRecord_append hText fun inner hInner => hInner.append_blanks (blanks_single hBlank)
  · cases hLayout : r.layout with
    | object => exact holds_after_member hLayout (hLayout ▸ hText) hBlank h
    | list => exact holds_after_item hLayout (hLayout ▸ hText) hBlank h

theorem holds_putKey {r : Record} {place literal : List Char} {key : String} {s : State}
    (hLayout : r.layout = .object) (hPlace : InRecord r (KeyPlace (fields r)) place)
    (hKey : StringText key literal) (h : putKey r key = .ok s) : Holds s (place ++ literal) := by
  cases hMember : r.member key with
  | error e => simp [putKey, hMember, Except.map] at h
  | ok target =>
    simp only [putKey, hMember, Except.map, Except.ok.injEq] at h
    subst h
    exact ⟨hLayout, place, key, literal, [], hPlace, hKey, blanks_nil, hMember, by simp⟩

theorem holds_start {r : Record} {text : List Char} {c : Char} {s : State} (h : RecordHolds r .start text)
    (hStep : stepRecord r .start c = .ok s) : Holds s (text ++ [c]) := by
  obtain ⟨hText, hAbsent⟩ := h
  simp only [stepRecord] at hStep
  split at hStep
  · rename_i hBlank
    cases hStep
    exact ⟨inRecord_append hText fun inner hInner => hInner.push hBlank, hAbsent⟩
  split at hStep
  · rename_i hLayout
    split at hStep
    · rename_i hQuote
      cases hStep
      refine ⟨hLayout, text, [], ?_, Literal.holds_empty, by rw [hQuote]⟩
      simpa using @inRecord_append r Blanks (KeyPlace (fields r)) text [] hText fun inner hInner =>
        ⟨[], [], .nil, .inl ⟨rfl, by simpa using hInner⟩, objectFields_nil hAbsent⟩
    split at hStep
    · rename_i hClose
      rw [hClose]
      exact holds_closeEmpty hLayout hText hAbsent hStep
    · cases hStep
  · rename_i hLayout
    split at hStep
    · rename_i hClose
      rw [hClose]
      exact holds_closeEmpty hLayout hText hAbsent hStep
    split at hStep
    · rename_i hole hNext
      refine holds_enter (holePlace_of_next? hLayout hNext ?_) hStep
      simpa using @inRecord_append r Blanks
        (fun inner => ∃ values, NextItem values inner ∧ ListFields (fields r) values) text [] hText
        fun inner hInner => ⟨[], .inl ⟨rfl, by simpa using hInner⟩, (listFields_nil _).mpr hAbsent⟩
    · cases hStep

theorem holds_key {r : Record} {text : List Char} {c : Char} {s : State} (h : RecordHolds r .key text)
    (hStep : stepRecord r .key c = .ok s) : Holds s (text ++ [c]) := by
  obtain ⟨hLayout, hText⟩ := h
  simp only [stepRecord] at hStep
  split at hStep
  · rename_i hBlank
    cases hStep
    exact ⟨hLayout, inRecord_append hText fun inner hInner => hInner.push_blank hBlank⟩
  split at hStep
  · rename_i hQuote
    cases hStep
    exact ⟨hLayout, text, [], hText, Literal.holds_empty, by rw [hQuote]⟩
  · cases hStep

theorem holds_inKey {r : Record} {l : Literal} {text : List Char} {c : Char} {s : State}
    (h : RecordHolds r (.inKey l) text) (hStep : stepRecord r (.inKey l) c = .ok s) : Holds s (text ++ [c]) := by
  obtain ⟨hLayout, place, body, hPlace, hBody, rfl⟩ := h
  simp only [stepRecord] at hStep
  obtain ⟨p, hLiteral, hRest⟩ := bind_eq_ok_iff.mp hStep
  have hRead := hBody.step hLiteral
  cases p with
  | more l' =>
    cases hRest
    exact ⟨hLayout, place, body ++ [c], hPlace, hRead, by simp⟩
  | done key =>
    have hDone := holds_putKey hLayout hPlace hRead hRest
    simpa using hDone

theorem holds_colon {r : Record} {target : Option Hole} {text : List Char} {c : Char} {s : State}
    (h : RecordHolds r (.colon target) text) (hStep : stepRecord r (.colon target) c = .ok s) :
    Holds s (text ++ [c]) := by
  obtain ⟨hLayout, place, key, literal, before, hPlace, hKey, hBefore, hMember, rfl⟩ := h
  simp only [stepRecord] at hStep
  split at hStep
  · rename_i hBlank
    cases hStep
    exact ⟨hLayout, place, key, literal, before ++ [c], hPlace, hKey, hBefore.push hBlank, hMember, by simp⟩
  split at hStep
  · rename_i hColon
    have hValue : InRecord r (ValuePlace (fields r) .object key) (place ++ literal ++ before ++ [c]) := by
      rw [List.append_assoc, List.append_assoc]
      refine inRecord_append hPlace fun inner hInner => ?_
      exact ⟨inner, literal, before, [], hInner, hKey, hBefore, blanks_nil, by simp [hColon]⟩
    cases target with
    | some hole =>
      cases hStep
      exact holePlace_of_member hLayout hMember hValue
    | none =>
      cases hStep
      exact ⟨hLayout, _, key, [], hMember, hValue, Skip.holds_initial, by simp⟩
  · cases hStep

theorem holds_skip {r : Record} {k : Skip} {text : List Char} {c : Char} {s : State}
    (h : RecordHolds r (.skip k) text) (hStep : stepRecord r (.skip k) c = .ok s) : Holds s (text ++ [c]) := by
  obtain ⟨hLayout, place, key, value, hMember, hPlace, hValue, rfl⟩ := h
  simp only [stepRecord] at hStep
  obtain ⟨p, hSkip, hRest⟩ := bind_eq_ok_iff.mp hStep
  have hRead := hValue.step hSkip
  have hFilled {before passed : List Char} (hBefore : Blanks before) (hPassed : ValueText passed) :
      InRecord r (Filled (fields r) r.layout) (place ++ (before ++ passed)) := by
    refine inRecord_append hPlace fun inner hInner => ?_
    rw [hLayout, ← List.append_assoc]
    refine @valuePlace_pass _ key _ _ ?_ (unknown_of_member hMember) hPassed
    obtain ⟨keyPlace, literal, between, behind, hKeyPlace, hLiteral, hBetween, hBehind, rfl⟩ := hInner
    exact ⟨keyPlace, literal, between, behind ++ before, hKeyPlace, hLiteral, hBetween,
      hBehind.append hBefore, by simp⟩
  cases p with
  | more k' =>
    cases hRest
    exact ⟨hLayout, place, key, value ++ [c], hMember, hPlace, hRead, by simp⟩
  | done =>
    cases hRest
    obtain ⟨before, passed, hBefore, hPassed, hEq⟩ := hRead
    rw [List.append_assoc, hEq]
    exact hFilled hBefore hPassed
  | doneBefore =>
    obtain ⟨before, passed, hBefore, hPassed, rfl⟩ := hRead
    exact holds_stepAfter (hFilled hBefore hPassed) hRest

theorem RecordHolds.step {r : Record} {phase : RecordPhase} {text : List Char} {c : Char} {s : State}
    (h : RecordHolds r phase text) (hStep : stepRecord r phase c = .ok s) : Holds s (text ++ [c]) := by
  cases phase with
  | start => exact holds_start h hStep
  | key => exact holds_key h hStep
  | inKey l => exact holds_inKey h hStep
  | colon target => exact holds_colon h hStep
  | skip k => exact holds_skip h hStep
  | after => exact holds_stepAfter h hStep

/-- Between the items of a list. What an item or the closing bracket leads to is left open. -/
theorem ListHolds.push_blank {α : Type} {Form : α → List Char → Prop} {elders : List α} {phase : ListPhase}
    {inner : List Char} {c : Char} (h : ListHolds Form elders phase inner) (hBlank : isBlank c = true) :
    ListHolds Form elders phase (inner ++ [c]) := by
  cases phase with
  | start => exact ⟨h.1, h.2.push hBlank⟩
  | after =>
    obtain ⟨items, hItems, hSeparated⟩ := h
    exact ⟨items, hItems, hSeparated.append_blanks (blanks_single hBlank)⟩

theorem ListHolds.exists_items {α : Type} {Form : α → List Char → Prop} {elders : List α} {phase : ListPhase}
    {inner : List Char} (h : ListHolds Form elders phase inner) :
    ∃ items, List.Forall₂ Form elders.reverse items ∧ ItemsText items inner := by
  cases phase with
  | start =>
    obtain ⟨rfl, hBlanks⟩ := h
    exact ⟨[], .nil, .inl ⟨rfl, hBlanks⟩⟩
  | after =>
    obtain ⟨items, hItems, hSeparated⟩ := h
    exact ⟨items, hItems, .inr hSeparated⟩

theorem holds_stepList {α : Type} {Form : α → List Char → Prop} {elders : List α} {Start : List Char → Prop}
    {depth : Nat} {phase : ListPhase} {text : List Char} {c : Char} {again closed s : State} {item : Hole}
    (h : InBracket Start depth '[' (ListHolds Form elders phase) text)
    (hAgain : InBracket Start depth '[' (ListHolds Form elders phase) (text ++ [c]) → Holds again (text ++ [c]))
    (hItem : ∀ place, InBracket Start depth '[' (ListPlace Form elders) place → HolePlace item place)
    (hClosed : ∀ items start inner, Start start → depth + 1 < 128 → List.Forall₂ Form elders.reverse items →
      ItemsText items inner → Holds closed (start ++ ('[' :: inner ++ [']'])))
    (hStep : stepList phase c again closed item = .ok s) : Holds s (text ++ [c]) := by
  unfold stepList at hStep
  split at hStep
  · rename_i hBlank
    cases hStep
    exact hAgain (InBracket.append h fun inner hInner => hInner.push_blank hBlank)
  split at hStep
  · rename_i hClose
    cases hStep
    obtain ⟨start, inner, hStart, hDepth, hInner, rfl⟩ := h
    obtain ⟨items, hItems, hText⟩ := hInner.exists_items
    rw [hClose, List.append_assoc]
    exact hClosed items start inner hStart hDepth hItems hText
  cases phase with
  | start =>
    refine holds_enter (hItem text ?_) hStep
    have hPlace := @InBracket.append Start _ (ListPlace Form elders) depth '[' text [] h fun inner hInner => by
      obtain ⟨rfl, hBlanks⟩ := hInner
      exact ⟨[], .nil, .inl ⟨rfl, by simpa using hBlanks⟩⟩
    simpa using hPlace
  | after =>
    dsimp only at hStep
    split at hStep
    · rename_i hComma
      cases hStep
      rw [hComma]
      refine hItem _ (InBracket.append h fun inner hInner => ?_)
      obtain ⟨items, hItems, hSeparated⟩ := hInner
      exact ⟨items, hItems, hSeparated.comma⟩
    · cases hStep

theorem holds_awaiting {hole : Hole} {text : List Char} {c : Char} {t : State} (h : HolePlace hole text)
    (hStep : (awaiting hole).step c = .ok t) : Holds t (text ++ [c]) := by
  simp only [State.step] at hStep
  split at hStep
  · rename_i hBlank
    cases hStep
    exact push_blank_holePlace h hBlank
  · exact holds_enter h hStep

theorem holds_string {hole : Hole} {l : Literal} {text : List Char} {c : Char} {t : State}
    (h : Holds (.string hole l) text) (hStep : (State.string hole l).step c = .ok t) : Holds t (text ++ [c]) := by
  obtain ⟨place, body, hPlace, hBody, rfl⟩ := h
  simp only [State.step] at hStep
  obtain ⟨p, hLiteral, hRest⟩ := bind_eq_ok_iff.mp hStep
  have hRead := hBody.step hLiteral
  cases p with
  | more l' =>
    cases hRest
    exact ⟨place, body ++ [c], hPlace, hRead, by simp⟩
  | done text =>
    have hDone := holds_putString hPlace hRead hRest
    simpa using hDone

-- No hole takes a word or a number, so nothing is kept of one and it never ends well.
theorem holds_word {hole : Hole} {rest text : List Char} {found : Found} {c : Char} {t : State}
    (hStep : (State.word hole rest found).step c = .ok t) : Holds t (text ++ [c]) := by
  simp only [State.step] at hStep
  obtain ⟨p, -, hRest⟩ := bind_eq_ok_iff.mp hStep
  cases p with
  | more rest' =>
    cases hRest
    trivial
  | done u => cases hRest

theorem holds_numeral {hole : Hole} {n : Numeral} {text : List Char} {c : Char} {t : State}
    (hStep : (State.numeral hole n).step c = .ok t) : Holds t (text ++ [c]) := by
  simp only [State.step] at hStep
  obtain ⟨p, -, hRest⟩ := bind_eq_ok_iff.mp hStep
  cases p with
  | some n' =>
    cases hRest
    trivial
  | none =>
    obtain ⟨found, -, hNever⟩ := bind_eq_ok_iff.mp hRest
    cases hNever

theorem holds_finished {tree : Element} {text : List Char} {c : Char} {t : State} (h : Holds (.finished tree) text)
    (hStep : (finished tree).step c = .ok t) : Holds t (text ++ [c]) := by
  obtain ⟨before, value, after, hBefore, hValue, hAfter, rfl⟩ := h
  simp only [State.step] at hStep
  split at hStep
  · rename_i hBlank
    cases hStep
    exact ⟨before, value, after ++ [c], hBefore, hValue, hAfter.push hBlank, by simp⟩
  · cases hStep

theorem Holds.step {s t : State} {text : List Char} {c : Char} (h : Holds s text) (hStep : s.step c = .ok t) :
    Holds t (text ++ [c]) := by
  cases s with
  | awaiting hole => exact holds_awaiting h hStep
  | string hole l => exact holds_string h hStep
  | word hole rest found => exact holds_word hStep
  | numeral hole n => exact holds_numeral hStep
  | record r phase => exact RecordHolds.step h hStep
  | attributes list phase =>
    refine holds_stepList h id (fun _ => id) ?_ hStep
    intro items start inner hStart hDepth hItems hInner
    exact holds_attributes hStart ⟨hDepth, items, hItems, inner, hInner, rfl⟩
  | children parent path phase =>
    refine holds_stepList h id (fun _ => id) ?_ hStep
    intro items start inner hStart hDepth hItems hInner
    exact holds_children hStart ⟨hDepth, items, hItems, inner, hInner, rfl⟩
  | finished tree => exact holds_finished h hStep

theorem holds_run {s t : State} {text rest : List Char} (h : Holds s text) (hRun : Steps Next s rest t) :
    Holds t (text ++ rest) := by
  induction hRun generalizing text with
  | refl s => simpa using h
  | head hNext _ ih =>
    have hRest := ih (h.step hNext)
    simpa using hRest

theorem presents_of_run {tree : Element} {text : List Char} (h : initial.run text = .ok (.finished tree)) :
    Presents tree text :=
  holds_run holds_initial ((run_eq_ok_iff _ _ _).mp h)

end Pictogram.Json.State
