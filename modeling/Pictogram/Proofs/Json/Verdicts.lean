import Pictogram.Proofs.Json.Arrivals
import Pictogram.Proofs.Json.RoundTrip

/-! # The verdict on the members of an object

An object in which every known key has a value of its kind is judged by its keys. A known key that comes a second
time is reported at that key. If there is none, a key that is missing is reported at the closing brace. Otherwise the
object is read, and the order of its members does not matter.
-/
namespace Pictogram.Json
set_option autoImplicit false
open Format

/-- The value of a known member is one that its field takes. Any other member can have any value. -/
def Suits (kind : RecordKind) (depth : Nat) (m : String × List Char) : Prop :=
  (∃ slot, (m.1, slot) ∈ kind.slots ∧ ∃ v, slot.Text depth v m.2) ∨ m.1 ∉ kind.slots.map (·.1) ∧ ValueText m.2

def knownKeys (kind : RecordKind) (members : List (String × List Char)) : List String :=
  (members.map (·.1)).filter (· ∈ kind.slots.map (·.1))

/-- The text of an object from its brace up to the end of a key, some members being before it. -/
def UpToKey (done : List (String × List Char)) (key : String) (text : List Char) : Prop :=
  ∃ items inner literal, List.Forall₂ (MemberText StringText) done items ∧ NextItem items inner ∧
    StringText key literal ∧ text = '{' :: (inner ++ literal)

/-- `start` is the text of an object up to the end of `key`, the first of its known keys to come a second time. -/
def Repeats (kind : RecordKind) (members : List (String × List Char)) (inner : List Char) (key : String)
    (start : List Char) : Prop :=
  ∃ done value later, members = done ++ (key, value) :: later ∧ (knownKeys kind done).Nodup ∧
    key ∈ knownKeys kind done ∧ UpToKey done key start ∧ start <+: '{' :: inner

/-- The fields of a record are those that the members give; the others are left out, required or not. -/
def Given (kind : RecordKind) (depth : Nat) (v : kind.Value) (members : List (String × List Char)) : Prop :=
  (∀ m ∈ members, m.1 ∈ (kind.entries depth v).map (·.key) ∨ ValueText m.2) ∧ ∀ f ∈ kind.entries depth v,
    (valuesOf f.key members = [] ∧ (f.key ∈ kind.required ∨ f.Absent)) ∨
      ∃ value, valuesOf f.key members = [value] ∧ f.Form value

theorem Given.unfinished {kind : RecordKind} {depth : Nat} {v : kind.Value} {members : List (String × List Char)}
    (h : Given kind depth v members) : Unfinished (kind.entries depth v) members :=
  ⟨h.1, fun f hField => (h.2 f hField).imp_left And.left⟩

theorem Given.objectFields {kind : RecordKind} {depth : Nat} {v : kind.Value} {members : List (String × List Char)}
    (h : Given kind depth v members) (hRequired : ∀ key ∈ kind.required, key ∈ members.map (·.1)) :
    ObjectFields (kind.entries depth v) members := by
  refine ⟨h.1, fun f hField => (h.2 f hField).imp_left ?_⟩
  rintro ⟨hNone, hLeft⟩
  have hMissing := (State.valuesOf_eq_nil_iff f.key members).mp hNone
  exact ⟨hNone, hLeft.resolve_left fun hMem => hMissing (hRequired f.key hMem)⟩

/-! ## Known keys -/

section Keys
variable {kind : RecordKind} {depth : Nat} {members : List (String × List Char)}

theorem knownKeys_append (done rest : List (String × List Char)) :
    knownKeys kind (done ++ rest) = knownKeys kind done ++ knownKeys kind rest := by
  simp [knownKeys]

theorem mem_knownKeys_iff (key : String) :
    key ∈ knownKeys kind members ↔ key ∈ members.map (·.1) ∧ key ∈ kind.slots.map (·.1) := by
  rw [knownKeys, List.mem_filter, decide_eq_true_eq]

/-- The first key that comes a second time. -/
theorem exists_second (h : ¬ (knownKeys kind members).Nodup) : ∃ done key value later,
    members = done ++ (key, value) :: later ∧ (knownKeys kind done).Nodup ∧ key ∈ knownKeys kind done := by
  induction members using List.reverseRecOn with
  | nil => exact absurd List.nodup_nil h
  | append_singleton members m ih =>
    by_cases hDone : (knownKeys kind members).Nodup
    · refine ⟨members, m.1, m.2, [], rfl, hDone, ?_⟩
      by_contra hFresh
      apply h
      rw [knownKeys_append, List.nodup_append]
      refine ⟨hDone, (List.nodup_singleton m.1).filter _, ?_⟩
      intro key hMem other hOther
      obtain rfl : other = m.1 := List.mem_singleton.mp (List.mem_filter.mp hOther).1
      rintro rfl
      exact hFresh hMem
    · obtain ⟨done, key, value, later, rfl, hNodup, hMem⟩ := ih hDone
      exact ⟨done, key, value, later ++ [m], by simp, hNodup, hMem⟩

theorem valuesOf_of_nodup (hNodup : (knownKeys kind members).Nodup) {key : String}
    (hKnown : key ∈ kind.slots.map (·.1)) :
    valuesOf key members = [] ∨ ∃ value, valuesOf key members = [value] ∧ (key, value) ∈ members := by
  induction members with
  | nil => exact .inl rfl
  | cons m members ih =>
    have hTail : (knownKeys kind members).Nodup := by
      rw [← List.singleton_append, knownKeys_append, List.nodup_append] at hNodup
      exact hNodup.2.1
    by_cases hSame : m.1 = key
    · subst hSame
      have hFresh : valuesOf m.1 members = [] := by
        rw [State.valuesOf_eq_nil_iff]
        intro hMem
        rw [knownKeys, List.map_cons, List.filter_cons_of_pos (by simpa using hKnown), List.nodup_cons] at hNodup
        exact hNodup.1 ((mem_knownKeys_iff m.1).mpr ⟨hMem, hKnown⟩)
      refine .inr ⟨m.2, ?_, List.mem_cons_self⟩
      rw [← List.singleton_append, State.valuesOf_append, hFresh, State.valuesOf_single, List.append_nil]
    · have hSkip : valuesOf key (m :: members) = valuesOf key members := by simp [valuesOf, hSame]
      rw [hSkip]
      refine (ih hTail).imp_right ?_
      rintro ⟨value, hOne, hMem⟩
      exact ⟨value, hOne, List.mem_cons_of_mem m hMem⟩

theorem slot_unique {key : String} {slot slot' : Slot} (h : (key, slot) ∈ kind.slots)
    (h' : (key, slot') ∈ kind.slots) : slot = slot' := by
  have hKeys : (kind.slots.map (·.1)).Nodup := by cases kind <;> simp [RecordKind.slots]
  exact congrArg Prod.snd (List.inj_on_of_nodup_map hKeys h h' rfl)

theorem exists_value (hSuits : ∀ m ∈ members, Suits kind depth m) (hNodup : (knownKeys kind members).Nodup)
    {key : String} {slot : Slot} (hSlot : (key, slot) ∈ kind.slots) :
    ∃ v : slot.Value, (valuesOf key members = [] ∧ v = default) ∨
      ∃ value, valuesOf key members = [value] ∧ slot.Text depth v value := by
  have hKnown : key ∈ kind.slots.map (·.1) := List.mem_map_of_mem hSlot
  rcases valuesOf_of_nodup hNodup hKnown with hNone | ⟨value, hOne, hMem⟩
  · -- A list that is left out is empty, and that is the default.
    exact ⟨default, .inl ⟨hNone, rfl⟩⟩
  · rcases hSuits _ hMem with ⟨slot', hSlot', v, hText⟩ | ⟨hOther, -⟩
    · obtain rfl := slot_unique hSlot hSlot'
      exact ⟨v, .inr ⟨value, hOne, hText⟩⟩
    · exact absurd hKnown hOther

theorem exists_given (hSuits : ∀ m ∈ members, Suits kind depth m) (hNodup : (knownKeys kind members).Nodup) :
    ∃ v, Given kind depth v members := by
  have hKnown (v : kind.Value) (m : String × List Char) (hMem : m ∈ members) :
      m.1 ∈ (kind.entries depth v).map (·.key) ∨ ValueText m.2 := by
    rw [kind.keys_entries]
    rcases hSuits m hMem with ⟨slot, hSlot, -⟩ | ⟨-, hValue⟩
    · exact .inl (List.mem_map.mpr ⟨_, hSlot, rfl⟩)
    · exact .inr hValue
  cases kind with
  | element =>
    obtain ⟨tag, hTag⟩ := @exists_value _ _ _ hSuits hNodup "tag" .string (by simp [RecordKind.slots])
    obtain ⟨attributes, hAttributes⟩ :=
      @exists_value _ _ _ hSuits hNodup "attributes" (.list .attribute) (by simp [RecordKind.slots])
    obtain ⟨children, hChildren⟩ :=
      @exists_value _ _ _ hSuits hNodup "children" (.list .element) (by simp [RecordKind.slots])
    refine ⟨⟨tag, attributes, children⟩, hKnown _, ?_⟩
    simp only [RecordKind.entries, elementFields, List.forall_mem_cons]
    refine ⟨hTag.imp_left ?_, hAttributes.imp_left ?_, hChildren.imp_left ?_, by simp⟩
    · exact fun h => ⟨h.1, .inl List.mem_cons_self⟩
    · exact fun h => ⟨h.1, .inr h.2⟩
    · exact fun h => ⟨h.1, .inr h.2⟩
  | «attribute» =>
    obtain ⟨name, hName⟩ := @exists_value _ _ _ hSuits hNodup "name" .string (by simp [RecordKind.slots])
    obtain ⟨value, hValue⟩ := @exists_value _ _ _ hSuits hNodup "value" .string (by simp [RecordKind.slots])
    refine ⟨⟨name, value⟩, hKnown _, ?_⟩
    simp only [RecordKind.entries, attributeFields, List.forall_mem_cons]
    refine ⟨hName.imp_left ?_, hValue.imp_left ?_, by simp⟩
    · exact fun h => ⟨h.1, .inl List.mem_cons_self⟩
    · exact fun h => ⟨h.1, .inl (List.mem_cons_of_mem _ List.mem_cons_self)⟩

end Keys

/-! ## The three verdicts -/

section Verdicts
variable {kind : RecordKind} {depth : Nat} {whole : kind.Value → Element} {before after : List Char}
  {members : List (String × List Char)} {items : List (List Char)} {inner : List Char}

/-- Whatever its fields will be, an object can be opened at a place for a record. -/
theorem exists_open (hPlace : Place (.record kind) depth whole before after) (hDepth : depth + 1 < 128)
    (v : kind.Value) : ∃ hole done, ∃ plan : State.Plan (kind.entries (depth + 1) v) done, State.Opens kind hole plan ∧
      Steps State.Next .initial (before ++ ['{']) (.record (plan.record .object []) .start) := by
  obtain ⟨s, hole, hSteps, hs, hSlot, rfl⟩ := hPlace.ready
  obtain ⟨done, plan, hOpens⟩ := State.exists_plan hSlot hDepth v
  exact ⟨hole, done, plan, hOpens, hSteps.trans (.single (hOpens.steps_open hs).1)⟩

theorem refused_key (hPlace : Place (.record kind) depth whole before after) (hDepth : depth + 1 < 128)
    (hSuits : ∀ m ∈ members, Suits kind (depth + 1) m) (hNodup : (knownKeys kind members).Nodup) {key : String}
    (hTwice : key ∈ knownKeys kind members) {start : List Char} (hStart : UpToKey members key start)
    (rest : List Char) : Refused (before ++ start ++ rest) ("duplicate field `" ++ key ++ "`") := by
  obtain ⟨v, hGiven⟩ := exists_given hSuits hNodup
  obtain ⟨hole, done, plan, hOpens, hBrace⟩ := exists_open hPlace hDepth v
  obtain ⟨items, inner, literal, hMembers, hInner, hKey, rfl⟩ := hStart
  obtain ⟨hSeen, hKnown⟩ := (mem_knownKeys_iff key).mp hTwice
  obtain ⟨t, hSteps, ht⟩ := State.steps_nextMember (fun n => plan.layout_record .object _)
    (plan.takes hGiven.unfinished) hMembers hInner
  rw [List.take_length] at ht
  obtain ⟨body, u, rfl, hBody, hQuote⟩ := State.steps_keyBody ht hKey
  have hFlaw : u.step '"' = .error (.flawed (.duplicate key)) := by
    rw [hQuote, State.putKey, hOpens.member_twice _ key hKnown hSeen]
    rfl
  have hText : before ++ '{' :: (inner ++ (body ++ ['"'])) ++ rest =
      before ++ ['{'] ++ (inner ++ body) ++ '"' :: rest := by simp
  rw [hText]
  exact refused_of_step (hBrace.trans (hSteps.trans hBody)) hFlaw rest

theorem refused_brace (hPlace : Place (.record kind) depth whole before after) (hDepth : depth + 1 < 128)
    (hMembers : List.Forall₂ (MemberText StringText) members items) (hItems : ItemsText items inner)
    (hSuits : ∀ m ∈ members, Suits kind (depth + 1) m) (hNodup : (knownKeys kind members).Nodup) {key : String}
    (hMissing : kind.required.find? (· ∉ members.map (·.1)) = some key) (rest : List Char) :
    Refused (before ++ '{' :: (inner ++ '}' :: rest)) ("missing field `" ++ key ++ "`") := by
  obtain ⟨v, hGiven⟩ := exists_given hSuits hNodup
  obtain ⟨hole, done, plan, hOpens, hBrace⟩ := exists_open hPlace hDepth v
  obtain ⟨t, hSteps, hClose⟩ := State.steps_members (fun n => plan.layout_record .object _)
    (plan.takes hGiven.unfinished) hMembers hItems
  rw [List.take_length] at hClose
  have hFlaw : t.step '}' = .error (.flawed (.missing key)) := hClose.trans (hOpens.close_missing _ key hMissing)
  have hText : before ++ '{' :: (inner ++ '}' :: rest) = before ++ ['{'] ++ inner ++ '}' :: rest := by simp
  rw [hText]
  exact refused_of_step (hBrace.trans hSteps) hFlaw rest

theorem valuesOf_perm {members' : List (String × List Char)} (h : members'.Perm members) (key : String) :
    (valuesOf key members').Perm (valuesOf key members) :=
  (h.filter _).map _

theorem objectFields_perm {fields : List Field} {members' : List (String × List Char)} (h : members'.Perm members)
    (hFields : ObjectFields fields members) : ObjectFields fields members' := by
  refine ⟨fun m hMem => hFields.1 m (h.mem_iff.mp hMem), fun f hField => ?_⟩
  have hValues := valuesOf_perm h f.key
  rcases hFields.2 f hField with ⟨hNone, hAbsent⟩ | ⟨value, hOne, hForm⟩
  · rw [hNone] at hValues
    exact .inl ⟨hValues.eq_nil, hAbsent⟩
  · rw [hOne] at hValues
    exact .inr ⟨value, List.perm_singleton.mp hValues, hForm⟩

theorem ofJson_object (hPlace : Place (.record kind) depth whole before after) (hDepth : depth + 1 < 128)
    (hMembers : List.Forall₂ (MemberText StringText) members items) (hItems : ItemsText items inner) {v : kind.Value}
    (hFields : ObjectFields (kind.entries (depth + 1) v) members) :
    Element.ofJson (String.ofList (before ++ '{' :: (inner ++ '}' :: after))) = .ok (whole v) := by
  have hText : kind.Text depth v ('{' :: inner ++ ['}']) :=
    (kind.text_iff depth v _).mpr ⟨hDepth, .inl ⟨members, ⟨items, inner, hMembers, hItems, rfl⟩, hFields⟩⟩
  have hRead := ofJson_of_presents (hPlace.presents hText)
  simpa using hRead

/-- If a known key comes twice, the text of the object has a first such key. -/
theorem exists_repeats (hMembers : List.Forall₂ (MemberText StringText) members items) (hItems : ItemsText items inner)
    (hTwice : ¬ (knownKeys kind members).Nodup) : ∃ key start, Repeats kind members inner key start := by
  obtain ⟨done, key, value, later, rfl, hNodup, hMem⟩ := exists_second hTwice
  obtain ⟨before, item, after, hDone, hMember, -, rfl⟩ := forall₂_split hMembers
  obtain ⟨first, post, hFirst, -, rfl⟩ := hItems.split
  obtain ⟨literal, blanks, blanks', hKey, -, -, rfl⟩ := hMember
  have hStart : UpToKey done key ('{' :: (first ++ literal)) := ⟨before, first, literal, hDone, hFirst, hKey, rfl⟩
  refine ⟨key, _, done, value, later, rfl, hNodup, hMem, hStart, ?_⟩
  exact ⟨blanks ++ ':' :: (blanks' ++ value) ++ post, by simp⟩

/-- Which of the three verdicts an object gets at a place of a text, whatever stands around it.

* If a known key comes a second time, the text up to the end of the first such key is refused.
* If a required key is missing, the text up to the closing brace is refused.
* Otherwise the object is read as the record with the given fields, and so is every object with the same members in
  another order. -/
theorem object_verdict (hPlace : Place (.record kind) depth whole before after) (hDepth : depth + 1 < 128)
    (hMembers : List.Forall₂ (MemberText StringText) members items) (hItems : ItemsText items inner)
    (hSuits : ∀ m ∈ members, Suits kind (depth + 1) m) :
    (¬ (knownKeys kind members).Nodup → ∃ key start, Repeats kind members inner key start) ∧
    (∀ key start, Repeats kind members inner key start →
      ∀ rest, Refused (before ++ start ++ rest) ("duplicate field `" ++ key ++ "`")) ∧
    ((knownKeys kind members).Nodup → ∀ key, kind.required.find? (· ∉ members.map (·.1)) = some key →
      ∀ rest, Refused (before ++ '{' :: (inner ++ '}' :: rest)) ("missing field `" ++ key ++ "`")) ∧
    ((knownKeys kind members).Nodup → (∀ key ∈ kind.required, key ∈ members.map (·.1)) →
      ∃ v, ObjectFields (kind.entries (depth + 1) v) members ∧ ∀ members' items' inner', members'.Perm members →
        List.Forall₂ (MemberText StringText) members' items' → ItemsText items' inner' →
          Element.ofJson (String.ofList (before ++ '{' :: (inner' ++ '}' :: after))) = .ok (whole v)) := by
  refine ⟨fun hTwice => exists_repeats hMembers hItems hTwice, ?_, fun hNodup key hMissing => ?_,
    fun hNodup hRequired => ?_⟩
  · rintro key start ⟨done, value, later, rfl, hNodup, hMem, hStart, -⟩
    have hDone (m : String × List Char) (hMem : m ∈ done) : Suits kind (depth + 1) m :=
      hSuits m (List.mem_append_left _ hMem)
    exact refused_key hPlace hDepth hDone hNodup hMem hStart
  · exact refused_brace hPlace hDepth hMembers hItems hSuits hNodup hMissing
  · obtain ⟨v, hGiven⟩ := exists_given hSuits hNodup
    have hFields := hGiven.objectFields hRequired
    refine ⟨v, hFields, fun members' items' inner' hPerm hMembers' hItems' => ?_⟩
    exact ofJson_object hPlace hDepth hMembers' hItems' (objectFields_perm hPerm hFields)

end Verdicts

/-- An attribute that has no name and two values. The second value is reported, although the text breaks off there. -/
theorem object_verdict_nameless :
    Refused ("[\"g\",[".toList ++ "\x7b\"value\":\"1\",\"x\":null,\"value\"".toList ++ [])
      ("duplicate field `" ++ "value" ++ "`") := by
  have hDone : List.Forall₂ (MemberText StringText) [("value", writeString "1"), ("x", "null".toList)]
      [writeMember "value" (writeString "1"), writeMember "x" "null".toList] :=
    .cons (memberText_writeMember "value" (writeString "1")) (.cons (memberText_writeMember "x" "null".toList) .nil)
  have hMembers := forall₂_concat hDone (memberText_writeMember "value" (writeString "2"))
  have hItems : ItemsText ([writeMember "value" (writeString "1"), writeMember "x" "null".toList] ++
      [writeMember "value" (writeString "2")]) "\"value\":\"1\",\"x\":null,\"value\":\"2\"".toList :=
    .inr (separated_joined _ [_, _])
  have hValue (s : String) : Suits .attribute 3 ("value", writeString s) :=
    .inl ⟨.string, by simp [RecordKind.slots], s, stringText_writeString s⟩
  have hOther : Suits .attribute 3 ("x", "null".toList) := .inr ⟨by decide, .word (by simp)⟩
  have hSuits : ∀ m ∈ [("value", writeString "1"), ("x", "null".toList)] ++ [("value", writeString "2")],
      Suits .attribute 3 m := by
    simp only [List.cons_append, List.nil_append, List.forall_mem_cons]
    exact ⟨hValue "1", hOther, hValue "2", by simp⟩
  have hStart : UpToKey [("value", writeString "1"), ("x", "null".toList)] "value"
      "\x7b\"value\":\"1\",\"x\":null,\"value\"".toList :=
    ⟨_, _, _, hDone, (separated_joined _ [_]).comma, stringText_writeString "value", rfl⟩
  exact (object_verdict (place_onlyAttribute (stringText_writeString "g")) (by decide) hMembers hItems hSuits).2.1
    "value" _ ⟨_, _, _, rfl, by decide, by decide, hStart, ':' :: writeString "2", rfl⟩ []

/-- The members of any object in a text that is read can change places. -/
theorem part_reordered {text : String} {tree : Element} (h : Element.ofJson text = .ok tree) {kind : RecordKind}
    {depth : Nat} {whole : kind.Value → Element} {v : kind.Value} (hPart : Part tree (.record kind) depth whole v) :
    ∃ before value after, text.toList = before ++ value ++ after ∧ ((∃ values, ArrayText values value) ∨
      ∃ members, ObjectText StringText members value ∧ ∀ members' value', members'.Perm members →
        ObjectText StringText members' value' →
          Element.ofJson (String.ofList (before ++ value' ++ after)) = .ok tree) := by
  obtain ⟨before, value, after, hPlace, hValue, hText⟩ := (hPart.stands (presents_of_ofJson h)).resolve_left id
  have hRecord : kind.Text depth v value := hValue
  rw [kind.text_iff] at hRecord
  obtain ⟨hDepth, ⟨members, hObject, hFields⟩ | ⟨values, hArray, -⟩⟩ := hRecord
  · refine ⟨before, value, after, hText, .inr ⟨members, hObject, ?_⟩⟩
    rintro members' value' hPerm ⟨items, inner, hMembers, hItems, rfl⟩
    have hRead := ofJson_object hPlace hDepth hMembers hItems (objectFields_perm hPerm hFields)
    rw [hPart.whole_eq] at hRead
    simpa using hRead
  · exact ⟨before, value, after, hText, .inl ⟨values, hArray⟩⟩

end Pictogram.Json
