import Pictogram.Proofs.Json.Places

/-! # Reading up to a place

What stands before a place leads the reader to a hole for the value there, whatever follows. In a record that is
open the keys of the members so far decide what the next key or the closing bracket does.
-/
namespace Pictogram.Json
set_option autoImplicit false
open Format

def Slot.expected : Slot → Expected
  | .record kind => .record kind
  | .list _ => .list
  | .string => .string

def Hole.slot : Hole → Slot
  | .element _ => .record .element
  | .attribute _ => .record .attribute
  | .elementField .tag _ _ => .string
  | .elementField .attributes _ _ => .list .attribute
  | .elementField .children _ _ => .list .element
  | .attributeField _ _ _ => .string

theorem Hole.expected_eq (hole : Hole) : hole.expected = hole.slot.expected := by
  rcases hole with path | list | ⟨_ | _ | _, draft, path⟩ | ⟨field, draft, list⟩ <;> rfl

/-- The keys that an object cannot do without. The first of them that does not occur is reported. -/
def RecordKind.required : RecordKind → List String
  | .element => ["tag"]
  | .attribute => ["name", "value"]

namespace State

/-! ## Records -/

/-- A plan for the record that a hole takes. -/
structure Opens (kind : RecordKind) (hole : Hole) {fields : List Field} {done : State} (plan : Plan fields done) :
    Prop where
  opened : ∀ layout, openBracket hole layout = .ok (.record (plan.record layout []) .start)
  slot_hole : ∀ layout keys key slot, (key, slot) ∈ kind.slots → (plan.hole layout keys key).slot = slot
  depth_hole : ∀ layout keys key, (plan.hole layout keys key).depth = hole.depth + 1
  member_twice : ∀ keys, ∀ key ∈ kind.slots.map (·.1), key ∈ keys →
    (plan.record .object keys).member key = .error (.flawed (.duplicate key))
  close_missing : ∀ keys key, kind.required.find? (· ∉ keys) = some key →
    closeRecord (plan.record .object keys) = .error (.flawed (.missing key))

theorem opens_element {path : Path} (hDepth : (Hole.element path).depth + 1 < 128) (e : Element) :
    Opens .element (.element path) (@elementPlan e.tag e.attributes e.children path fun child _ => readable child) where
  opened layout := openBracket_element layout hDepth
  slot_hole layout keys key slot hMem := by
    simp only [RecordKind.slots, List.mem_cons, List.not_mem_nil, or_false, Prod.mk.injEq] at hMem
    rcases hMem with ⟨rfl, rfl⟩ | ⟨rfl, rfl⟩ | ⟨rfl, rfl⟩ <;> rfl
  depth_hole layout keys key := rfl
  member_twice keys key hKnown hTwice := by
    simp only [RecordKind.slots, List.map_cons, List.map_nil, List.mem_cons, List.not_mem_nil, or_false] at hKnown
    rcases hKnown with rfl | rfl | rfl <;>
      simp [elementPlan, elementDraft, Record.member, ElementField.ofKey?, ElementDraft.has, hTwice]
  close_missing keys key hMissing := by
    simp only [RecordKind.required, List.find?_singleton, Option.ite_none_right_eq_some, decide_eq_true_eq,
      Option.some.injEq] at hMissing
    obtain ⟨hTag, rfl⟩ := hMissing
    simp [closeRecord, elementPlan, elementDraft, ElementDraft.complete, hTag, Except.mapError, Except.map]

theorem opens_attribute {list : AttributeList} (hDepth : (Hole.attribute list).depth + 1 < 128) (a : Attribute) :
    Opens .attribute (.attribute list) (attributePlan a list) where
  opened layout := openBracket_attribute layout hDepth
  slot_hole layout keys key slot hMem := by
    simp only [RecordKind.slots, List.mem_cons, List.not_mem_nil, or_false, Prod.mk.injEq] at hMem
    rcases hMem with ⟨rfl, rfl⟩ | ⟨rfl, rfl⟩ <;> rfl
  depth_hole layout keys key := rfl
  member_twice keys key hKnown hTwice := by
    simp only [RecordKind.slots, List.map_cons, List.map_nil, List.mem_cons, List.not_mem_nil, or_false] at hKnown
    rcases hKnown with rfl | rfl <;>
      simp [attributePlan, attributeDraft, Record.member, AttributeField.ofKey?, AttributeDraft.has, hTwice]
  close_missing keys key hMissing := by
    by_cases hName : "name" ∈ keys
    · by_cases hValue : "value" ∈ keys
      · simp [RecordKind.required, hName, hValue] at hMissing
      · obtain rfl : "value" = key := by simpa [RecordKind.required, hName, hValue] using hMissing
        simp [closeRecord, attributePlan, attributeDraft, AttributeDraft.complete, hName, hValue, Except.mapError,
          Except.map]
    · obtain rfl : "name" = key := by simpa [RecordKind.required, hName] using hMissing
      simp [closeRecord, attributePlan, attributeDraft, AttributeDraft.complete, hName, Except.mapError, Except.map]

/-- Whatever its fields will be, a record can be opened where one is expected. -/
theorem exists_plan {kind : RecordKind} {hole : Hole} (hSlot : hole.slot = .record kind)
    (hDepth : hole.depth + 1 < 128) (v : kind.Value) :
    ∃ done, ∃ plan : Plan (kind.entries (hole.depth + 1) v) done, Opens kind hole plan := by
  rcases hole with path | list | ⟨_ | _ | _, draft, path⟩ | ⟨field, draft, list⟩ <;> cases hSlot
  · exact ⟨_, _, opens_element hDepth v⟩
  · exact ⟨_, _, opens_attribute hDepth v⟩

theorem Opens.steps_open {kind : RecordKind} {hole : Hole} {fields : List Field} {done : State}
    {plan : Plan fields done} (h : Opens kind hole plan) {s : State} (hs : Ready s hole) :
    Next s '{' (.record (plan.record .object []) .start) ∧ Next s '[' (.record (plan.record .list []) .start) :=
  ⟨(hs '{' rfl (by decide)).trans (h.opened .object), (hs '[' rfl (by decide)).trans (h.opened .list)⟩

/-! ## Places -/

theorem unfinished_done {fields : List Field} {done rest : List (String × List Char)}
    (h : ObjectFields fields (done ++ rest)) : Unfinished fields done := by
  refine ⟨fun m hMem => h.1 m (List.mem_append_left rest hMem), fun f hField => ?_⟩
  rcases h.2 f hField with ⟨hNone, -⟩ | ⟨value, hOne, hForm⟩
  · rw [valuesOf_append] at hNone
    exact .inl (List.append_eq_nil_iff.mp hNone).1
  · rw [valuesOf_append] at hOne
    rcases List.append_eq_singleton_iff.mp hOne with ⟨hDone, -⟩ | ⟨hDone, -⟩
    · exact .inl hDone
    · exact .inr ⟨value, hDone, hForm⟩

/-- What is known of the other fields is enough before the value of one of them is read. -/
theorem unfinished_middle {early late : List Field} {f : Field} {done rest : List (String × List Char)}
    (h : ObjectFields (early ++ late) (done ++ rest)) (hOnly : f.key ∉ (done ++ rest).map (·.1)) :
    Unfinished (early ++ f :: late) done := by
  obtain ⟨hKnown, hForms⟩ := unfinished_done h
  constructor
  · intro m hMem
    exact (hKnown m hMem).imp_left fun hKey => mem_keys_middle_iff.mpr (.inr hKey)
  · intro g hMem
    rcases mem_middle_iff.mp hMem with rfl | hMem
    · refine .inl ((valuesOf_eq_nil_iff g.key done).mpr fun hDone => hOnly ?_)
      rw [List.map_append]
      exact List.mem_append_left _ hDone
    · exact hForms g hMem

section Spots
variable {kind : RecordKind} {hole : Hole} {fields early late : List Field} {f : Field} {done : State}
  {plan : Plan fields done} {before after : List Char} {s : State}

theorem Opens.ready_spot (h : Opens kind hole plan) (hFields : fields = early ++ f :: late)
    (hSpot : FieldSpot early f.key late before after) (hs : Ready s hole) :
    ∃ t layout keys, Steps Next s before t ∧ Ready t (plan.hole layout keys f.key) := by
  subst hFields
  cases hSpot with
  | @object members rest items others inner literal blanks blanks' post hDone _ hOther hOnly hInner hKey hBefore
      hAfter _ =>
    obtain ⟨t, hMembers, ht⟩ := steps_nextMember (fun n => plan.layout_record .object _)
      (plan.takes (unfinished_middle hOther hOnly)) hDone hInner
    rw [List.take_length] at ht
    have hFresh : f.key ∉ members.map (·.1) := by
      rw [List.map_append] at hOnly
      exact fun hMem => hOnly (List.mem_append_left _ hMem)
    have hValue := steps_toValue ht hKey hBefore hAfter
      (plan.member_field .object (members.map (·.1)) f (by simp) hFresh)
    have hSteps := Steps.head (h.steps_open hs).1 (hMembers.trans hValue)
    exact ⟨_, _, _, by simpa using hSteps, ready_awaiting _⟩
  | @list values rest inner post hDone _ hInner _ =>
    have hTakes (n : Nat) (value : List Char) (hGet : values[n]? = some value) :
        ∃ g : Field, (early ++ f :: late)[n]? = some g ∧ g.Form value := by
      obtain ⟨g, hField, hForm⟩ := forall₂_getElem? hDone hGet
      exact ⟨g, by rw [List.getElem?_append_left (List.getElem?_eq_some_iff.mp hField).1, hField], hForm⟩
    have hThis : (early ++ f :: late)[values.length]? = some f := by simp [← hDone.length_eq]
    have hNext := plan.next?_record .list (((early ++ f :: late).take values.length).map (·.key))
    rw [find?_take plan.nodup hThis] at hNext
    obtain ⟨t, hItems, ht⟩ :=
      steps_nextField (fun n => plan.layout_record .list _) (plan.takesInOrder hTakes) hInner hNext
    exact ⟨t, _, _, .head (h.steps_open hs).2 hItems, ht⟩

theorem ready_items {elders youngers : List kind.Value} (hSlot : hole.slot = .list kind)
    (hDepth : hole.depth + 1 < 128) (hSpot : ItemSpot (kind.Text (hole.depth + 1)) elders youngers before after)
    (hs : Ready s hole) :
    ∃ t hole', Steps Next s before t ∧ Ready t hole' ∧ hole'.slot = .record kind ∧ hole'.depth = hole.depth + 1 := by
  obtain @⟨items, others, inner, post, hElders, -, hInner, -⟩ := hSpot
  rcases hole with path | list | ⟨_ | _ | _, draft, path⟩ | ⟨field, draft, list⟩ <;> cases hSlot
  · obtain ⟨t, hSteps, ht⟩ := @steps_nextItem (fun n => .attributes ⟨draft, path, (elders.take n).reverse⟩)
      (fun n => closeAttributes ⟨draft, path, (elders.take n).reverse⟩)
      (fun n => .attribute ⟨draft, path, (elders.take n).reverse⟩) items inner (fun _ _ _ => rfl)
      (steps_nextAttribute hElders) hInner
    exact ⟨t, _, .head (attributes_open hs hDepth) hSteps, ht, rfl, rfl⟩
  · obtain ⟨t, hSteps, ht⟩ := @steps_nextItem (fun n => .children ⟨draft, (elders.take n).reverse⟩ path)
      (fun n => closeChildren ⟨draft, (elders.take n).reverse⟩ path)
      (fun n => .element (⟨draft, (elders.take n).reverse⟩ :: path)) items inner (fun _ _ _ => rfl)
      (steps_nextChild (fun child _ => readable child) hElders) hInner
    exact ⟨t, _, .head (children_open hs hDepth) hSteps, ht, rfl, rfl⟩

end Spots

end State

/-- The reader comes to a place with a hole for what the place takes. -/
theorem Format.Place.ready {slot : Slot} {depth : Nat} {whole : slot.Value → Element} {before after : List Char}
    (h : Place slot depth whole before after) :
    ∃ s hole, Steps State.Next .initial before s ∧ State.Ready s hole ∧ hole.slot = slot ∧ hole.depth = depth := by
  induction h with
  | root hBefore _ => exact ⟨_, _, State.awaiting_blanks hBefore, State.ready_awaiting _, rfl, rfl⟩
  | @field kind depth whole start stop before after slot put early late key absent _ hDepth hSlot hPut hSpot ih =>
    obtain ⟨s, hole, hStart, hs, hKind, rfl⟩ := ih
    -- The other fields alone decide how the place is reached, so any value will do for the one that is read there.
    obtain ⟨done, plan, hOpens⟩ := State.exists_plan hKind hDepth (put default)
    obtain ⟨t, layout, keys, hBefore, ht⟩ := hOpens.ready_spot (hPut default) hSpot hs
    exact ⟨t, _, hStart.trans hBefore, ht, hOpens.slot_hole layout keys key slot hSlot,
      hOpens.depth_hole layout keys key⟩
  | item _ hDepth hSpot ih =>
    obtain ⟨s, hole, hStart, hs, hKind, rfl⟩ := ih
    obtain ⟨t, hole', hBefore, ht, hSlot, hDeeper⟩ := State.ready_items hKind hDepth hSpot hs
    exact ⟨t, hole', hStart.trans hBefore, ht, hSlot, hDeeper⟩

/-! ## Refusals -/

/-- A text is refused for what it says, with a message. -/
def Refused (text : List Char) (message : String) : Prop :=
  ∃ flaw, Element.ofJson (String.ofList text) = .error (.flawed flaw) ∧ flaw.message = message

theorem refused_of_run {text : List Char} {flaw : Flaw} (h : State.initial.run text = .error (.flawed flaw)) :
    Refused text flaw.message := by
  refine ⟨flaw, ?_, rfl⟩
  rw [Element.ofJson, String.toList_ofList, read, h]
  rfl

/-- Once a flaw is found, what follows does not matter. -/
theorem refused_of_step {s : State} {text : List Char} {c : Char} {flaw : Flaw}
    (h : Steps State.Next .initial text s) (hStep : s.step c = .error (.flawed flaw)) (rest : List Char) :
    Refused (text ++ c :: rest) flaw.message := by
  apply refused_of_run
  rw [State.run_of_steps h, State.run_cons, hStep]
  rfl

end Pictogram.Json
