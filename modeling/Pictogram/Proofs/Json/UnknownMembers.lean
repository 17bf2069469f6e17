import Pictogram.Proofs.Json.RoundTrip

/-! # Members that are not known

A member with an unknown key is passed over whole, whatever its value is, and the record around it is as it was
before. So nothing that is read after it can tell that it was there.
-/
namespace Pictogram.Json
set_option autoImplicit false
open Format

namespace State
variable {fields : List Field} {done : State} {members : List (String × List Char)} {items : List (List Char)}
  {inner : List Char}

/-- An unknown member leads from where a key can begin to such a place again. -/
theorem steps_unknown {r : Record} {s : State} {key : String} {value member after between : List Char}
    (hLayout : r.layout = .object) (hs : Next s '"' (.record r (.inKey {}))) (hUnknown : r.member key = .ok none)
    (hMember : MemberText StringText (key, value) member) (hValue : ValueText value) (hAfter : Blanks after)
    (hBetween : Blanks between) :
    Steps Next s (member ++ after ++ ',' :: between) (.record r .key) := by
  obtain ⟨t, hSteps, ht⟩ := steps_member hs hMember (.inl ⟨hUnknown, hValue, rfl⟩)
  obtain ⟨u, hBlanks, hu⟩ := steps_blanks (fun s c => rests_blank) hAfter ht
  exact (hSteps.trans hBlanks).trans (.head (rests_comma hLayout hu) (record_key_blanks hBetween))

/-- Inside a record an unknown member changes nothing of what is read. -/
theorem run_unknown (plan : Plan fields done) (hMembers : List.Forall₂ (MemberText StringText) members items)
    (hFields : Unfinished fields members) (hInner : NextItem items inner) {key : String}
    {value member after between : List Char} (hUnknown : key ∉ fields.map (·.key))
    (hMember : MemberText StringText (key, value) member) (hValue : ValueText value) (hAfter : Blanks after)
    (hBetween : Blanks between) (rest : List Char) :
    (record (plan.record .object []) .start).run (inner ++ ((member ++ after ++ ',' :: between) ++ '"' :: rest)) =
      (record (plan.record .object []) .start).run (inner ++ '"' :: rest) := by
  obtain ⟨s, hSteps, hs⟩ :=
    steps_nextMember (fun n => plan.layout_record .object _) (plan.takes hFields) hMembers hInner
  rw [List.take_zero, List.map_nil] at hSteps
  rw [List.take_length] at hs
  have hLayout := plan.layout_record .object (members.map (·.1))
  have hOther := steps_unknown hLayout hs (plan.member_other .object _ key hUnknown) hMember hValue hAfter hBetween
  have hAgain : Next (.record (plan.record .object (members.map (·.1))) .key) '"'
      (.record (plan.record .object (members.map (·.1))) (.inKey {})) := record_quote hLayout (.inl rfl)
  calc (record (plan.record .object []) .start).run (inner ++ ((member ++ after ++ ',' :: between) ++ '"' :: rest))
    _ = (record (plan.record .object (members.map (·.1))) (.inKey {})).run rest := by
      rw [run_of_steps hSteps, run_of_steps hOther]
      exact run_of_steps (.single hAgain) rest
    _ = (record (plan.record .object []) .start).run (inner ++ '"' :: rest) := by
      rw [run_of_steps hSteps]
      exact (run_of_steps (.single hs) rest).symm

end State

/-- In the object of a tree a member with an unknown key can be left out of any text in which another key
follows it. Neither the tree nor the error that the text is read as depends on the member. -/
theorem ofJson_unknown_member {tag : String} {attributes : List Attribute} {children : List Element}
    {members : List (String × List Char)} {items : List (List Char)} {inner : List Char}
    (hMembers : List.Forall₂ (MemberText StringText) members items)
    (hFields : Unfinished (elementFields 1 tag attributes children) members) (hInner : NextItem items inner)
    {key : String} {value member after between : List Char} (hUnknown : key ∉ ["tag", "attributes", "children"])
    (hMember : MemberText StringText (key, value) member) (hValue : ValueText value) (hAfter : Blanks after)
    (hBetween : Blanks between) (rest : List Char) :
    Element.ofJson (String.ofList ('{' :: (inner ++ ((member ++ after ++ ',' :: between) ++ '"' :: rest)))) =
      Element.ofJson (String.ofList ('{' :: (inner ++ '"' :: rest))) := by
  have hOpen (text : List Char) : read ('{' :: text) =
      (State.record (.element { layout := .object } []) .start).run text >>= State.finish := rfl
  simp only [Element.ofJson, String.toList_ofList]
  rw [hOpen, hOpen]
  exact congrArg (· >>= State.finish) (State.run_unknown
    (State.elementPlan tag attributes [] (fun child _ => State.readable child)) hMembers hFields hInner hUnknown hMember
    hValue hAfter hBetween rest)

/-- A key that is spelled by a number, with a number that is too large and half of a character in its value. -/
theorem ofJson_unknown_member_loose :
    let inner := "\"tag\":\"g\",".toList
    let member := "\"\\u0078\":[1e999,\"\\ud800\"]".toList
    let rest := "tag\":\"h\"\x7d".toList
    Element.ofJson (String.ofList ('{' :: (inner ++ ((member ++ [] ++ ',' :: []) ++ '"' :: rest)))) =
        Element.ofJson (String.ofList ('{' :: (inner ++ '"' :: rest))) ∧
      Element.ofJson (String.ofList ('{' :: (inner ++ '"' :: rest))) = .error (.flawed (.duplicate "tag")) := by
  intro inner member rest
  have hMembers : List.Forall₂ (MemberText StringText) [("tag", writeString "g")]
      [writeMember "tag" (writeString "g")] := .cons (memberText_writeMember "tag" (writeString "g")) .nil
  have hFields : Unfinished (elementFields 1 "g" [] []) [("tag", writeString "g")] := by
    constructor
    · simp [elementFields]
    · simp only [elementFields, List.forall_mem_cons]
      exact ⟨.inr ⟨writeString "g", rfl, stringText_writeString "g"⟩, .inl rfl, .inl rfl, by simp⟩
  have hInner : NextItem [writeMember "tag" (writeString "g")] inner :=
    (separated_joined (writeMember "tag" (writeString "g")) []).comma
  have hKey : StringText "x" "\"\\u0078\"".toList := by
    have hDigits : UnitText "0078".toList 'x'.toNat := (unit?_eq_some_iff _ _).mp rfl
    have hLetter : Spelling "\\u0078".toList 'x' := .unit hDigits
    exact ⟨["\\u0078".toList], .cons hLetter .nil, rfl⟩
  have hNumber : ValueText "1e999".toList := by
    have hWhole : WholeText ['1'] := .inr ⟨⟨by simp, by simp⟩, by simp⟩
    have hPower : PowerText "e999".toList :=
      .inr ⟨'e', [], "999".toList, .inl rfl, .inl rfl, ⟨by simp, by simp⟩, rfl⟩
    exact .number ⟨[], ['1'], [], "e999".toList, .inl rfl, hWhole, .inl rfl, hPower, rfl⟩
  have hHalf : ValueText "\"\\ud800\"".toList := by
    have hDigits : UnitText "d800".toList 0xD800 := (unit?_eq_some_iff _ _).mp rfl
    have hUnit : Passing "\\ud800".toList := .unit hDigits
    exact .string ⟨["\\ud800".toList], List.forall_mem_singleton.mpr hUnit, rfl⟩
  have hValue : ValueText "[1e999,\"\\ud800\"]".toList :=
    .list (List.forall_mem_cons.mpr ⟨hNumber, List.forall_mem_singleton.mpr hHalf⟩)
      (arrayText_writeItems ["1e999".toList, "\"\\ud800\"".toList])
  have hMember : MemberText StringText ("x", "[1e999,\"\\ud800\"]".toList) member :=
    ⟨_, [], [], hKey, blanks_nil, blanks_nil, rfl⟩
  refine ⟨ofJson_unknown_member hMembers hFields hInner (by decide) hMember hValue blanks_nil blanks_nil rest, ?_⟩
  decide

end Pictogram.Json
