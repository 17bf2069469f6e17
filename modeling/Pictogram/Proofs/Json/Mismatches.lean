import Pictogram.Proofs.Json.Arrivals
import Pictogram.Proofs.Json.RoundTrip

/-! # Values of the wrong type

A value that a slot does not take is reported in the same words at every place of every text. The words for the value
depend on the value alone and those for what is expected on the slot alone, and what follows does not matter.
-/
namespace Pictogram.Json
set_option autoImplicit false
open Format

/-! ## What is written and what is said about it -/

def decimal (digits : List Char) : Nat :=
  digits.foldl (fun n c => 10 * n + Numeral.digitValue c) 0

/-- How an integer is written. There is no `-0`. -/
inductive IntegerText : Int → List Char → Prop
  | natural {digits : List Char} (h : WholeText digits) : IntegerText (decimal digits) digits
  | negative {digits : List Char} (h : WholeText digits) (hZero : digits ≠ ['0']) :
      IntegerText (-decimal digits) ('-' :: digits)

def Slot.phrase : Slot → String
  | .record .element => "struct SvgElement"
  | .record .attribute => "struct Attribute"
  | .list _ => "a sequence"
  | .string => "a string"

/-- The texts of values that a slot does not take, and the words for them. Of a list or an object the opening bracket
is enough. -/
inductive Misfit (slot : Slot) : List Char → String → Prop
  | null : Misfit slot "null".toList "null"
  | boolean (b : Bool) : Misfit slot (toString b).toList ("boolean `" ++ toString b ++ "`")
  | integer {n : Int} {text : List Char} (h : IntegerText n text) (hLow : -Nat.pow 2 63 ≤ n)
      (hHigh : n < Nat.pow 2 64) : Misfit slot text ("integer `" ++ toString n ++ "`")
  | string {s : String} {text : List Char} (h : StringText s text) (hSlot : slot ≠ .string) :
      Misfit slot text ("string " ++ Text.Quoted.quote s)
  | list (hSlot : slot = .string) : Misfit slot ['['] "sequence"
  | object (hSlot : ∀ kind, slot ≠ .record kind) : Misfit slot ['{'] "map"

theorem Slot.phrase_expected (slot : Slot) : slot.expected.phrase = slot.phrase := by
  rcases slot with (_ | _) | _ | _ <;> rfl

/-! ## Integers -/

namespace Numeral

theorem le_foldl_digits (digits : List Nat) (n : Nat) : n ≤ digits.foldl (fun n d => 10 * n + d) n := by
  induction digits generalizing n with
  | nil => exact Nat.le_refl n
  | cons d digits ih =>
    have hRest := ih (10 * n + d)
    rw [List.foldl_cons]
    omega

/-- All digits are taken in if the number that they form stays within the limit. -/
theorem absorb_eq {digits : List Nat} {n : Nat} (h : digits.foldl (fun n d => 10 * n + d) n ≤ limit) :
    absorb n digits = (digits.foldl (fun n d => 10 * n + d) n, digits.length) := by
  induction digits generalizing n with
  | nil => rfl
  | cons d digits ih =>
    rw [List.foldl_cons] at h
    have hFirst : 10 * n + d ≤ limit := Nat.le_trans (le_foldl_digits digits _) h
    rw [absorb, if_pos hFirst, ih h]
    rfl

theorem found_whole {phase : NumeralPhase} {negative : Bool} {digits : List Char} (hLimit : decimal digits ≤ limit)
    (hSign : negative = true → 0 < decimal digits ∧ decimal digits ≤ Nat.pow 2 63) :
    found { phase, negative, whole := (digits.map digitValue).reverse } =
      .ok (.integer (if negative then -decimal digits else decimal digits)) := by
  have hFold : (digits.map digitValue).foldl (fun n d => 10 * n + d) 0 = decimal digits := List.foldl_map
  have hAbsorb : absorb 0 (digits.map digitValue) = (decimal digits, (digits.map digitValue).length) := by
    rw [absorb_eq (by rw [hFold]; exact hLimit), hFold]
  unfold found
  rw [List.reverse_reverse, hAbsorb]
  cases negative with
  | false => simp
  | true =>
    obtain ⟨hPositive, hBound⟩ := hSign rfl
    simp [hPositive, hBound]

theorem decimal_pos {digits : List Char} (h : WholeText digits) (hZero : digits ≠ ['0']) : 0 < decimal digits := by
  obtain ⟨⟨hNonempty, hDigits⟩, hHead⟩ := h.resolve_left hZero
  obtain ⟨c, rest, rfl⟩ := List.exists_cons_of_ne_nil hNonempty
  have hDigit := digit?_of_digit (hDigits c List.mem_cons_self)
  have hFirst : digitValue c ≠ 0 := by
    intro hNone
    rw [hNone] at hDigit
    exact hHead (by rw [eq_zero_of_digit? hDigit]; rfl)
  have hLess := le_foldl_digits (rest.map digitValue) (digitValue c)
  rw [List.foldl_map] at hLess
  have hDecimal : decimal (c :: rest) = rest.foldl (fun n c => 10 * n + digitValue c) (digitValue c) := by
    simp [decimal]
  omega

/-- An integer that fits is read to its end and found to be that integer. -/
theorem steps_integer {n : Int} {text : List Char} (h : IntegerText n text) (hLow : -Nat.pow 2 63 ≤ n)
    (hHigh : n < Nat.pow 2 64) : ∃ c rest m m', text = c :: rest ∧ start? c = some m ∧ Steps Next m rest m' ∧
      m'.complete = true ∧ m'.found = .ok (.integer n) := by
  have hLimit : limit = Nat.pow 2 64 - 1 := rfl
  have hLess : Nat.pow 2 63 < Nat.pow 2 64 := by decide
  cases h with
  | natural h =>
    obtain ⟨c, rest, d, rfl, hDigit, hRest⟩ := steps_whole h
    obtain ⟨phase, hPhase, hSteps⟩ := hRest false
    have hMinus : c ≠ '-' := by
      rintro rfl
      cases hDigit
    refine ⟨c, rest, _, _, rfl, by simp [start?, hMinus, hDigit], hSteps, ?_, ?_⟩
    · rcases hPhase with rfl | rfl <;> rfl
    · exact found_whole (by omega) (fun hNegative => by cases hNegative)
  | @negative digits h hZero =>
    have hPositive := decimal_pos h hZero
    obtain ⟨c, rest, d, rfl, hDigit, hRest⟩ := steps_whole h
    obtain ⟨phase, hPhase, hSteps⟩ := hRest true
    have hFirst : Next { phase := .minus, negative := true } c (lead true d) := by
      simp [Next, Numeral.step, hDigit]
    refine ⟨'-', c :: rest, _, _, rfl, rfl, .head hFirst hSteps, ?_, ?_⟩
    · rcases hPhase with rfl | rfl <;> rfl
    · exact found_whole (by omega) (fun _ => ⟨hPositive, by omega⟩)

end Numeral

/-! ## Reading a value into a hole that does not take it -/

namespace State
variable {s : State} {hole : Hole}

theorem putString_mismatch (h : hole.slot ≠ .string) (text : String) :
    putString hole text = mismatch hole (.string text) := by
  rcases hole with path | list | ⟨_ | _ | _, draft, path⟩ | ⟨_ | _, draft, list⟩
  · rfl
  · rfl
  · exact absurd rfl h
  · rfl
  · rfl
  · exact absurd rfl h
  · exact absurd rfl h

theorem openBracket_list (h : hole.slot = .string) : openBracket hole .list = mismatch hole .list := by
  rcases hole with path | list | ⟨_ | _ | _, draft, path⟩ | ⟨field, draft, list⟩ <;> first | rfl | cases h

theorem openBracket_object (h : ∀ kind, hole.slot ≠ .record kind) :
    openBracket hole .object = mismatch hole .object := by
  rcases hole with path | list | ⟨field, draft, path⟩ | ⟨field, draft, list⟩
  · exact absurd rfl (h .element)
  · exact absurd rfl (h .attribute)
  · cases field <;> rfl
  · rfl

theorem steps_letters (found : Found) (letters : List Char) (last : Char) :
    Steps Next (.word hole (letters ++ [last]) found) letters (.word hole [last] found) := by
  induction letters with
  | nil => exact .refl _
  | cons letter letters ih =>
    have hNext : Next (.word hole (letter :: (letters ++ [last])) found) letter
        (.word hole (letters ++ [last]) found) := by
      simp [Next, step, stepWord, bind, Except.bind]
    exact .head hNext ih

/-- The last character of a word tells that it does not fit. -/
theorem steps_word {first last : Char} {letters : List Char} {found : Found} (hs : Ready s hole)
    (hWord : enter hole first = .ok (.word hole (letters ++ [last]) found)) (hBlank : isBlank first = false)
    (hClose : first ≠ ']') : ∃ t, Steps Next s (first :: letters) t ∧ t.step last = mismatch hole found := by
  have hFirst : Next s first (.word hole (letters ++ [last]) found) := (hs first hBlank hClose).trans hWord
  refine ⟨_, .head hFirst (steps_letters found letters last), ?_⟩
  simp [step, stepWord, bind, Except.bind]

theorem steps_numeral {c : Char} {rest : List Char} {m m' : Numeral} (hs : Ready s hole)
    (hStart : Numeral.start? c = some m) (hRest : Steps Numeral.Next m rest m') :
    Steps Next s (c :: rest) (.numeral hole m') := by
  obtain ⟨hBlank, hQuote, hList, hObject, hWord⟩ := Skip.start?_not_other hStart
  have hClose : c ≠ ']' := by
    rintro rfl
    cases hStart
  have hFirst : Next s c (.numeral hole m) := by
    rw [Next, hs c hBlank hClose]
    simp [enter, hQuote, hList, hObject, hWord, hStart]
  refine .head hFirst (hRest.map (State.numeral hole) ?_)
  intro n c n' hNext
  have hNext : n.step c = .ok (some n') := hNext
  simp [Next, step, hNext, bind, Except.bind]

end State

/-! ## The message -/

section Message
variable {s t : State} {hole : Hole} {found : Found} {before : List Char}

theorem refused_of_mismatch {wrong : List Char} {last : Char} (h : Steps State.Next .initial before s)
    (hWrong : Steps State.Next s wrong t) (hStep : t.step last = State.mismatch hole found) (rest : List Char) :
    Refused (before ++ (wrong ++ [last]) ++ rest)
      ("invalid type: " ++ found.phrase ++ ", expected " ++ hole.slot.phrase) := by
  have hText : before ++ (wrong ++ [last]) ++ rest = before ++ wrong ++ last :: rest := by simp
  rw [hText, ← Slot.phrase_expected, ← Hole.expected_eq]
  exact refused_of_step (h.trans hWrong) hStep rest

/-- A number is reported when it is over, be it by another character or by the end of the text. -/
theorem refused_of_numeral {n : Numeral} {wrong rest : List Char} (h : Steps State.Next .initial before s)
    (hWrong : Steps State.Next s wrong (.numeral hole n)) (hComplete : n.complete = true)
    (hFound : n.found = .ok found) (hEnd : ∀ c, rest.head? = some c → ¬ Numeral.Continues c) :
    Refused (before ++ wrong ++ rest) ("invalid type: " ++ found.phrase ++ ", expected " ++ hole.slot.phrase) := by
  rw [← Slot.phrase_expected, ← Hole.expected_eq]
  cases rest with
  | nil =>
    refine ⟨.mismatch found hole.expected, ?_, rfl⟩
    rw [Element.ofJson, String.toList_ofList, read, State.run_of_steps (h.trans hWrong)]
    simp [State.finish, hComplete, hFound, State.mismatch, bind, Except.bind]
  | cons c rest =>
    have hOver := Numeral.step_of_complete hComplete (hEnd c rfl)
    have hStep : (State.numeral hole n).step c = State.mismatch hole found := by
      simp [State.step, hOver, hFound, bind, Except.bind]
    exact refused_of_step (h.trans hWrong) hStep rest

/-- The words for a misfit follow as soon as it was read into a hole. -/
theorem refused_of_misfit {wrong rest : List Char} {shown : String} (h : Steps State.Next .initial before s)
    (hs : State.Ready s hole) (hMisfit : Misfit hole.slot wrong shown)
    (hEnd : ∀ n, IntegerText n wrong → ∀ c, rest.head? = some c → ¬ Numeral.Continues c) :
    Refused (before ++ wrong ++ rest) ("invalid type: " ++ shown ++ ", expected " ++ hole.slot.phrase) := by
  cases hMisfit with
  | null =>
    obtain ⟨t, hWord, hStep⟩ := @State.steps_word s hole 'n' 'l' ['u', 'l'] .null hs rfl rfl (by decide)
    exact refused_of_mismatch h hWord hStep rest
  | boolean b =>
    cases b with
    | false =>
      obtain ⟨t, hWord, hStep⟩ :=
        @State.steps_word s hole 'f' 'e' ['a', 'l', 's'] (.boolean false) hs rfl rfl (by decide)
      exact refused_of_mismatch h hWord hStep rest
    | true =>
      obtain ⟨t, hWord, hStep⟩ :=
        @State.steps_word s hole 't' 'e' ['r', 'u'] (.boolean true) hs rfl rfl (by decide)
      exact refused_of_mismatch h hWord hStep rest
  | @integer n _ hText hLow hHigh =>
    obtain ⟨c, digits, m, m', rfl, hStart, hDigits, hComplete, hFound⟩ := Numeral.steps_integer hText hLow hHigh
    have hRefused := refused_of_numeral h (State.steps_numeral hs hStart hDigits) hComplete hFound (hEnd n hText)
    exact hRefused
  | string hText hSlot =>
    obtain ⟨body, t, rfl, hBody, hQuote⟩ := State.steps_stringBody hs hText
    have hRefused := refused_of_mismatch h hBody (hQuote.trans (State.putString_mismatch hSlot _)) rest
    exact hRefused
  | list hSlot =>
    have hStep : s.step '[' = State.mismatch hole .list :=
      (hs '[' rfl (by decide)).trans (State.openBracket_list hSlot)
    exact refused_of_mismatch h (.refl s) hStep rest
  | object hSlot =>
    have hStep : s.step '{' = State.mismatch hole .object :=
      (hs '{' rfl (by decide)).trans (State.openBracket_object hSlot)
    exact refused_of_mismatch h (.refl s) hStep rest

theorem refused_of_place {slot : Slot} {depth : Nat} {whole : slot.Value → Element} {before after : List Char}
    (hPlace : Place slot depth whole before after) {wrong rest : List Char} {shown : String}
    (hMisfit : Misfit slot wrong shown)
    (hEnd : ∀ n, IntegerText n wrong → ∀ c, rest.head? = some c → ¬ Numeral.Continues c) :
    Refused (before ++ wrong ++ rest) ("invalid type: " ++ shown ++ ", expected " ++ slot.phrase) := by
  obtain ⟨s, hole, hSteps, hs, rfl, -⟩ := hPlace.ready
  exact refused_of_misfit hSteps hs hMisfit hEnd

/-- A text is read with any value that a slot takes at a place. With a value that the slot does not take it is
refused, whatever follows that value. -/
theorem misfit_refused {slot : Slot} {depth : Nat} {whole : slot.Value → Element} {before after : List Char}
    (hPlace : Place slot depth whole before after) {v : slot.Value} {value : List Char}
    (hValue : slot.Text depth v value) :
    Element.ofJson (String.ofList (before ++ value ++ after)) = .ok (whole v) ∧
      ∀ wrong shown rest, Misfit slot wrong shown →
        (∀ n, IntegerText n wrong → ∀ c, rest.head? = some c → ¬ Numeral.Continues c) →
          Refused (before ++ wrong ++ rest) ("invalid type: " ++ shown ++ ", expected " ++ slot.phrase) := by
  constructor
  · exact ofJson_of_presents (hPlace.presents hValue)
  · intro wrong shown rest hMisfit hEnd
    exact refused_of_place hPlace hMisfit hEnd

end Message

/-- A negative number in the place of an attribute, at the end of the text. -/
theorem misfit_refused_number :
    Element.ofJson (String.ofList ("[\"g\",[".toList ++ writeAttribute ⟨"id", "1"⟩ ++ "]]".toList)) =
        .ok ⟨"g", [⟨"id", "1"⟩], []⟩ ∧
      Refused ("[\"g\",[".toList ++ "-70".toList ++ [])
        ("invalid type: " ++ ("integer `" ++ toString (-70 : Int) ++ "`") ++ ", expected " ++ "struct Attribute") := by
  have hDigits : WholeText ['7', '0'] := .inr ⟨⟨by simp, by simp⟩, by simp⟩
  have hNumber : IntegerText (-70) "-70".toList := .negative hDigits (by simp)
  obtain ⟨hRead, hRefused⟩ := misfit_refused (place_onlyAttribute (stringText_writeString "g"))
    (attributeText_writeAttribute ⟨"id", "1"⟩ (by decide))
  exact ⟨hRead, hRefused _ _ [] (.integer hNumber (by decide) (by decide)) (fun _ _ c hNone => by cases hNone)⟩

/-- Every part of a tree that was read can be exchanged in the text, unless it was left out: with another value the
other tree is read, and with a misfit the text is refused. -/
theorem part_exchanged {text : String} {tree : Element} (h : Element.ofJson text = .ok tree) {slot : Slot} {depth : Nat}
    {whole : slot.Value → Element} {v : slot.Value} (hPart : Part tree slot depth whole v) :
    whole v = tree ∧ (slot.Vacant v ∨ ∃ before value after, text.toList = before ++ value ++ after ∧
      (∀ w other, slot.Text depth w other → Element.ofJson (String.ofList (before ++ other ++ after)) = .ok (whole w)) ∧
      ∀ wrong shown rest, Misfit slot wrong shown →
        (∀ n, IntegerText n wrong → ∀ c, rest.head? = some c → ¬ Numeral.Continues c) →
          Refused (before ++ wrong ++ rest) ("invalid type: " ++ shown ++ ", expected " ++ slot.phrase)) := by
  refine ⟨hPart.whole_eq, (hPart.stands (presents_of_ofJson h)).imp_right ?_⟩
  rintro ⟨before, value, after, hPlace, -, hText⟩
  refine ⟨before, value, after, hText, ?_, ?_⟩
  · intro w other hOther
    exact ofJson_of_presents (hPlace.presents hOther)
  · intro wrong shown rest hMisfit hEnd
    exact refused_of_place hPlace hMisfit hEnd

end Pictogram.Json
