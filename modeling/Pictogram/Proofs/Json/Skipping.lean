import Pictogram.Proofs.Json.Items
import Pictogram.Proofs.Json.Numbers

/-! # Values that are passed over, character by character

The brackets that are open say how the text so far is nested. Every step keeps that account, and every
value of the format can be read at any depth.
-/
namespace Pictogram.Json.Skip
set_option autoImplicit false
open Format

def Next (s : Skip) (c : Char) (s' : Skip) : Prop :=
  s.step c = .ok (.more s')

/-! ## Soundness -/

/-- A place for an item of a list that began after `Start`. -/
def ItemPlace (Start : List Char → Prop) (text : List Char) : Prop :=
  ∃ start items inner, Start start ∧ (∀ item ∈ items, ValueText item) ∧ NextItem items inner ∧
    text = start ++ '[' :: inner

/-- A place for a key of an object that began after `Start`. -/
def KeyPlace (Start : List Char → Prop) (text : List Char) : Prop :=
  ∃ start, ∃ members : List (List Char × List Char), ∃ items inner, Start start ∧
    (∀ m ∈ members, PassedString m.1) ∧ (∀ m ∈ members, ValueText m.2) ∧
    List.Forall₂ (MemberText Eq) members items ∧ NextItem items inner ∧ text = start ++ '{' :: inner

/-- A place for a value inside brackets. -/
def ValuePlace : List Bracket → List Char → Prop
  | [], text => Blanks text
  | .list :: outer, text => ItemPlace (ValuePlace outer) text
  | .object :: outer, text => ∃ place key before after, KeyPlace (ValuePlace outer) place ∧
      PassedString key ∧ Blanks before ∧ Blanks after ∧ text = place ++ key ++ before ++ ':' :: after

/-- A text that ends with a complete value inside brackets. -/
def Complete (brackets : List Bracket) (text : List Char) : Prop :=
  ∃ place value after, ValuePlace brackets place ∧ ValueText value ∧ Blanks after ∧
    text = place ++ value ++ after

def words : List (List Char) :=
  ["null".toList, "true".toList, "false".toList]

def Holds (s : Skip) (text : List Char) : Prop :=
  match s.phase with
  | .value => ValuePlace s.brackets text
  | .listStart => ∃ outer start before, s.brackets = .list :: outer ∧ ValuePlace outer start ∧
      Blanks before ∧ text = start ++ '[' :: before
  | .objectStart => ∃ outer start before, s.brackets = .object :: outer ∧ ValuePlace outer start ∧
      Blanks before ∧ text = start ++ '{' :: before
  | .key => ∃ outer, s.brackets = .object :: outer ∧ KeyPlace (ValuePlace outer) text
  | .colon => ∃ outer place key before, s.brackets = .object :: outer ∧
      KeyPlace (ValuePlace outer) place ∧ PassedString key ∧ Blanks before ∧ text = place ++ key ++ before
  | .after => Complete s.brackets text
  | .string false l => ∃ place body, ValuePlace s.brackets place ∧ l.Holds body ∧ text = place ++ '"' :: body
  | .string true l => ∃ outer place body, s.brackets = .object :: outer ∧
      KeyPlace (ValuePlace outer) place ∧ l.Holds body ∧ text = place ++ '"' :: body
  | .word rest => ∃ place word, ValuePlace s.brackets place ∧ word ++ rest ∈ words ∧ text = place ++ word
  | .numeral n => ∃ place numeral, ValuePlace s.brackets place ∧ n.Holds numeral ∧ text = place ++ numeral

/-- What was read before and after the last step. -/
def HoldsAfter : SkipProgress → List Char → List Char → Prop
  | .more s, _, text => s.Holds text
  | .done, _, text => ∃ before value, Blanks before ∧ ValueText value ∧ text = before ++ value
  | .doneBefore, text, _ => ∃ before value, Blanks before ∧ ValueText value ∧ text = before ++ value

theorem holds_close {brackets : List Bracket} {place value old : List Char}
    (hPlace : ValuePlace brackets place) (hValue : ValueText value) :
    HoldsAfter (close brackets) old (place ++ value) := by
  unfold close
  split
  · rename_i hEmpty
    subst hEmpty
    exact ⟨place, value, hPlace, hValue, rfl⟩
  · exact ⟨place, value, [], hPlace, hValue, blanks_nil, by simp⟩

theorem ValuePlace.push_blank {brackets : List Bracket} {text : List Char} {c : Char}
    (h : ValuePlace brackets text) (hBlank : isBlank c = true) : ValuePlace brackets (text ++ [c]) := by
  match brackets, h with
  | [], h => exact Blanks.push h hBlank
  | .list :: outer, ⟨start, items, inner, hStart, hItems, hNext, hText⟩ =>
    exact ⟨start, items, inner ++ [c], hStart, hItems, hNext.push_blank hBlank, by simp [hText]⟩
  | .object :: outer, ⟨place, key, before, after, hPlace, hKey, hBefore, hAfter, hText⟩ =>
    exact ⟨place, key, before, after ++ [c], hPlace, hKey, hBefore, hAfter.push hBlank, by simp [hText]⟩

theorem Complete.push_blank {brackets : List Bracket} {text : List Char} {c : Char} (h : Complete brackets text)
    (hBlank : isBlank c = true) : Complete brackets (text ++ [c]) := by
  obtain ⟨place, value, after, hPlace, hValue, hAfter, rfl⟩ := h
  exact ⟨place, value, after ++ [c], hPlace, hValue, hAfter.push hBlank, by simp⟩

theorem words_of_word? {c : Char} {rest : List Char} {found : Found} (h : word? c = some (rest, found)) :
    c :: rest ∈ words := by
  unfold word? at h
  split at h <;> cases h <;> decide

theorem holds_enter {brackets : List Bracket} {place : List Char} {c : Char} {p : SkipProgress}
    (hPlace : ValuePlace brackets place) (h : enter brackets c = .ok p) :
    HoldsAfter p place (place ++ [c]) := by
  unfold enter at h
  split at h
  · rename_i hQuote
    cases h
    exact ⟨place, [], hPlace, PassedLiteral.holds_empty, by rw [hQuote]⟩
  split at h
  · rename_i hList
    cases h
    exact ⟨brackets, place, [], rfl, hPlace, blanks_nil, by rw [hList]⟩
  split at h
  · rename_i hObject
    cases h
    exact ⟨brackets, place, [], rfl, hPlace, blanks_nil, by rw [hObject]⟩
  split at h
  · rename_i rest found hWord
    cases h
    exact ⟨place, [c], hPlace, words_of_word? hWord, rfl⟩
  · split at h
    · rename_i n hStart
      cases h
      exact ⟨place, [c], hPlace, Numeral.holds_start hStart, rfl⟩
    · cases h

/-! ### After an item of a list -/

/-- A list that began after `Start`, up to the end of one of its items. -/
def OpenList (Start : List Char → Prop) (text : List Char) : Prop :=
  ∃ start items inner, Start start ∧ (∀ item ∈ items, ValueText item) ∧ Separated items inner ∧
    text = start ++ '[' :: inner

theorem ItemPlace.put {Start : List Char → Prop} {place value after : List Char} (h : ItemPlace Start place)
    (hValue : ValueText value) (hAfter : Blanks after) : OpenList Start (place ++ value ++ after) := by
  obtain ⟨start, items, inner, hStart, hItems, hNext, rfl⟩ := h
  refine ⟨start, items ++ [value], inner ++ value ++ after, hStart, ?_, (hNext.put value).append_blanks hAfter,
    by simp⟩
  rw [List.forall_mem_append]
  exact ⟨hItems, List.forall_mem_singleton.mpr hValue⟩

theorem OpenList.comma {Start : List Char → Prop} {text : List Char} (h : OpenList Start text) :
    ItemPlace Start (text ++ [',']) := by
  obtain ⟨start, items, inner, hStart, hItems, hInner, rfl⟩ := h
  exact ⟨start, items, inner ++ [','], hStart, hItems, hInner.comma, by simp⟩

theorem OpenList.close {Start : List Char → Prop} {text : List Char} (h : OpenList Start text) :
    ∃ start value, Start start ∧ ValueText value ∧ text ++ [']'] = start ++ value := by
  obtain ⟨start, items, inner, hStart, hItems, hInner, rfl⟩ := h
  exact ⟨start, '[' :: inner ++ [']'], hStart, .list hItems ⟨inner, .inr hInner, rfl⟩, by simp⟩

theorem holds_after_item {outer : List Bracket} {text old : List Char} {c : Char} {p : SkipProgress}
    (hText : Complete (.list :: outer) text) (hBlank : ¬ isBlank c = true)
    (h : stepAfter (.list :: outer) c = .ok p) : HoldsAfter p old (text ++ [c]) := by
  rw [stepAfter, if_neg hBlank] at h
  obtain ⟨place, value, after, hPlace, hValue, hAfter, rfl⟩ := hText
  have hOpen : OpenList (ValuePlace outer) (place ++ value ++ after) := ItemPlace.put hPlace hValue hAfter
  split at h
  · rename_i hComma
    cases h
    rw [hComma]
    exact hOpen.comma
  split at h
  · rename_i hClose
    cases h
    obtain ⟨start, list, hStart, hList, hText⟩ := hOpen.close
    rw [hClose, hText]
    exact holds_close hStart hList
  · cases h

/-! ### After a member of an object -/

/-- An object that began after `Start`, up to the end of one of its members. -/
def OpenObject (Start : List Char → Prop) (text : List Char) : Prop :=
  ∃ start, ∃ members : List (List Char × List Char), ∃ items inner, Start start ∧
    (∀ m ∈ members, PassedString m.1) ∧ (∀ m ∈ members, ValueText m.2) ∧
    List.Forall₂ (MemberText Eq) members items ∧ Separated items inner ∧ text = start ++ '{' :: inner

theorem KeyPlace.put {Start : List Char → Prop} {place key before between value after : List Char}
    (h : KeyPlace Start place) (hKey : PassedString key) (hBefore : Blanks before) (hBetween : Blanks between)
    (hValue : ValueText value) (hAfter : Blanks after) :
    OpenObject Start (place ++ key ++ before ++ ':' :: between ++ value ++ after) := by
  obtain ⟨start, members, items, inner, hStart, hKeys, hValues, hMembers, hNext, rfl⟩ := h
  have hMember : MemberText Eq (key, value) (key ++ before ++ ':' :: (between ++ value)) :=
    ⟨key, before, between, rfl, hBefore, hBetween, rfl⟩
  have hInner := (hNext.put (key ++ before ++ ':' :: (between ++ value))).append_blanks hAfter
  refine ⟨start, members ++ [(key, value)], _, _, hStart, ?_, ?_, forall₂_concat hMembers hMember, hInner, by simp⟩
  · rw [List.forall_mem_append]
    exact ⟨hKeys, List.forall_mem_singleton.mpr hKey⟩
  · rw [List.forall_mem_append]
    exact ⟨hValues, List.forall_mem_singleton.mpr hValue⟩

theorem OpenObject.comma {Start : List Char → Prop} {text : List Char} (h : OpenObject Start text) :
    KeyPlace Start (text ++ [',']) := by
  obtain ⟨start, members, items, inner, hStart, hKeys, hValues, hMembers, hInner, rfl⟩ := h
  exact ⟨start, members, items, inner ++ [','], hStart, hKeys, hValues, hMembers, hInner.comma, by simp⟩

theorem OpenObject.close {Start : List Char → Prop} {text : List Char} (h : OpenObject Start text) :
    ∃ start value, Start start ∧ ValueText value ∧ text ++ ['}'] = start ++ value := by
  obtain ⟨start, members, items, inner, hStart, hKeys, hValues, hMembers, hInner, rfl⟩ := h
  have hObject : ValueText ('{' :: inner ++ ['}']) := .object hKeys hValues ⟨items, inner, hMembers, .inr hInner, rfl⟩
  exact ⟨start, _, hStart, hObject, by simp⟩

theorem holds_after_member {outer : List Bracket} {text old : List Char} {c : Char} {p : SkipProgress}
    (hText : Complete (.object :: outer) text) (hBlank : ¬ isBlank c = true)
    (h : stepAfter (.object :: outer) c = .ok p) : HoldsAfter p old (text ++ [c]) := by
  rw [stepAfter, if_neg hBlank] at h
  obtain ⟨_, value, after, ⟨place, key, before, between, hPlace, hKey, hBefore, hBetween, rfl⟩, hValue, hAfter, rfl⟩ :=
    hText
  have hOpen := hPlace.put hKey hBefore hBetween hValue hAfter
  split at h
  · rename_i hComma
    cases h
    rw [hComma]
    exact ⟨outer, rfl, by simpa using hOpen.comma⟩
  split at h
  · rename_i hClose
    cases h
    obtain ⟨start, object, hStart, hObject, hText⟩ := hOpen.close
    rw [hClose, hText]
    exact holds_close hStart hObject
  · cases h

theorem holds_stepAfter {brackets : List Bracket} {text old : List Char} {c : Char} {p : SkipProgress}
    (hText : Complete brackets text) (h : stepAfter brackets c = .ok p) : HoldsAfter p old (text ++ [c]) := by
  by_cases hBlank : isBlank c = true
  · unfold stepAfter at h
    rw [if_pos hBlank] at h
    cases h
    exact hText.push_blank hBlank
  · match brackets with
    | [] =>
      rw [stepAfter, if_neg hBlank] at h
      cases h
    | .list :: outer => exact holds_after_item hText hBlank h
    | .object :: outer => exact holds_after_member hText hBlank h

/-! ### The other phases -/

theorem KeyPlace.push_blank {Start : List Char → Prop} {text : List Char} {c : Char}
    (h : KeyPlace Start text) (hBlank : isBlank c = true) : KeyPlace Start (text ++ [c]) := by
  obtain ⟨start, members, items, inner, hStart, hKeys, hValues, hMembers, hNext, rfl⟩ := h
  exact ⟨start, members, items, inner ++ [c], hStart, hKeys, hValues, hMembers, hNext.push_blank hBlank,
    by simp⟩

theorem itemPlace_start {Start : List Char → Prop} {start before : List Char} (hStart : Start start)
    (hBefore : Blanks before) : ItemPlace Start (start ++ '[' :: before) :=
  ⟨start, [], before, hStart, by simp, .inl ⟨rfl, hBefore⟩, rfl⟩

theorem keyPlace_start {Start : List Char → Prop} {start before : List Char} (hStart : Start start)
    (hBefore : Blanks before) : KeyPlace Start (start ++ '{' :: before) :=
  ⟨start, [], [], before, hStart, by simp, by simp, .nil, .inl ⟨rfl, hBefore⟩, rfl⟩

theorem holds_listStart {brackets : List Bracket} {text : List Char} {c : Char} {p : SkipProgress}
    (h : Holds ⟨brackets, .listStart⟩ text) (hStep : step ⟨brackets, .listStart⟩ c = .ok p) :
    HoldsAfter p text (text ++ [c]) := by
  obtain ⟨outer, start, before, rfl, hStart, hBefore, rfl⟩ := h
  simp only [Skip.step, List.tail_cons] at hStep
  split at hStep
  · rename_i hBlank
    cases hStep
    exact ⟨outer, start, before ++ [c], rfl, hStart, hBefore.push hBlank, by simp⟩
  split at hStep
  · rename_i hClose
    cases hStep
    have hList : ValueText ('[' :: before ++ [']']) :=
      @ValueText.list [] _ (by simp) ⟨before, .inl ⟨rfl, hBefore⟩, rfl⟩
    rw [hClose, List.append_assoc]
    exact holds_close hStart hList
  · exact @holds_enter (.list :: outer) _ _ _ (itemPlace_start hStart hBefore) hStep

theorem holds_objectStart {brackets : List Bracket} {text : List Char} {c : Char} {p : SkipProgress}
    (h : Holds ⟨brackets, .objectStart⟩ text) (hStep : step ⟨brackets, .objectStart⟩ c = .ok p) :
    HoldsAfter p text (text ++ [c]) := by
  obtain ⟨outer, start, before, rfl, hStart, hBefore, rfl⟩ := h
  simp only [Skip.step, List.tail_cons] at hStep
  split at hStep
  · rename_i hBlank
    cases hStep
    exact ⟨outer, start, before ++ [c], rfl, hStart, hBefore.push hBlank, by simp⟩
  split at hStep
  · rename_i hQuote
    cases hStep
    exact ⟨outer, _, [], rfl, keyPlace_start hStart hBefore, PassedLiteral.holds_empty, by rw [hQuote]⟩
  split at hStep
  · rename_i hClose
    cases hStep
    have hObject : ValueText ('{' :: before ++ ['}']) :=
      @ValueText.object [] _ (by simp) (by simp) ⟨[], before, .nil, .inl ⟨rfl, hBefore⟩, rfl⟩
    rw [hClose, List.append_assoc]
    exact holds_close hStart hObject
  · cases hStep

theorem holds_key {brackets : List Bracket} {text : List Char} {c : Char} {p : SkipProgress}
    (h : Holds ⟨brackets, .key⟩ text) (hStep : step ⟨brackets, .key⟩ c = .ok p) :
    HoldsAfter p text (text ++ [c]) := by
  obtain ⟨outer, rfl, hPlace⟩ := h
  simp only [Skip.step] at hStep
  split at hStep
  · rename_i hBlank
    cases hStep
    exact ⟨outer, rfl, hPlace.push_blank hBlank⟩
  split at hStep
  · rename_i hQuote
    cases hStep
    exact ⟨outer, text, [], rfl, hPlace, PassedLiteral.holds_empty, by rw [hQuote]⟩
  · cases hStep

theorem holds_colon {brackets : List Bracket} {text : List Char} {c : Char} {p : SkipProgress}
    (h : Holds ⟨brackets, .colon⟩ text) (hStep : step ⟨brackets, .colon⟩ c = .ok p) :
    HoldsAfter p text (text ++ [c]) := by
  obtain ⟨outer, place, key, before, rfl, hPlace, hKey, hBefore, rfl⟩ := h
  simp only [Skip.step] at hStep
  split at hStep
  · rename_i hBlank
    cases hStep
    exact ⟨outer, place, key, before ++ [c], rfl, hPlace, hKey, hBefore.push hBlank, by simp⟩
  split at hStep
  · rename_i hColon
    cases hStep
    exact ⟨place, key, before, [], hPlace, hKey, hBefore, blanks_nil, by rw [hColon]⟩
  · cases hStep

theorem holds_string {brackets : List Bracket} {isKey : Bool} {l : PassedLiteral} {text : List Char} {c : Char}
    {p : SkipProgress} (h : Holds ⟨brackets, .string isKey l⟩ text)
    (hStep : step ⟨brackets, .string isKey l⟩ c = .ok p) : HoldsAfter p text (text ++ [c]) := by
  simp only [Skip.step] at hStep
  obtain ⟨q, hLiteral, hStep⟩ := bind_eq_ok_iff.mp hStep
  cases isKey with
  | false =>
    obtain ⟨place, body, hPlace, hBody, rfl⟩ := h
    have hRead := hBody.step hLiteral
    cases q with
    | more l' =>
      cases hStep
      exact ⟨place, body ++ [c], hPlace, hRead, by simp⟩
    | done u =>
      cases hStep
      have hDone := @holds_close _ _ _ (place ++ '"' :: body) hPlace (.string hRead)
      simpa using hDone
  | true =>
    obtain ⟨outer, place, body, rfl, hPlace, hBody, rfl⟩ := h
    have hRead := hBody.step hLiteral
    cases q with
    | more l' =>
      cases hStep
      exact ⟨outer, place, body ++ [c], rfl, hPlace, hRead, by simp⟩
    | done u =>
      cases hStep
      exact ⟨outer, place, '"' :: (body ++ [c]), [], rfl, hPlace, hRead, blanks_nil, by simp⟩

theorem holds_word {brackets : List Bracket} {rest text : List Char} {c : Char} {p : SkipProgress}
    (h : Holds ⟨brackets, .word rest⟩ text) (hStep : step ⟨brackets, .word rest⟩ c = .ok p) :
    HoldsAfter p text (text ++ [c]) := by
  obtain ⟨place, word, hPlace, hWord, rfl⟩ := h
  simp only [Skip.step] at hStep
  obtain ⟨q, hLetter, hStep⟩ := bind_eq_ok_iff.mp hStep
  match rest, hLetter with
  | letter :: rest, hLetter =>
    simp only [stepWord] at hLetter
    split at hLetter
    · cases hLetter
    rename_i hSame
    obtain rfl := not_not.mp hSame
    split at hLetter
    · rename_i hLast
      subst hLast
      cases hLetter
      cases hStep
      have hDone := @holds_close _ _ _ (place ++ word) hPlace (.word hWord)
      simpa using hDone
    · cases hLetter
      cases hStep
      exact ⟨place, word ++ [c], hPlace, by simpa using hWord, by simp⟩

theorem holds_numeral {brackets : List Bracket} {n : Numeral} {text : List Char} {c : Char} {p : SkipProgress}
    (h : Holds ⟨brackets, .numeral n⟩ text) (hStep : step ⟨brackets, .numeral n⟩ c = .ok p) :
    HoldsAfter p text (text ++ [c]) := by
  obtain ⟨place, numeral, hPlace, hNumeral, rfl⟩ := h
  simp only [Skip.step] at hStep
  obtain ⟨q, hNext, hRest⟩ := bind_eq_ok_iff.mp hStep
  cases q with
  | some n' =>
    cases hRest
    exact ⟨place, numeral ++ [c], hPlace, hNumeral.step hNext, by simp⟩
  | none =>
    have hValue : ValueText numeral :=
      .number (Numeral.numberText_of_complete hNumeral (Numeral.complete_of_step hNext))
    dsimp only at hRest
    split at hRest
    · rename_i hEmpty
      subst hEmpty
      cases hRest
      exact ⟨place, numeral, hPlace, hValue, rfl⟩
    · exact holds_stepAfter ⟨place, numeral, [], hPlace, hValue, blanks_nil, by simp⟩ hRest

theorem Holds.step {s : Skip} {text : List Char} {c : Char} {p : SkipProgress} (h : s.Holds text)
    (hStep : s.step c = .ok p) : HoldsAfter p text (text ++ [c]) := by
  obtain ⟨brackets, phase⟩ := s
  cases phase with
  | value =>
    have hPlace : ValuePlace brackets text := h
    simp only [Skip.step] at hStep
    split at hStep
    · rename_i hBlank
      cases hStep
      exact hPlace.push_blank hBlank
    · exact holds_enter hPlace hStep
  | listStart => exact holds_listStart h hStep
  | objectStart => exact holds_objectStart h hStep
  | key => exact holds_key h hStep
  | colon => exact holds_colon h hStep
  | after => exact holds_stepAfter h hStep
  | string isKey l => exact holds_string h hStep
  | word rest => exact holds_word h hStep
  | numeral n => exact holds_numeral h hStep

theorem holds_initial : Holds {} [] :=
  blanks_nil

/-! ## Completeness -/

/-- The first character of a number begins nothing else. -/
theorem start?_not_other {c : Char} {n : Numeral} (h : Numeral.start? c = some n) :
    isBlank c = false ∧ c ≠ '"' ∧ c ≠ '[' ∧ c ≠ '{' ∧ word? c = none := by
  refine ⟨?_, ?_, ?_, ?_, ?_⟩
  · by_contra hBlank
    simp only [isBlank, Bool.not_eq_false, Bool.or_eq_true, decide_eq_true_eq] at hBlank
    rcases hBlank with ((rfl | rfl) | rfl) | rfl <;> cases h
  · rintro rfl
    cases h
  · rintro rfl
    cases h
  · rintro rfl
    cases h
  · unfold word?
    split <;> first | rfl | cases h

/-- Where reading a text ends, if only its last character may complete a value. -/
def Arrives (s : Skip) (text : List Char) (p : SkipProgress) : Prop :=
  ∃ init last t, text = init ++ [last] ∧ Steps Next s init t ∧ t.step last = .ok p

theorem arrives_last {s : Skip} {c : Char} {p : SkipProgress} (h : s.step c = .ok p) : Arrives s [c] p :=
  ⟨[], c, s, rfl, .refl s, h⟩

theorem Arrives.after_steps {s t : Skip} {text rest : List Char} {p : SkipProgress}
    (h : Arrives t rest p) (hSteps : Steps Next s text t) : Arrives s (text ++ rest) p := by
  obtain ⟨init, last, u, rfl, hInit, hLast⟩ := h
  exact ⟨text ++ init, last, u, by simp, hSteps.trans hInit, hLast⟩

theorem Arrives.steps {s t : Skip} {text : List Char} (h : Arrives s text (.more t)) : Steps Next s text t := by
  obtain ⟨init, last, u, rfl, hInit, hLast⟩ := h
  exact hInit.trans (.single hLast)

theorem arrives_of_steps {s t : Skip} {c : Char} {text : List Char} (h : Steps Next s (c :: text) t) :
    Arrives s (c :: text) (.more t) := by
  induction text generalizing s c with
  | nil =>
    cases h with
    | head hFirst hRest =>
      cases hRest
      exact arrives_last hFirst
  | cons d text ih =>
    cases h with
    | head hFirst hRest => exact (ih hRest).after_steps (.single hFirst)

/-- A number stays open until the character after it. -/
def Settled (brackets : List Bracket) (p : SkipProgress) : Prop :=
  p = close brackets ∨ ∃ n : Numeral, n.complete = true ∧ p = .more ⟨brackets, .numeral n⟩

def Rests (brackets : List Bracket) (s : Skip) : Prop :=
  s = ⟨brackets, .after⟩ ∨ ∃ n : Numeral, n.complete = true ∧ s = ⟨brackets, .numeral n⟩

theorem Arrives.rests {b : Bracket} {outer : List Bracket} {s : Skip} {text : List Char} {p : SkipProgress}
    (h : Arrives s text p) (hSettled : Settled (b :: outer) p) :
    ∃ t, Steps Next s text t ∧ Rests (b :: outer) t := by
  rcases hSettled with rfl | ⟨n, hComplete, rfl⟩
  · exact ⟨⟨b :: outer, .after⟩, Arrives.steps h, .inl rfl⟩
  · exact ⟨_, h.steps, .inr ⟨n, hComplete, rfl⟩⟩

theorem step_of_rests {b : Bracket} {outer : List Bracket} {s : Skip} {c : Char}
    (h : Rests (b :: outer) s) (hEnd : ¬ Numeral.Continues c) : s.step c = stepAfter (b :: outer) c := by
  rcases h with rfl | ⟨n, hComplete, rfl⟩
  · rfl
  · simp [Skip.step, Numeral.step_of_complete hComplete hEnd, bind, Except.bind]

theorem not_continues_of_blank {c : Char} (h : isBlank c = true) : ¬ Numeral.Continues c := by
  simp only [isBlank, Bool.or_eq_true, decide_eq_true_eq] at h
  rcases h with ((rfl | rfl) | rfl) | rfl <;> simp [Numeral.Continues]

theorem rests_blank {b : Bracket} {outer : List Bracket} {s : Skip} {c : Char}
    (h : Rests (b :: outer) s) (hBlank : isBlank c = true) : ∃ t, Next s c t ∧ Rests (b :: outer) t := by
  refine ⟨⟨b :: outer, .after⟩, ?_, .inl rfl⟩
  rw [Next, step_of_rests h (not_continues_of_blank hBlank)]
  simp [stepAfter, hBlank]

theorem arrives_word {letters : List Char} {last : Char} (brackets : List Bracket) :
    Arrives ⟨brackets, .word (letters ++ [last])⟩ (letters ++ [last]) (close brackets) := by
  induction letters with
  | nil =>
    apply arrives_last
    simp [Skip.step, stepWord, bind, Except.bind]
  | cons letter letters ih =>
    have hNext : Next ⟨brackets, .word (letter :: (letters ++ [last]))⟩ letter
        ⟨brackets, .word (letters ++ [last])⟩ := by
      simp [Next, Skip.step, stepWord, bind, Except.bind]
    exact ih.after_steps (.single hNext)

theorem steps_passed {body : List (List Char)} (hBody : ∀ piece ∈ body, Passing piece)
    (brackets : List Bracket) (isKey : Bool) :
    Steps Next ⟨brackets, .string isKey .plain⟩ body.flatten ⟨brackets, .string isKey .plain⟩ :=
  (PassedLiteral.steps_pieces hBody).map (fun l => (⟨brackets, .string isKey l⟩ : Skip)) fun l c l' h => by
    have h : l.step c = .ok (.more l') := h
    simp [Next, Skip.step, h, bind, Except.bind]

theorem passed_close (brackets : List Bracket) (isKey : Bool) :
    step ⟨brackets, .string isKey .plain⟩ '"' =
      .ok (if isKey then .more ⟨brackets, .colon⟩ else close brackets) := by
  cases isKey <;> simp [Skip.step, PassedLiteral.step, bind, Except.bind]

/-- No value begins with a blank or with a bracket that closes a list. -/
theorem valueText_head {text : List Char} (h : ValueText text) :
    ∃ c rest, text = c :: rest ∧ isBlank c = false ∧ c ≠ ']' := by
  cases h with
  | word h =>
    simp only [List.mem_cons, List.not_mem_nil, or_false] at h
    rcases h with rfl | rfl | rfl
    · exact ⟨'n', _, rfl, rfl, by decide⟩
    · exact ⟨'t', _, rfl, rfl, by decide⟩
    · exact ⟨'f', _, rfl, rfl, by decide⟩
  | number h =>
    obtain ⟨c, rest, n, n', rfl, hStart, -⟩ := Numeral.steps_number h
    refine ⟨c, rest, rfl, (start?_not_other hStart).1, ?_⟩
    rintro rfl
    cases hStart
  | string h =>
    obtain ⟨body, -, rfl⟩ := h
    exact ⟨'"', _, rfl, rfl, by decide⟩
  | list _ h =>
    obtain ⟨inner, -, rfl⟩ := h
    exact ⟨'[', _, rfl, rfl, by decide⟩
  | object _ _ h =>
    obtain ⟨items, inner, -, -, rfl⟩ := h
    exact ⟨'{', _, rfl, rfl, by decide⟩

def ItemStart (outer : List Bracket) (n : Nat) (s : Skip) : Prop :=
  s = ⟨.list :: outer, .value⟩ ∨ n = 0 ∧ s = ⟨.list :: outer, .listStart⟩

def MemberStart (outer : List Bracket) (n : Nat) (s : Skip) : Prop :=
  s = ⟨.object :: outer, .key⟩ ∨ n = 0 ∧ s = ⟨.object :: outer, .objectStart⟩

theorem itemStart_blank {outer : List Bracket} {n : Nat} {s : Skip} {c : Char} (h : ItemStart outer n s)
    (hBlank : isBlank c = true) : Next s c s := by
  rcases h with rfl | ⟨-, rfl⟩ <;> simp [Next, Skip.step, hBlank]

theorem memberStart_blank {outer : List Bracket} {n : Nat} {s : Skip} {c : Char} (h : MemberStart outer n s)
    (hBlank : isBlank c = true) : Next s c s := by
  rcases h with rfl | ⟨-, rfl⟩ <;> simp [Next, Skip.step, hBlank]

theorem arrives_list {items : List (List Char)} {inner : List Char} (outer : List Bracket)
    (hItems : ∀ item ∈ items, ValueText item)
    (hRead : ∀ item ∈ items, ∃ p, Arrives ⟨.list :: outer, .value⟩ item p ∧ Settled (.list :: outer) p)
    (h : ItemsText items inner) :
    Arrives ⟨.list :: outer, .listStart⟩ (inner ++ [']']) (close outer) := by
  rcases h with ⟨rfl, hBlanks⟩ | hSeparated
  · have hSteps : Steps Next ⟨.list :: outer, .listStart⟩ inner ⟨.list :: outer, .listStart⟩ :=
      steps_loop (fun c hBlank => itemStart_blank (.inr ⟨rfl, rfl⟩) hBlank) hBlanks
    exact (arrives_last rfl).after_steps hSteps
  · have hItem (n : Nat) (item : List Char) (s : Skip) (hGet : items[n]? = some item)
        (hs : ItemStart outer n s) : ∃ t, Steps Next s item t ∧ Rests (.list :: outer) t := by
      have hMem := List.mem_of_getElem? hGet
      obtain ⟨p, hArrives, hSettled⟩ := hRead item hMem
      obtain ⟨t, hSteps, ht⟩ := hArrives.rests hSettled
      refine ⟨t, ?_, ht⟩
      rcases hs with rfl | ⟨-, rfl⟩
      · exact hSteps
      · obtain ⟨c, rest, rfl, hBlank, hClose⟩ := valueText_head (hItems item hMem)
        cases hSteps with
        | head hFirst hRest =>
          refine .head ?_ hRest
          simpa [Next, Skip.step, hBlank, hClose] using hFirst
    obtain ⟨t, hSteps, ht⟩ := @Separated.steps _ Next (ItemStart outer)
      (fun _ => Rests (.list :: outer))
      (fun n s c hs hBlank => ⟨s, itemStart_blank hs hBlank, hs⟩) (fun n s c => rests_blank) _ _ hSeparated
      (fun n s _ hs => ⟨⟨.list :: outer, .value⟩,
        step_of_rests hs (by simp [Numeral.Continues]), .inl rfl⟩)
      hItem _ (.inr ⟨rfl, rfl⟩)
    exact (arrives_last (step_of_rests ht (by simp [Numeral.Continues]))).after_steps hSteps

theorem steps_key {key before after : List Char} {outer : List Bracket} {n : Nat} {s : Skip}
    (hKey : PassedString key) (hBefore : Blanks before) (hAfter : Blanks after) (hs : MemberStart outer n s) :
    Steps Next s (key ++ before ++ ':' :: after) ⟨.object :: outer, .value⟩ := by
  obtain ⟨body, hBody, rfl⟩ := hKey
  have hOpen : Next s '"' ⟨.object :: outer, .string true .plain⟩ := by
    rcases hs with rfl | ⟨-, rfl⟩ <;> rfl
  have hClose : Next ⟨.object :: outer, .string true .plain⟩ '"' ⟨.object :: outer, .colon⟩ :=
    passed_close (.object :: outer) true
  have hColon : Next ⟨.object :: outer, .colon⟩ ':' ⟨.object :: outer, .value⟩ := rfl
  have hLiteral : Steps Next s ('"' :: body.flatten ++ ['"']) ⟨.object :: outer, .colon⟩ :=
    .head hOpen ((steps_passed hBody _ true).trans (.single hClose))
  have hBlanks : Steps Next ⟨.object :: outer, .colon⟩ before ⟨.object :: outer, .colon⟩ :=
    steps_loop (fun c hBlank => by simp [Next, Skip.step, hBlank]) hBefore
  have hBlanks' : Steps Next ⟨.object :: outer, .value⟩ after ⟨.object :: outer, .value⟩ :=
    steps_loop (fun c hBlank => by simp [Next, Skip.step, hBlank]) hAfter
  exact (hLiteral.trans hBlanks).trans (.head hColon hBlanks')

theorem arrives_object {members : List (List Char × List Char)} {items : List (List Char)}
    {inner : List Char} (outer : List Bracket) (hKeys : ∀ m ∈ members, PassedString m.1)
    (hRead : ∀ m ∈ members, ∃ p, Arrives ⟨.object :: outer, .value⟩ m.2 p ∧ Settled (.object :: outer) p)
    (hMembers : List.Forall₂ (MemberText Eq) members items) (h : ItemsText items inner) :
    Arrives ⟨.object :: outer, .objectStart⟩ (inner ++ ['}']) (close outer) := by
  rcases h with ⟨rfl, hBlanks⟩ | hSeparated
  · have hSteps : Steps Next ⟨.object :: outer, .objectStart⟩ inner ⟨.object :: outer, .objectStart⟩ :=
      steps_loop (fun c hBlank => memberStart_blank (.inr ⟨rfl, rfl⟩) hBlank) hBlanks
    exact (arrives_last rfl).after_steps hSteps
  · have hItem (n : Nat) (item : List Char) (s : Skip) (hGet : items[n]? = some item)
        (hs : MemberStart outer n s) : ∃ t, Steps Next s item t ∧ Rests (.object :: outer) t := by
      obtain ⟨m, hMember, key, before, after, rfl, hBefore, hAfter, rfl⟩ := forall₂_getElem? hMembers hGet
      have hMem := List.mem_of_getElem? hMember
      obtain ⟨p, hArrives, hSettled⟩ := hRead m hMem
      obtain ⟨t, hSteps, ht⟩ := hArrives.rests hSettled
      refine ⟨t, ?_, ht⟩
      have hKey := steps_key (hKeys m hMem) hBefore hAfter hs
      simpa using hKey.trans hSteps
    obtain ⟨t, hSteps, ht⟩ := @Separated.steps _ Next (MemberStart outer)
      (fun _ => Rests (.object :: outer))
      (fun n s c hs hBlank => ⟨s, memberStart_blank hs hBlank, hs⟩) (fun n s c => rests_blank) _ _ hSeparated
      (fun n s _ hs => ⟨⟨.object :: outer, .key⟩,
        step_of_rests hs (by simp [Numeral.Continues]), .inl rfl⟩)
      hItem _ (.inr ⟨rfl, rfl⟩)
    exact (arrives_last (step_of_rests ht (by simp [Numeral.Continues]))).after_steps hSteps

theorem arrives_words {text : List Char} (h : text ∈ words) (brackets : List Bracket) :
    Arrives ⟨brackets, .value⟩ text (close brackets) := by
  simp only [words, List.mem_cons, List.not_mem_nil, or_false] at h
  obtain rfl | rfl | rfl := h
  · have hFirst : Next ⟨brackets, .value⟩ 'n' ⟨brackets, .word ['u', 'l', 'l']⟩ := rfl
    exact (@arrives_word ['u', 'l'] 'l' brackets).after_steps (.single hFirst)
  · have hFirst : Next ⟨brackets, .value⟩ 't' ⟨brackets, .word ['r', 'u', 'e']⟩ := rfl
    exact (@arrives_word ['r', 'u'] 'e' brackets).after_steps (.single hFirst)
  · have hFirst : Next ⟨brackets, .value⟩ 'f' ⟨brackets, .word ['a', 'l', 's', 'e']⟩ := rfl
    exact (@arrives_word ['a', 'l', 's'] 'e' brackets).after_steps (.single hFirst)

theorem arrives_number {text : List Char} (h : NumberText text) (brackets : List Bracket) :
    ∃ n : Numeral, n.complete = true ∧ Arrives ⟨brackets, .value⟩ text (.more ⟨brackets, .numeral n⟩) := by
  obtain ⟨c, rest, n, n', rfl, hStart, hSteps, hComplete⟩ := Numeral.steps_number h
  have hFirst : Next ⟨brackets, .value⟩ c ⟨brackets, .numeral n⟩ := by
    obtain ⟨hBlank, hQuote, hList, hObject, hWord⟩ := start?_not_other hStart
    simp [Next, Skip.step, enter, hBlank, hQuote, hList, hObject, hWord, hStart]
  have hRest : Steps Next ⟨brackets, .numeral n⟩ rest ⟨brackets, .numeral n'⟩ :=
    hSteps.map (fun n => (⟨brackets, .numeral n⟩ : Skip)) fun n c n' h => by
      have h : n.step c = .ok (some n') := h
      simp [Next, Skip.step, h, bind, Except.bind]
  exact ⟨n', hComplete, arrives_of_steps (.head hFirst hRest)⟩

theorem arrives_string {text : List Char} (h : PassedString text) (brackets : List Bracket) :
    Arrives ⟨brackets, .value⟩ text (close brackets) := by
  obtain ⟨body, hBody, rfl⟩ := h
  have hFirst : Next ⟨brackets, .value⟩ '"' ⟨brackets, .string false .plain⟩ := rfl
  have hLast := arrives_last (passed_close brackets false)
  exact (hLast.after_steps (steps_passed hBody brackets false)).after_steps (.single hFirst)

/-- Every value of the format is passed over, inside any brackets. -/
theorem arrives_value {text : List Char} (h : ValueText text) (brackets : List Bracket) :
    ∃ p, Arrives ⟨brackets, .value⟩ text p ∧ Settled brackets p := by
  induction h generalizing brackets with
  | word h => exact ⟨close brackets, arrives_words h brackets, .inl rfl⟩
  | number h =>
    obtain ⟨n, hComplete, hArrives⟩ := arrives_number h brackets
    exact ⟨_, hArrives, .inr ⟨n, hComplete, rfl⟩⟩
  | string h => exact ⟨close brackets, arrives_string h brackets, .inl rfl⟩
  | list hItems h ih =>
    obtain ⟨inner, hInner, rfl⟩ := h
    have hFirst : Next ⟨brackets, .value⟩ '[' ⟨.list :: brackets, .listStart⟩ := rfl
    have hList := arrives_list brackets hItems (fun item hMem => ih item hMem (.list :: brackets)) hInner
    exact ⟨close brackets, hList.after_steps (.single hFirst), .inl rfl⟩
  | object hKeys _ h ih =>
    obtain ⟨items, inner, hMembers, hInner, rfl⟩ := h
    have hFirst : Next ⟨brackets, .value⟩ '{' ⟨.object :: brackets, .objectStart⟩ := rfl
    have hObject := arrives_object brackets hKeys (fun m hMem => ih m hMem (.object :: brackets)) hMembers hInner
    exact ⟨close brackets, hObject.after_steps (.single hFirst), .inl rfl⟩

end Pictogram.Json.Skip
