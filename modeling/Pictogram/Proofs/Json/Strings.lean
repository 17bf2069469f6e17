import Pictogram.Proofs.Json.Characters

/-! # Strings, character by character

A literal that is being read is a row of complete pieces and the beginning of another one. What a step
keeps gives soundness; that every piece can be read gives completeness.
-/
namespace Pictogram.Json
set_option autoImplicit false
open Format

/-- From a state to a state over the characters of a text. -/
inductive Steps {σ : Type} (Next : σ → Char → σ → Prop) : σ → List Char → σ → Prop
  | refl (s : σ) : Steps Next s [] s
  | head {s t u : σ} {c : Char} {text : List Char} (h : Next s c t) (hRest : Steps Next t text u) :
      Steps Next s (c :: text) u

namespace Steps
variable {σ τ : Type} {Next : σ → Char → σ → Prop}

theorem trans {s t u : σ} {text rest : List Char} (h : Steps Next s text t) (hRest : Steps Next t rest u) :
    Steps Next s (text ++ rest) u := by
  induction h with
  | refl => exact hRest
  | head h _ ih => exact .head h (ih hRest)

theorem single {s t : σ} {c : Char} (h : Next s c t) : Steps Next s [c] t :=
  .head h (.refl t)

theorem map {Next' : τ → Char → τ → Prop} (f : σ → τ) (hNext : ∀ s c t, Next s c t → Next' (f s) c (f t))
    {s t : σ} {text : List Char} (h : Steps Next s text t) : Steps Next' (f s) text (f t) := by
  induction h with
  | refl s => exact .refl _
  | head h _ ih => exact .head (hNext _ _ _ h) ih

end Steps

theorem bind_eq_ok_iff {ε α β : Type} {x : Except ε α} {f : α → Except ε β} {b : β} :
    x >>= f = .ok b ↔ ∃ a, x = .ok a ∧ f a = .ok b := by
  cases x with
  | error e => simp [bind, Except.bind]
  | ok a => simp [bind, Except.bind]

/-! ## Numbered escapes -/

def UnitNext (seen : List Char) (c : Char) (seen' : List Char) : Prop :=
  stepUnit seen c = .ok (.more seen')

theorem stepUnit_more {seen seen' : List Char} {c : Char} (h : stepUnit seen c = .ok (.more seen')) :
    seen' = seen ++ [c] := by
  unfold stepUnit at h
  dsimp only at h
  split at h
  · cases h
    rfl
  · split at h <;> cases h

theorem stepUnit_done {seen : List Char} {c : Char} {n : Nat} (h : stepUnit seen c = .ok (.done n)) :
    UnitText (seen ++ [c]) n := by
  unfold stepUnit at h
  dsimp only at h
  split at h
  · cases h
  · split at h
    · rename_i hUnit
      cases h
      exact (unit?_eq_some_iff _ n).mp hUnit
    · cases h

/-- Four digits are read one by one, and the last one completes the number. -/
theorem stepUnit_digits {digits : List Char} {n : Nat} (h : UnitText digits n) :
    ∃ seen last, digits = seen ++ [last] ∧ Steps UnitNext [] seen seen ∧
      stepUnit seen last = .ok (.done n) := by
  have hUnit := (unit?_eq_some_iff digits n).mpr h
  obtain ⟨a, b, c, d, va, vb, vc, vd, rfl, hA, hB, hC, hD, -⟩ := (unitText_iff digits n).mp h
  have ha := utf8Size_of_hexDigit hA
  have hb := utf8Size_of_hexDigit hB
  have hc := utf8Size_of_hexDigit hC
  have hd := utf8Size_of_hexDigit hD
  refine ⟨[a, b, c], d, rfl, ?_, ?_⟩
  · refine .head (t := [a]) ?_ (.head (t := [a, b]) ?_ (.single ?_))
    · simp [UnitNext, stepUnit, bytes, ha]
    · simp [UnitNext, stepUnit, bytes, ha, hb]
    · simp [UnitNext, stepUnit, bytes, ha, hb, hc]
  · simp [stepUnit, bytes, ha, hb, hc, hd, hUnit]

/-! ## Kept strings -/

namespace Literal

def Next (l : Literal) (c : Char) (l' : Literal) : Prop :=
  l.step c = .ok (.more l')

theorem steps_unit {text seen seen' digits : List Char} (h : Steps UnitNext seen digits seen') :
    Steps Next ⟨text, .unit seen⟩ digits ⟨text, .unit seen'⟩ :=
  h.map (fun seen => (⟨text, .unit seen⟩ : Literal)) fun seen c seen' hNext => by
    have hNext : stepUnit seen c = .ok (.more seen') := hNext
    simp [Next, step, hNext, bind, Except.bind]

theorem steps_secondUnit {text seen seen' digits : List Char} (leading : Nat)
    (h : Steps UnitNext seen digits seen') :
    Steps Next ⟨text, .secondUnit leading seen⟩ digits ⟨text, .secondUnit leading seen'⟩ :=
  h.map (fun seen => (⟨text, .secondUnit leading seen⟩ : Literal)) fun seen c seen' hNext => by
    have hNext : stepUnit seen c = .ok (.more seen') := hNext
    simp [Next, step, hNext, bind, Except.bind]

/-- Two escapes with the halves of a number are read as one character. -/
theorem steps_halves {first second : List Char} {m n : Nat} (hFirst : UnitText first m) (hLeading : isLeading m = true)
    (hSecond : UnitText second n) (hTrailing : isTrailing n = true) (text : List Char) :
    Steps Next ⟨text, .plain⟩ ('\\' :: 'u' :: first ++ '\\' :: 'u' :: second) ⟨joined m n :: text, .plain⟩ := by
  obtain ⟨seen, last, rfl, hSeen, hLast⟩ := stepUnit_digits hFirst
  obtain ⟨seen', last', rfl, hSeen', hLast'⟩ := stepUnit_digits hSecond
  have hNotTrailing := isTrailing_of_leading hLeading
  have hFirstDone : Next ⟨text, .unit seen⟩ last ⟨text, .backslash m⟩ := by
    simp [Next, step, hLast, hLeading, hNotTrailing, bind, Except.bind]
  have hSecondDone : Next ⟨text, .secondUnit m seen'⟩ last' ⟨joined m n :: text, .plain⟩ := by
    simp [Next, step, push, hLast', hTrailing, bind, Except.bind]
  have hEscape : Next ⟨text, .plain⟩ '\\' ⟨text, .escape⟩ := rfl
  have hUnit : Next ⟨text, .escape⟩ 'u' ⟨text, .unit []⟩ := rfl
  have hHalf : Steps Next ⟨text, .plain⟩ ('\\' :: 'u' :: (seen ++ [last])) ⟨text, .backslash m⟩ :=
    .head hEscape (.head hUnit ((steps_unit hSeen).trans (.single hFirstDone)))
  have hAgain : Next ⟨text, .backslash m⟩ '\\' ⟨text, .letter m⟩ := rfl
  have hLetter : Next ⟨text, .letter m⟩ 'u' ⟨text, .secondUnit m []⟩ := rfl
  exact hHalf.trans (.head hAgain (.head hLetter ((steps_secondUnit m hSeen').trans (.single hSecondDone))))

theorem steps_spelling {piece : List Char} {c : Char} (h : Spelling piece c) (text : List Char) :
    Steps Next ⟨text, .plain⟩ piece ⟨c :: text, .plain⟩ := by
  have hEscape : Next ⟨text, .plain⟩ '\\' ⟨text, .escape⟩ := rfl
  have hUnit : Next ⟨text, .escape⟩ 'u' ⟨text, .unit []⟩ := rfl
  cases h with
  | plain hQuote hBackslash hControl =>
    apply Steps.single
    simp [Next, step, push, hQuote, hBackslash, Nat.not_lt.mpr hControl]
  | short h =>
    have hShort := (shortEscape?_eq_some_iff _ c).mpr h
    have hLetter := ne_of_mem_shortEscapes h
    refine .head hEscape (.single ?_)
    simp [Next, step, push, hLetter, hShort]
  | unit h =>
    obtain ⟨seen, last, rfl, hSeen, hLast⟩ := stepUnit_digits h
    obtain ⟨hLeading, hTrailing⟩ := not_half c
    refine .head hEscape (.head hUnit ((steps_unit hSeen).trans (.single ?_)))
    simp [Next, step, push, hLast, hLeading, hTrailing, bind, Except.bind]
  | pair hWide hFirst hSecond =>
    obtain ⟨hLeading, hTrailing, hJoined⟩ := joined_halves hWide
    have hSteps := steps_halves hFirst hLeading hSecond hTrailing text
    rwa [hJoined] at hSteps

theorem steps_spellings {pieces : List (List Char)} {cs : List Char}
    (h : List.Forall₂ Spelling pieces cs) (text : List Char) :
    Steps Next ⟨text, .plain⟩ pieces.flatten ⟨cs.reverse ++ text, .plain⟩ := by
  induction h generalizing text with
  | nil => exact .refl _
  | @cons piece c pieces cs hPiece _ ih =>
    have hRest := ih (c :: text)
    rw [List.reverse_cons, List.append_assoc]
    exact (steps_spelling hPiece text).trans hRest

def Begun : LiteralPhase → List Char → Prop
  | .plain, text => text = []
  | .escape, text => text = ['\\']
  | .unit seen, text => text = '\\' :: 'u' :: seen
  | .backslash m, text =>
    ∃ digits, UnitText digits m ∧ isLeading m = true ∧ text = '\\' :: 'u' :: digits
  | .letter m, text =>
    ∃ digits, UnitText digits m ∧ isLeading m = true ∧ text = '\\' :: 'u' :: digits ++ ['\\']
  | .secondUnit m seen, text =>
    ∃ digits, UnitText digits m ∧ isLeading m = true ∧
      text = '\\' :: 'u' :: digits ++ '\\' :: 'u' :: seen

def Holds (l : Literal) (body : List Char) : Prop :=
  ∃ pieces tail, List.Forall₂ Spelling pieces l.text.reverse ∧ Begun l.phase tail ∧
    body = pieces.flatten ++ tail

theorem holds_empty : Holds {} [] :=
  ⟨[], [], .nil, rfl, rfl⟩

/-- What was read after a step: a part of the literal or all of it. -/
def HoldsAfter : Progress Literal String → List Char → Prop
  | .more l, body => l.Holds body
  | .done s, body => StringText s ('"' :: body)

theorem holds_begun {text tail : List Char} {pieces : List (List Char)} {phase : LiteralPhase} {c : Char}
    (hPieces : List.Forall₂ Spelling pieces text.reverse) (hNow : Begun phase (tail ++ [c])) :
    Holds ⟨text, phase⟩ (pieces.flatten ++ tail ++ [c]) :=
  ⟨pieces, tail ++ [c], hPieces, hNow, List.append_assoc ..⟩

theorem holds_pushed {text tail : List Char} {pieces : List (List Char)} {c d : Char}
    (hPieces : List.Forall₂ Spelling pieces text.reverse) (hPiece : Spelling (tail ++ [c]) d) :
    Holds ⟨d :: text, .plain⟩ (pieces.flatten ++ tail ++ [c]) := by
  refine ⟨pieces ++ [tail ++ [c]], [], ?_, rfl, by simp⟩
  rw [List.reverse_cons]
  exact List.rel_append hPieces (.cons hPiece .nil)

theorem holds_plain {text body : List Char} {c : Char} {p : Progress Literal String} (h : Holds ⟨text, .plain⟩ body)
    (hStep : step ⟨text, .plain⟩ c = .ok p) : HoldsAfter p (body ++ [c]) := by
  obtain ⟨pieces, tail, hPieces, hTail, rfl⟩ := h
  cases hTail
  simp only [Literal.step] at hStep
  split at hStep
  · cases hStep
    rename_i hQuote
    refine ⟨pieces, by simpa using hPieces, ?_⟩
    simp [hQuote]
  split at hStep
  · cases hStep
    rename_i hBackslash
    exact holds_begun hPieces (by simp [Begun, hBackslash])
  split at hStep
  · cases hStep
  · cases hStep
    rename_i hQuote hBackslash hControl
    exact holds_pushed hPieces (.plain hQuote hBackslash (Nat.not_lt.mp hControl))

theorem holds_escape {text body : List Char} {c : Char} {p : Progress Literal String}
    (h : Holds ⟨text, .escape⟩ body) (hStep : step ⟨text, .escape⟩ c = .ok p) : HoldsAfter p (body ++ [c]) := by
  obtain ⟨pieces, tail, hPieces, hTail, rfl⟩ := h
  cases hTail
  simp only [Literal.step] at hStep
  split at hStep
  · cases hStep
    rename_i hUnit
    exact holds_begun hPieces (by simp [Begun, hUnit])
  · split at hStep
    · cases hStep
      rename_i hShort
      exact holds_pushed hPieces (.short ((shortEscape?_eq_some_iff c _).mp hShort))
    · cases hStep

theorem holds_unit {text seen body : List Char} {c : Char} {p : Progress Literal String}
    (h : Holds ⟨text, .unit seen⟩ body) (hStep : step ⟨text, .unit seen⟩ c = .ok p) : HoldsAfter p (body ++ [c]) := by
  obtain ⟨pieces, tail, hPieces, hTail, rfl⟩ := h
  cases hTail
  simp only [Literal.step] at hStep
  obtain ⟨q, hUnit, hStep⟩ := bind_eq_ok_iff.mp hStep
  cases q with
  | more seen' =>
    cases hStep
    exact holds_begun hPieces (by simp [Begun, stepUnit_more hUnit])
  | done n =>
    have hDigits := stepUnit_done hUnit
    dsimp only at hStep
    split at hStep
    · cases hStep
    rename_i hTrailing
    split at hStep
    · cases hStep
      rename_i hLeading
      exact holds_begun hPieces ⟨_, hDigits, hLeading, rfl⟩
    · cases hStep
      rename_i hLeading
      have hNumber := toNat_ofNat_of_not_half (unitText_lt hDigits) (Bool.eq_false_iff.mpr hLeading)
        (Bool.eq_false_iff.mpr hTrailing)
      exact holds_pushed hPieces (.unit (hNumber.symm ▸ hDigits))

theorem holds_backslash {text body : List Char} {m : Nat} {c : Char} {p : Progress Literal String}
    (h : Holds ⟨text, .backslash m⟩ body) (hStep : step ⟨text, .backslash m⟩ c = .ok p) :
    HoldsAfter p (body ++ [c]) := by
  obtain ⟨pieces, tail, hPieces, ⟨digits, hDigits, hLeading, rfl⟩, rfl⟩ := h
  simp only [Literal.step] at hStep
  split at hStep
  · cases hStep
    rename_i hBackslash
    exact holds_begun hPieces ⟨digits, hDigits, hLeading, by simp [hBackslash]⟩
  · cases hStep

theorem holds_letter {text body : List Char} {m : Nat} {c : Char} {p : Progress Literal String}
    (h : Holds ⟨text, .letter m⟩ body) (hStep : step ⟨text, .letter m⟩ c = .ok p) : HoldsAfter p (body ++ [c]) := by
  obtain ⟨pieces, tail, hPieces, ⟨digits, hDigits, hLeading, rfl⟩, rfl⟩ := h
  simp only [Literal.step] at hStep
  split at hStep
  · cases hStep
    rename_i hUnit
    exact holds_begun hPieces ⟨digits, hDigits, hLeading, by simp [hUnit]⟩
  · cases hStep

theorem holds_secondUnit {text seen body : List Char} {m : Nat} {c : Char} {p : Progress Literal String}
    (h : Holds ⟨text, .secondUnit m seen⟩ body) (hStep : step ⟨text, .secondUnit m seen⟩ c = .ok p) :
    HoldsAfter p (body ++ [c]) := by
  obtain ⟨pieces, tail, hPieces, ⟨digits, hDigits, hLeading, rfl⟩, rfl⟩ := h
  simp only [Literal.step] at hStep
  obtain ⟨q, hUnit, hStep⟩ := bind_eq_ok_iff.mp hStep
  cases q with
  | more seen' =>
    cases hStep
    exact holds_begun hPieces ⟨digits, hDigits, hLeading, by simp [stepUnit_more hUnit]⟩
  | done n =>
    dsimp only at hStep
    split at hStep
    · cases hStep
      rename_i hTrailing
      obtain ⟨hWide, hFirst, hSecond⟩ := halves_joined hLeading hTrailing
      have hPair := Spelling.pair hWide (hFirst.symm ▸ hDigits) (hSecond.symm ▸ stepUnit_done hUnit)
      apply holds_pushed hPieces
      simpa using hPair
    · cases hStep

theorem Holds.step {l : Literal} {body : List Char} {c : Char} {p : Progress Literal String}
    (h : l.Holds body) (hStep : l.step c = .ok p) : HoldsAfter p (body ++ [c]) := by
  obtain ⟨text, phase⟩ := l
  cases phase with
  | plain => exact holds_plain h hStep
  | escape => exact holds_escape h hStep
  | unit seen => exact holds_unit h hStep
  | backslash m => exact holds_backslash h hStep
  | letter m => exact holds_letter h hStep
  | secondUnit m seen => exact holds_secondUnit h hStep

end Literal

/-! ## Strings that are passed over -/

namespace PassedLiteral

def Next (l : PassedLiteral) (c : Char) (l' : PassedLiteral) : Prop :=
  l.step c = .ok (.more l')

theorem steps_unit {seen seen' digits : List Char} (h : Steps UnitNext seen digits seen') :
    Steps Next (.unit seen) digits (.unit seen') :=
  h.map PassedLiteral.unit fun seen c seen' hNext => by
    have hNext : stepUnit seen c = .ok (.more seen') := hNext
    simp [Next, step, hNext, bind, Except.bind]

theorem steps_passing {piece : List Char} (h : Passing piece) : Steps Next .plain piece .plain := by
  have hEscape : Next .plain '\\' .escape := rfl
  have hUnit : Next .escape 'u' (.unit []) := rfl
  cases h with
  | plain hQuote hBackslash hControl =>
    apply Steps.single
    simp [Next, step, hQuote, hBackslash, Nat.not_lt.mpr hControl]
  | short h =>
    have hShort := (shortEscape?_eq_some_iff _ _).mpr h
    have hLetter := ne_of_mem_shortEscapes h
    refine .head hEscape (.single ?_)
    simp [Next, step, hLetter, hShort]
  | unit h =>
    obtain ⟨seen, last, rfl, hSeen, hLast⟩ := stepUnit_digits h
    refine .head hEscape (.head hUnit ((steps_unit hSeen).trans (.single ?_)))
    simp [Next, step, hLast, bind, Except.bind]

theorem steps_pieces {pieces : List (List Char)} (h : ∀ piece ∈ pieces, Passing piece) :
    Steps Next .plain pieces.flatten .plain := by
  induction pieces with
  | nil => exact .refl _
  | cons piece pieces ih =>
    rw [List.forall_mem_cons] at h
    exact (steps_passing h.1).trans (ih h.2)

def Begun : PassedLiteral → List Char → Prop
  | .plain, text => text = []
  | .escape, text => text = ['\\']
  | .unit seen, text => text = '\\' :: 'u' :: seen

def Holds (l : PassedLiteral) (body : List Char) : Prop :=
  ∃ (pieces : List (List Char)) (tail : List Char),
    (∀ piece ∈ pieces, Passing piece) ∧ l.Begun tail ∧ body = pieces.flatten ++ tail

theorem holds_empty : Holds .plain [] :=
  ⟨[], [], by simp, rfl, rfl⟩

def HoldsAfter : Progress PassedLiteral Unit → List Char → Prop
  | .more l, body => l.Holds body
  | .done _, body => PassedString ('"' :: body)

theorem holds_begun {tail : List Char} {pieces : List (List Char)} {l : PassedLiteral} {c : Char}
    (hPieces : ∀ piece ∈ pieces, Passing piece) (hNow : l.Begun (tail ++ [c])) :
    l.Holds (pieces.flatten ++ tail ++ [c]) :=
  ⟨pieces, tail ++ [c], hPieces, hNow, List.append_assoc ..⟩

theorem holds_passed {tail : List Char} {pieces : List (List Char)} {c : Char}
    (hPieces : ∀ piece ∈ pieces, Passing piece) (hPiece : Passing (tail ++ [c])) :
    Holds .plain (pieces.flatten ++ tail ++ [c]) := by
  refine ⟨pieces ++ [tail ++ [c]], [], ?_, rfl, by simp⟩
  rw [List.forall_mem_append]
  exact ⟨hPieces, List.forall_mem_singleton.mpr hPiece⟩

theorem holds_plain {body : List Char} {c : Char} {p : Progress PassedLiteral Unit} (h : Holds .plain body)
    (hStep : step .plain c = .ok p) : HoldsAfter p (body ++ [c]) := by
  obtain ⟨pieces, tail, hPieces, hTail, rfl⟩ := h
  cases hTail
  simp only [PassedLiteral.step] at hStep
  split at hStep
  · cases hStep
    rename_i hQuote
    exact ⟨pieces, hPieces, by simp [hQuote]⟩
  split at hStep
  · cases hStep
    rename_i hBackslash
    exact holds_begun hPieces (by simp [Begun, hBackslash])
  split at hStep
  · cases hStep
  · cases hStep
    rename_i hQuote hBackslash hControl
    exact holds_passed hPieces (.plain hQuote hBackslash (Nat.not_lt.mp hControl))

theorem holds_escape {body : List Char} {c : Char} {p : Progress PassedLiteral Unit} (h : Holds .escape body)
    (hStep : step .escape c = .ok p) : HoldsAfter p (body ++ [c]) := by
  obtain ⟨pieces, tail, hPieces, hTail, rfl⟩ := h
  cases hTail
  simp only [PassedLiteral.step] at hStep
  split at hStep
  · cases hStep
    rename_i hUnit
    exact holds_begun hPieces (by simp [Begun, hUnit])
  split at hStep
  · cases hStep
    rename_i hShort
    obtain ⟨d, hShort⟩ := Option.isSome_iff_exists.mp hShort
    exact holds_passed hPieces (.short ((shortEscape?_eq_some_iff c d).mp hShort))
  · cases hStep

theorem holds_unit {seen body : List Char} {c : Char} {p : Progress PassedLiteral Unit} (h : Holds (.unit seen) body)
    (hStep : step (.unit seen) c = .ok p) : HoldsAfter p (body ++ [c]) := by
  obtain ⟨pieces, tail, hPieces, hTail, rfl⟩ := h
  cases hTail
  simp only [PassedLiteral.step] at hStep
  obtain ⟨q, hUnit, hStep⟩ := bind_eq_ok_iff.mp hStep
  cases q with
  | more seen' =>
    cases hStep
    exact holds_begun hPieces (by simp [Begun, stepUnit_more hUnit])
  | done n =>
    cases hStep
    exact holds_passed hPieces (.unit (stepUnit_done hUnit))

theorem Holds.step {l : PassedLiteral} {body : List Char} {c : Char} {p : Progress PassedLiteral Unit}
    (h : l.Holds body) (hStep : l.step c = .ok p) : HoldsAfter p (body ++ [c]) := by
  cases l with
  | plain => exact holds_plain h hStep
  | escape => exact holds_escape h hStep
  | unit seen => exact holds_unit h hStep

end PassedLiteral
end Pictogram.Json
