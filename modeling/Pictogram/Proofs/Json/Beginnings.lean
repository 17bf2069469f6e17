import Mathlib.Data.List.Induction
import Pictogram.Proofs.Json.Acceptance

/-! # Beginnings of texts

A text is read from left to right, so a problem that was met stays, whatever follows. Only the end of a text
can hide something: more may have been needed, or a number may be complete without a character that ends it.
A text that does not end inside a number is therefore settled by its beginning unless it ended too early.
-/
namespace Pictogram.Json
set_option autoImplicit false
open Format

/-! ## Characters of numbers -/

namespace Numeral

/-- The characters that numbers are made of. -/
def Uses (c : Char) : Prop :=
  Continues c ∨ c = '+' ∨ c = '-'

instance (c : Char) : Decidable (Uses c) :=
  inferInstanceAs (Decidable ((('0' ≤ c ∧ c ≤ '9') ∨ c = '.' ∨ c = 'e' ∨ c = 'E') ∨ c = '+' ∨ c = '-'))

theorem uses_of_digit? {c : Char} {d : Nat} (h : digit? c = some d) : Uses c :=
  .inl (.inl ((digit?_eq_some_iff c d).mp h).1)

theorem uses_of_start? {c : Char} {n : Numeral} (h : start? c = some n) : Uses c := by
  unfold start? at h
  split at h
  · rename_i hMinus
    exact .inr (.inr hMinus)
  · obtain ⟨d, hDigit, -⟩ := Option.map_eq_some_iff.mp h
    exact uses_of_digit? hDigit

theorem uses_of_leave {n n' : Numeral} {c : Char} (h : n.leave c = some n') : Uses c := by
  unfold leave at h
  split at h
  · rename_i hPoint
    exact .inl (.inr (.inl hPoint.1))
  split at h
  · rename_i hMark
    exact .inl (.inr (.inr hMark))
  · cases h

/-- A numeral goes on only with a character of numbers. -/
theorem uses_of_step {n n' : Numeral} {c : Char} (h : n.step c = .ok (some n')) : Uses c := by
  cases hDigit : digit? c with
  | some d => exact uses_of_digit? hDigit
  | none =>
    obtain ⟨phase, negative, whole, fraction, lowered, power⟩ := n
    cases phase with
    | minus | point | sign | power => simp [step, hDigit] at h
    | zero | whole | fraction =>
      simp only [step, hDigit, Except.ok.injEq] at h
      exact uses_of_leave h
    | mark =>
      simp only [step, hDigit] at h
      split at h
      · rename_i hPlus
        exact .inr (.inl hPlus)
      split at h
      · rename_i hMinus
        exact .inr (.inr hMinus)
      · cases h

end Numeral

/-! ## States inside numbers -/

namespace Skip

def InNumeral (k : Skip) : Prop :=
  ∃ n, k.phase = .numeral n

theorem atEnd_eq_ended {k : Skip} (h : ¬ k.InNumeral) : k.atEnd = .ended := by
  unfold atEnd
  split
  · rename_i n hPhase
    exact (h ⟨n, hPhase⟩).elim
  · rfl

theorem not_inNumeral_close {brackets : List Bracket} {k : Skip} (h : close brackets = .more k) :
    ¬ k.InNumeral := by
  rintro ⟨n, hPhase⟩
  unfold close at h
  split at h <;> cases h
  cases hPhase

theorem uses_of_enter {brackets : List Bracket} {c : Char} {k : Skip}
    (h : enter brackets c = .ok (.more k)) (hNumeral : k.InNumeral) : Numeral.Uses c := by
  obtain ⟨n, hPhase⟩ := hNumeral
  grind [enter, Numeral.uses_of_start?]

theorem not_inNumeral_stepAfter {brackets : List Bracket} {c : Char} {k : Skip}
    (h : stepAfter brackets c = .ok (.more k)) : ¬ k.InNumeral := by
  cases brackets with
  | nil => grind [stepAfter, InNumeral]
  | cons b outer =>
    cases b with
    | list => grind [stepAfter, InNumeral, not_inNumeral_close]
    | object => grind [stepAfter, InNumeral, not_inNumeral_close]

/-- Only a character of numbers leads into a number, or further along it. -/
theorem uses_of_step {k k' : Skip} {c : Char} (h : k.step c = .ok (.more k')) (hNumeral : k'.InNumeral) :
    Numeral.Uses c := by
  obtain ⟨brackets, phase⟩ := k
  cases phase with
  | value => grind [step, InNumeral, uses_of_enter]
  | listStart => grind [step, InNumeral, uses_of_enter, not_inNumeral_close]
  | objectStart => grind [step, InNumeral, not_inNumeral_close]
  | key => grind [step, InNumeral]
  | colon => grind [step, InNumeral]
  | after => exact (not_inNumeral_stepAfter h hNumeral).elim
  | string isKey literal =>
    obtain ⟨p, -, hRest⟩ := bind_eq_ok_iff.mp h
    cases p <;> grind [InNumeral, not_inNumeral_close]
  | word rest =>
    obtain ⟨p, -, hRest⟩ := bind_eq_ok_iff.mp h
    cases p <;> grind [InNumeral, not_inNumeral_close]
  | numeral n =>
    obtain ⟨p, hStep, hRest⟩ := bind_eq_ok_iff.mp h
    cases p with
    | some n' => exact Numeral.uses_of_step hStep
    | none => grind [not_inNumeral_stepAfter]

end Skip

namespace State

/-- A number is being read that the next character could go on with. -/
def InNumeral : State → Prop
  | .numeral _ _ => True
  | .record _ (.skip k) => k.InNumeral
  | _ => False

/-- Outside of numbers the end of a text can only come too early. -/
theorem finish_eq_ended {s : State} (h : ¬ s.InNumeral) (hOpen : ∀ tree, s ≠ .finished tree) :
    s.finish = .error .ended := by
  cases s with
  | finished tree => exact (hOpen tree rfl).elim
  | numeral hole n => exact (h trivial).elim
  | record r phase =>
    cases phase with
    | skip k => exact congrArg Except.error (Skip.atEnd_eq_ended h)
    | _ => rfl
  | _ => rfl

/-! ### One more character -/

theorem not_inNumeral_putString {hole : Hole} {text : String} {t : State} (h : putString hole text = .ok t) :
    ¬ t.InNumeral := by
  unfold putString at h
  split at h <;> cases h <;> exact id

theorem not_inNumeral_putElement (path : Path) (tree : Element) : ¬ (putElement path tree).InNumeral := by
  cases path <;> exact id

theorem not_inNumeral_closeRecord {r : Record} {t : State} (h : closeRecord r = .ok t) : ¬ t.InNumeral := by
  match r, h with
  | .element draft path, h =>
    obtain ⟨tree, -, hTree⟩ := bind_eq_ok_iff.mp h
    cases hTree
    exact not_inNumeral_putElement path tree
  | .attribute draft list, h =>
    obtain ⟨a, -, hAttribute⟩ := bind_eq_ok_iff.mp h
    cases hAttribute
    exact id

theorem not_inNumeral_openBracket {hole : Hole} {layout : Layout} {t : State}
    (h : openBracket hole layout = .ok t) : ¬ t.InNumeral := by
  unfold openBracket at h
  dsimp only at h
  split at h
  · rename_i next hNext
    split at h <;> cases h
    split at hNext <;> cases hNext <;> exact id
  · cases h

theorem uses_of_enter {hole : Hole} {c : Char} {t : State} (h : enter hole c = .ok t) (hNumeral : t.InNumeral) :
    Numeral.Uses c := by
  grind [enter, InNumeral, not_inNumeral_openBracket, Numeral.uses_of_start?]

theorem not_inNumeral_stepAfter {r : Record} {c : Char} {t : State} (h : stepAfter r c = .ok t) :
    ¬ t.InNumeral := by
  grind [stepAfter, InNumeral, not_inNumeral_closeRecord]

theorem uses_of_stepList {phase : ListPhase} {c : Char} {again closed t : State} {item : Hole}
    (hAgain : ¬ again.InNumeral) (hClosed : ¬ closed.InNumeral) (h : stepList phase c again closed item = .ok t)
    (hNumeral : t.InNumeral) : Numeral.Uses c := by
  cases phase with
  | start => grind [stepList, uses_of_enter]
  | after => grind [stepList, InNumeral]

theorem uses_of_stepRecord {r : Record} {phase : RecordPhase} {c : Char} {t : State}
    (h : stepRecord r phase c = .ok t) (hNumeral : t.InNumeral) : Numeral.Uses c := by
  cases phase with
  | start => grind [stepRecord, InNumeral, not_inNumeral_closeRecord, uses_of_enter]
  | key => grind [stepRecord, InNumeral]
  | inKey literal =>
    obtain ⟨p, -, hRest⟩ := bind_eq_ok_iff.mp h
    cases p with
    | more literal => cases hRest; exact hNumeral.elim
    | done key =>
      obtain ⟨target, -, hTarget⟩ := bind_eq_ok_iff.mp hRest
      cases hTarget
      exact hNumeral.elim
  | colon target => cases target <;> grind [stepRecord, Skip.InNumeral, InNumeral]
  | skip k =>
    obtain ⟨p, hStep, hRest⟩ := bind_eq_ok_iff.mp h
    cases p with
    | more k' => cases hRest; exact Skip.uses_of_step hStep hNumeral
    | done => cases hRest; exact hNumeral.elim
    | doneBefore => exact (not_inNumeral_stepAfter hRest hNumeral).elim
  | after => exact (not_inNumeral_stepAfter h hNumeral).elim

/-- Only a character of numbers leads into a number, or further along it. -/
theorem uses_of_step {s t : State} {c : Char} (h : s.step c = .ok t) (hNumeral : t.InNumeral) :
    Numeral.Uses c := by
  cases s with
  | awaiting hole => grind [step, InNumeral, uses_of_enter]
  | string hole literal =>
    obtain ⟨p, -, hRest⟩ := bind_eq_ok_iff.mp h
    cases p with
    | more literal => cases hRest; exact hNumeral.elim
    | done text => exact (not_inNumeral_putString hRest hNumeral).elim
  | word hole rest found =>
    obtain ⟨p, -, hRest⟩ := bind_eq_ok_iff.mp h
    cases p <;> cases hRest
    exact hNumeral.elim
  | numeral hole n =>
    obtain ⟨p, hStep, hRest⟩ := bind_eq_ok_iff.mp h
    cases p with
    | some n' => exact Numeral.uses_of_step hStep
    | none =>
      obtain ⟨found, -, hNever⟩ := bind_eq_ok_iff.mp hRest
      cases hNever
  | record r phase => exact uses_of_stepRecord h hNumeral
  | attributes list phase => exact uses_of_stepList id id h hNumeral
  | children parent path phase => exact uses_of_stepList id id h hNumeral
  | finished tree => grind [step, InNumeral]

/-! ### Whole beginnings -/

/-- A number is only being read at the end of a text that ends with a character of numbers. -/
theorem not_inNumeral_run {text : List Char} {s : State} (hRun : initial.run text = .ok s)
    (hLast : ∀ c, text.getLast? = some c → ¬ Numeral.Uses c) : ¬ s.InNumeral := by
  intro hNumeral
  induction text using List.reverseRecOn with
  | nil =>
    cases hRun
    exact hNumeral.elim
  | append_singleton text c _ =>
    rw [run_append] at hRun
    obtain ⟨before, -, hStep⟩ := bind_eq_ok_iff.mp hRun
    rw [run_cons] at hStep
    obtain ⟨after, hAfter, hEnd⟩ := bind_eq_ok_iff.mp hStep
    cases hEnd
    exact hLast c (by simp) (uses_of_step hAfter hNumeral)

theorem run_finished {tree : Element} {rest : List Char} (h : Blanks rest) :
    (finished tree).run rest = .ok (.finished tree) := by
  induction rest with
  | nil => rfl
  | cons c rest ih =>
    have hStep : (finished tree).step c = .ok (.finished tree) := if_pos ((isBlank_iff c).mpr (h c List.mem_cons_self))
    rw [run_cons, hStep]
    exact ih fun d hMem => h d (List.mem_cons_of_mem c hMem)

theorem run_finished_of_not_blanks {tree : Element} {rest : List Char} (h : ¬ Blanks rest) :
    (finished tree).run rest = .error .malformed := by
  induction rest with
  | nil => exact (h blanks_nil).elim
  | cons c rest ih =>
    by_cases hBlank : isBlank c = true
    · have hStep : (finished tree).step c = .ok (.finished tree) := if_pos hBlank
      rw [run_cons, hStep]
      refine ih fun hRest => h ?_
      intro d hMem
      rcases List.mem_cons.mp hMem with rfl | hMem
      · exact (isBlank_iff _).mp hBlank
      · exact hRest d hMem
    · have hStep : (finished tree).step c = .error .malformed := if_neg hBlank
      rw [run_cons, hStep]
      rfl

end State

theorem read_append_of_error {text : List Char} {e : ReadError} (h : read text = .error e) (hKnown : e ≠ .ended)
    (hLast : ∀ c, text.getLast? = some c → ¬ Numeral.Uses c) (more : List Char) :
    read (text ++ more) = .error e := by
  cases hRun : State.initial.run text with
  | error e' =>
    rw [read, hRun] at h
    rw [read, State.run_append_of_error hRun]
    exact h
  | ok s =>
    -- No number is being read, so only the end itself could be the problem.
    have hFinish : s.finish = .error e := by
      rwa [read, hRun] at h
    have hOpen (tree : Element) : s ≠ .finished tree := by
      rintro rfl
      cases hFinish
    rw [State.finish_eq_ended (State.not_inNumeral_run hRun hLast) hOpen] at hFinish
    cases hFinish
    exact (hKnown rfl).elim

theorem read_append_of_ok {text : List Char} {tree : Element} (h : read text = .ok tree) (more : List Char) :
    (Blanks more → read (text ++ more) = .ok tree) ∧ (¬ Blanks more → read (text ++ more) = .error .malformed) := by
  have hRun := (read_eq_ok_iff text tree).mp h
  have hRest : read (text ++ more) = (State.finished tree).run more >>= State.finish := by
    rw [read, State.run_append, hRun]
    rfl
  rw [hRest]
  constructor
  · intro hBlanks
    rw [State.run_finished hBlanks]
    rfl
  · intro hMore
    rw [State.run_finished_of_not_blanks hMore]
    rfl

/-- What follows a text changes what it is read as only if the text ended too early. In particular an accepted
text that is cut short has ended too early. -/
theorem ofJson_append (text more : String) (hLast : ∀ c, text.toList.getLast? = some c → ¬ Numeral.Uses c) :
    (∀ e, Element.ofJson text = .error e → e ≠ .ended → Element.ofJson (text ++ more) = .error e) ∧
      (∀ tree, Element.ofJson text = .ok tree →
        (Blanks more.toList → Element.ofJson (text ++ more) = .ok tree) ∧
          (¬ Blanks more.toList → Element.ofJson (text ++ more) = .error .malformed)) ∧
      ∀ tree, Element.ofJson (text ++ more) = .ok tree → ¬ Blanks more.toList →
        Element.ofJson text = .error .ended := by
  simp only [Element.ofJson, String.toList_append]
  refine ⟨?_, ?_, ?_⟩
  · intro e h hKnown
    exact read_append_of_error h hKnown hLast more.toList
  · intro tree h
    exact read_append_of_ok h more.toList
  · intro tree hAll hMore
    cases hText : read text.toList with
    | ok tree' =>
      have hRefused := (read_append_of_ok hText more.toList).2 hMore
      rw [hAll] at hRefused
      cases hRefused
    | error e =>
      by_contra hKnown
      have hRefused := read_append_of_error hText (fun hEnded => hKnown (congrArg Except.error hEnded)) hLast
        more.toList
      rw [hAll] at hRefused
      cases hRefused

theorem ofJson_append_mismatch :
    let text := "[\"g\",[[\"k\",5 "
    (∀ c, text.toList.getLast? = some c → ¬ Numeral.Uses c) ∧
      Element.ofJson text = .error (.flawed (.mismatch (.integer 5) .string)) ∧
      Element.ofJson (text ++ "]]]") = .error (.flawed (.mismatch (.integer 5) .string)) := by
  intro text
  have hLast : ∀ c, text.toList.getLast? = some c → ¬ Numeral.Uses c := by
    have hSpace : text.toList.getLast? = some ' ' := by
      decide
    intro c h
    obtain rfl : ' ' = c := Option.some.inj (hSpace.symm.trans h)
    decide
  have hText : Element.ofJson text = .error (.flawed (.mismatch (.integer 5) .string)) := by
    decide
  exact ⟨hLast, hText, (ofJson_append text "]]]" hLast).1 _ hText (by decide)⟩

end Pictogram.Json
