import Pictogram.Proofs.Json.Strings

/-! # Numbers, character by character

The phase of a numeral tells which parts of a number were read. Only the next character tells that a number
is over, so a complete numeral is left where a character stands that cannot go on.
-/
namespace Pictogram.Json.Numeral
set_option autoImplicit false
open Format

theorem digit?_eq_some_iff (c : Char) (d : Nat) :
    digit? c = some d ↔ ('0' ≤ c ∧ c ≤ '9') ∧ d = c.toNat - 48 := by
  unfold digit?
  split
  · rename_i hDigit
    constructor
    · intro h
      exact ⟨hDigit, (Option.some.inj h).symm⟩
    · rintro ⟨-, rfl⟩
      rfl
  · rename_i hDigit
    simp [hDigit]

theorem digit?_isSome {c : Char} (h : '0' ≤ c ∧ c ≤ '9') : ∃ d, digit? c = some d :=
  ⟨_, (digit?_eq_some_iff c _).mpr ⟨h, rfl⟩⟩

theorem eq_zero_of_digit? {c : Char} (h : digit? c = some 0) : c = '0' := by
  obtain ⟨⟨hLow, hHigh⟩, hZero⟩ := (digit?_eq_some_iff c 0).mp h
  have hLow : 48 ≤ c.toNat := hLow
  have hNat : c.toNat = '0'.toNat := by
    change c.toNat = 48
    omega
  exact Char.toNat_inj.mp hNat

def Next (n : Numeral) (c : Char) (n' : Numeral) : Prop :=
  n.step c = .ok (some n')

/-! ## Soundness -/

theorem digits_single {c : Char} (h : '0' ≤ c ∧ c ≤ '9') : Digits [c] :=
  ⟨by simp, by simpa using h⟩

theorem digits_push {digits : List Char} {c : Char} (hDigits : Digits digits) (h : '0' ≤ c ∧ c ≤ '9') :
    Digits (digits ++ [c]) := by
  refine ⟨by simp, ?_⟩
  intro d hMem
  rcases List.mem_append.mp hMem with hMem | hMem
  · exact hDigits.2 d hMem
  · rwa [List.mem_singleton.mp hMem]

/-- Sign, whole part and fraction of a number. -/
def Mantissa (whole fraction text : List Char) : Prop :=
  ∃ sign, (sign = [] ∨ sign = ['-']) ∧ WholeText whole ∧ FractionText fraction ∧
    text = sign ++ whole ++ fraction

def Holds (n : Numeral) (text : List Char) : Prop :=
  match n.phase with
  | .minus => text = ['-']
  | .zero => Mantissa ['0'] [] text
  | .whole => ∃ whole, Digits whole ∧ whole.head? ≠ some '0' ∧ Mantissa whole [] text
  | .point => ∃ whole start, Mantissa whole [] start ∧ text = start ++ ['.']
  | .fraction => ∃ whole digits, Digits digits ∧ Mantissa whole ('.' :: digits) text
  | .mark => ∃ whole fraction start mark, Mantissa whole fraction start ∧ (mark = 'e' ∨ mark = 'E') ∧
      text = start ++ [mark]
  | .sign => ∃ whole fraction start mark sign, Mantissa whole fraction start ∧
      (mark = 'e' ∨ mark = 'E') ∧ (sign = '+' ∨ sign = '-') ∧ text = start ++ [mark, sign]
  | .power => ∃ whole fraction start power, Mantissa whole fraction start ∧ power ≠ [] ∧ PowerText power ∧
      text = start ++ power

theorem holds_lead {sign : List Char} {c : Char} {d : Nat} (negative : Bool)
    (hSign : sign = [] ∨ sign = ['-']) (h : digit? c = some d) : (lead negative d).Holds (sign ++ [c]) := by
  have hDigit := ((digit?_eq_some_iff c d).mp h).1
  by_cases hZero : d = 0
  · subst hZero
    obtain rfl := eq_zero_of_digit? h
    exact ⟨sign, hSign, .inl rfl, .inl rfl, by simp⟩
  · have hHead : c ≠ '0' := by
      rintro rfl
      exact hZero ((digit?_eq_some_iff '0' d).mp h).2
    have hWhole : Digits [c] := digits_single hDigit
    simp only [lead, Holds, if_neg hZero]
    exact ⟨[c], hWhole, by simpa using hHead, sign, hSign, .inr ⟨hWhole, by simpa using hHead⟩, .inl rfl,
      by simp⟩

theorem holds_start {c : Char} {n : Numeral} (h : start? c = some n) : n.Holds [c] := by
  unfold start? at h
  split at h
  · rename_i hMinus
    cases h
    simp [Holds, hMinus]
  · obtain ⟨d, hDigit, rfl⟩ := Option.map_eq_some_iff.mp h
    exact @holds_lead [] c d false (.inl rfl) hDigit

theorem holds_leave {n n' : Numeral} {c : Char} {whole fraction text : List Char}
    (hMantissa : Mantissa whole fraction text) (hPhase : n.phase ≠ .fraction → fraction = [])
    (h : n.leave c = some n') : n'.Holds (text ++ [c]) := by
  unfold leave at h
  split at h
  · rename_i hPoint
    cases h
    cases hPhase hPoint.2
    exact ⟨whole, text, hMantissa, by rw [hPoint.1]⟩
  split at h
  · rename_i hMark
    cases h
    exact ⟨whole, fraction, text, c, hMantissa, hMark, rfl⟩
  · cases h

/-! ### A digit more -/

section
variable {c : Char} {digits whole text : List Char}

theorem Mantissa.push_whole (h : Mantissa digits [] text) (hDigits : Digits digits) (hHead : digits.head? ≠ some '0')
    (hDigit : '0' ≤ c ∧ c ≤ '9') :
    Digits (digits ++ [c]) ∧ (digits ++ [c]).head? ≠ some '0' ∧ Mantissa (digits ++ [c]) [] (text ++ [c]) := by
  obtain ⟨sign, hSign, -, -, rfl⟩ := h
  have hMore := digits_push hDigits hDigit
  have hMoreHead : (digits ++ [c]).head? ≠ some '0' := by
    rwa [List.head?_append_of_ne_nil _ hDigits.1]
  exact ⟨hMore, hMoreHead, sign, hSign, .inr ⟨hMore, hMoreHead⟩, .inl rfl, by simp⟩

theorem Mantissa.first_place (h : Mantissa whole [] text) (hDigit : '0' ≤ c ∧ c ≤ '9') :
    Mantissa whole ['.', c] (text ++ ['.', c]) := by
  obtain ⟨sign, hSign, hWhole, -, rfl⟩ := h
  exact ⟨sign, hSign, hWhole, .inr ⟨[c], digits_single hDigit, rfl⟩, by simp⟩

theorem Mantissa.push_place (h : Mantissa whole ('.' :: digits) text) (hDigits : Digits digits)
    (hDigit : '0' ≤ c ∧ c ≤ '9') : Mantissa whole ('.' :: (digits ++ [c])) (text ++ [c]) := by
  obtain ⟨sign, hSign, hWhole, -, rfl⟩ := h
  exact ⟨sign, hSign, hWhole, .inr ⟨digits ++ [c], digits_push hDigits hDigit, rfl⟩, by simp⟩

theorem powerText_single {mark : Char} {sign : List Char} (hMark : mark = 'e' ∨ mark = 'E')
    (hSign : sign = [] ∨ sign = ['+'] ∨ sign = ['-']) (hDigit : '0' ≤ c ∧ c ≤ '9') : PowerText (mark :: sign ++ [c]) :=
  .inr ⟨mark, sign, [c], hMark, hSign, digits_single hDigit, rfl⟩

theorem powerText_push {power : List Char} (h : PowerText power) (hNonempty : power ≠ [])
    (hDigit : '0' ≤ c ∧ c ≤ '9') : PowerText (power ++ [c]) := by
  obtain ⟨mark, sign, digits, hMark, hSign, hDigits, rfl⟩ := h.resolve_left hNonempty
  exact .inr ⟨mark, sign, digits ++ [c], hMark, hSign, digits_push hDigits hDigit, by simp⟩

end

theorem Holds.digit {n n' : Numeral} {text : List Char} {c : Char} {d : Nat} (h : n.Holds text)
    (hDigit : digit? c = some d) (hStep : n.step c = .ok (some n')) : n'.Holds (text ++ [c]) := by
  obtain ⟨phase, negative, whole, fraction, lowered, power⟩ := n
  have hRange := ((digit?_eq_some_iff c d).mp hDigit).1
  cases phase <;> simp only [Numeral.step, hDigit] at hStep <;> cases hStep
  case minus =>
    cases h
    exact holds_lead negative (.inr rfl) hDigit
  case whole =>
    obtain ⟨digits, hDigits, hHead, hMantissa⟩ := h
    exact ⟨digits ++ [c], hMantissa.push_whole hDigits hHead hRange⟩
  case point =>
    obtain ⟨digits, start, hMantissa, rfl⟩ := h
    exact ⟨digits, [c], digits_single hRange, by simpa using hMantissa.first_place hRange⟩
  case fraction =>
    obtain ⟨digits, places, hPlaces, hMantissa⟩ := h
    exact ⟨digits, places ++ [c], digits_push hPlaces hRange, hMantissa.push_place hPlaces hRange⟩
  case mark =>
    obtain ⟨digits, places, start, mark, hMantissa, hMark, rfl⟩ := h
    exact ⟨digits, places, start, [mark, c], hMantissa, by simp, powerText_single hMark (.inl rfl) hRange, by simp⟩
  case sign =>
    obtain ⟨digits, places, start, mark, sign, hMantissa, hMark, hSign, rfl⟩ := h
    have hPower : PowerText (mark :: [sign] ++ [c]) := powerText_single hMark (by simpa using hSign) hRange
    exact ⟨digits, places, start, [mark, sign, c], hMantissa, by simp, hPower, by simp⟩
  case power =>
    obtain ⟨digits, places, start, power, hMantissa, hNonempty, hPower, rfl⟩ := h
    exact ⟨digits, places, start, power ++ [c], hMantissa, by simp, powerText_push hPower hNonempty hRange, by simp⟩

theorem Holds.other {n n' : Numeral} {text : List Char} {c : Char} (h : n.Holds text)
    (hDigit : digit? c = none) (hStep : n.step c = .ok (some n')) : n'.Holds (text ++ [c]) := by
  obtain ⟨phase, negative, whole, fraction, lowered, power⟩ := n
  cases phase with
  | minus | point | sign | power => simp [Numeral.step, hDigit] at hStep
  | zero =>
    simp only [Numeral.step, hDigit, Except.ok.injEq] at hStep
    exact holds_leave h (fun _ => rfl) hStep
  | whole =>
    simp only [Numeral.step, hDigit, Except.ok.injEq] at hStep
    obtain ⟨digits, -, -, hMantissa⟩ := h
    exact holds_leave hMantissa (fun _ => rfl) hStep
  | fraction =>
    simp only [Numeral.step, hDigit, Except.ok.injEq] at hStep
    obtain ⟨digits, places, -, hMantissa⟩ := h
    exact holds_leave hMantissa (fun hPhase => absurd rfl hPhase) hStep
  | mark =>
    obtain ⟨digits, places, start, mark, hMantissa, hMark, rfl⟩ := h
    simp only [Numeral.step, hDigit] at hStep
    split at hStep
    · rename_i hSign
      cases hStep
      exact ⟨digits, places, start, mark, c, hMantissa, hMark, .inl hSign, by simp⟩
    split at hStep
    · rename_i hSign
      cases hStep
      exact ⟨digits, places, start, mark, c, hMantissa, hMark, .inr hSign, by simp⟩
    · cases hStep

theorem Holds.step {n n' : Numeral} {text : List Char} {c : Char} (h : n.Holds text)
    (hStep : n.step c = .ok (some n')) : n'.Holds (text ++ [c]) := by
  cases hDigit : digit? c with
  | some d => exact h.digit hDigit hStep
  | none => exact h.other hDigit hStep

theorem complete_of_step {n : Numeral} {c : Char} (h : n.step c = .ok none) : n.complete = true := by
  obtain ⟨phase, negative, whole, fraction, lowered, power⟩ := n
  cases hDigit : digit? c with
  | some d => cases phase <;> simp [Numeral.step, hDigit] at h
  | none =>
    cases phase with
    | minus | point | sign => simp [Numeral.step, hDigit] at h
    | zero | whole | fraction | power => rfl
    | mark =>
      simp only [Numeral.step, hDigit] at h
      split at h
      · cases h
      split at h <;> cases h

theorem numberText_of_complete {n : Numeral} {text : List Char} (h : n.Holds text)
    (hComplete : n.complete = true) : NumberText text := by
  have ofMantissa {whole fraction : List Char} (h : Mantissa whole fraction text) : NumberText text := by
    obtain ⟨sign, hSign, hWhole, hFraction, rfl⟩ := h
    exact ⟨sign, whole, fraction, [], hSign, hWhole, hFraction, .inl rfl, by simp⟩
  obtain ⟨phase, negative, whole, fraction, lowered, power⟩ := n
  cases phase with
  | minus | point | mark | sign => cases hComplete
  | zero => exact ofMantissa h
  | whole =>
    obtain ⟨digits, -, -, hMantissa⟩ := h
    exact ofMantissa hMantissa
  | fraction =>
    obtain ⟨digits, places, -, hMantissa⟩ := h
    exact ofMantissa hMantissa
  | power =>
    obtain ⟨digits, places, start, power, ⟨sign, hSign, hWhole, hFraction, rfl⟩, -, hPower, rfl⟩ := h
    exact ⟨sign, digits, places, power, hSign, hWhole, hFraction, hPower, rfl⟩

/-! ## Completeness -/

/-- A character that can stand inside a complete number or go on with it. -/
def Continues (c : Char) : Prop :=
  ('0' ≤ c ∧ c ≤ '9') ∨ c = '.' ∨ c = 'e' ∨ c = 'E'

theorem step_of_complete {n : Numeral} {c : Char} (h : n.complete = true) (hEnd : ¬ Continues c) :
    n.step c = .ok none := by
  have hDigit : digit? c = none := by
    rw [digit?, if_neg (fun hDigit => hEnd (.inl hDigit))]
  have hPoint : c ≠ '.' := fun hPoint => hEnd (.inr (.inl hPoint))
  have hMark : ¬ (c = 'e' ∨ c = 'E') := fun hMark => hEnd (.inr (.inr hMark))
  obtain ⟨phase, negative, whole, fraction, lowered, power⟩ := n
  cases phase with
  | minus | point | mark | sign => cases h
  | zero | whole | fraction => simp [Numeral.step, hDigit, leave, hPoint, hMark]
  | power => simp [Numeral.step, hDigit]

/-- A phase that every further digit keeps. -/
theorem steps_digits {phase : NumeralPhase} (hPhase : phase = .fraction ∨ phase = .power) {digits : List Char}
    (hDigits : ∀ c ∈ digits, '0' ≤ c ∧ c ≤ '9') {n : Numeral} (h : n.phase = phase) :
    ∃ n', Steps Next n digits n' ∧ n'.phase = phase := by
  induction digits generalizing n with
  | nil => exact ⟨n, .refl n, h⟩
  | cons c digits ih =>
    rw [List.forall_mem_cons] at hDigits
    obtain ⟨d, hDigit⟩ := digit?_isSome hDigits.1
    have hNext : ∃ t, Next n c t ∧ t.phase = phase := by
      rcases hPhase with rfl | rfl <;> simp [Next, Numeral.step, h, hDigit]
    obtain ⟨t, hNext, hKept⟩ := hNext
    obtain ⟨n', hSteps, hKept'⟩ := ih hDigits.2 hKept
    exact ⟨n', .head hNext hSteps, hKept'⟩

def digitValue (c : Char) : Nat :=
  c.toNat - 48

theorem digit?_of_digit {c : Char} (h : '0' ≤ c ∧ c ≤ '9') : digit? c = some (digitValue c) :=
  (digit?_eq_some_iff c _).mpr ⟨h, rfl⟩

/-- The digits of a whole part are kept, last first. -/
theorem steps_wholeDigits {digits : List Char} (hDigits : ∀ c ∈ digits, '0' ≤ c ∧ c ≤ '9') {n : Numeral}
    (h : n.phase = .whole) : Steps Next n digits { n with whole := (digits.map digitValue).reverse ++ n.whole } := by
  induction digits generalizing n with
  | nil => exact .refl n
  | cons c digits ih =>
    rw [List.forall_mem_cons] at hDigits
    have hNext : Next n c { n with whole := digitValue c :: n.whole } := by
      simp [Next, Numeral.step, h, digit?_of_digit hDigits.1]
    have hRest := @ih hDigits.2 { n with whole := digitValue c :: n.whole } h
    rw [List.map_cons, List.reverse_cons, List.append_assoc]
    exact .head hNext hRest

/-- The first digit of a whole part, and those that follow it. -/
theorem steps_whole {whole : List Char} (h : WholeText whole) :
    ∃ c rest d, whole = c :: rest ∧ digit? c = some d ∧ ∀ negative, ∃ phase, (phase = .zero ∨ phase = .whole) ∧
      Steps Next (lead negative d) rest { phase, negative, whole := (whole.map digitValue).reverse } := by
  rcases h with rfl | ⟨⟨hNonempty, hDigits⟩, hHead⟩
  · exact ⟨'0', [], 0, rfl, rfl, fun negative => ⟨.zero, .inl rfl, .refl _⟩⟩
  · obtain ⟨c, rest, rfl⟩ := List.exists_cons_of_ne_nil hNonempty
    rw [List.forall_mem_cons] at hDigits
    have hDigit := digit?_of_digit hDigits.1
    refine ⟨c, rest, digitValue c, rfl, hDigit, fun negative => ⟨.whole, .inr rfl, ?_⟩⟩
    have hPositive : digitValue c ≠ 0 := by
      intro hZero
      rw [hZero] at hDigit
      exact hHead (by rw [eq_zero_of_digit? hDigit]; rfl)
    have hLead : lead negative (digitValue c) = { phase := .whole, negative, whole := [digitValue c] } := by
      simp [lead, hPositive]
    rw [List.map_cons, List.reverse_cons, hLead]
    exact steps_wholeDigits hDigits.2 rfl

theorem steps_fraction {fraction : List Char} (h : FractionText fraction) {n : Numeral}
    (hPhase : n.phase = .zero ∨ n.phase = .whole) :
    ∃ n', Steps Next n fraction n' ∧ (n'.phase = .zero ∨ n'.phase = .whole ∨ n'.phase = .fraction) := by
  rcases h with rfl | ⟨digits, ⟨hNonempty, hDigits⟩, rfl⟩
  · exact ⟨n, .refl n, hPhase.imp_right .inl⟩
  · obtain ⟨c, rest, rfl⟩ := List.exists_cons_of_ne_nil hNonempty
    rw [List.forall_mem_cons] at hDigits
    obtain ⟨d, hDigit⟩ := digit?_isSome hDigits.1
    have hPoint : Next n '.' { n with phase := .point } := by
      have hNone : digit? '.' = none := by decide
      rcases hPhase with hPhase | hPhase <;> simp [Next, Numeral.step, hPhase, hNone, leave]
    have hFirst : Next { n with phase := .point } c
        { n with phase := .fraction, fraction := d :: n.fraction } := by
      simp [Next, Numeral.step, hDigit]
    obtain ⟨n', hSteps, hKept⟩ := @steps_digits .fraction (.inl rfl) rest hDigits.2
      { n with phase := .fraction, fraction := d :: n.fraction } rfl
    exact ⟨n', .head hPoint (.head hFirst hSteps), .inr (.inr hKept)⟩

theorem steps_power {power : List Char} (h : PowerText power) {n : Numeral}
    (hPhase : n.phase = .zero ∨ n.phase = .whole ∨ n.phase = .fraction) :
    ∃ n', Steps Next n power n' ∧ n'.complete = true := by
  rcases h with rfl | ⟨mark, sign, digits, hMark, hSign, ⟨hNonempty, hDigits⟩, rfl⟩
  · refine ⟨n, .refl n, ?_⟩
    rcases hPhase with hPhase | hPhase | hPhase <;> simp [complete, hPhase]
  · obtain ⟨c, rest, rfl⟩ := List.exists_cons_of_ne_nil hNonempty
    rw [List.forall_mem_cons] at hDigits
    obtain ⟨d, hDigit⟩ := digit?_isSome hDigits.1
    have hMarked : Next n mark { n with phase := .mark } := by
      rcases hMark with rfl | rfl <;> rcases hPhase with hPhase | hPhase | hPhase <;>
        simp [Next, Numeral.step, hPhase, leave, digit?]
    have hSigned : ∃ t, Steps Next { n with phase := .mark } sign t ∧
        (t.phase = .mark ∨ t.phase = .sign) := by
      rcases hSign with rfl | rfl | rfl
      · exact ⟨_, .refl _, .inl rfl⟩
      · exact ⟨_, .single rfl, .inr rfl⟩
      · exact ⟨_, .single rfl, .inr rfl⟩
    obtain ⟨t, hSigned, hPhase'⟩ := hSigned
    have hFirst : Next t c { t with phase := .power, power := d :: t.power } := by
      rcases hPhase' with hPhase' | hPhase' <;> simp [Next, Numeral.step, hPhase', hDigit]
    obtain ⟨n', hSteps, hKept⟩ := @steps_digits .power (.inr rfl) rest hDigits.2
      { t with phase := .power, power := d :: t.power } rfl
    exact ⟨n', .head hMarked (hSigned.trans (.head hFirst hSteps)), by simp [complete, hKept]⟩

/-- Every number is read to its end, from its first character on. -/
theorem steps_number {text : List Char} (h : NumberText text) :
    ∃ c rest n n', text = c :: rest ∧ start? c = some n ∧ Steps Next n rest n' ∧ n'.complete = true := by
  obtain ⟨sign, whole, fraction, power, hSign, hWhole, hFraction, hPower, rfl⟩ := h
  obtain ⟨c, rest, d, rfl, hDigit, hRest⟩ := steps_whole hWhole
  have hBody (negative : Bool) : ∃ n,
      Steps Next (lead negative d) (rest ++ fraction ++ power) n ∧ n.complete = true := by
    obtain ⟨phase, hPhase, hSteps⟩ := hRest negative
    obtain ⟨n', hSteps', hPhase'⟩ := @steps_fraction _ hFraction { phase, negative, whole := _ } hPhase
    obtain ⟨n'', hSteps'', hComplete⟩ := steps_power hPower hPhase'
    exact ⟨n'', (hSteps.trans hSteps').trans hSteps'', hComplete⟩
  rcases hSign with rfl | rfl
  · obtain ⟨n, hSteps, hComplete⟩ := hBody false
    have hMinus : c ≠ '-' := by
      rintro rfl
      cases hDigit
    exact ⟨c, rest ++ fraction ++ power, lead false d, n, by simp, by simp [start?, hMinus, hDigit],
      hSteps, hComplete⟩
  · obtain ⟨n, hSteps, hComplete⟩ := hBody true
    have hFirst : Next { phase := .minus, negative := true } c (lead true d) := by
      simp [Next, Numeral.step, hDigit]
    exact ⟨'-', c :: rest ++ fraction ++ power, { phase := .minus, negative := true }, n, by simp, rfl,
      .head hFirst hSteps, hComplete⟩

end Pictogram.Json.Numeral
