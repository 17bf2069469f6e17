import Pictogram.Proofs.Text.Quoted

/-! # Texts with quoted parts

A quoted string runs from a quote to the next one, where a backslash takes the character after it along.
Nothing between quotes belongs to the structure of a text: no character is deleted there, and no bracket is
counted. So a quoted text is passed as a whole, whatever it stands for.
-/
namespace Pictogram.Text
set_option autoImplicit false

/-- Where a reader stands: outside of quotes, between them, or behind a backslash between them. -/
inductive Mode where
  | plain
  | quoted
  | escaped
deriving DecidableEq

def Mode.next : Mode → Char → Mode
  | .plain, c => if c = '"' then .quoted else .plain
  | .quoted, c => if c = '"' then .plain else if c = '\\' then .escaped else .quoted
  | .escaped, _ => .quoted

/-! ## Quoted strings -/

/-- What stands between two quotes on one line. -/
inductive Inside : List Char → Prop where
  | nil : Inside []
  | plain {c : Char} {text : List Char} (hChar : c ∉ ['"', '\\', '\n']) (hText : Inside text) : Inside (c :: text)
  | escape {c : Char} {text : List Char} (hChar : c ≠ '\n') (hText : Inside text) : Inside ('\\' :: c :: text)

namespace Inside

theorem append {text other : List Char} (h : Inside text) (hOther : Inside other) : Inside (text ++ other) := by
  induction h with
  | nil => exact hOther
  | plain hChar _ ih => exact .plain hChar ih
  | escape hChar _ ih => exact .escape hChar ih

theorem of_forall {text : List Char} (h : ∀ c ∈ text, c ∉ ['"', '\\', '\n']) : Inside text := by
  induction text with
  | nil => exact .nil
  | cons c text ih =>
    rw [List.forall_mem_cons] at h
    exact .plain h.1 (ih h.2)

theorem newline_notMem {text : List Char} (h : Inside text) : '\n' ∉ text := by
  induction h with
  | nil => exact List.not_mem_nil
  | plain hChar _ ih => simp_all [eq_comm]
  | escape hChar _ ih => simp_all [eq_comm]

end Inside

namespace Quoted

theorem inside_numbered (n : Nat) : Inside (numbered n) := by
  have hDigit : ∀ d < 16, Nat.digitChar d ∉ ['"', '\\', '\n'] := by
    decide
  have hDigits : ∀ c ∈ Nat.toDigits 16 n, c ∉ ['"', '\\', '\n'] := by
    intro c hMem
    obtain ⟨d, hd, rfl⟩ := exists_digitChar hMem
    exact hDigit d hd
  have hBraces : Inside ('{' :: (Nat.toDigits 16 n ++ ['}'])) :=
    .plain (by decide) ((Inside.of_forall hDigits).append (.plain (by decide) .nil))
  exact Inside.escape (by decide) hBraces

theorem inside_encodeChar (c : Char) : Inside (encodeChar c) := by
  unfold encodeChar
  split
  · exact .escape (by decide) .nil
  · exact .escape (by decide) .nil
  · exact .escape (by decide) .nil
  · exact .escape (by decide) .nil
  · exact .escape (by decide) .nil
  · exact .escape (by decide) .nil
  · split
    · exact .plain (by simp_all) .nil
    · exact inside_numbered c.toNat

theorem inside_flatMap_encodeChar (text : List Char) : Inside (text.flatMap encodeChar) := by
  induction text with
  | nil => exact .nil
  | cons c text ih => exact (inside_encodeChar c).append ih

theorem newline_notMem_encode (text : List Char) : '\n' ∉ encode text := by
  have hInside := (inside_flatMap_encodeChar text).newline_notMem
  simp [encode, hInside]

end Quoted

/-! ## Deleting -/

/-- A text without those characters outside of quotes that `drop` picks by what follows them. -/
def erase (drop : Char → List Char → Bool) : Mode → List Char → List Char
  | _, [] => []
  | mode, c :: rest =>
    if mode = .plain ∧ c ≠ '"' ∧ drop c rest then erase drop (mode.next c) rest
    else c :: erase drop (mode.next c) rest

theorem erase_inside (drop : Char → List Char → Bool) {text : List Char} (h : Inside text) (rest : List Char) :
    erase drop .quoted (text ++ rest) = text ++ erase drop .quoted rest := by
  induction h with
  | nil => rfl
  | plain hChar _ ih => simp_all [erase, Mode.next]
  | escape _ _ ih => simp [erase, Mode.next, ih]

theorem erase_encode (drop : Char → List Char → Bool) (text rest : List Char) :
    erase drop .plain (Quoted.encode text ++ rest) = Quoted.encode text ++ erase drop .plain rest := by
  have hInside := erase_inside drop (Quoted.inside_flatMap_encodeChar text) ('"' :: rest)
  simp [Quoted.encode, erase, Mode.next, hInside]

theorem erase_cons {drop : Char → List Char → Bool} {c : Char} (h : c ≠ '"') (rest : List Char) :
    erase drop .plain (c :: rest) =
      if drop c rest then erase drop .plain rest else c :: erase drop .plain rest := by
  simp [erase, Mode.next, h]

def withoutBlanks (blanks text : List Char) : List Char :=
  erase (fun c _ => blanks.contains c) .plain text

theorem withoutBlanks_append (blanks : List Char) {part : List Char} (h : '"' ∉ part) (rest : List Char) :
    withoutBlanks blanks (part ++ rest) = part.filter (· ∉ blanks) ++ withoutBlanks blanks rest := by
  induction part with
  | nil => rfl
  | cons c part ih =>
    rw [List.mem_cons, not_or] at h
    rw [withoutBlanks, List.cons_append, erase_cons (Ne.symm h.1), ← withoutBlanks, ih h.2]
    by_cases hBlank : c ∈ blanks <;> simp [hBlank]

theorem withoutBlanks_cons {blanks : List Char} {c : Char} (hQuote : c ≠ '"') (hBlank : c ∉ blanks)
    (rest : List Char) : withoutBlanks blanks (c :: rest) = c :: withoutBlanks blanks rest := by
  rw [withoutBlanks, erase_cons hQuote, if_neg (by simpa using hBlank), withoutBlanks]

example : withoutBlanks [' '] "a  \"b \\\" c\"  d".toList = "a\"b \\\" c\"d".toList := by decide

def closes (c : Char) : Bool :=
  c = ']' || c = '}'

def lastComma (c : Char) (rest : List Char) : Bool :=
  c = ',' && rest.head?.any closes

/-- A text without the commas that stand directly before a closing bracket. -/
def withoutLastCommas (text : List Char) : List Char :=
  erase lastComma .plain text

theorem withoutLastCommas_append {part : List Char} (h : '"' ∉ part) (hLast : part.getLast? ≠ some ',')
    (rest : List Char) : withoutLastCommas (part ++ rest) = withoutLastCommas part ++ withoutLastCommas rest := by
  induction part with
  | nil => rfl
  | cons c part ih =>
    rw [List.mem_cons, not_or] at h
    have hQuote : c ≠ '"' := Ne.symm h.1
    -- Only at the end of the part does it matter what comes after the part.
    cases part with
    | nil =>
      have hComma : c ≠ ',' := fun hComma => hLast (by rw [hComma]; rfl)
      simp [withoutLastCommas, erase_cons hQuote, lastComma, hComma, erase]
    | cons d part =>
      have hSame : lastComma c (d :: part ++ rest) = lastComma c (d :: part) := rfl
      have hRest := ih h.2 (by rwa [List.getLast?_cons_cons] at hLast)
      simp only [withoutLastCommas] at hRest ⊢
      rw [List.cons_append, erase_cons hQuote, erase_cons hQuote, hSame, hRest]
      split
      · rfl
      · rfl

theorem withoutLastCommas_closing {c : Char} (h : closes c = true) (rest : List Char) :
    withoutLastCommas (c :: rest) = c :: withoutLastCommas rest := by
  have hClosing : c = ']' ∨ c = '}' := by
    simpa [closes] using h
  cases hClosing with
  | inl hSquare => simp [withoutLastCommas, erase_cons, lastComma, hSquare]
  | inr hCurly => simp [withoutLastCommas, erase_cons, lastComma, hCurly]

theorem withoutLastCommas_comma {text left : List Char} {c : Char} (h : withoutLastCommas text = c :: left)
    (hOpen : closes c = false) : withoutLastCommas (',' :: text) = ',' :: c :: left := by
  -- A closing bracket at the front of `text` would stay there.
  have hKept : lastComma ',' text = false := by
    cases text with
    | nil => rfl
    | cons d text =>
      by_cases hCloses : closes d = true
      · rw [withoutLastCommas_closing hCloses, List.cons.injEq] at h
        rw [← h.1, hCloses] at hOpen
        cases hOpen
      · simp [lastComma, hCloses]
  rw [withoutLastCommas, erase_cons (by decide), hKept, ← h]
  rfl

/-! ## Counting brackets -/

/-- What a reader knows of the text behind: where it ends, and the brackets that are open, innermost first. -/
structure Scan where
  mode : Mode := .plain
  opened : List Char := []
deriving DecidableEq

def bracket (opened : List Char) (c : Char) : List Char :=
  match c, opened with
  | '[', opened => '[' :: opened
  | '{', opened => '{' :: opened
  -- A bracket is closed by its own kind only.
  | ']', '[' :: outer => outer
  | '}', '{' :: outer => outer
  | _, opened => opened

def Scan.step (s : Scan) (c : Char) : Scan :=
  ⟨s.mode.next c, if s.mode = .plain then bracket s.opened c else s.opened⟩

def Scan.run (s : Scan) (text : List Char) : Scan :=
  text.foldl step s

namespace Scan

theorem run_nil (s : Scan) : s.run [] = s :=
  rfl

theorem run_cons (s : Scan) (c : Char) (text : List Char) : s.run (c :: text) = (s.step c).run text :=
  rfl

theorem run_append (s : Scan) (text other : List Char) : s.run (text ++ other) = (s.run text).run other :=
  List.foldl_append

theorem run_inside (opened : List Char) {text : List Char} (h : Inside text) :
    run ⟨.quoted, opened⟩ text = ⟨.quoted, opened⟩ := by
  induction h with
  | nil => rfl
  | plain hChar _ ih => simp_all [run, step, Mode.next]
  | escape _ _ ih => simpa [run, step, Mode.next] using ih

end Scan

/-- A text that leaves no bracket open and closes none that was open before. -/
def Neutral (text : List Char) : Prop :=
  ∀ opened, Scan.run ⟨.plain, opened⟩ text = ⟨.plain, opened⟩

theorem Neutral.append {text other : List Char} (h : Neutral text) (hOther : Neutral other) :
    Neutral (text ++ other) := by
  intro opened
  rw [Scan.run_append, h, hOther]

theorem neutral_encode (text : List Char) : Neutral (Quoted.encode text) := by
  intro opened
  have hInside := Scan.run_inside opened (Quoted.inside_flatMap_encodeChar text)
  have hOpen : Scan.step ⟨.plain, opened⟩ '"' = ⟨.quoted, opened⟩ := rfl
  have hClose : Scan.step ⟨.quoted, opened⟩ '"' = ⟨.plain, opened⟩ := rfl
  rw [Quoted.encode, List.cons_append, Scan.run_cons, hOpen, Scan.run_append, hInside, Scan.run_cons, hClose,
    Scan.run_nil]

example : Scan.run {} "a [ \"]\" \x7b b".toList = ⟨.plain, ['{', '[']⟩ := by decide

theorem neutral_of_forall {text : List Char} (h : ∀ c ∈ text, c ∉ ['"', '[', ']', '{', '}']) : Neutral text := by
  intro opened
  induction text with
  | nil => rfl
  | cons c text ih =>
    rw [List.forall_mem_cons] at h
    have hStep : Scan.step ⟨.plain, opened⟩ c = ⟨.plain, opened⟩ := by
      simp_all [Scan.step, Mode.next, bracket]
    rw [Scan.run_cons, hStep, ih h.2]

end Pictogram.Text
