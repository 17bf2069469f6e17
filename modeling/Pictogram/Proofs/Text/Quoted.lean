import Pictogram.Text.Hex
import Pictogram.Text.Quoted
import Pictogram.Proofs.Text.Delimited

/-! # Reading quoted text back

A backslash tells that the character after it stands for another one, and the number of a character ends at a
brace. So every character of a quoted text can be read back from the front, whatever the table of printable
characters holds.
-/
namespace Pictogram.Text.Quoted
set_option autoImplicit false

/-- The number that hexadecimal digits stand for. -/
def number (digits : List Char) : Nat :=
  digits.foldl (fun n c => 16 * n + (Hex.value? c).getD 0) 0

theorem value?_digitChar : ∀ n < 16, Hex.value? n.digitChar = some n := by decide

theorem number_toDigits (n : Nat) : number (Nat.toDigits 16 n) = n := by
  induction n using Nat.base_induction 16 (by decide) with
  | single m hm => simp [Nat.toDigits_of_lt_base hm, number, value?_digitChar m hm]
  | digit m k hk hm ih =>
    rw [number] at ih
    rw [← Nat.toDigits_append_toDigits (by decide) hm hk, Nat.toDigits_of_lt_base hk, number, List.foldl_append, ih]
    simp [value?_digitChar k hk]

theorem exists_digitChar {n : Nat} {c : Char} (h : c ∈ Nat.toDigits 16 n) : ∃ d < 16, d.digitChar = c := by
  induction n using Nat.base_induction 16 (by decide) with
  | single m hm =>
    rw [Nat.toDigits_of_lt_base hm, List.mem_singleton] at h
    exact ⟨m, hm, h.symm⟩
  | digit m k hk hm ih =>
    rw [← Nat.toDigits_append_toDigits (by decide) hm hk, Nat.toDigits_of_lt_base hk, List.mem_append,
      List.mem_singleton] at h
    cases h with
    | inl h => exact ih h
    | inr h => exact ⟨k, hk, h.symm⟩

theorem ne_brace_of_mem_toDigits (n : Nat) : ∀ c ∈ Nat.toDigits 16 n, (c != '}') = true := by
  have hDigits : ∀ d < 16, (Nat.digitChar d != '}') = true := by
    decide
  intro c h
  obtain ⟨d, hd, rfl⟩ := exists_digitChar h
  exact hDigits d hd

/-- The character that a letter after a backslash stands for. -/
def unescape? (letter : Char) : Option Char :=
  match letter with
  | '"' => some '"'
  | '\\' => some '\\'
  | 't' => some '\t'
  | 'n' => some '\n'
  | 'r' => some '\r'
  | '0' => some '\x00'
  | _ => none

/-- The character that an escape stands for, read from behind its backslash. -/
def readEscape : List Char → Option (Char × List Char)
  | 'u' :: '{' :: rest =>
    some (Char.ofNat (number (rest.takeWhile (· != '}'))), (rest.dropWhile (· != '}')).tail)
  | letter :: rest => (unescape? letter).map (·, rest)
  | [] => none

theorem readChar_numbered (c : Char) (rest : List Char) :
    readChar readEscape (numbered c.toNat ++ rest) = some (c, rest) := by
  have hDigits := ne_brace_of_mem_toDigits c.toNat
  have hBackslash (text : List Char) : readChar readEscape ('\\' :: text) = readEscape text := rfl
  simp only [numbered, List.cons_append, List.append_assoc, List.nil_append, hBackslash, readEscape,
    List.takeWhile_append_of_pos hDigits, List.dropWhile_append_of_pos hDigits]
  simp [number_toDigits]

theorem readChar_encodeChar (c : Char) (rest : List Char) :
    readChar readEscape (encodeChar c ++ rest) = some (c, rest) := by
  unfold encodeChar
  split
  · rfl
  · rfl
  · rfl
  · rfl
  · rfl
  · rfl
  · rename_i hQuote hBackslash _ _ _ _
    split
    · exact readChar_plain (fun h => hQuote h) (fun h => hBackslash h) rest
    · exact readChar_numbered c rest

theorem delimited_encode (s : String) : Delimited (fun s : String => encode s.toList) s :=
  delimited_quoted readChar_encodeChar s

theorem quote_injective : Function.Injective quote :=
  fun s _ h => (delimited_encode s).eq_of_text_eq (String.ofList_injective h)

end Pictogram.Text.Quoted
