/-! # Entities

Attribute values in markup name five characters by entities, so that a value holds no quote, no angle
bracket and no ampersand of its own. All other characters stand for themselves.
-/
namespace Pictogram.Text.Entity
set_option autoImplicit false

def encodeChar (c : Char) : List Char :=
  match c with
  | '<' => "&lt;".toList
  | '>' => "&gt;".toList
  | '&' => "&amp;".toList
  | '\'' => "&apos;".toList
  | '"' => "&quot;".toList
  | c => [c]

def encode (value : List Char) : List Char :=
  value.flatMap encodeChar

/-- Turns entities back. An ampersand that begins none of the five stays as it is. -/
def decode : List Char → List Char
  | '&' :: 'l' :: 't' :: ';' :: rest => '<' :: decode rest
  | '&' :: 'g' :: 't' :: ';' :: rest => '>' :: decode rest
  | '&' :: 'a' :: 'm' :: 'p' :: ';' :: rest => '&' :: decode rest
  | '&' :: 'a' :: 'p' :: 'o' :: 's' :: ';' :: rest => '\'' :: decode rest
  | '&' :: 'q' :: 'u' :: 'o' :: 't' :: ';' :: rest => '"' :: decode rest
  | c :: rest => c :: decode rest
  | [] => []

@[simp] theorem encode_nil : encode [] = [] := rfl

@[simp] theorem encode_cons (c : Char) (rest : List Char) :
    encode (c :: rest) = encodeChar c ++ encode rest := rfl

theorem decode_cons {c : Char} (h : c ≠ '&') (rest : List Char) : decode (c :: rest) = c :: decode rest := by
  rw [decode]
  all_goals
    intros
    simp_all

theorem decode_encodeChar (c : Char) (rest : List Char) : decode (encodeChar c ++ rest) = c :: decode rest := by
  unfold encodeChar
  split
  · rfl
  · rfl
  · rfl
  · rfl
  · rfl
  · rename_i hAmpersand _ _
    exact decode_cons hAmpersand rest

theorem decode_encode (value : List Char) : decode (encode value) = value := by
  induction value with
  | nil => rfl
  | cons c rest ih => rw [encode_cons, decode_encodeChar, ih]

theorem encode_injective {value other : List Char} (h : encode value = encode other) : value = other := by
  rw [← decode_encode value, h, decode_encode]

theorem quote_notMem_encode (value : List Char) : '"' ∉ encode value := by
  intro h
  obtain ⟨c, -, hMem⟩ := List.mem_flatMap.mp h
  unfold encodeChar at hMem
  split at hMem
  case h_6 =>
    rename_i hQuote
    exact hQuote (List.mem_singleton.mp hMem).symm
  all_goals exact absurd hMem (by decide)

end Pictogram.Text.Entity
