import Pictogram.Element.Basic

/-! # Texts that tell where they end

The text of a value is delimited if it stands at the beginning of a text only when that text was written for
the same value. Quoted strings, lists between brackets and records with all their fields are delimited as soon
as their parts are.
-/
namespace Pictogram.Text
set_option autoImplicit false

/-- A part that is made of certain characters ends where another one follows. -/
theorem append_inj_of_forall {p : Char → Prop} {u v x y : List Char} (hu : ∀ c ∈ u, p c) (hv : ∀ c ∈ v, p c)
    (hx : ∀ c ∈ x.head?, ¬ p c) (hy : ∀ c ∈ y.head?, ¬ p c) (h : u ++ x = v ++ y) : u = v ∧ x = y := by
  induction u generalizing v with
  | nil =>
    cases v with
    | nil => exact ⟨rfl, h⟩
    | cons d v =>
      rw [List.nil_append, List.cons_append] at h
      exact (hx d (by rw [h]; rfl) (hv d List.mem_cons_self)).elim
  | cons d u ih =>
    cases v with
    | nil =>
      rw [List.nil_append, List.cons_append] at h
      exact (hy d (by rw [← h]; rfl) (hu d List.mem_cons_self)).elim
    | cons e v =>
      obtain ⟨rfl, hTail⟩ := List.cons.inj h
      obtain ⟨rfl, hRest⟩ := ih (fun c hMem => hu c (List.mem_cons_of_mem d hMem))
        (fun c hMem => hv c (List.mem_cons_of_mem d hMem)) hTail
      exact ⟨rfl, hRest⟩

def Delimited {α : Type} (text : α → List Char) (a : α) : Prop :=
  ∀ b x y, text a ++ x = text b ++ y → a = b ∧ x = y

namespace Delimited
variable {α : Type} {text : α → List Char} {a : α}

theorem eq_of_text_eq (h : Delimited text a) {b : α} (hSame : text a = text b) : a = b :=
  (h b [] [] (congrArg (· ++ []) hSame)).1

theorem congr {text' : α → List Char} (h : Delimited text a) (hText : ∀ b, text' b = text b) :
    Delimited text' a := by
  intro b x y hSame
  rw [hText, hText] at hSame
  exact h b x y hSame

theorem wrap (h : Delimited text a) (before after : List Char) :
    Delimited (fun b => before ++ (text b ++ after)) a := by
  intro b x y hSame
  simp only [List.append_assoc, List.append_cancel_left_eq] at hSame
  obtain ⟨rfl, hAfter⟩ := h b _ _ hSame
  exact ⟨rfl, List.append_cancel_left hAfter⟩

/-- The items of a list one after another, up to a text that begins none of them. -/
theorem flatMap {as : List α} (h : ∀ a ∈ as, Delimited text a) {close : List Char}
    (hClose : ∀ a x y, text a ++ x ≠ close ++ y) : Delimited (fun bs => bs.flatMap text ++ close) as := by
  induction as with
  | nil =>
    rintro (_ | ⟨b, bs⟩) x y hSame
    · exact ⟨rfl, List.append_cancel_left hSame⟩
    · simp only [List.flatMap_nil, List.flatMap_cons, List.nil_append, List.append_assoc] at hSame
      exact (hClose b _ _ hSame.symm).elim
  | cons a as ih =>
    rw [List.forall_mem_cons] at h
    rintro (_ | ⟨b, bs⟩) x y hSame
    · simp only [List.flatMap_nil, List.flatMap_cons, List.nil_append, List.append_assoc] at hSame
      exact (hClose a _ _ hSame).elim
    · simp only [List.flatMap_cons, List.append_assoc] at hSame
      obtain ⟨rfl, hRest⟩ := h.1 b _ _ hSame
      simp only [← List.append_assoc] at hRest
      obtain ⟨rfl, hAfter⟩ := ih h.2 bs x y hRest
      exact ⟨rfl, hAfter⟩

/-- A code is delimited if one of its characters can be read back from the front of any text. -/
theorem of_read {read : List Char → Option (α × List Char)} (hRead : ∀ b x, read (text b ++ x) = some (b, x))
    (a : α) : Delimited text a := by
  intro b x y hSame
  have hBoth : some (a, x) = some (b, y) := by
    rw [← hRead a x, hSame, hRead b y]
  cases hBoth
  exact ⟨rfl, rfl⟩

end Delimited

/-! ## Quotes and brackets -/

/-- The first character of a text before its closing quote, where a backslash begins an escape. -/
def readChar (readEscape : List Char → Option (Char × List Char)) : List Char → Option (Char × List Char)
  | [] => none
  | c :: rest => if c = '"' then none else if c = '\\' then readEscape rest else some (c, rest)

theorem readChar_plain {readEscape : List Char → Option (Char × List Char)} {c : Char} (hQuote : c ≠ '"')
    (hBackslash : c ≠ '\\') (rest : List Char) : readChar readEscape (c :: rest) = some (c, rest) := by
  rw [readChar, if_neg hQuote, if_neg hBackslash]

theorem delimited_quoted {code : Char → List Char} {readEscape : List Char → Option (Char × List Char)}
    (hRead : ∀ c x, readChar readEscape (code c ++ x) = some (c, x)) (s : String) :
    Delimited (fun s : String => '"' :: s.toList.flatMap code ++ ['"']) s := by
  have hClose (c : Char) (x y : List Char) : code c ++ x ≠ ['"'] ++ y := by
    intro hSame
    have hNone := hRead c x
    rw [hSame] at hNone
    cases hNone
  have hChars := Delimited.flatMap (fun c (_ : c ∈ s.toList) => .of_read hRead c) hClose
  intro t x y hSame
  obtain ⟨hText, hAfter⟩ := hChars t.toList x y (List.cons.inj hSame).2
  exact ⟨String.toList_injective hText, hAfter⟩

/-- Items in square brackets, with a separator between them. -/
def bracketed (separator : List Char) : List (List Char) → List Char
  | [] => ['[', ']']
  | item :: rest => '[' :: (item ++ (rest.flatMap (separator ++ ·) ++ [']']))

theorem delimited_bracketed {α : Type} {separator : List Char} {text : α → List Char} {as : List α}
    (h : ∀ a ∈ as, Delimited text a) (hSeparator : ∀ x y, separator ++ x ≠ ']' :: y)
    (hText : ∀ a x y, text a ++ x ≠ ']' :: y) : Delimited (fun bs => bracketed separator (bs.map text)) as := by
  cases as with
  | nil =>
    rintro (_ | ⟨b, bs⟩) x y hSame
    · exact ⟨rfl, List.append_cancel_left hSame⟩
    · simp only [List.map_nil, List.map_cons, bracketed, List.cons_append, List.append_assoc] at hSame
      exact (hText b _ _ (List.cons.inj hSame).2.symm).elim
  | cons a as =>
    rw [List.forall_mem_cons] at h
    rintro (_ | ⟨b, bs⟩) x y hSame
    · simp only [List.map_nil, List.map_cons, bracketed, List.cons_append, List.append_assoc] at hSame
      exact (hText a _ _ (List.cons.inj hSame).2).elim
    · simp only [List.map_cons, bracketed, List.cons_append, List.append_assoc, List.cons.injEq, true_and] at hSame
      obtain ⟨rfl, hRest⟩ := h.1 b _ _ hSame
      have hClose (a : α) (x y : List Char) : separator ++ (text a ++ []) ++ x ≠ [']'] ++ y := by
        rw [List.append_assoc]
        exact hSeparator _ y
      have hOthers := Delimited.flatMap (fun a hMem => (h.2 a hMem).wrap separator []) hClose
      obtain ⟨rfl, hAfter⟩ := hOthers bs x y (by simpa [List.flatMap_map] using hRest)
      exact ⟨rfl, hAfter⟩

/-! ## Records -/

/-- Two strings with fixed texts around them. -/
theorem delimited_attribute {text : String → List Char} (h : ∀ s, Delimited text s)
    (before between after : List Char) (a : Attribute) :
    Delimited (fun a : Attribute => before ++ text a.name ++ between ++ text a.value ++ after) a := by
  obtain ⟨name, value⟩ := a
  rintro ⟨name', value'⟩ x y hSame
  simp only [List.append_assoc, List.append_cancel_left_eq] at hSame
  obtain ⟨rfl, hAfterName⟩ := h name name' _ _ hSame
  obtain ⟨rfl, hAfter⟩ := h value value' _ _ (List.append_cancel_left hAfterName)
  exact ⟨rfl, List.append_cancel_left hAfter⟩

/-- A tag and two lists with fixed texts around them. -/
theorem delimited_element {tagText : String → List Char} {attributesText : List Attribute → List Char}
    {childrenText : List Element → List Char} {tag : String} {attributes : List Attribute} {children : List Element}
    (hTag : Delimited tagText tag) (hAttributes : Delimited attributesText attributes)
    (hChildren : Delimited childrenText children) (before between between' after : List Char) :
    Delimited (fun e : Element => before ++ tagText e.tag ++ between ++ attributesText e.attributes ++ between'
      ++ childrenText e.children ++ after) ⟨tag, attributes, children⟩ := by
  rintro ⟨tag', attributes', children'⟩ x y hSame
  simp only [List.append_assoc, List.append_cancel_left_eq] at hSame
  obtain ⟨rfl, hAfterTag⟩ := hTag tag' _ _ hSame
  obtain ⟨rfl, hAfterAttributes⟩ := hAttributes attributes' _ _ (List.append_cancel_left hAfterTag)
  obtain ⟨rfl, hAfter⟩ := hChildren children' _ _ (List.append_cancel_left hAfterAttributes)
  exact ⟨rfl, List.append_cancel_left hAfter⟩

end Pictogram.Text
