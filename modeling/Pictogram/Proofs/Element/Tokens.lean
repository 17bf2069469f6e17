import Pictogram.Proofs.Element.Texts
import Pictogram.Proofs.Text.Scanning

/-! # The tokens of an inspection

The indented inspection of a tree has the tokens of the flat one: without the blanks and line breaks outside
of quotes, and without the comma after the last item of a list or a record, nothing else is left of it.
-/
namespace Pictogram.Inspect
set_option autoImplicit false
open Text

def tokens (text : List Char) : List Char :=
  withoutLastCommas (withoutBlanks [' ', '\n'] text)

/-- A part over several lines and a part on one line from which the same is left, whatever comes after them. -/
def Alike (long short : List Char) : Prop :=
  ∃ common, (∀ rest, tokens (long ++ rest) = common ++ tokens rest) ∧
    ∀ rest, withoutBlanks [' '] (short ++ rest) = common ++ withoutBlanks [' '] rest

theorem Alike.append {long short long' short' : List Char} (h : Alike long short) (h' : Alike long' short') :
    Alike (long ++ long') (short ++ short') := by
  obtain ⟨common, hLong, hShort⟩ := h
  obtain ⟨common', hLong', hShort'⟩ := h'
  refine ⟨common ++ common', ?_, ?_⟩
  · intro rest
    rw [List.append_assoc, hLong, hLong', List.append_assoc]
  · intro rest
    rw [List.append_assoc, hShort, hShort', List.append_assoc]

theorem Alike.tokens_eq {long short : List Char} (h : Alike long short) :
    tokens long = withoutBlanks [' '] short := by
  obtain ⟨common, hLong, hShort⟩ := h
  have hLong := hLong []
  have hShort := hShort []
  rw [List.append_nil] at hLong hShort
  rw [hLong, hShort]
  rfl

theorem alike_text (s : String) : Alike (text s) (text s) := by
  refine ⟨text s, ?_, ?_⟩
  · intro rest
    simp only [tokens, withoutBlanks, withoutLastCommas, text, erase_encode]
  · intro rest
    exact erase_encode _ s.toList rest

/-! ## Fixed parts -/

/-- Two parts without quotes of which the same is left. The longer one does not end in a comma, as it would
depend on the rest of the text whether that comma is left. -/
def Fixed (long short : List Char) : Prop :=
  '"' ∉ long ∧ '"' ∉ short ∧ (long.filter (· ∉ [' ', '\n'])).getLast? ≠ some ',' ∧
    withoutLastCommas (long.filter (· ∉ [' ', '\n'])) = short.filter (· ∉ [' '])

instance (long short : List Char) : Decidable (Fixed long short) :=
  inferInstanceAs (Decidable ('"' ∉ long ∧ '"' ∉ short ∧ (long.filter (· ∉ [' ', '\n'])).getLast? ≠ some ',' ∧
    withoutLastCommas (long.filter (· ∉ [' ', '\n'])) = short.filter (· ∉ [' '])))

theorem alike_fixed {long short : List Char} (h : Fixed long short) : Alike long short := by
  obtain ⟨hLong, hShort, hLast, hSame⟩ := h
  refine ⟨short.filter (· ∉ [' ']), ?_, withoutBlanks_append _ hShort⟩
  intro rest
  have hLeft : '"' ∉ long.filter (· ∉ [' ', '\n']) := fun hMem => hLong (List.mem_of_mem_filter hMem)
  rw [tokens, withoutBlanks_append _ hLong, withoutLastCommas_append hLeft hLast, hSame, tokens]

def lineBreak (depth : Nat) : List Char :=
  '\n' :: margin depth

theorem filter_lineBreak (depth : Nat) : (lineBreak depth).filter (· ∉ [' ', '\n']) = [] := by
  rw [lineBreak, List.filter_cons_of_neg (by decide), List.filter_eq_nil_iff]
  intro c hMem
  rw [List.eq_of_mem_replicate hMem]
  decide

theorem quote_notMem_lineBreak (depth : Nat) : '"' ∉ lineBreak depth := by
  simp [lineBreak, margin, List.mem_replicate]

theorem alike_break (depth : Nat) {before after short : List Char} (h : Fixed (before ++ after) short) :
    Alike (before ++ lineBreak depth ++ after) short := by
  obtain ⟨hLong, hShort, hLast, hSame⟩ := h
  have hFilter : (before ++ lineBreak depth ++ after).filter (· ∉ [' ', '\n']) =
      (before ++ after).filter (· ∉ [' ', '\n']) := by
    rw [List.filter_append, List.filter_append, filter_lineBreak, List.append_nil, List.filter_append]
  apply alike_fixed
  refine ⟨?_, hShort, ?_, ?_⟩
  · rw [List.mem_append, not_or] at hLong
    exact List.not_mem_append (List.not_mem_append hLong.1 (quote_notMem_lineBreak depth)) hLong.2
  · rwa [hFilter]
  · rwa [hFilter]

/-! ## Lists -/

/-- An item of a list does not begin as the rest of a list does. -/
def Opens (item : List Char) : Prop :=
  ∃ c rest, item = c :: rest ∧ c ∉ ['"', ' '] ∧ closes c = false

theorem opens_flatAttribute (a : Attribute) : Opens (flatAttribute a) :=
  ⟨'A', _, rfl, by decide, by decide⟩

theorem opens_flat (e : Element) : Opens (flat e) := by
  obtain ⟨tag, attributes, children⟩ := e
  exact ⟨'S', _, rfl, by decide, by decide⟩

theorem alike_next {depth : Nat} {long short : List Char} (h : Alike long short) (hOpens : Opens short) :
    Alike ([','] ++ lineBreak depth ++ long) (", ".toList ++ short) := by
  obtain ⟨common, hLong, hShort⟩ := h
  obtain ⟨c, after, rfl, hFirst, hOpen⟩ := hOpens
  -- What is left of the item begins with its first character, so the comma in front of it stays.
  have hCommon : common = c :: withoutBlanks [' '] after := by
    have hAlone := hShort []
    rw [List.append_nil, withoutBlanks_cons (by simp_all) (by simp_all)] at hAlone
    simpa [withoutBlanks, erase] using hAlone.symm
  refine ⟨',' :: common, ?_, ?_⟩
  · intro rest
    have hQuote := List.not_mem_append (by decide : '"' ∉ [',']) (quote_notMem_lineBreak depth)
    have hLeft := hLong rest
    rw [hCommon] at hLeft
    rw [tokens, List.append_assoc, withoutBlanks_append _ hQuote, List.filter_append, filter_lineBreak, hCommon]
    exact withoutLastCommas_comma hLeft hOpen
  · intro rest
    rw [List.append_assoc, withoutBlanks_append _ (by decide), hShort]
    rfl

theorem flatMap_line (depth : Nat) (item : List Char) (rest : List (List Char)) :
    (item :: rest).flatMap (line depth) =
      margin depth ++ (item ++ (rest.flatMap (fun item => [','] ++ lineBreak depth ++ item) ++ [',', '\n'])) := by
  induction rest generalizing item with
  | nil => simp [line]
  | cons next rest ih =>
    rw [List.flatMap_cons, ih next]
    simp [line, lineBreak]

theorem alike_rest {α : Type} {long short : α → List Char} {as : List α} (depth : Nat)
    (h : ∀ a ∈ as, Alike (long a) (short a)) (hOpens : ∀ a, Opens (short a)) :
    Alike ((as.map long).flatMap fun item => [','] ++ lineBreak depth ++ item)
      ((as.map short).flatMap (", ".toList ++ ·)) := by
  induction as with
  | nil => exact alike_fixed (by decide : Fixed [] [])
  | cons a as ih =>
    rw [List.forall_mem_cons] at h
    exact (alike_next h.1 (hOpens a)).append (ih h.2)

theorem alike_items {α : Type} {long short : α → List Char} {as : List α} (depth : Nat)
    (h : ∀ a ∈ as, Alike (long a) (short a)) (hOpens : ∀ a, Opens (short a)) :
    Alike (indentedItems depth (as.map long)) (flatItems (as.map short)) := by
  cases as with
  | nil => exact alike_fixed (by decide : Fixed "[]".toList "[]".toList)
  | cons a as =>
    rw [List.forall_mem_cons] at h
    have hOpen : Alike (['['] ++ lineBreak (depth + 1) ++ []) ['['] :=
      alike_break _ (by decide)
    have hClose : Alike ([','] ++ lineBreak depth ++ [']']) [']'] :=
      alike_break _ (by decide)
    have hAll := ((hOpen.append h.1).append (alike_rest (depth + 1) h.2 hOpens)).append hClose
    rw [List.map_cons, indentedItems, block, flatMap_line]
    simpa [lineBreak, flatItems] using hAll

/-! ## Records -/

theorem alike_attribute (depth : Nat) (a : Attribute) : Alike (indentedAttribute depth a) (flatAttribute a) := by
  have hName : Alike ("Attribute \x7b".toList ++ lineBreak (depth + 1) ++ "name: ".toList)
      "Attribute \x7b name: ".toList :=
    alike_break _ (by decide)
  have hValue : Alike ([','] ++ lineBreak (depth + 1) ++ "value: ".toList) ", value: ".toList :=
    alike_break _ (by decide)
  have hClose : Alike ([','] ++ lineBreak depth ++ ['}']) " \x7d".toList :=
    alike_break _ (by decide)
  have hAll : Alike _ (flatAttribute a) :=
    (((hName.append (alike_text a.name)).append hValue).append (alike_text a.value)).append hClose
  simpa [indentedAttribute, block, field, line, lineBreak] using hAll

theorem alike_indented (depth : Nat) (e : Element) : Alike (indented depth e) (flat e) := by
  induction e using Element.induction generalizing depth with
  | node tag attributes children ih =>
    have hTag : Alike ("SvgElement \x7b".toList ++ lineBreak (depth + 1) ++ "tag: ".toList)
        "SvgElement \x7b tag: ".toList :=
      alike_break _ (by decide)
    have hBefore : Alike ([','] ++ lineBreak (depth + 1) ++ "attributes: ".toList) ", attributes: ".toList :=
      alike_break _ (by decide)
    have hAttributes : Alike (indentedItems (depth + 1) (attributes.map (indentedAttribute (depth + 2))))
        (flatItems (attributes.map flatAttribute)) :=
      alike_items (depth + 1) (fun a _ => alike_attribute (depth + 2) a) opens_flatAttribute
    have hBetween : Alike ([','] ++ lineBreak (depth + 1) ++ "children: ".toList) ", children: ".toList :=
      alike_break _ (by decide)
    have hChildren : Alike (indentedItems (depth + 1) (indentedAll (depth + 2) children))
        (flatItems (flatAll children)) := by
      rw [indentedAll_eq_map, flatAll_eq_map]
      exact alike_items (depth + 1) (fun child hMem => ih child hMem (depth + 2)) opens_flat
    have hClose : Alike ([','] ++ lineBreak depth ++ ['}']) " \x7d".toList :=
      alike_break _ (by decide)
    have hAll : Alike _ (flat ⟨tag, attributes, children⟩) :=
      (((((hTag.append (alike_text tag)).append hBefore).append hAttributes).append hBetween).append
        hChildren).append hClose
    simpa [indented, block, field, line, lineBreak] using hAll

end Pictogram.Inspect
