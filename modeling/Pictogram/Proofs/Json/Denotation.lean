import Pictogram.Json.Value
import Pictogram.Proofs.Json.Beginnings
import Pictogram.Proofs.Json.Places
import Pictogram.Proofs.Text.Delimited

/-! # What a text denotes

The general format with the values that its texts stand for, nested to any depth. Every part of a text tells where
it ends: a number at the first character that numbers do not use, a string at its closing quote, a list or an
object at its bracket. So a text denotes at most one value.
-/
namespace Pictogram.Json
set_option autoImplicit false
open Format

namespace Format

/-- The texts that stand for a value, without blanks around them. -/
inductive Denotes : Value → List Char → Prop
  | null : Denotes .null "null".toList
  | boolean (value : Bool) : Denotes (.boolean value) (if value then "true".toList else "false".toList)
  | number {text : List Char} (h : NumberText text) : Denotes (.number (String.ofList text)) text
  | string {s : String} {text : List Char} (h : StringText s text) : Denotes (.string s) text
  | list {items : List (Value × List Char)} {text : List Char} (hItems : ∀ item ∈ items, Denotes item.1 item.2)
      (h : ArrayText (items.map (·.2)) text) : Denotes (.list (items.map (·.1))) text
  | object {members : List (String × Value × List Char)} {text : List Char}
      (hValues : ∀ m ∈ members, Denotes m.2.1 m.2.2)
      (h : ObjectText StringText (members.map fun m => (m.1, m.2.2)) text) :
      Denotes (.object (members.map fun m => (m.1, m.2.1))) text

/-- A whole text that holds a value. -/
def Means (text : List Char) (v : Value) : Prop :=
  ∃ before value after, Blanks before ∧ Denotes v value ∧ Blanks after ∧ text = before ++ value ++ after

/-! ## How a value begins -/

inductive Shape where
  | null
  | boolean (value : Bool)
  | number
  | string
  | list
  | object

def shapeOf : Value → Shape
  | .null => .null
  | .boolean value => .boolean value
  | .number _ => .number
  | .string _ => .string
  | .list _ => .list
  | .object _ => .object

/-- The shape of a value that begins with a character. -/
def shapeAt (c : Char) : Shape :=
  match c with
  | 'n' => .null
  | 't' => .boolean true
  | 'f' => .boolean false
  | '"' => .string
  | '[' => .list
  | '{' => .object
  | _ => .number

theorem shapeAt_start? {c : Char} {n : Numeral} (h : Numeral.start? c = some n) : shapeAt c = .number := by
  unfold shapeAt
  split
  · cases h
  · cases h
  · cases h
  · cases h
  · cases h
  · cases h
  · rfl

theorem Denotes.head {v : Value} {text : List Char} (h : Denotes v text) :
    ∃ c rest, text = c :: rest ∧ ¬ Blank c ∧ c ≠ ']' ∧ shapeAt c = shapeOf v := by
  cases h with
  | null => exact ⟨'n', _, rfl, by decide, by decide, rfl⟩
  | boolean value =>
    cases value with
    | true => exact ⟨'t', _, rfl, by decide, by decide, rfl⟩
    | false => exact ⟨'f', _, rfl, by decide, by decide, rfl⟩
  | number h =>
    obtain ⟨c, rest, n, n', rfl, hStart, -⟩ := Numeral.steps_number h
    have hBlank : ¬ Blank c := by
      rw [← isBlank_iff]
      exact ne_true_of_eq_false (Skip.start?_not_other hStart).1
    refine ⟨c, rest, rfl, hBlank, ?_, shapeAt_start? hStart⟩
    rintro rfl
    cases hStart
  | string h =>
    obtain ⟨pieces, -, rfl⟩ := h
    exact ⟨'"', _, rfl, by decide, by decide, rfl⟩
  | list _ h =>
    obtain ⟨inner, -, rfl⟩ := h
    exact ⟨'[', _, rfl, by decide, by decide, rfl⟩
  | object _ h =>
    obtain ⟨items, inner, -, -, rfl⟩ := h
    exact ⟨'{', _, rfl, by decide, by decide, rfl⟩

end Format

/-! ## Where a part ends -/

/-- A rest that does not begin with certain characters. -/
def Past (p : Char → Prop) (rest : List Char) : Prop :=
  ∀ c ∈ rest.head?, ¬ p c

theorem past_cons {p : Char → Prop} {c : Char} (h : ¬ p c) (rest : List Char) : Past p (c :: rest) := by
  intro d hd
  rwa [← Option.some.inj hd]

theorem blanks_append_inj {blanks blanks' x y : List Char} (h : Blanks blanks) (h' : Blanks blanks')
    (hx : Past Blank x) (hy : Past Blank y) (hSame : blanks ++ x = blanks' ++ y) :
    blanks = blanks' ∧ x = y :=
  Text.append_inj_of_forall h h' hx hy hSame

theorem not_uses_of_blank {c : Char} (h : Blank c) : ¬ Numeral.Uses c := by
  obtain rfl | rfl | rfl | rfl := h
  · decide
  · decide
  · decide
  · decide

theorem past_uses_blanks {blanks : List Char} {c : Char} (hBlanks : Blanks blanks) (h : ¬ Numeral.Uses c)
    (rest : List Char) : Past Numeral.Uses (blanks ++ c :: rest) := by
  cases blanks with
  | nil => exact past_cons h rest
  | cons b blanks => exact past_cons (not_uses_of_blank (hBlanks b List.mem_cons_self)) _

theorem uses_of_numberText {text : List Char} (h : NumberText text) : ∀ c ∈ text, Numeral.Uses c := by
  obtain ⟨c, rest, n, n', rfl, hStart, hSteps, -⟩ := Numeral.steps_number h
  rw [List.forall_mem_cons]
  refine ⟨Numeral.uses_of_start? hStart, ?_⟩
  clear hStart h
  induction hSteps with
  | refl => simp
  | head hNext _ ih => exact List.forall_mem_cons.mpr ⟨Numeral.uses_of_step hNext, ih⟩

/-- Two runs of one machine over the same characters end together if no state can both end and go on. -/
theorem Steps.append_inj {σ : Type} {Next : σ → Char → σ → Prop} (Last : σ → Char → Prop)
    (hNext : ∀ s c t u, Next s c t → Next s c u → t = u) (hLast : ∀ s c t, Last s c → ¬ Next s c t)
    {s t t' : σ} {text text' rest rest' : List Char} {c c' : Char} (h : Steps Next s text t)
    (h' : Steps Next s text' t') (hEnd : Last t c) (hEnd' : Last t' c')
    (hSame : text ++ c :: rest = text' ++ c' :: rest') : text = text' ∧ t = t' := by
  induction h generalizing text' with
  | refl s =>
    cases h' with
    | refl => exact ⟨rfl, rfl⟩
    | head hOther _ =>
      obtain ⟨rfl, -⟩ := List.cons.inj hSame
      exact (hLast _ _ _ hEnd hOther).elim
  | head hFirst _ ih =>
    cases h' with
    | refl =>
      obtain ⟨rfl, -⟩ := List.cons.inj hSame
      exact (hLast _ _ _ hEnd' hFirst).elim
    | head hOther hRest =>
      obtain ⟨rfl, hTail⟩ := List.cons.inj hSame
      obtain rfl := hNext _ _ _ _ hFirst hOther
      obtain ⟨rfl, rfl⟩ := ih hRest hEnd hTail
      exact ⟨rfl, rfl⟩

/-- The character that ends a string. -/
def Literal.Closing (l : Literal) (c : Char) : Prop :=
  ∃ s, l.step c = .ok (.done s)

theorem Literal.next_unique (l : Literal) (c : Char) (l₁ l₂ : Literal) (h₁ : Next l c l₁) (h₂ : Next l c l₂) :
    l₁ = l₂ := by
  rw [Next, h₁] at h₂
  cases h₂
  rfl

theorem Literal.not_next_of_closing (l : Literal) (c : Char) (l' : Literal) (h : l.Closing c) : ¬ Next l c l' := by
  obtain ⟨s, hDone⟩ := h
  rw [Next, hDone]
  intro hMore
  cases hMore

theorem stringText_append_inj {s s' : String} {text text' x y : List Char} (h : StringText s text)
    (h' : StringText s' text') (hSame : text ++ x = text' ++ y) : s = s' ∧ text = text' := by
  obtain ⟨pieces, hPieces, rfl⟩ := h
  obtain ⟨pieces', hPieces', rfl⟩ := h'
  have hClosing (read : List Char) : Literal.Closing ⟨read, .plain⟩ '"' := ⟨_, rfl⟩
  simp only [List.cons_append, List.append_assoc, List.cons.injEq, true_and, List.nil_append] at hSame
  obtain ⟨hText, hState⟩ := Steps.append_inj Literal.Closing Literal.next_unique Literal.not_next_of_closing
    (Literal.steps_spellings hPieces []) (Literal.steps_spellings hPieces' []) (hClosing _) (hClosing _) hSame
  simp only [List.append_nil, Literal.mk.injEq, List.reverse_inj, and_true] at hState
  exact ⟨String.toList_injective hState, by rw [hText]⟩

/-- Only one value of a form has a text with which a longer text begins, whatever can follow there. -/
def Settled {α : Type} (Form : α → List Char → Prop) (a : α) (text : List Char) : Prop :=
  ∀ b text' x y, Form b text' → Past Numeral.Uses x → Past Numeral.Uses y → text ++ x = text' ++ y →
    a = b ∧ text = text'

/-! ## Items -/

theorem Format.Separated.ne_nil {inner : List Char} : ¬ Separated [] inner := by
  intro h
  generalize hNone : ([] : List (List Char)) = none at h
  cases h with
  | one => cases hNone
  | more => simp at hNone

theorem Format.Separated.first {items : List (List Char)} {item inner : List Char}
    (h : Separated (item :: items) inner) :
    ∃ before post, Blanks before ∧ Following items post ∧ inner = before ++ item ++ post := by
  obtain ⟨before, post, ⟨-, hBefore⟩ | ⟨done, -, hDone, -⟩, hPost, rfl⟩ := @Separated.split [] items item inner h
  · exact ⟨before, post, hBefore, hPost, rfl⟩
  · exact (Separated.ne_nil hDone).elim

section
variable {α : Type} {Form : α → List Char → Prop} {close : Char}

/-- A closing bracket: no item begins with it, and it is no blank, no comma and no character of numbers. -/
structure Closes (Form : α → List Char → Prop) (close : Char) : Prop where
  not_blank : ¬ Blank close
  not_uses : ¬ Numeral.Uses close
  ne_comma : close ≠ ','
  head : ∀ a text, Form a text → ∃ c rest, text = c :: rest ∧ ¬ Blank c ∧ c ≠ close

namespace Closes

theorem past_blank (h : Closes Form close) {a : α} {text : List Char} (hText : Form a text) (x : List Char) :
    Past Blank (text ++ x) := by
  obtain ⟨c, rest, rfl, hBlank, -⟩ := h.head a text hText
  exact past_cons hBlank (rest ++ x)

theorem past_uses (h : Closes Form close) {others : List (List Char)} {post : List Char} (hPost : Following others post)
    (x : List Char) : Past Numeral.Uses (post ++ close :: x) := by
  obtain ⟨-, hBlanks⟩ | ⟨blanks, inner, hBlanks, -, rfl⟩ := hPost
  · exact past_uses_blanks hBlanks h.not_uses x
  · rw [List.append_assoc]
    exact past_uses_blanks hBlanks (by decide) _

theorem separated_append_inj (h : Closes Form close) {as bs : List α} {items others : List (List Char)}
    {inner inner' x y : List Char} (hItems : List.Forall₂ (fun a item => Form a item ∧ Settled Form a item) as items)
    (hOthers : List.Forall₂ Form bs others) (hInner : Separated items inner) (hInner' : Separated others inner')
    (hSame : inner ++ close :: x = inner' ++ close :: y) : as = bs ∧ inner = inner' := by
  have hStop := @past_cons Blank close h.not_blank
  have hComma := @past_cons Blank ',' (by decide)
  induction hItems generalizing bs others inner inner' with
  | nil => exact (Separated.ne_nil hInner).elim
  | @cons a item as items hItem hRest ih =>
    cases hOthers with
    | nil => exact (Separated.ne_nil hInner').elim
    | @cons b other bs others hOther hOthers =>
      obtain ⟨before, post, hBefore, hPost, rfl⟩ := hInner.first
      obtain ⟨before', post', hBefore', hPost', rfl⟩ := hInner'.first
      simp only [List.append_assoc] at hSame
      obtain ⟨rfl, hItemSame⟩ := blanks_append_inj hBefore hBefore' (h.past_blank hItem.1 _)
        (h.past_blank hOther _) hSame
      obtain ⟨rfl, rfl⟩ := hItem.2 b other _ _ hOther (h.past_uses hPost x) (h.past_uses hPost' y) hItemSame
      have hAfter := List.append_cancel_left hItemSame
      -- Either list goes on with a comma or is over, and then so does the other.
      obtain ⟨rfl, hBlanks⟩ | ⟨blanks, rest, hBlanks, hMore, rfl⟩ := hPost
      · obtain ⟨rfl, hBlanks'⟩ | ⟨blanks', rest', hBlanks', -, rfl⟩ := hPost'
        · obtain ⟨rfl, -⟩ := blanks_append_inj hBlanks hBlanks' (hStop x) (hStop y) hAfter
          cases hRest
          cases hOthers
          exact ⟨rfl, rfl⟩
        · rw [List.append_assoc] at hAfter
          obtain ⟨-, hClose⟩ := blanks_append_inj hBlanks hBlanks' (hStop x) (hComma _) hAfter
          exact (h.ne_comma (List.cons.inj hClose).1).elim
      · obtain ⟨rfl, hBlanks'⟩ | ⟨blanks', rest', hBlanks', hMore', rfl⟩ := hPost'
        · rw [List.append_assoc] at hAfter
          obtain ⟨-, hClose⟩ := blanks_append_inj hBlanks hBlanks' (hComma _) (hStop y) hAfter
          exact (h.ne_comma (List.cons.inj hClose).1.symm).elim
        · rw [List.append_assoc, List.append_assoc] at hAfter
          obtain ⟨rfl, hTail⟩ := blanks_append_inj hBlanks hBlanks' (hComma _) (hComma _) hAfter
          obtain ⟨rfl, rfl⟩ := ih hOthers hMore hMore' (List.cons.inj hTail).2
          exact ⟨rfl, rfl⟩

theorem items_append_inj (h : Closes Form close) {as bs : List α} {items others : List (List Char)}
    {inner inner' x y : List Char} (hItems : List.Forall₂ (fun a item => Form a item ∧ Settled Form a item) as items)
    (hOthers : List.Forall₂ Form bs others) (hInner : ItemsText items inner) (hInner' : ItemsText others inner')
    (hSame : inner ++ close :: x = inner' ++ close :: y) : as = bs ∧ inner = inner' := by
  have hStop := @past_cons Blank close h.not_blank
  -- Blanks before a closing bracket hold no item.
  have hNoItem {a : α} {item blanks before post : List Char} {u v : List Char} (hItem : Form a item)
      (hBlanks : Blanks blanks) (hBefore : Blanks before)
      (hEqual : blanks ++ close :: u = before ++ item ++ post ++ close :: v) : False := by
    simp only [List.append_assoc] at hEqual
    obtain ⟨-, hClose⟩ := blanks_append_inj hBlanks hBefore (hStop u) (h.past_blank hItem _) hEqual
    obtain ⟨c, rest, rfl, -, hNe⟩ := h.head a item hItem
    exact hNe (List.cons.inj hClose).1.symm
  obtain ⟨rfl, hBlanks⟩ | hInner := hInner
  · obtain ⟨rfl, hBlanks'⟩ | hInner' := hInner'
    · obtain ⟨rfl, -⟩ := blanks_append_inj hBlanks hBlanks' (hStop x) (hStop y) hSame
      cases hItems
      cases hOthers
      exact ⟨rfl, rfl⟩
    · cases hOthers with
      | nil => exact (Separated.ne_nil hInner').elim
      | cons hOther _ =>
        obtain ⟨before, post, hBefore, -, rfl⟩ := hInner'.first
        exact (hNoItem hOther hBlanks hBefore hSame).elim
  · obtain ⟨rfl, hBlanks'⟩ | hInner' := hInner'
    · cases hItems with
      | nil => exact (Separated.ne_nil hInner).elim
      | cons hItem _ =>
        obtain ⟨before, post, hBefore, -, rfl⟩ := hInner.first
        exact (hNoItem hItem.1 hBlanks' hBefore hSame.symm).elim
    · exact h.separated_append_inj hItems hOthers hInner hInner' hSame

end Closes
end

/-! ## Values -/

theorem closes_list : Closes Denotes ']' where
  not_blank := by decide
  not_uses := by decide
  ne_comma := by decide
  head _ _ h := by
    obtain ⟨c, rest, hText, hBlank, hClose, -⟩ := h.head
    exact ⟨c, rest, hText, hBlank, hClose⟩

/-- The texts of a member of an object. -/
def DenotesMember (m : String × Value) (text : List Char) : Prop :=
  ∃ value, MemberText StringText (m.1, value) text ∧ Denotes m.2 value

theorem closes_object : Closes DenotesMember '}' where
  not_blank := by decide
  not_uses := by decide
  ne_comma := by decide
  head _ _ h := by
    obtain ⟨_, ⟨_, before, after, ⟨pieces, -, rfl⟩, -, -, rfl⟩, -⟩ := h
    exact ⟨'"', _, rfl, by decide, by decide⟩

theorem settled_member {key : String} {v : Value} {value text : List Char} (hValue : Denotes v value)
    (hSettled : Settled Denotes v value) (h : MemberText StringText (key, value) text) :
    Settled DenotesMember (key, v) text := by
  rintro ⟨key', v'⟩ text' x y ⟨value', ⟨literal', before', after', hKey', hBefore', hAfter', rfl⟩, hValue'⟩ hx hy hSame
  obtain ⟨literal, before, after, hKey, hBefore, hAfter, rfl⟩ := h
  have hColon := @past_cons Blank ':' (by decide)
  simp only [List.append_assoc, List.cons_append] at hSame
  obtain ⟨rfl, rfl⟩ := stringText_append_inj hKey hKey' hSame
  obtain ⟨rfl, hTail⟩ := blanks_append_inj hBefore hBefore' (hColon _) (hColon _) (List.append_cancel_left hSame)
  obtain ⟨rfl, hValueSame⟩ := blanks_append_inj hAfter hAfter' (closes_list.past_blank hValue x)
    (closes_list.past_blank hValue' y) (List.cons.inj hTail).2
  obtain ⟨rfl, rfl⟩ := hSettled v' value' x y hValue' hx hy hValueSame
  exact ⟨rfl, rfl⟩

theorem shapeOf_eq {v w : Value} {text text' x y : List Char} (h : Denotes v text) (h' : Denotes w text')
    (hSame : text ++ x = text' ++ y) : shapeOf v = shapeOf w := by
  obtain ⟨c, rest, rfl, -, -, hShape⟩ := h.head
  obtain ⟨c', rest', rfl, -, -, hShape'⟩ := h'.head
  obtain ⟨rfl, -⟩ := List.cons.inj hSame
  exact hShape.symm.trans hShape'

theorem list_append_inj {items others : List (Value × List Char)} {text text' x y : List Char}
    (hItems : ∀ item ∈ items, Denotes item.1 item.2 ∧ Settled Denotes item.1 item.2)
    (hOthers : ∀ item ∈ others, Denotes item.1 item.2) (h : ArrayText (items.map (·.2)) text)
    (h' : ArrayText (others.map (·.2)) text') (hSame : text ++ x = text' ++ y) :
    items.map (·.1) = others.map (·.1) ∧ text = text' := by
  obtain ⟨inner, hInner, rfl⟩ := h
  obtain ⟨inner', hInner', rfl⟩ := h'
  have hPairs : List.Forall₂ (fun v text => Denotes v text ∧ Settled Denotes v text)
      (items.map (·.1)) (items.map (·.2)) := by
    rwa [List.forall₂_map_left_iff, List.forall₂_map_right_iff, List.forall₂_same]
  have hPairs' : List.Forall₂ Denotes (others.map (·.1)) (others.map (·.2)) := by
    rwa [List.forall₂_map_left_iff, List.forall₂_map_right_iff, List.forall₂_same]
  simp only [List.cons_append, List.append_assoc, List.cons.injEq, true_and, List.nil_append] at hSame
  obtain ⟨hValues, rfl⟩ := closes_list.items_append_inj hPairs hPairs' hInner hInner' hSame
  exact ⟨hValues, rfl⟩

/-- What holds of the members of an object holds of their texts in order. -/
theorem forall₂_members {members : List (String × Value × List Char)} {items : List (List Char)}
    (Form : String × Value → List Char → Prop)
    (hForm : ∀ m ∈ members, ∀ text, MemberText StringText (m.1, m.2.2) text → Form (m.1, m.2.1) text)
    (hItems : List.Forall₂ (MemberText StringText) (members.map fun m => (m.1, m.2.2)) items) :
    List.Forall₂ Form (members.map fun m => (m.1, m.2.1)) items := by
  rw [List.forall₂_map_left_iff] at hItems ⊢
  have hBoth := (List.forall₂_and_left _ _).mpr ⟨hForm, hItems⟩
  exact hBoth.imp fun _ text hMember => hMember.1 text hMember.2

theorem object_append_inj {members others : List (String × Value × List Char)} {text text' x y : List Char}
    (hMembers : ∀ m ∈ members, Denotes m.2.1 m.2.2 ∧ Settled Denotes m.2.1 m.2.2)
    (hOthers : ∀ m ∈ others, Denotes m.2.1 m.2.2)
    (h : ObjectText StringText (members.map fun m => (m.1, m.2.2)) text)
    (h' : ObjectText StringText (others.map fun m => (m.1, m.2.2)) text') (hSame : text ++ x = text' ++ y) :
    (members.map fun m => (m.1, m.2.1)) = (others.map fun m => (m.1, m.2.1)) ∧ text = text' := by
  obtain ⟨items, inner, hItems, hInner, rfl⟩ := h
  obtain ⟨items', inner', hItems', hInner', rfl⟩ := h'
  have hTexts := forall₂_members (fun m text => DenotesMember m text ∧ Settled DenotesMember m text)
    (fun m hMem _ hText => ⟨⟨m.2.2, hText, (hMembers m hMem).1⟩,
      settled_member (hMembers m hMem).1 (hMembers m hMem).2 hText⟩) hItems
  have hTexts' := forall₂_members DenotesMember (fun m hMem _ hText => ⟨m.2.2, hText, hOthers m hMem⟩) hItems'
  simp only [List.cons_append, List.append_assoc, List.cons.injEq, true_and, List.nil_append] at hSame
  obtain ⟨hValues, rfl⟩ := closes_object.items_append_inj hTexts hTexts' hInner hInner' hSame
  exact ⟨hValues, rfl⟩

/-- A text denotes at most one value, also as the beginning of a longer one. -/
theorem Format.Denotes.settled {v : Value} {text : List Char} (h : Denotes v text) : Settled Denotes v text := by
  induction h with
  | null =>
    intro w text' x y h' _ _ hSame
    have hShape := shapeOf_eq .null h' hSame
    cases h' with
    | null => exact ⟨rfl, rfl⟩
    | boolean | number | string | list | object => cases hShape
  | boolean value =>
    intro w text' x y h' _ _ hSame
    have hShape := shapeOf_eq (.boolean value) h' hSame
    cases h' with
    | boolean =>
      cases hShape
      exact ⟨rfl, rfl⟩
    | null | number | string | list | object => cases hShape
  | number h =>
    intro w text' x y h' hx hy hSame
    have hShape := shapeOf_eq (.number h) h' hSame
    cases h' with
    | number h' =>
      obtain ⟨rfl, -⟩ := Text.append_inj_of_forall (uses_of_numberText h) (uses_of_numberText h') hx hy hSame
      exact ⟨rfl, rfl⟩
    | null | boolean | string | list | object => cases hShape
  | string h =>
    intro w text' x y h' _ _ hSame
    have hShape := shapeOf_eq (.string h) h' hSame
    cases h' with
    | string h' =>
      obtain ⟨rfl, rfl⟩ := stringText_append_inj h h' hSame
      exact ⟨rfl, rfl⟩
    | null | boolean | number | list | object => cases hShape
  | list hItems h ih =>
    intro w text' x y h' _ _ hSame
    have hShape := shapeOf_eq (.list hItems h) h' hSame
    cases h' with
    | list hOthers h' =>
      have hBoth := fun item hMem => And.intro (hItems item hMem) (ih item hMem)
      obtain ⟨hValues, rfl⟩ := list_append_inj hBoth hOthers h h' hSame
      exact ⟨congrArg Value.list hValues, rfl⟩
    | null | boolean | number | string | object => cases hShape
  | object hValues h ih =>
    intro w text' x y h' _ _ hSame
    have hShape := shapeOf_eq (.object hValues h) h' hSame
    cases h' with
    | object hOthers h' =>
      have hBoth := fun m hMem => And.intro (hValues m hMem) (ih m hMem)
      obtain ⟨hMembers, rfl⟩ := object_append_inj hBoth hOthers h h' hSame
      exact ⟨congrArg Value.object hMembers, rfl⟩
    | null | boolean | number | string | list => cases hShape

theorem Format.Means.unique {v w : Value} {text : List Char} (h : Means text v) (h' : Means text w) : v = w := by
  obtain ⟨before, value, after, hBefore, hValue, hAfter, rfl⟩ := h
  obtain ⟨before', value', after', hBefore', hValue', hAfter', hSame⟩ := h'
  have hEnd {blanks : List Char} (hBlanks : Blanks blanks) : Past Numeral.Uses blanks :=
    fun c hc => not_uses_of_blank (hBlanks c (List.mem_of_mem_head? hc))
  rw [List.append_assoc, List.append_assoc] at hSame
  obtain ⟨-, hRest⟩ := blanks_append_inj hBefore hBefore' (closes_list.past_blank hValue after)
    (closes_list.past_blank hValue' after') hSame
  exact (hValue.settled w value' after after' hValue' (hEnd hAfter) (hEnd hAfter') hRest).1

/-! ## Texts of the format -/

theorem passing_of_spelling {piece : List Char} {c : Char} (h : Spelling piece c) :
    ∃ pieces : List (List Char), (∀ piece ∈ pieces, Passing piece) ∧ piece = pieces.flatten := by
  cases h with
  | plain hQuote hBackslash hControl =>
    exact ⟨[[c]], List.forall_mem_singleton.mpr (.plain hQuote hBackslash hControl), rfl⟩
  | short h => exact ⟨[_], List.forall_mem_singleton.mpr (.short h), rfl⟩
  | unit h => exact ⟨[_], List.forall_mem_singleton.mpr (.unit h), by simp⟩
  | @pair first second _ _ hFirst hSecond =>
    refine ⟨['\\' :: 'u' :: first, '\\' :: 'u' :: second], ?_, by simp⟩
    exact List.forall_mem_cons.mpr ⟨.unit hFirst, List.forall_mem_singleton.mpr (.unit hSecond)⟩

theorem passing_of_spellings {pieces : List (List Char)} {cs : List Char} (h : List.Forall₂ Spelling pieces cs) :
    ∃ passed : List (List Char), (∀ piece ∈ passed, Passing piece) ∧ pieces.flatten = passed.flatten := by
  induction h with
  | nil => exact ⟨[], by simp, rfl⟩
  | cons hPiece _ ih =>
    obtain ⟨first, hFirst, rfl⟩ := passing_of_spelling hPiece
    obtain ⟨rest, hRest, hSame⟩ := ih
    refine ⟨first ++ rest, ?_, by rw [List.flatten_cons, hSame, List.flatten_append]⟩
    intro piece hMem
    cases List.mem_append.mp hMem with
    | inl hMem => exact hFirst piece hMem
    | inr hMem => exact hRest piece hMem

theorem passedString_of_stringText {s : String} {text : List Char} (h : StringText s text) : PassedString text := by
  obtain ⟨pieces, hPieces, rfl⟩ := h
  obtain ⟨passed, hPassed, hSame⟩ := passing_of_spellings hPieces
  exact ⟨passed, hPassed, by rw [hSame]⟩

/-- The keys of an object can be taken as texts. -/
theorem exists_keyTexts {members : List (String × List Char)} {items : List (List Char)}
    (h : List.Forall₂ (MemberText StringText) members items) :
    ∃ keyed : List (List Char × List Char), (∀ k ∈ keyed, PassedString k.1) ∧
      keyed.map (·.2) = members.map (·.2) ∧ List.Forall₂ (MemberText Eq) keyed items := by
  induction h with
  | nil => exact ⟨[], by simp, rfl, .nil⟩
  | @cons m item members items hMember _ ih =>
    obtain ⟨key, before, after, hKey, hBefore, hAfter, rfl⟩ := hMember
    obtain ⟨keyed, hKeys, hValues, hItems⟩ := ih
    refine ⟨(key, m.2) :: keyed, ?_, by rw [List.map_cons, hValues, List.map_cons], ?_⟩
    · exact List.forall_mem_cons.mpr ⟨passedString_of_stringText hKey, hKeys⟩
    · exact .cons ⟨key, before, after, rfl, hBefore, hAfter, rfl⟩ hItems

/-- Every text that denotes a value is a text of the format, where strings that are passed over may hold more. -/
theorem Format.Denotes.valueText {v : Value} {text : List Char} (h : Denotes v text) : ValueText text := by
  induction h with
  | null => exact .word (by simp)
  | boolean value => cases value <;> exact .word (by simp)
  | number h => exact .number h
  | string h => exact .string (passedString_of_stringText h)
  | @list items text _ h ih =>
    exact .list (List.forall_mem_map.mpr ih) h
  | @object members text _ h ih =>
    obtain ⟨items, inner, hItems, hInner, rfl⟩ := h
    obtain ⟨keyed, hKeys, hValues, hKeyed⟩ := exists_keyTexts hItems
    refine .object hKeys ?_ ⟨items, inner, hKeyed, hInner, rfl⟩
    have hTexts : ∀ value ∈ keyed.map (·.2), ValueText value := by
      rw [hValues, List.map_map]
      exact List.forall_mem_map.mpr ih
    exact List.forall_mem_map.mp hTexts

end Pictogram.Json
