import Pictogram.Element.Order
import Pictogram.Markup
import Pictogram.Proofs.Text.Delimited

/-! # Markup is unambiguous

Where names hold none of the characters that end them, each part of a text of markup ends at a character that
the part cannot hold. So the text of a tree gives the tree back, and it also tells where it ends itself.
-/
namespace Pictogram.Markup
set_option autoImplicit false
open Text

/-! ## Legible names -/

/-- The characters that can follow a name in markup or stand before one. -/
def delimiters : List Char :=
  [' ', '<', '>', '/', '=', '"']

def LegibleName (name : String) : Prop :=
  name ≠ "" ∧ ∀ c ∈ name.toList, c ∉ delimiters

-- Decided along the name: the instance that a search finds may try every character there is.
instance (name : String) : Decidable (LegibleName name) :=
  @instDecidableAnd (name ≠ "") _ _ (List.decidableBAll (· ∉ delimiters) name.toList)

/-- The names of an element, not those of its children. -/
def LegibleTag (e : Element) : Prop :=
  LegibleName e.tag ∧ ∀ a ∈ e.attributes, LegibleName a.name

instance (e : Element) : Decidable (LegibleTag e) :=
  inferInstanceAs (Decidable (LegibleName e.tag ∧ ∀ a ∈ e.attributes, LegibleName a.name))

/-- Every tag and every attribute name of a tree is legible. Values can be any text. -/
def Legible (tree : Element) : Prop :=
  ∀ e ∈ tree.preorder, LegibleTag e

instance (tree : Element) : Decidable (Legible tree) :=
  inferInstanceAs (Decidable (∀ e ∈ tree.preorder, LegibleTag e))

theorem legible_head {e : Element} {others : List Element}
    (h : ∀ d ∈ Element.preorderAll (e :: others), LegibleTag d) : LegibleTag e := by
  refine h e ?_
  obtain ⟨tag, attributes, children⟩ := e
  exact List.mem_cons_self

theorem legible_iff (tag : String) (attributes : List Attribute) (children : List Element) :
    Legible ⟨tag, attributes, children⟩ ↔ LegibleName tag ∧ (∀ a ∈ attributes, LegibleName a.name) ∧
      ∀ e ∈ Element.preorderAll children, LegibleTag e := by
  rw [Legible, Element.preorder, List.forall_mem_cons, LegibleTag, and_assoc]

/-! ## Where parts end -/

/-- A text goes on with one of some characters. -/
def GoesOn (stops text : List Char) : Prop :=
  ∃ c rest, text = c :: rest ∧ c ∈ stops

/-- A part without these characters ends where the first of them stands. -/
theorem append_inj_of_goesOn {stops u v x y : List Char} (hu : ∀ c ∈ u, c ∉ stops) (hv : ∀ c ∈ v, c ∉ stops)
    (hx : GoesOn stops x) (hy : GoesOn stops y) (h : u ++ x = v ++ y) : u = v ∧ x = y := by
  have hHead {text : List Char} (hText : GoesOn stops text) : ∀ c ∈ text.head?, ¬ c ∉ stops := by
    obtain ⟨c, rest, rfl, hStop⟩ := hText
    intro d hd
    obtain rfl := Option.some.inj hd
    exact not_not_intro hStop
  exact Text.append_inj_of_forall hu hv (hHead hx) (hHead hy) h

theorem name_append_inj {name other : String} {x y : List Char} (hName : LegibleName name)
    (hOther : LegibleName other) (hx : GoesOn delimiters x) (hy : GoesOn delimiters y)
    (h : name.toList ++ x = other.toList ++ y) : name = other ∧ x = y := by
  obtain ⟨hChars, hRest⟩ := append_inj_of_goesOn hName.2 hOther.2 hx hy h
  exact ⟨String.toList_injective hChars, hRest⟩

/-- A value ends at the first quote. -/
theorem value_append_inj {value other : String} {x y : List Char}
    (h : Entity.encode value.toList ++ '"' :: x = Entity.encode other.toList ++ '"' :: y) :
    value = other ∧ x = y := by
  have hInside (v : String) : ∀ c ∈ Entity.encode v.toList, c ∉ ['"'] := by
    rintro c hMem hQuote
    obtain rfl := List.mem_singleton.mp hQuote
    exact Entity.quote_notMem_encode v.toList hMem
  obtain ⟨hValue, hRest⟩ := append_inj_of_goesOn (hInside value) (hInside other) ⟨'"', x, rfl, by simp⟩
    ⟨'"', y, rfl, by simp⟩ h
  exact ⟨String.toList_injective (Entity.encode_injective hValue), (List.cons.inj hRest).2⟩

/-! ## Attributes -/

theorem writeAttribute_append (a : Attribute) (rest : List Char) :
    writeAttribute a ++ rest =
      ' ' :: (a.name.toList ++ '=' :: '"' :: (Entity.encode a.value.toList ++ '"' :: rest)) := by
  simp [writeAttribute]

theorem writeAttribute_append_inj {a b : Attribute} {x y : List Char} (hA : LegibleName a.name)
    (hB : LegibleName b.name) (h : writeAttribute a ++ x = writeAttribute b ++ y) : a = b ∧ x = y := by
  rw [writeAttribute_append, writeAttribute_append, List.cons_inj_right] at h
  obtain ⟨hName, hAfter⟩ := name_append_inj hA hB ⟨'=', _, rfl, by decide⟩ ⟨'=', _, rfl, by decide⟩ h
  rw [List.cons_inj_right, List.cons_inj_right] at hAfter
  obtain ⟨hValue, hRest⟩ := value_append_inj hAfter
  obtain ⟨name, value⟩ := a
  subst hName hValue
  exact ⟨rfl, hRest⟩

def EndsTag (text : List Char) : Prop :=
  GoesOn ['/', '>'] text

theorem EndsTag.ne_writeAttribute {text : List Char} (h : EndsTag text) (a : Attribute) (rest : List Char) :
    text ≠ writeAttribute a ++ rest := by
  obtain ⟨c, others, rfl, hEnd⟩ := h
  rw [writeAttribute_append]
  rintro hSame
  obtain ⟨rfl, -⟩ := List.cons.inj hSame
  exact absurd hEnd (by decide)

theorem writeAttributes_append_inj {as bs : List Attribute} {x y : List Char}
    (hAs : ∀ a ∈ as, LegibleName a.name) (hBs : ∀ b ∈ bs, LegibleName b.name) (hx : EndsTag x) (hy : EndsTag y)
    (h : writeAttributes as ++ x = writeAttributes bs ++ y) : as = bs ∧ x = y := by
  induction as generalizing bs with
  | nil =>
    cases bs with
    | nil => exact ⟨rfl, h⟩
    | cons b bs =>
      rw [writeAttributes, writeAttributes, List.flatMap_cons, List.append_assoc] at h
      exact (hx.ne_writeAttribute b _ h).elim
  | cons a as ih =>
    cases bs with
    | nil =>
      rw [writeAttributes, writeAttributes, List.flatMap_cons, List.append_assoc] at h
      exact (hy.ne_writeAttribute a _ h.symm).elim
    | cons b bs =>
      rw [writeAttributes, writeAttributes, List.flatMap_cons, List.flatMap_cons, List.append_assoc,
        List.append_assoc] at h
      rw [List.forall_mem_cons] at hAs hBs
      obtain ⟨rfl, hTail⟩ := writeAttribute_append_inj hAs.1 hBs.1 h
      obtain ⟨rfl, hRest⟩ := ih hAs.2 hBs.2 hTail
      exact ⟨rfl, hRest⟩

/-! ## Trees -/

/-- What follows the attributes of an element, up to its end. -/
def writeBody (tag : String) : List Element → List Char
  | [] => ['/', '>']
  | child :: rest => '>' :: (writeAll (child :: rest) ++ '<' :: '/' :: (tag.toList ++ ['>']))

theorem write_append (tag : String) (attributes : List Attribute) (children : List Element) (rest : List Char) :
    write ⟨tag, attributes, children⟩ ++ rest =
      '<' :: (tag.toList ++ (writeAttributes attributes ++ (writeBody tag children ++ rest))) := by
  cases children with
  | nil => simp [write, writeBody]
  | cons child others => simp [write, writeAll, writeBody]

theorem endsTag_writeBody (tag : String) (children : List Element) (rest : List Char) :
    EndsTag (writeBody tag children ++ rest) := by
  cases children with
  | nil => exact ⟨'/', _, rfl, by decide⟩
  | cons child others => exact ⟨'>', _, rfl, by decide⟩

/-- A tag is delimited on its right. -/
theorem goesOn_writeAttributes (attributes : List Attribute) {rest : List Char} (h : EndsTag rest) :
    GoesOn delimiters (writeAttributes attributes ++ rest) := by
  cases attributes with
  | nil =>
    obtain ⟨c, others, rfl, hEnd⟩ := h
    exact ⟨c, others, rfl, (by decide : ['/', '>'] ⊆ delimiters) hEnd⟩
  | cons a as =>
    rw [writeAttributes, List.flatMap_cons, List.append_assoc, writeAttribute_append]
    exact ⟨' ', _, rfl, by decide⟩

/-- A closing tag begins no element, since a name holds no slash. -/
theorem closing_ne_write {e : Element} (h : LegibleTag e) (x y : List Char) : '<' :: '/' :: x ≠ write e ++ y := by
  obtain ⟨tag, attributes, children⟩ := e
  rw [write_append]
  intro hSame
  obtain ⟨c, rest, hTag⟩ : ∃ c rest, tag.toList = c :: rest := by
    refine List.exists_cons_of_ne_nil fun hNil => h.1.1 ?_
    exact String.toList_eq_nil_iff.mp hNil
  have hSlash : c ≠ '/' := by
    rintro rfl
    exact h.1.2 '/' (hTag ▸ List.mem_cons_self) (by decide)
  rw [hTag] at hSame
  exact hSlash (List.cons.inj (List.cons.inj hSame).2).1.symm

mutual

theorem write_append_inj : ∀ (a b : Element) {x y : List Char}, Legible a → Legible b →
    write a ++ x = write b ++ y → a = b ∧ x = y
  | ⟨tag, as, cs⟩, ⟨tag', as', cs'⟩, x, y => by
    intro hA hB h
    obtain ⟨hTag, hAttributes, hChildren⟩ := (legible_iff tag as cs).mp hA
    obtain ⟨hTag', hAttributes', hChildren'⟩ := (legible_iff tag' as' cs').mp hB
    rw [write_append, write_append, List.cons_inj_right] at h
    obtain ⟨rfl, hAfterTag⟩ := name_append_inj hTag hTag'
      (goesOn_writeAttributes as (endsTag_writeBody tag cs x))
      (goesOn_writeAttributes as' (endsTag_writeBody tag' cs' y)) h
    obtain ⟨rfl, hBody⟩ := writeAttributes_append_inj hAttributes hAttributes' (endsTag_writeBody tag cs x)
      (endsTag_writeBody tag cs' y) hAfterTag
    cases cs with
    | nil =>
      cases cs' with
      | nil =>
        rw [List.append_cancel_left_eq] at hBody
        exact ⟨rfl, hBody⟩
      | cons child' others' => cases hBody
    | cons child others =>
      cases cs' with
      | nil => cases hBody
      | cons child' others' =>
        simp only [writeBody, List.cons_append, List.append_assoc, List.cons_inj_right] at hBody
        obtain ⟨hSame, hClosing⟩ :=
          writeAll_append_inj (child :: others) (child' :: others') hChildren hChildren' hBody
        rw [List.append_cancel_left_eq, List.nil_append, List.nil_append, List.cons_inj_right] at hClosing
        exact ⟨hSame ▸ rfl, hClosing⟩

theorem writeAll_append_inj : ∀ (as bs : List Element) {x y : List Char},
    (∀ e ∈ Element.preorderAll as, LegibleTag e) → (∀ e ∈ Element.preorderAll bs, LegibleTag e) →
      writeAll as ++ '<' :: '/' :: x = writeAll bs ++ '<' :: '/' :: y → as = bs ∧ x = y
  | [], [], x, y => by
    intro _ _ h
    simpa [writeAll] using h
  | [], b :: bs, x, y => by
    intro _ hBs h
    rw [writeAll, writeAll, List.append_assoc] at h
    exact (closing_ne_write (legible_head hBs) _ _ h).elim
  | a :: as, [], x, y => by
    intro hAs _ h
    rw [writeAll, writeAll, List.append_assoc] at h
    exact (closing_ne_write (legible_head hAs) _ _ h.symm).elim
  | a :: as, b :: bs, x, y => by
    intro hAs hBs h
    rw [Element.preorderAll, List.forall_mem_append] at hAs hBs
    rw [writeAll, writeAll, List.append_assoc, List.append_assoc] at h
    obtain ⟨rfl, hTail⟩ := write_append_inj a b hAs.1 hBs.1 h
    obtain ⟨rfl, hRest⟩ := writeAll_append_inj as bs hAs.2 hBs.2 hTail
    exact ⟨rfl, hRest⟩

end

/-- Two legible trees whose markup begins two equal texts are equal, and so is what follows. -/
theorem markup_append_eq_iff {a b : Element} (hA : Legible a) (hB : Legible b) (r s : String) :
    a.markup ++ r = b.markup ++ s ↔ a = b ∧ r = s := by
  constructor
  · intro h
    have hChars := congrArg String.toList h
    rw [String.toList_append, String.toList_append, Element.markup, Element.markup, String.toList_ofList,
      String.toList_ofList] at hChars
    obtain ⟨hTree, hRest⟩ := write_append_inj a b hA hB hChars
    exact ⟨hTree, String.toList_injective hRest⟩
  · rintro ⟨rfl, rfl⟩
    rfl

/-- A value that looks like markup is told from the markup that it looks like. -/
theorem markup_append_ne_lookalike :
    let value : Element := ⟨"g", [⟨"id", "1\"><g id=\"2"⟩], []⟩
    let nested : Element := ⟨"g", [⟨"id", "1"⟩], [⟨"g", [⟨"id", "2"⟩], []⟩]⟩
    Legible value ∧ Legible nested ∧ ∀ r s, value.markup ++ r ≠ nested.markup ++ s := by
  intro value nested
  have hValue : Legible value := by
    decide
  have hNested : Legible nested := by
    decide
  refine ⟨hValue, hNested, fun r s hSame => ?_⟩
  have hTree : value ≠ nested := by
    decide
  exact hTree ((markup_append_eq_iff hValue hNested r s).mp hSame).1

end Pictogram.Markup
