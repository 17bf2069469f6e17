import Mathlib.Data.List.Forall2
import Mathlib.Data.List.Nodup
import Mathlib.Data.Nat.Digits.Defs
import Pictogram.Element.Basic

/-! # The format

Which texts stand for which trees, said without reading them. Texts are put together from the inside out:
pieces of strings, numerals, values of any kind, records, trees. A tree needs room for its brackets, so its
texts depend on how many brackets are open around it; a value that is passed over needs none.
-/
namespace Pictogram.Json.Format
set_option autoImplicit false

/-- Space, tab, line feed and carriage return. -/
def Blank (c : Char) : Prop :=
  c = ' ' ∨ c = '\t' ∨ c = '\n' ∨ c = '\r'

instance (c : Char) : Decidable (Blank c) :=
  inferInstanceAs (Decidable (_ ∨ _))

def Blanks (text : List Char) : Prop :=
  ∀ c ∈ text, Blank c

/-! ## Strings -/

/-- The letters of short escapes, each with the character that it stands for. -/
def shortEscapes : List (Char × Char) :=
  [('"', '"'), ('\\', '\\'), ('/', '/'), ('b', '\x08'), ('f', '\x0c'), ('n', '\n'), ('r', '\r'), ('t', '\t')]

/-- A hexadecimal digit of either case and its value. -/
def HexDigit (c : Char) (n : Nat) : Prop :=
  "0123456789abcdef".toList[n]? = some c ∨ "0123456789ABCDEF".toList[n]? = some c

instance (c : Char) (n : Nat) : Decidable (HexDigit c n) :=
  inferInstanceAs (Decidable (_ ∨ _))

/-- Four digits that write a number, the first one worth most. -/
def UnitText (digits : List Char) (n : Nat) : Prop :=
  ∃ values, List.Forall₂ HexDigit digits values ∧ values.length = 4 ∧ n = Nat.ofDigits 16 values.reverse

/-- A piece of a kept string and the character that it stands for. A numbered escape gives the number of the
character. For a character that needs more than four digits there is one escape for each half of its number. -/
inductive Spelling : List Char → Char → Prop
  | plain {c : Char} (hQuote : c ≠ '"') (hBackslash : c ≠ '\\') (hControl : 0x20 ≤ c.toNat) : Spelling [c] c
  | short {letter c : Char} (h : (letter, c) ∈ shortEscapes) : Spelling ['\\', letter] c
  | unit {digits : List Char} {c : Char} (h : UnitText digits c.toNat) : Spelling ('\\' :: 'u' :: digits) c
  | pair {first second : List Char} {c : Char} (hWide : 0x10000 ≤ c.toNat)
      (hFirst : UnitText first (0xD800 + (c.toNat - 0x10000) / 0x400))
      (hSecond : UnitText second (0xDC00 + (c.toNat - 0x10000) % 0x400)) :
      Spelling ('\\' :: 'u' :: first ++ '\\' :: 'u' :: second) c

/-- A piece of a string that is passed over: a numbered escape need not form a character. -/
inductive Passing : List Char → Prop
  | plain {c : Char} (hQuote : c ≠ '"') (hBackslash : c ≠ '\\') (hControl : 0x20 ≤ c.toNat) : Passing [c]
  | short {letter c : Char} (h : (letter, c) ∈ shortEscapes) : Passing ['\\', letter]
  | unit {digits : List Char} {n : Nat} (h : UnitText digits n) : Passing ('\\' :: 'u' :: digits)

def StringText (s : String) (text : List Char) : Prop :=
  ∃ pieces, List.Forall₂ Spelling pieces s.toList ∧ text = '"' :: pieces.flatten ++ ['"']

def PassedString (text : List Char) : Prop :=
  ∃ pieces : List (List Char), (∀ piece ∈ pieces, Passing piece) ∧ text = '"' :: pieces.flatten ++ ['"']

/-! ## Numbers -/

def Digits (text : List Char) : Prop :=
  text ≠ [] ∧ ∀ c ∈ text, '0' ≤ c ∧ c ≤ '9'

/-- The digits before the point. Only the number zero begins with a zero. -/
def WholeText (text : List Char) : Prop :=
  text = ['0'] ∨ Digits text ∧ text.head? ≠ some '0'

def FractionText (text : List Char) : Prop :=
  text = [] ∨ ∃ digits, Digits digits ∧ text = '.' :: digits

def PowerText (text : List Char) : Prop :=
  text = [] ∨ ∃ mark sign digits, (mark = 'e' ∨ mark = 'E') ∧ (sign = [] ∨ sign = ['+'] ∨ sign = ['-']) ∧
    Digits digits ∧ text = mark :: sign ++ digits

def NumberText (text : List Char) : Prop :=
  ∃ sign whole fraction power, (sign = [] ∨ sign = ['-']) ∧ WholeText whole ∧ FractionText fraction ∧
    PowerText power ∧ text = sign ++ whole ++ fraction ++ power

/-! ## Brackets -/

/-- One or more items with commas between them and blanks around each. -/
inductive Separated : List (List Char) → List Char → Prop
  | one {item before after : List Char} (hBefore : Blanks before) (hAfter : Blanks after) :
      Separated [item] (before ++ item ++ after)
  | more {items : List (List Char)} {inner item before after : List Char} (h : Separated items inner)
      (hBefore : Blanks before) (hAfter : Blanks after) :
      Separated (items ++ [item]) (inner ++ ',' :: (before ++ item ++ after))

/-- What stands between two brackets. -/
def ItemsText (items : List (List Char)) (inner : List Char) : Prop :=
  items = [] ∧ Blanks inner ∨ Separated items inner

def ArrayText (items : List (List Char)) (text : List Char) : Prop :=
  ∃ inner, ItemsText items inner ∧ text = '[' :: inner ++ [']']

/-- A key, a colon and the text of a value. -/
def MemberText {κ : Type} (Key : κ → List Char → Prop) (m : κ × List Char) (text : List Char) : Prop :=
  ∃ key before after, Key m.1 key ∧ Blanks before ∧ Blanks after ∧
    text = key ++ before ++ ':' :: (after ++ m.2)

def ObjectText {κ : Type} (Key : κ → List Char → Prop) (members : List (κ × List Char))
    (text : List Char) : Prop :=
  ∃ items inner, List.Forall₂ (MemberText Key) members items ∧ ItemsText items inner ∧
    text = '{' :: inner ++ ['}']

/-- Any value of the format, nested to any depth. -/
inductive ValueText : List Char → Prop
  | word {text : List Char} (h : text ∈ ["null".toList, "true".toList, "false".toList]) : ValueText text
  | number {text : List Char} (h : NumberText text) : ValueText text
  | string {text : List Char} (h : PassedString text) : ValueText text
  | list {items : List (List Char)} {text : List Char} (hItems : ∀ item ∈ items, ValueText item)
      (h : ArrayText items text) : ValueText text
  | object {members : List (List Char × List Char)} {text : List Char}
      (hKeys : ∀ m ∈ members, PassedString m.1) (hValues : ∀ m ∈ members, ValueText m.2)
      (h : ObjectText Eq members text) : ValueText text

/-! ## Records -/

/-- A field of a record: its key, the texts of its value, and whether there may be none. -/
structure Field where
  key : String
  Form : List Char → Prop
  Absent : Prop

/-- At most one value was written for a field. -/
def Field.Holds (f : Field) (values : List (List Char)) : Prop :=
  values = [] ∧ f.Absent ∨ ∃ value, values = [value] ∧ f.Form value

def valuesOf (key : String) (members : List (String × List Char)) : List (List Char) :=
  (members.filter (·.1 = key)).map (·.2)

/-- The members of a record in any order, unknown ones among them. -/
def ObjectFields (fields : List Field) (members : List (String × List Char)) : Prop :=
  (∀ m ∈ members, m.1 ∈ fields.map (·.key) ∨ ValueText m.2) ∧
    ∀ f ∈ fields, f.Holds (valuesOf f.key members)

/-- The members of a record that more members may follow: every field at most once, and unknown ones. -/
def Unfinished (fields : List Field) (members : List (String × List Char)) : Prop :=
  (∀ m ∈ members, m.1 ∈ fields.map (·.key) ∨ ValueText m.2) ∧
    ∀ f ∈ fields, valuesOf f.key members = [] ∨ ∃ value, valuesOf f.key members = [value] ∧ f.Form value

theorem ObjectFields.unfinished {fields : List Field} {members : List (String × List Char)}
    (h : ObjectFields fields members) : Unfinished fields members :=
  ⟨h.1, fun f hMem => (h.2 f hMem).imp_left And.left⟩

/-- The fields of a record in their order, the last ones left out if they may be absent. -/
def ListFields : List Field → List (List Char) → Prop
  | fields, [] => ∀ f ∈ fields, f.Absent
  | [], _ :: _ => False
  | f :: fields, value :: values => f.Form value ∧ ListFields fields values

theorem listFields_nil (fields : List Field) : ListFields fields [] ↔ ∀ f ∈ fields, f.Absent := by
  cases fields <;> rfl

theorem mem_middle_iff {α : Type} {early late : List α} {a b : α} :
    a ∈ early ++ b :: late ↔ a = b ∨ a ∈ early ++ late :=
  List.perm_middle.mem_iff.trans List.mem_cons

theorem mem_keys_middle_iff {early late : List Field} {f : Field} {key : String} :
    key ∈ (early ++ f :: late).map (·.key) ↔ key = f.key ∨ key ∈ (early ++ late).map (·.key) := by
  rw [List.map_append, List.map_cons, mem_middle_iff, List.map_append]

theorem key_notMem_middle {early late : List Field} {f : Field} (h : ((early ++ f :: late).map (·.key)).Nodup) :
    f.key ∉ (early ++ late).map (·.key) := by
  rw [List.map_append, List.map_cons, List.nodup_middle, List.nodup_cons, ← List.map_append] at h
  exact h.1

def RecordText (fields : List Field) (text : List Char) : Prop :=
  (∃ members, ObjectText StringText members text ∧ ObjectFields fields members) ∨
    ∃ values, ArrayText values text ∧ ListFields fields values

/-! ## Trees

Every text below stands inside `depth` open brackets. Fewer than 128 may be open at once.
-/

def attributeFields (a : Attribute) : List Field :=
  [⟨"name", StringText a.name, False⟩, ⟨"value", StringText a.value, False⟩]

def AttributeText (depth : Nat) (a : Attribute) (text : List Char) : Prop :=
  depth + 1 < 128 ∧ RecordText (attributeFields a) text

def AttributesText (depth : Nat) (attributes : List Attribute) (text : List Char) : Prop :=
  depth + 1 < 128 ∧ ∃ items, List.Forall₂ (AttributeText (depth + 1)) attributes items ∧ ArrayText items text

mutual

def ElementText : Nat → Element → List Char → Prop
  | depth, ⟨tag, attributes, children⟩, text => depth + 1 < 128 ∧
    RecordText [⟨"tag", StringText tag, False⟩,
      ⟨"attributes", AttributesText (depth + 1) attributes, attributes = []⟩,
      ⟨"children", fun value => depth + 2 < 128 ∧
        ∃ items, ElementItems (depth + 2) children items ∧ ArrayText items value, children = []⟩] text

def ElementItems : Nat → List Element → List (List Char) → Prop
  | _, [], items => items = []
  | depth, child :: rest, items =>
    ∃ item others, items = item :: others ∧ ElementText depth child item ∧ ElementItems depth rest others

end

def ChildrenText (depth : Nat) (children : List Element) (text : List Char) : Prop :=
  depth + 1 < 128 ∧ ∃ items, List.Forall₂ (ElementText (depth + 1)) children items ∧ ArrayText items text

/-- A whole text that holds a tree. -/
def Presents (tree : Element) (text : List Char) : Prop :=
  ∃ before value after, Blanks before ∧ ElementText 0 tree value ∧ Blanks after ∧
    text = before ++ value ++ after

theorem elementItems_iff (depth : Nat) (children : List Element) (items : List (List Char)) :
    ElementItems depth children items ↔ List.Forall₂ (ElementText depth) children items := by
  induction children generalizing items with
  | nil => simp [ElementItems]
  | cons child rest ih =>
    rw [ElementItems, List.forall₂_cons_left_iff]
    constructor
    · rintro ⟨item, others, rfl, hItem, hOthers⟩
      exact ⟨item, others, hItem, (ih others).mp hOthers, rfl⟩
    · rintro ⟨item, others, hItem, hOthers, rfl⟩
      exact ⟨item, others, rfl, hItem, (ih others).mpr hOthers⟩

def elementFields (depth : Nat) (tag : String) (attributes : List Attribute) (children : List Element) :
    List Field :=
  [⟨"tag", StringText tag, False⟩, ⟨"attributes", AttributesText depth attributes, attributes = []⟩,
    ⟨"children", ChildrenText depth children, children = []⟩]

theorem elementText_iff (depth : Nat) (tag : String) (attributes : List Attribute)
    (children : List Element) (text : List Char) :
    ElementText depth ⟨tag, attributes, children⟩ text ↔
      depth + 1 < 128 ∧ RecordText (elementFields (depth + 1) tag attributes children) text := by
  rw [ElementText]
  simp only [elementItems_iff]
  rfl

end Pictogram.Json.Format
