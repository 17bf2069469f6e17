import Pictogram.Proofs.Element.Tokens

/-! # The lines of an inspection

In the indented inspection of a tree every line stands in by four blanks for each bracket that is open in front
of it, where the line of a closing bracket stands with the line that opened it. Brackets between quotes do not
count, and no line is blank or ends in a blank.
-/
namespace Pictogram
set_option autoImplicit false
open Text

namespace Inspect

/-! ## Lines -/

/-- The closing bracket at the beginning of a line, if there is one. -/
def closing (line : List Char) : List Char :=
  ((line.dropWhile (· = ' ')).take 1).filter closes

/-- A line shows something, does not end in a blank, and stands in by the brackets that are open in front of it. -/
structure Placed (s : Scan) (line : List Char) : Prop where
  visible : ∃ c ∈ line, c.isWhitespace = false
  trimmed : line.getLast? ≠ some ' '
  leading : (line.takeWhile (· = ' ')).length = 4 * (s.run (closing line)).opened.length

/-- Every line of a text stands in by the brackets that the lines before it left open. -/
def LaidOut (text : List Char) : Prop :=
  ∀ before line after, text.splitOn '\n' = before ++ line :: after →
    Placed (Scan.run {} (before.flatMap (· ++ ['\n']))) line

/-- Whole lines, each at its place. -/
inductive Laid : Scan → List Char → Prop where
  | nil (s : Scan) : Laid s []
  | line {s : Scan} {line rest : List Char} (hLine : '\n' ∉ line) (hPlaced : Placed s line)
    (hRest : Laid (s.run (line ++ ['\n'])) rest) : Laid s (line ++ '\n' :: rest)

namespace Laid

theorem append {s : Scan} {text other : List Char} (h : Laid s text) (hOther : Laid (s.run text) other) :
    Laid s (text ++ other) := by
  induction h with
  | nil s => exact hOther
  | line hLine hPlaced _ ih =>
    rw [List.append_assoc]
    apply Laid.line hLine hPlaced
    apply ih
    rwa [← Scan.run_append, List.append_assoc]

theorem splitOn_cases {text first rest : List Char} (hFirst : '\n' ∉ first)
    (h : text ++ ['\n'] = first ++ '\n' :: rest) :
    text.splitOn '\n' = [first] ∨
      ∃ more, rest = more ++ ['\n'] ∧ text.splitOn '\n' = first :: more.splitOn '\n' := by
  cases List.eq_nil_or_concat rest with
  | inl hNil =>
    subst hNil
    obtain rfl := List.append_cancel_right h
    exact .inl (List.splitOn_eq_singleton hFirst)
  | inr hConcat =>
    obtain ⟨more, last, rfl⟩ := hConcat
    have hEnds : text ++ ['\n'] = first ++ '\n' :: more ++ [last] := by
      simpa using h
    obtain ⟨rfl, hLast⟩ := List.append_inj' hEnds rfl
    refine .inr ⟨more, ?_, List.splitOn_append_cons_self_of_not_mem hFirst more⟩
    rw [List.concat_eq_append, hLast]

theorem placed {s : Scan} {text : List Char} (h : Laid s (text ++ ['\n'])) {before after : List (List Char)}
    {line : List Char} (hLines : text.splitOn '\n' = before ++ line :: after) :
    Placed (s.run (before.flatMap (· ++ ['\n']))) line := by
  -- By induction on the whole lines, of which the last one ends with the line break that `text` lacks.
  generalize hWhole : text ++ ['\n'] = whole at h
  induction h generalizing text before with
  | nil s => simp at hWhole
  | line hFirst hPlaced _ ih =>
    cases splitOn_cases hFirst hWhole with
    | inl hOnly =>
      rw [hOnly, List.singleton_eq_append_iff] at hLines
      simp only [List.cons_ne_nil, and_false, or_false, List.cons.injEq] at hLines
      obtain ⟨rfl, rfl, -⟩ := hLines
      exact hPlaced
    | inr hMore =>
      obtain ⟨more, hRest, hSplit⟩ := hMore
      rw [hSplit] at hLines
      cases before with
      | nil =>
        obtain ⟨rfl, -⟩ := List.cons.inj hLines
        exact hPlaced
      | cons other before =>
        obtain ⟨rfl, hAfter⟩ := List.cons.inj hLines
        have hLater := ih hAfter hRest.symm
        rwa [List.flatMap_cons, Scan.run_append]

end Laid

/-! ## Lines at a margin -/

theorem takeWhile_margin {c : Char} (h : c ≠ ' ') (depth : Nat) (rest : List Char) :
    (margin depth ++ c :: rest).takeWhile (· = ' ') = margin depth := by
  simp [margin, List.takeWhile_append_of_pos, h]

theorem closing_margin {c : Char} (h : c ≠ ' ') (depth : Nat) (rest : List Char) :
    closing (margin depth ++ c :: rest) = if closes c then [c] else [] := by
  simp [closing, margin, List.dropWhile_append_of_pos, h, List.filter_cons]

theorem of_visible {c : Char} (h : c.isWhitespace = false) : c ≠ ' ' ∧ c ≠ '\n' := by
  constructor
  · rintro rfl
    exact absurd h (by decide)
  · rintro rfl
    exact absurd h (by decide)

theorem placed_margin {s : Scan} {depth : Nat} {c : Char} {rest : List Char} (hVisible : c.isWhitespace = false)
    (hLast : (c :: rest).getLast? ≠ some ' ')
    (hDepth : (s.run (if closes c then [c] else [])).opened.length = depth) :
    Placed s (margin depth ++ c :: rest) := by
  have hBlank := (of_visible hVisible).1
  constructor
  · exact ⟨c, List.mem_append_right _ List.mem_cons_self, hVisible⟩
  · rwa [List.getLast?_append_of_ne_nil _ (List.cons_ne_nil c rest)]
  · rw [takeWhile_margin hBlank, closing_margin hBlank, hDepth, margin, List.length_replicate]

theorem neutral_margin (depth : Nat) : Neutral (margin depth) := by
  apply neutral_of_forall
  intro c hMem
  rw [List.eq_of_mem_replicate hMem]
  decide

theorem newline_notMem_margin (depth : Nat) : '\n' ∉ margin depth :=
  fun hMem => absurd (List.eq_of_mem_replicate hMem) (by decide)

/-- Words that can stand at the beginning of a line. -/
structure Label (label : List Char) : Prop where
  neutral : Neutral label
  newline : '\n' ∉ label
  begins : ∀ c ∈ label.head?, c.isWhitespace = false ∧ closes c = false

theorem label_of_forall {label : List Char} (h : ∀ c ∈ label, c ∉ ['"', '[', ']', '{', '}', '\n'])
    (hVisible : ∀ c ∈ label.head?, c.isWhitespace = false) : Label label where
  neutral := by
    apply neutral_of_forall
    intro c hMem hOther
    exact h c hMem (List.mem_append_left ['\n'] hOther)
  newline := fun hMem => h '\n' hMem (by decide)
  begins := by
    intro c hHead
    refine ⟨hVisible c hHead, ?_⟩
    have hOther := h c (List.mem_of_head? hHead)
    simp_all [closes]

theorem label_nil : Label [] :=
  label_of_forall (by simp) (by simp)

theorem Label.append {label other : List Char} (h : Label label) (hOther : Label other) : Label (label ++ other) where
  neutral := h.neutral.append hOther.neutral
  newline := by
    rw [List.mem_append, not_or]
    exact ⟨h.newline, hOther.newline⟩
  begins := by
    cases label with
    | nil => exact hOther.begins
    | cons c label => exact h.begins

theorem placed_label {label rest opened : List Char} {c : Char} (hLabel : Label label)
    (hVisible : c.isWhitespace = false) (hOpen : closes c = false) (hLast : (c :: rest).getLast? ≠ some ' ') :
    Placed ⟨.plain, opened⟩ (margin opened.length ++ (label ++ c :: rest)) := by
  cases label with
  | nil =>
    apply placed_margin hVisible hLast
    rw [hOpen]
    rfl
  | cons d label =>
    obtain ⟨hVisible, hOpen⟩ := hLabel.begins d rfl
    have hTrimmed : (d :: label ++ c :: rest).getLast? ≠ some ' ' := by
      rwa [List.getLast?_append_of_ne_nil _ (List.cons_ne_nil c rest)]
    apply placed_margin hVisible hTrimmed
    rw [hOpen]
    rfl

/-! ## Values and their lines -/

def Commas (tail : List Char) : Prop :=
  ∀ c ∈ tail, c = ','

/-- A value on one line or more, behind a label on a line at `depth` and in front of commas. -/
structure Hangs (depth : Nat) (text : List Char) : Prop where
  neutral : Neutral text
  laid : ∀ {opened label tail : List Char}, opened.length = depth → Label label → Commas tail →
    Laid ⟨.plain, opened⟩ (margin depth ++ (label ++ (text ++ (tail ++ ['\n']))))

/-- Whole lines that leave `depth` brackets open as they find them. -/
structure Stands (depth : Nat) (lines : List Char) : Prop where
  neutral : Neutral lines
  laid : ∀ {opened : List Char}, opened.length = depth → Laid ⟨.plain, opened⟩ lines

theorem stands_nil (depth : Nat) : Stands depth [] :=
  ⟨fun _ => rfl, fun _ => .nil _⟩

theorem Stands.append {depth : Nat} {lines other : List Char} (h : Stands depth lines) (hOther : Stands depth other) :
    Stands depth (lines ++ other) where
  neutral := h.neutral.append hOther.neutral
  laid := by
    intro opened hDepth
    apply (h.laid hDepth).append
    rw [h.neutral]
    exact hOther.laid hDepth

theorem Commas.newline_notMem {tail : List Char} (h : Commas tail) : '\n' ∉ tail :=
  fun hMem => absurd (h _ hMem) (by decide)

theorem trimmed_commas {c : Char} {rest tail : List Char} (h : (c :: rest).getLast? ≠ some ' ') (hTail : Commas tail) :
    (c :: rest ++ tail).getLast? ≠ some ' ' := by
  cases hLast : tail.getLast? with
  | none =>
    rw [List.getLast?_eq_none_iff] at hLast
    rwa [hLast, List.append_nil]
  | some d =>
    have hComma := hTail d (List.mem_of_getLast? hLast)
    rw [List.getLast?_append, hLast, hComma]
    simp

theorem hangs_line {depth : Nat} {c : Char} {rest : List Char} (hNeutral : Neutral (c :: rest))
    (hLine : '\n' ∉ c :: rest) (hVisible : c.isWhitespace = false) (hOpen : closes c = false)
    (hLast : (c :: rest).getLast? ≠ some ' ') : Hangs depth (c :: rest) where
  neutral := hNeutral
  laid := by
    intro opened label tail hDepth hLabel hTail
    have hPlaced : Placed ⟨.plain, opened⟩ (margin opened.length ++ (label ++ c :: (rest ++ tail))) :=
      placed_label hLabel hVisible hOpen (trimmed_commas hLast hTail)
    have hNewline : '\n' ∉ margin opened.length ++ (label ++ c :: (rest ++ tail)) := by
      have hAll := List.not_mem_append hLine hTail.newline_notMem
      exact List.not_mem_append (newline_notMem_margin _) (List.not_mem_append hLabel.newline hAll)
    have hLaid := Laid.line hNewline hPlaced (.nil _)
    rw [hDepth] at hLaid
    simpa using hLaid

structure Pair (left right : Char) : Prop where
  opens : ∀ opened, Scan.step ⟨.plain, opened⟩ left = ⟨.plain, left :: opened⟩
  closes : ∀ opened, Scan.step ⟨.plain, left :: opened⟩ right = ⟨.plain, opened⟩
  visible : left.isWhitespace = false ∧ right.isWhitespace = false
  leads : Text.closes left = false ∧ Text.closes right = true

theorem pair_square : Pair '[' ']' :=
  ⟨fun _ => rfl, fun _ => rfl, by decide, by decide⟩

theorem pair_curly : Pair '{' '}' :=
  ⟨fun _ => rfl, fun _ => rfl, by decide, by decide⟩

theorem run_head {left right : Char} (hPair : Pair left right) {word : List Char} (hWord : Neutral word)
    (opened : List Char) : Scan.run ⟨.plain, opened⟩ (word ++ [left] ++ ['\n']) = ⟨.plain, left :: opened⟩ := by
  have hBreak : Neutral ['\n'] := neutral_of_forall (by simp)
  have hLeft : Scan.run ⟨.plain, opened⟩ [left] = ⟨.plain, left :: opened⟩ := hPair.opens opened
  rw [Scan.run_append, Scan.run_append, hWord, hLeft, hBreak]

theorem neutral_block {depth : Nat} {word lines : List Char} {left right : Char} (hPair : Pair left right)
    (hWord : Neutral word) (hLines : Neutral lines) : Neutral (block depth (word ++ [left]) lines right) := by
  intro opened
  rw [block, List.append_cons _ '\n', Scan.run_append, run_head hPair hWord, Scan.run_append, hLines,
    Scan.run_append, neutral_margin]
  exact hPair.closes opened

theorem laid_head {left right : Char} (hPair : Pair left right) {label rest opened : List Char} (hLabel : Label label)
    (hRest : Laid ⟨.plain, left :: opened⟩ rest) :
    Laid ⟨.plain, opened⟩ (margin opened.length ++ (label ++ [left]) ++ '\n' :: rest) := by
  obtain ⟨hBlank, hNewline⟩ := of_visible hPair.visible.1
  have hPlaced : Placed ⟨.plain, opened⟩ (margin opened.length ++ (label ++ [left])) :=
    placed_label hLabel hPair.visible.1 hPair.leads.1 (by simp [hBlank])
  have hLine : '\n' ∉ margin opened.length ++ (label ++ [left]) := by
    simp [newline_notMem_margin, hLabel.newline, Ne.symm hNewline]
  apply Laid.line hLine hPlaced
  rwa [← List.append_assoc, run_head hPair ((neutral_margin _).append hLabel.neutral)]

theorem laid_foot {left right : Char} (hPair : Pair left right) {opened tail : List Char} (hTail : Commas tail) :
    Laid ⟨.plain, left :: opened⟩ (margin opened.length ++ right :: tail ++ ['\n']) := by
  obtain ⟨hBlank, hNewline⟩ := of_visible hPair.visible.2
  have hTrimmed : ([right] ++ tail).getLast? ≠ some ' ' := trimmed_commas (by simp [hBlank]) hTail
  have hLine : '\n' ∉ margin opened.length ++ right :: tail := by
    simp [newline_notMem_margin, hTail.newline_notMem, Ne.symm hNewline]
  refine Laid.line hLine ?_ (.nil _)
  -- The bracket of the line itself is closed before its margin is counted.
  apply placed_margin hPair.visible.2 hTrimmed
  rw [hPair.leads.2]
  exact congrArg (·.opened.length) (hPair.closes opened)

theorem hangs_block {depth : Nat} {word lines : List Char} {left right : Char} (hPair : Pair left right)
    (hWord : Label word) (hLines : Stands (depth + 1) lines) :
    Hangs depth (block depth (word ++ [left]) lines right) where
  neutral := neutral_block hPair hWord.neutral hLines.neutral
  laid := by
    intro opened label tail hDepth hLabel hTail
    subst hDepth
    have hRest : Laid ⟨.plain, left :: opened⟩ (lines ++ (margin opened.length ++ right :: tail ++ ['\n'])) := by
      apply (hLines.laid rfl).append
      rw [hLines.neutral]
      exact laid_foot hPair hTail
    have hLaid := laid_head hPair (hLabel.append hWord) hRest
    simpa [block] using hLaid

theorem Hangs.stands {depth : Nat} {label text : List Char} (h : Hangs depth text) (hLabel : Label label) :
    Stands depth (line depth (label ++ text)) where
  neutral := by
    have hEnd : Neutral [',', '\n'] := neutral_of_forall (by simp)
    exact (neutral_margin depth).append ((hLabel.neutral.append h.neutral).append hEnd)
  laid := by
    intro opened hDepth
    have hComma : Commas [','] := by
      simp [Commas]
    have hLaid := h.laid hDepth hLabel hComma
    rwa [line, List.append_assoc]

/-! ## The inspection of a tree -/

theorem hangs_text (depth : Nat) (s : String) : Hangs depth (text s) := by
  have hLast : (text s).getLast? ≠ some ' ' := by
    rw [text, Quoted.encode, List.getLast?_concat]
    decide
  exact hangs_line (neutral_encode s.toList) (Quoted.newline_notMem_encode s.toList) (by decide) (by decide) hLast

theorem stands_field {depth : Nat} {name : String} {content : List Char} (h : Hangs depth content)
    (hLabel : Label (name.toList ++ [':', ' '])) : Stands depth (field depth name content) := by
  have hLine := h.stands hLabel
  rwa [List.append_assoc] at hLine

theorem hangs_attribute (depth : Nat) (a : Attribute) : Hangs depth (indentedAttribute depth a) := by
  have hWord : Label "Attribute ".toList := label_of_forall (by simp) (by simp)
  have hName : Label ("name".toList ++ [':', ' ']) := label_of_forall (by simp) (by simp)
  have hValue : Label ("value".toList ++ [':', ' ']) := label_of_forall (by simp) (by simp)
  exact hangs_block pair_curly hWord
    ((stands_field (hangs_text _ a.name) hName).append (stands_field (hangs_text _ a.value) hValue))

theorem stands_items {α : Type} {item : α → List Char} {as : List α} {depth : Nat}
    (h : ∀ a ∈ as, Hangs depth (item a)) : Stands depth ((as.map item).flatMap (line depth)) := by
  induction as with
  | nil => exact stands_nil depth
  | cons a as ih =>
    rw [List.forall_mem_cons] at h
    exact (h.1.stands label_nil).append (ih h.2)

theorem hangs_items {α : Type} {item : α → List Char} {as : List α} (depth : Nat)
    (h : ∀ a ∈ as, Hangs (depth + 1) (item a)) : Hangs depth (indentedItems depth (as.map item)) := by
  cases as with
  | nil => exact hangs_line (fun _ => rfl) (by decide) (by decide) (by decide) (by decide)
  | cons a as => exact hangs_block pair_square label_nil (stands_items h)

theorem hangs_indented (depth : Nat) (e : Element) : Hangs depth (indented depth e) := by
  induction e using Element.induction generalizing depth with
  | node tag attributes children ih =>
    have hWord : Label "SvgElement ".toList := label_of_forall (by simp) (by simp)
    have hTag : Label ("tag".toList ++ [':', ' ']) := label_of_forall (by simp) (by simp)
    have hAttributes : Label ("attributes".toList ++ [':', ' ']) := label_of_forall (by simp) (by simp)
    have hChildren : Label ("children".toList ++ [':', ' ']) := label_of_forall (by simp) (by simp)
    -- Fields stand one bracket deeper than their record, and the items of a list one more.
    have hItems := hangs_items (depth + 1) fun a (_ : a ∈ attributes) => hangs_attribute (depth + 2) a
    have hTrees := hangs_items (depth + 1) fun child hMem => ih child hMem (depth + 2)
    rw [← indentedAll_eq_map] at hTrees
    exact hangs_block pair_curly hWord ((stands_field (hangs_text _ tag) hTag).append
      ((stands_field hItems hAttributes).append (stands_field hTrees hChildren)))

theorem newline_notMem_flatItems {items : List (List Char)} (h : ∀ item ∈ items, '\n' ∉ item) :
    '\n' ∉ flatItems items := by
  cases items with
  | nil => decide
  | cons item rest =>
    rw [List.forall_mem_cons] at h
    simpa [flatItems, h.1] using h.2

theorem newline_notMem_flatAttribute (a : Attribute) : '\n' ∉ flatAttribute a := by
  have hName : '\n' ∉ "Attribute \x7b name: ".toList ++ text a.name :=
    List.not_mem_append (by decide) (Quoted.newline_notMem_encode a.name.toList)
  have hValue : '\n' ∉ "Attribute \x7b name: ".toList ++ text a.name ++ ", value: ".toList ++ text a.value :=
    List.not_mem_append (List.not_mem_append hName (by decide)) (Quoted.newline_notMem_encode a.value.toList)
  exact List.not_mem_append hValue (by decide)

theorem newline_notMem_flat (e : Element) : '\n' ∉ flat e := by
  induction e using Element.induction with
  | node tag attributes children ih =>
    have hAttributes : '\n' ∉ flatItems (attributes.map flatAttribute) := by
      apply newline_notMem_flatItems
      intro item hMem
      obtain ⟨a, -, rfl⟩ := List.mem_map.mp hMem
      exact newline_notMem_flatAttribute a
    have hChildren : '\n' ∉ flatItems (flatAll children) := by
      rw [flatAll_eq_map]
      apply newline_notMem_flatItems
      intro item hMem
      obtain ⟨child, hChild, rfl⟩ := List.mem_map.mp hMem
      exact ih child hChild
    have hTag : '\n' ∉ "SvgElement \x7b tag: ".toList ++ text tag :=
      List.not_mem_append (by decide) (Quoted.newline_notMem_encode tag.toList)
    have hMiddle : '\n' ∉ "SvgElement \x7b tag: ".toList ++ text tag ++ ", attributes: ".toList ++
        flatItems (attributes.map flatAttribute) :=
      List.not_mem_append (List.not_mem_append hTag (by decide)) hAttributes
    have hAll := List.not_mem_append (List.not_mem_append hMiddle (by decide : '\n' ∉ ", children: ".toList)) hChildren
    exact List.not_mem_append hAll (by decide : '\n' ∉ " \x7d".toList)

end Inspect

/-- Both inspections of a tree show the same tokens, one on a single line and the other with every line at its
place. -/
theorem Element.inspections_agree (e : Element) :
    withoutLastCommas (withoutBlanks [' ', '\n'] e.inspectIndented.toList) = withoutBlanks [' '] e.inspect.toList ∧
      '\n' ∉ e.inspect.toList ∧ Inspect.LaidOut e.inspectIndented.toList := by
  rw [inspect, inspectIndented, String.toList_ofList, String.toList_ofList]
  refine ⟨(Inspect.alike_indented 0 e).tokens_eq, Inspect.newline_notMem_flat e, ?_⟩
  intro before line after hLines
  have hCommas : Inspect.Commas [] := List.forall_mem_nil _
  have hLaid := (Inspect.hangs_indented 0 e).laid List.length_nil Inspect.label_nil hCommas
  exact Inspect.Laid.placed hLaid hLines

end Pictogram
