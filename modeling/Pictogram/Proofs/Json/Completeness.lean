import Pictogram.Json.Reader
import Pictogram.Proofs.Json.Skipping

/-! # Every text of the format is read

A text is read from any place where its value can begin, whatever surrounds that place. Strings, lists and
records are read for one hole at a time; trees follow by induction.
-/
namespace Pictogram.Json.State
set_option autoImplicit false
open Format

def Next (s : State) (c : Char) (t : State) : Prop :=
  s.step c = .ok t

theorem run_eq_ok_iff (s t : State) (text : List Char) : s.run text = .ok t ↔ Steps Next s text t := by
  constructor
  · intro h
    induction text generalizing s with
    | nil =>
      rw [run_nil, Except.ok.injEq] at h
      exact h ▸ .refl s
    | cons c text ih =>
      rw [run_cons] at h
      obtain ⟨u, hStep, hRest⟩ := bind_eq_ok_iff.mp h
      exact .head hStep (ih u hRest)
  · intro h
    induction h with
    | refl s => rfl
    | @head s u t c text h _ ih =>
      have hStep : s.step c = .ok u := h
      rw [run_cons, hStep]
      exact ih

theorem run_of_steps {s t : State} {text : List Char} (h : Steps Next s text t) (rest : List Char) :
    s.run (text ++ rest) = t.run rest := by
  rw [run_append, (run_eq_ok_iff s t text).mpr h]
  rfl

/-- A value can begin here for a hole. A closing bracket of a list would mean something else. -/
def Ready (s : State) (hole : Hole) : Prop :=
  ∀ c, isBlank c = false → c ≠ ']' → s.step c = enter hole c

theorem ready_awaiting (hole : Hole) : Ready (.awaiting hole) hole := by
  intro c hBlank _
  simp [step, hBlank]

theorem ready_children (parent : Ancestor) (path : Path) :
    Ready (.children parent path .start) (.element (parent :: path)) := by
  intro c hBlank hClose
  simp [step, stepList, hBlank, hClose]

theorem ready_record {r : Record} {hole : Hole} (hLayout : r.layout = .list) (hNext : r.next? = some hole) :
    Ready (.record r .start) hole := by
  intro c hBlank hClose
  simp [step, stepRecord, hLayout, hNext, hBlank, hClose]

theorem awaiting_blank (hole : Hole) {c : Char} (hBlank : isBlank c = true) :
    Next (.awaiting hole) c (.awaiting hole) := by
  simp [Next, step, hBlank]

/-! ## Strings -/

/-- A string is read up to its closing quote, which puts it into its hole. -/
theorem steps_stringBody {s : State} {hole : Hole} {text : String} {literal : List Char} (hs : Ready s hole)
    (h : StringText text literal) :
    ∃ body t, literal = body ++ ['"'] ∧ Steps Next s body t ∧ t.step '"' = putString hole text := by
  obtain ⟨pieces, hPieces, rfl⟩ := h
  have hOpen : Next s '"' (.string hole {}) := hs '"' rfl (by decide)
  have hBody : Steps Next (.string hole {}) pieces.flatten (.string hole ⟨text.toList.reverse, .plain⟩) := by
    have hLiteral := Literal.steps_spellings hPieces []
    rw [List.append_nil] at hLiteral
    refine hLiteral.map (State.string hole) ?_
    intro l c l' hNext
    have hNext : l.step c = .ok (.more l') := hNext
    simp [Next, step, hNext, bind, Except.bind]
  refine ⟨_, _, rfl, .head hOpen hBody, ?_⟩
  simp [step, Literal.step, bind, Except.bind]

theorem steps_string {s t : State} {hole : Hole} {text : String} {literal : List Char} (hs : Ready s hole)
    (h : StringText text literal) (hPut : putString hole text = .ok t) : Steps Next s literal t := by
  obtain ⟨body, u, rfl, hBody, hClose⟩ := steps_stringBody hs h
  exact hBody.trans (.single (hClose.trans hPut))

/-- A key is read up to its closing quote, which makes it known. -/
theorem steps_keyBody {r : Record} {key : String} {literal : List Char} {s : State}
    (hs : Next s '"' (.record r (.inKey {}))) (h : StringText key literal) :
    ∃ body t, literal = body ++ ['"'] ∧ Steps Next s body t ∧ t.step '"' = putKey r key := by
  obtain ⟨pieces, hPieces, rfl⟩ := h
  have hBody : Steps Next (.record r (.inKey {})) pieces.flatten
      (.record r (.inKey ⟨key.toList.reverse, .plain⟩)) := by
    have hLiteral := Literal.steps_spellings hPieces []
    rw [List.append_nil] at hLiteral
    refine hLiteral.map (fun l => State.record r (.inKey l)) ?_
    intro l c l' hNext
    have hNext : l.step c = .ok (.more l') := hNext
    simp [Next, step, stepRecord, hNext, bind, Except.bind]
  refine ⟨_, _, rfl, .head hs hBody, ?_⟩
  simp [step, stepRecord, Literal.step, bind, Except.bind]

theorem steps_key {r : Record} {key : String} {literal : List Char} {target : Option Hole} {s : State}
    (hs : Next s '"' (.record r (.inKey {}))) (h : StringText key literal) (hMember : r.member key = .ok target) :
    Steps Next s literal (.record r (.colon target)) := by
  obtain ⟨body, t, rfl, hBody, hClose⟩ := steps_keyBody hs h
  have hKnown : putKey r key = .ok (.record r (.colon target)) := by
    rw [putKey, hMember]
    rfl
  exact hBody.trans (.single (hClose.trans hKnown))

/-! ## Members -/

/-- A field of a record is complete; a number that was passed over may still be open. -/
def Rests (r : Record) (s : State) : Prop :=
  s = .record r .after ∨ ∃ n : Numeral, n.complete = true ∧ s = .record r (.skip ⟨[], .numeral n⟩)

theorem step_of_rests {r : Record} {s : State} {c : Char} (h : Rests r s)
    (hEnd : ¬ Numeral.Continues c) : s.step c = stepAfter r c := by
  rcases h with rfl | ⟨n, hComplete, rfl⟩
  · rfl
  · simp [step, stepRecord, Skip.step, Numeral.step_of_complete hComplete hEnd, bind, Except.bind]

theorem rests_blank {r : Record} {s : State} {c : Char} (h : Rests r s) (hBlank : isBlank c = true) :
    ∃ t, Next s c t ∧ Rests r t := by
  refine ⟨.record r .after, ?_, .inl rfl⟩
  rw [Next, step_of_rests h (Skip.not_continues_of_blank hBlank)]
  simp [stepAfter, hBlank]

theorem steps_passed {r : Record} {value : List Char} (h : ValueText value) :
    ∃ t, Steps Next (.record r (.skip {})) value t ∧ Rests r t := by
  obtain ⟨p, ⟨init, last, s, rfl, hInit, hLast⟩, hSettled⟩ := Skip.arrives_value h []
  have hSteps : Steps Next (.record r (.skip {})) init (.record r (.skip s)) := by
    refine hInit.map (fun s => State.record r (.skip s)) ?_
    intro s c t hNext
    have hNext : s.step c = .ok (.more t) := hNext
    simp [Next, step, stepRecord, hNext, bind, Except.bind]
  rcases hSettled with rfl | ⟨n, hComplete, rfl⟩
  · refine ⟨_, hSteps.trans (.single ?_), .inl rfl⟩
    simp [Next, step, stepRecord, hLast, Skip.close, bind, Except.bind]
  · refine ⟨_, hSteps.trans (.single ?_), .inr ⟨n, hComplete, rfl⟩⟩
    simp [Next, step, stepRecord, hLast, bind, Except.bind]

/-- What the value of a member does to a record: nothing, or it fills the hole for its key. -/
def Takes (r : Record) (key : String) (value : List Char) (r' : Record) : Prop :=
  (r.member key = .ok none ∧ ValueText value ∧ r' = r) ∨
    ∃ hole, r.member key = .ok (some hole) ∧ Steps Next (.awaiting hole) value (.record r' .after)

theorem record_colon_blanks {r : Record} {target : Option Hole} {text : List Char} (h : Blanks text) :
    Steps Next (.record r (.colon target)) text (.record r (.colon target)) :=
  steps_loop (fun _ hBlank => by simp [Next, step, stepRecord, hBlank]) h

theorem awaiting_blanks {hole : Hole} {text : List Char} (h : Blanks text) :
    Steps Next (.awaiting hole) text (.awaiting hole) :=
  steps_loop (fun _ hBlank => awaiting_blank hole hBlank) h

/-- The key of a known member and the colon lead to where its value can begin. -/
theorem steps_toValue {r : Record} {key : String} {literal before after : List Char} {hole : Hole} {s : State}
    (hs : Next s '"' (.record r (.inKey {}))) (hKey : StringText key literal) (hBefore : Blanks before)
    (hAfter : Blanks after) (hMember : r.member key = .ok (some hole)) :
    Steps Next s (literal ++ before ++ ':' :: after) (.awaiting hole) := by
  have hColon : Next (.record r (.colon (some hole))) ':' (.awaiting hole) := rfl
  exact ((steps_key hs hKey hMember).trans (record_colon_blanks hBefore)).trans (.head hColon (awaiting_blanks hAfter))

theorem steps_member {r r' : Record} {m : String × List Char} {text : List Char} {s : State}
    (hs : Next s '"' (.record r (.inKey {}))) (h : MemberText StringText m text) (hTakes : Takes r m.1 m.2 r') :
    ∃ t, Steps Next s text t ∧ Rests r' t := by
  obtain ⟨key, before, after, hKey, hBefore, hAfter, rfl⟩ := h
  rcases hTakes with ⟨hMember, hValue, rfl⟩ | ⟨hole, hMember, hValue⟩
  · have hBlanks : Steps Next (.record r' (.skip {})) after (.record r' (.skip {})) :=
      steps_loop (fun c hBlank => by simp [Next, step, stepRecord, Skip.step, hBlank, bind, Except.bind]) hAfter
    obtain ⟨t, hSteps, ht⟩ := @steps_passed r' _ hValue
    have hOpen : Next (.record r' (.colon none)) ':' (.record r' (.skip {})) := rfl
    refine ⟨t, ?_, ht⟩
    exact ((steps_key hs hKey hMember).trans (record_colon_blanks hBefore)).trans (.head hOpen (hBlanks.trans hSteps))
  · refine ⟨_, ?_, .inl rfl⟩
    simpa using (steps_toValue hs hKey hBefore hAfter hMember).trans hValue

theorem record_quote {r : Record} {s : State} (hLayout : r.layout = .object)
    (h : s = .record r .key ∨ s = .record r .start) : Next s '"' (.record r (.inKey {})) := by
  rcases h with rfl | rfl <;> simp [Next, step, stepRecord, hLayout, isBlank]

theorem rests_comma {r : Record} {s : State} (hLayout : r.layout = .object) (h : Rests r s) :
    Next s ',' (.record r .key) := by
  rw [Next, step_of_rests h (by simp [Numeral.Continues])]
  simp [stepAfter, hLayout, isBlank]

theorem record_key_blanks {r : Record} {text : List Char} (h : Blanks text) :
    Steps Next (.record r .key) text (.record r .key) :=
  steps_loop (fun c hBlank => by simp [Next, step, stepRecord, hBlank]) h

theorem record_start_blanks {r : Record} {text : List Char} (h : Blanks text) :
    Steps Next (.record r .start) text (.record r .start) :=
  steps_loop (fun c hBlank => by simp [Next, step, stepRecord, hBlank]) h

section Members
variable {r : Nat → Record} {members : List (String × List Char)} {items : List (List Char)} {inner : List Char}

/-- The members of an object are read one by one; `r n` is the record after `n` of them. -/
theorem steps_separated (hLayout : ∀ n, (r n).layout = .object)
    (hTakes : ∀ n m, members[n]? = some m → Takes (r n) m.1 m.2 (r (n + 1)))
    (hMembers : List.Forall₂ (MemberText StringText) members items) (h : Separated items inner) :
    ∃ t, Steps Next (.record (r 0) .start) inner t ∧ Rests (r members.length) t := by
  have hBlank (n : Nat) (s : State) (c : Char)
      (hs : s = .record (r n) .key ∨ n = 0 ∧ s = .record (r n) .start) (hBlank : isBlank c = true) :
      Next s c s := by
    rcases hs with rfl | ⟨-, rfl⟩ <;> simp [Next, step, stepRecord, hBlank]
  rw [hMembers.length_eq]
  exact @Separated.steps _ Next
    (fun n s => s = .record (r n) .key ∨ n = 0 ∧ s = .record (r n) .start) (fun n => Rests (r n))
    (fun n s c hs hc => ⟨s, hBlank n s c hs hc, hs⟩) (fun n s c => rests_blank) _ _ h
    (fun n s _ hs => ⟨.record (r n) .key, rests_comma (hLayout n) hs, .inl rfl⟩)
    (fun n item s hGet hs => by
      obtain ⟨m, hMember, hText⟩ := forall₂_getElem? hMembers hGet
      exact steps_member (record_quote (hLayout n) (hs.imp_right And.right)) hText (hTakes n m hMember))
    _ (.inr ⟨rfl, rfl⟩)

theorem steps_members (hLayout : ∀ n, (r n).layout = .object)
    (hTakes : ∀ n m, members[n]? = some m → Takes (r n) m.1 m.2 (r (n + 1)))
    (hMembers : List.Forall₂ (MemberText StringText) members items) (h : ItemsText items inner) :
    ∃ t, Steps Next (.record (r 0) .start) inner t ∧ t.step '}' = closeRecord (r members.length) := by
  rcases h with ⟨rfl, hBlanks⟩ | hSeparated
  · cases hMembers
    refine ⟨_, record_start_blanks hBlanks, ?_⟩
    simp [step, stepRecord, hLayout 0, isBlank]
  · obtain ⟨t, hSteps, ht⟩ := steps_separated hLayout hTakes hMembers hSeparated
    refine ⟨t, hSteps, ?_⟩
    rw [step_of_rests ht (by simp [Numeral.Continues])]
    simp [stepAfter, hLayout, isBlank]

/-- After some members the quote of another key can follow. -/
theorem steps_nextMember (hLayout : ∀ n, (r n).layout = .object)
    (hTakes : ∀ n m, members[n]? = some m → Takes (r n) m.1 m.2 (r (n + 1)))
    (hMembers : List.Forall₂ (MemberText StringText) members items) (h : NextItem items inner) :
    ∃ t, Steps Next (.record (r 0) .start) inner t ∧ Next t '"' (.record (r members.length) (.inKey {})) := by
  rcases h with ⟨rfl, hBlanks⟩ | ⟨before, blanks, hSeparated, hBlanks, rfl⟩
  · cases hMembers
    exact ⟨_, record_start_blanks hBlanks, record_quote (hLayout 0) (.inr rfl)⟩
  · obtain ⟨t, hSteps, ht⟩ := steps_separated hLayout hTakes hMembers hSeparated
    exact ⟨_, hSteps.trans (.head (rests_comma (hLayout _) ht) (record_key_blanks hBlanks)),
      record_quote (hLayout _) (.inl rfl)⟩

end Members

section Fields
variable {r : Nat → Record} {values : List (List Char)} {inner : List Char}

/-- The items of a record that is written as a list; `r n` is the record after `n` of them. -/
theorem steps_separatedFields (hLayout : ∀ n, (r n).layout = .list)
    (hTakes : ∀ n value, values[n]? = some value → ∃ hole, (r n).next? = some hole ∧
      ∀ s, Ready s hole → Steps Next s value (.record (r (n + 1)) .after))
    (h : Separated values inner) :
    Steps Next (.record (r 0) .start) inner (.record (r values.length) .after) := by
  obtain ⟨t, hSteps, rfl⟩ := @Separated.steps _ Next
    (fun n s => (∃ hole, (r n).next? = some hole ∧ s = .awaiting hole) ∨ n = 0 ∧ s = .record (r n) .start)
    (fun n s => s = .record (r n) .after)
    (fun n s c hs hBlank => ⟨s, by
      rcases hs with ⟨hole, -, rfl⟩ | ⟨-, rfl⟩
      · exact awaiting_blank hole hBlank
      · simp [Next, step, stepRecord, hBlank], hs⟩)
    (fun n s c hs hBlank => ⟨s, by
      subst hs
      simp [Next, step, stepRecord, stepAfter, hBlank], hs⟩) _ _ h
    (fun n s hLess hs => by
      obtain ⟨hole, hNext, -⟩ := hTakes n values[n] (List.getElem?_eq_getElem hLess)
      refine ⟨.awaiting hole, ?_, .inl ⟨hole, hNext, rfl⟩⟩
      subst hs
      simp [Next, step, stepRecord, stepAfter, hLayout, hNext, isBlank])
    (fun n value s hGet hs => by
      obtain ⟨hole, hNext, hRead⟩ := hTakes n value hGet
      refine ⟨_, ?_, rfl⟩
      rcases hs with ⟨hole', hNext', rfl⟩ | ⟨-, rfl⟩
      · rw [hNext, Option.some.injEq] at hNext'
        exact hNext' ▸ hRead _ (ready_awaiting hole)
      · exact hRead _ (ready_record (hLayout n) hNext))
    _ (.inr ⟨rfl, rfl⟩)
  exact hSteps

theorem steps_fields (hLayout : ∀ n, (r n).layout = .list)
    (hTakes : ∀ n value, values[n]? = some value → ∃ hole, (r n).next? = some hole ∧
      ∀ s, Ready s hole → Steps Next s value (.record (r (n + 1)) .after))
    (h : ItemsText values inner) :
    ∃ t, Steps Next (.record (r 0) .start) inner t ∧ t.step ']' = closeRecord (r values.length) := by
  rcases h with ⟨rfl, hBlanks⟩ | hSeparated
  · refine ⟨_, record_start_blanks hBlanks, ?_⟩
    simp [step, stepRecord, hLayout 0, isBlank]
  · refine ⟨_, steps_separatedFields hLayout hTakes hSeparated, ?_⟩
    simp [step, stepRecord, stepAfter, hLayout, isBlank]

/-- After some fields the value of the next one can follow. -/
theorem steps_nextField (hLayout : ∀ n, (r n).layout = .list)
    (hTakes : ∀ n value, values[n]? = some value → ∃ hole, (r n).next? = some hole ∧
      ∀ s, Ready s hole → Steps Next s value (.record (r (n + 1)) .after))
    (h : NextItem values inner) {hole : Hole} (hNext : (r values.length).next? = some hole) :
    ∃ t, Steps Next (.record (r 0) .start) inner t ∧ Ready t hole := by
  rcases h with ⟨rfl, hBlanks⟩ | ⟨before, blanks, hSeparated, hBlanks, rfl⟩
  · exact ⟨_, record_start_blanks hBlanks, ready_record (hLayout 0) hNext⟩
  · have hComma : Next (.record (r values.length) .after) ',' (.awaiting hole) := by
      simp [Next, step, stepRecord, stepAfter, hLayout, hNext, isBlank]
    exact ⟨_, (steps_separatedFields hLayout hTakes hSeparated).trans (.head hComma (awaiting_blanks hBlanks)),
      ready_awaiting hole⟩

end Fields

/-! ## Records -/

/-- How a record takes its fields: `record layout keys` has those with the given keys, `hole` is where the
value of another one goes, and `done` is what follows the closing bracket. -/
structure Plan (fields : List Field) (done : State) where
  record : Layout → List String → Record
  hole : Layout → List String → String → Hole
  nodup : (fields.map (·.key)).Nodup
  layout_record : ∀ layout keys, (record layout keys).layout = layout
  member_field : ∀ layout keys, ∀ f ∈ fields, f.key ∉ keys →
    (record layout keys).member f.key = .ok (some (hole layout keys f.key))
  member_other : ∀ layout keys, ∀ key ∉ fields.map (·.key), (record layout keys).member key = .ok none
  record_other : ∀ layout keys, ∀ key ∉ fields.map (·.key),
    record layout (keys ++ [key]) = record layout keys
  next?_record : ∀ layout keys, (record layout keys).next? =
    (fields.find? (·.key ∉ keys)).map fun f => hole layout keys f.key
  fill : ∀ layout keys, ∀ f ∈ fields, ∀ value s, f.Form value → Ready s (hole layout keys f.key) →
    Steps Next s value (.record (record layout (keys ++ [f.key])) .after)
  close : ∀ layout keys, (∀ f ∈ fields, f.key ∈ keys ∨ f.Absent) →
    closeRecord (record layout keys) = .ok done

theorem valuesOf_eq_nil_iff (key : String) (members : List (String × List Char)) :
    valuesOf key members = [] ↔ key ∉ members.map (·.1) := by
  rw [valuesOf, List.map_eq_nil_iff, List.filter_eq_nil_iff]
  simp only [decide_eq_true_eq, List.mem_map, not_exists, not_and]

theorem valuesOf_append (key : String) (members rest : List (String × List Char)) :
    valuesOf key (members ++ rest) = valuesOf key members ++ valuesOf key rest := by
  simp [valuesOf]

theorem valuesOf_single (key : String) (value : List Char) : valuesOf key [(key, value)] = [value] := by
  simp [valuesOf]

theorem fresh_of_valuesOf {members : List (String × List Char)} {key : String} {value v : List Char} {n : Nat}
    (h : valuesOf key members = [v]) (hGet : members[n]? = some (key, value)) :
    value = v ∧ key ∉ (members.take n).map (·.1) := by
  obtain ⟨hLess, hMember⟩ := List.getElem?_eq_some_iff.mp hGet
  have hSplit : members = members.take n ++ ([(key, value)] ++ members.drop (n + 1)) := by
    rw [List.singleton_append, ← hMember, ← List.drop_eq_getElem_cons hLess, List.take_append_drop]
  rw [hSplit, valuesOf_append, valuesOf_append, valuesOf_single] at h
  cases hBefore : valuesOf key (members.take n) with
  | nil =>
    rw [hBefore] at h
    refine ⟨(List.cons.inj h).1, (valuesOf_eq_nil_iff key _).mp hBefore⟩
  | cons first others =>
    rw [hBefore] at h
    simp at h

theorem listFields_getElem? {fields : List Field} {values : List (List Char)} (h : ListFields fields values)
    {n : Nat} {value : List Char} (hGet : values[n]? = some value) :
    ∃ f, fields[n]? = some f ∧ f.Form value := by
  induction values generalizing fields n with
  | nil => simp at hGet
  | cons first values ih =>
    cases fields with
    | nil => exact h.elim
    | cons f fields =>
      cases n with
      | zero =>
        rw [List.getElem?_cons_zero, Option.some.injEq] at hGet
        exact ⟨f, rfl, hGet ▸ h.1⟩
      | succ n => exact ih h.2 hGet

theorem listFields_absent {fields : List Field} {values : List (List Char)} (h : ListFields fields values) :
    ∀ f ∈ fields, f ∈ fields.take values.length ∨ f.Absent := by
  induction values generalizing fields with
  | nil => exact fun f hMem => .inr ((listFields_nil fields).mp h f hMem)
  | cons value values ih =>
    cases fields with
    | nil => exact h.elim
    | cons f fields =>
      intro g hMem
      rw [List.length_cons, List.take_succ_cons]
      rcases List.mem_cons.mp hMem with rfl | hMem
      · exact .inl List.mem_cons_self
      · exact (ih h.2 g hMem).imp_left (List.mem_cons_of_mem f)

theorem find?_take {fields : List Field} (hNodup : (fields.map (·.key)).Nodup) {n : Nat} {f : Field}
    (h : fields[n]? = some f) : fields.find? (·.key ∉ (fields.take n).map (·.key)) = some f := by
  obtain ⟨hLess, hField⟩ := List.getElem?_eq_some_iff.mp h
  have hSplit : fields = fields.take n ++ f :: fields.drop (n + 1) := by
    rw [← hField, ← List.drop_eq_getElem_cons hLess, List.take_append_drop]
  have hFresh : f.key ∉ (fields.take n).map (·.key) := by
    rw [hSplit, List.map_append, List.map_cons] at hNodup
    exact fun hMem => (List.nodup_append.mp hNodup).2.2 _ hMem _ List.mem_cons_self rfl
  rw [List.find?_eq_some_iff_append]
  refine ⟨by simpa using hFresh, fields.take n, fields.drop (n + 1), hSplit, ?_⟩
  intro g hMem
  simp only [decide_not, Bool.not_not, decide_eq_true_eq]
  exact List.mem_map_of_mem hMem

namespace Plan
variable {fields : List Field} {done : State}

/-- A member fills its field, or it leaves the record as it is. -/
theorem takes (plan : Plan fields done) {members : List (String × List Char)} (h : Unfinished fields members)
    (n : Nat) (m : String × List Char) (hGet : members[n]? = some m) :
    Takes (plan.record .object ((members.take n).map (·.1))) m.1 m.2
      (plan.record .object ((members.take (n + 1)).map (·.1))) := by
  obtain ⟨hLess, hMember⟩ := List.getElem?_eq_some_iff.mp hGet
  have hKeys : (members.take (n + 1)).map (·.1) = (members.take n).map (·.1) ++ [m.1] := by
    rw [List.take_succ_eq_append_getElem hLess, hMember, List.map_append]
    rfl
  rw [hKeys]
  by_cases hKnown : m.1 ∈ fields.map (·.key)
  · obtain ⟨f, hField, hKey⟩ := List.mem_map.mp hKnown
    have hPresent : valuesOf f.key members ≠ [] := by
      rw [Ne, valuesOf_eq_nil_iff, not_not, hKey]
      exact List.mem_map_of_mem (List.mem_of_getElem? hGet)
    obtain ⟨v, hValues, hForm⟩ := (h.2 f hField).resolve_left hPresent
    have hGet' : members[n]? = some (f.key, m.2) := by rw [hGet, hKey]
    obtain ⟨hValue, hFresh⟩ := fresh_of_valuesOf hValues hGet'
    rw [← hKey]
    exact .inr ⟨_, plan.member_field .object _ f hField hFresh,
      plan.fill .object _ f hField m.2 _ (hValue ▸ hForm) (ready_awaiting _)⟩
  · have hValue := (h.1 m (List.mem_of_getElem? hGet)).resolve_left hKnown
    exact .inl ⟨plan.member_other .object _ m.1 hKnown, hValue, plan.record_other .object _ m.1 hKnown⟩

theorem steps_object (plan : Plan fields done) {members : List (String × List Char)} {text : List Char}
    (h : ObjectText StringText members text) (hFields : ObjectFields fields members) {s : State} {hole : Hole}
    (hs : Ready s hole) (hOpen : openBracket hole .object = .ok (.record (plan.record .object []) .start)) :
    Steps Next s text done := by
  obtain ⟨items, inner, hMembers, hItems, rfl⟩ := h
  obtain ⟨t, hSteps, hClose⟩ := steps_members (fun n => plan.layout_record .object _)
    (plan.takes hFields.unfinished) hMembers hItems
  have hFirst : Next s '{' (.record (plan.record .object []) .start) := (hs '{' rfl (by decide)).trans hOpen
  refine .head hFirst (hSteps.trans (.single (hClose.trans ?_)))
  rw [List.take_length]
  refine plan.close .object _ fun f hField => ?_
  rcases hFields.2 f hField with ⟨-, hAbsent⟩ | ⟨v, hValues, -⟩
  · exact .inr hAbsent
  · left
    by_contra hMissing
    rw [(valuesOf_eq_nil_iff f.key members).mpr hMissing] at hValues
    cases hValues

/-- The items of a list fill the fields in their order. -/
theorem takesInOrder (plan : Plan fields done) {values : List (List Char)}
    (h : ∀ (n : Nat) (value : List Char), values[n]? = some value → ∃ f : Field, fields[n]? = some f ∧ f.Form value)
    (n : Nat) (value : List Char) (hGet : values[n]? = some value) : ∃ hole,
      (plan.record .list ((fields.take n).map (·.key))).next? = some hole ∧ ∀ s, Ready s hole →
        Steps Next s value (.record (plan.record .list ((fields.take (n + 1)).map (·.key))) .after) := by
  obtain ⟨f, hField, hForm⟩ := h n value hGet
  obtain ⟨hLess, hGetField⟩ := List.getElem?_eq_some_iff.mp hField
  have hKeys : (fields.take (n + 1)).map (·.key) = (fields.take n).map (·.key) ++ [f.key] := by
    rw [List.take_succ_eq_append_getElem hLess, hGetField, List.map_append]
    rfl
  rw [plan.next?_record, find?_take plan.nodup hField, hKeys]
  exact ⟨_, rfl, fun s hs => plan.fill .list _ f (List.mem_of_getElem? hField) value s hForm hs⟩

theorem steps_list (plan : Plan fields done) {values : List (List Char)} {text : List Char}
    (h : ArrayText values text) (hFields : ListFields fields values) {s : State} {hole : Hole}
    (hs : Ready s hole) (hOpen : openBracket hole .list = .ok (.record (plan.record .list []) .start)) :
    Steps Next s text done := by
  obtain ⟨inner, hItems, rfl⟩ := h
  obtain ⟨t, hSteps, hClose⟩ := steps_fields (fun n => plan.layout_record .list _)
    (plan.takesInOrder fun _ _ => listFields_getElem? hFields) hItems
  have hFirst : Next s '[' (.record (plan.record .list []) .start) := (hs '[' rfl (by decide)).trans hOpen
  refine .head hFirst (hSteps.trans (.single (hClose.trans ?_)))
  refine plan.close .list _ fun f hField => ?_
  exact (listFields_absent hFields f hField).imp_left fun hMem => List.mem_map_of_mem hMem

theorem steps (plan : Plan fields done) {text : List Char} (h : RecordText fields text) {s : State} {hole : Hole}
    (hs : Ready s hole)
    (hOpen : ∀ layout, openBracket hole layout = .ok (.record (plan.record layout []) .start)) :
    Steps Next s text done := by
  rcases h with ⟨members, hText, hFields⟩ | ⟨values, hText, hFields⟩
  · exact plan.steps_object hText hFields hs (hOpen .object)
  · exact plan.steps_list hText hFields hs (hOpen .list)

end Plan

/-! ## Trees -/

theorem openBracket_element {path : Path} (layout : Layout) (hDepth : 2 * path.length + 1 < 128) :
    openBracket (.element path) layout = .ok (.record (.element { layout } path) .start) := by
  have hRoom : (Hole.element path).depth < maxDepth := by
    simp only [Hole.depth, maxDepth]
    omega
  simp [openBracket, hRoom]

theorem openBracket_attribute {list : AttributeList} (layout : Layout) (hDepth : 2 * list.path.length + 3 < 128) :
    openBracket (.attribute list) layout = .ok (.record (.attribute { layout } list) .start) := by
  have hRoom : (Hole.attribute list).depth < maxDepth := by
    simp only [Hole.depth, maxDepth]
    omega
  simp [openBracket, hRoom]

section Items
variable {list : Nat → ListPhase → State} {closed : Nat → State} {hole : Nat → Hole} {items : List (List Char)}
  {inner : List Char}

theorem list_blank
    (hList : ∀ n phase c, (list n phase).step c = stepList phase c (list n phase) (closed n) (hole n))
    (n : Nat) (phase : ListPhase) (c : Char) (hBlank : isBlank c = true) : Next (list n phase) c (list n phase) := by
  rw [Next, hList]
  simp [stepList, hBlank]

theorem ready_list
    (hList : ∀ n phase c, (list n phase).step c = stepList phase c (list n phase) (closed n) (hole n)) :
    Ready (list 0 .start) (hole 0) := by
  intro c hc hBracket
  rw [hList]
  simp [stepList, hc, hBracket]

/-- The items of a list of trees or attributes; `list n` is where `n` of them are complete. -/
theorem steps_separatedItems
    (hList : ∀ n phase c, (list n phase).step c = stepList phase c (list n phase) (closed n) (hole n))
    (hItem : ∀ n item s, items[n]? = some item → Ready s (hole n) → Steps Next s item (list (n + 1) .after))
    (h : Separated items inner) : Steps Next (list 0 .start) inner (list items.length .after) := by
  obtain ⟨t, hSteps, rfl⟩ := @Separated.steps _ Next
    (fun n s => s = .awaiting (hole n) ∨ n = 0 ∧ s = list 0 .start) (fun n s => s = list n .after)
    (fun n s c hs hc => ⟨s, by
      rcases hs with rfl | ⟨-, rfl⟩
      · exact awaiting_blank (hole n) hc
      · exact list_blank hList 0 .start c hc, hs⟩)
    (fun n s c hs hc => ⟨s, hs ▸ list_blank hList n .after c hc, hs⟩) _ _ h
    (fun n s _ hs => ⟨.awaiting (hole n), by
      subst hs
      rw [Next, hList]
      rfl, .inl rfl⟩)
    (fun n item s hGet hs => ⟨_, hItem n item s hGet (by
      rcases hs with rfl | ⟨rfl, rfl⟩
      · exact ready_awaiting (hole n)
      · exact ready_list hList), rfl⟩)
    _ (.inr ⟨rfl, rfl⟩)
  exact hSteps

theorem steps_items
    (hList : ∀ n phase c, (list n phase).step c = stepList phase c (list n phase) (closed n) (hole n))
    (hItem : ∀ n item s, items[n]? = some item → Ready s (hole n) → Steps Next s item (list (n + 1) .after))
    (h : ItemsText items inner) : Steps Next (list 0 .start) (inner ++ [']']) (closed items.length) := by
  have hClose (n : Nat) (phase : ListPhase) : Next (list n phase) ']' (closed n) := by
    rw [Next, hList]
    rfl
  rcases h with ⟨rfl, hBlanks⟩ | hSeparated
  · exact (steps_loop (list_blank hList 0 .start) hBlanks).trans (.single (hClose 0 .start))
  · exact (steps_separatedItems hList hItem hSeparated).trans (.single (hClose _ .after))

/-- After some items another one can follow. -/
theorem steps_nextItem
    (hList : ∀ n phase c, (list n phase).step c = stepList phase c (list n phase) (closed n) (hole n))
    (hItem : ∀ n item s, items[n]? = some item → Ready s (hole n) → Steps Next s item (list (n + 1) .after))
    (h : NextItem items inner) : ∃ t, Steps Next (list 0 .start) inner t ∧ Ready t (hole items.length) := by
  rcases h with ⟨rfl, hBlanks⟩ | ⟨before, blanks, hSeparated, hBlanks, rfl⟩
  · exact ⟨_, steps_loop (list_blank hList 0 .start) hBlanks, ready_list hList⟩
  · have hComma : Next (list items.length .after) ',' (.awaiting (hole items.length)) := by
      rw [Next, hList]
      rfl
    exact ⟨_, (steps_separatedItems hList hItem hSeparated).trans (.head hComma (awaiting_blanks hBlanks)),
      ready_awaiting _⟩

end Items

def attributeDraft (a : Attribute) (layout : Layout) (keys : List String) : AttributeDraft where
  layout
  name := if "name" ∈ keys then some a.name else none
  value := if "value" ∈ keys then some a.value else none

def attributePlan (a : Attribute) (list : AttributeList) : Plan (attributeFields a) (putAttribute list a) where
  record layout keys := .attribute (attributeDraft a layout keys) list
  hole layout keys key :=
    .attributeField (if key = "name" then .name else .value) (attributeDraft a layout keys) list
  nodup := by simp [attributeFields]
  layout_record _ _ := rfl
  member_field layout keys f hField hFresh := by
    simp only [attributeFields, List.mem_cons, List.not_mem_nil, or_false] at hField
    rcases hField with rfl | rfl <;>
      simp [Record.member, AttributeField.ofKey?, AttributeDraft.has, attributeDraft, hFresh]
  member_other layout keys key hOther := by
    simp [attributeFields] at hOther
    simp [Record.member, AttributeField.ofKey?, hOther]
  record_other layout keys key hOther := by
    simp [attributeFields] at hOther
    simp [attributeDraft, Ne.symm hOther.1, Ne.symm hOther.2]
  next?_record layout keys := by
    by_cases hName : "name" ∈ keys <;> by_cases hValue : "value" ∈ keys <;>
      simp [attributeFields, Record.next?, AttributeDraft.next?, attributeDraft, hName, hValue]
  fill layout keys f hField value s hForm hs := by
    simp only [attributeFields, List.mem_cons, List.not_mem_nil, or_false] at hField
    rcases hField with rfl | rfl
    · exact steps_string hs hForm (by simp [putString, attributeDraft])
    · exact steps_string hs hForm (by simp [putString, attributeDraft])
  close layout keys hAll := by
    have hName : "name" ∈ keys := by simpa using hAll _ List.mem_cons_self
    have hValue : "value" ∈ keys := by simpa using hAll _ (List.mem_cons_of_mem _ List.mem_cons_self)
    simp [closeRecord, AttributeDraft.complete, attributeDraft, hName, hValue, Except.mapError, Except.map]

theorem steps_attribute {a : Attribute} {list : AttributeList} {text : List Char} {s : State}
    (h : AttributeText (2 * list.path.length + 2) a text) (hs : Ready s (.attribute list)) :
    Steps Next s text (putAttribute list a) := by
  obtain ⟨hDepth, hRecord⟩ := h
  exact (attributePlan a list).steps hRecord hs fun layout => openBracket_attribute layout hDepth

theorem attributes_open {draft : ElementDraft} {path : Path} {s : State}
    (hs : Ready s (.elementField .attributes draft path)) (hDepth : 2 * path.length + 2 < 128) :
    Next s '[' (.attributes ⟨draft, path, []⟩ .start) := by
  have hRoom : (Hole.elementField .attributes draft path).depth < maxDepth := by
    simp only [Hole.depth, maxDepth]
    omega
  refine (hs '[' rfl (by decide)).trans ?_
  simp [enter, openBracket, hRoom]

/-- One more of the attributes in a list. -/
theorem steps_nextAttribute {attributes : List Attribute} {items : List (List Char)} {draft : ElementDraft}
    {path : Path} (hItems : List.Forall₂ (AttributeText (2 * path.length + 2)) attributes items) (n : Nat)
    (item : List Char) (s : State) (hGet : items[n]? = some item)
    (hs : Ready s (.attribute ⟨draft, path, (attributes.take n).reverse⟩)) :
    Steps Next s item (.attributes ⟨draft, path, (attributes.take (n + 1)).reverse⟩ .after) := by
  obtain ⟨a, hAttribute, hText⟩ := forall₂_getElem? hItems hGet
  obtain ⟨hLess, ha⟩ := List.getElem?_eq_some_iff.mp hAttribute
  have hSteps := steps_attribute hText hs
  rw [List.take_succ_eq_append_getElem hLess, ha, List.reverse_append]
  exact hSteps

theorem steps_attributes {attributes : List Attribute} {draft : ElementDraft} {path : Path} {text : List Char}
    {s : State} (h : AttributesText (2 * path.length + 1) attributes text)
    (hs : Ready s (.elementField .attributes draft path)) :
    Steps Next s text (.record (.element { draft with attributes := some attributes } path) .after) := by
  obtain ⟨hDepth, items, hItems, inner, hInner, rfl⟩ := h
  have hList := @steps_items (fun n => .attributes ⟨draft, path, (attributes.take n).reverse⟩)
    (fun n => closeAttributes ⟨draft, path, (attributes.take n).reverse⟩)
    (fun n => .attribute ⟨draft, path, (attributes.take n).reverse⟩) items inner (fun _ _ _ => rfl)
    (steps_nextAttribute hItems) hInner
  refine .head (attributes_open hs hDepth) ?_
  simpa [closeAttributes, ← hItems.length_eq] using hList

theorem children_open {draft : ElementDraft} {path : Path} {s : State}
    (hs : Ready s (.elementField .children draft path)) (hDepth : 2 * path.length + 2 < 128) :
    Next s '[' (.children ⟨draft, []⟩ path .start) := by
  have hRoom : (Hole.elementField .children draft path).depth < maxDepth := by
    simp only [Hole.depth, maxDepth]
    omega
  refine (hs '[' rfl (by decide)).trans ?_
  simp [enter, openBracket, hRoom]

/-- A tree can be read from every place where one can begin. -/
def Readable (e : Element) : Prop :=
  ∀ (path : Path) (s : State) (text : List Char), Ready s (.element path) →
    ElementText (2 * path.length) e text → Steps Next s text (putElement path e)

/-- One more of the trees in a list. -/
theorem steps_nextChild {children : List Element} {items : List (List Char)} {draft : ElementDraft} {path : Path}
    (hChildren : ∀ child ∈ children, Readable child)
    (hItems : List.Forall₂ (ElementText (2 * path.length + 2)) children items) (n : Nat) (item : List Char)
    (s : State) (hGet : items[n]? = some item)
    (hs : Ready s (.element (⟨draft, (children.take n).reverse⟩ :: path))) :
    Steps Next s item (.children ⟨draft, (children.take (n + 1)).reverse⟩ path .after) := by
  obtain ⟨child, hChild, hText⟩ := forall₂_getElem? hItems hGet
  obtain ⟨hLess, hc⟩ := List.getElem?_eq_some_iff.mp hChild
  have hSteps := hChildren child (List.mem_of_getElem? hChild) _ s item hs (by simpa [Nat.mul_add] using hText)
  rw [List.take_succ_eq_append_getElem hLess, hc, List.reverse_append]
  exact hSteps

theorem steps_children {children : List Element} {draft : ElementDraft} {path : Path} {text : List Char}
    {s : State} (hChildren : ∀ child ∈ children, Readable child)
    (h : ChildrenText (2 * path.length + 1) children text) (hs : Ready s (.elementField .children draft path)) :
    Steps Next s text (.record (.element { draft with children := some children } path) .after) := by
  obtain ⟨hDepth, items, hItems, inner, hInner, rfl⟩ := h
  have hList := @steps_items (fun n => .children ⟨draft, (children.take n).reverse⟩ path)
    (fun n => closeChildren ⟨draft, (children.take n).reverse⟩ path)
    (fun n => .element (⟨draft, (children.take n).reverse⟩ :: path)) items inner (fun _ _ _ => rfl)
    (steps_nextChild hChildren hItems) hInner
  refine .head (children_open hs hDepth) ?_
  simpa [closeChildren, ← hItems.length_eq] using hList

def elementDraft (tag : String) (attributes : List Attribute) (children : List Element) (layout : Layout)
    (keys : List String) : ElementDraft where
  layout
  tag := if "tag" ∈ keys then some tag else none
  attributes := if "attributes" ∈ keys then some attributes else none
  children := if "children" ∈ keys then some children else none

def elementPlan (tag : String) (attributes : List Attribute) {children : List Element} (path : Path)
    (hChildren : ∀ child ∈ children, Readable child) :
    Plan (elementFields (2 * path.length + 1) tag attributes children)
      (putElement path ⟨tag, attributes, children⟩) where
  record layout keys := .element (elementDraft tag attributes children layout keys) path
  hole layout keys key :=
    .elementField (if key = "tag" then .tag else if key = "attributes" then .attributes else .children)
      (elementDraft tag attributes children layout keys) path
  nodup := by simp [elementFields]
  layout_record _ _ := rfl
  member_field layout keys f hField hFresh := by
    simp only [elementFields, List.mem_cons, List.not_mem_nil, or_false] at hField
    rcases hField with rfl | rfl | rfl <;>
      simp [Record.member, ElementField.ofKey?, ElementDraft.has, elementDraft, hFresh]
  member_other layout keys key hOther := by
    simp [elementFields] at hOther
    simp [Record.member, ElementField.ofKey?, hOther]
  record_other layout keys key hOther := by
    simp [elementFields] at hOther
    simp [elementDraft, Ne.symm hOther.1, Ne.symm hOther.2.1, Ne.symm hOther.2.2]
  next?_record layout keys := by
    by_cases hTag : "tag" ∈ keys <;> by_cases hAttributes : "attributes" ∈ keys <;>
      by_cases hChildren : "children" ∈ keys <;>
        simp [elementFields, Record.next?, ElementDraft.next?, elementDraft, hTag, hAttributes, hChildren]
  fill layout keys f hField value s hForm hs := by
    simp only [elementFields, List.mem_cons, List.not_mem_nil, or_false] at hField
    rcases hField with rfl | rfl | rfl
    · exact steps_string hs hForm (by simp [putString, elementDraft])
    · simpa [elementDraft] using steps_attributes hForm hs
    · simpa [elementDraft] using steps_children hChildren hForm hs
  close layout keys hAll := by
    simp only [elementFields, List.forall_mem_cons] at hAll
    obtain ⟨hTag, hAttributes, hChildren, -⟩ := hAll
    have hTag : "tag" ∈ keys := hTag.resolve_right id
    have hAttributes : (elementDraft tag attributes children layout keys).attributes.getD [] = attributes := by
      by_cases hKey : "attributes" ∈ keys
      · simp [elementDraft, hKey]
      · simpa [elementDraft, hKey] using (hAttributes.resolve_left hKey).symm
    have hChildren : (elementDraft tag attributes children layout keys).children.getD [] = children := by
      by_cases hKey : "children" ∈ keys
      · simp [elementDraft, hKey]
      · simpa [elementDraft, hKey] using (hChildren.resolve_left hKey).symm
    have hComplete : (elementDraft tag attributes children layout keys).complete =
        .ok ⟨tag, attributes, children⟩ := by
      rw [ElementDraft.complete, hAttributes, hChildren]
      simp [elementDraft, hTag]
    simp [closeRecord, hComplete, Except.mapError, Except.map]

theorem readable (e : Element) : Readable e := by
  induction e using Element.induction with
  | node tag attributes children ih =>
    intro path s text hs h
    rw [elementText_iff] at h
    obtain ⟨hDepth, hRecord⟩ := h
    exact (elementPlan tag attributes path ih).steps hRecord hs fun layout => openBracket_element layout hDepth

theorem run_of_presents {tree : Element} {text : List Char} (h : Presents tree text) :
    initial.run text = .ok (.finished tree) := by
  obtain ⟨before, value, after, hBefore, hValue, hAfter, rfl⟩ := h
  rw [run_eq_ok_iff]
  have hStart : Steps Next initial before initial := awaiting_blanks hBefore
  have hTree : Steps Next initial value (.finished tree) :=
    readable tree [] initial value (ready_awaiting _) hValue
  have hEnd : Steps Next (.finished tree) after (.finished tree) :=
    steps_loop (fun c hBlank => by simp [Next, step, hBlank]) hAfter
  exact (hStart.trans hTree).trans hEnd

end Pictogram.Json.State
