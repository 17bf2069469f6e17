import Mathlib.Data.List.Induction
import Mathlib.Data.List.Nodup
import Pictogram.Element.Basic

/-! # Writing attributes

An attribute that is written replaces the value of the first one of its name, or comes last if there is none. After
several writes the new names stand behind the old ones in the order of their first write, a name has the value of its
last write, and what repeats an earlier name is as it was. Nothing more has to be known to tell what an element became.
-/
namespace Pictogram
set_option autoImplicit false

/-! ## Names in order -/

theorem eraseDups_concat (names : List String) (name : String) :
    (names ++ [name]).eraseDups = if name ∈ names then names.eraseDups else names.eraseDups ++ [name] := by
  rw [List.eraseDups_append]
  by_cases hMem : name ∈ names
  · simp [List.removeAll, hMem]
  · simp [List.removeAll, hMem, List.eraseDups_cons]

theorem nodup_eraseDups (names : List String) : names.eraseDups.Nodup := by
  induction names using List.reverseRecOn with
  | nil => exact List.nodup_nil
  | append_singleton names name ih =>
    rw [eraseDups_concat]
    split
    · exact ih
    · rename_i hFresh
      rw [← List.concat_eq_append]
      exact ih.concat (by rwa [List.mem_eraseDups])

namespace Attribute

/-! ## One write -/

theorem names_set (name value : String) (attributes : List Attribute) :
    (set name value attributes).map (·.name) =
      if name ∈ attributes.map (·.name) then attributes.map (·.name)
      else attributes.map (·.name) ++ [name] := by
  induction attributes with
  | nil => rfl
  | cons a rest ih =>
    by_cases hName : a.name = name
    · simp [set, hName]
    · have hOther : name ≠ a.name := Ne.symm hName
      by_cases hMem : name ∈ rest.map (·.name)
      · rw [if_pos hMem] at ih
        rw [set, if_neg hName, List.map_cons, ih, List.map_cons, if_pos (List.mem_cons_of_mem _ hMem)]
      · rw [if_neg hMem] at ih
        have hFresh : name ∉ a.name :: rest.map (·.name) := List.not_mem_cons_of_ne_of_not_mem hOther hMem
        rw [set, if_neg hName, List.map_cons, ih, List.map_cons, if_neg hFresh, List.cons_append]

theorem nodup_names_set {attributes : List Attribute} (h : (attributes.map (·.name)).Nodup) (name value : String) :
    ((set name value attributes).map (·.name)).Nodup := by
  rw [names_set]
  split
  · exact h
  · rename_i hFresh
    rw [← List.concat_eq_append]
    exact h.concat hFresh

theorem set_of_notMem {name : String} {attributes : List Attribute} (h : name ∉ attributes.map (·.name))
    (value : String) : set name value attributes = attributes ++ [⟨name, value⟩] := by
  induction attributes with
  | nil => rfl
  | cons a rest ih =>
    have hOther := List.ne_of_not_mem_cons h
    rw [set, if_neg (Ne.symm hOther), ih (List.not_mem_of_not_mem_cons h), List.cons_append]

theorem set_getElem?_of_ne {attributes : List Attribute} {i : Nat} {a : Attribute} {name : String}
    (hGet : attributes[i]? = some a) (hOther : a.name ≠ name) (value : String) :
    (set name value attributes)[i]? = some a := by
  induction attributes generalizing i with
  | nil => simp at hGet
  | cons b rest ih =>
    rw [set]
    cases i with
    | zero =>
      rw [List.getElem?_cons_zero, Option.some.injEq] at hGet
      subst hGet
      rw [if_neg hOther, List.getElem?_cons_zero]
    | succ i =>
      rw [List.getElem?_cons_succ] at hGet
      split
      · exact hGet
      · exact ih hGet

/-- Only the first attribute of a name is ever replaced. -/
theorem set_getElem?_of_later {attributes : List Attribute} {i : Nat} {a : Attribute}
    (hGet : attributes[i]? = some a) (hLater : a.name ∈ (attributes.take i).map (·.name)) (name value : String) :
    (set name value attributes)[i]? = some a := by
  induction attributes generalizing i with
  | nil => simp at hGet
  | cons b rest ih =>
    cases i with
    | zero => simp at hLater
    | succ i =>
      rw [List.getElem?_cons_succ] at hGet
      rw [set]
      split
      · exact hGet
      · rename_i hName
        rw [List.take_succ_cons, List.map_cons, List.mem_cons] at hLater
        cases hLater with
        | inl hSame =>
          have hOther : a.name ≠ name := by rwa [hSame]
          exact set_getElem?_of_ne hGet hOther value
        | inr hLater => exact ih hGet hLater

/-! ## Values of a name -/

/-- The values that stand with a name, in order. -/
def values (name : String) (attributes : List Attribute) : List String :=
  (attributes.filter (·.name = name)).map (·.value)

theorem values_append (name : String) (attributes rest : List Attribute) :
    values name (attributes ++ rest) = values name attributes ++ values name rest := by
  simp [values]

theorem values_single (name : String) (a : Attribute) :
    values name [a] = if name = a.name then [a.value] else [] := by
  by_cases h : name = a.name
  · simp [values, h]
  · simp [values, h, Ne.symm h]

theorem lookup_eq_head? (name : String) (attributes : List Attribute) :
    lookup name attributes = (values name attributes).head? := by
  rw [lookup, values, List.head?_map, List.head?_filter]

theorem lookup_eq_none_iff {name : String} {attributes : List Attribute} :
    lookup name attributes = none ↔ name ∉ attributes.map (·.name) := by
  simp [lookup]

/-- The first attribute of its name is the one that is found. -/
theorem lookup_of_first {attributes : List Attribute} {i : Nat} {a : Attribute} (hGet : attributes[i]? = some a)
    (hFirst : a.name ∉ (attributes.take i).map (·.name)) : lookup a.name attributes = some a.value := by
  induction attributes generalizing i with
  | nil => simp at hGet
  | cons b rest ih =>
    rw [lookup_cons]
    cases i with
    | zero =>
      rw [List.getElem?_cons_zero, Option.some.injEq] at hGet
      rw [hGet, if_pos rfl]
    | succ i =>
      rw [List.getElem?_cons_succ] at hGet
      rw [List.take_succ_cons, List.map_cons] at hFirst
      rw [if_neg (Ne.symm (List.ne_of_not_mem_cons hFirst))]
      exact ih hGet (List.not_mem_of_not_mem_cons hFirst)

theorem values_of_nodup {attributes : List Attribute} (h : (attributes.map (·.name)).Nodup) (name : String) :
    values name attributes = (lookup name attributes).toList := by
  induction attributes with
  | nil => rfl
  | cons a rest ih =>
    rw [List.map_cons, List.nodup_cons] at h
    rw [← List.singleton_append, values_append, values_single, List.singleton_append, lookup_cons, ih h.2]
    by_cases hName : name = a.name
    · subst hName
      rw [if_pos rfl, if_pos rfl, lookup_eq_none_iff.mpr h.1]
      rfl
    · rw [if_neg hName, if_neg (Ne.symm hName), List.nil_append]

/-! ## Any number of writes -/

/-- Writes attributes to a list one after another. -/
def setEach (writes attributes : List Attribute) : List Attribute :=
  writes.foldl (fun attributes w => set w.name w.value attributes) attributes

theorem setEach_concat (writes : List Attribute) (last : Attribute) (attributes : List Attribute) :
    setEach (writes ++ [last]) attributes = set last.name last.value (setEach writes attributes) := by
  rw [setEach, List.foldl_append]
  rfl

/-- New names stand behind the old ones, each once, in the order in which they were first written. -/
theorem names_setEach (writes attributes : List Attribute) :
    (setEach writes attributes).map (·.name) = attributes.map (·.name) ++
      (writes.map (·.name)).eraseDups.filter (· ∉ attributes.map (·.name)) := by
  induction writes using List.reverseRecOn with
  | nil => simp [setEach]
  | append_singleton writes last ih =>
    rw [setEach_concat, names_set, ih, List.map_append, List.map_singleton, eraseDups_concat]
    simp only [List.mem_append, List.mem_filter, List.mem_eraseDups, decide_eq_true_eq]
    by_cases hOld : last.name ∈ attributes.map (·.name)
    · rw [if_pos (.inl hOld)]
      split
      · rfl
      · rw [List.filter_append, List.filter_singleton, decide_eq_false (not_not_intro hOld)]
        simp
    · by_cases hWritten : last.name ∈ writes.map (·.name)
      · rw [if_pos (.inr ⟨hWritten, hOld⟩), if_pos hWritten]
      · rw [if_neg (by simp [hOld, hWritten]), if_neg hWritten, List.filter_append, List.filter_singleton,
          decide_eq_true hOld, List.append_assoc]
        rfl

/-- The last write of a name decides. -/
theorem lookup_setEach (name : String) (writes attributes : List Attribute) :
    lookup name (setEach writes attributes) = (values name writes).getLast?.or (lookup name attributes) := by
  induction writes using List.reverseRecOn with
  | nil => rfl
  | append_singleton writes last ih =>
    rw [setEach_concat, lookup_set, values_append, values_single, List.getLast?_append]
    by_cases hName : name = last.name
    · simp [hName]
    · simp [hName, ih]

theorem setEach_getElem?_of_later {attributes : List Attribute} {i : Nat} {a : Attribute}
    (hGet : attributes[i]? = some a) (hLater : a.name ∈ (attributes.take i).map (·.name))
    (writes : List Attribute) : (setEach writes attributes)[i]? = some a := by
  induction writes using List.reverseRecOn with
  | nil => exact hGet
  | append_singleton writes last ih =>
    -- The attributes in front keep their names, so this one still repeats an earlier name.
    have hLess : i ≤ (attributes.map (·.name)).length := by
      rw [List.length_map]
      exact Nat.le_of_lt (List.getElem?_eq_some_iff.mp hGet).1
    have hStill : a.name ∈ ((setEach writes attributes).take i).map (·.name) := by
      rwa [List.map_take, names_setEach, List.take_append_of_le_length hLess, ← List.map_take]
    rw [setEach_concat]
    exact set_getElem?_of_later ih hStill last.name last.value

theorem setEach_nil_eq_self_iff (attributes : List Attribute) :
    setEach attributes [] = attributes ↔ (attributes.map (·.name)).Nodup := by
  constructor
  · intro h
    have hNames := names_setEach attributes []
    rw [h] at hNames
    rw [hNames]
    simpa using nodup_eraseDups (attributes.map (·.name))
  · intro h
    induction attributes using List.reverseRecOn with
    | nil => rfl
    | append_singleton attributes last ih =>
      rw [List.map_append, List.map_singleton, ← List.concat_eq_append, List.nodup_concat] at h
      rw [setEach_concat, ih h.2, set_of_notMem h.1]

end Attribute

namespace Element
open Attribute

/-- Writes attributes to an element one after another. -/
def setEach (e : Element) (writes : List Attribute) : Element :=
  writes.foldl (fun e w => e.setAttribute w.name w.value) e

theorem setEach_concat (e : Element) (writes : List Attribute) (last : Attribute) :
    e.setEach (writes ++ [last]) = (e.setEach writes).setAttribute last.name last.value := by
  rw [setEach, List.foldl_append]
  rfl

theorem setEach_eq (e : Element) (writes : List Attribute) :
    e.setEach writes = { e with attributes := Attribute.setEach writes e.attributes } := by
  induction writes using List.reverseRecOn with
  | nil =>
    cases e
    rfl
  | append_singleton writes last ih =>
    rw [setEach_concat, ih, Attribute.setEach_concat]
    rfl

/-- What an element is after attributes were written to it: the same but for its attributes, which have the old names
and behind them the new ones in the order of their first write. -/
structure Overwritten (e : Element) (writes : List Attribute) (after : Element) : Prop where
  tag : after.tag = e.tag
  children : after.children = e.children
  names : after.attributes.map (·.name) = e.attributes.map (·.name) ++
    (writes.map (·.name)).eraseDups.filter (· ∉ e.attributes.map (·.name))
  -- A name has the value of its last write, and without one the value that it had.
  value : ∀ name, after.attribute? name = (values name writes).getLast?.or (e.attribute? name)
  first : ∀ (i : Nat) a, after.attributes[i]? = some a → a.name ∉ (after.attributes.take i).map (·.name) →
    (values a.name writes).getLast?.or (e.attribute? a.name) = some a.value
  later : ∀ (i : Nat) a, e.attributes[i]? = some a → a.name ∈ (e.attributes.take i).map (·.name) →
    after.attributes[i]? = some a

theorem overwritten_setEach (e : Element) (writes : List Attribute) : Overwritten e writes (e.setEach writes) := by
  rw [setEach_eq]
  constructor
  · rfl
  · rfl
  · exact names_setEach writes e.attributes
  · intro name
    exact lookup_setEach name writes e.attributes
  · intro i a hGet hFirst
    rw [attribute?, ← lookup_setEach]
    exact lookup_of_first hGet hFirst
  · intro i a hGet hLater
    exact setEach_getElem?_of_later hGet hLater writes

namespace Overwritten
variable {e after other : Element} {writes : List Attribute}

/-- Of the attributes afterwards only old ones repeat an earlier name. -/
theorem exists_old (h : Overwritten e writes after) {i : Nat} {a : Attribute} (hGet : after.attributes[i]? = some a)
    (hLater : a.name ∈ (after.attributes.take i).map (·.name)) :
    ∃ b, e.attributes[i]? = some b ∧ b.name ∈ (e.attributes.take i).map (·.name) := by
  have hName : (after.attributes.map (·.name))[i]? = some a.name := by
    rw [List.getElem?_map, hGet]
    rfl
  rw [List.map_take, h.names] at hLater
  rw [h.names] at hName
  cases Nat.lt_or_ge i e.attributes.length with
  | inl hLess =>
    have hLess' : i < (e.attributes.map (·.name)).length := by rwa [List.length_map]
    rw [List.getElem?_append_left hLess', List.getElem?_map, Option.map_eq_some_iff] at hName
    obtain ⟨b, hOld, hSame⟩ := hName
    rw [List.take_append_of_le_length (Nat.le_of_lt hLess'), ← List.map_take, ← hSame] at hLater
    exact ⟨b, hOld, hLater⟩
  | inr hMore =>
    -- A new name is not an old one, and new names do not repeat.
    exfalso
    have hMore' : (e.attributes.map (·.name)).length ≤ i := by rwa [List.length_map]
    have hNodup := (nodup_eraseDups (writes.map (·.name))).filter (· ∉ e.attributes.map (·.name))
    rw [List.getElem?_append_right hMore'] at hName
    have hFresh := (List.mem_filter.mp (List.mem_of_getElem? hName)).2
    rw [List.take_append, List.mem_append, List.take_of_length_le hMore'] at hLater
    cases hLater with
    | inl hOld => exact (of_decide_eq_true hFresh) hOld
    | inr hNew =>
      obtain ⟨j, hj, hSame⟩ := List.mem_take_iff_getElem.mp hNew
      obtain ⟨hi, hLast⟩ := List.getElem?_eq_some_iff.mp hName
      have hPlace := (hNodup.getElem_inj_iff).mp (hSame.trans hLast.symm)
      omega

theorem unique (h : Overwritten e writes after) (hOther : Overwritten e writes other) : after = other := by
  have hNames : after.attributes.map (·.name) = other.attributes.map (·.name) := h.names.trans hOther.names.symm
  have hAttributes : after.attributes = other.attributes := by
    apply List.ext_getElem?
    intro i
    have hName := congrArg (·[i]?) hNames
    simp only [List.getElem?_map] at hName
    cases hGet : after.attributes[i]? with
    | none =>
      rw [hGet, Option.map_none, eq_comm, Option.map_eq_none_iff] at hName
      exact hName.symm
    | some a =>
      rw [hGet, Option.map_some, eq_comm, Option.map_eq_some_iff] at hName
      obtain ⟨b, hGet', hSame⟩ := hName
      by_cases hLater : a.name ∈ (after.attributes.take i).map (·.name)
      · obtain ⟨c, hOld, hRepeats⟩ := h.exists_old hGet hLater
        rw [← hGet, h.later i c hOld hRepeats, hOther.later i c hOld hRepeats]
      · have hFirst := h.first i a hGet hLater
        rw [List.map_take, hNames, ← List.map_take, ← hSame] at hLater
        have hFirst' := hOther.first i b hGet' hLater
        rw [hSame, hFirst, Option.some.injEq] at hFirst'
        obtain ⟨name, value⟩ := a
        obtain ⟨name', value'⟩ := b
        cases hSame
        cases hFirst'
        rw [hGet']
  obtain ⟨tag, attributes, children⟩ := after
  obtain ⟨tag', attributes', children'⟩ := other
  obtain rfl : tag = tag' := h.tag.trans hOther.tag.symm
  obtain rfl : children = children' := h.children.trans hOther.children.symm
  obtain rfl : attributes = attributes' := hAttributes
  rfl

/-- Writes count by the last value of each name and the order of the first writes. -/
theorem congr {others : List Attribute} (h : Overwritten e writes after)
    (hLast : ∀ name, (values name writes).getLast? = (values name others).getLast?)
    (hOrder : (writes.map (·.name)).eraseDups = (others.map (·.name)).eraseDups) : Overwritten e others after where
  tag := h.tag
  children := h.children
  names := by rw [← hOrder, h.names]
  value name := by rw [← hLast, h.value]
  first i a hGet hFirst := by rw [← hLast, h.first i a hGet hFirst]
  later := h.later

end Overwritten

/-- What several writes make of an element is described completely, and depends only on the last value that each name
is given and on the order in which the names are first written. -/
theorem setEach_eq_iff_overwritten (e : Element) (writes : List Attribute) :
    (∀ after, e.setEach writes = after ↔ Overwritten e writes after) ∧
      ∀ others : List Attribute, (∀ name, (values name writes).getLast? = (values name others).getLast?) →
        (writes.map (·.name)).eraseDups = (others.map (·.name)).eraseDups → e.setEach writes = e.setEach others := by
  have hWritten := overwritten_setEach e writes
  constructor
  · intro after
    constructor
    · rintro rfl
      exact hWritten
    · exact hWritten.unique
  · intro others hLast hOrder
    exact (hWritten.congr hLast hOrder).unique (overwritten_setEach e others)

/-- Writes that are overwritten later may be left out, also where an element repeats a name. -/
theorem setEach_overwritten_fill :
    let e : Element := ⟨"path", [⟨"fill", "none"⟩, ⟨"d", "a"⟩, ⟨"fill", "red"⟩], []⟩
    let writes : List Attribute := [⟨"fill", "blue"⟩, ⟨"id", "x"⟩, ⟨"class", "w"⟩, ⟨"fill", "green"⟩, ⟨"id", "y"⟩]
    let others : List Attribute := [⟨"fill", "green"⟩, ⟨"id", "y"⟩, ⟨"class", "w"⟩]
    (∀ name, (values name writes).getLast? = (values name others).getLast?) ∧
      (writes.map (·.name)).eraseDups = (others.map (·.name)).eraseDups ∧
        e.setEach writes = e.setEach others ∧
          e.setEach others =
            ⟨"path", [⟨"fill", "green"⟩, ⟨"d", "a"⟩, ⟨"fill", "red"⟩, ⟨"id", "y"⟩, ⟨"class", "w"⟩], []⟩ := by
  intro e writes others
  have hLast (name : String) : (values name writes).getLast? = (values name others).getLast? := by
    by_cases hFill : name = "fill"
    · subst hFill
      decide
    · by_cases hId : name = "id"
      · subst hId
        decide
      · simp [writes, others, values, Ne.symm hFill, Ne.symm hId]
  have hOrder : (writes.map (·.name)).eraseDups = (others.map (·.name)).eraseDups := by decide
  exact ⟨hLast, hOrder, (setEach_eq_iff_overwritten e writes).2 others hLast hOrder, by decide⟩

end Element
end Pictogram
