import Pictogram.Proofs.Json.Strings

/-! # Items between brackets

Blanks and commas are the same in every list and every object. A place in such a list is either its start
or comes after a comma; a machine that reads each item reads them all.
-/
namespace Pictogram.Json.Format
set_option autoImplicit false

theorem blanks_nil : Blanks [] := by
  intro c hMem
  cases hMem

theorem Blanks.append {text rest : List Char} (h : Blanks text) (hRest : Blanks rest) :
    Blanks (text ++ rest) := by
  intro c hMem
  rcases List.mem_append.mp hMem with hMem | hMem
  · exact h c hMem
  · exact hRest c hMem

theorem blanks_single {c : Char} (h : isBlank c = true) : Blanks [c] := by
  intro d hMem
  rwa [List.mem_singleton.mp hMem, ← isBlank_iff]

theorem Blanks.push {text : List Char} {c : Char} (h : Blanks text) (hBlank : isBlank c = true) :
    Blanks (text ++ [c]) :=
  h.append (blanks_single hBlank)

theorem Separated.append_blanks {items : List (List Char)} {inner after : List Char}
    (h : Separated items inner) (hAfter : Blanks after) : Separated items (inner ++ after) := by
  cases h with
  | one hBefore hAfter' =>
    rw [List.append_assoc]
    exact .one hBefore (hAfter'.append hAfter)
  | more h hBefore hAfter' =>
    simp only [List.append_assoc, List.cons_append]
    simpa using Separated.more h hBefore (hAfter'.append hAfter)

/-- The place where another item has to begin. -/
def NextItem (items : List (List Char)) (inner : List Char) : Prop :=
  items = [] ∧ Blanks inner ∨
    ∃ done before, Separated items done ∧ Blanks before ∧ inner = done ++ ',' :: before

theorem Separated.comma {items : List (List Char)} {inner : List Char} (h : Separated items inner) :
    NextItem items (inner ++ [',']) :=
  .inr ⟨inner, [], h, blanks_nil, rfl⟩

theorem NextItem.push_blank {items : List (List Char)} {inner : List Char} {c : Char}
    (h : NextItem items inner) (hBlank : isBlank c = true) : NextItem items (inner ++ [c]) := by
  rcases h with ⟨rfl, hInner⟩ | ⟨done, before, hDone, hBefore, rfl⟩
  · exact .inl ⟨rfl, hInner.push hBlank⟩
  · exact .inr ⟨done, before ++ [c], hDone, hBefore.push hBlank, by simp⟩

theorem NextItem.put {items : List (List Char)} {inner : List Char} (h : NextItem items inner)
    (item : List Char) : Separated (items ++ [item]) (inner ++ item) := by
  rcases h with ⟨rfl, hInner⟩ | ⟨done, before, hDone, hBefore, rfl⟩
  · simpa using @Separated.one item _ _ hInner blanks_nil
  · simpa using @Separated.more _ _ item _ _ hDone hBefore blanks_nil

theorem forall₂_concat {α β : Type} {R : α → β → Prop} {as : List α} {bs : List β} {a : α} {b : β}
    (h : List.Forall₂ R as bs) (hLast : R a b) : List.Forall₂ R (as ++ [a]) (bs ++ [b]) :=
  List.rel_append h (.cons hLast .nil)

theorem forall₂_getElem? {α β : Type} {R : α → β → Prop} {as : List α} {bs : List β}
    (h : List.Forall₂ R as bs) {n : Nat} {b : β} (hGet : bs[n]? = some b) : ∃ a, as[n]? = some a ∧ R a b := by
  induction h generalizing n with
  | nil => simp at hGet
  | @cons a b' as bs hHead _ ih =>
    cases n with
    | zero =>
      rw [List.getElem?_cons_zero, Option.some.injEq] at hGet
      exact ⟨a, rfl, hGet ▸ hHead⟩
    | succ n => exact ih hGet

theorem steps_blanks {σ : Type} {Next : σ → Char → σ → Prop} {At : σ → Prop}
    (hBlank : ∀ s c, At s → isBlank c = true → ∃ t, Next s c t ∧ At t)
    {text : List Char} (h : Blanks text) {s : σ} (hs : At s) : ∃ t, Steps Next s text t ∧ At t := by
  induction text generalizing s with
  | nil => exact ⟨s, .refl s, hs⟩
  | cons c text ih =>
    have hc := List.forall_mem_cons.mp h
    obtain ⟨t, hNext, ht⟩ := hBlank s c hs ((isBlank_iff c).mpr hc.1)
    obtain ⟨u, hSteps, hu⟩ := ih hc.2 ht
    exact ⟨u, .head hNext hSteps, hu⟩

theorem steps_loop {σ : Type} {Next : σ → Char → σ → Prop} {s : σ}
    (hBlank : ∀ c, isBlank c = true → Next s c s) {text : List Char} (h : Blanks text) :
    Steps Next s text s := by
  induction text with
  | nil => exact .refl s
  | cons c text ih =>
    have hc := List.forall_mem_cons.mp h
    exact .head (hBlank c ((isBlank_iff c).mpr hc.1)) (ih hc.2)

/-- `Again n` is where item number `n` can begin, `Rest n` is where `n` items are complete. -/
theorem Separated.steps {σ : Type} {Next : σ → Char → σ → Prop} {Again Rest : Nat → σ → Prop}
    (hAgain : ∀ n s c, Again n s → isBlank c = true → ∃ t, Next s c t ∧ Again n t)
    (hRest : ∀ n s c, Rest n s → isBlank c = true → ∃ t, Next s c t ∧ Rest n t)
    {items : List (List Char)} {inner : List Char} (h : Separated items inner)
    (hComma : ∀ n s, n < items.length → Rest n s → ∃ t, Next s ',' t ∧ Again n t)
    (hItem : ∀ n item s, items[n]? = some item → Again n s → ∃ t, Steps Next s item t ∧ Rest (n + 1) t)
    {s : σ} (hs : Again 0 s) : ∃ t, Steps Next s inner t ∧ Rest items.length t := by
  have hOne {n : Nat} {item before after : List Char} {s : σ} (hs : Again n s)
      (hGet : items[n]? = some item) (hBefore : Blanks before) (hAfter : Blanks after) :
      ∃ t, Steps Next s (before ++ item ++ after) t ∧ Rest (n + 1) t := by
    obtain ⟨t, hSteps, ht⟩ := steps_blanks (hAgain n) hBefore hs
    obtain ⟨u, hSteps', hu⟩ := hItem n item t hGet ht
    obtain ⟨v, hSteps'', hv⟩ := steps_blanks (hRest (n + 1)) hAfter hu
    exact ⟨v, (hSteps.trans hSteps').trans hSteps'', hv⟩
  -- Along the list, all that is known of the rest of the items is that they can be read.
  have hPrefix {done : List (List Char)} {part : List Char} (hPart : Separated done part) :
      done <+: items → ∃ t, Steps Next s part t ∧ Rest done.length t := by
    induction hPart with
    | @one item before after hBefore hAfter =>
      rintro ⟨rest, rfl⟩
      exact hOne hs rfl hBefore hAfter
    | @more done part item before after hPart hBefore hAfter ih =>
      rintro ⟨rest, rfl⟩
      obtain ⟨t, hSteps, ht⟩ := ih ⟨[item] ++ rest, by simp⟩
      obtain ⟨u, hNext, hu⟩ := hComma done.length t (by simp) ht
      have hGet : (done ++ [item] ++ rest)[done.length]? = some item := by simp
      obtain ⟨v, hSteps', hv⟩ := hOne hu hGet hBefore hAfter
      exact ⟨v, hSteps.trans (.head hNext hSteps'), by simpa using hv⟩
  exact hPrefix h (List.prefix_refl items)

end Pictogram.Json.Format
