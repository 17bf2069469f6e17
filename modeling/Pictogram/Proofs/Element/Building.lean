import Mathlib.Tactic.TFAE
import Pictogram.Element.Order
import Pictogram.Proofs.Element.Writes
import Pictogram.Proofs.Json.Strings
import Pictogram.Workbench

/-! # What can be built

Setting an attribute replaces one of the same name, so a tree that is put together step by step never repeats a
name in an element. Conversely every tree without repetitions can be put together, and then no step of the way
replaces anything. Only a tree that was read from a text can repeat a name.
-/
namespace Pictogram
set_option autoImplicit false

namespace Element

/-- No element of a tree has two attributes of the same name. -/
def Distinct (tree : Element) : Prop :=
  ∀ e ∈ tree.preorder, (e.attributes.map (·.name)).Nodup

instance (tree : Element) : Decidable tree.Distinct :=
  inferInstanceAs (Decidable (∀ e ∈ tree.preorder, (e.attributes.map (·.name)).Nodup))

theorem distinct_iff (e : Element) :
    e.Distinct ↔ (e.attributes.map (·.name)).Nodup ∧ ∀ child ∈ e.children, child.Distinct := by
  obtain ⟨tag, attributes, children⟩ := e
  rw [Distinct, preorder, List.forall_mem_cons, preorderAll_eq_flatMap]
  simp only [List.mem_flatMap, Distinct]
  refine and_congr_right fun _ => ?_
  constructor
  · intro h child hChild e hMem
    exact h e ⟨child, hChild, hMem⟩
  · rintro h e ⟨child, hChild, hMem⟩
    exact h child hChild e hMem

/-- A tree that can be made without reading a text. A tree that was made can be used any number of times. -/
inductive Obtainable : Element → Prop
  | new (tag : String) : Obtainable { tag }
  | icon : Obtainable Icon.arrowUp
  | setAttribute {e : Element} (name value : String) (h : Obtainable e) : Obtainable (e.setAttribute name value)
  | push {e child : Element} (h : Obtainable e) (hChild : Obtainable child) : Obtainable (e.push child)
  | child {e child : Element} (h : Obtainable e) (hMem : child ∈ e.children) : Obtainable child

theorem distinct_icon : Icon.arrowUp.Distinct := by
  decide

theorem Obtainable.distinct {tree : Element} (h : Obtainable tree) : tree.Distinct := by
  induction h with
  | new tag => exact (distinct_iff _).mpr ⟨List.nodup_nil, by simp⟩
  | icon => exact distinct_icon
  | @setAttribute e name value _ ih =>
    obtain ⟨hNames, hChildren⟩ := (distinct_iff e).mp ih
    exact (distinct_iff _).mpr ⟨Attribute.nodup_names_set hNames name value, hChildren⟩
  | @push e child _ _ ih ihChild =>
    obtain ⟨hNames, hChildren⟩ := (distinct_iff e).mp ih
    refine (distinct_iff _).mpr ⟨hNames, ?_⟩
    rw [Element.push, List.forall_mem_append, List.forall_mem_singleton]
    exact ⟨hChildren, ihChild⟩
  | @child e child _ hMem ih => exact ((distinct_iff e).mp ih).2 child hMem

end Element

/-! ## Steps on the bench -/

namespace Workbench
open Element

/-- A step that makes a tree from those on the bench. Only reading brings in another one. -/
def Step.Builds : Step → Prop
  | .read _ => False
  | _ => True

/-- Steps that can all be taken, one after another. -/
def run (stack : Stack) (steps : List Step) : Except Obstacle Stack :=
  steps.foldlM (fun stack step => step.apply stack) stack

/-- The stack after a step. A step that cannot be taken leaves it as it is. -/
def Step.stackAfter (step : Step) (stack : Stack) : Stack :=
  match step.apply stack with
  | .ok next => next
  | .error _ => stack

def stackAfter (stack : Stack) (steps : List Step) : Stack :=
  steps.foldl (fun stack step => step.stackAfter stack) stack

theorem run_cons (stack : Stack) (step : Step) (steps : List Step) :
    run stack (step :: steps) = step.apply stack >>= fun next => run next steps := rfl

theorem run_append (stack : Stack) (steps rest : List Step) :
    run stack (steps ++ rest) = run stack steps >>= fun next => run next rest :=
  List.foldlM_append

theorem stackAfter_of_run {stack next : Stack} {steps : List Step} (h : run stack steps = .ok next) :
    stackAfter stack steps = next := by
  induction steps generalizing stack with
  | nil => exact Except.ok.inj h
  | cons step steps ih =>
    rw [run_cons] at h
    obtain ⟨middle, hStep, hRest⟩ := Json.bind_eq_ok_iff.mp h
    have hAfter : step.stackAfter stack = middle := by
      rw [Step.stackAfter, hStep]
    calc stackAfter stack (step :: steps)
      _ = stackAfter (step.stackAfter stack) steps := rfl
      _ = next := by rw [hAfter, ih hRest]

theorem obtainable_apply {step : Step} {stack next : Stack} (hBuilds : step.Builds)
    (hStack : ∀ tree ∈ stack, Obtainable tree) (h : step.apply stack = .ok next) :
    ∀ tree ∈ next, Obtainable tree := by
  match step, stack with
  | .new tag, stack =>
    cases h
    exact List.forall_mem_cons.mpr ⟨.new tag, hStack⟩
  | .icon, stack =>
    cases h
    exact List.forall_mem_cons.mpr ⟨.icon, hStack⟩
  | .duplicate, top :: rest =>
    cases h
    exact List.forall_mem_cons.mpr ⟨hStack top List.mem_cons_self, hStack⟩
  | .swap, top :: second :: rest =>
    cases h
    simp only [List.forall_mem_cons] at hStack ⊢
    exact ⟨hStack.2.1, hStack.1, hStack.2.2⟩
  | .child index, top :: rest =>
    simp only [Step.apply] at h
    split at h
    · rename_i inner hInner
      cases h
      have hTop := hStack top List.mem_cons_self
      exact List.forall_mem_cons.mpr ⟨hTop.child (List.mem_of_getElem? hInner), hStack⟩
    · cases h
  | .setAttribute name value, top :: rest =>
    cases h
    rw [List.forall_mem_cons] at hStack ⊢
    exact ⟨hStack.1.setAttribute name value, hStack.2⟩
  | .push, last :: parent :: rest =>
    cases h
    simp only [List.forall_mem_cons] at hStack ⊢
    exact ⟨hStack.2.1.push hStack.1, hStack.2.2⟩
  | .read _, _ => exact hBuilds.elim
  | .drop, top :: rest =>
    cases h
    exact (List.forall_mem_cons.mp hStack).2
  | .duplicate, [] | .swap, [] | .swap, [_] | .child _, [] | .setAttribute _ _, [] | .push, [] | .push, [_]
  | .drop, [] => cases h

theorem obtainable_stackAfter {stack : Stack} {steps : List Step} (hBuilds : ∀ step ∈ steps, step.Builds)
    (hStack : ∀ tree ∈ stack, Obtainable tree) : ∀ tree ∈ stackAfter stack steps, Obtainable tree := by
  induction steps generalizing stack with
  | nil => exact hStack
  | cons step steps ih =>
    rw [List.forall_mem_cons] at hBuilds
    have hAfter : ∀ tree ∈ step.stackAfter stack, Obtainable tree := by
      unfold Step.stackAfter
      split
      · rename_i next hStep
        exact obtainable_apply hBuilds.1 hStack hStep
      · exact hStack
    exact ih hBuilds.2 hAfter

/-! ## Trees without repetitions -/

mutual

/-- Steps that put a tree on the stack. -/
def assembly : Element → List Step
  | ⟨tag, attributes, children⟩ =>
    .new tag :: (attributes.map (fun a => .setAttribute a.name a.value) ++ assemblyAll children)

/-- Steps that add children to the tree on top. -/
def assemblyAll : List Element → List Step
  | [] => []
  | child :: rest => assembly child ++ .push :: assemblyAll rest

end

theorem assemblyAll_eq_flatMap (children : List Element) :
    assemblyAll children = children.flatMap fun child => assembly child ++ [.push] := by
  induction children with
  | nil => rfl
  | cons child rest ih => simp [assemblyAll, ih]

theorem builds_assembly (tree : Element) : ∀ step ∈ assembly tree, step.Builds := by
  induction tree using Element.induction with
  | node tag attributes children ih =>
    rw [assembly, List.forall_mem_cons, List.forall_mem_append, List.forall_mem_map, assemblyAll_eq_flatMap]
    refine ⟨trivial, fun _ _ => trivial, ?_⟩
    intro step hMem
    obtain ⟨child, hChild, hStep⟩ := List.mem_flatMap.mp hMem
    obtain hStep | hStep := List.mem_append.mp hStep
    · exact ih child hChild step hStep
    · rw [List.mem_singleton.mp hStep]
      trivial

/-- Attributes of new names are all added at the end. -/
theorem run_attributes (tag : String) (before attributes : List Attribute) (stack : Stack)
    (h : ((before ++ attributes).map (·.name)).Nodup) :
    run (⟨tag, before, []⟩ :: stack) (attributes.map fun a => .setAttribute a.name a.value) =
      .ok (⟨tag, before ++ attributes, []⟩ :: stack) := by
  induction attributes generalizing before with
  | nil =>
    rw [List.append_nil]
    rfl
  | cons a rest ih =>
    have hFresh : a.name ∉ before.map (·.name) := by
      rw [List.map_append, List.nodup_append] at h
      exact fun hMem => h.2.2 a.name hMem a.name List.mem_cons_self rfl
    have hStep : (Step.setAttribute a.name a.value).apply (⟨tag, before, []⟩ :: stack) =
        .ok (⟨tag, before ++ [a], []⟩ :: stack) := by
      simp only [Step.apply, Element.setAttribute, Attribute.set_of_notMem hFresh]
    rw [List.append_cons] at h ⊢
    rw [List.map_cons, run_cons, hStep]
    exact ih (before ++ [a]) h

theorem run_children {children : List Element}
    (h : ∀ child ∈ children, ∀ stack, run stack (assembly child) = .ok (child :: stack)) (tag : String)
    (attributes : List Attribute) (elders : List Element) (stack : Stack) :
    run (⟨tag, attributes, elders⟩ :: stack) (assemblyAll children) =
      .ok (⟨tag, attributes, elders ++ children⟩ :: stack) := by
  induction children generalizing elders with
  | nil =>
    rw [List.append_nil]
    rfl
  | cons child rest ih =>
    rw [List.forall_mem_cons] at h
    rw [assemblyAll, run_append, h.1, List.append_cons]
    exact ih h.2 (elders ++ [child])

theorem run_assembly {tree : Element} (h : tree.Distinct) (stack : Stack) :
    run stack (assembly tree) = .ok (tree :: stack) := by
  induction tree using Element.induction generalizing stack with
  | node tag attributes children ih =>
    obtain ⟨hNames, hChildren⟩ := (distinct_iff _).mp h
    have hNew : (Step.new tag).apply stack = .ok (⟨tag, [], []⟩ :: stack) := rfl
    rw [assembly, run_cons, hNew]
    change run (⟨tag, [], []⟩ :: stack) _ = _
    rw [run_append, run_attributes tag [] attributes stack hNames]
    exact run_children (fun child hMem stack => ih child hMem (hChildren child hMem) stack) tag attributes [] stack

/-- The trees that can be made are those whose elements do not repeat a name. They are also the trees that stand on
the bench after steps without reading, whether or not all of these could be taken. -/
theorem obtainable_tfae (tree : Element) :
    [Obtainable tree,
      ∃ steps stack, (∀ step ∈ steps, Step.Builds step) ∧ run [] steps = .ok stack ∧ tree ∈ stack,
      ∃ steps, (∀ step ∈ steps, Step.Builds step) ∧ tree ∈ stackAfter [] steps,
      tree.Distinct].TFAE := by
  tfae_have 1 → 4 := Obtainable.distinct
  tfae_have 4 → 2 := fun h =>
    ⟨assembly tree, [tree], builds_assembly tree, run_assembly h [], List.mem_singleton_self tree⟩
  tfae_have 2 → 3 := by
    rintro ⟨steps, stack, hBuilds, hRun, hMem⟩
    exact ⟨steps, hBuilds, stackAfter_of_run hRun ▸ hMem⟩
  tfae_have 3 → 1 := by
    rintro ⟨steps, hBuilds, hMem⟩
    exact obtainable_stackAfter hBuilds (by simp) tree hMem
  tfae_finish

end Workbench
end Pictogram
