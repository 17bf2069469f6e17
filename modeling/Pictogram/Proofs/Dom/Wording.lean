import Mathlib.Tactic.TFAE
import Pictogram.Dom.Page
import Pictogram.Proofs.Text.Quoted

/-! # Words that tell errors apart

The message of an error, the string that a script catches and the inspection are each as good as the error
itself. What a refused call threw is known only by its text, so a string can pass for another value, but the
call is known from every message.
-/
namespace Pictogram.Dom
set_option autoImplicit false

/-! ## Errors -/

namespace HostError

theorem message_injective : Function.Injective message := by
  intro a b h
  cases a <;> cases b
  case windowMissing.windowMissing => rfl
  case documentMissing.documentMissing => rfl
  case rejected.rejected => exact congrArg rejected ((String.append_right_inj _).mp h)
  case unserialized.unserialized => exact congrArg unserialized ((String.append_right_inj _).mp h)
  -- The first letters differ.
  all_goals
    unfold message at h
    have hLetters := congrArg String.toList h
    simp at hLetters

theorem thrown_injective : Function.Injective thrown :=
  fun _ _ h => message_injective (ScriptValue.string.inj h)

theorem inspect_injective : Function.Injective inspect := by
  intro a b h
  cases a <;> cases b
  case windowMissing.windowMissing => rfl
  case documentMissing.documentMissing => rfl
  case rejected.rejected =>
    have hQuoted := (String.append_right_inj _).mp ((String.append_left_inj _).mp h)
    exact congrArg rejected (Text.Quoted.quote_injective hQuoted)
  case unserialized.unserialized =>
    have hQuoted := (String.append_right_inj _).mp ((String.append_left_inj _).mp h)
    exact congrArg unserialized (Text.Quoted.quote_injective hQuoted)
  all_goals
    unfold inspect at h
    have hLetters := congrArg String.toList h
    simp at hLetters

end HostError

/-! ## Refusals -/

/-- A string that reads as the other value does. -/
def ScriptValue.Mimics : ScriptValue → ScriptValue → Prop
  | .string text, .other shown => text = "JsValue(" ++ shown ++ ")"
  | _, _ => False

theorem ScriptValue.detail_eq_iff (value other : ScriptValue) :
    value.detail = other.detail ↔ value = other ∨ value.Mimics other ∨ other.Mimics value := by
  cases value with
  | string text =>
    cases other with
    | string text' => simp [detail, Mimics]
    | other shown => simp [detail, Mimics]
  | other shown =>
    cases other with
    | string text => simp [detail, Mimics, eq_comm]
    | other shown' => simp [detail, Mimics]

example : (ScriptValue.string "JsValue(null)").detail = (ScriptValue.other "null").detail := by decide

theorem Operation.name_append_inj {operation other : Operation} {detail detail' : String}
    (h : operation.name ++ ": " ++ detail = other.name ++ ": " ++ detail') : operation = other ∧ detail = detail' := by
  cases operation <;> cases other
  case createElement.createElement => exact ⟨rfl, (String.append_right_inj _).mp h⟩
  case setAttribute.setAttribute => exact ⟨rfl, (String.append_right_inj _).mp h⟩
  case appendChild.appendChild => exact ⟨rfl, (String.append_right_inj _).mp h⟩
  all_goals
    unfold name at h
    have hLetters := congrArg String.toList h
    simp at hLetters

theorem HostError.refused_eq_iff (operation other : Operation) (value value' : ScriptValue) :
    refused operation.name value = refused other.name value' ↔ operation = other ∧ value.detail = value'.detail := by
  constructor
  · intro h
    exact Operation.name_append_inj (HostError.rejected.inj h)
  · rintro ⟨rfl, hDetail⟩
    rw [refused, refused, hDetail]

/-- The operation whose refusal a message tells of. -/
def Operation.ofMessage? (message : String) : Option Operation :=
  [.createElement, .setAttribute, .appendChild].find? fun operation =>
    ("DOM operation failed: " ++ operation.name ++ ": ").toList.isPrefixOf message.toList

theorem Operation.ofMessage?_refused (operation : Operation) (value : ScriptValue) :
    ofMessage? (HostError.refused operation.name value).message = some operation := by
  have hMessage : (HostError.refused operation.name value).message =
      "DOM operation failed: " ++ (operation.name ++ ": " ++ value.detail) := rfl
  rw [hMessage]
  cases operation <;> simp [ofMessage?, name]

/-- Errors agree exactly if they have one message, throw one string and are shown alike. Two refusals agree
exactly if one operation was refused with values of one text, and the operation is known from the message. -/
theorem HostError.told_apart :
    (∀ a b : HostError, [(a == b) = true, a.message = b.message, a.thrown = b.thrown, a.inspect = b.inspect].TFAE) ∧
      (∀ (operation other : Operation) (value value' : ScriptValue),
        (refused operation.name value == refused other.name value') = true ↔
          operation = other ∧ value.detail = value'.detail) ∧
      (∀ value other : ScriptValue,
        value.detail = other.detail ↔ value = other ∨ value.Mimics other ∨ other.Mimics value) ∧
      ∀ (operation : Operation) (value : ScriptValue),
        Operation.ofMessage? (refused operation.name value).message = some operation := by
  refine ⟨?_, ?_, ScriptValue.detail_eq_iff, Operation.ofMessage?_refused⟩
  · intro a b
    tfae_have 1 ↔ 2 := beq_iff_eq.trans message_injective.eq_iff.symm
    tfae_have 1 ↔ 3 := beq_iff_eq.trans thrown_injective.eq_iff.symm
    tfae_have 1 ↔ 4 := beq_iff_eq.trans inspect_injective.eq_iff.symm
    tfae_finish
  · intro operation other value value'
    exact beq_iff_eq.trans (refused_eq_iff operation other value value')

end Pictogram.Dom
