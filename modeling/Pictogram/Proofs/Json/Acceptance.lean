import Pictogram.Proofs.Json.Soundness

/-! # What is accepted

A text is read as a tree exactly if it presents that tree.
-/
namespace Pictogram.Json
set_option autoImplicit false
open Format

theorem finish_eq_ok_iff (s : State) (tree : Element) : s.finish = .ok tree ↔ s = .finished tree := by
  constructor
  · intro h
    unfold State.finish at h
    split at h
    · cases h
      rfl
    · split at h
      · obtain ⟨found, -, hNever⟩ := bind_eq_ok_iff.mp h
        cases hNever
      · cases h
    · cases h
    · cases h
  · rintro rfl
    rfl

theorem read_eq_ok_iff (text : List Char) (tree : Element) :
    read text = .ok tree ↔ State.initial.run text = .ok (.finished tree) := by
  rw [read, bind_eq_ok_iff]
  simp only [finish_eq_ok_iff, exists_eq_right]

theorem presents_of_ofJson {text : String} {tree : Element} (h : Element.ofJson text = .ok tree) :
    Presents tree text.toList :=
  State.presents_of_run ((read_eq_ok_iff _ tree).mp h)

theorem ofJson_of_presents {text : List Char} {tree : Element} (h : Presents tree text) :
    Element.ofJson (String.ofList text) = .ok tree := by
  rw [Element.ofJson, String.toList_ofList, read_eq_ok_iff]
  exact State.run_of_presents h

theorem ofJson_eq_ok_iff_presents (text : String) (tree : Element) :
    Element.ofJson text = .ok tree ↔ Presents tree text.toList := by
  constructor
  · exact presents_of_ofJson
  · intro h
    have hText := ofJson_of_presents h
    rwa [String.ofList_toList] at hText

end Pictogram.Json
