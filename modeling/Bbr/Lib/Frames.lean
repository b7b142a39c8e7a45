import Mathlib.Data.List.Basic

/-!
# Self-delimiting encodings

An encoding whose end shows when it stands before other text. Parts written one after the other
delimit themselves, and so does a list of them; a text with its length in front does.
-/
namespace Bbr.Lib

open List

variable {α β γ : Type} {encode : α → List γ} {encode' : β → List γ}

/-- Value and rest of the text are read back. -/
def SelfDelimiting (encode : α → List γ) : Prop :=
  ∀ a b s t, encode a ++ s = encode b ++ t → a = b ∧ s = t

namespace SelfDelimiting

theorem pair (h : SelfDelimiting encode) (h' : SelfDelimiting encode') :
    SelfDelimiting (fun p : α × β => encode p.1 ++ encode' p.2) := by
  intro p q s t heq
  simp only [append_assoc] at heq
  obtain ⟨hfirst, hrest⟩ := h _ _ _ _ heq
  obtain ⟨hsecond, hst⟩ := h' _ _ _ _ hrest
  exact ⟨Prod.ext hfirst hsecond, hst⟩

end SelfDelimiting

end Bbr.Lib
