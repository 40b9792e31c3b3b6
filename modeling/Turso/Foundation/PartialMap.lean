import Mathlib.Logic.Function.Basic

/-!
# Partial maps

A partial map is a function to options.  What is found in it after an entry was set is that entry, or
was there before.
-/

namespace PartialMap

open Function

variable {Key Value : Type*} [DecidableEq Key] {map : Key → Option Value} {k x : Key}
  {v found : Value}

theorem update_eq_some (hf : update map k (some v) x = some found) :
    x = k ∧ found = v ∨ x ≠ k ∧ map x = some found := by
  by_cases hx : x = k
  · subst hx
    rw [update_self] at hf
    exact .inl ⟨rfl, (Option.some.inj hf).symm⟩
  · rw [update_of_ne hx] at hf
    exact .inr ⟨hx, hf⟩

theorem update_eq_none : update map k (some v) x = none ↔ x ≠ k ∧ map x = none := by
  by_cases hx : x = k <;> simp [hx]

theorem forall_update {P : Key → Value → Prop} :
    (∀ x found, update map k (some v) x = some found → P x found) ↔
      P k v ∧ ∀ x found, x ≠ k → map x = some found → P x found := by
  constructor
  · refine fun h => ⟨h k v (update_self ..), fun x found hx hf => ?_⟩
    exact h x found ((update_of_ne hx ..).trans hf)
  · rintro ⟨hv, hothers⟩ x found hf
    obtain ⟨rfl, rfl⟩ | ⟨hx, ho⟩ := update_eq_some hf
    · exact hv
    · exact hothers x found hx ho

end PartialMap
