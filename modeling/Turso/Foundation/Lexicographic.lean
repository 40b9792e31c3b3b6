import Mathlib.Data.List.Basic
import Mathlib.Order.Compare

/-!
# Comparing lists place by place

Two lists are compared with a comparison for each place, until two entries differ.  On lists of one
length the outcome is a total preorder if all comparisons are.
-/

namespace Lexicographic

open List

open Std (TransCmp OrientedCmp)

variable {α : Type*}

/-- Place by place, as long as both lists and the comparisons last. -/
def compareLists : List (α → α → Ordering) → List α → List α → Ordering
  | cmp :: cmps, first :: firsts, second :: seconds =>
    match cmp first second with
    | .eq => compareLists cmps firsts seconds
    | other => other
  | _, _, _ => .eq

variable {cmps : List (α → α → Ordering)}

theorem compareLists_swap (hcmps : ∀ cmp ∈ cmps, OrientedCmp cmp)
    (a b : List α) :
    compareLists cmps b a = (compareLists cmps a b).swap := by
  induction cmps generalizing a b with
  | nil => rfl
  | cons cmp cmps ih =>
    cases a with
    | nil => cases b <;> rfl
    | cons e es =>
      cases b with
      | nil => rfl
      | cons e' es' =>
        have horiented := hcmps cmp mem_cons_self
        rw [compareLists, compareLists, horiented.eq_swap]
        cases cmp e e' with
        | lt => rfl
        | eq => exact ih (fun cmp h => hcmps cmp (mem_cons_of_mem _ h)) es es'
        | gt => rfl

theorem compareLists_trans (hcmps : ∀ cmp ∈ cmps, TransCmp cmp)
    {a b third : List α} (hlen : a.length = b.length)
    (hlen' : b.length = third.length) (hle : (compareLists cmps a b).isLE)
    (hle' : (compareLists cmps b third).isLE) : (compareLists cmps a third).isLE := by
  induction cmps generalizing a b third with
  | nil => rfl
  | cons cmp cmps ih =>
    cases a with
    | nil =>
      obtain rfl : b = [] := length_eq_zero_iff.1 hlen.symm
      obtain rfl : third = [] := length_eq_zero_iff.1 hlen'.symm
      rfl
    | cons e es =>
      obtain ⟨e', es', rfl⟩ := exists_cons_of_length_eq_add_one hlen.symm
      obtain ⟨entry'', entries'', rfl⟩ := exists_cons_of_length_eq_add_one hlen'.symm
      have htrans := hcmps cmp mem_cons_self
      rw [compareLists] at hle hle' ⊢
      cases hcmp : cmp e e' with
      | gt =>
        rw [hcmp] at hle
        cases hle
      | lt =>
        cases hcmp' : cmp e' entry'' with
        | gt =>
          rw [hcmp'] at hle'
          cases hle'
        | lt =>
          rw [TransCmp.lt_trans hcmp hcmp']
          rfl
        | eq =>
          rw [TransCmp.lt_of_lt_of_eq hcmp hcmp']
          rfl
      | eq =>
        cases hcmp' : cmp e' entry'' with
        | gt =>
          rw [hcmp'] at hle'
          cases hle'
        | lt =>
          rw [TransCmp.lt_of_eq_of_lt hcmp hcmp']
          rfl
        | eq =>
          rw [hcmp] at hle
          rw [hcmp'] at hle'
          rw [TransCmp.eq_trans hcmp hcmp']
          exact ih (fun cmp h => hcmps cmp (mem_cons_of_mem _ h)) (Nat.succ.inj hlen)
            (Nat.succ.inj hlen') hle hle'

end Lexicographic
