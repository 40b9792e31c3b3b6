import Mathlib.Data.Multiset.AddSub

/-!
# Output by selection

Elements are taken from a collection one by one, each time one that none of the others precedes.
`Selected le output rest` is the invariant of this: what has been taken is in order, and precedes what
is left.
-/

variable {α : Type*}

/-- What has been taken is in order, and precedes what is left. -/
structure Selected (le : α → α → Prop) (output : List α) (rest : Multiset α) : Prop where
  sorted : output.Pairwise le
  precedes : ∀ first ∈ output, ∀ second ∈ rest, le first second

namespace Selected

open List

variable {le : α → α → Prop} {output : List α} {rest : Multiset α}

theorem nil (rest : Multiset α) : Selected le [] rest :=
  ⟨.nil, fun _ h => absurd h not_mem_nil⟩

theorem take {least : α} (hselected : Selected le output (least ::ₘ rest))
    (hleast : ∀ x ∈ rest, le least x) : Selected le (output ++ [least]) rest := by
  refine ⟨pairwise_append.2 ⟨hselected.sorted, pairwise_singleton le least, ?_⟩, ?_⟩
  · intro a ha b hb
    rw [mem_singleton.1 hb]
    exact hselected.precedes a ha least (Multiset.mem_cons_self _ _)
  · intro a ha b hb
    rcases mem_append.1 ha with ho | hnew
    · exact hselected.precedes a ho b (Multiset.mem_cons_of_mem hb)
    · rw [mem_singleton.1 hnew]
      exact hleast b hb

end Selected
