import Turso.Mvcc.Stamps

/-!
# Every speculation is followed by its registration

The protocol that the checks keep to.  They ask about stamps of the chain that is locked, and an
answer that makes the outcome of a transaction taken for granted is followed at once by the
registration of a dependency on it.  Nothing is registered otherwise.
-/

namespace Turso.Mvcc

open List

open Interaction (Program Protocol)

variable {RowId Row : Type}

/-- The phase is the transaction on which a dependency is due. -/
def registration (beginTs : Timestamp) (versions : List (RowVersion Row)) :
    Protocol Question Question.Answer (Option TxId) where
  allowed
    | none, .load id | none, .inspect id => ∃ version ∈ versions, version.Carries (.txId id)
    | some due, .register id => id = due
    | _, _ => False
  possible
    | .load _, answer => answer ≠ some (.preparing beginTs)
    | .inspect _, _ | .register _, _ => True
  next
    | _, .load id, answer => if speculates beginTs answer then some id else none
    | _, .inspect _, _ | _, .register _, _ => none
  idle := none

section Checks
variable {beginTs endTs : Timestamp} {me : TxId} {v : RowVersion Row}
  {vs : List (RowVersion Row)}
variable {scanned : List (RowVersion Row)}

theorem speculates_preparing :
    speculates beginTs (some (.preparing endTs)) = decide (endTs < beginTs) := rfl

theorem speculates_eq_true {answer : Option TransactionState} :
    speculates beginTs answer = true ↔ ∃ endTs, answer = some (.preparing endTs) ∧
      endTs < beginTs := by
  unfold speculates
  split <;> simp_all

/-- A dependency is registered exactly if the outcome is taken for granted. -/
theorem speculation_conforms {id : TxId} {res res' : Bool} :
    Program.Conforms (registration beginTs vs)
      (if speculates beginTs (some (.preparing endTs)) then some id else none)
      (if endTs < beginTs then do register id; pure res else pure res') := by
  by_cases hlt : endTs < beginTs
  · rw [if_pos hlt, speculates_preparing, if_pos (decide_eq_true hlt)]
    exact ⟨rfl, fun _ _ => rfl⟩
  · rw [if_neg hlt, speculates_preparing, if_neg fun h => hlt (of_decide_eq_true h)]
    rfl

section
variable (hm : v ∈ vs)
include hm

theorem isBeginVisible_conforms :
    (isBeginVisible me beginTs v).Conforms (registration beginTs vs) none := by
  unfold isBeginVisible
  split
  · rfl
  next creator hbg =>
    refine ⟨⟨v, hm, .inl hbg⟩, fun answer _ => ?_⟩
    rcases answer with _ | ⟨⟩ | endTs | ⟨⟩ | ⟨⟩ | ts
    case some.preparing => exact speculation_conforms
    all_goals rfl
  · rfl

theorem isEndVisible_conforms :
    (isEndVisible me beginTs v).Conforms (registration beginTs vs) none := by
  unfold isEndVisible
  split
  · rfl
  next deleter he =>
    refine ⟨⟨v, hm, .inr he⟩, fun answer hanswer => ?_⟩
    rcases answer with _ | ⟨⟩ | endTs | ⟨⟩ | ⟨⟩ | ts
    case some.preparing =>
      -- the reader began after a timestamp that is not later: the two are never the same
      have hne : endTs ≠ beginTs := fun heq => hanswer (heq ▸ rfl)
      have hflip : (if beginTs < endTs then pure true else do register deleter; pure false) =
          if endTs < beginTs then do register deleter; pure false else pure true := by
        by_cases hlt : beginTs < endTs
        · rw [if_pos hlt, if_neg hlt.not_gt]
        · rw [if_neg hlt, if_pos (lt_of_le_of_ne (not_lt.mp hlt) hne)]
      show Program.Conforms _ (if speculates beginTs _ then _ else _) (if beginTs < endTs then _ else _)
      rw [hflip]
      exact speculation_conforms
    all_goals rfl
  · rfl

theorem isVisibleTo_conforms :
    (isVisibleTo me beginTs v).Conforms (registration beginTs vs) none := by
  refine (isBeginVisible_conforms hm).bind fun visible => ?_
  cases visible with
  | false => rfl
  | true => exact isEndVisible_conforms hm

theorem endInvalidatesBtree_conforms :
    (endInvalidatesBtree me beginTs v).Conforms (registration beginTs vs) none := by
  unfold endInvalidatesBtree
  split
  · rfl
  next deleter he =>
    split
    · rfl
    refine ⟨⟨v, hm, .inr he⟩, fun answer _ => ?_⟩
    rcases answer with _ | ⟨⟩ | endTs | ⟨⟩ | ⟨⟩ | ts
    case some.preparing => exact speculation_conforms
    all_goals rfl
  · rfl

theorem isBtreeInvalidatingVersion_conforms :
    (isBtreeInvalidatingVersion me beginTs v).Conforms (registration beginTs vs)
      none := by
  refine (isVisibleTo_conforms hm).bind fun visible => ?_
  cases visible with
  | false => exact endInvalidatesBtree_conforms hm
  | true => rfl

end

theorem findVisible_conforms (hsubset : scanned ⊆ vs) :
    (findVisible me beginTs scanned).Conforms (registration beginTs vs) none := by
  induction scanned with
  | nil => rfl
  | cons newest older ih =>
    refine (isVisibleTo_conforms (hsubset (mem_cons_self ..))).bind fun visible => ?_
    cases visible with
    | false => exact ih fun _ hm => hsubset (mem_cons_of_mem _ hm)
    | true => rfl

theorem anyInvalidating_conforms (hsubset : scanned ⊆ vs) :
    (anyInvalidating me beginTs scanned).Conforms (registration beginTs vs) none := by
  induction scanned with
  | nil => rfl
  | cons newest older ih =>
    refine (isBtreeInvalidatingVersion_conforms (hsubset (mem_cons_self ..))).bind fun invalid => ?_
    cases invalid with
    | false => exact ih fun _ hm => hsubset (mem_cons_of_mem _ hm)
    | true => rfl

theorem isWriteWriteConflict_conforms (hm : v ∈ vs) :
    (isWriteWriteConflict me beginTs v).Conforms (registration beginTs vs) none := by
  unfold isWriteWriteConflict
  split
  next deleter he =>
    split
    · rfl
    refine ⟨⟨v, hm, .inr he⟩, fun answer _ => ?_⟩
    rcases answer with _ | ⟨⟩ | endTs | ⟨⟩ | ⟨⟩ | ts <;> rfl
  · rfl
  · rfl

theorem deleteConflicts_conforms {visible : Bool} (hm : v ∈ vs) :
    (deleteConflicts me beginTs visible v).Conforms (registration beginTs vs) none := by
  unfold deleteConflicts
  split
  · exact isWriteWriteConflict_conforms hm
  · rfl

theorem findDeletable_conforms (hsubset : scanned ⊆ vs) :
    (findDeletable me beginTs scanned).Conforms (registration beginTs vs) none := by
  induction scanned with
  | nil => rfl
  | cons newest older ih =>
    have hm := hsubset (mem_cons_self ..)
    refine (isVisibleTo_conforms hm).bind fun visible => ?_
    refine (deleteConflicts_conforms hm).bind fun conflict => ?_
    cases conflict with
    | true => rfl
    | false =>
      cases visible with
      | true => rfl
      | false => exact ih fun _ hm => hsubset (mem_cons_of_mem _ hm)

theorem beginConflicts_conforms (hm : v ∈ vs) :
    (beginConflicts me endTs v).Conforms (registration beginTs vs) none := by
  unfold beginConflicts
  split
  next other hbg =>
    split
    · rfl
    refine ⟨⟨v, hm, .inl hbg⟩, fun answer _ => ?_⟩
    rcases answer with _ | ⟨⟩ | endTs | ⟨⟩ | ⟨⟩ | ts <;> rfl
  · rfl
  · rfl

theorem versionConflicts_conforms (hm : v ∈ vs) :
    (versionConflicts me beginTs endTs v).Conforms (registration beginTs vs) none := by
  unfold versionConflicts
  split
  · rfl
  next other hbg he =>
    split
    · rfl
    refine ⟨⟨v, hm, .inr he⟩, fun answer _ => ?_⟩
    rcases answer with _ | ⟨⟩ | endTs | ⟨⟩ | ⟨⟩ | ts <;> rfl
  · rfl
  · rfl
  next deleter hbg he =>
    split
    · rfl
    refine ⟨⟨v, hm, .inr he⟩, fun answer _ => ?_⟩
    rcases answer with _ | ⟨⟩ | endTs | ⟨⟩ | ⟨⟩ | ts
    case some.committed => rfl
    all_goals exact beginConflicts_conforms hm
  · exact beginConflicts_conforms hm

theorem checkVersionConflicts_conforms (hsubset : scanned ⊆ vs) :
    (checkVersionConflicts me beginTs endTs scanned).Conforms (registration beginTs vs)
      none := by
  induction scanned with
  | nil => rfl
  | cons newest older ih =>
    refine (versionConflicts_conforms (hsubset (mem_cons_self ..))).bind fun conflict => ?_
    cases conflict with
    | false => exact ih fun _ hm => hsubset (mem_cons_of_mem _ hm)
    | true => rfl

end Checks

/-- The check of a session keeps to the protocol, whatever the session is for. -/
theorem check_conforms (me : TxId) (tx : Transaction RowId Row) (versions : List (RowVersion Row))
    (purpose : Purpose Row) :
    (purpose.check me tx versions).Conforms (registration tx.beginTs versions) none := by
  have hsubset : versions.reverse ⊆ versions := fun _ => mem_reverse.mp
  cases purpose with
  | read => exact findVisible_conforms hsubset
  | probeBtree => exact anyInvalidating_conforms hsubset
  | delete r => exact findDeletable_conforms hsubset
  | validate => exact checkVersionConflicts_conforms hsubset

end Turso.Mvcc
