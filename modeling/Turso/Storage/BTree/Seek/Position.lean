import Mathlib.Data.List.TakeWhile
import Turso.Storage.BTree.Iterate
import Turso.Storage.BTree.Seek.Model

/-!
# Where a seek has to end

What the operators mean, in terms of the records of the tree in order and of how they compare
with the key: `denoted` lists the records from the one the operator denotes on, in the
direction of the operator, and is empty if there is none.  `Lands` says that a seek ended
accordingly.

A search leaves on the path behind it the records before the place it looks for, and in front
of it those after that place.  `Descended` states this for the path to a page, and the rest of
the file shows that a search which has descended to a leaf, and has found the place in the
leaf, lands.
-/

namespace Turso.BTree

open PageCell SeekOp List Resumable

variable {Payload : Type}
variable {p : Page Payload} {r : Payload} {cellCount : Option ℤ}

/-! ## The record an operator denotes -/

/-- Whether a record that compares as `cmp` with the key is one the operator looks for. -/
def SeekOp.denotes : SeekOp → Ordering → Bool
  | ge true, cmp | le true, cmp => cmp = .eq
  | ge false, cmp => cmp ≠ .lt
  | gt, cmp => cmp = .gt
  | le false, cmp => cmp ≠ .gt
  | lt, cmp => cmp = .lt

section
variable (op : SeekOp)

variable (cmp : Payload → Ordering) (records : List Payload)

/-- The records from the first that the operator denotes on, or backwards from the last. -/
def denoted : List Payload :=
  match op.iterationDirection with
  | .forwards => records.dropWhile fun record => !op.denotes (cmp record)
  | .backwards => records.reverse.dropWhile fun record => !op.denotes (cmp record)

/-- The records ascend in comparison with the key: the smaller ones come first, then the equal
ones, then the greater ones. -/
def Ascending : Prop :=
  records.Pairwise fun first second =>
    (cmp first = .gt → cmp second = .gt) ∧ (cmp second = .lt → cmp first = .lt)

variable (tree : Tree Payload)

/-- The cursor is where the entries `entries` are to come, in the direction of the operator. -/
def PositionedFor (iteration : Iteration) (entries : List Payload) : Prop :=
  match op.iterationDirection with
  | .forwards => Positioned tree iteration entries
  | .backwards => PositionedBack tree iteration entries

/-- One step in the direction of the operator. -/
def SeekOp.advance (store : Store Payload) :
    List ReadAnswer → BTreeCursor → Turn BTreeCursor ReadAnswer :=
  match op.iterationDirection with
  | .forwards => next store
  | .backwards => prev store

/-- A seek that is to end where the entries `entries` are to come.  It is on the first of them
(`found`), or one step away from there (`tryAdvance`), or there is none (`notFound`). -/
def Lands (cursor : SeekCursor) (entries : List Payload) : Prop :=
  match cursor.seekResult with
  | some .found => entries ≠ [] ∧ PositionedFor op tree cursor.toIteration entries
  | some .tryAdvance => ∃ stepped, Completes (op.advance tree.store) cursor.toBTreeCursor stepped ∧
      PositionedFor op tree stepped.toIteration entries
  | some .notFound => entries = []
  | none => False

/-! ## Operators and comparisons -/

theorem SeekOp.inLeftSubtree_tieBreaker (cmp : Ordering) :
    op.inLeftSubtree (cmp.then op.tieBreaker) = op.inLeftSubtree cmp := by
  rcases op with (_ | _) | _ | (_ | _) | _ <;> cases cmp <;> rfl

/-- Whether a record is on the way of the operator: the left one forwards, the right one
backwards. -/
def SeekOp.onWay (cmp : Ordering) : Bool :=
  match op.iterationDirection with
  | .forwards => op.inLeftSubtree cmp
  | .backwards => !op.inLeftSubtree cmp

end

theorem SeekOp.onWay_of_denotes {op : SeekOp} {cmp : Ordering} (h : op.denotes cmp = true) :
    op.onWay cmp = true := by
  rcases op with (_ | _) | _ | (_ | _) | _ <;> cases cmp <;>
    simp_all [iterationDirection, denotes, onWay, inLeftSubtree]

/-- Every record on the way is sought, except if it has to be equal. -/
theorem SeekOp.denotes_cases (op : SeekOp) :
    (op.eqOnly = false ∧ ∀ cmp, op.denotes cmp = op.onWay cmp) ∨
      (op.eqOnly = true ∧ ∀ cmp, op.denotes cmp = decide (cmp = .eq)) := by
  rcases op with (_ | _) | _ | (_ | _) | _
  case ge.true => exact .inr ⟨rfl, fun _ => rfl⟩
  case le.true => exact .inr ⟨rfl, fun _ => rfl⟩
  all_goals exact .inl ⟨rfl, fun cmp => by cases cmp <;> rfl⟩

/-- A record on the way to an equal one is equal. -/
theorem SeekOp.eq_of_onWay {op : SeekOp} {a b : Ordering} (ha : op.onWay a = true) (hb : b = .eq)
    (hpair : match op.iterationDirection with
      | .forwards => a = .gt → b = .gt
      | .backwards => a = .lt → b = .lt) : a = .eq := by
  rcases op with _ | _ | _ | _ <;> cases a <;>
    simp_all [onWay, iterationDirection, inLeftSubtree]

section
variable {cmp : Payload → Ordering} {op : SeekOp}

/-- The condition of the search is monotone along ascending records. -/
theorem Ascending.inLeftSubtree {rs : List Payload} (h : Ascending cmp rs) : rs.Pairwise fun a b =>
      op.inLeftSubtree (cmp a) = true → op.inLeftSubtree (cmp b) = true := by
  refine h.imp fun {a b} hpair hleft => ?_
  rcases op with _ | _ | _ | _ <;>
    (cases ha : cmp a <;> cases hb : cmp b <;> simp_all [inLeftSubtree])

/-- Of two parts of a list, the one the operator goes to from between them. -/
def SeekOp.inFront {α : Type} (op : SeekOp) (first second : List α) : List α :=
  match op.iterationDirection with
  | .forwards => second
  | .backwards => first.reverse

theorem SeekOp.inFront_append {α : Type} (op : SeekOp) (a b c d : List α) :
    op.inFront (a ++ b) (c ++ d) = op.inFront b c ++ op.inFront a d := by
  rw [inFront, inFront, inFront]
  cases op.iterationDirection <;> simp

theorem dropWhile_append_of_all {a b : List Payload} {p : Payload → Bool}
    (h : ∀ r ∈ a, p r = true) : (a ++ b).dropWhile p = b.dropWhile p := by
  rw [dropWhile_append, dropWhile_eq_nil_iff.2 h]
  simp

section
variable {first second : List Payload}

/-- On the way an equal record follows an equal one only. -/
theorem Ascending.eq_head (h : Ascending cmp (first ++ second)) {a : Payload} {rest : List Payload}
    (hfront : op.inFront first second = a :: rest) (ha : op.onWay (cmp a) = true)
    (hmem : r ∈ op.inFront first second) (heq : cmp r = .eq) : cmp a = .eq := by
  have hpairs : (op.inFront first second).Pairwise fun a b =>
      op.onWay (cmp a) = true → cmp b = .eq → cmp a = .eq := by
    rw [inFront]
    cases hop : op.iterationDirection
    · exact (pairwise_append.1 h).2.1.imp fun hpair hway hb => eq_of_onWay hway hb
        (by rw [hop]; exact hpair.1)
    · exact pairwise_reverse.2 ((pairwise_append.1 h).1.imp fun hpair hway hb =>
        eq_of_onWay hway hb (by rw [hop]; exact hpair.2))
  rw [hfront] at hpairs hmem
  rcases mem_cons.1 hmem with rfl | hmem
  · exact heq
  · exact (pairwise_cons.1 hpairs).1 r hmem ha heq

variable (hfirst : ∀ r ∈ first, op.inLeftSubtree (cmp r) = false)
  (hsecond : ∀ r ∈ second, op.inLeftSubtree (cmp r) = true)
include hfirst hsecond

theorem SeekOp.onWay_of_mem (hmem : r ∈ op.inFront first second) : op.onWay (cmp r) = true := by
  rw [inFront] at hmem
  rw [onWay]
  cases hop : op.iterationDirection <;> simp only [hop] at hmem ⊢
  · exact hsecond r hmem
  · rw [hfirst r (mem_reverse.1 hmem)]
    rfl

theorem denoted_append : denoted op cmp (first ++ second) =
    (op.inFront first second).dropWhile fun r => !op.denotes (cmp r) := by
  have hnot : ∀ r, op.onWay (cmp r) = false → (!op.denotes (cmp r)) = true := by
    intro r hway
    cases hd : op.denotes (cmp r) with
    | false => rfl
    | true => exact absurd (hway.symm.trans (onWay_of_denotes hd)) Bool.false_ne_true
  simp only [onWay] at hnot
  rw [denoted, inFront]
  cases hop : op.iterationDirection <;> simp only [hop] at hnot ⊢
  · exact dropWhile_append_of_all fun r hmem => hnot r (hfirst r hmem)
  · rw [reverse_append]
    refine dropWhile_append_of_all fun r hmem => hnot r ?_
    rw [hsecond r (mem_reverse.1 hmem)]
    rfl

end

end

/-! ## The path of a search -/

/-- A search that has descended to a page: the records before its path are before the place
it looks for, and those after its path are after it.  A search for an equal record has noted
whether there is one on the side it would go on to. -/
structure Descended (op : SeekOp) (tree : Tree Payload) (cmp : Payload → Ordering) (eqSeen : Bool)
    (height id : ℕ) (trail : List (ℕ × ℕ)) : Prop where
  path : Path tree height id trail
  before_right : ∀ record ∈ before tree height trail, op.inLeftSubtree (cmp record) = false
  after_left : ∀ record ∈ after tree height trail, op.inLeftSubtree (cmp record) = true
  eqSeen_after : op = .ge true →
    (eqSeen = true ↔ ∃ record ∈ after tree height trail, cmp record = .eq)
  eqSeen_before : op = .le true →
    (eqSeen = true ↔ ∃ record ∈ before tree height trail, cmp record = .eq)

theorem Descended.root (op : SeekOp) (tree : Tree Payload) (cmp : Payload → Ordering) :
    Descended op tree cmp false tree.height tree.root [] where
  path := .root
  before_right := by simp [before]
  after_left := by simp [after]
  eqSeen_after := by simp [after]
  eqSeen_before := by simp [before]

/-- The pages above the top of the stack, as a search in the direction of `op` leaves them. -/
def SeekOp.mark (op : SeekOp) (tree : Tree Payload) : ℕ × ℕ → Node :=
  match op.iterationDirection with
  | .forwards => forwardNode tree.store
  | .backwards => backwardNode tree.store tree.isIndex

theorem SeekOp.mark_page (op : SeekOp) (tree : Tree Payload) (step : ℕ × ℕ) :
    (op.mark tree step).page = step.1 := by
  rw [mark]
  cases op.iterationDirection <;> rfl

/-- How the cell number `index` of a page compares with the key. -/
def cmpAt (cmp : Payload → Ordering) (page : Page Payload) (index : ℕ) : Ordering :=
  match page.cells[index]? with
  | some cell => cmp cell.payload
  | none => .eq

section Landing
variable {op : SeekOp} {tree : Tree Payload} {cmp : Payload → Ordering} {eqSeen : Bool}
  {id : ℕ} {trail : List (ℕ × ℕ)} {split : ℕ}

theorem getElem?_eq_get {i : ℕ} (hi : i < p.cellCount) :
    p.cells[i]? = some (p.cells.get ⟨i, hi⟩) :=
  getElem?_eq_getElem hi

theorem cmpAt_of_lt {i : ℕ} (hi : i < p.cellCount) :
    cmpAt cmp p i = cmp (p.cells.get ⟨i, hi⟩).payload := by
  rw [cmpAt, getElem?_eq_get hi]

/-- The place a search looks for on a leaf. -/
abbrev LeafSplit (op : SeekOp) (cmp : Payload → Ordering) (page : Page Payload) (split : ℕ) : Prop :=
  Bisection.SplitsAt (fun index => op.inLeftSubtree (cmpAt cmp page index)) page.cellCount split

theorem LeafSplit.of_mem_take (h : LeafSplit op cmp p split)
    (hm : r ∈ (p.cells.take split).map payload) :
    op.inLeftSubtree (cmp r) = false := by
  obtain ⟨cell, hcell, rfl⟩ := mem_map.1 hm
  obtain ⟨i, hi, rfl⟩ := mem_iff_getElem.1 hcell
  rw [length_take] at hi
  have hlt : i < p.cellCount := by rw [Page.cellCount]; omega
  have := h.before i (by omega)
  rw [cmpAt_of_lt hlt] at this
  simpa using this

theorem LeafSplit.of_mem_drop (h : LeafSplit op cmp p split)
    (hm : r ∈ (p.cells.drop split).map payload) :
    op.inLeftSubtree (cmp r) = true := by
  obtain ⟨cell, hcell, rfl⟩ := mem_map.1 hm
  obtain ⟨i, hi, rfl⟩ := mem_iff_getElem.1 hcell
  rw [length_drop] at hi
  have hlt : split + i < p.cellCount := by rw [Page.cellCount]; omega
  have := h.after (split + i) (by omega) hlt
  rw [cmpAt_of_lt hlt] at this
  simpa using this

/-- The cell the operator goes to from the place `split` between the cells. -/
def SeekOp.nextCell (op : SeekOp) (count split : ℕ) : Option ℕ :=
  match op.iterationDirection with
  | .forwards => if split < count then some split else none
  | .backwards => if 0 < split then some (split - 1) else none

theorem SeekOp.nextCell_lt {i : ℕ} (hsplit : split ≤ p.cellCount)
    (hi : op.nextCell p.cellCount split = some i) : i < p.cellCount := by
  rw [nextCell] at hi
  cases hop : op.iterationDirection <;> simp only [hop] at hi <;> split_ifs at hi <;> grind

/-- The records in front of a search that found the place `split` in the leaf `id`. -/
abbrev SeekOp.rest (op : SeekOp) (tree : Tree Payload) (id : ℕ) (trail : List (ℕ × ℕ))
    (split : ℕ) : List Payload :=
  op.inFront (before tree 0 trail ++ ((tree.store id).cells.take split).map payload)
    (((tree.store id).cells.drop split).map payload ++ after tree 0 trail)

/-- They start with the next cell. -/
theorem SeekOp.rest_of_some (hpath : Path tree 0 id trail) {i : ℕ}
    (hi : i < (tree.store id).cellCount)
    (hnext : op.nextCell (tree.store id).cellCount split = some i) :
    (∃ later, op.rest tree id trail split = ((tree.store id).cells.get ⟨i, hi⟩).payload :: later) ∧
      PositionedFor op tree ⟨⟨id, i, cellCount⟩ :: trail.map (op.mark tree), false, none, true⟩
        (op.rest tree id trail split) := by
  rw [nextCell] at hnext
  rw [rest, inFront, PositionedFor, mark]
  cases hop : op.iterationDirection <;> simp only [hop] at hnext ⊢ <;>
    obtain ⟨hlt, hnext⟩ := Option.ite_none_right_eq_some.1 hnext
  · cases hnext
    rw [drop_eq_getElem_cons hi]
    exact ⟨⟨_, rfl⟩, .leaf hpath hi⟩
  · obtain rfl : split = i + 1 := by grind
    rw [← take_append_getElem hi, map_append, ← append_assoc, reverse_append]
    exact ⟨⟨_, rfl⟩, .leaf hpath hi⟩

theorem SeekOp.rest_of_none (hnext : op.nextCell (tree.store id).cellCount split = none) :
    op.rest tree id trail split = op.inFront (before tree 0 trail) (after tree 0 trail) := by
  rw [nextCell] at hnext
  rw [rest, inFront, inFront]
  cases hop : op.iterationDirection <;> simp only [hop] at hnext ⊢
  · rw [drop_eq_nil_of_le (by grind [Page.cellCount]), map_nil, nil_append]
  · obtain rfl : split = 0 := by grind
    rw [take_zero, map_nil, append_nil]

/-- The records of the tree, cut at the place a search has found. -/
theorem Descended.records_eq (h : Descended op tree cmp eqSeen 0 id trail) (split : ℕ) :
    tree.records =
      (before tree 0 trail ++ ((tree.store id).cells.take split).map payload) ++
        (((tree.store id).cells.drop split).map payload ++ after tree 0 trail) := by
  rw [h.path.records_eq, entries, ← take_append_drop split (tree.store id).cells, map_append]
  simp only [append_assoc, take_append_drop]

theorem Descended.eqSeen_iff (h : Descended op tree cmp eqSeen 0 id trail)
    (heqOnly : op.eqOnly = true) :
    eqSeen = true ↔ ∃ r ∈ op.inFront (before tree 0 trail) (after tree 0 trail), cmp r = .eq := by
  rcases op with (_ | _) | _ | (_ | _) | _ <;> try cases heqOnly
  · exact h.eqSeen_after rfl
  · simpa only [inFront, iterationDirection, mem_reverse] using h.eqSeen_before rfl

section
variable (h : Descended op tree cmp eqSeen 0 id trail)
  (hsplit : LeafSplit op cmp (tree.store id) split)
include h hsplit

theorem Descended.right_of_mem (hm : r ∈ before tree 0 trail ++
    ((tree.store id).cells.take split).map payload) : op.inLeftSubtree (cmp r) = false := by
  rcases mem_append.1 hm with hm | hm
  · exact h.before_right r hm
  · exact hsplit.of_mem_take hm

theorem Descended.left_of_mem (hm : r ∈ ((tree.store id).cells.drop split).map payload ++
    after tree 0 trail) : op.inLeftSubtree (cmp r) = true := by
  rcases mem_append.1 hm with hm | hm
  · exact hsplit.of_mem_drop hm
  · exact h.after_left r hm

theorem Descended.onWay (hm : r ∈ op.rest tree id trail split) : op.onWay (cmp r) = true :=
  onWay_of_mem (fun _ => h.right_of_mem hsplit) (fun _ => h.left_of_mem hsplit) hm

theorem Descended.denoted_eq : denoted op cmp tree.records =
    (op.rest tree id trail split).dropWhile fun r => !op.denotes (cmp r) := by
  rw [h.records_eq split]
  exact denoted_append (fun _ => h.right_of_mem hsplit) (fun _ => h.left_of_mem hsplit)

/-- The next cell matches. -/
theorem Descended.found {i : ℕ} (hnext : op.nextCell (tree.store id).cellCount split = some i)
    (hmatch : op.denotes (cmpAt cmp (tree.store id) i) = true) :
    denoted op cmp tree.records ≠ [] ∧ PositionedFor op tree
        ⟨⟨id, i, cellCount⟩ :: trail.map (op.mark tree), false, none, true⟩
        (denoted op cmp tree.records) := by
  have hi := nextCell_lt hsplit.le hnext
  obtain ⟨⟨later, hrest⟩, hpositioned⟩ := rest_of_some h.path hi hnext
  rw [cmpAt_of_lt hi] at hmatch
  rw [h.denoted_eq hsplit, hrest, dropWhile_cons_of_neg (by simpa using hmatch)]
  exact ⟨cons_ne_nil _ _, hrest ▸ hpositioned⟩

variable (hasc : Ascending cmp tree.records)
include hasc

/-- If the next cell is not equal to the key, no record after it is. -/
theorem Descended.ne_of_next {i : ℕ}
    (hnext : op.nextCell (tree.store id).cellCount split = some i)
    (hmiss : cmpAt cmp (tree.store id) i ≠ .eq) (hm : r ∈ op.rest tree id trail split) :
    cmp r ≠ .eq := by
  intro heq
  have hi := nextCell_lt hsplit.le hnext
  obtain ⟨⟨later, hrest⟩, -⟩ := @rest_of_some _ none _ _ _ _ _ h.path _ hi hnext
  rw [cmpAt_of_lt hi] at hmiss
  rw [h.records_eq split] at hasc
  exact hmiss (hasc.eq_head hrest (h.onWay hsplit (by rw [hrest]; exact mem_cons_self)) hm heq)

section
variable
  (hmiss : ∀ i, op.nextCell (tree.store id).cellCount split = some i → op.denotes (cmpAt cmp (tree.store id) i) = false)
include hmiss

/-- Every cell on the way would match, if not an equal one is sought. -/
theorem Descended.nextCell_eq_none (hseen : op.eqOnly = true → eqSeen = true) :
    op.nextCell (tree.store id).cellCount split = none := by
  cases hnext : op.nextCell (tree.store id).cellCount split with
  | none => rfl
  | some i =>
    have hi := nextCell_lt hsplit.le hnext
    obtain ⟨⟨later, hrest⟩, -⟩ := @rest_of_some _ none _ _ _ _ _ h.path _ hi hnext
    have hcell := hmiss i hnext
    rcases op.denotes_cases with ⟨-, hsame⟩ | ⟨heqOnly, heq⟩
    · have hway := h.onWay hsplit (by rw [hrest]; exact mem_cons_self)
      rw [hsame, cmpAt_of_lt hi, hway] at hcell
      cases hcell
    · obtain ⟨r, hm, hr⟩ := (h.eqSeen_iff heqOnly).1 (hseen heqOnly)
      rw [heq, decide_eq_false_iff_not] at hcell
      refine absurd hr (h.ne_of_next hsplit hasc hnext hcell ?_)
      rw [rest, inFront_append]
      exact mem_append_right _ hm

/-- The next cell does not match, and no equal record comes later. -/
theorem Descended.notFound (heqOnly : op.eqOnly = true) (hseen : eqSeen = false) :
    denoted op cmp tree.records = [] := by
  obtain ⟨hfalse, -⟩ | ⟨-, heq⟩ := op.denotes_cases
  · simp [heqOnly] at hfalse
  rw [h.denoted_eq hsplit, dropWhile_eq_nil_iff]
  intro r hm
  simp only [heq, Bool.not_eq_true', decide_eq_false_iff_not] at hmiss ⊢
  cases hnext : op.nextCell (tree.store id).cellCount split with
  | some i => exact h.ne_of_next hsplit hasc hnext (hmiss i hnext) hm
  | none =>
    rw [rest_of_none hnext] at hm
    intro hr
    simp [(h.eqSeen_iff heqOnly).2 ⟨r, hm, hr⟩] at hseen

end

/-- There is no cell on the way, but the next record of the tree may match. -/
theorem Descended.denoted_of_none (hnext : op.nextCell (tree.store id).cellCount split = none)
    (hseen : op.eqOnly = true → eqSeen = true) :
    denoted op cmp tree.records = op.inFront (before tree 0 trail) (after tree 0 trail) := by
  rw [h.denoted_eq hsplit, ← rest_of_none hnext]
  cases hrest : op.rest tree id trail split with
  | nil => rfl
  | cons a later =>
    have ha := h.onWay hsplit (by rw [hrest]; exact mem_cons_self)
    refine dropWhile_cons_of_neg ?_
    rcases op.denotes_cases with ⟨-, hsame⟩ | ⟨heqOnly, heq⟩
    · simp [hsame, ha]
    · obtain ⟨r, hm, hr⟩ := (h.eqSeen_iff heqOnly).1 (hseen heqOnly)
      rw [← rest_of_none hnext] at hm
      rw [h.records_eq split] at hasc
      simp [heq, hasc.eq_head hrest ha hm hr]

end

/-- From the end of the leaf, or from before its start, the next record of the tree is reached. -/
theorem Descended.advance_of_none (h : Descended op tree cmp eqSeen 0 id trail)
    {cursor : BTreeCursor} {r : Bool}
    (hcursor : cursor.toIteration = ⟨⟨id, (match op.iterationDirection with
      | .forwards => ((tree.store id).cellCount : ℤ)
      | .backwards => -1), cellCount⟩ :: trail.map (op.mark tree), false, none, r⟩)
    (hstart : cursor.advanceState = .start) :
    ∃ stepped, Completes (op.advance tree.store) cursor stepped ∧
      PositionedFor op tree stepped.toIteration
        (op.inFront (before tree 0 trail) (after tree 0 trail)) := by
  rw [mark] at hcursor
  simp only [advance, PositionedFor, inFront]
  cases hop : op.iterationDirection <;> simp only [hop] at hcursor ⊢
  · have hreaches : Reaches tree cursor.toIteration (after tree 0 trail) := by
      rw [hcursor]
      exact Reaches.leave h.path ⟨by omega, fun hne => absurd rfl hne, .inl rfl⟩
    have hleaf : cursor.canAdvanceWithinLeaf tree.store = false := by
      simp [BTreeCursor.canAdvanceWithinLeaf, hcursor]
    have hlast : cursor.isOnLastCellOfTree tree.store = false := by
      simp [BTreeCursor.isOnLastCellOfTree, hcursor]
    obtain ⟨stepped, hcompletes, hpositioned, -⟩ := next_of_reaches hstart hleaf hlast hreaches
    exact ⟨stepped, hcompletes, hpositioned⟩
  · have hretreated : retreated (tree.store id) (-1) = -1 := by
      rw [retreated, if_neg (by omega), if_neg (fun hneg => by omega)]
    have hneg : retreated (tree.store id) (-1) < 0 := by rw [hretreated]; decide
    have hreaches : ReachesBack tree cursor.toIteration (before tree 0 trail).reverse := by
      rw [hcursor]
      exact ReachesBack.of_settles (.inl h.path.wellFormed.rightmostPointer_zero)
        (fun hvisited => absurd hvisited.2.1 (by decide)) hneg
        (settles_retreatUpwards h.path hneg r)
    obtain ⟨stepped, hcompletes, hpositioned, -⟩ := prev_of_reaches hstart hreaches
    exact ⟨stepped, hcompletes, hpositioned⟩

end Landing

end Turso.BTree
