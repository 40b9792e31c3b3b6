import Turso.Storage.BTree.Seek.Leaf

/-!
# The way down to a leaf

What both kinds of trees share on interior pages.  The bisection of the cells ends at the
first one to the left of which the search goes on (`InteriorEnd`), the child there is read and
pushed (`descend_eq`, `push_eq`), and the records that are passed are on the right sides of the
new path (`Descended.child`).
-/

namespace Turso.BTree

open SeekCursor List

variable {Payload : Type} (tree : Tree Payload)

/-- A cursor between two seeks.  On a leaf of a table its stack is the path to that leaf. -/
structure SeekCursor.Ready (cursor : SeekCursor) : Prop where
  rootPage_eq : cursor.rootPage = tree.root
  advanceState_eq : cursor.advanceState = .start
  pendingDescent_eq : cursor.pendingDescent = none
  seekState_eq : cursor.seekState = .start
  moveToState_eq : cursor.moveToState = .start
  onLeaf : tree.isIndex = false → cursor.hasRecord = true → ∀ node ancestors,
    cursor.stack = node :: ancestors → (tree.store node.page).isLeaf = true →
      cursor.goingUpwards = false ∧ ∃ trail, Path tree 0 node.page trail ∧
        ancestors = trail.map (forwardNode tree.store)

theorem SeekCursor.new_ready : Ready tree { rootPage := tree.root } :=
  ⟨rfl, rfl, rfl, rfl, rfl, fun _ => nofun⟩

/-- What a seek from the root leaves as it is. -/
structure SeekCursor.Fresh (base : SeekCursor) : Prop where
  rootPage_eq : base.rootPage = tree.root
  advanceState_eq : base.advanceState = .start
  pendingDescent_eq : base.pendingDescent = none
  goingUpwards_eq : base.goingUpwards = false

variable {base : SeekCursor} {tree : Tree Payload} {final : SeekCursor}

theorem SeekCursor.Fresh.congr (h : base.Fresh tree) (hroot : final.rootPage = base.rootPage)
    (hadvance : final.advanceState = base.advanceState)
    (hpending : final.pendingDescent = base.pendingDescent)
    (hupwards : final.goingUpwards = base.goingUpwards) : final.Fresh tree :=
  ⟨hroot.trans h.rootPage_eq, hadvance.trans h.advanceState_eq, hpending.trans h.pendingDescent_eq,
    hupwards.trans h.goingUpwards_eq⟩

/-- After a seek the cursor is ready for the next one. -/
theorem SeekCursor.Fresh.ready (h : final.Fresh tree) (hmove : final.moveToState = .start)
    (hleaf : tree.isIndex = false → final.hasRecord = true → ∃ node trail,
      final.stack = node :: trail.map (forwardNode tree.store) ∧ Path tree 0 node.page trail) :
    Ready tree { final with seekState := .start } where
  rootPage_eq := h.rootPage_eq
  advanceState_eq := h.advanceState_eq
  pendingDescent_eq := h.pendingDescent_eq
  seekState_eq := rfl
  moveToState_eq := hmove
  onLeaf := by
    intro hkind hr node ancestors hstack _
    obtain ⟨node', trail, hstack', hpath⟩ := hleaf hkind hr
    obtain ⟨rfl, rfl⟩ := cons.inj (hstack.symm.trans hstack')
    exact ⟨h.goingUpwards_eq, trail, hpath, rfl⟩

/-- The cursor on the page `id` at the end of a path. -/
def SeekCursor.onPage (base : SeekCursor) (op : SeekOp) (tree : Tree Payload)
    (trail : List (ℕ × ℕ)) (node : Node) (seekState : CursorSeekState) : SeekCursor :=
  { base with stack := node :: trail.map (op.mark tree), seekState }

section
variable {op : SeekOp} {tree : Tree Payload} {cmp : Payload → Ordering} {eqSeen : Bool}
  {height id : ℕ} {trail : List (ℕ × ℕ)} {i : ℕ}

theorem SeekCursor.onRoot_eq (hroot : base.rootPage = tree.root)
    (hstart : base.seekState = .start) :
    { base with toBTreeCursor := base.toBTreeCursor.onRoot } =
      ({ base with goingUpwards := false }).onPage op tree [] ⟨tree.root, -1, none⟩ .start := by
  rw [onPage, ← hroot, ← hstart]
  rfl

/-! ## The new path -/

theorem Descended.child (h : Descended op tree cmp eqSeen (height + 1) id trail)
    (hi : i ≤ (tree.store id).cellCount) {eqSeen' : Bool}
    (hahead : ∀ r ∈ ahead tree.isIndex (entries tree.store tree.isIndex height)
      (tree.store id) i, op.inLeftSubtree (cmp r) = false)
    (hbehind : ∀ r ∈ behind tree.isIndex (entries tree.store tree.isIndex height)
      (tree.store id) i, op.inLeftSubtree (cmp r) = true)
    (hafter : op = .ge true → (eqSeen' = true ↔ eqSeen = true ∨
      ∃ r ∈ behind tree.isIndex (entries tree.store tree.isIndex height) (tree.store id) i,
        cmp r = .eq))
    (hb : op = .le true → (eqSeen' = true ↔ eqSeen = true ∨
      ∃ r ∈ ahead tree.isIndex (entries tree.store tree.isIndex height) (tree.store id) i,
        cmp r = .eq)) :
    Descended op tree cmp eqSeen' height ((tree.store id).child i) ((id, i) :: trail) where
  path := h.path.child hi
  before_right := by
    intro r hmem
    rcases mem_append.1 hmem with hmem | hmem
    · exact h.before_right r hmem
    · exact hahead r hmem
  after_left := by
    intro r hmem
    rcases mem_append.1 hmem with hmem | hmem
    · exact hbehind r hmem
    · exact h.after_left r hmem
  eqSeen_after := by
    intro hop
    rw [hafter hop, h.eqSeen_after hop, after]
    simp only [mem_append, or_and_right, exists_or]
    exact or_comm
  eqSeen_before := by
    intro hop
    rw [hb hop, h.eqSeen_before hop, before]
    simp only [mem_append, or_and_right, exists_or]

theorem Descended.entries_ascending (h : Descended op tree cmp eqSeen height id trail)
    (hasc : Ascending cmp tree.records) :
    Ascending cmp (entries tree.store tree.isIndex height id) := by
  rw [h.path.records_eq] at hasc
  exact (pairwise_append.1 (pairwise_append.1 hasc).2.1).1

/-- An empty leaf is the whole tree. -/
theorem Descended.records_eq_nil (h : Descended op tree cmp eqSeen 0 id trail)
    (hempty : (tree.store id).cellCount = 0) : tree.records = [] := by
  have hcells : (tree.store id).cells = [] := length_eq_zero_iff.1 hempty
  obtain rfl := h.path.trail_eq_nil hcells
  rw [h.path.records_eq, entries, hcells]
  rfl

theorem denoted_nil (op : SeekOp) (cmp : Payload → Ordering) : denoted op cmp [] = [] := by
  rw [denoted]
  cases op.iterationDirection <;> rfl

/-! ## Reading the child -/

/-- The end of a search on an interior page: the child `index` is the one to go on with. -/
structure InteriorEnd (cellCount index : ℕ) (state : InteriorPageBinarySearchState) : Prop where
  closed : state.max < state.min
  le : index ≤ cellCount
  nearest_eq : state.nearest = if index < cellCount then some index else none

variable {state : InteriorPageBinarySearchState}

theorem InteriorEnd.of_splitsAt {left : ℕ → Bool} {cellCount split : ℕ}
    (hclosed : state.max < state.min)
    (hsplit : Bisection.SplitsAt left cellCount split) (hmax : state.max = split - 1)
    (habove : Bisection.NearestAbove left cellCount state.toState) :
    InteriorEnd cellCount split state := by
  refine ⟨hclosed, hsplit.le, ?_⟩
  rw [Bisection.NearestAbove, hmax] at habove
  rw [habove]
  by_cases hlt : split < cellCount
  · simp [hlt, hsplit.after split le_rfl hlt]
  · simp [hlt]

theorem SeekOp.mark_eq (op : SeekOp) (tree : Tree Payload) (id i : ℕ) : op.mark tree (id, i) =
      ⟨id, (op.mark tree (id, i)).cellIdx, some (tree.store id).cellCount⟩ := by
  rw [mark]
  cases op.iterationDirection <;> rfl

theorem descend_eq
    (hpath : Path tree (height + 1) id trail)
    (he : InteriorEnd (tree.store id).cellCount i state) {atNearest : ℕ → ℤ}
    (hnearest : i < (tree.store id).cellCount → atNearest i = (op.mark tree (id, i)).cellIdx)
    (ans : List ReadAnswer) (cellIdx : ℤ) (cellCount : Option ℤ) :
    base.descend tree.store ans ⟨id, cellIdx, cellCount⟩ (trail.map (op.mark tree)) state
        atNearest =
      readAndPush tree.store ans
        (⟨id, (op.mark tree (id, i)).cellIdx, cellCount⟩ :: trail.map (op.mark tree))
        ((tree.store id).child i) (-1)
        { base with seekState := .interiorPageBinarySearch state }
        fun stack => { base with stack, seekState := .movingBetweenPages state.eqSeen } := by
  rw [descend, he.nearest_eq]
  rcases he.le.eq_or_lt with rfl | hlt
  · rw [if_neg (lt_irrefl _), hpath.wellFormed.rightmostPointer_succ, Page.child_cellCount,
      SeekOp.mark]
    cases op.iterationDirection <;> simp [forwardNode, backwardNode]
  · rw [if_pos hlt]
    dsimp only
    rw [Page.leftChildPage_of_lt hlt, hnearest hlt]

theorem push_eq (hpath : Path tree (height + 1) id trail)
    (hi : i ≤ (tree.store id).cellCount) (cellCount : Option ℤ) :
    PageStack.push tree.store
        (⟨id, (op.mark tree (id, i)).cellIdx, cellCount⟩ :: trail.map (op.mark tree))
        ((tree.store id).child i) (-1) =
      some (⟨(tree.store id).child i, -1, none⟩ :: ((id, i) :: trail).map (op.mark tree)) := by
  rw [hpath.push hi (op.mark_page tree), map_cons, op.mark_eq tree id i]

end

end Turso.BTree
