import Turso.Storage.BTree.Path

/-!
# Forward iteration

Where `get_next_record` goes from each kind of position.  From a page that was just entered it
reaches the first entry below it (`Reaches.enter`); from a page that is done it goes up to
the nearest page with more children and on from there, or ends (`Reaches.leave`).  Together
they say that a step from an entry reaches the next entry of the tree.

The stack of a forward cursor determines its path: a page above the top is at the cell whose
left child was entered, or one past the rightmost pointer if that was followed.
-/

namespace Turso.BTree

open List Resumable

variable {Payload : Type}

/-- A page above the top of the stack, during forward iteration. -/
def forwardNode (store : Store Payload) (step : ℕ × ℕ) : Node where
  page := step.1
  cellIdx := if step.2 < (store step.1).cellCount then step.2 else (store step.1).cellCount + 1
  cellCount := some (store step.1).cellCount

/-! ## One turn -/

section Turn
variable {st : Store Payload} {id : ℕ} {cellIdx : ℤ} {cellCount : Option ℤ}
  {ancestors : PageStack} {upwards record : Bool} (ans : List ReadAnswer)

theorem getNextRecord_pending {stack : PageStack} {target : ℕ} (hstack : stack ≠ []) :
    getNextRecord st ans ⟨stack, upwards, some (.forwards target), record⟩ =
      readAndPush st ans stack target (-1) ⟨stack, upwards, some (.forwards target), record⟩
        (Iteration.mk · false none record) := by
  cases stack with
  | nil => exact absurd rfl hstack
  | cons node ancestors => rfl

theorem getNextRecord_leaf (hleaf : (st id).isLeaf = true) (hnx : cellIdx + 1 < (st id).cellCount) :
    getNextRecord st ans ⟨⟨id, cellIdx, cellCount⟩ :: ancestors, false, none, record⟩ =
      .done ⟨⟨id, cellIdx + 1, cellCount⟩ :: ancestors, false, none, true⟩ := by
  have hn : ¬ ((st id).cellCount : ℤ) ≤ cellIdx + 1 := by omega
  by_cases hstart : cellIdx = -1
  · simp [getNextRecord, hstart, hleaf]
    omega
  · simp [getNextRecord, hstart, hleaf, hnx]

theorem getNextRecord_leftChild (hinterior : (st id).isLeaf = false)
    (hskip : ¬ ((st id).isIndex = true ∧ upwards = true)) {index : ℕ}
    (hindex : cellIdx + 1 = index) (hlt : index < (st id).cellCount) :
    getNextRecord st ans ⟨⟨id, cellIdx, cellCount⟩ :: ancestors, upwards, none, record⟩ =
      readAndPush st ans (⟨id, index, cellCount⟩ :: ancestors) ((st id).child index) (-1)
        ⟨⟨id, index, cellCount⟩ :: ancestors, upwards,
          some (.forwards ((st id).child index)), record⟩
        (Iteration.mk · false none record) := by
  have hcount : ¬ ((st id).cellCount : ℤ) ≤ index := by omega
  rw [getNextRecord]
  simp only [hinterior, hindex, hcount, Bool.false_eq_true, false_and, and_false, if_false,
    Int.toNat_natCast, Page.leftChildPage_of_lt hlt]
  rw [if_neg (fun h => hskip ⟨h.1, h.2.1⟩), if_neg hskip]
  rfl

/-- The rightmost child of an interior page, after all its cells. -/
theorem getNextRecord_rightmost (hinterior : (st id).isLeaf = false)
    (hright : (st id).rightmostPointer = some (st id).rightmost)
    (hskip : ¬ ((st id).isIndex = true ∧ upwards = true))
    (hi : cellIdx + 1 = (st id).cellCount) :
    getNextRecord st ans ⟨⟨id, cellIdx, cellCount⟩ :: ancestors, upwards, none, record⟩ =
      readAndPush st ans (⟨id, (st id).cellCount + 1, cellCount⟩ :: ancestors)
        (st id).rightmost (-1)
        ⟨⟨id, (st id).cellCount + 1, cellCount⟩ :: ancestors, upwards,
          some (.forwards (st id).rightmost), record⟩
        (Iteration.mk · false none record) := by
  rw [getNextRecord]
  simp only [hinterior, hi, hright, Bool.false_eq_true, and_false, if_false, le_refl,
    if_true, lt_self_iff_false, decide_false]
  rw [if_neg (fun h => hskip ⟨h.1, h.2.1⟩)]
  rfl

/-- A page that is done: leave it, or end. -/
theorem getNextRecord_leave (hn : (st id).cellCount ≤ cellIdx + 1)
    (hright : (st id).rightmostPointer = none ∨ (st id).cellCount < cellIdx + 1)
    (hupwards : upwards = false ∨ (st id).cellCount ≤ cellIdx) :
    getNextRecord st ans ⟨⟨id, cellIdx, cellCount⟩ :: ancestors, upwards, none, record⟩ =
      match ancestorPagesHaveMoreChildren ancestors with
      | none => .failed
      | some true => .again ⟨ancestors, true, none, record⟩ ans
      | some false =>
        .done ⟨⟨id, cellIdx + 1, cellCount⟩ :: ancestors, upwards, none, false⟩ := by
  have ha : ¬ (cellIdx ≠ -1 ∧ (st id).isLeaf = true ∧ cellIdx + 1 < (st id).cellCount) := by omega
  have hskip : ¬ ((st id).isIndex = true ∧ upwards = true ∧ 0 ≤ cellIdx ∧
      cellIdx < (st id).cellCount) := by
    rintro ⟨-, h, -, hlt⟩
    rcases hupwards with h' | h'
    · simp [h'] at h
    · omega
  rw [getNextRecord]
  dsimp only
  rw [if_neg ha, if_neg hskip, if_pos hn]
  rcases hright with hno | hlt
  · rw [hno]
    rfl
  · rw [decide_eq_true hlt]
    cases (st id).rightmostPointer <;> rfl

/-- The cell of an index page, after its left child. -/
theorem getNextRecord_divider (hinterior : (st id).isLeaf = false)
    (hi : (st id).isIndex = true) (hlow : 0 ≤ cellIdx)
    (hhigh : cellIdx < (st id).cellCount) :
    getNextRecord st ans ⟨⟨id, cellIdx, cellCount⟩ :: ancestors, true, none, record⟩ =
      .done ⟨⟨id, cellIdx, cellCount⟩ :: ancestors, false, none, true⟩ := by
  simp [getNextRecord, hinterior, hi, hlow, hhigh]

end Turn

/-! ## From one entry to the next -/

/-- The cursor is on an entry of the tree, with the entries `rest` still to come. -/
inductive OnEntry (tree : Tree Payload) : Iteration → Payload → List Payload → Prop
  | leaf {id index : ℕ} {trail : List (ℕ × ℕ)} {cellCount : Option ℤ}
      (hpath : Path tree 0 id trail) (hindex : index < (tree.store id).cellCount) :
      OnEntry tree
        ⟨⟨id, index, cellCount⟩ :: trail.map (forwardNode tree.store), false, none, true⟩
        ((tree.store id).cells.get ⟨index, hindex⟩).payload
        (((tree.store id).cells.drop (index + 1)).map PageCell.payload ++ after tree 0 trail)
  | divider {height id index : ℕ} {trail : List (ℕ × ℕ)} {cellCount : Option ℤ}
      (hpath : Path tree (height + 1) id trail) (hindex : index < (tree.store id).cellCount) :
      OnEntry tree
        ⟨⟨id, index, cellCount⟩ :: trail.map (forwardNode tree.store), false, none, true⟩
        ((tree.store id).cells.get ⟨index, hindex⟩).payload
        (walk tree.isIndex (entries tree.store tree.isIndex height)
          ((tree.store id).cells.drop (index + 1)) (tree.store id).rightmost ++
          after tree (height + 1) trail)

theorem OnEntry.record_eq {tree : Tree Payload} {iteration : Iteration} {entry : Payload}
    {rest : List Payload} (h : OnEntry tree iteration entry rest) :
    iteration.record tree.store = some entry := by
  cases h with
  | leaf hpath hj | divider hpath hj =>
    simp only [Iteration.record, Int.toNat_natCast, getElem?_eq_getElem hj]
    rfl

variable (tree : Tree Payload) (iteration : Iteration)

/-- The cursor is where the entries `entries` are to come: on the first, or at the end. -/
def Positioned : List Payload → Prop
  | [] => iteration.hasRecord = false
  | entry :: rest => OnEntry tree iteration entry rest

/-- `get_next_record` finishes where the entries `entries` are to come. -/
def Reaches (entries : List Payload) : Prop :=
  ∃ final, Completes (getNextRecord tree.store) iteration final ∧ Positioned tree final entries

section Run
variable {tree : Tree Payload} {height id : ℕ} {trail : List (ℕ × ℕ)}

variable {cellIdx : ℤ}

theorem Reaches.descend (hpath : Path tree (height + 1) id trail) {i : ℕ}
    (hi : i ≤ (tree.store id).cellCount) {cellCount : Option ℤ}
    {upwards r : Bool} (hcell : cellIdx + 1 = i)
    (hupwards : tree.isIndex = false ∨ upwards = false) {entries : List Payload}
    (hchild : Reaches tree ⟨⟨(tree.store id).child i, -1, none⟩ ::
        ((id, i) :: trail).map (forwardNode tree.store), false, none, r⟩ entries) :
    Reaches tree ⟨⟨id, cellIdx, cellCount⟩ :: trail.map (forwardNode tree.store), upwards, none, r⟩
      entries := by
  obtain ⟨final, hcompletes, hfinal⟩ := hchild
  refine ⟨final, ?_, hfinal⟩
  have hwell := hpath.wellFormed
  have hskip := hwell.not_index_upwards hupwards
  have hmark : ∀ step, (forwardNode tree.store step).page = step.1 := fun _ => rfl
  rcases hi.eq_or_lt with rfl | hlt
  · have hpush := hpath.push le_rfl hmark ((tree.store id).cellCount + 1) (-1) cellCount
    rw [Page.child_cellCount] at hpush hcompletes
    refine completes_readAndPush hpush (fun ans => getNextRecord_rightmost ans hwell.isLeaf_succ
        hwell.rightmostPointer_succ hskip hcell)
      (fun ans => getNextRecord_pending ans (cons_ne_nil _ _)) rfl ?_
    simpa [forwardNode] using hcompletes
  · have hpush := hpath.push hi hmark i (-1) cellCount
    refine completes_readAndPush hpush
      (fun ans => getNextRecord_leftChild ans hwell.isLeaf_succ hskip hcell hlt)
      (fun ans => getNextRecord_pending ans (cons_ne_nil _ _)) rfl ?_
    simpa [forwardNode, hlt] using hcompletes

/-- A page that was just entered reaches the first entry below it. -/
theorem Reaches.enter (hpath : Path tree height id trail) (r : Bool) :
    Reaches tree ⟨⟨id, -1, none⟩ :: trail.map (forwardNode tree.store), false, none, r⟩
      (entries tree.store tree.isIndex height id ++ after tree height trail) := by
  induction height generalizing id trail with
  | zero =>
    have hwell := hpath.wellFormed
    cases hcells : (tree.store id).cells with
    | nil =>
      obtain rfl := hpath.trail_eq_nil hcells
      have hn : (tree.store id).cellCount = 0 := by rw [Page.cellCount, hcells]; rfl
      refine ⟨⟨[⟨id, 0, none⟩], false, none, false⟩, .done fun ans => ?_, ?_⟩
      · rw [map_nil, getNextRecord_leave ans (by rw [hn]; decide)
          (.inl hwell.rightmostPointer_zero) (.inl rfl)]
        rfl
      · rw [entries, hcells]
        rfl
    | cons cell rest =>
      have hpos : 0 < (tree.store id).cellCount := by
        rw [Page.cellCount, hcells]
        exact Nat.succ_pos _
      refine ⟨_, .done fun ans =>
        getNextRecord_leaf ans hwell.isLeaf_zero (by omega), ?_⟩
      have hon := @OnEntry.leaf _ tree id 0 trail none hpath hpos
      have hget : (tree.store id).cells.get ⟨0, hpos⟩ = cell := by simp [hcells]
      rw [entries, hcells]
      simpa [Positioned, hcells] using hon
  | succ height ih =>
    refine Reaches.descend hpath (Nat.zero_le _) (by simp) (.inr rfl) ?_
    have hchild := ih (hpath.child (Nat.zero_le _))
    have hwalk := @walk_drop _ tree.isIndex 0 (tree.store id)
      (entries tree.store tree.isIndex height) (Nat.zero_le _)
    rw [after, ← append_assoc, ← hwalk, drop_zero] at hchild
    exact hchild

/-- A page that is done, and where the cursor is on it. -/
structure Leaving (page : Page Payload) (height : ℕ) (cellIdx : ℤ) (upwards : Bool) : Prop where
  cellCount_le : page.cellCount ≤ cellIdx + 1
  rightmost_done : height ≠ 0 → page.cellCount < cellIdx + 1
  upwards_done : upwards = false ∨ page.cellCount ≤ cellIdx

theorem Leaving.turn {upwards : Bool}
    (h : Leaving (tree.store id) height cellIdx upwards) (hpath : Path tree height id trail)
    {cellCount : Option ℤ} {r : Bool} (ans : List ReadAnswer) :
    getNextRecord tree.store ans
        ⟨⟨id, cellIdx, cellCount⟩ :: trail.map (forwardNode tree.store), upwards, none, r⟩ =
      match ancestorPagesHaveMoreChildren (trail.map (forwardNode tree.store)) with
      | none => .failed
      | some true => .again ⟨trail.map (forwardNode tree.store), true, none, r⟩ ans
      | some false =>
        .done ⟨⟨id, cellIdx + 1, cellCount⟩ :: trail.map (forwardNode tree.store), upwards,
          none, false⟩ := by
  refine getNextRecord_leave ans h.cellCount_le ?_ h.upwards_done
  cases height with
  | zero => exact .inl hpath.wellFormed.rightmostPointer_zero
  | succ height => exact .inr (h.rightmost_done (Nat.succ_ne_zero _))

/-- If no page above has more children, nothing comes after the path. -/
theorem after_eq_nil (hpath : Path tree height id trail)
    (hmore : ancestorPagesHaveMoreChildren (trail.map (forwardNode tree.store)) = some false) :
    after tree height trail = [] := by
  induction trail generalizing height id with
  | nil => rfl
  | cons step trail ih =>
    obtain ⟨parent, i⟩ := step
    obtain ⟨hparent, hi, -⟩ := hpath.parent
    rw [map_cons, ancestorPagesHaveMoreChildren, forwardNode] at hmore
    dsimp only at hmore
    rcases hi.eq_or_lt with rfl | hlt
    · rw [if_neg (lt_irrefl _), if_pos rfl] at hmore
      rw [after, behind_cellCount, ih hparent hmore]
      rfl
    · rw [if_pos hlt, if_neg (by omega)] at hmore
      cases hmore

/-- A path always knows whether a page above has more children. -/
theorem exists_ancestorPagesHaveMoreChildren (st : Store Payload) (trail : List (ℕ × ℕ)) :
    ∃ more, ancestorPagesHaveMoreChildren (trail.map (forwardNode st)) = some more := by
  induction trail with
  | nil => exact ⟨false, rfl⟩
  | cons step trail ih =>
    by_cases he : (forwardNode st step).cellIdx = (st step.1).cellCount + 1
    · obtain ⟨more, hmore⟩ := ih
      exact ⟨more, (if_pos he).trans hmore⟩
    · exact ⟨true, if_neg he⟩

theorem Reaches.step {start next : Iteration} {entries : List Payload}
    (hturn : ∀ answers, getNextRecord tree.store answers start = .again next answers)
    (hnx : Reaches tree next entries) : Reaches tree start entries := by
  obtain ⟨final, hcompletes, hfinal⟩ := hnx
  refine ⟨final, .step (fun answers => ⟨answers, ?_⟩) hcompletes, hfinal⟩
  rw [hturn]
  exact .again _ _

section
variable (hpath : Path tree (height + 1) id trail) {i : ℕ}
  (hi : i < (tree.store id).cellCount) {cellCount : Option ℤ}
include hpath hi

/-- The children after `i` of an interior page. -/
theorem Reaches.walk {upwards r : Bool} (hupwards : tree.isIndex = false ∨ upwards = false) :
    Reaches tree ⟨⟨id, i, cellCount⟩ :: trail.map (forwardNode tree.store), upwards, none, r⟩
      (walk tree.isIndex (entries tree.store tree.isIndex height)
        ((tree.store id).cells.drop (i + 1)) (tree.store id).rightmost ++
        after tree (height + 1) trail) := by
  have hnx : i + 1 ≤ (tree.store id).cellCount := hi
  rw [walk_drop hnx, append_assoc]
  exact Reaches.descend hpath hnx (by simp) hupwards (Reaches.enter (hpath.child hnx) r)

/-- Back on an interior page, after the left child of a cell. -/
theorem Reaches.upwards (r : Bool) : Reaches tree
      ⟨⟨id, i, cellCount⟩ :: trail.map (forwardNode tree.store), true, none, r⟩
      (behind tree.isIndex (entries tree.store tree.isIndex height) (tree.store id) i ++
        after tree (height + 1) trail) := by
  have hwell := hpath.wellFormed
  rw [behind_of_lt hi]
  cases hkind : tree.isIndex with
  | false =>
    -- the cell of a table page is no entry
    have hwalk := @Reaches.walk _ tree height id trail hpath i hi cellCount true r (.inl hkind)
    rwa [hkind] at hwalk
  | true =>
    refine ⟨_, .done fun ans => getNextRecord_divider ans hwell.isLeaf_succ
      (hwell.isIndex_eq.trans hkind) (Int.natCast_nonneg _) (by omega), ?_⟩
    have hon := @OnEntry.divider _ tree height id i trail cellCount hpath hi
    rwa [hkind] at hon

end

/-- A page that is done goes on with the entries after its path. -/
theorem Reaches.leave (hpath : Path tree height id trail) {cellCount : Option ℤ}
    {upwards r : Bool} (hleaving : Leaving (tree.store id) height cellIdx upwards) :
    Reaches tree ⟨⟨id, cellIdx, cellCount⟩ :: trail.map (forwardNode tree.store), upwards, none, r⟩
      (after tree height trail) := by
  induction trail generalizing height id cellIdx cellCount upwards with
  | nil => exact ⟨_, .done fun ans => (hleaving.turn hpath ans).trans rfl, rfl⟩
  | cons step trail ih =>
    obtain ⟨parent, i⟩ := step
    obtain ⟨hparent, hi, -⟩ := hpath.parent
    have hturn := fun ans => @Leaving.turn _ tree height id _ cellIdx upwards hleaving hpath
      cellCount r ans
    obtain ⟨more, hmore⟩ := exists_ancestorPagesHaveMoreChildren tree.store ((parent, i) :: trail)
    rw [hmore] at hturn
    cases more with
    | false =>
      rw [after_eq_nil hpath hmore]
      exact ⟨_, .done hturn, rfl⟩
    | true =>
      refine Reaches.step hturn ?_
      rw [map_cons, forwardNode]
      dsimp only
      rcases hi.eq_or_lt with rfl | hlt
      · -- the rightmost child: the parent is done too
        rw [if_neg (lt_irrefl _), after, behind_cellCount]
        exact ih hparent ⟨by omega, fun _ => by omega, .inr (by omega)⟩
      · rw [if_pos hlt]
        exact Reaches.upwards hparent hlt r

end Run

end Turso.BTree
