import Turso.Storage.BTree.Path

/-!
# Backward iteration

The counterpart of `Forward.lean` for `get_prev_record`.  A page is entered from its end.  On
an index page the cursor steps back before it enters the left child of a cell, so that it
comes back to the cell before; a table page stays at the cell whose left child was entered.
This is the one difference between the stacks of the two directions.

When a child is left, the source looks whether it was the left child of the cell the parent
is at, and steps back once more if so.  During backward iteration it never is, since the
children of a page are different (`retreatUpwards_cons`).
-/

namespace Turso.BTree

open List Resumable

variable {Payload : Type}
variable {isIndex : Bool}

/-- A page above the top of the stack, during backward iteration. -/
def backwardNode (store : Store Payload) (isIndex : Bool) (step : ℕ × ℕ) : Node where
  page := step.1
  cellIdx :=
    if step.2 < (store step.1).cellCount then (if isIndex then step.2 - 1 else step.2)
    else (store step.1).cellCount + 1
  cellCount := some (store step.1).cellCount

abbrev Tree.backwardNode (tree : Tree Payload) : ℕ × ℕ → Node :=
  BTree.backwardNode tree.store tree.isIndex

variable {st : Store Payload}

theorem backwardNode_of_lt {id i : ℕ} (hi : i < (st id).cellCount) :
    backwardNode st isIndex (id, i) =
      ⟨id, if isIndex then i - 1 else i, some (st id).cellCount⟩ := by
  rw [backwardNode, if_pos hi]

theorem backwardNode_cellCount {id : ℕ} :
    backwardNode st isIndex (id, (st id).cellCount) =
      ⟨id, (st id).cellCount + 1, some (st id).cellCount⟩ := by
  rw [backwardNode, if_neg (lt_irrefl _)]

/-! ## One turn -/

section Turn
variable {id : ℕ} {cellIdx : ℤ} {cellCount : Option ℤ}
  {ancestors : PageStack} {upwards r : Bool} (ans : List ReadAnswer)

/-- An interior page that was just entered: its rightmost child. -/
theorem getPrevRecord_rightmost (hright : (st id).rightmostPointer = some (st id).rightmost) :
    getPrevRecord st ans ⟨⟨id, i32Max, cellCount⟩ :: ancestors, false, none, r⟩ =
      readAndPush st ans (⟨id, (st id).cellCount + 1, cellCount⟩ :: ancestors)
        (st id).rightmost i32Max
        ⟨⟨id, i32Max, cellCount⟩ :: ancestors, false, none, r⟩
        (Iteration.mk · false none r) := by
  rw [getPrevRecord]
  simp only [hright, decide_true, Bool.not_false, Bool.and_self]
  rfl

/-- The cell index after the first part of a turn, on a page that is not an index page with a
cell still to be visited. -/
def retreated (page : Page Payload) (cellIdx : ℤ) : ℤ :=
  if page.cellCount ≤ cellIdx then page.cellCount - 1
  else if 0 ≤ cellIdx ∧ page.pageType ≠ .indexInterior then cellIdx - 1
  else cellIdx

/-- Where a turn goes that does not enter a rightmost child. -/
theorem getPrevRecord_eq
    (hright : (st id).rightmostPointer = none ∨ cellIdx ≠ i32Max ∨ upwards = true) :
    getPrevRecord st ans ⟨⟨id, cellIdx, cellCount⟩ :: ancestors, upwards, none, r⟩ =
      if ¬ (st id).cellCount ≤ cellIdx ∧ 0 ≤ cellIdx ∧ (st id).isIndex ∧ upwards then
        .done ⟨⟨id, cellIdx, cellCount⟩ :: ancestors, false, none, true⟩
      else if retreated (st id) cellIdx < 0 then
        let stack := retreatUpwards st (⟨id, retreated (st id) cellIdx, cellCount⟩ :: ancestors)
        if stack.head?.any (0 ≤ ·.cellIdx) then
          .again ⟨stack, upwards || !ancestors.isEmpty, none, r⟩ ans
        else .done ⟨stack, upwards || !ancestors.isEmpty, none, false⟩
      else if (st id).isLeaf then
        .done ⟨⟨id, retreated (st id) cellIdx, cellCount⟩ :: ancestors, upwards, none, true⟩
      else if (st id).isIndex ∧ upwards then
        .done ⟨⟨id, retreated (st id) cellIdx, cellCount⟩ :: ancestors, false, none, true⟩
      else
        match (st id).leftChildPage (retreated (st id) cellIdx).toNat with
        | none => .failed
        | some leftChild =>
          let cellIdx := if (st id).pageType = .indexInterior then
            retreated (st id) cellIdx - 1 else retreated (st id) cellIdx
          readAndPush st ans (⟨id, cellIdx, cellCount⟩ :: ancestors) leftChild i32Max
            ⟨⟨id, cellIdx, cellCount⟩ :: ancestors, upwards, some (.backwards leftChild), r⟩
            (Iteration.mk · false none r) := by
  rw [getPrevRecord]
  dsimp only
  rcases hright with hno | hne | rfl
  · rw [hno]
    cases decide (cellIdx = i32Max) && !upwards <;> rfl
  · rw [decide_eq_false hne, Bool.false_and]
    cases (st id).rightmostPointer <;> rfl
  · rw [Bool.not_true, Bool.and_false]
    cases (st id).rightmostPointer <;> rfl

theorem getPrevRecord_leftChild (hinterior : (st id).isLeaf = false)
    (hskip : ¬ ((st id).isIndex = true ∧ upwards = true)) (hmax : cellIdx ≠ i32Max) {i : ℕ}
    (hretreated : retreated (st id) cellIdx = i) (hi : i < (st id).cellCount)
    {entered : ℤ}
    (hentered : (if (st id).pageType = .indexInterior then (i : ℤ) - 1 else i) = entered) :
    getPrevRecord st ans ⟨⟨id, cellIdx, cellCount⟩ :: ancestors, upwards, none, r⟩ =
      readAndPush st ans (⟨id, entered, cellCount⟩ :: ancestors) ((st id).child i) i32Max
        ⟨⟨id, entered, cellCount⟩ :: ancestors, upwards, some (.backwards ((st id).child i)), r⟩
        (Iteration.mk · false none r) := by
  rw [getPrevRecord_eq ans (.inr (.inl hmax)), hretreated,
    if_neg (fun h => hskip ⟨h.2.2.1, h.2.2.2⟩), if_neg (by omega), if_neg (by simp [hinterior]),
    if_neg hskip, Int.toNat_natCast, Page.leftChildPage_of_lt hi]
  rw [hentered]

end Turn

/-! ## Leaving pages -/

section
variable {tree : Tree Payload} {height id : ℕ} {trail : List (ℕ × ℕ)}

theorem Path.child_injective (hpath : Path tree (height + 1) id trail) {first second : ℕ}
    (hfirst : first < second) (hsecond : second ≤ (tree.store id).cellCount) :
    (tree.store id).child first ≠ (tree.store id).child second := by
  intro heq
  have hnodup := hpath.pages_nodup.1
  rw [pages, nodup_cons, nodup_flatMap] at hnodup
  have hdisjoint := hnodup.2.2
  rw [pairwise_iff_getElem] at hdisjoint
  have := hdisjoint first second (by simp; omega) (by simp; omega) hfirst
  simp only [Function.onFun, getElem_range] at this
  exact this (mem_pages_self _ _ _) (heq ▸ mem_pages_self _ _ _)

variable {cellCount : Option ℤ}

/-- A page that is left does not make its parent step back. -/
theorem retreatUpwards_cons {parent index : ℕ}
    (hpath : Path tree height id ((parent, index) :: trail)) {cellIdx : ℤ}
    (hneg : cellIdx < 0) :
    retreatUpwards tree.store (⟨id, cellIdx, cellCount⟩ ::
        ((parent, index) :: trail).map tree.backwardNode) =
      retreatUpwards tree.store (((parent, index) :: trail).map tree.backwardNode) := by
  obtain ⟨hparent, hindex, rfl⟩ := hpath.parent
  have hwell := hparent.wellFormed
  rw [map_cons, retreatUpwards, if_neg (by simpa using hneg)]
  dsimp only
  rw [if_neg]
  rintro ⟨htype, hlow, hhigh, hleft⟩
  have hkind : tree.isIndex = true := by
    rw [← hwell.isIndex_eq, Page.isIndex]
    simp [show (tree.store parent).pageType = .indexInterior from htype]
  simp only [backwardNode, hkind, if_true] at hlow hhigh hleft
  -- an index page that is at a cell is at the one before the child it entered
  split at hlow
  · rename_i hlt
    rw [if_pos hlt] at hhigh hleft
    have hprev : ((index : ℤ) - 1).toNat < index := by omega
    rw [Page.leftChildPage_of_lt (by omega), Option.some.injEq] at hleft
    exact hparent.child_injective hprev hindex hleft
  · rename_i hge
    omega

end

/-! ## From one entry to the one before -/

/-- The cursor is on an entry of the tree, with the entries `rest` still to come, the nearest
first. -/
inductive OnEntryBack (tree : Tree Payload) : Iteration → Payload → List Payload → Prop
  | leaf {id index : ℕ} {trail : List (ℕ × ℕ)} {cellCount : Option ℤ}
      (hpath : Path tree 0 id trail) (hindex : index < (tree.store id).cellCount) :
      OnEntryBack tree
        ⟨⟨id, index, cellCount⟩ :: trail.map tree.backwardNode, false, none,
          true⟩
        ((tree.store id).cells.get ⟨index, hindex⟩).payload
        (before tree 0 trail ++
          ((tree.store id).cells.take index).map PageCell.payload).reverse
  | divider {height id index : ℕ} {trail : List (ℕ × ℕ)} {cellCount : Option ℤ}
      (hpath : Path tree (height + 1) id trail) (hindex : index < (tree.store id).cellCount)
      (hkind : tree.isIndex = true) :
      OnEntryBack tree
        ⟨⟨id, index, cellCount⟩ :: trail.map tree.backwardNode, false, none,
          true⟩
        ((tree.store id).cells.get ⟨index, hindex⟩).payload
        (before tree height ((id, index) :: trail) ++
          entries tree.store tree.isIndex height ((tree.store id).child index)).reverse

theorem OnEntryBack.record_eq {tree : Tree Payload} {iteration : Iteration} {entry : Payload}
    {rest : List Payload} (h : OnEntryBack tree iteration entry rest) :
    iteration.record tree.store = some entry := by
  cases h with
  | leaf hpath hj | divider hpath hj =>
    simp only [Iteration.record, Int.toNat_natCast, getElem?_eq_getElem hj]
    rfl

/-- The cursor is where the entries `entries` are to come: on the first, or at the end. -/
def PositionedBack (tree : Tree Payload) (iteration : Iteration) : List Payload → Prop
  | [] => iteration.hasRecord = false
  | entry :: rest => OnEntryBack tree iteration entry rest

/-- `get_prev_record` finishes where the entries `entries` are to come. -/
def ReachesBack (tree : Tree Payload) (iteration : Iteration) (entries : List Payload) : Prop :=
  ∃ final, Completes (getPrevRecord tree.store) iteration final ∧
    PositionedBack tree final entries

section Run
variable {tree : Tree Payload} {height id : ℕ} {trail : List (ℕ × ℕ)}

variable {p : Page Payload}

theorem retreated_of_le {cellIdx : ℤ} (h : p.cellCount ≤ cellIdx) :
    retreated p cellIdx = p.cellCount - 1 := if_pos h

theorem WellFormed.pageType_ne_indexInterior
    (h : WellFormed st isIndex height id) (hkind : height = 0 ∨ isIndex = false) :
    (st id).pageType ≠ .indexInterior := by
  rw [h.pageType_eq]
  rcases hkind with rfl | rfl
  · cases isIndex <;> simp [typeAt]
  · cases height <;> simp [typeAt]

/-- The pushed child of an interior page, with the parent as backward iteration leaves it. -/
theorem Path.push_back (hpath : Path tree (height + 1) id trail) {i : ℕ}
    (hi : i ≤ (tree.store id).cellCount) {cellIdx : ℤ} (cellCount : Option ℤ)
    (hcell : cellIdx = (backwardNode tree.store tree.isIndex (id, i)).cellIdx) :
    PageStack.push tree.store (⟨id, cellIdx, cellCount⟩ :: trail.map tree.backwardNode)
        ((tree.store id).child i) i32Max =
      some (⟨(tree.store id).child i, i32Max, none⟩ ::
        ((id, i) :: trail).map tree.backwardNode) := by
  have hpush := @Path.push _ tree height id i trail hpath hi
    tree.backwardNode (fun _ => rfl) cellIdx i32Max cellCount
  rw [hpush, hcell]
  rfl

/-- The last cell of a leaf comes first when the entries are reversed. -/
theorem reverse_append_cells {last : ℕ} (hlt : last < p.cellCount) (hlast : p.cellCount = last + 1)
    (front : List Payload) :
    (front ++ p.cells.map PageCell.payload).reverse = (p.cells.get ⟨last, hlt⟩).payload ::
        (front ++ (p.cells.take last).map PageCell.payload).reverse := by
  have hcells : p.cells = p.cells.take last ++ [p.cells.get ⟨last, hlt⟩] := by
    have htake := take_append_getElem hlt
    rw [take_of_length_le (show p.cells.length ≤ last + 1 from hlast.le)] at htake
    exact htake.symm
  conv_lhs => rw [hcells]
  rw [map_append, ← append_assoc, reverse_append]
  rfl

/-- A page that was just entered reaches the last entry below it. -/
theorem ReachesBack.enter (hpath : Path tree height id trail) (r : Bool) : ReachesBack tree
      ⟨⟨id, i32Max, none⟩ :: trail.map tree.backwardNode, false, none, r⟩
      (before tree height trail ++ entries tree.store tree.isIndex height id).reverse := by
  induction height generalizing id trail with
  | zero =>
    have hwell := hpath.wellFormed
    have hmax : ((tree.store id).cellCount : ℤ) ≤ i32Max := by
      have := hwell.cellCount_le
      rw [i32Max]
      omega
    have hturn := fun ans => @getPrevRecord_eq _ tree.store id i32Max none
      (trail.map tree.backwardNode) false r ans
      (.inl hwell.rightmostPointer_zero)
    simp only [hmax, not_true_eq_false, false_and, if_false, retreated_of_le hmax,
      hwell.isLeaf_zero, if_true] at hturn
    rcases Nat.eq_zero_or_pos (tree.store id).cellCount with hzero | hpos
    · have hnil : (tree.store id).cells = [] := length_eq_zero_iff.1 hzero
      obtain rfl := hpath.trail_eq_nil hnil
      refine ⟨⟨[⟨id, -1, none⟩], false, none, false⟩, .done fun ans => (hturn ans).trans ?_, ?_⟩
      · rw [hzero]
        simp [retreatUpwards]
      · rw [entries, hnil]
        rfl
    · obtain ⟨last, hlast⟩ := Nat.exists_eq_add_one.2 hpos
      have hlt : last < (tree.store id).cellCount := by omega
      refine ⟨_, .done fun ans => (hturn ans).trans (if_neg (by omega)), ?_⟩
      have hon := @OnEntryBack.leaf _ tree id last trail none hpath hlt
      have hcast : ((tree.store id).cellCount : ℤ) - 1 = last := by omega
      rw [entries, reverse_append_cells hlt hlast, hcast]
      exact hon
  | succ height ih =>
    have hwell := hpath.wellFormed
    have hpush := @Path.push_back _ tree height id trail hpath _ le_rfl
      ((tree.store id).cellCount + 1) none (by simp [backwardNode])
    rw [Page.child_cellCount] at hpush
    obtain ⟨final, hcompletes, hfinal⟩ := ih (hpath.child (le_refl _))
    rw [Page.child_cellCount] at hcompletes
    refine ⟨final, completes_readAndPush hpush
      (fun ans => getPrevRecord_rightmost ans hwell.rightmostPointer_succ)
      (fun ans => getPrevRecord_rightmost ans hwell.rightmostPointer_succ) rfl
      hcompletes, ?_⟩
    rw [entries_eq_ahead_behind tree.store tree.isIndex (le_refl _), behind_cellCount,
      append_nil, ← append_assoc]
    exact hfinal

section
variable (hpath : Path tree (height + 1) id trail)
include hpath

theorem ReachesBack.descend {i : ℕ} (hi : i < (tree.store id).cellCount) {cellIdx : ℤ}
    {upwards r : Bool} (hmax : cellIdx ≠ i32Max)
    (hretreated : retreated (tree.store id) cellIdx = i)
    (hupwards : tree.isIndex = false ∨ upwards = false) :
    ReachesBack tree ⟨⟨id, cellIdx, cellCount⟩ :: trail.map tree.backwardNode, upwards, none, r⟩
      (before tree height ((id, i) :: trail) ++
        entries tree.store tree.isIndex height ((tree.store id).child i)).reverse := by
  have hwell := hpath.wellFormed
  have hskip := hwell.not_index_upwards hupwards
  -- the index of the parent once the child is entered
  have hnode : (if (tree.store id).pageType = .indexInterior then (i : ℤ) - 1 else i) =
      (backwardNode tree.store tree.isIndex (id, i)).cellIdx := by
    rw [hwell.pageType_eq, backwardNode]
    rw [if_pos hi]
    cases tree.isIndex <;> simp [typeAt]
  have hpush := hpath.push_back hi.le cellCount rfl
  obtain ⟨final, hcompletes, hfinal⟩ := ReachesBack.enter (hpath.child hi.le) r
  exact ⟨final, completes_readAndPush hpush
    (fun ans => getPrevRecord_leftChild ans hwell.isLeaf_succ hskip hmax hretreated hi hnode)
    (fun _ => rfl) rfl hcompletes, hfinal⟩

/-- Back on a table page after the child number `i + 1`. -/
theorem ReachesBack.upwards_table {i : ℕ} (hi : i < (tree.store id).cellCount)
    (hkind : tree.isIndex = false) (r : Bool) :
    ReachesBack tree ⟨((id, i + 1) :: trail).map tree.backwardNode, true, none, r⟩
      (before tree height ((id, i + 1) :: trail)).reverse := by
  have hn := hpath.wellFormed.cellCount_le
  have htype := hpath.wellFormed.pageType_ne_indexInterior (.inr hkind)
  -- the cell of a table page is no entry
  have hlist : before tree height ((id, i + 1) :: trail) = before tree height ((id, i) :: trail) ++
        entries tree.store tree.isIndex height ((tree.store id).child i) := by
    rw [before, before, ahead_succ hi, hkind]
    simp [divider]
  rw [hlist, map_cons]
  rcases Nat.lt_or_ge (i + 1) (tree.store id).cellCount with hlt | hge
  · rw [Tree.backwardNode, backwardNode_of_lt hlt, hkind, if_neg Bool.false_ne_true, ← hkind]
    refine ReachesBack.descend hpath hi (by rw [i32Max]; omega) ?_ (.inl hkind)
    rw [retreated, if_neg (by omega), if_pos ⟨by omega, htype⟩]
    omega
  · have heq : i + 1 = (tree.store id).cellCount := by omega
    rw [heq, Tree.backwardNode, backwardNode_cellCount]
    refine ReachesBack.descend hpath hi (by rw [i32Max]; omega) ?_ (.inl hkind)
    rw [retreated_of_le (by omega)]
    omega

/-- Back on an index page after the child number `index + 1`: the cell before it. -/
theorem ReachesBack.upwards_index {index : ℕ} (hindex : index < (tree.store id).cellCount)
    (hkind : tree.isIndex = true) (record : Bool) :
    ReachesBack tree ⟨((id, index + 1) :: trail).map tree.backwardNode, true, none, record⟩
      (before tree height ((id, index + 1) :: trail)).reverse := by
  have hwell := hpath.wellFormed
  have hisIndex : (tree.store id).isIndex = true := hwell.isIndex_eq.trans hkind
  have hlist : (before tree height ((id, index + 1) :: trail)).reverse =
      ((tree.store id).cells.get ⟨index, hindex⟩).payload ::
        (before tree height ((id, index) :: trail) ++
          entries tree.store tree.isIndex height ((tree.store id).child index)).reverse := by
    rw [before, before, ahead_succ hindex, hkind]
    simp [divider]
  refine ⟨⟨⟨id, index, some (tree.store id).cellCount⟩ ::
    trail.map tree.backwardNode, false, none, true⟩,
    .done fun ans => ?_, ?_⟩
  · rw [map_cons, Tree.backwardNode]
    rcases Nat.lt_or_ge (index + 1) (tree.store id).cellCount with hlt | hge
    · rw [backwardNode_of_lt hlt, hkind, if_pos rfl, getPrevRecord_eq ans (.inr (.inr rfl)),
        if_pos ⟨by omega, by omega, hisIndex, rfl⟩]
      simp
    · have heq : index + 1 = (tree.store id).cellCount := by omega
      have hretreated : retreated (tree.store id) ((tree.store id).cellCount + 1) = index := by
        rw [retreated_of_le (by omega)]
        omega
      rw [heq, backwardNode_cellCount, getPrevRecord_eq ans (.inr (.inr rfl)), hretreated,
        if_neg (fun h => h.1 (by omega)), if_neg (by omega), if_neg (by simp [hwell.isLeaf_succ]),
        if_pos ⟨hisIndex, rfl⟩]
  · rw [hlist]
    exact .divider hpath hindex hkind

end

theorem retreatUpwards_of_nonneg {node : Node} {rest : PageStack}
    (hnode : 0 ≤ node.cellIdx) : retreatUpwards st (node :: rest) = node :: rest := by
  cases rest with
  | nil => rw [retreatUpwards]
  | cons parent rest => rw [retreatUpwards, if_pos hnode]

/-- Where the pages that are left lead to: a page with entries before, or the start of the
tree. -/
def Settles (tree : Tree Payload) (stack : PageStack) (record : Bool) (entries : List Payload) :
    Prop :=
  if stack.head?.any (0 ≤ ·.cellIdx) then ReachesBack tree ⟨stack, true, none, record⟩ entries
  else entries = []

/-- A turn that leaves its page. -/
theorem ReachesBack.of_settles {cellIdx : ℤ} {upwards r : Bool}
    (hright : (tree.store id).rightmostPointer = none ∨ cellIdx ≠ i32Max ∨ upwards = true)
    (hvisited : ¬ (¬ (tree.store id).cellCount ≤ cellIdx ∧ 0 ≤ cellIdx ∧
      (tree.store id).isIndex = true ∧ upwards = true))
    (hneg : retreated (tree.store id) cellIdx < 0) {entries : List Payload}
    (hsettles : Settles tree (retreatUpwards tree.store
      (⟨id, retreated (tree.store id) cellIdx, cellCount⟩ ::
        trail.map tree.backwardNode)) r entries) :
    ReachesBack tree ⟨⟨id, cellIdx, cellCount⟩ :: trail.map tree.backwardNode, upwards, none,
        r⟩ entries := by
  have hturn := fun ans => @getPrevRecord_eq _ tree.store id cellIdx cellCount
    (trail.map tree.backwardNode) upwards r ans hright
  simp only [if_neg hvisited, if_pos hneg] at hturn
  rw [Settles] at hsettles
  split at hsettles
  · rename_i hmore
    -- the root is never left, so a page above was reached
    have htrail : trail.map tree.backwardNode ≠ [] := by
      intro hnil
      rw [hnil, retreatUpwards] at hmore
      simp [not_le.2 hneg] at hmore
    have hflag : (upwards || !(trail.map tree.backwardNode).isEmpty) =
        true := by
      rw [isEmpty_eq_false_iff.2 htrail, Bool.not_false, Bool.or_true]
    simp only [hmore, hflag, if_true] at hturn
    obtain ⟨final, hcompletes, hfinal⟩ := hsettles
    refine ⟨final, .step (fun ans => ⟨ans, ?_⟩) hcompletes, hfinal⟩
    rw [hturn]
    exact .again _ _
  · rename_i hmore
    rw [hsettles]
    simp only [if_neg hmore] at hturn
    exact ⟨_, .done hturn, rfl⟩

/-- Back on an interior page after its first child. -/
theorem ReachesBack.upwards_first (hpath : Path tree (height + 1) id trail)
    (hnode : 0 ≤ (backwardNode tree.store tree.isIndex (id, 0)).cellIdx) (r : Bool)
    (hsettles : ∀ {cellIdx : ℤ}, cellIdx < 0 → Settles tree (retreatUpwards tree.store
      (⟨id, cellIdx, some (tree.store id).cellCount⟩ :: trail.map tree.backwardNode)) r
      (before tree (height + 1) trail).reverse) :
    ReachesBack tree ⟨backwardNode tree.store tree.isIndex (id, 0) ::
        trail.map tree.backwardNode, true, none, r⟩
      (before tree (height + 1) trail).reverse := by
  have hwell := hpath.wellFormed
  rcases Nat.eq_zero_or_pos (tree.store id).cellCount with hzero | hpos
  · have heq : backwardNode tree.store tree.isIndex (id, 0) =
        ⟨id, (tree.store id).cellCount + 1, some (tree.store id).cellCount⟩ := by
      rw [← backwardNode_cellCount, hzero]
    have hneg : retreated (tree.store id) ((tree.store id).cellCount + 1) < 0 := by
      rw [retreated_of_le (by omega)]
      omega
    rw [heq]
    exact ReachesBack.of_settles (.inr (.inr rfl)) (fun h => h.1 (by omega)) hneg (hsettles hneg)
  · rw [backwardNode_of_lt hpos] at hnode ⊢
    cases hkind : tree.isIndex with
    | true => simp [hkind] at hnode
    | false =>
      have hneg : retreated (tree.store id) 0 < 0 := by
        rw [retreated, if_neg (by omega),
          if_pos ⟨le_rfl, hwell.pageType_ne_indexInterior (.inr hkind)⟩]
        decide
      have hvisited : ¬ (¬ ((tree.store id).cellCount : ℤ) ≤ 0 ∧ (0 : ℤ) ≤ 0 ∧
          (tree.store id).isIndex = true ∧ true = true) := by
        rw [hwell.isIndex_eq, hkind]
        simp
      have hreaches := ReachesBack.of_settles (.inr (.inr rfl)) hvisited hneg (hsettles hneg)
      simpa using hreaches

/-- A page that is done goes on with the entries before its path. -/
theorem settles_retreatUpwards (hpath : Path tree height id trail) {cellIdx : ℤ}
    (hneg : cellIdx < 0) (r : Bool) :
    Settles tree (retreatUpwards tree.store
      (⟨id, cellIdx, cellCount⟩ :: trail.map tree.backwardNode)) r
      (before tree height trail).reverse := by
  induction trail generalizing height id cellIdx cellCount with
  | nil => simp [Settles, retreatUpwards, not_le.2 hneg, before]
  | cons step trail ih =>
    obtain ⟨parent, i⟩ := step
    obtain ⟨hparent, hi, -⟩ := hpath.parent
    rw [retreatUpwards_cons hpath hneg, map_cons]
    by_cases hnode : 0 ≤ (backwardNode tree.store tree.isIndex (parent, i)).cellIdx
    · rw [retreatUpwards_of_nonneg hnode, Settles, if_pos (by simpa using hnode)]
      cases i with
      | zero =>
        -- no child is left of the one that was entered: the parent is done too
        have hlist : before tree height ((parent, 0) :: trail) =
            before tree (height + 1) trail := by rw [before, ahead_zero, append_nil]
        rw [hlist]
        exact ReachesBack.upwards_first hparent hnode r fun hneg => ih hparent hneg
      | succ i =>
        have hlt : i < (tree.store parent).cellCount := hi
        cases hkind : tree.isIndex with
        | false => exact hkind ▸ ReachesBack.upwards_table hparent hlt hkind r
        | true => exact hkind ▸ ReachesBack.upwards_index hparent hlt hkind r
    · -- an index page that was left at its first child: it is left in the same turn
      have ha : i = 0 := by
        rcases hi.eq_or_lt with rfl | hlt
        · rw [backwardNode_cellCount] at hnode
          exact absurd (by dsimp only; omega) hnode
        · rw [backwardNode_of_lt hlt] at hnode
          dsimp only at hnode
          split at hnode <;> omega
      subst ha
      rw [before, ahead_zero, append_nil]
      exact ih hparent (not_le.1 hnode)

/-- `get_prev_record` goes from an entry to the one before. -/
theorem OnEntryBack.reaches {iteration : Iteration} {entry : Payload} {rest : List Payload}
    (h : OnEntryBack tree iteration entry rest) : ReachesBack tree iteration rest := by
  cases h with
  | @leaf id index trail cellCount hpath hindex =>
    have hwell := hpath.wellFormed
    have htype := hwell.pageType_ne_indexInterior (.inl rfl)
    have hretreated : retreated (tree.store id) index = index - 1 := by
      rw [retreated, if_neg (by omega), if_pos ⟨by omega, htype⟩]
    cases index with
    | zero =>
      rw [take_zero, map_nil, append_nil]
      have hneg : retreated (tree.store id) (0 : ℕ) < 0 := by
        rw [hretreated]
        decide
      exact ReachesBack.of_settles (.inl hwell.rightmostPointer_zero) (by simp) hneg
        (settles_retreatUpwards hpath hneg true)
    | succ index =>
      have hlt : index < (tree.store id).cellCount := by omega
      have hcast : ((index + 1 : ℕ) : ℤ) - 1 = index := by omega
      have htake : (tree.store id).cells.take (index + 1) = (tree.store id).cells.take index ++
          [(tree.store id).cells.get ⟨index, hlt⟩] := (take_append_getElem hlt).symm
      rw [htake, map_append, ← append_assoc, reverse_append]
      rw [hcast] at hretreated
      refine ⟨_, .done fun ans => ?_, @OnEntryBack.leaf _ tree id index trail cellCount hpath hlt⟩
      rw [getPrevRecord_eq ans (.inl hwell.rightmostPointer_zero), hretreated,
        if_neg (by simp), if_neg (by omega), if_pos hwell.isLeaf_zero]
  | @divider height id index trail cellCount hpath hindex hkind =>
    have hwell := hpath.wellFormed
    have hcount := hwell.cellCount_le
    have htype : (tree.store id).pageType = .indexInterior := by
      rw [hwell.pageType_eq, hkind]
      rfl
    refine ReachesBack.descend hpath hindex (by rw [i32Max]; omega) ?_ (.inr rfl)
    rw [retreated, if_neg (by omega), if_neg (fun h => h.2 htype)]

end Run

end Turso.BTree
