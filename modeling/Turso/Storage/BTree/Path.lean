import Turso.Storage.BTree.Cursor

/-!
# Paths in a B-tree

The pages of a cursor's stack form a path from the root.  `Path tree height id trail` says so
for the page `id` at some height; `trail` lists the pages above it with the number of the
child that was entered.  The entries of the tree are those before the path, those of the
page, and those after the path (`Path.records_eq`).

A page is never its own ancestor, and the depth is bounded, so a push along a path succeeds
(`Path.push`).
-/

namespace Turso.BTree

open List Resumable

variable {Payload : Type}

/-- The path to the page `id`: the pages above it, nearest first, with the child entered. -/
inductive Path (tree : Tree Payload) : ℕ → ℕ → List (ℕ × ℕ) → Prop
  | root : Path tree tree.height tree.root []
  | child {height id : ℕ} {trail : List (ℕ × ℕ)} {index : ℕ} :
      Path tree (height + 1) id trail → index ≤ (tree.store id).cellCount →
        Path tree height ((tree.store id).child index) ((id, index) :: trail)

/-- The entries after the subtree at the end of a path. -/
def after (tree : Tree Payload) : ℕ → List (ℕ × ℕ) → List Payload
  | _, [] => []
  | height, (id, index) :: trail =>
    behind tree.isIndex (entries tree.store tree.isIndex height) (tree.store id) index ++
      after tree (height + 1) trail

/-- The entries before the subtree at the end of a path. -/
def before (tree : Tree Payload) : ℕ → List (ℕ × ℕ) → List Payload
  | _, [] => []
  | height, (id, index) :: trail =>
    before tree (height + 1) trail ++
      ahead tree.isIndex (entries tree.store tree.isIndex height) (tree.store id) index

section
variable {tree : Tree Payload} {height id index : ℕ} {trail : List (ℕ × ℕ)}

variable (st : Store Payload)

theorem mem_pages_self (height id : ℕ) : id ∈ pages st height id := by
  cases height <;> simp [pages]

theorem pages_child_sublist (height : ℕ) (hi : index ≤ (st id).cellCount) :
    (pages st height ((st id).child index)).Sublist
      ((range ((st id).cellCount + 1)).flatMap fun index =>
        pages st height ((st id).child index)) := by
  apply sublist_flatten_of_mem
  exact mem_map.2 ⟨index, mem_range.2 (by omega), rfl⟩

theorem Path.wellFormed (h : Path tree height id trail) :
    WellFormed tree.store tree.isIndex height id := by
  induction h with
  | root => exact tree.wellFormed
  | child _ hi ih => exact ih.child hi

theorem Path.length_eq (h : Path tree height id trail) : height + trail.length = tree.height := by
  induction h with
  | root => rfl
  | child _ _ ih =>
    rw [length_cons]
    omega

/-- The pages below the end of a path are all different, and different from those above. -/
theorem Path.pages_nodup (h : Path tree height id trail) : (pages tree.store height id).Nodup ∧
      ∀ step ∈ trail, step.1 ∉ pages tree.store height id := by
  induction h with
  | root => exact ⟨tree.nodup, by simp⟩
  | @child height id trail i _ hi ih =>
    have hsub := pages_child_sublist tree.store height hi
    rw [pages, nodup_cons] at ih
    refine ⟨ih.1.2.sublist hsub, forall_mem_cons.2 ⟨fun hm => ?_, ?_⟩⟩
    · exact ih.1.1 (hsub.subset hm)
    · intro step hstep hm
      exact ih.2 step hstep (mem_cons_of_mem _ (hsub.subset hm))

/-- A push along a path succeeds, and notes the cell count of the parent. -/
theorem Path.push (h : Path tree (height + 1) id trail)
    (hi : index ≤ (tree.store id).cellCount) {mark : ℕ × ℕ → Node}
    (hmark : ∀ step, (mark step).page = step.1) (cellIdx start : ℤ) (cellCount : Option ℤ) :
    PageStack.push tree.store (⟨id, cellIdx, cellCount⟩ :: trail.map mark)
        ((tree.store id).child index) start =
      some (⟨(tree.store id).child index, start, none⟩ ::
        ⟨id, cellIdx, some (tree.store id).cellCount⟩ :: trail.map mark) := by
  have hchild := h.child hi
  have hnew := hchild.pages_nodup.2
  have hself := mem_pages_self tree.store height ((tree.store id).child index)
  have hfresh : ¬ (((⟨id, cellIdx, cellCount⟩ : Node) :: trail.map mark).any
      (·.page = (tree.store id).child index)) = true := by
    simp only [any_eq_true, decide_eq_true_eq, not_exists, not_and]
    intro node hnode heq
    rcases mem_cons.1 hnode with rfl | hnode
    · exact hnew (id, index) mem_cons_self (heq ▸ hself)
    · obtain ⟨step, hstep, rfl⟩ := mem_map.1 hnode
      rw [hmark] at heq
      exact hnew step (mem_cons_of_mem _ hstep) (heq ▸ hself)
  have hdepth : ¬ maxDepth ≤ ((⟨id, cellIdx, cellCount⟩ : Node) :: trail.map mark).length := by
    have hlen := hchild.length_eq
    have hheight := tree.height_lt
    simp only [length_cons, length_map] at hlen ⊢
    omega
  rw [PageStack.push, if_neg hfresh, if_neg hdepth]

/-- Only the root may be an empty leaf. -/
theorem Path.trail_eq_nil (h : Path tree 0 id trail) (hcells : (tree.store id).cells = []) :
    trail = [] := by
  generalize hheight : 0 = height at h
  cases h with
  | root => rfl
  | child hparent hi => exact absurd hcells ((hparent.wellFormed.2 _ hi).2 hheight.symm)

theorem Path.parent {parent : ℕ} (h : Path tree height id ((parent, index) :: trail)) :
    Path tree (height + 1) parent trail ∧ index ≤ (tree.store parent).cellCount ∧
      id = (tree.store parent).child index := by
  generalize htrail : (parent, index) :: trail = steps at h
  cases h with
  | root => cases htrail
  | child hparent hindex =>
    cases htrail
    exact ⟨hparent, hindex, rfl⟩

/-! ## The entries around a path -/

theorem entries_eq_ahead_behind (isIndex : Bool) (hi : index ≤ (st id).cellCount) :
    entries st isIndex (height + 1) id = ahead isIndex (entries st isIndex height) (st id) index ++
        (entries st isIndex height ((st id).child index) ++
          behind isIndex (entries st isIndex height) (st id) index) := by
  rw [← walk_drop hi, entries]
  have hsplit : ∀ (a b : List (PageCell Payload)) (rightmost : ℕ),
      walk isIndex (entries st isIndex height) (a ++ b) rightmost = (a.flatMap fun cell =>
          entries st isIndex height cell.leftChild ++ divider isIndex cell) ++
          walk isIndex (entries st isIndex height) b rightmost := by
    intro a b rightmost
    induction a with
    | nil => rfl
    | cons cell rest ih =>
      rw [cons_append, walk, ih, flatMap_cons]
      simp only [append_assoc]
  rw [ahead, ← hsplit, take_append_drop]

theorem Path.records_eq (h : Path tree height id trail) : tree.records = before tree height trail ++
      (entries tree.store tree.isIndex height id ++ after tree height trail) := by
  induction h with
  | root => simp [before, after, Tree.records]
  | @child height id trail i _ hi ih =>
    rw [ih, entries_eq_ahead_behind tree.store tree.isIndex hi, before, after]
    simp only [append_assoc]

end

/-! ## Reading a page on the way down -/

/-- Where a read followed by a push leads: to the pushed page, or back to waiting. -/
theorem readAndPush_resumes {State : Type} {st : Store Payload} {stack stack' : PageStack}
    {target : ℕ} {start : ℤ} (hpush : stack.push st target start = some stack')
    (waiting : State) (pushed : PageStack → State) (ans : List ReadAnswer) :
    (∃ rest, (readAndPush st ans stack target start waiting pushed).Resumes (pushed stack') rest) ∨
      ∃ a rest, ans = a :: rest ∧
        (readAndPush st ans stack target start waiting pushed).Resumes waiting rest := by
  cases ans with
  | nil =>
    refine .inl ⟨[], ?_⟩
    rw [readAndPush, hpush]
    exact .again _ _
  | cons answer rest =>
    cases answer with
    | spill => exact .inr ⟨_, rest, rfl, .yield _ _⟩
    | ready loading =>
      refine .inl ⟨rest, ?_⟩
      rw [readAndPush, hpush]
      cases loading with
      | false => exact .again _ _
      | true => exact .yield _ _

/-- A turn that reads and pushes, and that waits in a state which does the same again. -/
theorem completes_readAndPush {State : Type} {st : Store Payload}
    {turn : List ReadAnswer → State → Turn State ReadAnswer} {stack stack' : PageStack}
    {target : ℕ} {i : ℤ} {start waiting final : State} {pushed pushed' : PageStack → State}
    (hpush : stack.push st target i = some stack')
    (hstart : ∀ ans, turn ans start = readAndPush st ans stack target i waiting pushed)
    (hwaiting : ∀ ans, turn ans waiting = readAndPush st ans stack target i waiting pushed')
    (heq : pushed' stack' = pushed stack') (hnx : Completes turn (pushed stack') final) :
    Completes turn start final := by
  refine @Completes.wait _ _ turn _ _ _ (fun s => s = start ∨ s = waiting) ?_ (.inl rfl) hnx
  rintro s (rfl | rfl) ans
  · rw [hstart]
    rcases readAndPush_resumes hpush waiting pushed ans with h | ⟨first, rest, rfl, h⟩
    · exact .inl h
    · exact .inr ⟨first, rest, waiting, rfl, .inr rfl, h⟩
  · rw [hwaiting, ← heq]
    rcases readAndPush_resumes hpush s pushed' ans with h | ⟨first, rest, rfl, h⟩
    · exact .inl h
    · exact .inr ⟨first, rest, s, rfl, .inr rfl, h⟩

end Turso.BTree
