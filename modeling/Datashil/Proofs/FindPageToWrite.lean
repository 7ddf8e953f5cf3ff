import Datashil.Proofs.TreeInsert

/-! `FindPageToWrite` prepares the tree a store holds. -/

namespace Datashil
open Library LeafPage BTree

namespace Tree
variable {h : Nat} {tree tree' : Tree h} {split : Option (Nat × Tree h)} {cut : Nat → Nat → Prop}
  {key size target low high : Nat}

def leftPids (left : List (Tree h × Nat)) : List (Nat × Nat) := left.map fun entry => (entry.1.pid, entry.2)
def rightPids (right : List (Nat × Tree h)) : List (Nat × Nat) :=
  right.map fun entry => (entry.1, entry.2.pid)

theorem map_pid_close {left : List (Tree h × Nat)} {child : Tree h} {right : List (Nat × Tree h)} :
    (Row.close left child right).map pid = Row.close (leftPids left) child.pid (rightPids right) :=
  Row.map_close ..

@[simp] theorem length_leftPids (left : List (Tree h × Nat)) :
    (leftPids left).length = left.length := by
  simp [leftPids]
@[simp] theorem length_rightPids (right : List (Nat × Tree h)) : (rightPids right).length = right.length := by
  simp [rightPids]

theorem found_pids {left : List (Tree h × Nat)} {right : List (Nat × Tree h)}
    (found : Row.Found left key right) :
    Row.Found (leftPids left) key (rightPids right) := found.map

theorem holds_focus {pages : Nat → Page} {id : Nat} {left : List (Tree h × Nat)} {child : Tree h}
    {right : List (Nat × Tree h)} : Holds (h := h + 1) pages ⟨id, Row.close left child right⟩ ↔
      (∃ page, pages id = .internal page ∧ page.pageId = id ∧
        page.Shows (Row.close (leftPids left) child.pid (rightPids right))) ∧
      (∀ sibling key, (sibling, key) ∈ left → Holds pages sibling) ∧ Holds pages child ∧
      (∀ key sibling, (key, sibling) ∈ right → Holds pages sibling) := by
  rw [holds_node, map_pid_close]
  refine and_congr_right fun _ => ⟨?_, ?_⟩
  · intro all
    exact ⟨fun sibling key member => all sibling (Row.mem_children_close.mpr (.inl ⟨key, member⟩)),
      all child (Row.mem_children_close.mpr (.inr (.inl rfl))),
      fun key sibling member => all sibling (Row.mem_children_close.mpr (.inr (.inr ⟨key, member⟩)))⟩
  · rintro ⟨lefts, here, rights⟩ other member
    rcases Row.mem_children_close.mp member with ⟨key, inside⟩ | rfl | ⟨key, inside⟩
    · exact lefts other key inside
    · exact here
    · exact rights key other inside

theorem Placed.pid (placed : Placed key size tree tree' split target) : tree'.pid = tree.pid := by
  cases h with
  | zero =>
    cases placed_leaf.mp placed with
    | fits => rfl
    | splits crowded halved => exact halved.leftIds.1
  | succ h =>
    obtain ⟨id, row⟩ := tree
    obtain ⟨left, child, right, child', split', rfl, found, below, absorbed⟩ := placed_node.mp placed
    cases absorbed <;> rfl

def reportOf : Option (Nat × Tree h) → SplitReport
  | none => ⟨false, 0, 0⟩
  | some (boundary, new) => ⟨true, new.pid, boundary⟩

/-- From a store that holds a tree to one that holds the prepared one. -/
structure PreparedState (st st' : BTree) (tree tree' : Tree h) (split : Option (Nat × Tree h)) : Prop where
  holds : Holds st'.pages tree'
  holdsNew : ∀ boundary new, split = some (boundary, new) → Holds st'.pages new
  root : st'.rootPageId = st.rootPageId
  grows : st.newPageOffsetIndex ≤ st'.newPageOffsetIndex
  ids : ∃ fresh, (tree'.pids ++ splitPids split).Perm (tree.pids ++ fresh) ∧ fresh.Nodup ∧
    ∀ pid ∈ fresh, st.newPageOffsetIndex ≤ pid ∧ pid < st'.newPageOffsetIndex
  frame : ∀ pid, pid ∉ tree.pids → pid < st.newPageOffsetIndex → st'.pages pid = st.pages pid

theorem PreparedState.mem {st st' : BTree} (prepared : PreparedState st st' tree tree' split) {pid : Nat}
    (member : pid ∈ tree'.pids ∨ pid ∈ splitPids split) :
    pid ∈ tree.pids ∨ (st.newPageOffsetIndex ≤ pid ∧ pid < st'.newPageOffsetIndex) := by
  obtain ⟨fresh, perm, -, range⟩ := prepared.ids
  rcases List.mem_append.mp (perm.mem_iff.mp (List.mem_append.mpr member)) with old | new
  · exact .inl old
  · exact .inr (range pid new)

/-- Splits of the leaf of a key leave no key on both sides of the cut. -/
def CleanSplit (cut : Nat → Nat → Prop) (page : LeafPage) : Prop :=
  ∀ newPid left right boundaryKey, Halved page newPid left right boundaryKey → Separated cut left right

/-- What has to be known of the leaf of a key before it may be split: the cut is
clean, and a boundary that may equal later separators comes after all of them. -/
structure Splittable (cut : Nat → Nat → Prop) (key size : Nat) (tree : Tree h) : Prop where
  clean : ∀ leaf ∈ tree.leaves, Located key leaf.pageId tree → ¬ leaf.HasRoom size → CleanSplit cut leaf
  last : (∀ a b, cut a b → a < b) ∨
    ∀ leaf ∈ tree.leaves, Located key leaf.pageId tree → ¬ leaf.HasRoom size →
      tree.leaves.getLast? = some leaf

theorem leaves_ne_nil : tree.leaves ≠ [] := by
  induction h with
  | zero => simp [leaves]
  | succ h ih =>
    obtain ⟨id, ⟨head, rest⟩⟩ := tree
    simp [leaves, Row.trail, ih]

theorem Splittable.child {id : Nat} {left : List (Tree h × Nat)} {child : Tree h}
    {right : List (Nat × Tree h)}
    (splittable : Splittable (h := h + 1) cut key size ⟨id, Row.close left child right⟩)
    (found : Row.Found left key right)
    (nodup : (pids (h := h + 1) ⟨id, Row.close left child right⟩).Nodup) : Splittable cut key size child := by
  have upward : ∀ leaf ∈ child.leaves, Located key leaf.pageId child →
      leaf ∈ leaves (h := h + 1) ⟨id, Row.close left child right⟩ ∧
        Located (h := h + 1) key leaf.pageId ⟨id, Row.close left child right⟩ := fun leaf member located =>
    ⟨mem_leaves_node.mpr ⟨child, Row.mem_children_close.mpr (.inr (.inl rfl)), member⟩, left, child,
      right, rfl, found, located⟩
  refine ⟨?_, ?_⟩
  · intro leaf member located
    obtain ⟨member, located⟩ := upward leaf member located
    exact splittable.clean leaf member located
  · rcases splittable.last with strict | last
    · exact .inl strict
    · right
      intro leaf member located crowded
      obtain ⟨above, located⟩ := upward leaf member located
      have ends := last leaf above located crowded
      rw [leaves_focus, ← List.append_assoc] at ends
      cases right with
      | nil =>
        simp only [Row.after_nil, List.append_nil] at ends
        rwa [List.getLast?_append_of_ne_nil _ leaves_ne_nil] at ends
      | cons entry right =>
        -- The last leaf would be in a sibling as well.
        obtain ⟨next, sibling⟩ := entry
        rw [List.getLast?_append_of_ne_nil _ (by simp [leaves_ne_nil])] at ends
        have inside := List.mem_of_getLast? ends
        obtain ⟨⟨k, s⟩, among, found | found⟩ := (Row.mem_after _ _).mp inside
        · simp at found
        · have apart := ((focused nodup).right k s among).2 leaf.pageId (pageId_mem_pids found)
          exact absurd (pageId_mem_pids member) apart.2

/-- A split that reaches the top started at a leaf without room. -/
theorem Prepared.crowded (prepared : Prepared cut key size tree tree' split target) {boundary : Nat}
    {new : Tree h}
    (splits : split = some (boundary, new)) : ∃ leaf ∈ tree.leaves, Located key leaf.pageId tree ∧
      ¬ leaf.HasRoom size := by
  induction h generalizing boundary with
  | zero =>
    subst splits
    cases prepared_leaf.mp prepared with
    | splits crowded => exact ⟨tree, by simp, rfl, crowded⟩
  | succ h ih =>
    obtain ⟨id, row⟩ := tree
    obtain ⟨left, child, right, child', split', rfl, bracket, below, spliced⟩ := prepared_node.mp prepared
    subst splits
    cases spliced with
    | burst =>
      obtain ⟨leaf, member, located, crowded⟩ := ih below rfl
      exact ⟨leaf, mem_leaves_node.mpr ⟨child, Row.mem_children_close.mpr (.inr (.inl rfl)), member⟩,
        ⟨left, child, right, rfl, bracket, located⟩, crowded⟩

/-- The boundary of a split child goes right behind it. -/
theorem Prepared.bracket (rel : Cut cut) {id : Nat} {left : List (Tree h × Nat)} {child child' : Tree h}
    {right : List (Nat × Tree h)} {boundary : Nat} {new : Tree h}
    (prepared : Prepared cut key size child child' (some (boundary, new)) target)
    (splittable : Splittable (h := h + 1) cut key size ⟨id, Row.close left child right⟩)
    (key_found : Row.Found left key right)
    (nodup : (pids (h := h + 1) ⟨id, Row.close left child right⟩).Nodup)
    (within : Within (h := h + 1) cut low ⟨id, Row.close left child right⟩ high) :
    Row.Bracket left boundary right := by
  have sorted := within.sorted_keys rel
  rw [Row.keys_close, List.pairwise_append] at sorted
  obtain ⟨-, here, -⟩ := Row.chain_close.mp (within_node.mp within)
  obtain ⟨before, after⟩ := prepared.within rel here
  have low' := rel.le (before.bounds rel)
  have high' := after.bounds rel
  constructor
  · intro entry member
    cases left with
    | nil => simp at member
    | cons nearest left =>
      rcases List.mem_cons.mp member with rfl | member
      · exact low'
      · rw [List.map_cons, List.reverse_cons, List.pairwise_append] at sorted
        exact Nat.le_trans (sorted.1.2.2 entry.2 (by simpa using ⟨entry.1, member⟩) nearest.2 (by simp)) low'
  · intro entry member
    rcases splittable.last with strict | last
    · cases right with
      | nil => simp at member
      | cons nearest right =>
        have first := strict _ _ high'
        rcases List.mem_cons.mp member with rfl | member
        · exact first
        · rw [List.map_cons, List.pairwise_cons] at sorted
          exact Nat.lt_of_lt_of_le first (sorted.2.1.1 entry.1 (List.mem_map_of_mem member))
    · -- Only the last leaf may be split here, so nothing follows.
      exfalso
      obtain ⟨leaf, inside, located, crowded⟩ := prepared.crowded rfl
      have ends := last leaf (mem_leaves_node.mpr ⟨child, Row.mem_children_close.mpr (.inr (.inl rfl)),
        inside⟩)
        ⟨left, child, right, rfl, key_found, located⟩ crowded
      have follows : Row.after (Tree.leaves (h := h)) (fun _ => []) right ≠ [] := by
        intro none
        obtain ⟨other, found⟩ := List.exists_mem_of_ne_nil _ (show entry.2.leaves ≠ [] from leaves_ne_nil)
        have inside := (Row.mem_after Tree.leaves fun _ => []).mpr ⟨entry, member, .inr found⟩
        rw [none] at inside
        simp at inside
      rw [leaves_focus, ← List.append_assoc, List.getLast?_append_of_ne_nil _ follows] at ends
      obtain ⟨⟨k, s⟩, among, found | found⟩ := (Row.mem_after _ _).mp (List.mem_of_getLast? ends)
      · simp at found
      · exact absurd (pageId_mem_pids inside)
          (((focused nodup).right k s among).2 leaf.pageId (pageId_mem_pids found)).2

/-- Where keys are in order and the cut of a leaf keeps to that, a split child stands right behind
the one it came of. -/
theorem Placed.prepared (rel : Cut cut) (placed : Placed key size tree tree' split target)
    (within : Within cut low tree high)
    (splittable : Splittable cut key size tree) (nodup : tree.pids.Nodup) :
    Prepared cut key size tree tree' split target := by
  induction h generalizing low high with
  | zero =>
    cases placed_leaf.mp placed with
    | fits room => exact .fits room
    | splits crowded halved =>
      exact .splits crowded halved (splittable.clean tree (by simp) rfl crowded _ _ _ _ halved)
  | succ h ih =>
    obtain ⟨id, row⟩ := tree
    obtain ⟨left, child, right, child', split', rfl, found, below, absorbed⟩ := placed_node.mp placed
    have inner := ih below (Row.chain_close.mp (within_node.mp within)).2.1
      (splittable.child found nodup) (focused nodup).nodup
    refine prepared_node.mpr ⟨left, child, right, child', split', rfl, found, inner, absorbed.spliced ?_⟩
    rintro boundary new rfl
    exact inner.bracket rel splittable found nodup within

/-! ### The refinement -/

private theorem room_iff {page : LeafPage} (valid : page.Valid) :
    min MIN_LEAF_PAGE_DATA (SLOT_SIZE + TUPLE_HEADER_SIZE + size) ≤
      u16 (page.checkAvailableSpace + page.checkGarbageBytes) ↔
      page.HasRoom size := by
  rw [valid.totalSpace_u16, HasRoom]

def Places (key size : Nat) (st : BTree) (tree : Tree h) (outcome : SplitReport × Nat) (st' : BTree) : Prop :=
  ∃ tree' split, outcome.1 = reportOf split ∧ Placed key size tree tree' split outcome.2 ∧
    PreparedState st st' tree tree' split

private theorem findPageToWrite_leaf {st : BTree} {page : LeafPage} {fuel : Nat}
    (stored : st.pages page.pageId = .leaf page)
    (bounded : page.pageId < st.newPageOffsetIndex) (valid : page.Valid) :
    Ran (findPageToWrite (fuel + 1) page.pageId key size) st (Places (h := 0) key size st page) := by
  simp only [findPageToWrite, ran_bind, ran_requestPage, ran_readPage, pages_record, stored]
  by_cases room : page.HasRoom size
  · rw [if_pos ((room_iff valid).mpr room), ran_pure]
    exact ⟨page, none, rfl, .fits room, stored, by simp, rfl, Nat.le_refl _,
      ⟨[], by simp [splitPids], .nil, by simp⟩,
      fun _ _ _ => rfl⟩
  · have crowded : page.Crowded := by
      simp only [HasRoom] at room
      simp only [Crowded]
      omega
    obtain ⟨left, right, boundaryKey, halves, halved⟩ :=
      handleSplit_spec valid crowded (fun _ => 0) st.newPageOffsetIndex
    have fresh : page.pageId ≠ st.newPageOffsetIndex := by omega
    rw [if_neg (mt (room_iff valid).mp room)]
    simp only [ran_bind, ran_allocateNewPage, newPageOffsetIndex_record, halves, ran_writePage,
      Option.elim_some, ge_iff_le]
    have outcome : ∀ st' : BTree, st'.rootPageId = st.rootPageId →
      st'.newPageOffsetIndex = st.newPageOffsetIndex + 1 →
        (∀ pid, st'.pages pid = if pid = st.newPageOffsetIndex then .leaf right
          else if pid = page.pageId then .leaf left
          else st.pages pid) → PreparedState (h := 0) st st' page left (some (boundaryKey, right)) := by
      intro st' root next pages
      refine ⟨?_, ?_, root, by omega, ⟨[st.newPageOffsetIndex], ?_, by simp, by simp [next]⟩, ?_⟩
      · refine holds_leaf.mpr ?_
        rw [pages, halved.leftIds.1, if_neg fresh, if_pos rfl]
      · rintro boundary new ⟨⟩
        refine holds_leaf.mpr ?_
        rw [pages, halved.rightIds.1, if_pos rfl]
      · simp [splitPids, halved.leftIds.1, halved.rightIds.1]
      · intro pid outside below
        rw [pages, if_neg (by omega), if_neg (by simpa using outside)]
    have prepared : LeafPrepared Loose key size page _ _ _ := .splits room halved fun _ _ _ _ => trivial
    split
    next above =>
      rw [if_pos above] at prepared
      simp only [ran_bind, ran_releasePage, ran_pure]
      refine ⟨left, some (boundaryKey, right), by simp [reportOf, halved.rightIds.1], prepared,
        outcome _ rfl rfl fun pid => ?_⟩
      simp only [pages_record, pages_setPage, pages_allocated, newPageOffsetIndex_record]
      split <;> simp_all
    next below =>
      rw [if_neg below] at prepared
      simp only [ran_bind, ran_releasePage, ran_pure]
      refine ⟨left, some (boundaryKey, right), by simp [reportOf, halved.rightIds.1], prepared,
        outcome _ rfl rfl fun pid => ?_⟩
      simp only [pages_record, pages_setPage, pages_allocated, newPageOffsetIndex_record]
      split <;> simp_all

private theorem PreparedState.children (st : BTree) {st' : BTree} {id : Nat}
    {left : List (Tree h × Nat)} {child child' : Tree h}
    {right : List (Nat × Tree h)} {split' : Option (Nat × Tree h)}
    (holds : Holds (h := h + 1) st.pages ⟨id, Row.close left child right⟩)
    (nodup : (pids (h := h + 1) ⟨id, Row.close left child right⟩).Nodup)
    (bounded : ∀ pid ∈ pids (h := h + 1) ⟨id, Row.close left child right⟩, pid < st.newPageOffsetIndex)
    (state : PreparedState st st' child child' split') :
    (∀ other, ((∃ key, (other, key) ∈ left) ∨ other = child' ∨ (∃ boundary, split' = some (boundary, other)) ∨
        ∃ key, (key, other) ∈ right) →
      Holds st'.pages other ∧ ∀ pid ∈ other.pids, pid ≠ id ∧ pid < st'.newPageOffsetIndex) ∧
        st'.pages id = st.pages id := by
  have apart := focused nodup
  obtain ⟨-, lefts, -, rights⟩ := holds_focus.mp holds
  have inNode : ∀ other, (∃ key, (other, key) ∈ left) ∨ other = child ∨ (∃ key, (key, other) ∈ right) →
      ∀ pid ∈ other.pids, pid < st.newPageOffsetIndex := fun other member pid inside =>
    bounded pid (mem_pids_child (Row.mem_children_close.mpr member) inside)
  have own := bounded id (by simp)
  have grows := state.grows
  have prepared : ∀ pid, pid ∈ child'.pids ∨ pid ∈ splitPids split' → pid ≠ id ∧
      pid < st'.newPageOffsetIndex := by
    intro pid member
    rcases state.mem member with old | ⟨low, high⟩
    · exact ⟨fun same => apart.node (same ▸ old),
        Nat.lt_of_lt_of_le (inNode child (.inr (.inl rfl)) pid old) grows⟩
    · exact ⟨by omega, high⟩
  refine ⟨?_, state.frame id apart.node own⟩
  rintro other (⟨key, member⟩ | rfl | ⟨boundary, rfl⟩ | ⟨key, member⟩)
  · have below := inNode other (.inl ⟨key, member⟩)
    obtain ⟨-, away⟩ := apart.left other key member
    exact ⟨(lefts other key member).congr fun pid inside =>
      state.frame pid (away pid inside).2 (below pid inside),
      fun pid inside => ⟨(away pid inside).1, Nat.lt_of_lt_of_le (below pid inside) grows⟩⟩
  · exact ⟨state.holds, fun pid inside => prepared pid (.inl inside)⟩
  · exact ⟨state.holdsNew _ _ rfl, fun pid inside => prepared pid (.inr inside)⟩
  · have below := inNode other (.inr (.inr ⟨key, member⟩))
    obtain ⟨-, away⟩ := apart.right key other member
    exact ⟨(rights key other member).congr fun pid inside =>
      state.frame pid (away pid inside).2 (below pid inside),
      fun pid inside => ⟨(away pid inside).1, Nat.lt_of_lt_of_le (below pid inside) grows⟩⟩

/-- `FindPageToWrite` prepares the tree of a store for a buffer. -/
theorem findPageToWrite_spec {fuel : Nat} (enough : h < fuel) {st : BTree} (holds : Holds st.pages tree)
    (nodup : tree.pids.Nodup) (bounded : ∀ pid ∈ tree.pids, pid < st.newPageOffsetIndex)
    (valid : ∀ leaf ∈ tree.leaves, leaf.Valid) :
    Ran (findPageToWrite fuel tree.pid key size) st (Places key size st tree) := by
  induction h generalizing fuel st with
  | zero =>
    obtain ⟨fuel, rfl⟩ := Nat.exists_eq_add_of_lt enough
    rw [Nat.zero_add]
    exact findPageToWrite_leaf holds (bounded _ (by simp)) (valid tree (by simp))
  | succ h ih =>
    obtain ⟨fuel, rfl⟩ := Nat.exists_eq_add_of_lt (show 0 < fuel by omega)
    obtain ⟨id, row⟩ := tree
    obtain ⟨left, child, right, rfl, found⟩ := row.exists_found key
    have apart := focused nodup
    obtain ⟨⟨page, stored, named, shown⟩, lefts, here, rights⟩ := holds_focus.mp holds
    have fits := (InternalPage.shows_focus_iff.mp shown).1
    have numKeys := (InternalPage.shows_focus_iff.mp shown).2.1
    simp only [length_leftPids, length_rightPids] at fits numKeys
    have childMem : child ∈ (Row.close left child right).children :=
      Row.mem_children_close.mpr (.inr (.inl rfl))
    simp only [Nat.zero_add, pid_node, findPageToWrite, ran_bind, ran_requestPage, ran_readPage,
      pages_record, stored,
      shown.getChildPageId (found_pids found)]
    have recursive : Ran (findPageToWrite fuel child.pid key size)
        ((st.record (.request id)).record (.read id)) _ :=
      ih (by omega) here apart.nodup
      (fun pid inside => bounded pid (mem_pids_child childMem inside))
      (fun leaf inside => valid leaf (mem_leaves_node.mpr ⟨child, childMem, inside⟩))
    refine recursive.imp ?_
    rintro ⟨_, target⟩ st' ⟨child', split', rfl, placed, state⟩
    obtain ⟨children, kept⟩ := PreparedState.children
      ((st.record (.request id)).record (.read id)) holds nodup bounded state
    simp only [pages_record] at kept
    rw [stored] at kept
    have grows := state.grows
    simp only [newPageOffsetIndex_record] at grows
    have samePid := placed.pid
    cases split' with
    | none =>
      simp only [reportOf, Bool.false_eq_true, ite_false, ran_bind, ran_releasePage, ran_pure]
      refine ⟨⟨id, Row.close left child' right⟩, none, rfl,
        ⟨left, child, right, child', none, rfl, found, placed, .kept⟩,
        ?_, by simp, state.root, grows, ?_, ?_⟩
      · refine holds_focus.mpr ⟨⟨page, kept, named, samePid ▸ shown⟩, ?_,
          (children child' (.inr (.inl rfl))).1, ?_⟩
        · exact fun sibling key member => (children sibling (.inl ⟨key, member⟩)).1
        · exact fun key sibling member => (children sibling (.inr (.inr (.inr ⟨key, member⟩)))).1
      · obtain ⟨fresh, perm, distinct, range⟩ := state.ids
        refine ⟨fresh, ?_, distinct, range⟩
        simp only [splitPids, List.append_nil] at perm ⊢
        rw [pids_focus, pids_focus]
        simp only [List.perm_iff_count, List.count_append, List.count_cons] at perm ⊢
        intro pid
        have := perm pid
        omega
      · intro pid outside below
        refine state.frame pid (fun inside => outside (mem_pids_child childMem inside)) below
    | some entry =>
      obtain ⟨boundary, new⟩ := entry
      -- Where keys are out of order, the new child may get another neighbour.
      obtain ⟨front, other, back, parts, place⟩ := (Row.close left child' right).exists_found boundary
      have counts := congrArg (fun row => row.rest.length) parts
      simp only [Row.length_rest_close] at counts
      have shown : page.Shows (Row.close (leftPids front) other.pid (rightPids back)) := by
        rw [← map_pid_close, ← parts, map_pid_close, samePid]
        exact shown
      -- The row with the new child, all of whose children the store holds.
      have inRow : ∀ among ∈ (Row.close front other ((boundary, new) :: back)).children,
          Holds st'.pages among ∧ ∀ pid ∈ among.pids, pid ≠ id ∧ pid < st'.newPageOffsetIndex := by
        have old : ∀ among ∈ (Row.close front other back).children,
            Holds st'.pages among ∧ ∀ pid ∈ among.pids, pid ≠ id ∧ pid < st'.newPageOffsetIndex := by
          rw [← parts]
          intro among member
          apply children
          rcases Row.mem_children_close.mp member with found | found | found
          · exact .inl found
          · exact .inr (.inl found)
          · exact .inr (.inr (.inr found))
        intro among member
        rcases Row.mem_children_close.mp member with found | found | ⟨key, found⟩
        · exact old among (Row.mem_children_close.mpr (.inl found))
        · exact old among (Row.mem_children_close.mpr (.inr (.inl found)))
        · rcases List.mem_cons.mp found with same | found
          · cases same
            exact children new (.inr (.inr (.inl ⟨boundary, rfl⟩)))
          · exact old among (Row.mem_children_close.mpr (.inr (.inr ⟨key, found⟩)))
      have rowPids : (Row.close front other ((boundary, new) :: back)).map pid =
          Row.close (leftPids front) other.pid ((boundary, new.pid) :: rightPids back) := map_pid_close
      have rowIds : ∀ pid,
        List.count pid ((Row.close front other ((boundary, new) :: back)).trail pids fun _ => []) =
          List.count pid ((Row.close left child' right).trail pids fun _ => []) +
            List.count pid new.pids := by
        intro pid
        rw [parts]
        simp only [Row.trail_close, Row.after_cons, List.nil_append, List.count_append]
        omega
      obtain ⟨fresh, perm, distinct, range⟩ := state.ids
      simp only [newPageOffsetIndex_record] at range
      simp only [reportOf, ite_true, ran_bind, ran_readInternal _ kept]
      by_cases available : page.checkSlotAvailable = true
      · have grown := shown.insertKeyValue new.pid (found_pids place) available
        simp only [available, ite_true, ran_bind, ran_writePage, ran_releasePage, ran_pure]
        have room : front.length + back.length < NUM_KEY_SLOTS := by
          rw [← counts]
          simpa [InternalPage.checkSlotAvailable, numKeys] using available
        refine ⟨⟨id, Row.close front other ((boundary, new) :: back)⟩, none, rfl,
          ⟨left, child, right, child', some (boundary, new), rfl, found, placed,
            .grown parts place room⟩, ?_, by
            simp, state.root, grows,
          ⟨fresh, ?_, distinct, range⟩, ?_⟩
        · refine holds_node.mpr ⟨⟨page.insertKeyValue boundary new.pid, by simp, named, rowPids ▸ grown⟩, ?_⟩
          intro other member
          refine (inRow other member).1.congr fun pid inside => ?_
          simp [((inRow other member).2 pid inside).1]
        · simp only [splitPids, List.append_nil] at perm ⊢
          rw [pids_node, pids_focus]
          simp only [List.perm_iff_count, List.count_append, List.count_cons, rowIds] at perm ⊢
          simp only [Row.trail_close, List.count_append]
          intro pid
          have := perm pid
          omega
        · intro pid outside below
          have apartPid : pid ≠ id := fun same => outside (by simp [same])
          simp only [pages_record, pages_setPage, apartPid, ite_false]
          exact state.frame pid (fun inside => outside (mem_pids_child childMem inside)) below
      · have full : left.length + right.length = 254 := by
          simp only [InternalPage.checkSlotAvailable, NUM_KEY_SLOTS, decide_eq_true_eq, numKeys]
            at available fits
          omega
        simp only [available, Bool.false_eq_true, ite_false, ran_bind, ran_allocateNewPage,
          newPageOffsetIndex_record]
        obtain ⟨lowPids, middle, highPids, oldPage, newPage, joinedPids, lowCount, highCount, halves,
          lowShown, highShown, oldPid,
          newPid⟩ := shown.handleSplit new.pid (found_pids place) (fun _ => 0) st'.newPageOffsetIndex
        simp only [length_leftPids, length_rightPids, ← counts, full] at lowCount highCount
        obtain ⟨low, middle', high, joined, lowLength, highLength⟩ :=
          (Row.close front other ((boundary, new) :: back)).exists_join 127
            (by simp only [Row.length_rest_close, List.length_cons]; omega)
        simp only [Row.length_rest_close, List.length_cons] at highLength
        have pidsJoined : lowPids.join middle highPids = (low.map pid).join middle' (high.map pid) := by
          rw [← joinedPids, ← Row.map_join, ← joined, rowPids]
        obtain ⟨rfl, rfl, rfl⟩ := Row.join_inj pidsJoined (by rw [Row.length_rest_map]; omega)
        simp only [halves, ran_writePage, ran_releasePage, ran_pure]
        have own : id < st'.newPageOffsetIndex := Nat.lt_of_lt_of_le (bounded id (by simp)) grows
        have away : ∀ among ∈ (low.join middle high).children, ∀ pid ∈ among.pids, pid ≠ id ∧
          pid ≠ st'.newPageOffsetIndex ∧
            Holds st'.pages among := by
          intro among member pid inside
          obtain ⟨holds, range⟩ := inRow among (joined ▸ member)
          have := range pid inside
          exact ⟨this.1, by omega, holds⟩
        refine ⟨⟨id, low⟩, some (middle, ⟨st'.newPageOffsetIndex, high⟩), rfl,
          ⟨left, child, right, child', some (boundary, new), rfl, found, placed,
            .burst parts place joined lowLength (by omega)⟩, ?_, ?_,
          state.root, by simp; omega, ⟨st'.newPageOffsetIndex :: fresh, ?_, ?_, ?_⟩, ?_⟩
        · refine holds_node.mpr ⟨⟨oldPage, ?_, oldPid.trans named, lowShown⟩, ?_⟩
          · simp [Nat.ne_of_lt own]
          · intro other member
            have inJoin : other ∈ (low.join middle high).children := Row.mem_children_join.mpr (.inl member)
            refine (away other inJoin _ pid_mem_pids).2.2.congr fun pid inside => ?_
            obtain ⟨notOwn, notNew, -⟩ := away other inJoin pid inside
            simp [notOwn, notNew]
        · rintro _ _ ⟨⟩
          refine holds_node.mpr ⟨⟨newPage, ?_, newPid, highShown⟩, ?_⟩
          · simp
          · intro other member
            have inJoin : other ∈ (low.join middle high).children := Row.mem_children_join.mpr (.inr member)
            refine (away other inJoin _ pid_mem_pids).2.2.congr fun pid inside => ?_
            obtain ⟨notOwn, notNew, -⟩ := away other inJoin pid inside
            simp [notOwn, notNew]
        · simp only [splitPids] at perm ⊢
          rw [pids_node, pids_node, pids_focus]
          simp only [joined, Row.trail_join, List.nil_append, List.count_append, Row.trail_close] at rowIds
          simp only [List.perm_iff_count, List.count_append, List.count_cons] at perm ⊢
          intro pid
          have := perm pid
          have := rowIds pid
          omega
        · refine List.nodup_cons.mpr ⟨fun inside => ?_, distinct⟩
          have := (range _ inside).2
          omega
        · intro pid inside
          simp only [newPageOffsetIndex_record, newPageOffsetIndex_setPage, newPageOffsetIndex_allocated]
          rcases List.mem_cons.mp inside with rfl | inside
          · omega
          · have := range pid inside
            omega
        · intro pid outside below
          have apartPid : pid ≠ id := fun same => outside (by simp [same])
          have notNew : pid ≠ st'.newPageOffsetIndex := by omega
          simp only [pages_record, pages_setPage, pages_allocated, newPageOffsetIndex_record, apartPid,
            notNew, ite_false]
          exact state.frame pid (fun inside => outside (mem_pids_child childMem inside)) below

end Tree
end Datashil
