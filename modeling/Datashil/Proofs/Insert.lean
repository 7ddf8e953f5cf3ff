import Datashil.Proofs.FindPageToWrite
import Datashil.Proofs.Represents

/-! `Insert` on the tree a store holds: the leaf of the key is prepared, a split
root gets a page above it, and the tuple is written. -/

namespace Datashil
open Library LeafPage BTree

namespace Tree
variable {h : Nat} {tree tree' : Tree h} {split : Option (Nat × Tree h)} {cut : Nat → Nat → Prop}
  {key size target low high : Nat}

theorem Placed.keyed (placed : Placed key size tree tree' split target) (keyed : Keyed tree) :
    Keyed tree' := by
  cases h with
  | zero => trivial
  | succ h =>
    obtain ⟨id, row⟩ := tree
    obtain ⟨left, child, right, child', split', rfl, found, below, absorbed⟩ := placed_node.mp placed
    have some_keys : 0 < left.length + right.length := by
      rw [← Row.length_rest_close left child right]
      exact List.length_pos_iff.mpr keyed
    cases absorbed with
    | kept => exact List.length_pos_iff.mp (by simpa using some_keys)
    | grown => exact List.length_pos_iff.mp (by simp only [Row.length_rest_close, List.length_cons]; omega)
    | burst parts found joined lowCount highCount => exact List.length_pos_iff.mp (by simp only; omega)

end Tree

section LeafPrepared
variable {cut : Nat → Nat → Prop} {key size target : Nat} {page page' : LeafPage}
    {new : Option (Nat × LeafPage)}

theorem LeafPrepared.room (prepared : LeafPrepared cut key size page page' new target) {leaf : LeafPage}
    (member : leaf ∈ page' :: new.toList.map Prod.snd) (named : leaf.pageId = target) :
    leaf.HasRoom size := by
  cases prepared with
  | fits room =>
    obtain rfl : leaf = page := by simpa using member
    exact room
  | splits crowded halved separated =>
    have left := halved.leftSpace
    have right := halved.rightSpace
    simp only [HasRoom]
    rcases List.mem_cons.mp member with rfl | member
    · omega
    · obtain rfl := List.mem_singleton.mp member
      omega

theorem LeafPrepared.valid (prepared : LeafPrepared cut key size page page' new target)
    (valid : page.Valid) {leaf : LeafPage}
    (member : leaf ∈ page' :: new.toList.map Prod.snd) : leaf.Valid := by
  cases prepared with
  | fits =>
    obtain rfl : leaf = page := by simpa using member
    exact valid
  | splits crowded halved separated =>
    rcases List.mem_cons.mp member with rfl | member
    · exact halved.leftMade.valid
    · obtain rfl := List.mem_singleton.mp member
      exact halved.rightMade.valid

theorem LeafPrepared.target_mem (prepared : LeafPrepared cut key size page page' new target) :
    ∃ leaf ∈ page' :: new.toList.map Prod.snd, leaf.pageId = target := by
  cases prepared with
  | fits => exact ⟨page, .head _, rfl⟩
  | @splits _ right newPid boundaryKey crowded halved separated =>
    split
    · exact ⟨right, by simp, halved.rightIds.1⟩
    · exact ⟨page', .head _, halved.leftIds.1⟩

theorem LeafPrepared.tuples (prepared : LeafPrepared cut key size page page' new target) :
    page.tuples = (page' :: new.toList.map Prod.snd).flatMap LeafPage.tuples := by
  cases prepared with
  | fits => simp
  | splits crowded halved separated => simpa using halved.tuples

theorem LeafPrepared.imp {cut' : Nat → Nat → Prop}
    (prepared : LeafPrepared cut key size page page' new target)
    (weaker : ∀ a b, cut a b → cut' a b) : LeafPrepared cut' key size page page' new target := by
  cases prepared with
  | fits room => exact .fits room
  | splits crowded halved separated =>
    exact .splits crowded halved fun first left second right => weaker _ _ (separated first left second right)

end LeafPrepared

theorem Tree.Placed.target_mem {h key size : Nat} {tree tree' : Tree h} {split : Option (Nat × Tree h)}
    {target : Nat}
    (placed : tree.Placed key size tree' split target) :
    target ∈ tree'.pids ∨ target ∈ Tree.splitPids split := by
  obtain ⟨first, page, page', new, second, -, -, prepared, after⟩ := placed.leaves
  obtain ⟨leaf, among, rfl⟩ := prepared.target_mem
  have inside : leaf ∈ tree'.leaves ++ Tree.splitLeaves split := by
    rw [after.mem_iff, ← List.cons_append, ← List.append_assoc, List.mem_append, List.mem_append]
    exact .inl (.inr among)
  cases split with
  | none => exact .inl (Tree.pageId_mem_pids (by simpa [Tree.splitLeaves] using inside))
  | some entry => exact (List.mem_append.mp inside).imp Tree.pageId_mem_pids Tree.pageId_mem_pids

/-- A store whose tree has been prepared for a buffer, up to the root. -/
structure Grown (cut : Nat → Nat → Prop) (key size : Nat) (st st' : BTree) {h h' : Nat} (tree : Tree h)
    (tree' : Tree h') (target : Nat) : Prop where
  represents : Represents cut st' tree'
  located : Cut cut → tree'.Located key target
  leaves : ∃ first page page' new second, tree.leaves = first ++ page :: second ∧
    tree.Located key page.pageId ∧
    LeafPrepared cut key size page page' new target ∧
      tree'.leaves.Perm (first ++ page' :: (new.toList.map Prod.snd ++ second)) ∧
      (Cut cut → tree'.leaves = first ++ page' :: (new.toList.map Prod.snd ++ second))
  keyed : tree.Keyed → tree'.Keyed
  grows : st.newPageOffsetIndex ≤ st'.newPageOffsetIndex
  frame : ∀ pid, pid ∉ tree.pids → pid < st.newPageOffsetIndex → pid ≠ DATABASE_META_PAGE_ID →
    st'.pages pid = st.pages pid

variable {cut : Nat → Nat → Prop} {st st' : BTree} {h : Nat} {tree tree' : Tree h}
    {split : Option (Nat × Tree h)}
  {key size target : Nat}

theorem Grown.room {h' : Nat} {tree'' : Tree h'} (grown : Grown cut key size st st' tree tree'' target)
    {leaf : LeafPage}
    (stored : st'.pages target = .leaf leaf) : leaf.HasRoom size := by
  obtain ⟨first, page, page', new, second, -, -, prepared, after, -⟩ := grown.leaves
  obtain ⟨other, among, rfl⟩ := prepared.target_mem
  have member : other ∈ tree''.leaves := by
    rw [after.mem_iff, ← List.cons_append, List.mem_append, List.mem_append]
    exact .inr (.inl among)
  have same : Page.leaf other = .leaf leaf := (grown.represents.holds.leaf member).symm.trans stored
  obtain rfl : other = leaf := Page.leaf.inj same
  exact prepared.room among rfl

/-- The leaves of a prepared tree; they stay in their places as long as keys are in order. -/
private theorem placed_leaves (order : Order cut) (represents : Represents cut st tree)
    (splittable : Cut cut → tree.Splittable cut key size)
    (placed : tree.Placed key size tree' split target) :
    ∃ first page page' new second, tree.leaves = first ++ page :: second ∧ tree.Located key page.pageId ∧
      LeafPrepared cut key size page page' new target ∧
      (tree'.leaves ++ Tree.splitLeaves split).Perm (first ++ page' :: (new.toList.map Prod.snd ++ second)) ∧
      (Cut cut → tree'.leaves ++ Tree.splitLeaves split = first ++ page' ::
        (new.toList.map Prod.snd ++ second)) := by
  cases order with
  | kept rel =>
    obtain ⟨first, page, page', new, second, before, located, leaf, after⟩ :=
      (placed.prepared rel (represents.within rel) (splittable rel) represents.nodup).leaves
    exact ⟨first, page, page', new, second, before, located, leaf, .of_eq after, fun _ => after⟩
  | lost all =>
    obtain ⟨first, page, page', new, second, before, located, leaf, after⟩ := placed.leaves
    refine ⟨first, page, page', new, second, before, located, leaf.imp fun a b _ => all a b, after,
      fun rel => ?_⟩
    obtain ⟨a, b, not⟩ := rel.some_not
    exact absurd (all a b) not

theorem growRoot_spec (order : Order cut) (represents : Represents cut st tree)
    (splittable : Cut cut → tree.Splittable cut key size)
    (placed : tree.Placed key size tree' split target) (state : Tree.PreparedState st st' tree tree' split) :
    Ran (if (Tree.reportOf split).wasSplit then growRoot (Tree.reportOf split) else pure ()) st' fun _ st'' =>
      ∃ (h' : Nat) (tree'' : Tree h'), Grown cut key size st st'' tree tree'' target := by
  have metaOutside : DATABASE_META_PAGE_ID ∉ tree.pids := fun inside => by
    have := (represents.bounded _ inside).1
    omega
  have metaBelow : DATABASE_META_PAGE_ID < st.newPageOffsetIndex := by
    have := represents.bounded _ Tree.pid_mem_pids
    omega
  have metaPage := (state.frame _ metaOutside metaBelow).trans represents.metaPage
  have grows := state.grows
  have pid := placed.pid
  have prepared := fun rel : Cut cut =>
    placed.prepared rel (represents.within rel) (splittable rel) represents.nodup
  have within := fun rel => (prepared rel).within rel (represents.within rel)
  have located := fun rel => (prepared rel).located rel (represents.within rel)
  obtain ⟨first, page, page', new, second, before, leafLocated, leaf, after, ordered⟩ :=
    placed_leaves order represents splittable placed
  obtain ⟨rooted, parts⟩ := placed.rooted represents.rooted
  obtain ⟨fresh, perm, distinct, range⟩ := state.ids
  have valid : ∀ leaf ∈ tree'.leaves ++ Tree.splitLeaves split, leaf.Valid := by
    intro other member
    have old := represents.valid
    rw [before] at old
    have member := after.mem_iff.mp member
    simp only [List.mem_append, List.mem_cons] at old member
    rcases member with member | rfl | member | member
    · exact old other (.inl member)
    · exact leaf.valid (old page (.inr (.inl rfl))) (.head _)
    · exact leaf.valid (old page (.inr (.inl rfl))) (.tail _ member)
    · exact old other (.inr (.inr member))
  have nodup : (tree'.pids ++ Tree.splitPids split).Nodup := by
    refine perm.nodup_iff.mpr (List.nodup_append.mpr ⟨represents.nodup, distinct, ?_⟩)
    rintro pid inside other new rfl
    have := (represents.bounded pid inside).2
    have := (range pid new).1
    omega
  have bounded : ∀ pid ∈ tree'.pids ++ Tree.splitPids split, DATABASE_META_PAGE_ID < pid ∧
      pid < st'.newPageOffsetIndex := by
    intro other inside
    rcases List.mem_append.mp (perm.mem_iff.mp inside) with old | new
    · have := represents.bounded other old
      omega
    · have := range other new
      omega
  cases split with
  | none =>
    simp only [Tree.splitLeaves, Tree.splitPids, List.append_nil] at valid nodup bounded after ordered
    simp only [Tree.reportOf, Bool.false_eq_true, ite_false, ran_pure]
    exact ⟨h, tree', ⟨by rw [state.root, represents.root, pid], by rw [metaPage, pid], state.holds,
      nodup, bounded, valid,
      fun some_not => within (order.tells some_not), rooted⟩, located,
      ⟨first, page, page', new, second, before, leafLocated, leaf, after, ordered⟩, placed.keyed, grows,
      fun other outside below _ => state.frame other outside below⟩
  | some entry =>
    obtain ⟨boundary, newTree⟩ := entry
    obtain ⟨treeFull, newFull⟩ := parts _ _ rfl
    simp only [Tree.splitLeaves, Tree.splitPids] at valid nodup bounded after ordered
    simp only [Tree.reportOf, ite_true, growRoot, ran_bind, ran_allocateNewPage, ran_get, ran_writePage,
      rootPageId_allocated, state.root,
      represents.root]
    have apartMeta : DATABASE_META_PAGE_ID ≠ st'.newPageOffsetIndex := by omega
    refine (ran_setNewRoot DATABASE_MAGIC_NUMBER tree.pid (by simpa [apartMeta] using metaPage)).imp ?_
    rintro - st'' ⟨root, counter, pages⟩
    simp only [newPageOffsetIndex_record, newPageOffsetIndex_setPage, newPageOffsetIndex_allocated] at counter
    rw [ran_releasePage]
    -- Everything below the new root is as it was.
    have kept : ∀ pid, pid < st'.newPageOffsetIndex → pid ≠ DATABASE_META_PAGE_ID →
        st''.pages pid = st'.pages pid := by
      intro other below away
      simp [pages, away, Nat.ne_of_lt below]
    have keptTree : ∀ {other : Tree h},
      (∀ pid ∈ other.pids, DATABASE_META_PAGE_ID < pid ∧ pid < st'.newPageOffsetIndex) →
        other.Holds st'.pages → other.Holds st''.pages := by
      intro other range holds
      refine holds.congr fun pid inside => ?_
      have := range pid inside
      exact kept pid (by omega) (by omega)
    let row : Row Nat (Tree h) := ⟨tree', [(boundary, newTree)]⟩
    have shown : (InternalPage.makePage (fun _ => 0) (Memory.ofList [boundary]) 0
      (Memory.ofList [tree.pid, newTree.pid]) 0 1
        st'.newPageOffsetIndex).Shows (row.map Tree.pid) := by
      refine InternalPage.shows_makePage (row.map Tree.pid) (by simp [row, Row.map, NUM_KEY_SLOTS]) rfl ?_
      simp only [row, Row.map, Row.children, ← pid]
      rfl
    refine ⟨h + 1, ⟨st'.newPageOffsetIndex, row⟩, ⟨root, ?_, ?_, ?_, ?_, ?_, ?_, ?_⟩, ?_, ?_,
      fun _ => by simp [Tree.Keyed, row], ?_, ?_⟩
    · simp [pages]
    · refine Tree.holds_node.mpr ⟨⟨_, ?_, rfl, shown⟩, ?_⟩
      · simp [pages, Ne.symm apartMeta]
      · intro other member
        rcases List.mem_cons.mp member with rfl | member
        · exact keptTree (fun pid inside => bounded pid (List.mem_append_left _ inside)) state.holds
        · obtain rfl := List.mem_singleton.mp member
          exact keptTree (fun pid inside => bounded pid (List.mem_append_right _ inside))
            (state.holdsNew _ _ rfl)
    · rw [Tree.pids_node, List.nodup_cons]
      refine ⟨fun inside => ?_, by simpa [row] using nodup⟩
      have := (bounded _ (by simpa [row] using inside)).2
      omega
    · intro other inside
      rw [Tree.pids_node] at inside
      rcases List.mem_cons.mp inside with rfl | inside
      · simp only [newPageOffsetIndex_record]
        omega
      · have := bounded other (by simpa [row] using inside)
        simp only [newPageOffsetIndex_record]
        omega
    · intro other member
      exact valid other (by simpa [row] using member)
    · intro some_not
      have within := within (order.tells some_not)
      exact Tree.within_node.mpr ⟨within.1, within.2⟩
    · exact Tree.rooted_node.mpr (.inr ⟨by simp [row], by simpa [row] using ⟨treeFull, newFull⟩⟩)
    · intro rel
      have located := located rel
      simp only [Tree.LocatedSplit] at located
      split at located
      next above =>
        exact ⟨[(tree', boundary)], newTree, [], rfl, Row.Bracket.found ⟨by simpa using above, by simp⟩,
          located⟩
      next below =>
        exact ⟨[], tree', [(boundary, newTree)], rfl, Row.Bracket.found ⟨by simp, by simpa using below⟩,
          located⟩
    · exact ⟨first, page, page', new, second, before, leafLocated,
        leaf, by simpa [row] using after, by simpa [row] using ordered⟩
    · simp only [newPageOffsetIndex_record]
      omega
    · intro other outside below away
      rw [pages_record, kept other (by omega) away, state.frame other outside below]

private theorem Grown.leafKept {h' : Nat} {tree' : Tree h'} (represents : Represents cut st tree)
    (grown : Grown cut key size st st' tree tree' target) :
    LeafKept st st' := by
  intro pid leaf below stored
  obtain ⟨first, page, page', new, second, before, -, prepared, after, -⟩ := grown.leaves
  have kept : ∀ other ∈ tree.leaves, ∃ other' ∈ tree'.leaves, other'.pageId = other.pageId := by
    intro other member
    simp only [before, List.mem_append, List.mem_cons] at member
    simp only [after.mem_iff, List.mem_append, List.mem_cons]
    rcases member with member | rfl | member
    · exact ⟨other, .inl member, rfl⟩
    · refine ⟨page', .inr (.inl rfl), ?_⟩
      cases prepared with
      | fits => rfl
      | splits crowded halved => exact halved.leftIds.1
    · exact ⟨other, .inr (.inr (.inr member)), rfl⟩
  by_cases inside : pid ∈ tree.pids
  · rcases represents.holds.kind inside with ⟨page, found⟩ | ⟨other, member, rfl, -⟩
    · simp [stored] at found
    · obtain ⟨other', member', same⟩ := kept other member
      exact ⟨other', same ▸ grown.represents.holds.leaf member'⟩
  · refine ⟨leaf, (grown.frame pid inside below ?_).trans stored⟩
    rintro rfl
    simp [represents.metaPage] at stored

/-- A leaf is prepared, and one of the leaves that come of it takes a tuple. -/
def LeafInserted (cut : Nat → Nat → Prop) (key size : Nat) (page : LeafPage) (pages : List LeafPage)
    (raw : List Byte) : Prop :=
  ∃ page' new target before leaf after final, LeafPrepared cut key size page page' new target ∧
    page' :: new.toList.map Prod.snd = before ++ leaf :: after ∧ leaf.pageId = target ∧
      Rewritten leaf final raw ∧
    pages = before ++ final :: after

/-- What one insertion does: the leaf of the key takes a tuple that spells out the buffer. -/
structure Inserted (cut : Nat → Nat → Prop) (key : Nat) (buffer : List Byte) (st st' : BTree) {h h' : Nat}
    (tree : Tree h) (tree' : Tree h') : Prop where
  order : Order cut
  represents : Represents cut st' tree'
  keyed : tree.Keyed → tree'.Keyed
  kept : OverflowKept st st'
  leafKept : LeafKept st st'
  leaves : ∃ first page pages second raw, tree.leaves = first ++ page :: second ∧
    tree'.leaves.Perm (first ++ (pages ++ second)) ∧
    (Cut cut → tree'.leaves = first ++ (pages ++ second)) ∧ tree.Located key page.pageId ∧
      LeafInserted cut key buffer.length page pages raw ∧ keyOf raw = key ∧
      (st'.newPageOffsetIndex ≤ 18446744073709551616 → Spells st'.pages st'.newPageOffsetIndex raw buffer) ∧
      ∃ ids, Among st.newPageOffsetIndex st'.newPageOffsetIndex ids ∧
        (st'.newPageOffsetIndex ≤ 18446744073709551616 → Owned st'.pages raw ids)

theorem Inserted.row {h' : Nat} {tree' : Tree h'} {buffer : List Byte} (rel : Cut cut)
    (inserted : Inserted cut key buffer st st' tree tree') :
    ∃ first page pages second raw, tree.leaves = first ++ page :: second ∧
      tree'.leaves = first ++ (pages ++ second) ∧
      tree.Located key page.pageId ∧ LeafInserted cut key buffer.length page pages raw ∧ keyOf raw = key ∧
        (st'.newPageOffsetIndex ≤ 18446744073709551616 → Spells st'.pages st'.newPageOffsetIndex raw buffer) ∧
        ∃ ids, Among st.newPageOffsetIndex st'.newPageOffsetIndex ids ∧
          (st'.newPageOffsetIndex ≤ 18446744073709551616 → Owned st'.pages raw ids) := by
  obtain ⟨first, page, pages, second, raw, before, -, after, found⟩ := inserted.leaves
  exact ⟨first, page, pages, second, raw, before, after rel, found⟩

/-- The buffers the tree can store: they start with their key, and their length with
the headers fits 32 bits. -/
structure Storable (buffer : List Byte) (key : Nat) : Prop where
  least : SIZEOF_KEY ≤ buffer.length
  most : buffer.length < 4294967296 - SLOT_SIZE - TUPLE_HEADER_SIZE
  keyed : payloadKey buffer = key

theorem Storable.key_lt {buffer : List Byte} (storable : Storable buffer key) : key < KEY_LIMIT := by
  have bound := LittleEndian.decode_lt (buffer.take SIZEOF_KEY)
  have size : (buffer.take SIZEOF_KEY).length = 8 := by
    have := storable.least
    simp only [SIZEOF_KEY, List.length_take] at this ⊢
    omega
  rw [size] at bound
  exact storable.keyed ▸ bound

/-- Overflow pages are no pages of the tree. -/
theorem Represents.overflowKept (represents : Represents cut st tree)
    (grows : st.newPageOffsetIndex ≤ st'.newPageOffsetIndex)
    (frame : ∀ pid, pid ∉ tree.pids → pid < st.newPageOffsetIndex → pid ≠ DATABASE_META_PAGE_ID →
      st'.pages pid = st.pages pid) :
    OverflowKept st st' := by
  refine ⟨grows, fun pid page below stored => ?_⟩
  rw [frame pid ?_ below ?_, stored]
  · intro inside
    rcases represents.holds.kind inside with ⟨other, found⟩ | ⟨leaf, -, -, found⟩ <;> simp [stored] at found
  · rintro rfl
    simp [represents.metaPage] at stored

theorem LeafPage.chunkSize_le (page : LeafPage) (bufferSize : Nat) :
    page.chunkSize bufferSize ≤ bufferSize := by
  simp only [chunkSize, SLOT_SIZE, TUPLE_HEADER_SIZE]
  omega

theorem LeafPage.Stored.length_le {page result : LeafPage} {tuple : List Byte} {address : Nat}
    (stored : Stored page result tuple address) :
    TUPLE_HEADER_SIZE + SIZEOF_KEY ≤ tuple.length := by
  refine (stored.valid.length_tuple (show tuple ∈ result.tuples from ?_)).1
  obtain ⟨first, second, -, after, -⟩ := stored.tuples
  simp [after]

/-- The leaf after a buffer has been written, and the overflow pages behind it. -/
private theorem written_spells {leaf written : LeafPage} {buffer : List Byte} {address : Nat} {middle : BTree}
    (storable : Storable buffer key)
    (placed : Stored leaf written (freshTuple buffer (leaf.chunkSize buffer.length)) address)
    (lowest : written.freeSpaceEndOffset + 1 = address) (stored : middle.pages leaf.pageId = .leaf written)
    (overflown : Overflown middle st' leaf.pageId address (buffer.drop (leaf.chunkSize buffer.length))) :
    ∃ final raw, Rewritten leaf final raw ∧ keyOf raw = key ∧ st'.pages leaf.pageId = .leaf final ∧
      (st'.newPageOffsetIndex ≤ 18446744073709551616 → Spells st'.pages st'.newPageOffsetIndex raw buffer) ∧
      ∃ ids, Among middle.newPageOffsetIndex st'.newPageOffsetIndex ids ∧
        (st'.newPageOffsetIndex ≤ 18446744073709551616 → Owned st'.pages raw ids) := by
  have size : buffer.length < 4294967296 := by
    have := storable.most
    simp only [SLOT_SIZE, TUPLE_HEADER_SIZE] at this
    omega
  have inside := leaf.chunkSize_le buffer.length
  have least : SIZEOF_KEY ≤ leaf.chunkSize buffer.length := by
    have := placed.length_le
    simpa [freshTuple] using this
  have keyed : keyOf (freshTuple buffer (leaf.chunkSize buffer.length)) = key :=
    (keyOf_freshTuple least inside).trans storable.keyed
  rcases overflown.chain with ⟨none, same⟩ | ⟨-, next, below, linked, chain, ids, strung, among⟩
  · have all : leaf.chunkSize buffer.length = buffer.length := by
      have := List.drop_eq_nil_iff.mp none
      omega
    rw [all] at placed keyed
    exact ⟨written, _, placed.rewritten, keyed, same.trans stored, fun _ => spells_whole size, [],
      ⟨List.nodup_nil, List.forall_mem_nil _⟩,
      fun _ => owned_whole size⟩
  · rw [stored] at linked
    refine ⟨_, _, (placed.setOverflowInfo lowest 1 next).rewritten, ?_, linked, fun fits => ?_, ids,
      among, fun fits => ?_⟩
    · rw [keyOf_withOverflow, keyed]
    · exact spells_linked size inside (by omega) chain
    · exact owned_linked size inside (by omega) strung

theorem insert_spec (order : Order cut) (represents : Represents cut st tree) {buffer : List Byte}
    (storable : Storable buffer key)
    (splittable : Cut cut → tree.Splittable cut key buffer.length) :
    Ran (BTree.insert buffer key) st fun result st' =>
      result = true ∧ ∃ (h' : Nat) (tree' : Tree h'), Inserted cut key buffer st st' tree tree' := by
  simp only [BTree.insert, ran_bind, ran_get, represents.root]
  refine (Tree.findPageToWrite_spec represents.fuel represents.holds represents.nodup
    (fun pid inside => (represents.bounded pid inside).2)
    represents.valid).imp ?_
  rintro ⟨report, target⟩ st₁ ⟨tree₁, split, rfl, placed, state⟩
  refine ran_when.mpr ((growRoot_spec order represents splittable placed state).imp ?_)
  rintro - st₂ ⟨h₂, tree₂, grown⟩
  obtain ⟨first, page, page', new, second, before, leafLocated, preparedLeaf, after, ordered⟩ := grown.leaves
  obtain ⟨leaf, among, rfl⟩ := preparedLeaf.target_mem
  have member : leaf ∈ tree₂.leaves := by
    rw [after.mem_iff]
    rcases List.mem_cons.mp among with rfl | among
    · simp
    · simp [among]
  have room := preparedLeaf.room among rfl
  obtain ⟨front, back, parts⟩ := List.append_of_mem among
  have below := (grown.represents.bounded _ (Tree.pageId_mem_pids member)).2
  obtain ⟨written, address, writes, placed, lowest⟩ :=
    writeChunkLeaf_spec (grown.represents.valid leaf member)
    (.ofBuffer buffer) none storable.least storable.most room
    (show _ = key by rw [read_buffer storable.least]; exact storable.keyed)
  simp only [ran_bind, ran_readLeaf _ (grown.represents.holds.leaf member), writes, ran_writePage]
  have rest := read_buffer_rest (leaf.chunkSize_le buffer.length)
  let middle := (((st₂.record (.read leaf.pageId)).setPage leaf.pageId (.leaf written)).record
    (.write leaf.pageId))
  refine (writeOverflowPages_spec buffer.length (Nat.sub_le _ _)
    (show leaf.pageId < middle.newPageOffsetIndex from below) (by simp [middle, Page.Linkable])
    ⟨_, address⟩ _).imp ?_
  intro last st₃ overflown
  rw [ran_releasePage, ran_pure]
  rw [rest] at overflown
  obtain ⟨final, raw, rewritten, keyed, final_stored, spells, ids, fresh, owned⟩ :=
    written_spells storable placed lowest (by simp [middle]) overflown
  have grows : st₂.newPageOffsetIndex ≤ st₃.newPageOffsetIndex := overflown.grows
  have frame : ∀ pid, pid < st₂.newPageOffsetIndex → pid ≠ leaf.pageId → st₃.pages pid = st₂.pages pid := by
    intro pid inside away
    rw [overflown.frame pid inside away]
    simp [middle, away]
  have row : first ++ page' :: (new.toList.map Prod.snd ++ second) = first ++ front ++ leaf ::
      (back ++ second) := by
    rw [← List.cons_append, parts]
    simp
  have distinct : ((first ++ front ++ leaf :: (back ++ second)).map LeafPage.pageId).Nodup :=
    row ▸ (after.map _).nodup_iff.mp (Tree.leaves_nodup grown.represents.nodup)
  refine ⟨rfl, h₂, tree₂.mapLeaves (Tree.replaceLeaf final), order, ?_, fun keyed =>
    (grown.keyed keyed).mapLeaves, ?_, ?_,
    ⟨first, page, front ++ final :: back, second, raw, before, ?_, ?_, leafLocated,
      ⟨page', new, leaf.pageId, front, leaf, back, final, preparedLeaf, parts, rfl, rewritten, rfl⟩,
        keyed, spells,
      ids, ⟨fresh.distinct, fun id inside =>
        ⟨Nat.le_trans grown.grows (fresh.range id inside).1, (fresh.range id inside).2⟩⟩, owned⟩⟩
  · exact (grown.represents.rewrite order member (keyed ▸ grown.located)
      (keyed ▸ storable.key_lt) rewritten overflown.root grows final_stored
      frame).agrees ⟨rfl, rfl, rfl⟩
  · have first := represents.overflowKept grown.grows grown.frame
    refine first.trans (grown.represents.overflowKept grows fun pid outside below _ => frame pid below ?_)
    rintro rfl
    exact outside (Tree.pageId_mem_pids member)
  · intro pid other inside stored
    obtain ⟨other', kept⟩ := grown.leafKept represents pid other inside stored
    by_cases here : pid = leaf.pageId
    · exact ⟨final, here ▸ final_stored⟩
    · exact ⟨other', (frame pid (Nat.lt_of_lt_of_le inside grown.grows) here).trans kept⟩
  · rw [Tree.leaves_mapLeaves]
    refine (after.map _).trans (.of_eq ?_)
    rw [row, Tree.map_replaceLeaf distinct rewritten.ids.1]
    simp
  · intro rel
    rw [Tree.leaves_mapLeaves, ordered rel, row, Tree.map_replaceLeaf distinct rewritten.ids.1]
    simp

end Datashil
