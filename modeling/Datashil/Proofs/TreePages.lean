import Datashil.Library.Liberal
import Datashil.Proofs.Accounts
import Datashil.Proofs.Histories

/-! Which pages a tree is made of. An insertion only adds new pages to it and a deletion
only leaves pages out, so that a page which has left the tree stays outside. -/

namespace Datashil
open Library LeafPage BTree

theorem LeafPage.pageId_writeChunkLeaf (page : LeafPage) (buffer : Pointer) (bufferSize key : Nat)
    (defaultTuple : Option Pointer) :
    (page.writeChunkLeaf buffer bufferSize key defaultTuple).1.pageId = page.pageId := by
  simp only [writeChunkLeaf]
  split <;> split <;> rfl

theorem Tree.Holds.pidsFrom {pages : Nat → Page} {h fuel : Nat} {tree : Tree h}
    (holds : tree.Holds pages) (enough : h < fuel) :
    pidsFrom pages fuel tree.pid = tree.pids := by
  induction h generalizing fuel with
  | zero =>
    obtain ⟨fuel, rfl⟩ := Nat.exists_eq_add_of_lt enough
    simp only [BTree.pidsFrom, Tree.pid_leaf, Tree.holds_leaf.mp holds, Tree.pids_leaf]
  | succ h ih =>
    obtain ⟨fuel, rfl⟩ : ∃ rest, fuel = rest + 1 := ⟨fuel - 1, by omega⟩
    obtain ⟨id, row⟩ := tree
    obtain ⟨⟨page, stored, -, shown⟩, below⟩ := Tree.holds_node.mp holds
    have children : page.children = row.children.map Tree.pid := by simpa using shown.children_eq
    have each : ∀ child ∈ row.children, BTree.pidsFrom pages fuel child.pid = child.pids :=
      fun child member =>
      ih (below child member) (by omega)
    simp only [BTree.pidsFrom, Tree.pid_node, stored, children, List.flatMap_map, Tree.pids_node]
    rw [List.flatMap_congr each]
    obtain ⟨head, rest⟩ := row
    simp [Row.trail, List.flatMap_map]

theorem Represents.pids {cut : Nat → Nat → Prop} {st : BTree} {h : Nat} {tree : Tree h}
    (represents : Represents cut st tree) :
    st.pids = tree.pids := by
  rw [BTree.pids, represents.root, represents.holds.pidsFrom represents.fuel]

def Spans (st : BTree) (property : (h : Nat) → Tree h → Prop) : Prop :=
  ∃ (h : Nat) (tree : Tree h), tree.Holds st.pages ∧ st.rootPageId = tree.pid ∧ property h tree

variable {cut : Nat → Nat → Prop} {st st' : BTree} {h : Nat} {tree : Tree h} {key : Nat}

theorem Spans.represents {property : (h : Nat) → Tree h → Prop} (spans : Spans st property)
    (represents : Represents cut st tree) : property h tree := by
  obtain ⟨h', tree', holds, root, has⟩ := spans
  cases represents.holds.unique holds (represents.root.symm.trans root)
  exact has

/-- How the tree changes: only new pages join it, and where it gets higher the new root has a key.
Ids are handed out in order, so a page that is neither in the tree nor new never gets into it. -/
structure Evolves (st : BTree) {h h' : Nat} (tree : Tree h) (tree' : Tree h') : Prop where
  pids : ∀ pid ∈ tree'.pids, pid ∈ tree.pids ∨ st.newPageOffsetIndex ≤ pid
  height : h' ≤ h ∨ (h' = h + 1 ∧ tree'.Keyed)

namespace Tree

private theorem growRoot_pages {tree' : Tree h} {split : Option (Nat × Tree h)} {bound : Nat}
    (state : PreparedState st st' tree tree' split)
    (root : st'.rootPageId = tree'.pid)
    (bounded : ∀ pid, pid ∈ tree'.pids ∨ pid ∈ splitPids split → DATABASE_META_PAGE_ID < pid ∧
      pid < bound)
    (counter : st'.newPageOffsetIndex = bound) :
    Whenever (if (reportOf split).wasSplit then growRoot (reportOf split) else pure ()) st' fun _ st₂ =>
      bound ≤ st₂.newPageOffsetIndex ∧
      ∃ (h₂ : Nat) (tree₂ : Tree h₂), tree₂.Holds st₂.pages ∧ st₂.rootPageId = tree₂.pid ∧
        (h₂ ≤ h ∨ h₂ = h + 1 ∧ tree₂.Keyed) ∧
        (∀ pid, pid ∈ tree'.pids ∨ pid ∈ splitPids split → pid ∈ tree₂.pids) ∧
        ∀ pid ∈ tree₂.pids, pid ∈ tree'.pids ∨ pid ∈ splitPids split ∨
          (pid = bound ∧ pid < st₂.newPageOffsetIndex) := by
  cases split with
  | none =>
    refine whenever_pure.mpr ⟨Nat.le_of_eq counter.symm, h, tree', state.holds, root,
      .inl (Nat.le_refl h), ?_, fun pid inside => .inl inside⟩
    intro pid inside
    simpa [splitPids] using inside
  | some entry =>
    obtain ⟨boundary, new⟩ := entry
    have low := (bounded tree'.pid (.inl pid_mem_pids))
    have apart : DATABASE_META_PAGE_ID ≠ bound := by omega
    simp only [reportOf, ite_true, growRoot, whenever_bind, whenever_allocateNewPage, whenever_get,
      whenever_writePage, setNewRoot,
      whenever_requestPage, whenever_readPage, pages_record, pages_setPage, counter, if_neg apart,
        pages_allocated]
    split
    · rename_i magicNumber _ _
      simp only [whenever_bind, whenever_writePage, whenever_releasePage, whenever_modify,
        newPageOffsetIndex_record, newPageOffsetIndex_setPage,
        newPageOffsetIndex_allocated, counter]
      let row : Row Nat (Tree h) := ⟨tree', [(boundary, new)]⟩
      have shown : (InternalPage.makePage (fun _ => 0) (Memory.ofList [boundary]) 0
        (Memory.ofList [tree'.pid, new.pid]) 0 1 bound).Shows
          (row.map Tree.pid) :=
        InternalPage.shows_makePage (row.map Tree.pid) (by simp [row, Row.map, NUM_KEY_SLOTS]) rfl rfl
      refine ⟨Nat.le_succ _, h + 1, ⟨bound, row⟩, holds_node.mpr ⟨⟨_, ?_, rfl, shown⟩, ?_⟩, rfl,
        .inr ⟨rfl, by simp [Keyed, row]⟩, ?_, ?_⟩
      · simp [Ne.symm apart, root]
      · intro part member
        have below : part.Holds st'.pages ∧ ∀ pid ∈ part.pids, pid ∈ tree'.pids ∨
            pid ∈ splitPids (some (boundary, new)) := by
          rcases List.mem_cons.mp member with rfl | member
          · exact ⟨state.holds, fun pid inside => .inl inside⟩
          · obtain rfl := List.mem_singleton.mp member
            exact ⟨state.holdsNew _ _ rfl, fun pid inside => .inr inside⟩
        refine below.1.congr fun pid inside => ?_
        have range := bounded pid (below.2 pid inside)
        simp [counter, Nat.ne_of_lt range.2, Nat.ne_of_gt range.1]
      · intro pid inside
        rw [pids_node]
        exact List.mem_cons_of_mem _ (by simpa [row, splitPids] using inside)
      · intro pid inside
        rw [pids_node] at inside
        rcases List.mem_cons.mp inside with rfl | inside
        · exact .inr (.inr ⟨rfl, Nat.lt_succ_self _⟩)
        · exact (by simpa [row, splitPids] using inside : pid ∈ tree'.pids ∨ pid ∈ new.pids).imp_right .inl
    · exact whenever_throw

end Tree

theorem insert_spans (represents : Represents cut st tree) (buffer : List Byte) :
    Whenever (BTree.insert buffer key) st fun _ st' => Spans st' fun _ tree' => Evolves st tree tree' := by
  have bounded : ∀ pid ∈ tree.pids, pid < st.newPageOffsetIndex :=
    fun pid inside => (represents.bounded pid inside).2
  simp only [BTree.insert, whenever_bind, whenever_get, represents.root]
  have prepares : Ran (BTree.findPageToWrite _ tree.pid key buffer.length) st _ :=
    Tree.findPageToWrite_spec represents.fuel represents.holds represents.nodup bounded represents.valid
  refine prepares.whenever fun result st₁ _ => ?_
  rintro ⟨tree₁, split, same, placed, state⟩
  obtain ⟨report, target⟩ := result
  obtain rfl : report = Tree.reportOf split := same
  have inside := placed.target_mem
  have low := (represents.bounded _ Tree.pid_mem_pids)
  have grows := state.grows
  have range : ∀ pid, pid ∈ tree₁.pids ∨ pid ∈ Tree.splitPids split → DATABASE_META_PAGE_ID < pid ∧
      pid < st₁.newPageOffsetIndex := by
    intro pid member
    cases state.mem member with
    | inl old =>
      have := represents.bounded pid old
      omega
    | inr new => omega
  rw [whenever_when]
  refine (Tree.growRoot_pages state (by rw [state.root, represents.root, placed.pid]) range rfl).imp ?_
  rintro _ st₂ ⟨grows₂, h₂, tree₂, holds, root, height, upward, downward⟩
  have below : ∀ pid ∈ tree₂.pids, pid < st₂.newPageOffsetIndex := by
    intro pid member
    rcases downward pid member with old | new | fresh
    · exact Nat.lt_of_lt_of_le (range pid (.inl old)).2 grows₂
    · exact Nat.lt_of_lt_of_le (range pid (.inr new)).2 grows₂
    · exact fresh.2
  simp only [whenever_bind, whenever_readLeaf, whenever_writePage]
  intro leaf stored
  have member : leaf ∈ tree₂.leaves ∧ leaf.pageId = target := by
    rcases holds.kind (upward target inside) with ⟨page, found⟩ | ⟨other, among, named, found⟩
    · rw [stored] at found
      cases found
    · rw [stored] at found
      cases found
      exact ⟨among, named⟩
  generalize written : (leaf.writeChunkLeaf (.ofBuffer buffer) buffer.length key none) = outcome
  obtain ⟨full, status⟩ := outcome
  have named : full.pageId = leaf.pageId := by
    rw [← pageId_writeChunkLeaf leaf (.ofBuffer buffer) buffer.length key none, written]
  let middle := (((st₂.record (.read target)).setPage target (.leaf full)).record (.write target))
  refine (writeOverflowPages_spec buffer.length (Nat.sub_le _ _)
    (show target < middle.newPageOffsetIndex from below _ (upward _ inside))
    (by simp [middle, Page.Linkable]) status _).whenever fun last st₃ _ overflown => ?_
  obtain ⟨final, finalStored, finalNamed⟩ : ∃ final : LeafPage, st₃.pages target = .leaf final ∧
      final.pageId = full.pageId := by
    rcases overflown.chain with ⟨-, same⟩ | ⟨-, next, -, linked, -⟩
    · exact ⟨full, by rw [same]; simp [middle], rfl⟩
    · exact ⟨full.setOverflowInfo status.overflowInfoStoreAddress 1
        next, by rw [linked]; simp [middle, Page.linked], rfl⟩
  rw [whenever_releasePage, whenever_pure]
  obtain ⟨among, rfl⟩ := member
  have rewritten : Tree.Holds st₃.pages (tree₂.mapLeaves (Tree.replaceLeaf final)) := by
    refine holds.replaceLeaf among (finalNamed.trans named) finalStored fun pid inside away => ?_
    rw [overflown.frame pid (below pid inside) away]
    simp [middle, away]
  refine ⟨h₂, tree₂.mapLeaves (Tree.replaceLeaf final), rewritten, ?_, ?_,
    height.imp_right fun higher => ⟨higher.1, higher.2.mapLeaves⟩⟩
  · rw [Tree.pid_mapLeaves (Tree.pageId_replaceLeaf final), ← root]
    exact overflown.root
  · rw [Tree.pids_mapLeaves (Tree.pageId_replaceLeaf final)]
    intro pid member
    rcases downward pid member with old | new | fresh
    · exact (state.mem (.inl old)).imp_right And.left
    · exact (state.mem (.inr new)).imp_right And.left
    · exact .inr (fresh.1 ▸ grows)

/-- A deletion adds no page to the tree, and leaves out a root that is reported as not to be used
any more. -/
theorem Tree.Deletes.spans {result : DeleteStatus} (represents : Represents cut st tree)
    (deletes : Tree.Deletes cut key st tree result st') :
    Spans st' fun _ tree' => ∀ pid ∈ tree'.pids, pid ∈ tree.pids ∧
      ¬(result.pageType = .invalidPage ∧ pid = tree.pid) := by
  obtain ⟨tree', fix, deleted, changed, ending⟩ := deletes
  obtain ⟨gone, perm⟩ := deleted.pids represents.valid
  have samePid := deleted.pid represents.valid
  have inside : ∀ pid ∈ tree'.pids, pid ∈ tree.pids :=
    fun pid member => perm.mem_iff.mp (List.mem_append_left _ member)
  have nodup : tree'.pids.Nodup := (List.nodup_append.mp (perm.nodup_iff.mpr represents.nodup)).1
  rcases ending with ⟨root, -, rfl, -⟩ | ⟨rfl, -, only, -, rfl⟩
  · refine ⟨h, tree'.mapLeaves (Tree.relink fix), changed.holds, ?_, ?_⟩
    · rw [root, represents.root, Tree.pid_mapLeaves (Tree.pageId_relink fix), samePid]
    · intro pid member
      rw [Tree.pids_mapLeaves (Tree.pageId_relink fix)] at member
      refine ⟨inside pid member, fun gone => ?_⟩
      cases h with
      | zero => simp [Tree.report] at gone
      | succ h => simp [Tree.report_internal tree] at gone
  · have holds := changed.holds
    obtain ⟨id, head, rest⟩ := tree'
    obtain ⟨rfl, root⟩ : rest = [] ∧ LeafPage.pageId head = st'.rootPageId := by
      simp only [Tree.onlyChild] at only
      split at only
      next none => exact ⟨none, Option.some.inj only⟩
      next => cases only
    have leaf : Tree.Holds (h := 0) st'.pages (Tree.relink fix head) :=
      (Tree.holds_node.mp holds).2 _ (by simp [Row.children, Row.map])
    refine ⟨0, Tree.relink fix head, leaf, by rw [Tree.pid_leaf, Tree.pageId_relink, root], ?_⟩
    intro pid member
    obtain rfl : pid = LeafPage.pageId head := by simpa using member
    have below : LeafPage.pageId head ∈ Tree.pids (h := 1) ⟨id, head, []⟩ :=
      List.mem_cons_of_mem id (List.mem_singleton.mpr rfl)
    refine ⟨inside _ below, fun gone => ?_⟩
    have same : LeafPage.pageId head = id := gone.2.trans samePid.symm
    exact (List.nodup_cons.mp nodup).1 (List.mem_singleton.mpr same.symm)

theorem Tree.Deletes.left_out {result : DeleteStatus} (represents : Represents cut st tree)
    (deletes : Tree.Deletes cut key st tree result st')
    (gone : result.pageType = .invalidPage) : ∃ page, st'.pages tree.pid = .internal page := by
  obtain ⟨tree', fix, deleted, changed, ending⟩ := deletes
  rw [← deleted.pid represents.valid]
  cases h with
  | zero =>
    rcases ending with ⟨-, -, rfl, -⟩ | ⟨single, -⟩
    · simp [Tree.report] at gone
    · cases single
  | succ h =>
    obtain ⟨id, row⟩ := tree'
    obtain ⟨⟨page, stored, -⟩, -⟩ := Tree.holds_node.mp changed.holds
    exact ⟨page, stored⟩

end Datashil
