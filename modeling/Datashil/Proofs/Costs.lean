import Datashil.Proofs.AnyKeys
import Datashil.Proofs.Effects
import Datashil.Proofs.Uses
import Mathlib.Data.Nat.Log

/-! What operations cost: how often a page is requested, and how many pages are
allocated. All of it is bounded by the height of the tree. -/

namespace Datashil
open Library BTree

namespace Tree
variable {st : BTree} {h fuel key : Nat} {tree : Tree h}

private theorem descend {tree : Tree (h + 1)} (holds : tree.Holds st.pages) (key : Nat) :
    ∃ (child : Tree h) (page : InternalPage), st.pages tree.pid = .internal page ∧
      page.getChildPageId key = child.pid ∧
      child.Holds st.pages := by
  obtain ⟨id, row⟩ := tree
  obtain ⟨left, child, right, rfl, found⟩ := row.exists_found key
  obtain ⟨⟨page, stored, -, shown⟩, -, below, -⟩ := holds_focus.mp holds
  exact ⟨child, page, stored, shown.getChildPageId (found_pids found), below⟩

/-! Fuel beyond the levels of a tree is not used. -/

theorem deleteFrom_levels {stale : Nat → Nat} (holds : tree.Holds st.pages) (enough : h < fuel) :
    deleteFrom stale fuel tree.pid key st = deleteFrom stale (h + 1) tree.pid key st := by
  induction h generalizing fuel st with
  | zero =>
    obtain ⟨fuel, rfl⟩ := Nat.exists_eq_add_of_lt enough
    have stored : st.pages (LeafPage.pageId tree) = .leaf tree := holds
    rw [deleteFrom, deleteFrom, pid_leaf, requestPage_bind, requestPage_bind, readPage_bind,
      readPage_bind, pages_record, stored]
  | succ h ih =>
    obtain ⟨fuel, rfl⟩ : ∃ less, fuel = less + 1 := ⟨fuel - 1, by omega⟩
    obtain ⟨child, page, stored, next, below⟩ := descend holds key
    rw [deleteFrom, deleteFrom, requestPage_bind, requestPage_bind, readPage_bind, readPage_bind,
      pages_record, stored]
    simp only [next]
    refine bind_first_congr (ih ?_ (Nat.lt_of_succ_lt_succ enough)) _
    exact below

theorem searchFrom_levels (holds : tree.Holds st.pages) (enough : h < fuel) :
    searchFrom fuel tree.pid key st = searchFrom (h + 1) tree.pid key st := by
  induction h generalizing fuel st with
  | zero =>
    obtain ⟨fuel, rfl⟩ := Nat.exists_eq_add_of_lt enough
    have stored : st.pages (LeafPage.pageId tree) = .leaf tree := holds
    rw [searchFrom, searchFrom, pid_leaf, requestPage_bind, requestPage_bind, readPage_bind,
      readPage_bind, pages_record, stored]
  | succ h ih =>
    obtain ⟨fuel, rfl⟩ : ∃ less, fuel = less + 1 := ⟨fuel - 1, by omega⟩
    obtain ⟨child, page, stored, next, below⟩ := descend holds key
    rw [searchFrom, searchFrom, requestPage_bind, requestPage_bind, readPage_bind, readPage_bind,
      pages_record, stored]
    simp only [next]
    exact ih below (Nat.lt_of_succ_lt_succ enough)

theorem findPageToWrite_levels {size : Nat} (holds : tree.Holds st.pages) (enough : h < fuel) :
    findPageToWrite fuel tree.pid key size st = findPageToWrite (h + 1) tree.pid key size st := by
  induction h generalizing fuel st with
  | zero =>
    obtain ⟨fuel, rfl⟩ := Nat.exists_eq_add_of_lt enough
    have stored : st.pages (LeafPage.pageId tree) = .leaf tree := holds
    rw [findPageToWrite, findPageToWrite, pid_leaf, requestPage_bind, requestPage_bind, readPage_bind,
      readPage_bind, pages_record, stored]
  | succ h ih =>
    obtain ⟨fuel, rfl⟩ : ∃ less, fuel = less + 1 := ⟨fuel - 1, by omega⟩
    obtain ⟨child, page, stored, next, below⟩ := descend holds key
    rw [findPageToWrite, findPageToWrite, requestPage_bind, requestPage_bind, readPage_bind,
      readPage_bind, pages_record, stored]
    simp only [next]
    refine bind_first_congr (ih ?_ (Nat.lt_of_succ_lt_succ enough)) _
    exact below

end Tree

/-! ### Insertion -/

/-- How much of a payload a leaf takes wherever `FindPageToWrite` leads to it. -/
def LEAF_SHARE : Nat := MIN_LEAF_PAGE_DATA - SLOT_SIZE - TUPLE_HEADER_SIZE

theorem LeafPage.HasRoom.share {leaf : LeafPage} {size : Nat} (room : leaf.HasRoom size)
    (fits : size < 4294967296 - SLOT_SIZE - TUPLE_HEADER_SIZE)
    (buffer : Pointer) (key : Nat) :
    size - (leaf.writeChunkLeaf buffer size key none).2.written ≤ size - LEAF_SHARE := by
  have most : MAX_LEAF_PAGE_DATA = 813 := rfl
  simp only [HasRoom, SLOT_SIZE, TUPLE_HEADER_SIZE, MIN_LEAF_PAGE_DATA] at room fits
  simp only [writeChunkLeaf, SLOT_SIZE, TUPLE_HEADER_SIZE, most, LEAF_SHARE, MIN_LEAF_PAGE_DATA,
    u32_eq (show 5 + 13 + size < 4294967296 by omega)]
  generalize leaf.checkAvailableSpace + leaf.checkGarbageBytes = total at room ⊢
  split <;> simp only [placeTuple, TUPLE_HEADER_SIZE, u16] <;> omega

/-- Insertion allocates a page on each level at most, a new root, and a chain for what the leaf does
not take. -/
theorem insert_spends {cut : Nat → Nat → Prop} {st : BTree} {h key : Nat} {tree : Tree h}
    (represents : Represents cut st tree) {buffer : List Byte}
    (fits : buffer.length < 4294967296 - SLOT_SIZE - TUPLE_HEADER_SIZE) :
    Whenever (BTree.insert buffer key) st fun _ st' =>
      Effects (2 * h + 4 + overflowPages (buffer.length - LEAF_SHARE))
        (h + 2 + overflowPages (buffer.length - LEAF_SHARE)) st st' := by
  have loose := represents.loosen
  simp only [BTree.insert, whenever_bind, whenever_get, loose.root]
  have prepares : Ran (BTree.findPageToWrite _ tree.pid key buffer.length) st _ :=
    Tree.findPageToWrite_spec loose.fuel loose.holds loose.nodup
    (fun pid inside => (loose.bounded pid inside).2) loose.valid
  refine prepares.whenever
    ((Whenever.of_eq (Tree.findPageToWrite_levels loose.holds loose.fuel)
    (Spends.findPageToWrite _ _ _ _ st)).imp ?_)
  rintro result st₁ descended ⟨tree₁, split, reported, placed, state⟩
  rw [whenever_when]
  have grown : Spends 2 1 (if result.1.wasSplit then growRoot result.1 else Pure.pure ()) := by
    split
    · exact .growRoot result.1
    · exact .pure ()
  have grows := growRoot_spec .loose loose (fun rel => absurd rel not_cut_loose) placed state
  rw [← reported] at grows
  refine grows.whenever ((grown st₁).imp ?_)
  rintro - st₂ ascended ⟨h₂, tree₂, grown⟩
  simp only [whenever_bind, whenever_readLeaf, whenever_writePage, whenever_releasePage, whenever_pure]
  intro leaf stored
  have room : leaf.HasRoom buffer.length := grown.room stored
  have fewer : overflowPages (buffer.length -
    (leaf.writeChunkLeaf (.ofBuffer buffer) buffer.length key none).2.written) ≤
      overflowPages (buffer.length - LEAF_SHARE) :=
        Nat.div_le_div_right (Nat.add_le_add_right (room.share fits _ _) _)
  have rest := Spends.store leaf result.2 buffer key (st₂.record (.read result.2))
  simp only [whenever_bind, whenever_writePage, whenever_releasePage, whenever_pure] at rest
  refine rest.imp fun _ st₃ written => ?_
  have all := ((descended.trans ascended).trans (.record st₂ (.read result.2))).trans written
  exact all.le (by simp [Access.isRequest]; omega) (by omega)

/-! ### All operations -/

/-- What an operation may cost in a tree of some height: requests, and pages of the file. -/
def Operation.bounds (h : Nat) : Operation → Nat × Nat
  | .insert buffer _ =>
    let chain := overflowPages (buffer.length - LEAF_SHARE)
    (2 * h + 4 + chain, h + 2 + chain)
  | .delete _ => (7 * h + 1, 0)
  | .search _ => (h + 1, 0)

def Operation.Keeps (operation : Operation) (h : Nat) (st : BTree) : Prop :=
  Whenever (perform operation) st fun _ st' => st'.requests ≤ st.requests + (operation.bounds h).1 ∧
    st'.newPageOffsetIndex ≤ st.newPageOffsetIndex + (operation.bounds h).2

theorem Represents.keeps {cut : Nat → Nat → Prop} {st : BTree} {h : Nat} {tree : Tree h}
    (represents : Represents cut st tree) {operation : Operation}
    (storing : Storing st operation) : operation.Keeps h st := by
  suffices effects : Whenever (perform operation) st fun _ st' =>
    Effects (operation.bounds h).1 (operation.bounds h).2 st st' from
    effects.imp fun _ _ effects => ⟨effects.requests, effects.allocates⟩
  cases operation with
  | insert buffer key =>
    simp only [perform, whenever_bind, whenever_pure]
    exact insert_spends represents (storing buffer key rfl).most
  | delete key =>
    simp only [perform, BTree.delete, whenever_bind, whenever_get, represents.root, whenever_pure]
    exact .of_eq (Tree.deleteFrom_levels represents.holds represents.fuel) (Spends.deleteFrom _ _ _ _ st)
  | search key =>
    simp only [perform, BTree.search, whenever_bind, whenever_get, represents.root, whenever_pure]
    exact .of_eq (Tree.searchFrom_levels represents.holds represents.fuel) (Spends.searchFrom _ _ _ st)

/-- After any use, every operation needs a number of pages that is logarithmic in the number of pages
there are, apart from the chain it writes, even where deletions have left pages without keys. -/
theorem operations_logarithmic {usages : List Usage} {st : BTree} (used : Used usages st)
    (fresh : Fresh .empty (usages.map Usage.operation)) :
    ∃ h ≤ Nat.log 128 (st.newPageOffsetIndex / 2) + 1, ∀ operation, Storing st operation →
      operation.Keeps h st := by
  obtain ⟨h, tree, resting⟩ := used.rests fresh
  refine ⟨h, ?_, fun operation storing => resting.represents.keeps storing⟩
  cases resting.affords with
  | inl flat => exact flat ▸ Nat.zero_le _
  | inr enough =>
    have fits : 128 ^ (h - 1) ≤ st.newPageOffsetIndex / 2 :=
      (Nat.le_div_iff_mul_le (by decide)).mpr (by omega)
    have := Nat.le_log_of_pow_le (by decide) fits
    omega

theorem operations_logarithmic_firstRun : ∃ st, Used firstRun st ∧
    ∃ h ≤ Nat.log 128 (st.newPageOffsetIndex / 2) + 1, ∀ operation, Storing st operation →
      operation.Keeps h st := by
  obtain ⟨st, used, -⟩ := used_firstRun
  exact ⟨st, used, operations_logarithmic used fresh_varied⟩

end Datashil
