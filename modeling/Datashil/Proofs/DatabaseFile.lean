import Datashil.Proofs.Effects
import Datashil.Proofs.PageFormat
import Datashil.Proofs.PageIds
import Datashil.Proofs.Restart

/-! The database file as bytes. A tree whose pages have been written as bytes and read again stands
for the same finite map. -/

namespace Datashil
open Library LeafPage BTree

def BTree.reread (st : BTree) (before : Nat → PageBuffer) : BTree :=
  { st with pages := fun pid => .decode pid (DatabaseFile.blocksOf st.pages st.newPageOffsetIndex before pid) }

variable {st : BTree} {before : Nat → PageBuffer} {h : Nat} {tree : Tree h} {contents : Contents}
    {payloads : List (List Byte)}

theorem BTree.pages_reread {pid : Nat} (inside : pid < st.newPageOffsetIndex) :
    (st.reread before).pages pid = .decode pid ((st.pages pid).encode (before pid)) := by
  simp only [reread, DatabaseFile.blocksOf, if_pos inside]

theorem BTree.pages_reread_outside {pid : Nat} (outside : st.newPageOffsetIndex ≤ pid) :
    (st.reread before).pages pid = .blank := by
  simp only [reread, DatabaseFile.blocksOf, if_neg (Nat.not_lt_of_le outside), Page.decode_nil]

/-! ### The tree -/

/-- The pages of a tree come back as a tree, if all ids and keys fit into eight bytes. -/
theorem Tree.Holds.reread {low high : Nat} (holds : tree.Holds st.pages)
    (within : Within (· < ·) low tree high) (limit : high ≤ KEY_LIMIT)
    (bounded : ∀ pid ∈ tree.pids, DATABASE_META_PAGE_ID < pid ∧ pid < st.newPageOffsetIndex)
    (addressable : Addressable st)
    (right : ∀ leaf ∈ tree.leaves, leaf.rightPid < 18446744073709551616) :
    (tree.mapLeaves LeafPage.reread).Holds (st.reread before).pages := by
  induction h generalizing low high with
  | zero =>
    have stored : st.pages (LeafPage.pageId tree) = .leaf tree := holds
    obtain ⟨other, inside⟩ := bounded (LeafPage.pageId tree) (by simp)
    have small := Nat.lt_of_lt_of_le inside addressable
    rw [mapLeaves_leaf, holds_leaf, LeafPage.pageId_reread, pages_reread inside, stored,
      Page.decode_leaf (Nat.ne_of_gt other),
      LeafPage.decode_encode small (right tree (by simp))]
  | succ h ih =>
    obtain ⟨id, row⟩ := tree
    obtain ⟨⟨page, stored, named, shown⟩, below⟩ := holds_node.mp holds
    obtain ⟨other, inside⟩ := bounded id (by simp)
    have children : ∀ child ∈ row.children, ∀ pid ∈ child.pids, DATABASE_META_PAGE_ID < pid ∧
        pid < st.newPageOffsetIndex :=
      fun child member pid found => bounded pid (mem_pids_child member found)
    rw [mapLeaves_node]
    refine holds_node.mpr ⟨⟨.decode (page.encode (before id)), ?_, ?_, ?_⟩, ?_⟩
    · rw [pages_reread inside, stored, Page.decode_internal (Nat.ne_of_gt other)]
    · refine (InternalPage.read_header 1 rfl rfl).trans ?_
      rw [named]
      exact Nat.mod_eq_of_lt (Nat.lt_of_lt_of_le inside addressable)
    · have rows : (row.map (Tree.mapLeaves LeafPage.reread)).map pid = row.map pid := by
        apply Row.ext_keys_children
        · simp
        · simp [Tree.pid_mapLeaves LeafPage.pageId_reread]
      rw [rows]
      refine shown.reread (fun key member => ?_) fun child member => ?_
      · rw [Row.keys_map] at member
        have keys := (List.pairwise_append.mp (within.row_keys Cut.strict)).2.2 key
          (.tail _ member) high (.head _)
        exact Nat.lt_of_lt_of_le keys limit
      · rw [Row.children_map] at member
        obtain ⟨subtree, among, rfl⟩ := List.mem_map.mp member
        exact Nat.lt_of_lt_of_le (children subtree among _ pid_mem_pids).2 addressable
    · intro child member
      rw [Row.children_map] at member
      obtain ⟨subtree, among, rfl⟩ := List.mem_map.mp member
      obtain ⟨low', high', -, le, inner⟩ := within.child Cut.strict among
      exact ih (below subtree among) inner (Nat.le_trans le limit) (children subtree among)
        fun leaf found => right leaf (mem_leaves_node.mpr ⟨subtree, among, found⟩)

/-- Each page of a tree takes a block, which says whose it is. -/
theorem Tree.Holds.blocks (holds : tree.Holds st.pages) (valid : ∀ leaf ∈ tree.leaves, leaf.Valid)
    (small : ∀ pid ∈ tree.pids, pid < 18446744073709551616) {pid : Nat} (inside : pid ∈ tree.pids)
    (before : PageBuffer) :
    ((st.pages pid).encode before).length = PAGE_SIZE ∧
      Packed.read ((st.pages pid).encode before) 1 8 = pid := by
  induction h with
  | zero =>
    obtain rfl : pid = LeafPage.pageId tree := by simpa [pids] using inside
    have stored : st.pages (LeafPage.pageId tree) = .leaf tree := holds
    obtain ⟨below, fits⟩ := (valid tree (by simp)).slotArrayEnd_le
    rw [stored, Page.encode]
    exact ⟨LeafPage.length_encode (Nat.le_trans below fits),
      (LeafPage.read_header 1 rfl rfl).trans (Nat.mod_eq_of_lt (small _ inside))⟩
  | succ h ih =>
    obtain ⟨id, row⟩ := tree
    obtain ⟨⟨page, stored, named, -⟩, below⟩ := holds_node.mp holds
    rw [pids_node] at inside
    cases List.mem_cons.mp inside with
    | inl own =>
      have fits := small id (by simp)
      subst own
      rw [stored, Page.encode]
      refine ⟨page.length_encode before, (InternalPage.read_header 1 rfl rfl).trans ?_⟩
      rw [named]
      exact Nat.mod_eq_of_lt fits
    | inr deeper =>
      rw [Row.mem_trail] at deeper
      rcases deeper with ⟨child, member, found⟩ | ⟨_, _, none⟩
      · exact ih (below child member) (fun leaf among =>
          valid leaf (mem_leaves_node.mpr ⟨child, member, among⟩))
          (fun pid found => small pid (mem_pids_child member found)) found
      · simp at none

/-! ### Overflow chains -/

theorem Chained.lt_bound {pages : Nat → Page} {bound pid : Nat} {bytes : List Byte}
    (chained : Chained pages bound pid bytes) : pid < bound := by
  cases chained with
  | last inside => exact inside
  | more inside => exact inside

theorem Chained.reread {pid : Nat} {bytes : List Byte}
    (chained : Chained st.pages st.newPageOffsetIndex pid bytes) (flagged : st.Flagged)
    (addressable : Addressable st) (other : ∀ page, st.pages DATABASE_META_PAGE_ID ≠ .overflow page) :
    Chained (st.reread before).pages st.newPageOffsetIndex pid bytes := by
  have back : ∀ {pid : Nat} {page : OverflowPage}, pid < st.newPageOffsetIndex →
    st.pages pid = .overflow page →
      (st.reread before).pages pid = .overflow (.decode page.encode) ∧
        (OverflowPage.decode page.encode).overflow = page.overflow := by
    intro pid page inside stored
    have apart : pid ≠ DATABASE_META_PAGE_ID := fun same => other page (same ▸ stored)
    have byte := flagged pid
    rw [stored] at byte
    refine ⟨?_, OverflowPage.overflow_decode byte⟩
    rw [pages_reread inside, stored, Page.decode_overflow apart]
  induction chained with
  | last below stored flag fits content =>
    obtain ⟨stored', overflow⟩ := back below stored
    exact .last below stored' (overflow.trans flag) fits ((OverflowPage.read_decode fits).trans content)
  | more below stored flag full content chain ih =>
    obtain ⟨stored', overflow⟩ := back below stored
    have next := OverflowPage.overflowPage_decode (Nat.lt_of_lt_of_le chain.lt_bound addressable)
    exact .more below stored' (overflow.symm ▸ flag) full
      ((OverflowPage.read_decode (Nat.le_of_eq full)).trans content) (next.symm ▸ ih)

theorem Filed.reread {raw payload : List Byte} (filed : Filed st raw payload) (flagged : st.Flagged)
    (addressable : Addressable st)
    (other : ∀ page, st.pages DATABASE_META_PAGE_ID ≠ .overflow page) :
    Filed (st.reread before) raw payload := by
  obtain ⟨size, rest, parts, spelled⟩ := filed.spells addressable
  refine ⟨filed.keyed, fun _ => ⟨size, rest, parts, ?_⟩⟩
  exact spelled.imp_right fun more => ⟨more.1, more.2.reread flagged addressable other⟩

/-! ### The tree object -/

theorem Stores.reread (stores : Stores (· < ·) st tree payloads) (flagged : st.Flagged)
    (addressable : Addressable st) :
    Stores (· < ·) (st.reread before) (tree.mapLeaves LeafPage.reread) payloads := by
  have represents := stores.represents
  have small : ∀ pid ∈ tree.pids, pid < 18446744073709551616 :=
    fun pid inside => Nat.lt_of_lt_of_le (represents.bounded pid inside).2 addressable
  have right : ∀ leaf ∈ tree.leaves, leaf.rightPid < 18446744073709551616 := by
    intro leaf member
    cases (stores.linked Cut.strict).mem member with
    | inl last => exact last ▸ Nat.zero_lt_succ _
    | inr other =>
      obtain ⟨other, among, same⟩ := other
      exact same ▸ small _ (Tree.pageId_mem_pids among)
  have root := represents.bounded _ Tree.pid_mem_pids
  have tuples : ∀ leaf ∈ tree.leaves, leaf.reread.tuples = leaf.tuples :=
    fun leaf member => (represents.valid leaf member).tuples_reread
  have reopened : Represents (· < ·) (st.reread before) (tree.mapLeaves LeafPage.reread) := by
    refine ⟨?_, ?_, represents.holds.reread (represents.within Cut.strict)
      (Nat.le_refl _) represents.bounded addressable right, ?_, ?_, ?_,
      fun _ => ?_, ?_⟩
    · rw [Tree.pid_mapLeaves LeafPage.pageId_reread]
      exact represents.root
    · rw [Tree.pid_mapLeaves LeafPage.pageId_reread, pages_reread (Nat.lt_trans root.1 root.2),
        represents.metaPage,
        Page.decode_databaseMeta (small _ Tree.pid_mem_pids)]
    · rw [Tree.pids_mapLeaves LeafPage.pageId_reread]
      exact represents.nodup
    · rw [Tree.pids_mapLeaves LeafPage.pageId_reread]
      exact represents.bounded
    · rw [Tree.leaves_mapLeaves]
      intro leaf member
      obtain ⟨before, among, rfl⟩ := List.mem_map.mp member
      exact (represents.valid before among).reread
    · refine (represents.within Cut.strict).mapLeaves_same fun leaf member tuple found => ⟨tuple, ?_, rfl⟩
      rwa [tuples leaf member] at found
    · refine represents.rooted.mapLeaves fun leaf member some => ?_
      rwa [tuples leaf member]
  have linked : RightLinked (tree.mapLeaves LeafPage.reread).leaves 0 := by
    rw [Tree.leaves_mapLeaves]
    exact (stores.linked Cut.strict).map fun leaf _ => ⟨leaf.pageId_reread, leaf.rightPid_reread⟩
  refine ⟨reopened, reopened.guided linked, fun _ => linked, ?_⟩
  · have same : (tree.mapLeaves LeafPage.reread).tuples = tree.tuples := by
      rw [Tree.tuples, Tree.leaves_mapLeaves, List.flatMap_map, Tree.tuples]
      exact List.flatMap_congr tuples
    rw [same]
    exact stores.filed.imp fun raw payload filed =>
      filed.reread flagged addressable (by simp [represents.metaPage])

theorem Resting.reread (resting : Resting st tree contents) (flagged : st.Flagged)
    (addressable : Addressable st) :
    Resting (st.reread before) (tree.mapLeaves LeafPage.reread) contents := by
  obtain ⟨keeps, balanced, affords⟩ := resting
  obtain ⟨payloads, stores, lists⟩ := keeps
  have metaPage := stores.represents.metaPage
  refine ⟨⟨payloads, stores.reread flagged addressable, lists⟩,
    ⟨balanced.held, fun pid unmarked => ?_, fun pid outside => ?_⟩, affords⟩
  · obtain ⟨away, old, page, stored⟩ := balanced.unmarked pid unmarked
    have apart : pid ≠ DATABASE_META_PAGE_ID := by
      rintro rfl
      rw [metaPage] at stored
      cases stored
    rw [Tree.pids_mapLeaves LeafPage.pageId_reread]
    exact ⟨away, old, _, by rw [pages_reread old, stored, Page.decode_internal apart]⟩
  · by_cases inside : pid < st.newPageOffsetIndex
    · rw [pages_reread inside, balanced.blank pid outside, Page.decode_blank]
    · exact pages_reread_outside (Nat.le_of_not_lt inside)

/-! ### The page of the storage manager -/

theorem Storage.bootstrap_same {α : Type} {storage : Storage α}
    (same : storage.storedIndex = storage.newPageOffsetIndex) :
    storage.bootstrap = storage := by
  obtain ⟨disk, storedIndex, newPageOffsetIndex⟩ := storage
  cases same
  rfl

namespace StorageManager

structure Counts (manager : StorageManager) : Prop where
  whole : manager.metaPage.length = PAGE_SIZE
  magic : magicNumber manager.metaPage = STORAGE_MANAGER_MAGIC_NUMBER
  index : pageOffsetIndex manager.metaPage = manager.newPageOffsetIndex

/-- Where no access fails, the counter goes up with every allocation. -/
theorem Counts.allocateAll {allocations : List Allocation} {manager : StorageManager}
    (counts : manager.Counts)
    (smooth : ∀ allocation ∈ allocations, allocation.Smooth)
    (room : manager.newPageOffsetIndex + allocations.length < 18446744073709551616) :
    (allocations.foldl (fun manager allocation => (manager.allocateNewPage allocation).2) manager).Counts ∧
      (allocations.foldl (fun manager allocation => (manager.allocateNewPage allocation).2)
        manager).newPageOffsetIndex =
        manager.newPageOffsetIndex + allocations.length := by
  induction allocations generalizing manager with
  | nil => exact ⟨counts, rfl⟩
  | cons allocation allocations ih =>
    rw [List.length_cons] at room
    have good := smooth allocation (.head _)
    have read : transferred allocation.read = PAGE_SIZE := by rw [good.read]; rfl
    have written : transferred allocation.written = PAGE_SIZE := by rw [good.written]; rfl
    have harmless : Harmless allocation := ⟨.inl (by rw [read]; decide), .inr (by rw [written]; decide)⟩
    obtain ⟨metaPage, made, left⟩ := allocateNewPage_spec counts.whole harmless (by omega)
    have next : (manager.allocateNewPage allocation).2.Counts := by
      rw [made]
      cases left with
      | inl few =>
        rw [written] at few
        exact absurd few.1 (by decide)
      | inr stored =>
        obtain ⟨-, whole, magic, index⟩ := stored
        exact ⟨whole, magic.trans counts.magic, index⟩
    have counter : (manager.allocateNewPage allocation).2.newPageOffsetIndex =
        manager.newPageOffsetIndex + 1 := by
      rw [made]
    obtain ⟨final, count⟩ := ih next (fun allocation member => smooth allocation (.tail _ member))
      (by rw [counter]; omega)
    rw [List.foldl_cons, List.length_cons]
    exact ⟨final, by rw [count, counter]; omega⟩

end StorageManager

namespace DatabaseFile
open StorageManager

/-- A file that agrees with a tree object. -/
structure Records (file : DatabaseFile) (st : BTree) {h : Nat} (tree : Tree h) : Prop where
  whole : file.metaPage.length = PAGE_SIZE
  magic : magicNumber file.metaPage = STORAGE_MANAGER_MAGIC_NUMBER
  index : pageOffsetIndex file.metaPage = st.newPageOffsetIndex
  pages : ∀ pid, st.ledger.unmarked pid = false → .decode pid (file.blocks pid) = st.pages pid
  blocks : ∀ pid ∈ tree.pids, (file.blocks pid).length = PAGE_SIZE ∧ Packed.read (file.blocks pid) 1 8 = pid

/-- What the bytes stand for: nothing yet, or what a tree object stood for. -/
def Opens (file : DatabaseFile) (contents : Contents) : Prop :=
  (file = .absent ∧ contents = .empty) ∨ ∃ (st : BTree) (h : Nat) (tree : Tree h),
    Resting st tree contents ∧ file.Records st tree

variable {file : DatabaseFile} {startup : Startup}

theorem storage_absent (smooth : startup.Smooth) :
    (StorageManager.bootstrap absent.metaPage startup).Counts ∧ absent.storage startup = .created := by
  have written : transferred startup.metaWrite = PAGE_SIZE := by rw [smooth.metaWrite]; rfl
  have read : transferred startup.indexRead = PAGE_SIZE := by rw [smooth.indexRead]; rfl
  obtain ⟨metaPage, made, whole, magic, index⟩ :=
    @bootstrap_create startup ⟨by rw [written]; decide, .inl written, by rw [read]; decide⟩
  have manager : StorageManager.bootstrap absent.metaPage startup =
      ⟨metaPage, DATABASE_META_PAGE_ID + 1⟩ :=
    made
  have blank : (fun pid => Page.decode pid (absent.blocks pid)) = fun _ => .blank := funext Page.decode_nil
  rw [storage, blank, manager]
  exact ⟨⟨whole, magic, index⟩, by rw [index, Storage.created]⟩

theorem Records.storage (records : file.Records st tree) (smooth : startup.Smooth) :
    StorageManager.bootstrap file.metaPage startup = ⟨file.metaPage, st.newPageOffsetIndex⟩ ∧
      Saves (file.storage startup) st := by
  have magicRead : transferred startup.magicRead = PAGE_SIZE := by rw [smooth.magicRead]; rfl
  have indexRead : transferred startup.indexRead = PAGE_SIZE := by rw [smooth.indexRead]; rfl
  have known : isDatabaseFile file.metaPage startup = true :=
    isDatabaseFile_of_magic records.whole records.magic (by rw [magicRead]; decide)
  have manager : StorageManager.bootstrap file.metaPage startup = ⟨file.metaPage, st.newPageOffsetIndex⟩ := by
    rw [bootstrap_of_database records.whole known (by rw [indexRead]; decide), records.index]
  refine ⟨manager, ?_, fun pid settled => records.pages pid settled⟩
  rw [DatabaseFile.storage, manager]
  exact records.index

/-- The storage manager is ready, and the pool finds the same storage that it would after a start
without bytes. -/
theorem Opens.starts (opens : file.Opens contents) (smooth : startup.Smooth) :
    (StorageManager.bootstrap file.metaPage startup).Counts ∧
      (file.storage startup).bootstrap = file.storage startup ∧
      Resumes (file.storage startup) contents := by
  rcases opens with ⟨rfl, rfl⟩ | ⟨st, h, tree, resting, records⟩
  · obtain ⟨counts, same⟩ := storage_absent smooth
    rw [same]
    exact ⟨counts, rfl, .inl ⟨rfl, rfl⟩⟩
  · obtain ⟨manager, saves⟩ := records.storage smooth
    refine ⟨?_, ?_, .inr ⟨st, h, tree, resting, saves⟩⟩
    · rw [manager]
      exact ⟨records.whole, records.magic, records.index⟩
    · have counter : (file.storage startup).newPageOffsetIndex = st.newPageOffsetIndex := by
        rw [DatabaseFile.storage, manager]
      exact Storage.bootstrap_same (saves.storedIndex.trans counter.symm)

end DatabaseFile

/-! ### Runs -/

theorem BTree.flagged_unopened {file : DatabaseFile} {startup : StorageManager.Startup} :
    (unopened (file.storage startup)).Flagged := by
  intro pid
  cases decoded : (unopened (file.storage startup)).pages pid with
  | overflow page => exact Page.flagged_decode pid (file.blocks pid) page decoded
  | _ => trivial

/-- What the bytes stand for after any number of runs. -/
theorem Persisted.opens {usages : List Usage} {file : DatabaseFile} (persisted : Persisted usages file)
    (fresh : Fresh .empty (usages.map Usage.operation)) :
    file.Opens (Contents.empty.applyAll (usages.map Usage.operation)) := by
  induction persisted with
  | absent => exact .inl ⟨rfl, rfl⟩
  | @stopped usages more file startup allocations before frames st₀ st session results persisted smooth
      allocates constructed returned counted
      count hosted ih =>
    rw [List.map_append] at fresh ⊢
    obtain ⟨earlier, later⟩ := fresh_append.mp fresh
    obtain ⟨counts, same, resumes⟩ := (ih earlier).starts smooth
    have addressable : Addressable st := Nat.le_of_lt counted
    rw [← same] at constructed hosted
    obtain ⟨h, tree, running⟩ := resumes.running constructed returned later addressable
    have saves := running.saves hosted
    have resting := running.resting
    have represents := resting.represents
    have flagged : st.Flagged := by
      rw [same] at constructed
      exact (Moves.useAll more).flagged returned (Spends.construct.moves.flagged constructed flagged_unopened)
    have block : ∀ pid, st.ledger.unmarked pid = false →
        DatabaseFile.blocksOf (session.pool.destroy fun _ => .whole).disk
          (session.pool.destroy fun _ => .whole).storedIndex before pid =
          DatabaseFile.blocksOf st.pages st.newPageOffsetIndex before pid := by
      intro pid settled
      rw [DatabaseFile.blocksOf, saves.storedIndex, saves.disk pid settled, DatabaseFile.blocksOf]
    obtain ⟨final, total⟩ := counts.allocateAll allocates (Nat.lt_of_le_of_lt (Nat.le_of_eq count) counted)
    refine .inr ⟨st.reread before, h, tree.mapLeaves LeafPage.reread, ?_, final.whole, final.magic,
      final.index.trans (total.trans count), ?_, ?_⟩
    · simpa only [Contents.applyAll, List.foldl_append] using resting.reread flagged addressable
    · intro pid settled
      have written := block pid settled
      simp only [DatabaseFile.saved, BTree.reread, written]
    · intro pid inside
      rw [Tree.pids_mapLeaves LeafPage.pageId_reread] at inside
      have range := (represents.bounded pid inside).2
      have written := block pid (resting.settled (.inl inside))
      rw [DatabaseFile.blocksOf.eq_1 st.pages, if_pos range] at written
      simp only [DatabaseFile.saved, written]
      exact represents.holds.blocks represents.valid
        (fun pid inside => Nat.lt_of_lt_of_le (represents.bounded pid inside).2 addressable) inside _

theorem StorageManager.pageOffsetIndex_lt (page : List Byte) :
    pageOffsetIndex page < 18446744073709551616 := by
  have most : ((page.drop MAGIC_NUMBER_SIZE).take 8).length ≤ 8 := List.length_take_le _ _
  exact Nat.lt_of_lt_of_le (LittleEndian.decode_lt _) (Nat.pow_le_pow_right (by decide) most)

theorem DatabaseFile.Opens.construct {file : DatabaseFile} {startup : StorageManager.Startup}
    (opens : file.Opens contents) (smooth : startup.Smooth) :
    Ran BTree.construct (unopened (file.storage startup)) fun _ st =>
      (∃ (h : Nat) (tree : Tree h), Resting st tree contents) ∧ Addressable st ∧
        (file.metaPage ≠ [] → file.WellFormed st) := by
  rcases opens with ⟨rfl, rfl⟩ | ⟨st, h, tree, resting, records⟩
  · obtain ⟨-, same⟩ := storage_absent smooth
    rw [same]
    have resumes : Resumes Storage.created .empty := .inl ⟨rfl, rfl⟩
    refine resumes.construct.imp fun _ st opened => ?_
    obtain ⟨-, stands, few⟩ := opened
    exact ⟨stands, Nat.le_trans few (by decide), fun some => absurd rfl some⟩
  · have starts := (DatabaseFile.Opens.starts (.inr ⟨st, h, tree, resting, records⟩) smooth).2.1
    have opened := resting.reopens (records.storage smooth).2
    rw [starts] at opened
    refine opened.imp fun _ st' opened => ?_
    obtain ⟨-, resting', -, counter, -⟩ := opened
    have addressable : Addressable st' := by
      rw [Addressable, counter, ← records.index]
      exact Nat.le_of_lt (StorageManager.pageOffsetIndex_lt _)
    refine ⟨⟨h, tree, resting'⟩, addressable, fun _ => ⟨records.whole, records.index.trans counter.symm, ?_⟩⟩
    rw [resting'.represents.pids]
    exact records.blocks

/-- Over any number of runs, the bytes of the database file are the finite map of all that has been
done to it. -/
theorem file_refines_finite_map {usages : List Usage} {file : DatabaseFile}
    {startup : StorageManager.Startup} (persisted : Persisted usages file)
    (smooth : startup.Smooth) (fresh : Fresh .empty (usages.map Usage.operation)) :
    Ran construct (unopened (file.storage startup)) fun _ st =>
      (file.metaPage ≠ [] → file.WellFormed st) ∧ ∀ key,
      Ran (search key) st fun stream st' =>
        (stream.isEOF = false ↔ (Contents.empty.applyAll (usages.map Usage.operation) key).isSome) ∧
        ∀ sizes, Ran (stream.nextAll sizes) st' fun result _ =>
          result.1 = PayloadStream.pieces sizes
            ((Contents.empty.applyAll (usages.map Usage.operation) key).getD []) := by
  refine ((persisted.opens fresh).construct smooth).imp fun _ st opened => ?_
  obtain ⟨⟨h, tree, resting⟩, addressable, wellFormed⟩ := opened
  exact ⟨wellFormed, resting.finds addressable⟩

theorem file_refines_finite_map_firstRun : ∃ file, Persisted firstRun file ∧
    Ran construct (unopened (file.storage Allocator.smooth)) fun _ st =>
      (file.metaPage ≠ [] → file.WellFormed st) ∧ ∀ key,
      Ran (search key) st fun stream st' =>
        (stream.isEOF = false ↔ (Contents.empty.applyAll (firstRun.map Usage.operation) key).isSome) ∧
        ∀ sizes, Ran (stream.nextAll sizes) st' fun result _ =>
          result.1 = PayloadStream.pieces sizes
            ((Contents.empty.applyAll (firstRun.map Usage.operation) key).getD []) := by
  have smooth : Allocator.smooth.Smooth := ⟨rfl, rfl, rfl, rfl⟩
  obtain ⟨-, same⟩ := DatabaseFile.storage_absent smooth
  obtain ⟨st₀, st, results, session, constructed, returned, counter, -, hosted⟩ := hosted_firstRun
  have created : Storage.created.bootstrap = DatabaseFile.absent.storage Allocator.smooth := same.symm
  rw [created] at constructed hosted
  have allocates : ∀ allocation ∈ List.replicate 5 (Allocator.allocation (some PAGE_SIZE)),
      allocation.Smooth := by
    intro allocation member
    rw [List.eq_of_mem_replicate member]
    exact ⟨rfl, rfl⟩
  have persisted : Persisted firstRun _ :=
    @Persisted.stopped [] firstRun _ _ _ (fun _ => Allocator.zeros) _ _ _ _ _ .absent smooth allocates
    constructed returned
    (by rw [counter]; decide) (by rw [same, counter]; rfl) hosted
  exact ⟨_, persisted, file_refines_finite_map persisted smooth fresh_varied⟩

end Datashil
