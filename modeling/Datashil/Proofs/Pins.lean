import Datashil.Proofs.DeleteAccounts
import Datashil.Proofs.Growth
import Datashil.Proofs.Streaming

/-! Pins over whole histories. Between two operations nothing is pinned, and the only
pages with changes that may be lost are roots that have given way to their last leaf. -/

namespace Datashil
open Library LeafPage BTree

/-! ### Reading -/

theorem Accounted.visit {limit : Nat} {st st₁ : BTree} {held : Multiset Nat} {touched : Set Nat}
    (accounted : Accounted limit st held touched st₁)
    (pid : Nat) (room : held.card < limit) (live : st.Live pid) (kept : pid ∈ touched → pid ∈ held) :
    Accounted limit st held touched
      (((st₁.record (.request pid)).record (.read pid)).record (.release pid false)) := by
  have released := ((accounted.request pid room live kept).read pid (by simp)).release pid (by simp)
  rwa [Multiset.erase_cons_head] at released

theorem whenever_readBytes {tree : BTree} {pid : Nat} {post : Memory Byte → BTree → Prop} :
    Whenever (readBytes pid) tree post ↔ ∀ block, HasBytes (tree.pages pid) block →
      post block (tree.record (.read pid)) := by
  rw [readBytes, whenever_bind, whenever_readPage]
  cases stored : tree.pages pid with
  | leaf page =>
    rw [whenever_pure]
    exact ⟨fun holds block found => by cases found; exact holds, fun holds => holds _ (.leaf page)⟩
  | overflow page =>
    rw [whenever_pure]
    exact ⟨fun holds block found => by cases found; exact holds, fun holds => holds _ (.overflow page)⟩
  | blank | databaseMeta | internal =>
    refine ⟨fun _ block found => ?_, fun _ => whenever_throw⟩
    cases found

namespace PayloadStream

/-- A stream with something left stands on a page that holds tuple data. -/
def Grounded (pages : Nat → Page) (stream : PayloadStream) : Prop :=
  stream.totalBytes - stream.bytesRead ≠ 0 → ∃ block, HasBytes (pages stream.currPid) block

variable {limit : Nat} {st st₁ : BTree} {held : Multiset Nat} {stream : PayloadStream}

/-- The loop swaps the pin of one page for that of the next. -/
theorem nextBytesLoop_accounted (fuel count : Nat) (buffer : List Byte)
    (accounted : Accounted limit st (stream.currPid ::ₘ held) ∅ st₁)
    (room : held.card < limit) (readable : ∀ pid block, HasBytes (st₁.pages pid) block → st.Live pid)
    (here : ∃ block, HasBytes (st₁.pages stream.currPid) block) :
    Whenever (nextBytesLoop fuel stream count buffer) st₁ fun result st' =>
      Accounted limit st (result.2.currPid ::ₘ held) ∅ st' ∧
      st₁.Agrees st' ∧ ∃ block, HasBytes (st₁.pages result.2.currPid) block := by
  induction fuel generalizing stream count buffer st₁ with
  | zero => exact whenever_pure.mpr ⟨accounted, .refl _, here⟩
  | succ fuel ih =>
    rw [nextBytesLoop]
    split
    · exact whenever_pure.mpr ⟨accounted, .refl _, here⟩
    · have read := accounted.read stream.currPid (by simp)
      simp only [whenever_bind, whenever_readBytes]
      intro block _
      split
      · split
        · have released := read.release stream.currPid (by simp)
          rw [Multiset.erase_cons_head] at released
          simp only [whenever_bind, whenever_releasePage, whenever_requestPage, whenever_readOverflow,
            pages_record]
          intro page stored
          have next : HasBytes (st₁.pages stream.overflowPageId) page.bytes := by
            rw [stored]
            exact .overflow page
          have asked := (released.request stream.overflowPageId room (readable _ _ next) (by simp)).read
            stream.overflowPageId (by simp)
          apply Whenever.imp
          · exact ih _ _ asked readable ⟨_, next⟩
          intro result st' after
          exact ⟨after.1, ⟨after.2.1.pages, after.2.1.root, after.2.1.counter⟩, after.2.2⟩
        · exact whenever_pure.mpr ⟨read, ⟨rfl, rfl, rfl⟩, here⟩
      · exact whenever_pure.mpr ⟨read, ⟨rfl, rfl, rfl⟩, here⟩

theorem nextBytes_accounted (n : Nat) (accounted : Accounted limit st held ∅ st₁) (room : held.card < limit)
    (readable : ∀ pid block, HasBytes (st₁.pages pid) block → st.Live pid)
    (grounded : stream.Grounded st₁.pages) :
    Whenever (nextBytes stream n) st₁ fun result st' => Accounted limit st held ∅ st' ∧ st₁.Agrees st' ∧
      result.2.Grounded st₁.pages := by
  simp only [nextBytes]
  split
  · exact whenever_pure.mpr ⟨accounted, .refl _, grounded⟩
  · rename_i left
    obtain ⟨block, here⟩ := grounded left
    have asked := accounted.request stream.currPid room (readable _ _ here) (by simp)
    simp only [whenever_bind, whenever_requestPage]
    refine (nextBytesLoop_accounted _ _ _ asked room readable ⟨block, here⟩).imp ?_
    intro result st' after
    obtain ⟨read, same, there⟩ := after
    have released := read.release result.2.currPid (by simp)
    rw [Multiset.erase_cons_head] at released
    simp only [whenever_releasePage, whenever_pure]
    exact ⟨released, ⟨same.pages, same.root, same.counter⟩, fun _ => there⟩

theorem nextAll_accounted (sizes : List Nat) (accounted : Accounted limit st held ∅ st₁)
    (room : held.card < limit)
    (readable : ∀ pid block, HasBytes (st₁.pages pid) block → st.Live pid)
    (grounded : stream.Grounded st₁.pages) :
    Whenever (nextAll sizes stream) st₁ fun _ st' => Accounted limit st held ∅ st' ∧ st₁.Agrees st' := by
  induction sizes generalizing stream st₁ with
  | nil => exact whenever_pure.mpr ⟨accounted, .refl _⟩
  | cons n sizes ih =>
    simp only [nextAll, whenever_bind]
    refine (nextBytes_accounted n accounted room readable grounded).imp ?_
    intro result st' after
    obtain ⟨read, same, there⟩ := after
    refine (ih read (same.pages ▸ readable) (same.pages ▸ there)).imp fun _ _ all => ?_
    exact whenever_pure.mpr ⟨all.1, same.trans all.2⟩

theorem drain_accounted (sizes : List Nat) (accounted : Accounted limit st held ∅ st₁)
    (room : held.card < limit)
    (readable : ∀ pid block, HasBytes (st₁.pages pid) block → st.Live pid)
    (grounded : stream.Grounded st₁.pages) :
    Whenever (drain sizes stream) st₁ fun _ st' => Accounted limit st held ∅ st' ∧ st₁.Agrees st' := by
  induction sizes generalizing stream st₁ with
  | nil => exact whenever_pure.mpr ⟨accounted, .refl _⟩
  | cons n sizes ih =>
    rw [drain]
    split
    · exact whenever_pure.mpr ⟨accounted, .refl _⟩
    · rw [whenever_bind]
      refine (nextBytes_accounted n accounted room readable grounded).imp ?_
      intro result st' after
      obtain ⟨read, same, there⟩ := after
      rw [whenever_bind]
      refine (ih read (same.pages ▸ readable) (same.pages ▸ there)).imp fun _ _ all => ?_
      exact whenever_pure.mpr ⟨all.1, same.trans all.2⟩

end PayloadStream

namespace Tree
variable {limit : Nat} {st st₁ : BTree} {held : Multiset Nat} {h key : Nat} {tree : Tree h}

/-- A search pins one page at a time. -/
theorem searchFrom_accounted (fuel : Nat) (enough : h < fuel)
    (accounted : Accounted limit st held ∅ st₁) (room : held.card < limit)
    (holds : tree.Holds st₁.pages) (live : ∀ pid ∈ tree.pids, st.Live pid) :
    Whenever (searchFrom fuel tree.pid key) st₁ fun stream st' => Accounted limit st held ∅ st' ∧
      st₁.Agrees st' ∧
      stream.Grounded st₁.pages := by
  have visited := accounted.visit tree.pid room (live _ pid_mem_pids) (by simp)
  induction h generalizing fuel st₁ with
  | zero =>
    obtain ⟨fuel, rfl⟩ := Nat.exists_eq_add_of_lt enough
    have stored : st₁.pages (LeafPage.pageId tree) = .leaf tree := holds
    simp only [Nat.zero_add, searchFrom, pid_leaf, whenever_bind, whenever_requestPage,
      whenever_readPage, pages_record, stored]
    split
    · simp only [whenever_bind, whenever_releasePage, whenever_pure]
      exact ⟨visited, ⟨rfl, rfl, rfl⟩, fun left => absurd rfl left⟩
    · simp only [whenever_bind, whenever_releasePage, whenever_pure]
      refine ⟨visited, ⟨rfl, rfl, rfl⟩, fun _ => ⟨LeafPage.bytes tree, ?_⟩⟩
      rw [PayloadStream.make, stored]
      exact .leaf tree
  | succ h ih =>
    obtain ⟨fuel, rfl⟩ : ∃ rest, fuel = rest + 1 := ⟨fuel - 1, by omega⟩
    obtain ⟨id, row⟩ := tree
    obtain ⟨left, child, right, rfl, found⟩ := row.exists_found key
    obtain ⟨⟨page, stored, -, shown⟩, -, below, -⟩ := holds_focus.mp holds
    have inside : ∀ pid ∈ child.pids, st.Live pid :=
      fun pid member => live pid (mem_pids_child (by simp) member)
    simp only [searchFrom, pid_node, whenever_bind, whenever_requestPage, whenever_readPage,
      pages_record, stored,
      shown.getChildPageId (found_pids found), whenever_releasePage]
    refine (ih fuel (by omega) visited below inside
      (visited.visit child.pid room (inside _ pid_mem_pids) (by simp))).imp ?_
    intro stream st' after
    exact ⟨after.1, ⟨after.2.1.pages, after.2.1.root, after.2.1.counter⟩, after.2.2⟩

end Tree

/-! ### Between operations -/

variable {cut : Nat → Nat → Prop} {st st' : BTree} {h key limit : Nat} {tree : Tree h} {contents : Contents}

/-- A deletion lets go of all pages. It gives up at most the root, which is no longer part of the
tree then. -/
theorem delete_accounted (represents : Represents cut st tree)
    (known : ∀ leaf ∈ tree.leaves, leaf.rightPid = 0 ∨ ∃ page, st.pages leaf.rightPid = .leaf page)
    (clean : tree.CleanDelete cut key)
    (removable : Tree.Removable limit st tree) :
    Whenever (BTree.delete (fun _ => 0) key) st fun _ st' => ∃ touched,
      Accounted limit st st.ledger.held touched st' ∧
      Spans st' (fun _ tree' => ∀ pid ∈ tree'.pids, pid ∈ tree.pids ∧ pid ∉ touched) ∧ ∀ pid ∈ touched,
        pid ∈ tree.pids ∧ ∃ page, st'.pages pid = .internal page := by
  have before := represents.deletable known clean
  simp only [BTree.delete, whenever_bind, whenever_get, represents.root]
  refine (Tree.deleteFrom_spec _ represents.fuel before).whenever
    ((Tree.deleteFrom_accounted _ represents.fuel before removable).imp
      fun result st₁ concluded deletes => ?_)
  rw [whenever_pure]
  refine ⟨_, concluded, deletes.spans represents, ?_⟩
  rintro pid ⟨gone, rfl⟩
  exact ⟨Tree.pid_mem_pids, deletes.left_out represents gone⟩

/-- Nothing is pinned, and every page with changes that are not marked is an old internal page
outside the tree. -/
structure Balanced (st : BTree) {h : Nat} (tree : Tree h) : Prop where
  held : st.ledger.held = 0
  unmarked : ∀ pid, st.ledger.unmarked pid = true → pid ∉ tree.pids ∧ pid < st.newPageOffsetIndex ∧
    ∃ page, st.pages pid = .internal page
  blank : ∀ pid, pid = STORAGE_MANAGER_META_PAGE_ID ∨ st.newPageOffsetIndex ≤ pid → st.pages pid = .blank

namespace Balanced

theorem live (balanced : Balanced st tree) (represents : Represents cut st tree) {pid : Nat}
    (known : pid ∈ tree.pids ∨ (st.pages pid ≠ .blank ∧ ∀ page, st.pages pid ≠ .internal page)) :
    st.Live pid := by
  rcases known with inside | ⟨used, other⟩
  · have range := represents.bounded pid inside
    refine ⟨⟨?_, Bool.eq_false_iff.mpr fun unmarked => (balanced.unmarked pid unmarked).1 inside⟩, range.2⟩
    simp only [DATABASE_META_PAGE_ID, STORAGE_MANAGER_META_PAGE_ID] at range ⊢
    omega
  · refine ⟨⟨fun zero => used (balanced.blank pid (.inl zero)), Bool.eq_false_iff.mpr fun unmarked => ?_⟩,
      Nat.lt_of_not_le fun new => used (balanced.blank pid (.inr new))⟩
    obtain ⟨-, -, page, stored⟩ := balanced.unmarked pid unmarked
    exact other page stored

theorem live_metaPage (balanced : Balanced st tree) (represents : Represents cut st tree) :
    st.Live DATABASE_META_PAGE_ID :=
  balanced.live represents (.inr (by simp [represents.metaPage]))

theorem insertable (balanced : Balanced st tree) (represents : Represents cut st tree) :
    Tree.Insertable (h + 3) st tree := by
  have low := represents.bounded _ Tree.pid_mem_pids
  refine ⟨fun pid inside => balanced.live represents (.inl inside), fun pid new =>
    ⟨?_, ?_⟩, by simp [balanced.held]⟩
  · simp only [STORAGE_MANAGER_META_PAGE_ID]
    omega
  · exact Bool.eq_false_iff.mpr fun unmarked => Nat.not_le_of_lt (balanced.unmarked pid unmarked).2.1 new

theorem removable (balanced : Balanced st tree) {payloads : List (List Byte)}
    (stores : Stores cut st tree payloads) :
    Tree.Removable (h + 3) st tree := by
  have represents := stores.represents
  refine ⟨fun pid inside => balanced.live represents (.inl inside), fun leaf member some => ?_,
    balanced.live_metaPage represents,
    by simp [balanced.held]⟩
  obtain ⟨page, stored⟩ := (stores.known leaf member).resolve_left some
  exact balanced.live represents (.inr (by simp [stored]))

theorem readable (balanced : Balanced st tree) (represents : Represents cut st tree) :
    ∀ pid block, HasBytes (st.pages pid) block → st.Live pid := by
  intro pid block found
  refine balanced.live represents (.inr ?_)
  generalize st.pages pid = page at found
  cases found <;> simp

/-- What an operation has to see to: it gives up no page that stays in the tree. -/
theorem after (balanced : Balanced st tree) (represents : Represents cut st tree) {touched : Set Nat}
    {h' : Nat} {tree' : Tree h'}
    (accounted : Accounted limit st st.ledger.held touched st')
    (touches : ∀ pid ∈ touched, pid ∈ tree.pids ∧ ∃ page, st'.pages pid = .internal page)
    (pids : ∀ pid ∈ tree'.pids, pid ∉ touched ∧ (pid ∈ tree.pids ∨ st.newPageOffsetIndex ≤ pid)) :
    Balanced st' tree' := by
  have low := represents.bounded _ Tree.pid_mem_pids
  have grows := accounted.guarded.grows
  have none : ∀ pid, pid ∉ st.ledger.held := by simp [balanced.held]
  refine ⟨accounted.held.trans balanced.held, fun pid unmarked => ?_, fun pid outside => ?_⟩
  · cases accounted.unmarked pid unmarked with
    | inl here =>
      obtain ⟨inside, internal⟩ := touches pid here
      exact ⟨fun member => (pids pid member).1 here,
        Nat.lt_of_lt_of_le (represents.bounded pid inside).2 grows, internal⟩
    | inr before =>
      obtain ⟨outside, old, page, stored⟩ := balanced.unmarked pid before
      obtain ⟨-, -, same⟩ := accounted.guarded.given_up before (none pid) old
      exact ⟨fun member => (pids pid member).2.elim outside (Nat.not_le_of_lt old),
        Nat.lt_of_lt_of_le old grows, page, same.trans stored⟩
  · rw [accounted.guarded.untouched (fun pid inside => absurd inside (none pid)) outside
      (Nat.lt_of_le_of_lt (Nat.zero_le _) low.2)]
    exact balanced.blank pid (outside.imp_right (Nat.le_trans grows))

end Balanced

structure Resting (st : BTree) {h : Nat} (tree : Tree h) (contents : Contents) : Prop where
  keeps : Keeps st tree contents
  balanced : Balanced st tree
  affords : Affords st h

theorem Resting.represents (resting : Resting st tree contents) : Represents (· < ·) st tree := by
  obtain ⟨_, stores, -⟩ := resting.keeps
  exact stores.represents

theorem Resting.agrees (resting : Resting st tree contents)
    (accounted : Accounted (h + 3) st st.ledger.held ∅ st') (agrees : st.Agrees st') :
    Guarded (h + 3) st st' ∧ Resting st' tree contents := by
  obtain ⟨keeps, balanced, affords⟩ := resting
  obtain ⟨payloads, stores, lists⟩ := keeps
  have represents := stores.represents
  have stores' := stores.agrees agrees
  refine ⟨accounted.guarded, ⟨payloads, stores', lists⟩, ?_, affords.imp_right fun room =>
    Nat.le_trans room accounted.guarded.grows⟩
  exact balanced.after represents accounted (by simp) fun pid inside => ⟨by simp, .inl inside⟩

theorem Resting.searched (resting : Resting st tree contents) (key : Nat) :
    Whenever (BTree.search key) st fun stream st' => Accounted (h + 3) st st.ledger.held ∅ st' ∧
      st.Agrees st' ∧ stream.Grounded st'.pages := by
  have represents := resting.represents
  have room : st.ledger.held.card < h + 3 := by simp [resting.balanced.held]
  simp only [BTree.search, whenever_bind, whenever_get, represents.root]
  refine (Tree.searchFrom_accounted _ represents.fuel (.refl (h + 3) st) room represents.holds
    fun pid inside => resting.balanced.live represents (.inl inside)).imp fun stream st' searched => ?_
  exact ⟨searched.1, searched.2.1, searched.2.1.pages ▸ searched.2.2⟩

/-- Every use keeps to the limit, and leaves nothing pinned. -/
theorem use_rests {usage : Usage} (resting : Resting st tree contents)
    (admits : Admits contents usage.operation) :
    Whenever (use usage) st fun _ st' => Guarded (h + 3) st st' ∧
      ∃ (h' : Nat) (tree' : Tree h'), Resting st' tree' (contents.apply usage.operation) ∧
        Evolves st tree tree' := by
  obtain ⟨keeps, balanced, affords⟩ := resting
  obtain ⟨payloads, stores, lists⟩ := id keeps
  have represents := stores.represents
  have distinct : tree.keys.Nodup := stores.keys ▸ lists.distinct
  cases usage with
  | insert buffer key =>
    have accounts : Whenever (BTree.insert buffer key) st _ :=
      insert_accounted represents buffer (balanced.insertable represents)
        (balanced.live_metaPage represents)
    simp only [use, whenever_bind, whenever_pure]
    refine (insert_keeps keeps admits.1 admits.2).whenever
      ((accounts.and (insert_spans represents buffer)).imp ?_)
    intro result st' both kept
    obtain ⟨accounted, spans⟩ := both
    obtain ⟨-, h', tree', inserted, keeps'⟩ := kept
    have evolves := spans.represents inserted.represents
    refine ⟨accounted.guarded, h', tree',
      ⟨keeps', ?_, evolves.affords affords accounted.guarded.grows inserted.represents⟩, evolves⟩
    exact balanced.after represents accounted (by simp) fun pid inside => ⟨by simp, evolves.pids pid inside⟩
  | delete key =>
    have clean : tree.CleanDelete (· < ·) key :=
      cleanDelete_strict (represents.within Cut.strict) represents.valid distinct
    simp only [use, whenever_bind, whenever_pure]
    refine (delete_keeps keeps key).whenever
      ((delete_accounted represents stores.known clean (balanced.removable stores)).imp ?_)
    intro result st' deletes kept
    obtain ⟨touched, accounted, spans, touches⟩ := deletes
    obtain ⟨-, h', tree', reduced, keeps'⟩ := kept
    have pids := spans.represents reduced.represents
    have evolves : Evolves st tree tree' := by
      refine ⟨fun pid inside => .inl (pids pid inside).1, .inl ?_⟩
      obtain ⟨_, _, -, -, ⟨-, rfl⟩ | ⟨rfl, rfl, -⟩⟩ := reduced.leaves
      · exact Nat.le_refl _
      · exact Nat.zero_le _
    refine ⟨accounted.guarded, h', tree',
      ⟨keeps', ?_, evolves.affords affords accounted.guarded.grows reduced.represents⟩, evolves⟩
    exact balanced.after represents accounted touches fun pid inside =>
      ⟨(pids pid inside).2, .inl (pids pid inside).1⟩
  | read key sizes =>
    have resting : Resting st tree contents := ⟨keeps, balanced, affords⟩
    have room : st.ledger.held.card < h + 3 := by simp [balanced.held]
    simp only [use, whenever_bind, whenever_pure]
    refine (resting.searched key).imp ?_
    intro stream st₁ searched
    obtain ⟨accounted, agrees, grounded⟩ := searched
    refine (PayloadStream.nextAll_accounted sizes accounted room
      (agrees.pages ▸ balanced.readable represents) grounded).imp ?_
    intro result st₂ read
    obtain ⟨guarded, resting'⟩ := resting.agrees read.1 (agrees.trans read.2)
    exact ⟨guarded, h, tree, resting', fun pid inside => .inl inside, .inl (Nat.le_refl h)⟩

theorem use_ends {usage : Usage} (keeps : Keeps st tree contents)
    (admits : Admits contents usage.operation) (addressable : Addressable st) :
    Ran (use usage) st fun _ _ => True := by
  cases usage with
  | insert buffer key =>
    exact ran_bind.mpr ((insert_keeps keeps admits.1 admits.2).imp fun _ _ _ => ran_pure.mpr trivial)
  | delete key => exact ran_bind.mpr ((delete_keeps keeps key).imp fun _ _ _ => ran_pure.mpr trivial)
  | read key sizes =>
    refine ran_bind.mpr ((search_keeps keeps key).imp fun stream st₁ searched => ?_)
    obtain ⟨agrees, -, yields⟩ := searched
    have yields := yields (.inr addressable)
    rw [← agrees.pages, ← agrees.counter] at yields
    exact ran_bind.mpr ((PayloadStream.nextAll_spec sizes yields).imp fun _ _ _ => ran_pure.mpr trivial)

/-- The constructor pins at most two pages, and lets go of them. -/
theorem construct_accounted : Whenever construct bootstrapped fun _ st => Guarded 3 bootstrapped st ∧
    Balanced st (h := 0) (emptyLeaf 2) := by
  have asked := ((Accounted.refl 3 bootstrapped).request DATABASE_META_PAGE_ID (by decide)
    ⟨⟨by decide, rfl⟩, by decide⟩ (by simp)).read
    DATABASE_META_PAGE_ID (by simp)
  have allocated := asked.allocate (by decide) ⟨by decide, rfl⟩ (by simp)
  have root := ((allocated.setRoot 2).write 2 (.leaf (emptyLeaf 2)) (by decide)).mark 2 (by decide)
  have named := (root.write DATABASE_META_PAGE_ID (.databaseMeta DATABASE_MAGIC_NUMBER 2)
    (by decide)).mark DATABASE_META_PAGE_ID (by decide)
  refine (whenever_of_eq rfl).mpr ⟨named.guarded, named.held.trans (by decide), fun pid unmarked => ?_,
    fun pid outside => ?_⟩
  · have left := named.unmarked pid unmarked
    simp [bootstrapped, ledger, Ledger.ofAccesses, Ledger.start] at left
  · exact named.guarded.untouched (fun pid inside => absurd inside (Multiset.notMem_zero pid)) outside
      (by decide)

theorem Used.rests {usages : List Usage} (used : Used usages st)
    (fresh : Fresh .empty (usages.map Usage.operation)) :
    ∃ (h : Nat) (tree : Tree h), Resting st tree (Contents.empty.applyAll (usages.map Usage.operation)) := by
  induction used with
  | start constructed =>
    exact ⟨0, emptyLeaf 2, construct_keeps.elim constructed, (construct_accounted _ _ constructed).2,
      .inl rfl⟩
  | step used returned ih =>
    rw [List.map_append] at fresh ⊢
    obtain ⟨before, here⟩ := fresh_append.mp fresh
    obtain ⟨h, tree, resting⟩ := ih before
    obtain ⟨-, h', tree', resting', -⟩ := use_rests resting here.1 _ _ returned
    refine ⟨h', tree', ?_⟩
    simpa only [Contents.applyAll, List.foldl_append, List.map_cons, List.map_nil, List.foldl_cons,
      List.foldl_nil] using resting'

/-- Whatever has been done with a tree before, an insertion, a deletion or a search with reads of
its stream leaves every page pinned as often as before, which is not at all. It accesses pages only
while it has them pinned, releases only what it has pinned, and never has more than three pages
pinned besides one for each level of the tree. All pages it has changed are marked as dirty, except
for internal pages that the tree has no more. -/
theorem pins_balance {usages : List Usage} {usage : Usage} (used : Used usages st)
    (fresh : Fresh .empty ((usages ++ [usage]).map Usage.operation)) (addressable : Addressable st) :
    ∃ (h : Nat) (tree : Tree h), Represents (· < ·) st tree ∧ st.ledger.held = 0 ∧
      Ran (use usage) st fun _ st' =>
      Guarded (h + 3) st st' ∧ st'.ledger.held = 0 ∧ ∃ (h' : Nat) (tree' : Tree h'),
        Represents (· < ·) st' tree' ∧
        ∀ pid, st'.ledger.unmarked pid = true → pid ∉ tree'.pids ∧ ∃ page,
          st'.pages pid = .internal page := by
  rw [List.map_append] at fresh
  obtain ⟨before, here⟩ := fresh_append.mp fresh
  obtain ⟨h, tree, resting⟩ := used.rests before
  refine ⟨h, tree, resting.represents, resting.balanced.held,
    ((use_ends resting.keeps here.1 addressable).and (use_rests resting here.1)).imp ?_⟩
  intro result st' ran
  obtain ⟨-, guarded, h', tree', resting', -⟩ := ran
  refine ⟨guarded, resting'.balanced.held, h', tree', resting'.represents, fun pid unmarked => ?_⟩
  obtain ⟨outside, -, internal⟩ := resting'.balanced.unmarked pid unmarked
  exact ⟨outside, internal⟩

theorem Used.useAll {usages more : List Usage} {results : List (Outcome × List (List Byte))}
    (used : Used usages st)
    (returned : BTree.useAll more st = .ok results st') : Used (usages ++ more) st' := by
  induction more generalizing usages results st with
  | nil =>
    cases returned
    rwa [List.append_nil]
  | cons usage more ih =>
    have steps : Ran (BTree.useAll (usage :: more)) st fun _ final => final = st' := ⟨_, _, returned, rfl⟩
    simp only [BTree.useAll, ran_bind, ran_pure] at steps
    obtain ⟨result, middle, here, results, final, later, rfl⟩ := steps
    have through := ih (.step used here) later
    rwa [List.append_assoc, List.singleton_append] at through

theorem used_firstRun : ∃ st, Used firstRun st ∧ Addressable st := by
  have ran : Ran (construct >>= fun _ => useAll firstRun) bootstrapped fun _ st =>
      st.newPageOffsetIndex = 7 := by
    decide +kernel
  rw [ran_bind] at ran
  obtain ⟨_, st₀, constructed, results, st, returned, counter⟩ := ran
  have used : Used ([] ++ firstRun) st := Used.useAll (.start constructed) returned
  exact ⟨st, used, Nat.le_trans (Nat.le_of_eq counter) (by decide)⟩

theorem pins_balance_firstRun : ∃ (st : BTree) (h : Nat) (tree : Tree h), Represents (· < ·) st tree ∧
    st.ledger.held = 0 ∧
    Ran (use (.delete 10)) st fun _ st' => Guarded (h + 3) st st' ∧ st'.ledger.held = 0 ∧
      ∃ (h' : Nat) (tree' : Tree h'), Represents (· < ·) st' tree' ∧
        ∀ pid, st'.ledger.unmarked pid = true → pid ∉ tree'.pids ∧ ∃ page,
          st'.pages pid = .internal page := by
  obtain ⟨st, used, addressable⟩ := used_firstRun
  refine ⟨st, pins_balance used ?_ addressable⟩
  rw [List.map_append]
  exact fresh_append.mpr ⟨fresh_varied, trivial, trivial⟩

end Datashil
