import Datashil.Proofs.Histories

/-! Histories that insert keys again while they are present. The tree then stands for
a bag of payloads, as long as tuples with one key stay in one leaf. -/

namespace Datashil
open Library LeafPage BTree Datashil.Tree

/-- The payloads that are inserted and not deleted after some operations: a deletion takes
one with its key, if there is one. -/
inductive Bag : List Operation → List (List Byte) → Prop
  | empty : Bag [] []
  | insert {operations : List Operation} {payloads payloads' : List (List Byte)} {buffer : List Byte}
      {key : Nat}
      (bag : Bag operations payloads) (added : payloads'.Perm (buffer :: payloads)) :
      Bag (operations ++ [.insert buffer key]) payloads'
  | delete {operations : List Operation} {payloads payloads' : List (List Byte)} {payload : List Byte}
      {key : Nat}
      (bag : Bag operations payloads) (keyed : payloadKey payload = key)
      (taken : payloads.Perm (payload :: payloads')) :
      Bag (operations ++ [.delete key]) payloads'
  | absent {operations : List Operation} {payloads payloads' : List (List Byte)} {key : Nat}
      (bag : Bag operations payloads)
      (absent : ∀ payload ∈ payloads, payloadKey payload ≠ key) (same : payloads.Perm payloads') :
      Bag (operations ++ [.delete key]) payloads'
  | search {operations : List Operation} {payloads : List (List Byte)} {key : Nat}
      (bag : Bag operations payloads) :
      Bag (operations ++ [.search key]) payloads

def remaining (key : Nat) (operations : List Operation) : Nat :=
  operations.foldl (fun count operation =>
    match operation with
    | .insert _ other => if other = key then count + 1 else count
    | .delete other => if other = key then count - 1 else count
    | .search _ => count) 0

/-- Keys need not be absent where they are inserted. -/
def Keyed (operations : List Operation) : Prop :=
  ∀ buffer key, .insert buffer key ∈ operations → payloadKey buffer = key

variable {operations : List Operation} {payloads : List (List Byte)} {st : BTree} {h : Nat} {tree : Tree h}

theorem Bag.count (bag : Bag operations payloads) (keyed : Keyed operations) (key : Nat) :
    (payloads.map payloadKey).count key = remaining key operations := by
  have earlier : ∀ {operations : List Operation} {operation : Operation},
      Keyed (operations ++ [operation]) → Keyed operations :=
    fun keyed buffer key member => keyed buffer key (List.mem_append_left _ member)
  induction bag with
  | empty => rfl
  | @insert operations payloads payloads' buffer other bag added ih =>
    have here := keyed buffer other (by simp)
    rw [(added.map payloadKey).count_eq, List.map_cons, List.count_cons, ih (earlier keyed), here,
      remaining, remaining, List.foldl_append]
    by_cases same : other = key <;> simp [same]
  | @delete operations payloads payloads' payload other bag here taken ih =>
    have before := ih (earlier keyed)
    rw [(taken.map payloadKey).count_eq, List.map_cons, List.count_cons, here] at before
    rw [remaining] at before ⊢
    rw [List.foldl_append, ← before]
    by_cases same : other = key <;> simp [same]
  | @absent operations payloads payloads' other bag absent taken ih =>
    have before := ih (earlier keyed)
    rw [(taken.map payloadKey).count_eq] at before
    rw [remaining] at before ⊢
    rw [List.foldl_append, ← before]
    by_cases same : other = key
    · subst same
      have none : (payloads'.map payloadKey).count other = 0 := by
        rw [← (taken.map payloadKey).count_eq, List.count_eq_zero]
        intro member
        obtain ⟨payload, inside, keyed⟩ := List.mem_map.mp member
        exact absent payload inside keyed
      simp [none]
    · simp [same]
  | search bag ih =>
    rw [ih (earlier keyed), remaining, remaining, List.foldl_append]
    rfl

/-- Two tuples with one key would end up in different leaves: at a split of the leaf of the
key, or because a sibling lends some of them. -/
def BTree.TearsKey (st : BTree) : Operation → Prop
  | .insert buffer key => ∃ leaf, st.leafOf key = some leaf ∧ ¬ leaf.HasRoom buffer.length ∧ leaf.SplitTears
  | .delete key =>
    ∃ (h : Nat) (tree : Tree h), st.rootPageId = tree.pid ∧ tree.Holds st.pages ∧ tree.BorrowTears key
  | .search _ => False

/-- Every history that keeps tuples with one key in one leaf. Whether an operation does is decided
on the tree before it: no split and no borrow may cut between tuples with one key. -/
abbrev KeepsTogether (st : BTree) (operation : Operation) : Prop :=
  (∀ buffer key, operation = .insert buffer key → Storable buffer key) ∧ ¬ st.TearsKey operation

/-- While keys are distinct, none is torn apart. -/
theorem Keeps.together {contents : Contents} {operation : Operation} (keeps : Keeps st tree contents)
    (admits : Admits contents operation) :
    KeepsTogether st operation := by
  obtain ⟨payloads, stores, lists⟩ := keeps
  have represents := stores.represents
  have distinct : tree.keys.Nodup := stores.keys ▸ lists.distinct
  cases operation with
  | insert buffer key =>
    refine ⟨fun _ _ same => (by cases same; exact admits.1), ?_⟩
    rintro ⟨leaf, found, -, torn⟩
    have searched : Ran (searchFrom st.newPageOffsetIndex tree.pid key) st _ :=
      searchFrom_spec _ represents.fuel represents.holds
    obtain ⟨-, -, -, -, other, member, located, -⟩ := searched
    rw [represents.leafOf member located] at found
    cases found
    exact not_splitTears distinct member torn
  | delete key =>
    refine ⟨nofun, ?_⟩
    rintro ⟨h', tree', root, holds, torn⟩
    cases represents.holds.unique holds (represents.root.symm.trans root)
    exact not_borrowTears distinct torn
  | search key => exact ⟨nofun, id⟩

/-- Any history that inserts only absent keys keeps tuples with one key in one leaf. -/
theorem run_together (operations : List Operation) (fresh : Fresh .empty operations) :
    Ran (run operations) bootstrapped fun _ st => Reaches KeepsTogether operations st := by
  have later : ∀ (rest earlier : List Operation) (st : BTree), Reaches KeepsTogether earlier st →
    (∃ (h : Nat) (tree : Tree h),
      Keeps st tree (Contents.empty.applyAll earlier)) → Fresh (Contents.empty.applyAll earlier) rest →
        Ran (performAll rest) st fun _ st' => Reaches KeepsTogether (earlier ++ rest) st' := by
    intro rest
    induction rest with
    | nil =>
      intro earlier st reaches _ _
      rw [List.append_nil]
      exact ran_pure.mpr reaches
    | cons operation rest ih =>
      intro earlier st reaches known fresh
      obtain ⟨h, tree, keeps⟩ := known
      obtain ⟨outcome, st', performed, keeps'⟩ := perform_keeps keeps fresh.1
      have contents : Contents.empty.applyAll (earlier ++ [operation]) =
          (Contents.empty.applyAll earlier).apply operation := by
        simp only [Contents.applyAll, List.foldl_append, List.foldl_cons, List.foldl_nil]
      have through := ih (earlier ++ [operation]) st' (.step reaches (keeps.together fresh.1) performed)
      rw [contents, List.append_assoc, List.singleton_append] at through
      simp only [performAll, ran_bind, ran_pure]
      exact ⟨outcome, st', performed, through keeps' fresh.2⟩
  refine ran_bind.mpr ?_
  obtain ⟨result, st, constructed, keeps⟩ := construct_keeps
  exact ⟨result, st, constructed, later operations [] st (.start constructed) ⟨0, _, keeps⟩ fresh⟩

theorem insert_together (stores : Stores (· < ·) st tree payloads) {buffer : List Byte} {key : Nat}
    (storable : Storable buffer key)
    (whole : ¬ st.TearsKey (.insert buffer key)) :
    Ran (BTree.insert buffer key) st fun result st' => result = true ∧
      ∃ (h' : Nat) (tree' : Tree h') (payloads' : List (List Byte)),
      Inserted (· < ·) key buffer st st' tree tree' ∧ Stores (· < ·) st' tree' payloads' ∧
        payloads'.Perm (buffer :: payloads) := by
  have represents := stores.represents
  have splittable : tree.Splittable (· < ·) key buffer.length := by
    refine ⟨fun leaf member located crowded => ?_, .inl fun _ _ less => less⟩
    exact cleanSplit_whole (represents.valid leaf member) fun torn =>
      whole ⟨leaf, represents.leafOf member located, crowded, torn⟩
  refine (insert_spec .strict represents storable fun _ => splittable).imp ?_
  rintro result st' ⟨done, h', tree', inserted⟩
  obtain ⟨payloads', perm, stores'⟩ := inserted.stores stores storable.keyed
  exact ⟨done, h', tree', payloads', inserted, stores', perm⟩

/-- A deletion takes one payload with the key, if there is one. -/
theorem delete_together (stores : Stores (· < ·) st tree payloads) {key : Nat}
    (whole : ¬ st.TearsKey (.delete key)) :
    Ran (BTree.delete (fun _ => 0) key) st fun _ st' =>
      ∃ (h' : Nat) (tree' : Tree h') (gone kept : List (List Byte)),
      Reduced (· < ·) key st st' tree tree' ∧ Stores (· < ·) st' tree' kept ∧ (gone ++ kept).Perm payloads ∧
        ((gone = [] ∧ ∀ payload ∈ payloads, payloadKey payload ≠ key) ∨ ∃ payload, gone = [payload] ∧
          payloadKey payload = key) := by
  have represents := stores.represents
  have clean : CleanDelete (· < ·) key tree :=
    cleanDelete_whole (represents.within Cut.strict) represents.valid fun torn =>
    whole ⟨h, tree, represents.root, represents.holds, torn⟩
  refine (delete_spec .strict represents stores.known clean).imp ?_
  rintro result st' ⟨-, h', tree', reduced⟩
  obtain ⟨page, member, located, removed, gone, kept, takes, filed, perm, stores'⟩ := reduced.stores stores
  refine ⟨h', tree', gone, kept, reduced, stores', perm, ?_⟩
  cases takes with
  | nothing absent clean =>
    cases filed
    exact .inl ⟨rfl, stores.absent_of_located member located absent⟩
  | first inside keyed dirty =>
    obtain ⟨⟩ | ⟨found, ⟨⟩⟩ := filed
    exact .inr ⟨_, rfl, found.keyed.symm.trans keyed⟩

theorem reaches_bag (reaches : Reaches KeepsTogether operations st) :
    Keyed operations ∧ ∃ (h : Nat) (tree : Tree h) (payloads : List (List Byte)),
      Stores (· < ·) st tree payloads ∧ Bag operations payloads := by
  induction reaches with
  | start constructed =>
    exact ⟨by simp [Keyed], 0, _, [], (construct_spec (· < ·) (by decide)).elim constructed, .empty⟩
  | @step operations operation outcome st st' reaches allows performed ih =>
    obtain ⟨keyed, h, tree, payloads, stores, bag⟩ := ih
    refine ⟨fun buffer key member => ?_, ?_⟩
    · rcases List.mem_append.mp member with earlier | here
      · exact keyed buffer key earlier
      · exact (allows.1 buffer key (List.mem_singleton.mp here).symm).keyed
    suffices step : Ran (perform operation) st fun _ st' =>
      ∃ (h' : Nat) (tree' : Tree h') (payloads' : List (List Byte)),
        Stores (· < ·) st' tree' payloads' ∧ Bag (operations ++ [operation]) payloads' from
          step.elim performed
    cases operation with
    | insert buffer key =>
      refine ran_bind.mpr ((insert_together stores (allows.1 buffer key rfl) allows.2).imp
        fun _ st' inserted => ran_pure.mpr ?_)
      obtain ⟨-, h', tree', payloads', -, stores', added⟩ := inserted
      exact ⟨h', tree', payloads', stores', bag.insert added⟩
    | delete key =>
      refine ran_bind.mpr ((delete_together stores allows.2).imp fun _ st' deleted => ran_pure.mpr ?_)
      obtain ⟨h', tree', gone, kept, -, stores', perm, ⟨rfl, absent⟩ | ⟨payload, rfl, same⟩⟩ := deleted
      · exact ⟨h', tree', kept, stores', bag.absent absent perm.symm⟩
      · exact ⟨h', tree', kept, stores', bag.delete same perm.symm⟩
    | search key =>
      refine ran_bind.mpr ((stores.search key).imp fun _ st' searched => ran_pure.mpr ?_)
      exact ⟨h, tree, payloads, stores.agrees searched.1, bag.search⟩

theorem Bag.inserted (bag : Bag operations payloads) {payload : List Byte} (member : payload ∈ payloads) :
    ∃ key, .insert payload key ∈ operations := by
  induction bag with
  | empty => cases member
  | @insert operations payloads payloads' buffer key bag added ih =>
    cases List.mem_cons.mp (added.mem_iff.mp member) with
    | inl here =>
      subst here
      exact ⟨key, by simp⟩
    | inr earlier =>
      obtain ⟨key, inside⟩ := ih earlier
      exact ⟨key, List.mem_append_left _ inside⟩
  | delete bag keyed taken ih =>
    obtain ⟨key, inside⟩ := ih (taken.mem_iff.mpr (.tail _ member))
    exact ⟨key, List.mem_append_left _ inside⟩
  | absent bag absent same ih =>
    obtain ⟨key, inside⟩ := ih (same.mem_iff.mpr member)
    exact ⟨key, List.mem_append_left _ inside⟩
  | search bag ih =>
    obtain ⟨key, inside⟩ := ih member
    exact ⟨key, List.mem_append_left _ inside⟩

/-- A search finds one of the payloads with its key that are left, and nothing if none is left. -/
theorem Bag.searched (bag : Bag operations payloads) (keyed : Keyed operations)
    (stores : Stores (· < ·) st tree payloads) (key : Nat) :
    Ran (BTree.search key) st fun stream st' =>
      (remaining key operations = 0 ∧ stream.Yields st'.pages st'.newPageOffsetIndex []) ∨
        (0 < remaining key operations ∧ ∃ payload ∈ payloads, payloadKey payload = key ∧
          (Addressable st → stream.Yields st'.pages st'.newPageOffsetIndex payload)) := by
  apply (stores.search key).imp
  rintro stream st' ⟨agrees, found⟩
  rw [← bag.count keyed key, agrees.pages, agrees.counter]
  cases found with
  | inl missed =>
    refine .inl ⟨List.count_eq_zero.mpr ?_, missed.2⟩
    intro inside
    obtain ⟨payload, member, same⟩ := List.mem_map.mp inside
    exact missed.1 payload member same
  | inr found =>
    obtain ⟨payload, member, same, yields⟩ := found
    exact .inr ⟨List.count_pos_iff.mpr (List.mem_map.mpr ⟨payload, member, same⟩), payload, member,
      same, yields⟩

/-- As long as tuples with one key stay in one leaf, a search for any key finds one of the
payloads with the key that are left, and nothing if none is left. -/
theorem repeated_keys_found (reaches : Reaches KeepsTogether operations st) (addressable : Addressable st) :
    ∃ payloads, Bag operations payloads ∧ ∀ key,
      (payloads.map payloadKey).count key = remaining key operations ∧
      Ran (search key) st fun stream st' =>
        (stream.isEOF = true ↔ remaining key operations = 0) ∧
          (0 < remaining key operations → ∃ payload ∈ payloads, payloadKey payload = key ∧
            ∀ sizes : List Nat, payload.length ≤ sizes.sum →
              Ran (stream.drain sizes) st' fun result _ => result.1 = payload) := by
  obtain ⟨keyed, h, tree, payloads, stores, bag⟩ := reaches_bag reaches
  refine ⟨payloads, bag, fun key => ⟨bag.count keyed key, (bag.searched keyed stores key).imp ?_⟩⟩
  intro stream st' found
  cases found with
  | inl missed =>
    obtain ⟨none, nothing⟩ := missed
    rw [none]
    exact ⟨iff_of_true (nothing.isEOF.mpr rfl) rfl, fun some => absurd some (Nat.lt_irrefl 0)⟩
  | inr found =>
    obtain ⟨some, payload, member, same, yields⟩ := found
    have standing := yields addressable
    refine ⟨iff_of_false (fun ended => ?_) (Nat.ne_of_gt some), fun _ =>
      ⟨payload, member, same, fun sizes enough => ?_⟩⟩
    · exact stores.nonempty addressable member (standing.isEOF.mp ended)
    · exact (PayloadStream.drain_spec sizes standing enough).imp fun _ _ drained => drained.2.1

/-- One of the keys is inserted once more, and searched for. -/
theorem repeated_keys_found_varied :
    ∃ st, Reaches KeepsTogether (varied ++ [.insert (paddedBuffer 30 100) 30, .search 30]) st ∧
      Addressable st ∧
    ∃ payloads, Bag (varied ++ [.insert (paddedBuffer 30 100) 30, .search 30]) payloads ∧ ∀ key,
      (payloads.map payloadKey).count key = remaining key
        (varied ++ [.insert (paddedBuffer 30 100) 30, .search 30]) ∧
        Ran (search key) st fun stream st' =>
          (stream.isEOF = true ↔
            remaining key (varied ++ [.insert (paddedBuffer 30 100) 30, .search 30]) = 0) ∧
            (0 < remaining key (varied ++ [.insert (paddedBuffer 30 100) 30, .search 30]) →
              ∃ payload ∈ payloads, payloadKey payload = key ∧
              ∀ sizes : List Nat, payload.length ≤ sizes.sum →
                Ran (stream.drain sizes) st' fun result _ => result.1 = payload) := by
  have checked : Ran (run varied) bootstrapped fun _ st => Checked (Fits (fun _ _ => False) false)
      (fun st => st.newPageOffsetIndex ≤ 18446744073709551616) [.insert (paddedBuffer 30 100) 30,
        .search 30] st := by
    decide +kernel
  obtain ⟨_, st₀, ran, checked⟩ := checked
  have implies : ∀ st operation, Fits (fun _ _ => False) false st operation → KeepsTogether st operation := by
    intro st operation fits
    cases operation with
    | insert buffer key =>
      refine ⟨fun _ _ same => by cases same; exact fits.1, ?_⟩
      rintro ⟨leaf, found, crowded, -⟩
      exact (fits.2 leaf found).elim crowded id
    | delete key => cases fits
    | search key => exact ⟨nofun, id⟩
  obtain ⟨st, reaches, addressable⟩ :=
    Reaches.checked implies ((run_together varied fresh_varied).elim ran) checked
  exact ⟨st, reaches, addressable, repeated_keys_found reaches addressable⟩

/-- Four tuples with key 5 straddle a split; after more insertions a search for 6 ends among them. -/
theorem straddled_key_lost :
    Ran (run ([1, 5, 5, 5, 5, 6, 2, 3, 4].map fun key => .insert (paddedBuffer key 795) key))
      bootstrapped
    fun _ st => Ran (search 6) st fun stream _ => stream.isEOF = true := by
  decide +kernel

end Datashil
