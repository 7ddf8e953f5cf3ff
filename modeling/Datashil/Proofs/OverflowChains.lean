import Datashil.Proofs.Histories

/-! Who owns the overflow pages: every live tuple has a chain of its own, apart from all other chains
and from the pages of the tree, wherever the tuple is moved. -/

namespace Datashil
open Library LeafPage BTree Datashil.Tree

variable {st st' : BTree} {h h' : Nat} {tree : Tree h} {tree' : Tree h'}
    {tuples tuples' : List (List Byte)} {chains : List (List Nat)}
  {contents : Contents} {buffer : List Byte} {key : Nat}

theorem Strung.overflow {pages : Nat → Page} {pid size : Nat} {ids : List Nat}
    (strung : Strung pages pid ids size) :
    ∀ id ∈ ids, ∃ page, pages id = .overflow page := by
  induction strung with
  | last stored flag some fits =>
    intro id member
    rw [List.mem_singleton.mp member]
    exact ⟨_, stored⟩
  | more stored flag chain ih =>
    intro id member
    cases List.mem_cons.mp member with
    | inl here =>
      rw [here]
      exact ⟨_, stored⟩
    | inr later => exact ih id later

theorem Owned.overflow {pages : Nat → Page} {raw : List Byte} {ids : List Nat} (owned : Owned pages raw ids) :
    ∀ id ∈ ids, ∃ page, pages id = .overflow page := by
  cases owned with
  | whole => exact List.forall_mem_nil _
  | chained flag chain sum => exact chain.overflow

theorem Owned.kept (kept : OverflowKept st st') {raw : List Byte} {ids : List Nat}
    (owned : Owned st.pages raw ids)
    (below : ∀ id ∈ ids, id < st.newPageOffsetIndex) : Owned st'.pages raw ids := by
  cases owned with
  | whole flag size => exact .whole flag size
  | chained flag chain sum => exact .chained flag (chain.kept kept below) sum

/-- Chains for some tuples, of which no two have a page in common. -/
structure Chains (st : BTree) (tuples : List (List Byte)) (chains : List (List Nat)) : Prop where
  owned : List.Forall₂ (Owned st.pages) tuples chains
  among : Among (DATABASE_META_PAGE_ID + 1) st.newPageOffsetIndex chains.flatten

theorem Chains.overflow (chains_of : Chains st tuples chains) :
    ∀ id ∈ chains.flatten, ∃ page, st.pages id = .overflow page := by
  have owned := chains_of.owned
  clear chains_of
  induction owned with
  | nil => exact List.forall_mem_nil _
  | cons head rest ih =>
    intro id inside
    rw [List.flatten_cons] at inside
    cases List.mem_append.mp inside with
    | inl here => exact head.overflow id here
    | inr later => exact ih id later

/-- The tuples have chains, as long as page ids fit into their headers. -/
def BTree.Apart (st : BTree) (tuples : List (List Byte)) : Prop :=
  Addressable st → ∃ chains, Chains st tuples chains

theorem Chains.kept (kept : OverflowKept st st') (chains_of : Chains st tuples chains) :
    Chains st' tuples chains := by
  obtain ⟨owned, distinct, range⟩ := chains_of
  have below : ∀ ids ∈ chains, ∀ id ∈ ids, id < st.newPageOffsetIndex := fun ids member id inside =>
    (range id (List.mem_flatten.mpr ⟨ids, member, inside⟩)).2
  refine ⟨?_, distinct, fun id inside => ⟨(range id inside).1, Nat.lt_of_lt_of_le (range id inside).2 kept.1⟩⟩
  clear range distinct
  induction owned with
  | nil => exact .nil
  | cons head rest ih =>
    exact .cons (head.kept kept (below _ (.head _))) (ih fun ids member => below ids (.tail _ member))

theorem Among.perm {low high : Nat} {ids ids' : List Nat} (among : Among low high ids)
    (perm : ids.Perm ids') : Among low high ids' :=
  ⟨perm.nodup_iff.mp among.distinct, fun id inside => among.range id (perm.mem_iff.mpr inside)⟩

theorem Among.sublist {low high : Nat} {ids ids' : List Nat} (among : Among low high ids)
    (sublist : ids'.Sublist ids) : Among low high ids' :=
  ⟨among.distinct.sublist sublist, fun id inside => among.range id (sublist.subset inside)⟩

theorem Among.append {low middle high : Nat} {first second : List Nat} (lower : Among low middle first)
    (upper : Among middle high second)
    (le : low ≤ middle) (le' : middle ≤ high) : Among low high (second ++ first) := by
  constructor
  · refine List.nodup_append.mpr ⟨upper.distinct, lower.distinct, ?_⟩
    intro id new other old same
    have above := (upper.range id new).1
    have below := (lower.range other old).2
    omega
  · intro id inside
    cases List.mem_append.mp inside with
    | inl new => exact ⟨Nat.le_trans le (upper.range id new).1, (upper.range id new).2⟩
    | inr old => exact ⟨(lower.range id old).1, Nat.lt_of_lt_of_le (lower.range id old).2 le'⟩

theorem Chains.insert (before : Chains st tuples chains) (kept : OverflowKept st st')
    (low : DATABASE_META_PAGE_ID < st.newPageOffsetIndex)
    {raw : List Byte} {ids : List Nat} (fresh : Among st.newPageOffsetIndex st'.newPageOffsetIndex ids)
    (owned : Owned st'.pages raw ids) :
    Chains st' (raw :: tuples) (ids :: chains) :=
  ⟨.cons owned (before.kept kept).owned, before.among.append fresh low kept.1⟩

theorem Chains.delete {removed : List (List Byte)} (before : Chains st tuples chains)
    (perm : (removed ++ tuples').Perm tuples) :
    ∃ chains', Chains st tuples' chains' := by
  obtain ⟨sorted, owned, same⟩ := List.perm_comp_forall₂ perm before.owned
  refine ⟨sorted.drop removed.length, (List.forall₂_drop_append _ _ _ owned.flip).flip, ?_⟩
  apply (before.among.perm same.symm.flatten).sublist
  conv_rhs => rw [← List.take_append_drop removed.length sorted, List.flatten_append]
  exact List.sublist_append_right ..

/-! ### Histories -/

/-- A tree object that stands for a map, with chains for its tuples. -/
def Reserves (st : BTree) (contents : Contents) : Prop :=
  ∃ (h : Nat) (tree : Tree h), Keeps st tree contents ∧ st.Apart tree.tuples

theorem Agrees.overflowKept (agrees : st.Agrees st') : OverflowKept st st' := by
  constructor
  · exact Nat.le_of_eq agrees.counter.symm
  · intro pid page _ stored
    rw [agrees.pages, stored]

theorem perform_reserves {operation : Operation} (reserves : Reserves st contents)
    (admits : Admits contents operation) :
    Ran (perform operation) st fun _ st' => Reserves st' (contents.apply operation) := by
  obtain ⟨h, tree, keeps, apart⟩ := reserves
  obtain ⟨payloads, stores, lists⟩ := id keeps
  have low : DATABASE_META_PAGE_ID < st.newPageOffsetIndex := by
    have root := stores.represents.bounded _ pid_mem_pids
    omega
  cases operation with
  | insert buffer key =>
    rw [perform, ran_bind]
    apply (insert_keeps keeps admits.1 admits.2).imp
    rintro result st' ⟨-, h', tree', inserted, keeps'⟩
    rw [ran_pure]
    refine ⟨h', tree', keeps', fun addressable => ?_⟩
    obtain ⟨chains, before⟩ := apart (Nat.le_trans inserted.kept.1 addressable)
    obtain ⟨raw, perm, -, -, ids, fresh, owned⟩ := inserted.tuples
    exact (before.insert inserted.kept low fresh (owned addressable)).delete
      (show ([] ++ tree'.tuples).Perm _ from perm)
  | delete key =>
    rw [perform, ran_bind]
    apply (delete_keeps keeps key).imp
    rintro result st' ⟨-, h', tree', reduced, keeps'⟩
    rw [ran_pure]
    refine ⟨h', tree', keeps', fun addressable => ?_⟩
    obtain ⟨chains, before⟩ := apart (Nat.le_trans reduced.kept.1 addressable)
    obtain ⟨page, -, -, removed, -, perm⟩ := reduced.tuples stores.represents
    exact (before.kept reduced.kept).delete perm
  | search key =>
    rw [perform, ran_bind]
    apply (search_keeps keeps key).imp
    rintro stream st' ⟨agrees, keeps', -⟩
    rw [ran_pure]
    refine ⟨h, tree, keeps', fun addressable => ?_⟩
    obtain ⟨chains, before⟩ := apart (Nat.le_trans (Agrees.overflowKept agrees).1 addressable)
    exact ⟨chains, before.kept (Agrees.overflowKept agrees)⟩

theorem run_reserves (operations : List Operation) (fresh : Fresh .empty operations) :
    Ran (run operations) bootstrapped fun _ st => Reserves st (Contents.empty.applyAll operations) := by
  apply ran_bind.mpr
  apply construct_keeps.imp
  intro _ st keeps
  refine performAll_invariant Reserves (fun _ _ _ reserves admits => perform_reserves reserves admits)
    operations ⟨0, _, keeps, ?_⟩ fresh
  obtain ⟨payloads, stores, lists⟩ := keeps
  exact fun _ => ⟨[], .nil, List.nodup_nil, List.forall_mem_nil _⟩

/-! ### Chains and the pages of the tree -/

theorem mem_pidsFrom {pages : Nat → Page} {fuel root pid : Nat} (member : pid ∈ pidsFrom pages fuel root) :
    (∃ page, pages pid = .leaf page) ∨ ∃ page, pages pid = .internal page := by
  induction fuel generalizing root with
  | zero => cases member
  | succ fuel ih =>
    rw [pidsFrom] at member
    split at member
    next page stored =>
      rw [List.mem_singleton.mp member]
      exact .inl ⟨page, stored⟩
    next page stored =>
      cases List.mem_cons.mp member with
      | inl here =>
        rw [here]
        exact .inr ⟨page, stored⟩
      | inr below =>
        obtain ⟨child, -, inside⟩ := List.mem_flatMap.mp below
        exact ih inside
    next => cases member

/-- Every live tuple has a chain with the rest of its payload. No page is in two chains or twice in
one, in the tree, or a meta page. -/
def BTree.OwnsChains (st : BTree) : Prop :=
  ∃ chains : List (List Nat), List.Forall₂ (Owned st.pages) st.tuples chains ∧ chains.flatten.Nodup ∧
    ∀ pid ∈ chains.flatten, pid ∉ st.pids ∧ pid ≠ STORAGE_MANAGER_META_PAGE_ID ∧ pid ≠ DATABASE_META_PAGE_ID

theorem Chains.ownsChains (chains_of : Chains st st.tuples chains) : st.OwnsChains := by
  refine ⟨chains, chains_of.owned, chains_of.among.distinct, fun pid inside => ?_⟩
  have low := (chains_of.among.range pid inside).1
  refine ⟨fun member => ?_, ?_, ?_⟩
  · obtain ⟨page, stored⟩ := chains_of.overflow pid inside
    cases mem_pidsFrom member with
    | inl leaf =>
      obtain ⟨leaf, other⟩ := leaf
      rw [stored] at other
      cases other
    | inr internal =>
      obtain ⟨internal, other⟩ := internal
      rw [stored] at other
      cases other
  · simp only [STORAGE_MANAGER_META_PAGE_ID, DATABASE_META_PAGE_ID] at low ⊢
    omega
  · omega

/-- After every history that inserts only absent keys, the overflow chains are owned by single
tuples. -/
theorem chains_owned (operations : List Operation) (fresh : Fresh .empty operations) :
    Ran (run operations) bootstrapped fun _ st => Addressable st → st.OwnsChains := by
  apply (run_reserves operations fresh).imp
  rintro - st ⟨h, tree, keeps, apart⟩ addressable
  obtain ⟨chains, chains_of⟩ := apart addressable
  obtain ⟨payloads, stores, -⟩ := keeps
  rw [Tree.tuples, ← stores.represents.leaves] at chains_of
  exact chains_of.ownsChains

theorem chains_owned_varied : Ran (run varied) bootstrapped fun _ st => Addressable st →
    st.OwnsChains :=
  chains_owned varied fresh_varied

end Datashil
