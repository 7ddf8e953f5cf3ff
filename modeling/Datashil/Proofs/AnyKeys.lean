import Datashil.Proofs.CleanCuts
import Datashil.Proofs.Histories

/-! Histories that may tear tuples with one key apart. The keys of the tree may then be out
of order, but its pages stay sound, every leaf still leads to a leaf, and no payload is lost. -/

namespace Datashil
open Library BTree Datashil.Tree

/-- Every history whose buffers can be stored. Keys may be inserted while they are present, however
they are torn apart, so that nothing is assumed of their order. -/
abbrev Storing (_ : BTree) (operation : Operation) : Prop :=
  ∀ buffer key, operation = .insert buffer key → Storable buffer key

variable {st : BTree} {h : Nat} {tree : Tree h} {payloads : List (List Byte)} {key : Nat}

theorem Admits.storing {contents : Contents} {operation : Operation}
    (admits : Admits contents operation) : Storing st operation := by
  rintro buffer key rfl
  exact admits.1

theorem fresh_storable {contents : Contents} {operations : List Operation}
    (fresh : Fresh contents operations) :
    ∀ buffer key, .insert buffer key ∈ operations → Storable buffer key := by
  induction operations generalizing contents with
  | nil => nofun
  | cons operation operations ih =>
    intro buffer key member
    rcases List.mem_cons.mp member with rfl | later
    · exact fresh.1.1
    · exact ih fresh.2 buffer key later

theorem not_cut_loose : ¬ Cut Loose := by
  intro rel
  obtain ⟨a, b, not⟩ := rel.some_not
  exact not trivial

/-- Where nothing is asked of keys, every repair is clean. -/
theorem cleanDelete_loose (key : Nat) (tree : Tree h) : CleanDelete Loose key tree :=
  cleanDelete_of_around fun _ _ _ _ _ => ⟨fun _ _ _ _ _ _ _ => trivial, fun _ _ _ _ _ _ _ _ => trivial⟩

theorem insert_any (stores : Stores Loose st tree payloads) {buffer : List Byte}
    (storable : Storable buffer key) :
    Ran (BTree.insert buffer key) st fun result st' => result = true ∧
      ∃ (h' : Nat) (tree' : Tree h') (payloads' : List (List Byte)),
        Inserted Loose key buffer st st' tree tree' ∧
        payloads'.Perm (buffer :: payloads) ∧ Stores Loose st' tree' payloads' := by
  refine (insert_spec .loose stores.represents storable fun rel => absurd rel not_cut_loose).imp ?_
  rintro result st' ⟨done, h', tree', inserted⟩
  obtain ⟨payloads', perm, stores'⟩ := inserted.stores stores storable.keyed
  exact ⟨done, h', tree', payloads', inserted, perm, stores'⟩

/-- A deletion takes at most one payload, which has the key. -/
theorem delete_any (stores : Stores Loose st tree payloads) (key : Nat) :
    Ran (BTree.delete (fun _ => 0) key) st fun result st' => result = (tree.report key).success ∧
      ∃ (h' : Nat) (tree' : Tree h') (gone kept : List (List Byte)), Reduced Loose key st st' tree tree' ∧
        (gone ++ kept).Perm payloads ∧
          (gone = [] ∨ ∃ payload, gone = [payload] ∧ payloadKey payload = key) ∧
          Stores Loose st' tree' kept := by
  refine (delete_spec .loose stores.represents stores.known (cleanDelete_loose key tree)).imp ?_
  rintro result st' ⟨done, h', tree', reduced⟩
  obtain ⟨page, member, located, removed, gone, kept, takes, filed, perm, stores'⟩ := reduced.stores stores
  refine ⟨done, h', tree', gone, kept, reduced, perm, ?_, stores'⟩
  cases takes with
  | nothing absent clean =>
    cases filed
    exact .inl rfl
  | first inside keyed dirty =>
    obtain ⟨⟩ | ⟨found, ⟨⟩⟩ := filed
    exact .inr ⟨_, rfl, found.keyed.symm.trans keyed⟩

theorem perform_any {operation : Operation} (stores : Stores Loose st tree payloads)
    (storing : Storing st operation) :
    Ran (perform operation) st fun _ st' =>
      ∃ (h' : Nat) (tree' : Tree h') (payloads' : List (List Byte)), Stores Loose st' tree' payloads' := by
  cases operation with
  | insert buffer key =>
    refine ran_bind.mpr ((insert_any stores (storing buffer key rfl)).imp fun _ st' inserted =>
      ran_pure.mpr ?_)
    obtain ⟨-, h', tree', payloads', -, -, stores'⟩ := inserted
    exact ⟨h', tree', payloads', stores'⟩
  | delete key =>
    refine ran_bind.mpr ((delete_any stores key).imp fun _ st' deleted => ran_pure.mpr ?_)
    obtain ⟨-, h', tree', gone, kept, -, -, -, stores'⟩ := deleted
    exact ⟨h', tree', kept, stores'⟩
  | search key =>
    refine ran_bind.mpr ((stores.searches key).imp fun _ st' searched => ran_pure.mpr ?_)
    exact ⟨h, tree, payloads, stores.agrees searched.1⟩

/-- Whatever is inserted, the store spells out a tree of sound pages. -/
theorem reaches_stores {operations : List Operation} (reaches : Reaches Storing operations st) :
    ∃ (h : Nat) (tree : Tree h) (payloads : List (List Byte)), Stores Loose st tree payloads := by
  induction reaches with
  | start constructed => exact ⟨0, _, [], (construct_spec Loose trivial).elim constructed⟩
  | step reaches allows performed ih =>
    obtain ⟨h, tree, payloads, stores⟩ := ih
    exact (perform_any stores allows).elim performed

/-- No operation fails, so every history can be run. -/
theorem run_storing (operations : List Operation)
    (storable : ∀ buffer key, .insert buffer key ∈ operations → Storable buffer key) :
    Ran (run operations) bootstrapped fun _ st => Reaches Storing operations st := by
  have later : ∀ (rest earlier : List Operation) (st : BTree), Reaches Storing earlier st →
      (∀ buffer key, .insert buffer key ∈ rest → Storable buffer key) →
        Ran (performAll rest) st fun _ st' => Reaches Storing (earlier ++ rest) st' := by
    intro rest
    induction rest with
    | nil =>
      intro earlier st reaches _
      rw [List.append_nil]
      exact ran_pure.mpr reaches
    | cons operation rest ih =>
      intro earlier st reaches storable
      obtain ⟨h, tree, payloads, stores⟩ := reaches_stores reaches
      have storing : Storing st operation := fun buffer key same => storable buffer key (same ▸ .head _)
      obtain ⟨outcome, st', performed, -⟩ := perform_any stores storing
      have through := ih (earlier ++ [operation]) st' (.step reaches storing performed)
        fun buffer key member =>
        storable buffer key (.tail _ member)
      rw [List.append_assoc, List.singleton_append] at through
      simp only [performAll, ran_bind, ran_pure]
      exact ⟨outcome, st', performed, through⟩
  refine ran_bind.mpr ?_
  obtain ⟨result, st, constructed, -⟩ := construct_spec Loose trivial
  exact ⟨result, st, constructed, later operations [] st (.start constructed) storable⟩

end Datashil
