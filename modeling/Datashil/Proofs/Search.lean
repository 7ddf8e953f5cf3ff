import Datashil.Proofs.Draining
import Datashil.Proofs.FindPageToWrite

/-! `Search` on the tree a store holds: it arrives at the leaf of the key, and the
stream it returns yields the payload of the first tuple with the key there. -/

namespace Datashil
open Library LeafPage BTree

def LeafPage.stream (page : LeafPage) (key : Nat) : PayloadStream :=
  let result := page.search key
  if !result.found then .empty
  else .make page.pageId result.tupleOffset result.tupleEndOffset result.totalTupleSize result.overflow
    result.overflowPageId

theorem PayloadStream.yields_empty {pages : Nat → Page} {bound : Nat} :
    PayloadStream.empty.Yields pages bound [] :=
  ⟨rfl, fun nonempty => absurd rfl nonempty⟩

/-- The stream of a stored tuple yields the payload it spells out. -/
private theorem yields_make {pages : Nat → Page} {bound : Nat} {page : LeafPage} {offset : Nat}
    {tuple payload : List Byte}
    (stored : pages page.pageId = .leaf page) (long : TUPLE_HEADER_SIZE + SIZEOF_KEY ≤ tuple.length)
    (content : page.bytes.read offset tuple.length = tuple) (spells : Spells pages bound tuple payload) :
    (PayloadStream.make page.pageId offset (offset + tuple.length) (headerOf tuple).size
      (0 < (headerOf tuple).overflow)
      (headerOf tuple).overflowPage).Yields pages bound payload := by
  refine ⟨by simp [PayloadStream.make, spells.size], fun _ => ?_⟩
  obtain ⟨rest, whole, behind⟩ := spells.content
  have size : (tuple.drop TUPLE_HEADER_SIZE).length + TUPLE_HEADER_SIZE = tuple.length := by
    rw [List.length_drop]
    omega
  refine ⟨tuple.drop TUPLE_HEADER_SIZE, rest, whole, ⟨page.bytes, ?_, ?_⟩, ?_⟩
  · rw [PayloadStream.make, stored]
    exact .leaf page
  · have dropped := congrArg (List.drop TUPLE_HEADER_SIZE) content
    rw [Memory.drop_read _ _ _ _ (by omega)] at dropped
    rw [List.length_drop]
    exact dropped
  · simp only [PayloadStream.make, decide_eq_true_eq, decide_eq_false_iff_not]
    rcases behind with ⟨flag, none⟩ | ⟨flag, chain⟩
    · exact .inl ⟨none, by omega, by omega⟩
    · refine .inr ⟨flag, ?_, by omega, chain⟩
      apply List.ne_nil_of_length_pos
      simp only [TUPLE_HEADER_SIZE, SIZEOF_KEY] at long size ⊢
      omega

/-- What the stream of a leaf yields: nothing, or the payload of the first tuple with the key. -/
theorem LeafPage.stream_spec {pages : Nat → Page} {bound : Nat} {page : LeafPage} (valid : page.Valid)
    (stored : pages page.pageId = .leaf page) (key : Nat) :
    ((∀ tuple ∈ page.tuples, keyOf tuple ≠ key) ∧ (page.stream key).Yields pages bound []) ∨
    ∃ first tuple second, FirstWith key page.tuples first tuple second ∧
      ∀ payload, Spells pages bound tuple payload → (page.stream key).Yields pages bound payload := by
  rcases search_spec valid key with ⟨absent, missed⟩ | ⟨first, tuple, second, offset, found, content, answer⟩
  · refine .inl ⟨absent, ?_⟩
    rw [stream, missed]
    exact PayloadStream.yields_empty
  · refine .inr ⟨first, tuple, second, found, fun payload spells => ?_⟩
    have member : tuple ∈ page.tuples := by
      rw [found.1]
      simp
    have yields := yields_make stored (valid.length_tuple member).1 content spells
    rw [stream, answer]
    exact yields

namespace Tree
variable {h : Nat} {tree : Tree h} {key : Nat} {st : BTree}

theorem searchFrom_spec (fuel : Nat) (enough : h < fuel) (holds : tree.Holds st.pages) :
    Ran (searchFrom fuel tree.pid key) st fun stream st' =>
      st.Agrees st' ∧ ∃ leaf ∈ tree.leaves, Located key leaf.pageId tree ∧ stream = leaf.stream key := by
  induction h generalizing fuel st with
  | zero =>
    obtain ⟨fuel, rfl⟩ := Nat.exists_eq_add_of_lt enough
    have stored : st.pages (LeafPage.pageId tree) = .leaf tree := holds
    simp only [Nat.zero_add, searchFrom, pid_leaf, ran_bind, ran_requestPage, ran_readPage,
      pages_record, stored]
    by_cases missed : (!(LeafPage.search tree key).found) = true
    · rw [if_pos missed]
      simp only [ran_bind, ran_releasePage, ran_pure]
      exact ⟨⟨rfl, rfl, rfl⟩, tree, by simp, rfl, by rw [LeafPage.stream, if_pos missed]⟩
    · rw [if_neg missed]
      simp only [ran_bind, ran_releasePage, ran_pure]
      exact ⟨⟨rfl, rfl, rfl⟩, tree, by simp, rfl, by rw [LeafPage.stream, if_neg missed]⟩
  | succ h ih =>
    obtain ⟨fuel, rfl⟩ : ∃ rest, fuel = rest + 1 := ⟨fuel - 1, by omega⟩
    obtain ⟨id, row⟩ := tree
    obtain ⟨left, child, right, rfl, place⟩ := row.exists_found key
    obtain ⟨⟨page, stored, -, shown⟩, -, below, -⟩ := holds_focus.mp holds
    simp only [searchFrom, pid_node, ran_bind, ran_requestPage, ran_readPage, pages_record, stored,
      shown.getChildPageId (found_pids place), ran_releasePage]
    have below : Holds (((st.record (.request id)).record (.read id)).record (.release id false)).pages
        child :=
      below
    refine (ih fuel (by omega) below).imp ?_
    rintro stream st' ⟨agrees, leaf, member, located, same⟩
    refine ⟨⟨agrees.pages, agrees.root, agrees.counter⟩, leaf, ?_,
      ⟨left, child, right, rfl, place, located⟩, same⟩
    exact mem_leaves_node.mpr ⟨child, by simp, member⟩

end Tree
end Datashil
