import Datashil.Library.Liberal
import Datashil.Proofs.Ledger
import Mathlib.Data.Set.Insert

/-! Accounting for accesses. What a step of an operation does to the ledger is told
apart from what it does to the pages. -/

namespace Datashil
open Library

namespace BTree
variable {tree : BTree} {pid : Nat}

section Whenever
variable {page : Page} {post : Unit → BTree → Prop}

theorem whenever_requestPage : Whenever (requestPage pid) tree post ↔
    post () (tree.record (.request pid)) :=
  whenever_of_eq rfl

theorem whenever_releasePage {isDirty : Bool} :
    Whenever (releasePage pid isDirty) tree post ↔ post () (tree.record (.release pid isDirty)) :=
  whenever_of_eq rfl

theorem whenever_writePage : Whenever (writePage pid page) tree post ↔
    post () ((tree.setPage pid page).record (.write pid)) :=
  whenever_of_eq rfl

theorem whenever_readPage {post : Page → BTree → Prop} :
    Whenever (readPage pid) tree post ↔ post (tree.pages pid) (tree.record (.read pid)) := whenever_of_eq rfl

theorem whenever_allocateNewPage {post : Nat → BTree → Prop} :
    Whenever allocateNewPage tree post ↔ post tree.newPageOffsetIndex tree.allocated := whenever_of_eq rfl

theorem whenever_readInternal {post : InternalPage → BTree → Prop} :
    Whenever (readInternal pid) tree post ↔ ∀ page, tree.pages pid = .internal page →
      post page (tree.record (.read pid)) := by
  rw [readInternal, whenever_bind, whenever_readPage]
  cases tree.pages pid <;> simp [whenever_pure, whenever_throw]

theorem whenever_readLeaf {post : LeafPage → BTree → Prop} :
    Whenever (readLeaf pid) tree post ↔ ∀ page, tree.pages pid = .leaf page →
      post page (tree.record (.read pid)) := by
  rw [readLeaf, whenever_bind, whenever_readPage]
  cases tree.pages pid <;> simp [whenever_pure, whenever_throw]

theorem whenever_readOverflow {post : OverflowPage → BTree → Prop} :
    Whenever (readOverflow pid) tree post ↔ ∀ page, tree.pages pid = .overflow page →
      post page (tree.record (.read pid)) := by
  rw [readOverflow, whenever_bind, whenever_readPage]
  cases tree.pages pid <;> simp [whenever_pure, whenever_throw]

end Whenever

def Unclaimed (tree : BTree) (pid : Nat) : Prop :=
  pid ≠ STORAGE_MANAGER_META_PAGE_ID ∧ tree.ledger.unmarked pid = false

/-- A page that may be requested: it has not been given up with changes on it. The pool may have
dropped the changes, so a request for it need not show what was last on it. -/
def Live (tree : BTree) (pid : Nat) : Prop := tree.Unclaimed pid ∧ pid < tree.newPageOffsetIndex

end BTree

/-- From one state to another all accesses are allowed. Afterwards some pages are held, and the pages
with changes that are not marked are old ones or among those that have been touched. -/
structure Accounted (limit : Nat) (st : BTree) (held : Multiset Nat) (touched : Set Nat) (st' : BTree) :
    Prop where
  guarded : Guarded limit st st'
  held : st'.ledger.held = held
  unmarked : ∀ pid, st'.ledger.unmarked pid = true → pid ∈ touched ∨ st.ledger.unmarked pid = true

namespace Accounted
variable {limit : Nat} {st st₁ st₂ : BTree} {held held' : Multiset Nat} {touched touched' : Set Nat}

theorem refl (limit : Nat) (st : BTree) : Accounted limit st st.ledger.held ∅ st :=
  ⟨.refl, rfl, fun _ unmarked => .inr unmarked⟩

theorem trans (first : Accounted limit st held touched st₁)
    (second : Accounted limit st₁ held' touched' st₂) :
    Accounted limit st held' (touched ∪ touched') st₂ := by
  refine ⟨first.guarded.trans second.guarded, second.held, fun pid unmarked => ?_⟩
  cases second.unmarked pid unmarked with
  | inl here => exact .inl (.inr here)
  | inr before => exact (first.unmarked pid before).imp_left .inl

theorem weaken (accounted : Accounted limit st held touched st₁) (within : touched ⊆ touched') :
    Accounted limit st held touched' st₁ :=
  ⟨accounted.guarded, accounted.held, fun pid unmarked =>
    (accounted.unmarked pid unmarked).imp_left fun inside => within inside⟩

theorem grants (accounted : Accounted limit st held touched st₁) {pid : Nat} (room : held.card < limit)
    (unclaimed : st.Unclaimed pid)
    (kept : pid ∈ touched → pid ∈ held) : st₁.ledger.Grants limit pid := by
  refine ⟨?_, unclaimed.1, fun unmarked => ?_⟩
  · rwa [accounted.held]
  · rw [accounted.held]
    cases accounted.unmarked pid unmarked with
    | inl here => exact kept here
    | inr before => exact absurd before (by simp [unclaimed.2])

theorem request (accounted : Accounted limit st held touched st₁) (pid : Nat) (room : held.card < limit)
    (live : st.Live pid)
    (kept : pid ∈ touched → pid ∈ held) :
    Accounted limit st (pid ::ₘ held) touched (st₁.record (.request pid)) :=
  ⟨.request accounted.guarded (accounted.grants room live.1 kept)
    (Nat.lt_of_lt_of_le live.2 accounted.guarded.grows),
    by simp [Ledger.step, accounted.held], accounted.unmarked⟩

theorem allocate (accounted : Accounted limit st held touched st₁) (room : held.card < limit)
    (unclaimed : st.Unclaimed st₁.newPageOffsetIndex)
    (kept : st₁.newPageOffsetIndex ∈ touched → st₁.newPageOffsetIndex ∈ held) :
    Accounted limit st (st₁.newPageOffsetIndex ::ₘ held) touched st₁.allocated :=
  ⟨.allocate accounted.guarded (accounted.grants room unclaimed kept), congrArg _ accounted.held,
    accounted.unmarked⟩

theorem read (accounted : Accounted limit st held touched st₁) (pid : Nat) (pinned : pid ∈ held) :
    Accounted limit st held touched (st₁.record (.read pid)) := by
  refine ⟨.read accounted.guarded ?_, accounted.held, accounted.unmarked⟩
  rwa [accounted.held]

theorem write (accounted : Accounted limit st held touched st₁) (pid : Nat) (page : Page)
    (pinned : pid ∈ held) :
    Accounted limit st held (insert pid touched) ((st₁.setPage pid page).record (.write pid)) := by
  refine ⟨.write accounted.guarded ?_, accounted.held, fun other unmarked => ?_⟩
  · rwa [accounted.held]
  · by_cases here : other = pid
    · exact .inl (.inl here)
    · simp only [BTree.ledger_record, BTree.ledger_setPage, Ledger.step, here, ite_false] at unmarked
      exact (accounted.unmarked other unmarked).imp_left .inr

theorem release (accounted : Accounted limit st held touched st₁) (pid : Nat) (pinned : pid ∈ held) :
    Accounted limit st (held.erase pid) touched (st₁.record (.release pid false)) := by
  refine ⟨.release accounted.guarded ?_, ?_, fun other unmarked => ?_⟩
  · rwa [accounted.held]
  · simp [Ledger.step, accounted.held]
  · simp only [BTree.ledger_record, Ledger.step, Bool.false_eq_true, and_false, ite_false] at unmarked
    exact accounted.unmarked other unmarked

theorem mark (accounted : Accounted limit st held touched st₁) (pid : Nat) (pinned : pid ∈ held) :
    Accounted limit st (held.erase pid) (touched \ {pid}) (st₁.record (.release pid true)) := by
  refine ⟨.release accounted.guarded ?_, ?_, fun other unmarked => ?_⟩
  · rwa [accounted.held]
  · simp [Ledger.step, accounted.held]
  · simp only [BTree.ledger_record, Ledger.step, and_true] at unmarked
    split at unmarked
    · cases unmarked
    · rename_i away
      exact (accounted.unmarked other unmarked).imp_left fun inside => ⟨inside, away⟩

end Accounted
end Datashil
