import Datashil.Proofs.Delete
import Datashil.Proofs.Insert

/-! The sibling links of the leaves, along the leaves from left to right. -/

namespace Datashil
open LeafPage Datashil.Tree

/-! ### Right links -/

def firstPid : List LeafPage → (next : Nat) → Nat
  | [], next => next
  | page :: _, _ => page.pageId

/-- Every leaf points to the one right of it, the last one to `next`. -/
def RightLinked : List LeafPage → (next : Nat) → Prop
  | [], _ => True
  | page :: rest, next => page.rightPid = firstPid rest next ∧ RightLinked rest next

variable {first second old new leaves : List LeafPage} {next prev : Nat}

@[simp] theorem firstPid_cons {page : LeafPage} : firstPid (page :: leaves) next = page.pageId := rfl

theorem rightLinked_cons {page : LeafPage} : RightLinked (page :: leaves) next ↔
    page.rightPid = firstPid leaves next ∧ RightLinked leaves next := Iff.rfl

@[simp] theorem firstPid_append :
    firstPid (first ++ second) next = firstPid first (firstPid second next) := by
  cases first <;> rfl

@[simp] theorem rightLinked_append : RightLinked (first ++ second) next ↔
    RightLinked first (firstPid second next) ∧ RightLinked second next := by
  induction first with
  | nil => simp [RightLinked]
  | cons page first ih => simp [RightLinked, ih, and_assoc]

/-- Leaves that take the place of others without being noticed from the left or the right. -/
theorem RightLinked.replace (linked : RightLinked (first ++ (old ++ second)) next)
    (replaces : ∀ next, RightLinked old next → RightLinked new next ∧ firstPid new next = firstPid old next) :
    RightLinked (first ++ (new ++ second)) next := by
  simp only [rightLinked_append, firstPid_append] at linked ⊢
  obtain ⟨before, here, after⟩ := linked
  obtain ⟨here, same⟩ := replaces _ here
  exact ⟨same ▸ before, here, after⟩

theorem RightLinked.map (linked : RightLinked leaves next) {f : LeafPage → LeafPage}
    (named : ∀ page ∈ leaves, (f page).pageId = page.pageId ∧ (f page).rightPid = page.rightPid) :
    RightLinked (leaves.map f) next := by
  induction leaves with
  | nil => trivial
  | cons page rest ih =>
    refine ⟨?_, ih linked.2 fun other member => named other (.tail _ member)⟩
    rw [(named page (.head _)).2, linked.1]
    cases rest with
    | nil => rfl
    | cons other rest => exact (named other (.tail _ (.head _))).1.symm

theorem RightLinked.mem (linked : RightLinked leaves next) {page : LeafPage} (member : page ∈ leaves) :
    page.rightPid = next ∨ ∃ other ∈ leaves, other.pageId = page.rightPid := by
  induction leaves with
  | nil => cases member
  | cons head rest ih =>
    rcases List.mem_cons.mp member with rfl | member
    · rw [linked.1]
      cases rest with
      | nil => exact .inl rfl
      | cons other rest => exact .inr ⟨other, by simp, rfl⟩
    · rcases ih linked.2 member with last | ⟨other, inside, same⟩
      · exact .inl last
      · exact .inr ⟨other, .tail _ inside, same⟩

theorem LeafInserted.rightLinked {cut : Nat → Nat → Prop} {key size : Nat} {page : LeafPage}
    {pages : List LeafPage} {raw : List Byte}
    (inserted : LeafInserted cut key size page pages raw) (linked : RightLinked [page] next) :
    RightLinked pages next ∧ firstPid pages next = page.pageId := by
  obtain ⟨page', new, target, before, leaf, after, final, prepared, parts, -, rewritten, rfl⟩ := inserted
  obtain ⟨ids, -, right⟩ := rewritten.ids
  -- The leaf that takes the tuple keeps its id and its links.
  suffices whole : RightLinked (before ++ leaf :: after) next ∧
    firstPid (before ++ leaf :: after) next = page.pageId by
    simpa only [rightLinked_append, rightLinked_cons, firstPid_append, firstPid_cons, ids, right] using whole
  rw [← parts]
  cases prepared with
  | fits => exact ⟨linked, rfl⟩
  | splits crowded halved =>
    refine ⟨⟨halved.leftIds.2.2.trans halved.rightIds.1.symm, ?_, trivial⟩, halved.leftIds.1⟩
    exact halved.rightIds.2.2.trans linked.1

theorem Tree.LeafDeleted.rightLinked {cut : Nat → Nat → Prop} {key : Nat} {page : LeafPage}
    {fix : Option (Nat × Nat)} (valid : page.Valid)
    (deleted : LeafDeleted cut key page old new fix) (linked : RightLinked old next) :
    RightLinked new next ∧ firstPid new next = firstPid old next := by
  obtain ⟨-, ids, -, right, -⟩ := tuples_deleteTuple valid key
  cases deleted with
  | alone => exact ⟨⟨right.trans linked.1, trivial⟩, ids⟩
  | lentLeft rotated =>
    refine ⟨⟨?_, rotated.rightIds.2.2.trans (right.trans linked.2.1), trivial⟩, rotated.leftIds.1⟩
    exact rotated.leftIds.2.2.trans (linked.1.trans (rotated.rightIds.1.trans ids).symm)
  | lentRight rotated =>
    refine ⟨⟨?_, rotated.rightIds.2.2.trans linked.2.1, trivial⟩, rotated.leftIds.1.trans ids⟩
    exact rotated.leftIds.2.2.trans (right.trans (linked.1.trans rotated.rightIds.1.symm))
  | mergedLeft joined => exact ⟨⟨joined.ids.2.2.trans (right.trans linked.2.1), trivial⟩, joined.ids.1⟩
  | mergedRight joined => exact ⟨⟨joined.ids.2.2.trans linked.2.1, trivial⟩, joined.ids.1.trans ids⟩

/-- The new leaves of an insertion lead to each other and to where the old one led. -/
theorem LeafInserted.rightPids {cut : Nat → Nat → Prop} {key size : Nat} {page : LeafPage}
    {pages : List LeafPage} {raw : List Byte}
    (inserted : LeafInserted cut key size page pages raw) {leaf : LeafPage} (member : leaf ∈ pages) :
    leaf.rightPid = page.rightPid ∨ ∃ other ∈ pages, other.pageId = leaf.rightPid := by
  have alone : RightLinked [page] page.rightPid := ⟨rfl, trivial⟩
  exact (inserted.rightLinked alone).1.mem member

theorem Tree.LeafDeleted.rightPids {cut : Nat → Nat → Prop} {key : Nat} {page : LeafPage}
    {fix : Option (Nat × Nat)} (valid : page.Valid)
    (deleted : LeafDeleted cut key page old new fix) {leaf : LeafPage} (member : leaf ∈ new) :
    ∃ other ∈ old, other.rightPid = leaf.rightPid := by
  obtain ⟨-, -, -, right, -⟩ := tuples_deleteTuple valid key
  cases deleted with
  | alone =>
    obtain rfl := List.mem_singleton.mp member
    exact ⟨page, .head _, right.symm⟩
  | @lentLeft sibling _ _ _ rotated =>
    rcases List.mem_cons.mp member with rfl | member
    · exact ⟨sibling, .head _, rotated.leftIds.2.2.symm⟩
    · obtain rfl := List.mem_singleton.mp member
      exact ⟨page, .tail _ (.head _), (rotated.rightIds.2.2.trans right).symm⟩
  | @lentRight sibling _ _ _ rotated =>
    rcases List.mem_cons.mp member with rfl | member
    · exact ⟨page, .head _, (rotated.leftIds.2.2.trans right).symm⟩
    · obtain rfl := List.mem_singleton.mp member
      exact ⟨sibling, .tail _ (.head _), rotated.rightIds.2.2.symm⟩
  | mergedLeft joined =>
    obtain rfl := List.mem_singleton.mp member
    exact ⟨page, .tail _ (.head _), (joined.ids.2.2.trans right).symm⟩
  | @mergedRight sibling _ joined =>
    obtain rfl := List.mem_singleton.mp member
    exact ⟨sibling, .tail _ (.head _), joined.ids.2.2.symm⟩

/-! ### Left links -/

def lastPid : (prev : Nat) → List LeafPage → Nat
  | prev, [] => prev
  | _, page :: rest => lastPid page.pageId rest

/-- Every leaf points to the one left of it, the first one to `prev`. -/
def LeftLinked : (prev : Nat) → List LeafPage → Prop
  | _, [] => True
  | prev, page :: rest => page.leftPid = prev ∧ LeftLinked page.pageId rest

@[simp] theorem lastPid_append : lastPid prev (first ++ second) = lastPid (lastPid prev first) second := by
  induction first generalizing prev with
  | nil => rfl
  | cons page first ih => exact ih

@[simp] theorem leftLinked_append : LeftLinked prev (first ++ second) ↔ LeftLinked prev first ∧
    LeftLinked (lastPid prev first) second := by
  induction first generalizing prev with
  | nil => simp [LeftLinked, lastPid]
  | cons page first ih => simp [LeftLinked, lastPid, ih, and_assoc]

theorem RightLinked.eq_iff (right : RightLinked leaves 0) (left : LeftLinked 0 leaves)
    (distinct : (leaves.map LeafPage.pageId).Nodup)
    (named : ∀ page ∈ leaves, page.pageId ≠ 0) {p q : LeafPage} (pMem : p ∈ leaves) (qMem : q ∈ leaves) :
    p.rightPid = q.pageId ↔ q.leftPid = p.pageId := by
  have unique : ∀ {other page : LeafPage}, other ∈ leaves → page ∈ leaves → other.pageId = page.pageId →
      other = page :=
    fun {_ _} first second same =>
    List.inj_on_of_nodup_map distinct first second same
  constructor
  · intro points
    obtain ⟨before, after, rfl⟩ := List.append_of_mem pMem
    have follows := (rightLinked_append.mp right).2.1
    cases after with
    | nil => exact absurd (points.symm.trans follows) (named q qMem)
    | cons next after =>
      obtain rfl := unique (show next ∈ _ by simp) qMem (follows.symm.trans points)
      exact (leftLinked_append.mp left).2.2.1
  · intro points
    obtain ⟨before, after, rfl⟩ := List.append_of_mem qMem
    have follows := (leftLinked_append.mp left).2.1
    rcases List.eq_nil_or_concat' before with rfl | ⟨before, prior, rfl⟩
    · exact absurd (points.symm.trans follows) (named p pMem)
    · rw [lastPid_append] at follows
      obtain rfl := unique (show prior ∈ _ by simp) pMem (follows.symm.trans points)
      simp only [List.append_assoc, rightLinked_append] at right
      exact right.2.1.1

/-- A split leaves the leaves it makes of a page linked, but it adds one after the page. -/
theorem LeafInserted.leftLinked {cut : Nat → Nat → Prop} {key size : Nat} {page : LeafPage}
    {pages : List LeafPage} {raw : List Byte}
    (inserted : LeafInserted cut key size page pages raw) (linked : page.leftPid = prev) :
    LeftLinked prev pages ∧ (page.HasRoom size → lastPid prev pages = page.pageId) := by
  obtain ⟨page', new, target, before, leaf, after, final, prepared, parts, -, rewritten, rfl⟩ := inserted
  obtain ⟨ids, left, -⟩ := rewritten.ids
  suffices whole : LeftLinked prev (before ++ leaf :: after) ∧
    (page.HasRoom size → lastPid prev (before ++ leaf :: after) = page.pageId) by
    simpa only [leftLinked_append, LeftLinked, lastPid_append, lastPid, ids, left] using whole
  rw [← parts]
  cases prepared with
  | fits => exact ⟨⟨linked, trivial⟩, fun _ => rfl⟩
  | splits crowded halved =>
    refine ⟨⟨halved.leftIds.2.1.trans linked, ?_, trivial⟩, fun room => absurd room crowded⟩
    exact halved.rightIds.2.1.trans halved.leftIds.1.symm

theorem map_relink_of_away {fix : Option (Nat × Nat)}
    (away : ∀ entry ∈ fix, ∀ page ∈ leaves, page.pageId ≠ entry.1) :
    leaves.map (relink fix) = leaves := by
  cases fix with
  | none => exact List.map_id leaves
  | some entry =>
    conv_rhs => rw [← List.map_id leaves]
    exact List.map_congr_left fun page member => if_neg (away entry rfl page member)

/-- The link a merge sets is that of the next leaf. -/
theorem leftLinked_relink {merged : LeafPage} {stale : Nat} (before : LeftLinked prev first)
    (here : merged.leftPid = lastPid prev first)
    (after : LeftLinked stale second) (right : merged.rightPid = firstPid second 0)
    (distinct : ((first ++ merged :: second).map LeafPage.pageId).Nodup)
    (named : ∀ page ∈ second, page.pageId ≠ 0) :
    LeftLinked prev ((first ++ merged :: second).map (relink (link (h := 0) merged))) := by
  cases second with
  | nil =>
    rw [map_relink_of_away (by simp [link, show merged.rightPid = 0 from right])]
    exact leftLinked_append.mpr ⟨before, here, trivial⟩
  | cons next second =>
    have next_ne : next.pageId ≠ 0 := named next (.head _)
    have fix : link (h := 0) merged = some (next.pageId, merged.pageId) := by
      have right : merged.rightPid = next.pageId := right
      simp [link, right, next_ne]
    rw [List.map_append, List.nodup_append] at distinct
    obtain ⟨-, later, apart⟩ := distinct
    simp only [List.map_cons, List.nodup_cons, List.mem_cons, not_or] at later
    rw [fix, List.map_append, List.map_cons, List.map_cons, map_relink_of_away, map_relink_of_away]
    · refine leftLinked_append.mpr ⟨before, ?_, ?_, ?_⟩
      · rw [relink, if_neg later.1.1]
        exact here
      · rw [pageId_relink, relink, if_pos rfl]
      · rw [pageId_relink]
        exact after.2
    · rintro _ ⟨⟩ page member same
      exact later.2.1 (List.mem_map.mpr ⟨page, member, same⟩)
    · rintro _ ⟨⟩ page member
      exact apart _ (List.mem_map_of_mem member) _ (by simp)

theorem Tree.LeafDeleted.leftLinked {cut : Nat → Nat → Prop} {key : Nat} {page : LeafPage}
    {fix : Option (Nat × Nat)} (valid : page.Valid)
    (deleted : LeafDeleted cut key page old new fix) (left : LeftLinked prev (first ++ (old ++ second)))
    (right : RightLinked (first ++ (new ++ second)) 0)
    (distinct : ((first ++ (new ++ second)).map LeafPage.pageId).Nodup)
    (named : ∀ page ∈ second, page.pageId ≠ 0) :
    LeftLinked prev ((first ++ (new ++ second)).map (relink fix)) := by
  obtain ⟨-, ids, leftPid, -⟩ := tuples_deleteTuple valid key
  obtain ⟨before, left⟩ := leftLinked_append.mp left
  obtain ⟨here, after⟩ := leftLinked_append.mp left
  have unlinked : fix = none → LeftLinked (lastPid prev first) new →
    lastPid (lastPid prev first) new = lastPid (lastPid prev first) old →
      LeftLinked prev ((first ++ (new ++ second)).map (relink fix)) := by
    rintro rfl linked same
    rw [map_relink_of_away (by simp)]
    exact leftLinked_append.mpr ⟨before, leftLinked_append.mpr ⟨linked, same ▸ after⟩⟩
  cases deleted with
  | alone => exact unlinked rfl ⟨leftPid.trans here.1, trivial⟩ ids
  | lentLeft rotated =>
    refine unlinked rfl ⟨rotated.leftIds.2.1.trans here.1, ?_, trivial⟩ (rotated.rightIds.1.trans ids)
    exact rotated.rightIds.2.1.trans (leftPid.trans (here.2.1.trans rotated.leftIds.1.symm))
  | lentRight rotated =>
    refine unlinked rfl ⟨rotated.leftIds.2.1.trans (leftPid.trans here.1), ?_, trivial⟩ rotated.rightIds.1
    exact rotated.rightIds.2.1.trans (here.2.1.trans (rotated.leftIds.1.trans ids).symm)
  | mergedLeft joined =>
    exact leftLinked_relink before (joined.ids.2.1.trans here.1) after
      (rightLinked_append.mp right).2.1 distinct named
  | mergedRight joined =>
    exact leftLinked_relink before (joined.ids.2.1.trans (leftPid.trans here.1)) after
      (rightLinked_append.mp right).2.1 distinct named

end Datashil
