import Datashil.Library.PartitionPoint
import Mathlib.Data.List.Nodup
import Mathlib.Order.Lattice
import Mathlib.Tactic.Common

/-! Alternating sequences `child, key, child, ..., key, child` and the editing of
one at a focused child. The children may be anything, in particular rows again:
a multiway search tree is a row of rows. -/

namespace Datashil.Library

structure Row (κ : Type u) (α : Type v) where
  head : α
  rest : List (κ × α)

namespace Row
variable {κ : Type u} {α : Type v} {β : Type w}

def keys (row : Row κ α) : List κ := row.rest.map Prod.fst

def children (row : Row κ α) : List α := row.head :: row.rest.map Prod.snd

@[simp] theorem length_keys (row : Row κ α) : row.keys.length = row.rest.length := by simp [keys]

@[simp] theorem length_children (row : Row κ α) : row.children.length = row.rest.length + 1 := by
  simp [children]

@[simp] theorem keys_mk (head : α) (rest : List (κ × α)) : (Row.mk head rest).keys = rest.map Prod.fst := rfl

@[simp] theorem children_mk (head : α) (rest : List (κ × α)) :
    (Row.mk head rest).children = head :: rest.map Prod.snd := rfl

theorem ext_keys_children {first second : Row κ α} (keys : first.keys = second.keys)
    (children : first.children = second.children) : first = second := by
  obtain ⟨head, rest⟩ := first
  obtain ⟨other, others⟩ := second
  simp only [children_mk, List.cons.injEq, keys_mk] at keys children
  obtain ⟨rfl, values⟩ := children
  have unzipped : rest.unzip = others.unzip := by rw [List.unzip_eq_map, List.unzip_eq_map, keys, values]
  rw [← List.zip_unzip rest, unzipped, List.zip_unzip]

def join (first : Row κ α) (key : κ) (second : Row κ α) : Row κ α :=
  ⟨first.head, first.rest ++ (key, second.head) :: second.rest⟩

@[simp] theorem keys_join (first : Row κ α) (key : κ) (second : Row κ α) :
    (first.join key second).keys = first.keys ++ key :: second.keys := by simp [join, keys]

@[simp] theorem children_join (first : Row κ α) (key : κ) (second : Row κ α) :
    (first.join key second).children = first.children ++ second.children := by simp [join, children]

@[simp] theorem length_rest_join (first : Row κ α) (key : κ) (second : Row κ α) :
    (first.join key second).rest.length = first.rest.length + second.rest.length + 1 := by
  simp [join]; omega

theorem exists_join (row : Row κ α) (n : Nat) (inside : n < row.rest.length) :
    ∃ (first : Row κ α) (key : κ) (second : Row κ α), row = first.join key second ∧ first.rest.length = n ∧
      second.rest.length = row.rest.length - n - 1 := by
  refine ⟨⟨row.head, row.rest.take n⟩, row.rest[n].1, ⟨row.rest[n].2, row.rest.drop (n + 1)⟩, ?_, ?_, ?_⟩
  · have cut := List.take_append_drop n row.rest
    rw [List.drop_eq_getElem_cons inside] at cut
    obtain ⟨head, rest⟩ := row
    simp only [join, Row.mk.injEq, true_and]
    exact cut.symm
  · simp only [List.length_take]; omega
  · simp only [List.length_drop]; omega

/-! ### Flattening -/

/-- Read a row from left to right, with `f` for the children and `s` for the keys. The keys, the
ids and the leaves of a tree are all read off in this way, and share what is proved of it. -/
def trail (f : α → List β) (s : κ → List β) (row : Row κ α) : List β :=
  f row.head ++ row.rest.flatMap fun entry => s entry.1 ++ f entry.2

variable (f : α → List β) (s : κ → List β)

@[simp] theorem trail_join (first : Row κ α) (key : κ) (second : Row κ α) :
    (first.join key second).trail f s = first.trail f s ++ (s key ++ second.trail f s) := by
  simp [trail, join, List.append_assoc]

theorem trail_congr {g : α → List β} {row : Row κ α} (same : ∀ child ∈ row.children, f child = g child) :
    row.trail f s = row.trail g s := by
  obtain ⟨head, rest⟩ := row
  simp only [children_mk, List.mem_cons, forall_eq_or_imp, List.mem_map, Prod.exists] at same
  simp only [trail, same.1, List.append_cancel_left_eq]
  apply List.flatMap_congr
  rintro ⟨key, child⟩ member
  rw [same.2 child ⟨key, child, member, rfl⟩]

theorem trail_sublist {g : α → List β} {row : Row κ α}
    (inside : ∀ child ∈ row.children, (f child).Sublist (g child)) :
    (row.trail f s).Sublist (row.trail g s) := by
  obtain ⟨head, rest⟩ := row
  simp only [children_mk, List.mem_cons, forall_eq_or_imp, List.mem_map, Prod.exists] at inside
  simp only [trail]
  refine inside.1.append ?_
  obtain ⟨-, siblings⟩ := inside
  induction rest with
  | nil => exact .slnil
  | cons entry rest ih =>
    simp only [List.flatMap_cons]
    refine ((List.Sublist.refl _).append (siblings _ ⟨entry.1, entry.2, .head _, rfl⟩)).append (ih ?_)
    rintro child ⟨key, other, member, rfl⟩
    exact siblings _ ⟨key, other, .tail _ member, rfl⟩

theorem length_trail_le {bound : Nat} {row : Row κ α}
    (each : ∀ child ∈ row.children, (f child).length ≤ bound) :
    (row.trail f fun _ => []).length ≤ (row.rest.length + 1) * bound := by
  obtain ⟨head, rest⟩ := row
  induction rest generalizing head with
  | nil => simpa [trail] using each head (by simp)
  | cons entry rest ih =>
    have first := each head (by simp)
    have others := ih entry.2 fun child member =>
      each child (by simp only [children_mk, List.map_cons] at member ⊢; exact .tail _ member)
    simp only [trail, List.length_append, List.flatMap_cons, List.nil_append, List.length_cons,
      Nat.add_mul, Nat.one_mul] at others ⊢
    omega

theorem le_length_trail {bound : Nat} {row : Row κ α}
    (each : ∀ child ∈ row.children, bound ≤ (f child).length) :
    (row.rest.length + 1) * bound ≤ (row.trail f fun _ => []).length := by
  obtain ⟨head, rest⟩ := row
  induction rest generalizing head with
  | nil => simpa [trail] using each head (by simp)
  | cons entry rest ih =>
    have first := each head (by simp)
    have others := ih entry.2 fun child member =>
      each child (by simp only [children_mk, List.map_cons] at member ⊢; exact .tail _ member)
    simp only [trail, List.length_append, List.flatMap_cons, List.nil_append, List.length_cons,
      Nat.add_mul, Nat.one_mul] at others ⊢
    omega

theorem mem_trail {row : Row κ α} {item : β} :
    item ∈ row.trail f s ↔ (∃ child ∈ row.children, item ∈ f child) ∨ ∃ key ∈ row.keys, item ∈ s key := by
  obtain ⟨head, rest⟩ := row
  simp only [trail, children_mk, keys_mk, List.mem_append, List.mem_flatMap, Prod.exists, List.mem_cons,
    List.mem_map, exists_eq_or_imp]
  constructor
  · rintro (found | ⟨key, child, member, found | found⟩)
    · exact .inl (.inl found)
    · exact .inr ⟨key, ⟨key, child, member, rfl⟩, found⟩
    · exact .inl (.inr ⟨child, ⟨key, child, member, rfl⟩, found⟩)
  · rintro ((found | ⟨_, ⟨key, child, member, rfl⟩, found⟩) | ⟨_, ⟨key, child, member, rfl⟩, found⟩)
    · exact .inl found
    · exact .inr ⟨key, child, member, .inr found⟩
    · exact .inr ⟨key, child, member, .inl found⟩

/-! ### Focusing -/

/-- What lies left of a focus is kept nearest first, each child with the key
that follows it; what lies right of it is a plain continuation. -/
def close : List (α × κ) → α → List (κ × α) → Row κ α
  | [], child, right => ⟨child, right⟩
  | (sibling, key) :: left, child, right => close left sibling ((key, child) :: right)

@[simp] theorem close_nil (child : α) (right : List (κ × α)) : close [] child right = ⟨child, right⟩ := rfl

theorem close_cons (sibling : α) (key : κ) (left : List (α × κ)) (child : α) (right : List (κ × α)) :
    close ((sibling, key) :: left) child right = close left sibling ((key, child) :: right) := rfl

@[simp] theorem keys_close (left : List (α × κ)) (child : α) (right : List (κ × α)) :
    (close left child right).keys = (left.map Prod.snd).reverse ++ right.map Prod.fst := by
  induction left generalizing child right with
  | nil => rfl
  | cons entry left ih => simp [close, ih]

@[simp] theorem children_close (left : List (α × κ)) (child : α) (right : List (κ × α)) :
    (close left child right).children = (left.map Prod.fst).reverse ++ child :: right.map Prod.snd := by
  induction left generalizing child right with
  | nil => rfl
  | cons entry left ih => simp [close, ih]

@[simp] theorem length_rest_close (left : List (α × κ)) (child : α) (right : List (κ × α)) :
    (close left child right).rest.length = left.length + right.length := by
  rw [← length_keys, keys_close]; simp

def before (f : α → List β) (s : κ → List β) : List (α × κ) → List β
  | [] => []
  | (child, key) :: left => before f s left ++ (f child ++ s key)

def after (f : α → List β) (s : κ → List β) (right : List (κ × α)) : List β :=
  right.flatMap fun entry => s entry.1 ++ f entry.2

@[simp] theorem before_nil : before f s [] = [] := rfl

@[simp] theorem before_cons (child : α) (key : κ) (left : List (α × κ)) :
    before f s ((child, key) :: left) = before f s left ++ (f child ++ s key) := rfl

@[simp] theorem after_nil : after f s [] = [] := rfl

@[simp] theorem after_cons (key : κ) (child : α) (right : List (κ × α)) :
    after f s ((key, child) :: right) = s key ++ (f child ++ after f s right) := by simp [after]

@[simp] theorem trail_mk (head : α) (rest : List (κ × α)) :
    (Row.mk head rest).trail f s = f head ++ after f s rest := rfl

@[simp] theorem trail_close (left : List (α × κ)) (child : α) (right : List (κ × α)) :
    (close left child right).trail f s = before f s left ++ (f child ++ after f s right) := by
  induction left generalizing child right with
  | nil => rfl
  | cons entry left ih =>
    obtain ⟨sibling, key⟩ := entry
    simp only [close_cons, ih, after_cons, before_cons, List.append_assoc]

theorem mem_before {left : List (α × κ)} {item : β} :
    item ∈ before f s left ↔ ∃ entry ∈ left, item ∈ f entry.1 ∨ item ∈ s entry.2 := by
  induction left with
  | nil => simp
  | cons entry left ih =>
    obtain ⟨child, key⟩ := entry
    simp only [before_cons, List.mem_append, ih, List.mem_cons, exists_eq_or_imp]
    exact or_comm

theorem mem_after {right : List (κ × α)} {item : β} :
    item ∈ after f s right ↔ ∃ entry ∈ right, item ∈ s entry.1 ∨ item ∈ f entry.2 := by
  simp only [after, List.mem_flatMap, List.mem_append]

theorem exists_close (row : Row κ α) {child : α} (member : child ∈ row.children) :
    ∃ left right, row = close left child right := by
  suffices general : ∀ (rest : List (κ × α)) (left : List (α × κ)) (head : α),
    child ∈ head :: rest.map Prod.snd →
      ∃ left' right, close left head rest = close left' child right by
    obtain ⟨left, right, same⟩ := general row.rest [] row.head member
    exact ⟨left, right, same⟩
  intro rest
  induction rest with
  | nil =>
    intro left head member
    obtain rfl : child = head := by simpa using member
    exact ⟨left, [], rfl⟩
  | cons entry rest ih =>
    intro left head member
    rcases List.mem_cons.mp member with rfl | member
    · exact ⟨left, entry :: rest, rfl⟩
    · obtain ⟨left', right, same⟩ := ih ((head, entry.1) :: left) entry.2 (by simpa using member)
      exact ⟨left', right, same⟩

/-! ### Routing -/

def shift : Nat → List (α × κ) → α → List (κ × α) → List (α × κ) × α × List (κ × α)
  | 0, left, child, right => (left, child, right)
  | _ + 1, left, child, [] => (left, child, [])
  | n + 1, left, child, (key, sibling) :: right => shift n ((child, key) :: left) sibling right

theorem shift_close (left kept : List (α × κ)) (child : α) (right : List (κ × α)) :
    ∃ head rest, close left child right = ⟨head, rest⟩ ∧ ∀ n,
      shift (left.length + n) kept head rest = shift n (left ++ kept) child right := by
  induction left generalizing child right with
  | nil => exact ⟨child, right, rfl, fun n => by rw [List.length_nil, Nat.zero_add, List.nil_append]⟩
  | cons entry left ih =>
    obtain ⟨sibling, next⟩ := entry
    obtain ⟨head, rest, same, shifted⟩ := ih sibling ((next, child) :: right)
    refine ⟨head, rest, same, fun n => ?_⟩
    rw [List.length_cons, Nat.add_assoc, Nat.add_comm 1, shifted]
    rfl

theorem exists_shift (n : Nat) (left : List (α × κ)) (child : α) (right : List (κ × α))
    (inside : n ≤ right.length) :
    ∃ left' child' right', close left child right = close left' child' right' ∧
      left'.length = left.length + n := by
  induction n generalizing left child right with
  | zero => exact ⟨left, child, right, rfl, rfl⟩
  | succ n ih =>
    cases right with
    | nil => cases inside
    | cons entry right =>
      obtain ⟨left', child', right', same, length⟩ :=
        ih ((child, entry.1) :: left) entry.2 right (Nat.le_of_succ_le_succ inside)
      refine ⟨left', child', right', same, ?_⟩
      rw [length, List.length_cons]
      omega

section Routing
variable [LinearOrder κ]

/-- Where `std::upper_bound` ends among some keys, be they in order or not. -/
def upperIndex (keys : List κ) (key : κ) : Nat :=
  partitionPoint (fun i => keys[i]?.any (· ≤ key)) keys.length 0 keys.length

theorem upperIndex_le (keys : List κ) (key : κ) : upperIndex keys key ≤ keys.length := by
  have bound := partitionPoint_le (fun i => keys[i]?.any (· ≤ key)) keys.length 0 keys.length
  rwa [Nat.zero_add] at bound

theorem upperIndex_append {first second : List κ} {key : κ} (low : ∀ other ∈ first, other ≤ key)
    (high : ∀ other ∈ second, key < other) :
    upperIndex (first ++ second) key = first.length := by
  refine partitionPoint_eq _ _ _ _ (Nat.le_refl _) (Nat.zero_le _) (by simp) ?_ ?_
  · intro i _ inside
    rw [List.getElem?_append_left inside, List.getElem?_eq_getElem inside, Option.any_some, decide_eq_true_eq]
    exact low _ (List.getElem_mem inside)
  · intro i beyond inside
    rw [Nat.zero_add, List.length_append] at inside
    rw [List.getElem?_append_right beyond, List.getElem?_eq_getElem (by omega), Option.any_some,
      decide_eq_false_iff_not]
    exact not_le_of_gt (high _ (List.getElem_mem _))

def Found (left : List (α × κ)) (key : κ) (right : List (κ × α)) : Prop :=
  upperIndex ((left.map Prod.snd).reverse ++ right.map Prod.fst) key = left.length

def focus (key : κ) (row : Row κ α) : List (α × κ) × α × List (κ × α) :=
  shift (upperIndex row.keys key) [] row.head row.rest

theorem exists_found (key : κ) (row : Row κ α) :
    ∃ left child right, row = close left child right ∧ Found left key right := by
  have inside := upperIndex_le row.keys key
  rw [length_keys] at inside
  obtain ⟨left, child, right, same, length⟩ :=
    exists_shift (upperIndex row.keys key) [] row.head row.rest inside
  have same : row = close left child right := same
  refine ⟨left, child, right, same, ?_⟩
  rw [Found, ← keys_close left child right, ← same, length, List.length_nil, Nat.zero_add]

theorem focus_close {key : κ} {left : List (α × κ)} (child : α) {right : List (κ × α)}
    (found : Found left key right) :
    (close left child right).focus key = (left, child, right) := by
  obtain ⟨head, rest, same, shifted⟩ := shift_close left [] child right
  have here := shifted 0
  rw [focus, keys_close, show upperIndex _ key = left.length from found, same]
  rw [Nat.add_zero, List.append_nil] at here
  rw [here, shift]

theorem Found.unique {key : κ} {left left' : List (α × κ)} {child child' : α} {right right' : List (κ × α)}
    (found : Found left key right) (found' : Found left' key right')
    (same : close left child right = close left' child' right') :
    left = left' ∧ child = child' ∧ right = right' := by
  have focused := focus_close child found
  rw [same, focus_close child' found', Prod.mk.injEq, Prod.mk.injEq] at focused
  exact ⟨focused.1.symm, focused.2.1.symm, focused.2.2.symm⟩

theorem Found.map {γ : Type w} {g : α → γ} {left : List (α × κ)} {key : κ} {right : List (κ × α)}
    (found : Found left key right) :
    Found (left.map fun entry => (g entry.1, entry.2)) key (right.map fun entry => (entry.1, g entry.2)) := by
  simpa [Found, Function.comp_def] using found

/-- The keys on the left of a focus are not above a key, those on the right are. -/
def Bracket (left : List (α × κ)) (key : κ) (right : List (κ × α)) : Prop :=
  (∀ entry ∈ left, entry.2 ≤ key) ∧ ∀ entry ∈ right, key < entry.1

theorem Bracket.found {key : κ} {left : List (α × κ)} {right : List (κ × α)}
    (bracket : Bracket left key right) : Found left key right := by
  have low : ∀ other ∈ (left.map Prod.snd).reverse, other ≤ key := by
    intro other member
    obtain ⟨entry, inside, rfl⟩ := List.mem_map.mp (List.mem_reverse.mp member)
    exact bracket.1 entry inside
  have high : ∀ other ∈ right.map Prod.fst, key < other := by
    intro other member
    obtain ⟨entry, inside, rfl⟩ := List.mem_map.mp member
    exact bracket.2 entry inside
  have index := upperIndex_append low high
  rwa [List.length_reverse, List.length_map] at index

/-- Among keys in order, the search ends between those not above the key and those above it. -/
theorem exists_bracket (key : κ) (row : Row κ α) (sorted : row.keys.Pairwise (· ≤ ·)) :
    ∃ left child right, row = close left child right ∧ Bracket left key right := by
  suffices general : ∀ (right : List (κ × α)) (left : List (α × κ)) (child : α),
    (∀ entry ∈ left, entry.2 ≤ key) →
      (right.map Prod.fst).Pairwise (· ≤ ·) →
        ∃ left' child' right', close left child right = close left' child' right' ∧
          Bracket left' key right' from
    general row.rest [] row.head nofun sorted
  intro right
  induction right with
  | nil => exact fun left child low _ => ⟨left, child, [], rfl, low, nofun⟩
  | cons entry right ih =>
    intro left child low sorted
    obtain ⟨next, sibling⟩ := entry
    rw [List.map_cons, List.pairwise_cons] at sorted
    by_cases inside : next ≤ key
    · exact ih ((child, next) :: left) sibling (List.forall_mem_cons.mpr ⟨inside, low⟩) sorted.2
    · refine ⟨left, child, (next, sibling) :: right, rfl, low,
        List.forall_mem_cons.mpr ⟨lt_of_not_ge inside, ?_⟩⟩
      intro entry member
      exact lt_of_lt_of_le (lt_of_not_ge inside) (sorted.1 entry.1 (List.mem_map.mpr ⟨entry, member, rfl⟩))

theorem Found.bracket {key : κ} {left : List (α × κ)} {child : α} {right : List (κ × α)}
    (found : Found left key right)
    (sorted : (close left child right).keys.Pairwise (· ≤ ·)) : Bracket left key right := by
  obtain ⟨left', child', right', same, bracket⟩ := (close left child right).exists_bracket key sorted
  obtain ⟨rfl, -, rfl⟩ := found.unique bracket.found same
  exact bracket

end Routing

theorem join_close_left (left : List (α × κ)) (child : α) (right : List (κ × α)) (key : κ)
    (second : Row κ α) :
    (close left child right).join key second =
      close left child (right ++ (key, second.head) :: second.rest) := by
  induction left generalizing child right with
  | nil => rfl
  | cons entry left ih =>
    obtain ⟨sibling, next⟩ := entry
    rw [close_cons, ih, close_cons]
    rfl

theorem join_close_right (first : Row κ α) (key : κ) :
    ∃ before, (∀ entry ∈ before, entry.2 = key ∨ entry.2 ∈ first.keys) ∧
      ∀ left child right, first.join key (close left child right) = close (left ++ before) child right := by
  obtain ⟨head, rest⟩ := first
  suffices general : ∀ (rest : List (κ × α)) (head : α) (kept : List (α × κ)),
      ∃ before, (∀ entry ∈ before, entry.2 = key ∨ entry.2 ∈ rest.map Prod.fst ∨ entry ∈ kept) ∧
        ∀ child right, close kept head (rest ++ (key, child) :: right) = close before child right by
    obtain ⟨before, keys, same⟩ := general rest head []
    refine ⟨before, fun entry member => by simpa using keys entry member, ?_⟩
    intro left
    induction left with
    | nil => exact same
    | cons entry left ih =>
      intro child right
      obtain ⟨sibling, next⟩ := entry
      rw [close_cons, ih]
      rfl
  intro rest
  induction rest with
  | nil =>
    intro head kept
    refine ⟨(head, key) :: kept, ?_, fun child right => rfl⟩
    intro entry member
    rcases List.mem_cons.mp member with rfl | member
    · exact .inl rfl
    · exact .inr (.inr member)
  | cons entry rest ih =>
    intro head kept
    obtain ⟨next, sibling⟩ := entry
    obtain ⟨before, keys, same⟩ := ih sibling ((head, next) :: kept)
    refine ⟨before, ?_, fun child right => same child right⟩
    intro entry member
    rcases keys entry member with found | found | found
    · exact .inl found
    · exact .inr (.inl (.tail _ found))
    · rcases List.mem_cons.mp found with rfl | found
      · exact .inr (.inl (.head _))
      · exact .inr (.inr found)

/-! ### Mapping children -/

def map {γ : Type w} (g : α → γ) (row : Row κ α) : Row κ γ :=
  ⟨g row.head, row.rest.map fun entry => (entry.1, g entry.2)⟩

/-- What tells the children apart tells the rows apart. -/
theorem map_injOn {γ : Type w} {g : α → γ} {row row' : Row κ α} (same : row.map g = row'.map g)
    (apart : ∀ child ∈ row.children, ∀ child' ∈ row'.children, g child = g child' → child = child') :
    row = row' := by
  obtain ⟨head, rest⟩ := row
  obtain ⟨head', rest'⟩ := row'
  obtain rfl : head = head' := apart head (.head _) head' (.head _) (congrArg Row.head same)
  have below : ∀ entry ∈ rest, ∀ entry' ∈ rest', g entry.2 = g entry'.2 → entry.2 = entry'.2 :=
    fun entry member entry' member' =>
    apart entry.2 (.tail _ (List.mem_map_of_mem member)) entry'.2 (.tail _ (List.mem_map_of_mem member'))
  have rests : (rest.map fun entry => (entry.1, g entry.2)) = rest'.map fun entry =>
      (entry.1, g entry.2) :=
    congrArg Row.rest same
  have length := congrArg List.length rests
  rw [List.length_map, List.length_map] at length
  refine congrArg (Row.mk head) (List.ext_getElem length fun i inside inside' => ?_)
  have here := List.getElem_of_eq rests (by rwa [List.length_map])
  rw [List.getElem_map, List.getElem_map, Prod.mk.injEq] at here
  exact Prod.ext here.1 (below _ (List.getElem_mem inside) _ (List.getElem_mem inside') here.2)

@[simp] theorem keys_map {γ : Type w} (g : α → γ) (row : Row κ α) : (row.map g).keys = row.keys := by
  simp [map, keys]

@[simp] theorem children_map {γ : Type w} (g : α → γ) (row : Row κ α) :
    (row.map g).children = row.children.map g := by simp [map, children]

@[simp] theorem length_rest_map {γ : Type w} (g : α → γ) (row : Row κ α) :
    (row.map g).rest.length = row.rest.length := by simp [map]

theorem trail_map {γ : Type w} {δ : Type x} (g : α → γ) (f : γ → List δ) (s : κ → List δ) (row : Row κ α) :
    (row.map g).trail f s = row.trail (fun child => f (g child)) s := by
  simp [map, trail, List.flatMap_map]

theorem map_id {row : Row κ α} {g : α → α} (same : ∀ child ∈ row.children, g child = child) :
    row.map g = row := by
  apply ext_keys_children (by simp)
  rw [children_map]
  conv_rhs => rw [← List.map_id row.children]
  exact List.map_congr_left same

theorem exists_map_children {γ : Type w} {g : α → γ} {row : Row κ γ} {other : Row κ α}
    (same : row.children = other.children.map g) :
    ∃ row' : Row κ α, row'.map g = row ∧ row'.children = other.children := by
  obtain ⟨head, rest⟩ := row
  obtain ⟨head', rest'⟩ := other
  simp only [children_mk, List.map_cons, List.cons.injEq, List.map_map] at same
  obtain ⟨rfl, below⟩ := same
  have length := congrArg List.length below
  rw [List.length_map, List.length_map] at length
  have keys : ((rest.map Prod.fst).zip (rest'.map Prod.snd)).map Prod.fst = rest.map Prod.fst :=
    List.map_fst_zip (by simp [length])
  have children : ((rest.map Prod.fst).zip (rest'.map Prod.snd)).map Prod.snd = rest'.map Prod.snd :=
    List.map_snd_zip (by simp [length])
  refine ⟨⟨head', (rest.map Prod.fst).zip (rest'.map Prod.snd)⟩, ext_keys_children ?_ ?_, ?_⟩
  · rw [keys_map, keys_mk, keys_mk, keys]
  · rw [children_map, children_mk, children, children_mk, below, List.map_cons, List.map_map]
  · rw [children_mk, children, children_mk]

@[simp] theorem map_join {γ : Type w} (g : α → γ) (first : Row κ α) (key : κ) (second : Row κ α) :
    (first.join key second).map g = (first.map g).join key (second.map g) := by
  simp [map, join]

@[simp] theorem map_close {γ : Type w} (g : α → γ) (left : List (α × κ)) (child : α) (right : List (κ × α)) :
    (close left child right).map g =
      close (left.map fun entry => (g entry.1, entry.2)) (g child)
        (right.map fun entry => (entry.1, g entry.2)) := by
  induction left generalizing child right with
  | nil => rfl
  | cons entry left ih =>
    obtain ⟨sibling, key⟩ := entry
    simp only [close_cons, ih, List.map_cons]

theorem join_assoc (first : Row κ α) (key : κ) (second : Row κ α) (next : κ) (third : Row κ α) :
    (first.join key second).join next third = first.join key (second.join next third) := by
  simp [join]

theorem join_inj {first second first' second' : Row κ α} {key key' : κ}
    (same : first.join key second = first'.join key' second')
    (count : first.rest.length = first'.rest.length) :
    first = first' ∧ key = key' ∧ second = second' := by
  obtain ⟨head, rest⟩ := first
  obtain ⟨head', rest'⟩ := first'
  obtain ⟨next, others⟩ := second
  obtain ⟨next', others'⟩ := second'
  simp only [join, Row.mk.injEq] at same
  obtain ⟨rfl, entries⟩ := same
  obtain ⟨rfl, tails⟩ := List.append_inj entries count
  cases tails
  exact ⟨rfl, rfl, rfl⟩

theorem exists_join_of_map {γ : Type w} {g : α → γ} {row : Row κ α} {first second : Row κ γ} {key : κ}
    (same : row.map g = first.join key second) :
    ∃ before after : Row κ α, row = before.join key after ∧ before.map g = first ∧ after.map g = second := by
  have inside : first.rest.length < row.rest.length := by
    have count := congrArg (fun row => row.rest.length) same
    simp only [length_rest_map, length_rest_join] at count
    omega
  obtain ⟨before, middle, after, rfl, count, -⟩ := row.exists_join first.rest.length inside
  rw [map_join] at same
  obtain ⟨rfl, rfl, rfl⟩ := join_inj same (by rw [length_rest_map, count])
  exact ⟨before, after, rfl, rfl, rfl⟩

theorem mem_children_close {left : List (α × κ)} {child other : α} {right : List (κ × α)} :
    other ∈ (close left child right).children ↔ (∃ key, (other, key) ∈ left) ∨ other = child ∨ ∃ key,
      (key, other) ∈ right := by
  simp [children_close]

theorem mem_children_join {first second : Row κ α} {key : κ} {other : α} :
    other ∈ (first.join key second).children ↔ other ∈ first.children ∨ other ∈ second.children := by
  rw [children_join, List.mem_append]

theorem locate_join [LinearOrder κ] {first second : Row κ α} {middle key : κ} {left : List (α × κ)}
    {child : α}
    {right : List (κ × α)} (joined : close left child right = first.join middle second)
    (bracket : Bracket left key right)
    (sorted : (first.join middle second).keys.Pairwise (· ≤ ·)) :
    if middle ≤ key then ∃ left' right', second = close left' child right' ∧ Bracket left' key right'
    else ∃ left' right', first = close left' child right' ∧ Bracket left' key right' := by
  rw [keys_join, List.pairwise_append, List.pairwise_cons] at sorted
  obtain ⟨lows, ⟨above, highs⟩, across⟩ := sorted
  split
  next inside =>
    obtain ⟨left', child', right', rfl, bracket'⟩ := second.exists_bracket key highs
    obtain ⟨before, keys, same⟩ := join_close_right first middle
    rw [same] at joined
    have wider : Bracket (left' ++ before) key right' := by
      refine ⟨?_, bracket'.2⟩
      intro entry member
      rcases List.mem_append.mp member with member | member
      · exact bracket'.1 entry member
      · rcases keys entry member with equal | found
        · rw [equal]
          exact inside
        · exact le_trans (across _ found middle (.head _)) inside
    obtain ⟨-, rfl, -⟩ := bracket.found.unique wider.found joined
    exact ⟨left', right', rfl, bracket'⟩
  next outside =>
    obtain ⟨left', child', right', rfl, bracket'⟩ := first.exists_bracket key lows
    rw [join_close_left] at joined
    have wider : Bracket left' key (right' ++ (middle, second.head) :: second.rest) := by
      refine ⟨bracket'.1, ?_⟩
      intro entry member
      rcases List.mem_append.mp member with member | member
      · exact bracket'.2 entry member
      · rcases List.mem_cons.mp member with rfl | member
        · exact lt_of_not_ge outside
        · exact lt_of_lt_of_le (lt_of_not_ge outside) (above _ (List.mem_map.mpr ⟨entry, member, rfl⟩))
    obtain ⟨-, rfl, -⟩ := bracket.found.unique wider.found joined
    exact ⟨left', right', rfl, bracket'⟩

/-! ### Chains

Every child between the two keys next to it, the first and the last between one
of them and a bound of the whole row. -/

section Chain
variable (P : κ → α → κ → Prop)

def chainFrom : κ → α → List (κ × α) → κ → Prop
  | low, child, [], high => P low child high
  | low, child, (key, next) :: rest, high => P low child key ∧ chainFrom key next rest high

def Chain (low : κ) (row : Row κ α) (high : κ) : Prop := chainFrom P low row.head row.rest high

def lowBound (low : κ) : List (α × κ) → κ
  | [] => low
  | (_, key) :: _ => key

def highBound : List (κ × α) → κ → κ
  | [], high => high
  | (key, _) :: _, _ => key

def leftChain (low : κ) : List (α × κ) → Prop
  | [] => True
  | (child, key) :: left => leftChain low left ∧ P (lowBound low left) child key

def rightChain : List (κ × α) → κ → Prop
  | [], _ => True
  | (key, child) :: right, high => P key child (highBound right high) ∧ rightChain right high

variable {P}

theorem chainFrom_iff {low high : κ} {child : α} {rest : List (κ × α)} :
    chainFrom P low child rest high ↔ P low child (highBound rest high) ∧ rightChain P rest high := by
  induction rest generalizing low child with
  | nil => simp [chainFrom, highBound, rightChain]
  | cons entry rest ih => rw [chainFrom, ih]; rfl

/-- A chain at a focus: the child lies between the keys around it. -/
theorem chain_close {low high : κ} {left : List (α × κ)} {child : α} {right : List (κ × α)} :
    (close left child right).Chain P low high ↔
      leftChain P low left ∧ P (lowBound low left) child (highBound right high) ∧
        rightChain P right high := by
  induction left generalizing child right with
  | nil =>
    rw [close_nil, Chain, chainFrom_iff, leftChain, lowBound, true_and]
  | cons entry left ih =>
    obtain ⟨sibling, key⟩ := entry
    rw [close_cons, ih, leftChain, rightChain]
    simp only [highBound, lowBound]
    tauto

theorem chain_join {low high : κ} {first second : Row κ α} {key : κ} :
    (first.join key second).Chain P low high ↔ first.Chain P low key ∧ second.Chain P key high := by
  obtain ⟨head, rest⟩ := first
  simp only [Chain, join]
  induction rest generalizing low head with
  | nil => rfl
  | cons entry rest ih => rw [List.cons_append, chainFrom, chainFrom, ih, and_assoc]

/-- A child of a chain lies between bounds inside those of the row. -/
theorem chain_mem {r : κ → κ → Prop} (refl : ∀ a, r a a) (trans : ∀ a b c, r a b → r b c → r a c)
    (bounds : ∀ l child h, P l child h → r l h) {low high : κ} {row : Row κ α}
    (chain : row.Chain P low high) {child : α}
    (member : child ∈ row.children) : ∃ l h, r low l ∧ r h high ∧ P l child h := by
  obtain ⟨head, rest⟩ := row
  simp only [Chain, children_mk] at chain member
  induction rest generalizing low head with
  | nil =>
    obtain rfl : child = head := by simpa using member
    exact ⟨low, high, refl low, refl high, chain⟩
  | cons entry rest ih =>
    have whole : r entry.1 high := by
      clear ih member
      obtain ⟨-, chain⟩ := chain
      obtain ⟨key, next⟩ := entry
      induction rest generalizing key next with
      | nil => exact bounds _ _ _ chain
      | cons entry rest ih => exact trans _ _ _ (bounds _ _ _ chain.1) (ih _ _ chain.2)
    rcases List.mem_cons.mp member with rfl | member
    · exact ⟨low, entry.1, refl low, whole, chain.1⟩
    · obtain ⟨l, h, above, below, found⟩ := ih _ chain.2 member
      exact ⟨l, h, trans _ _ _ (bounds _ _ _ chain.1) above, below, found⟩

theorem chain_imp {Q : κ → α → κ → Prop} {low high : κ} {row : Row κ α} (chain : row.Chain P low high)
    (weaker : ∀ l child h, child ∈ row.children → P l child h → Q l child h) : row.Chain Q low high := by
  obtain ⟨head, rest⟩ := row
  simp only [Chain, children_mk] at chain weaker ⊢
  induction rest generalizing low head with
  | nil => exact weaker _ _ _ (.head _) chain
  | cons entry rest ih =>
    exact ⟨weaker _ _ _ (.head _) chain.1, ih _ chain.2 fun l child h member =>
      weaker l child h (.tail _ member)⟩

theorem leftChain_imp {Q : κ → α → κ → Prop} {low : κ} {left : List (α × κ)} (chain : leftChain P low left)
    (weaker : ∀ l child key, (child, key) ∈ left → P l child key → Q l child key) : leftChain Q low left := by
  induction left with
  | nil => trivial
  | cons entry left ih =>
    exact ⟨ih chain.1 fun l child key member => weaker l child key (.tail _ member),
      weaker _ _ _ (.head _) chain.2⟩

theorem rightChain_imp {Q : κ → α → κ → Prop} {high : κ} {right : List (κ × α)}
    (chain : rightChain P right high)
    (weaker : ∀ key child h, (key, child) ∈ right → P key child h → Q key child h) :
    rightChain Q right high := by
  induction right with
  | nil => trivial
  | cons entry right ih =>
    exact ⟨weaker _ _ _ (.head _) chain.1, ih chain.2 fun key child h member =>
      weaker key child h (.tail _ member)⟩

theorem chain_map {γ : Type w} {g : γ → α} {low high : κ} {row : Row κ γ} :
    (row.map g).Chain P low high ↔ row.Chain (fun l child h => P l (g child) h) low high := by
  obtain ⟨head, rest⟩ := row
  simp only [Chain, map]
  induction rest generalizing low head with
  | nil => rfl
  | cons entry rest ih => rw [List.map_cons, chainFrom, chainFrom, ih]

/-- If neighbouring bounds are related, so are all keys of the row, in order. -/
theorem chain_keys {r : κ → κ → Prop} (trans : ∀ a b c, r a b → r b c → r a c)
    (bounds : ∀ l child h, P l child h → r l h)
    {low high : κ} {row : Row κ α} (chain : row.Chain P low high) :
    (low :: row.keys ++ [high]).Pairwise r := by
  obtain ⟨head, rest⟩ := row
  simp only [Chain, keys_mk] at chain ⊢
  induction rest generalizing low head with
  | nil => simpa [chainFrom] using bounds _ _ _ chain
  | cons entry rest ih =>
    have first := bounds _ _ _ chain.1
    have rest := ih _ chain.2
    simp only [List.map_cons, List.cons_append, List.pairwise_cons] at rest ⊢
    refine ⟨?_, rest⟩
    intro other member
    rcases List.mem_cons.mp member with rfl | member
    · exact first
    · exact trans _ _ _ first (rest.1 other member)

/-- Ordered items between the bounds of each child are ordered along the whole row. -/
theorem chain_items {r : κ → κ → Prop} (trans : ∀ a b c, r a b → r b c → r a c) {items : α → List κ}
    (bounds : ∀ l child h, P l child h → r l h ∧ (items child).Pairwise r ∧ ∀ item ∈ items child,
      r l item ∧ r item h)
    {low high : κ} {row : Row κ α} (chain : row.Chain P low high) :
    r low high ∧ (row.trail items fun _ => []).Pairwise r ∧ ∀ item ∈ row.trail items fun _ => [],
      r low item ∧ r item high := by
  obtain ⟨head, rest⟩ := row
  simp only [Chain] at chain
  induction rest generalizing low head with
  | nil => simpa [trail] using bounds _ _ _ chain
  | cons entry rest ih =>
    obtain ⟨lowKey, headOrdered, headBounds⟩ := bounds _ _ _ chain.1
    obtain ⟨keyHigh, restOrdered, restBounds⟩ := ih _ chain.2
    have split : Row.trail items (fun _ => []) ⟨head, entry :: rest⟩ = items head ++
        Row.trail items (fun _ => []) ⟨entry.2, rest⟩ := by
      simp [trail]
    rw [split]
    refine ⟨trans _ _ _ lowKey keyHigh, List.pairwise_append.mpr ⟨headOrdered, restOrdered, ?_⟩, ?_⟩
    · exact fun first firstMem second secondMem =>
        trans _ _ _ (headBounds first firstMem).2 (restBounds second secondMem).1
    · intro item member
      rcases List.mem_append.mp member with inside | inside
      · exact ⟨(headBounds item inside).1, trans _ _ _ (headBounds item inside).2 keyHigh⟩
      · exact ⟨trans _ _ _ lowKey (restBounds item inside).1, (restBounds item inside).2⟩

end Chain

end Row
end Datashil.Library
