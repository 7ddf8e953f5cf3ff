import Datashil.BufferPool
import Mathlib.Data.List.Nodup

/-! The search for a frame to evict. Each entry of the queue takes at most two turns of the
loop: one to clear its reference bit, one to be taken. -/

namespace Datashil.BufferPool
variable {α : Type} {pool : BufferPool α}

@[simp] theorem setMeta_storage (index : Nat) (frameMeta : BufferFrameMeta) :
    (pool.setMeta index frameMeta).storage = pool.storage :=
  rfl
@[simp] theorem setMeta_frames (index : Nat) (frameMeta : BufferFrameMeta) :
    (pool.setMeta index frameMeta).frames = pool.frames :=
  rfl
@[simp] theorem setMeta_pageTable (index : Nat) (frameMeta : BufferFrameMeta) :
    (pool.setMeta index frameMeta).pageTable = pool.pageTable :=
  rfl
@[simp] theorem setMeta_freeFrames (index : Nat) (frameMeta : BufferFrameMeta) :
    (pool.setMeta index frameMeta).freeFrames = pool.freeFrames :=
  rfl
@[simp] theorem setMeta_unpinnedFrames (index : Nat) (frameMeta : BufferFrameMeta) :
    (pool.setMeta index frameMeta).unpinnedFrames = pool.unpinnedFrames := rfl

@[simp] theorem setMeta_same (index : Nat) (frameMeta : BufferFrameMeta) :
    (pool.setMeta index frameMeta).bufferPoolMeta index = frameMeta :=
  if_pos rfl

theorem setMeta_other {index other : Nat} (frameMeta : BufferFrameMeta) (away : other ≠ index) :
    (pool.setMeta index frameMeta).bufferPoolMeta other = pool.bufferPoolMeta other := if_neg away

structure Swept (pool pool' : BufferPool α) : Prop where
  storage : pool'.storage = pool.storage
  frames : pool'.frames = pool.frames
  pageTable : pool'.pageTable = pool.pageTable
  freeFrames : pool'.freeFrames = pool.freeFrames
  pageId : ∀ index, (pool'.bufferPoolMeta index).pageId = (pool.bufferPoolMeta index).pageId
  pinCount : ∀ index, (pool'.bufferPoolMeta index).pinCount = (pool.bufferPoolMeta index).pinCount
  isDirty : ∀ index, (pool'.bufferPoolMeta index).isDirty = (pool.bufferPoolMeta index).isDirty
  others : ∀ index, index ∉ pool.unpinnedFrames → pool'.bufferPoolMeta index = pool.bufferPoolMeta index
  nodup : pool'.unpinnedFrames.Nodup
  subset : ∀ index ∈ pool'.unpinnedFrames, index ∈ pool.unpinnedFrames

def turns (pool : BufferPool α) : Nat :=
  (pool.unpinnedFrames.map fun index => if (pool.bufferPoolMeta index).referenceBit = 1 then 2
    else 1).sum

theorem turns_le : pool.turns ≤ 2 * pool.unpinnedFrames.length := by
  rw [turns]
  induction pool.unpinnedFrames with
  | nil => exact Nat.le_refl _
  | cons index rest ih =>
    rw [List.map_cons, List.sum_cons, List.length_cons]
    split <;> omega

structure Sweepable (pool : BufferPool α) : Prop where
  nodup : pool.unpinnedFrames.Nodup
  flagged : ∀ index ∈ pool.unpinnedFrames, (pool.bufferPoolMeta index).isInQueue = true

/-- An unpinned frame in the queue is found, and what is left of the queue is in order. -/
structure Found (pool : BufferPool α) (victim : Nat) (pool' : BufferPool α) : Prop where
  swept : Swept pool pool'
  queued : victim ∈ pool.unpinnedFrames
  unpinned : (pool.bufferPoolMeta victim).pinCount = 0
  gone : victim ∉ pool'.unpinnedFrames
  kept : ∀ index ∈ pool.unpinnedFrames, index ≠ victim → (pool.bufferPoolMeta index).pinCount = 0 →
    index ∈ pool'.unpinnedFrames
  flags : ∀ index ∈ pool.unpinnedFrames, index ≠ victim →
    ((pool'.bufferPoolMeta index).isInQueue = true ↔ index ∈ pool'.unpinnedFrames)

/-- All frames in the queue are pinned again, and taken out of it. -/
structure Cleared (pool pool' : BufferPool α) : Prop where
  swept : Swept pool pool'
  empty : pool'.unpinnedFrames = []
  flags : ∀ index ∈ pool.unpinnedFrames, (pool'.bufferPoolMeta index).isInQueue = false

theorem Swept.refl (sweepable : Sweepable pool) : Swept pool pool :=
  ⟨rfl, rfl, rfl, rfl, fun _ => rfl, fun _ => rfl, fun _ => rfl, fun _ _ => rfl, sweepable.nodup, fun _ => id⟩

theorem Swept.trans {middle pool' : BufferPool α} (first : Swept pool middle)
    (second : Swept middle pool') : Swept pool pool' := by
  constructor
  · exact second.storage.trans first.storage
  · exact second.frames.trans first.frames
  · exact second.pageTable.trans first.pageTable
  · exact second.freeFrames.trans first.freeFrames
  · exact fun index => (second.pageId index).trans (first.pageId index)
  · exact fun index => (second.pinCount index).trans (first.pinCount index)
  · exact fun index => (second.isDirty index).trans (first.isDirty index)
  · intro index outside
    rw [second.others index fun inside => outside (first.subset index inside), first.others index outside]
  · exact second.nodup
  · exact fun index inside => first.subset index (second.subset index inside)

def dropFront (pool : BufferPool α) (front : Nat) (rest : List Nat) : BufferPool α :=
  { pool with unpinnedFrames := rest }.setMeta front { pool.bufferPoolMeta front with isInQueue := false }

def spareFront (pool : BufferPool α) (front : Nat) (rest : List Nat) : BufferPool α :=
  { { pool with unpinnedFrames := rest }.setMeta front { pool.bufferPoolMeta front with referenceBit := 0 } with
    unpinnedFrames := rest ++ [front] }

section Turn
variable {front : Nat} {rest : List Nat} (queue : pool.unpinnedFrames = front :: rest)
    (sweepable : Sweepable pool)
include queue

include sweepable in
theorem front_notMem : front ∉ rest := by
  have nodup := sweepable.nodup
  rw [queue] at nodup
  exact (List.nodup_cons.mp nodup).1

theorem swept_turn {frameMeta : BufferFrameMeta} {queue' : List Nat}
    (pageId : frameMeta.pageId = (pool.bufferPoolMeta front).pageId)
    (pinCount : frameMeta.pinCount = (pool.bufferPoolMeta front).pinCount)
    (isDirty : frameMeta.isDirty = (pool.bufferPoolMeta front).isDirty)
    (nodup : queue'.Nodup) (subset : ∀ index ∈ queue', index ∈ front :: rest) :
    Swept pool { pool.setMeta front frameMeta with unpinnedFrames := queue' } := by
  have same : ∀ {β : Type} (field : BufferFrameMeta → β),
    field frameMeta = field (pool.bufferPoolMeta front) →
      ∀ index, field ((pool.setMeta front frameMeta).bufferPoolMeta index) =
        field (pool.bufferPoolMeta index) := by
    intro β field here index
    by_cases at_front : index = front
    · rw [at_front, setMeta_same, here]
    · rw [setMeta_other _ at_front]
  refine ⟨rfl, rfl, rfl, rfl, same _ pageId, same _ pinCount, same _ isDirty, ?_, nodup,
    fun index inside => queue ▸ subset index inside⟩
  intro index outside
  apply setMeta_other
  rintro rfl
  exact outside (by rw [queue]; exact .head _)

include sweepable

theorem swept_dropFront : Swept pool (pool.dropFront front rest) := by
  have nodup := sweepable.nodup
  rw [queue] at nodup
  exact swept_turn queue rfl rfl rfl (List.nodup_cons.mp nodup).2 fun _ inside => .tail _ inside

theorem swept_spareFront : Swept pool (pool.spareFront front rest) := by
  have nodup := sweepable.nodup
  rw [queue, ← List.singleton_append, List.nodup_append_comm] at nodup
  refine swept_turn queue rfl rfl rfl nodup ?_
  intro index inside
  cases List.mem_append.mp inside with
  | inl later => exact .tail _ later
  | inr here =>
    cases List.mem_singleton.mp here
    exact .head _

theorem dropFront_other {index : Nat} (inside : index ∈ rest) :
    (pool.dropFront front rest).bufferPoolMeta index = pool.bufferPoolMeta index := by
  apply setMeta_other
  rintro rfl
  exact front_notMem queue sweepable inside

theorem spareFront_other {index : Nat} (inside : index ∈ rest) :
    (pool.spareFront front rest).bufferPoolMeta index = pool.bufferPoolMeta index := by
  apply setMeta_other
  rintro rfl
  exact front_notMem queue sweepable inside

theorem sweepable_dropFront : Sweepable (pool.dropFront front rest) := by
  refine ⟨(swept_dropFront queue sweepable).nodup, fun index inside => ?_⟩
  rw [dropFront_other queue sweepable inside]
  exact sweepable.flagged index (by rw [queue]; exact .tail _ inside)

theorem sweepable_spareFront : Sweepable (pool.spareFront front rest) := by
  refine ⟨(swept_spareFront queue sweepable).nodup, fun index inside => ?_⟩
  cases List.mem_append.mp inside with
  | inl later =>
    rw [spareFront_other queue sweepable later]
    exact sweepable.flagged index (by rw [queue]; exact .tail _ later)
  | inr here =>
    cases List.mem_singleton.mp here
    have flagged := sweepable.flagged front (by rw [queue]; exact .head _)
    simpa only [spareFront, setMeta_same] using flagged

theorem turns_dropFront : (pool.dropFront front rest).turns < pool.turns := by
  have same : (pool.dropFront front rest).turns =
      (rest.map fun index => if (pool.bufferPoolMeta index).referenceBit = 1 then 2 else 1).sum := by
    rw [turns]
    congr 1
    apply List.map_congr_left
    intro index inside
    rw [dropFront_other queue sweepable inside]
  rw [same, turns, queue, List.map_cons, List.sum_cons]
  split <;> omega

theorem turns_spareFront (referenced : (pool.bufferPoolMeta front).referenceBit = 1) :
    (pool.spareFront front rest).turns < pool.turns := by
  have same : (pool.spareFront front rest).turns =
      (rest.map fun index => if (pool.bufferPoolMeta index).referenceBit = 1 then 2 else 1).sum + 1 := by
    rw [turns, spareFront, List.map_append, List.sum_append]
    congr 1
    · congr 1
      apply List.map_congr_left
      intro index inside
      rw [← spareFront_other queue sweepable inside, spareFront]
    · simp
  rw [same, turns, queue, List.map_cons, List.sum_cons, if_pos referenced]
  omega

end Turn

/-- A search that goes on after a turn; frames the turn has taken out of the queue are pinned. -/
theorem Found.after {middle pool' : BufferPool α} {victim : Nat} (first : Swept pool middle)
    (found : Found middle victim pool')
    (dropped : ∀ index ∈ pool.unpinnedFrames, index ∉ middle.unpinnedFrames →
      (pool.bufferPoolMeta index).pinCount ≠ 0 ∧ (middle.bufferPoolMeta index).isInQueue = false) :
      Found pool victim pool' := by
  constructor
  · exact first.trans found.swept
  · exact first.subset _ found.queued
  · exact (first.pinCount victim).symm.trans found.unpinned
  · exact found.gone
  · intro index inside away unpinned
    by_cases later : index ∈ middle.unpinnedFrames
    · exact found.kept index later away ((first.pinCount index).trans unpinned)
    · exact absurd unpinned (dropped index inside later).1
  · intro index inside away
    by_cases later : index ∈ middle.unpinnedFrames
    · exact found.flags index later away
    · rw [found.swept.others index later, (dropped index inside later).2]
      simp only [Bool.false_eq_true, false_iff]
      exact fun still => later (found.swept.subset index still)

theorem Cleared.after {middle pool' : BufferPool α} (first : Swept pool middle)
    (cleared : Cleared middle pool')
    (dropped : ∀ index ∈ pool.unpinnedFrames, index ∉ middle.unpinnedFrames →
      (middle.bufferPoolMeta index).isInQueue = false) :
    Cleared pool pool' := by
  refine ⟨first.trans cleared.swept, cleared.empty, fun index inside => ?_⟩
  by_cases later : index ∈ middle.unpinnedFrames
  · exact cleared.flags index later
  · rw [cleared.swept.others index later, dropped index inside later]

/-- An unpinned frame in the queue is found, and the others keep their places. -/
theorem findLoop_found (iterations : Nat) (index : Option Nat) (sweepable : Sweepable pool)
    (enough : pool.turns ≤ iterations)
    (unpinned : ∃ frame ∈ pool.unpinnedFrames, (pool.bufferPoolMeta frame).pinCount = 0) :
    ∃ victim pool', findLoop iterations index pool = (some victim, pool') ∧ Found pool victim pool' := by
  induction iterations generalizing pool index with
  | zero =>
    obtain ⟨frame, inside, -⟩ := unpinned
    obtain ⟨before, after, parts⟩ := List.append_of_mem inside
    rw [turns, parts, List.map_append, List.map_cons, List.sum_append, List.sum_cons] at enough
    split at enough <;> omega
  | succ iterations ih =>
    cases queue : pool.unpinnedFrames with
    | nil =>
      obtain ⟨frame, inside, -⟩ := unpinned
      rw [queue] at inside
      cases inside
    | cons front rest =>
      have apart := front_notMem queue sweepable
      have members : ∀ {frame}, frame ∈ pool.unpinnedFrames → frame = front ∨ frame ∈ rest := by
        intro frame inside
        rw [queue] at inside
        exact List.mem_cons.mp inside
      obtain ⟨frame, inside, zero⟩ := unpinned
      by_cases pinned : (pool.bufferPoolMeta front).pinCount > 0
      · have later : frame ∈ rest := by
          cases members inside with
          | inl here =>
            rw [here] at zero
            omega
          | inr later => exact later
        have first := swept_dropFront queue sweepable
        have fewer := turns_dropFront queue sweepable
        obtain ⟨victim, pool', found, result⟩ :=
          ih (some front) (sweepable_dropFront queue sweepable) (by omega)
          ⟨frame, later, (first.pinCount frame).trans zero⟩
        refine ⟨victim, pool', ?_, result.after first ?_⟩
        · simp only [findLoop, queue, pinned, ite_true]
          exact found
        · intro index inside outside
          obtain rfl := (members inside).resolve_right outside
          exact ⟨by omega, by rw [dropFront, setMeta_same]⟩
      by_cases referenced : (pool.bufferPoolMeta front).referenceBit = 1
      · have first := swept_spareFront queue sweepable
        have fewer := turns_spareFront queue sweepable referenced
        have stays : ∀ index ∈ pool.unpinnedFrames, index ∈ rest ++ [front] := by
          intro index inside
          cases members inside with
          | inl here => simp [here]
          | inr later => exact List.mem_append_left _ later
        obtain ⟨victim, pool', found, result⟩ :=
          ih (some front) (sweepable_spareFront queue sweepable) (by omega)
          ⟨frame, stays frame inside, (first.pinCount frame).trans zero⟩
        refine ⟨victim, pool', ?_, result.after first fun index inside outside =>
          absurd (stays index inside) outside⟩
        simp only [findLoop, queue, pinned, referenced, ite_false, ite_true]
        exact found
      · refine ⟨front, { pool with unpinnedFrames := rest }, ?_, ?_⟩
        · simp only [findLoop, queue, pinned, referenced, ite_false]
        · have nodup := sweepable.nodup
          rw [queue] at nodup
          constructor
          · refine ⟨rfl, rfl, rfl, rfl, fun _ => rfl, fun _ => rfl, fun _ => rfl, fun _ _ => rfl,
              (List.nodup_cons.mp nodup).2, ?_⟩
            intro index inside
            rw [queue]
            exact .tail _ inside
          · rw [queue]
            exact .head _
          · exact Nat.eq_zero_of_not_pos pinned
          · exact apart
          · exact fun index inside away _ => (members inside).resolve_left away
          · intro index inside away
            simp only [sweepable.flagged index inside, true_iff]
            exact (members inside).resolve_left away

/-- A queue of pinned frames is emptied, and the last one looked at comes out as the result. -/
theorem findLoop_cleared (iterations : Nat) (index : Option Nat) (sweepable : Sweepable pool)
    (enough : pool.turns ≤ iterations)
    (pinned : ∀ frame ∈ pool.unpinnedFrames, (pool.bufferPoolMeta frame).pinCount ≠ 0) :
    ∃ pool', findLoop iterations index pool = (pool.unpinnedFrames.getLast?.or index, pool') ∧
      Cleared pool pool' := by
  induction iterations generalizing pool index with
  | zero =>
    have none : pool.unpinnedFrames = [] := by
      apply List.eq_nil_iff_forall_not_mem.mpr
      intro frame inside
      obtain ⟨before, after, parts⟩ := List.append_of_mem inside
      rw [turns, parts, List.map_append, List.map_cons, List.sum_append, List.sum_cons] at enough
      split at enough <;> omega
    refine ⟨pool, ?_, .refl sweepable, none, ?_⟩
    · rw [none]
      rfl
    · rw [none]
      exact nofun
  | succ iterations ih =>
    cases queue : pool.unpinnedFrames with
    | nil =>
      refine ⟨pool, ?_, .refl sweepable, queue, ?_⟩
      · simp only [findLoop, queue]
        rfl
      · rw [queue]
        exact nofun
    | cons front rest =>
      have first := swept_dropFront queue sweepable
      have fewer := turns_dropFront queue sweepable
      have positive : (pool.bufferPoolMeta front).pinCount > 0 :=
        Nat.pos_of_ne_zero (pinned front (by rw [queue]; exact .head _))
      obtain ⟨pool', found, cleared⟩ :=
        ih (some front) (sweepable_dropFront queue sweepable) (by omega) fun frame inside => by
        rw [first.pinCount frame]
        exact pinned frame (first.subset frame inside)
      refine ⟨pool', ?_, cleared.after first ?_⟩
      · simp only [findLoop, queue, positive, ite_true]
        rw [List.getLast?_cons]
        have last : rest.getLast?.or (some front) = some (rest.getLast?.getD front) := by
          cases rest.getLast? <;> rfl
        apply found.trans
        rw [show (pool.dropFront front rest).unpinnedFrames = rest from rfl, last]
        rfl
      · intro index inside outside
        rw [queue] at inside
        obtain rfl := (List.mem_cons.mp inside).resolve_right outside
        rw [dropFront, setMeta_same]

/-! ### The search -/

theorem findPageToEvict_found (sweepable : Sweepable pool)
    (unpinned : ∃ frame ∈ pool.unpinnedFrames, (pool.bufferPoolMeta frame).pinCount = 0) :
    ∃ victim pool', pool.findPageToEvict = (.ok victim, pool') ∧ Found pool victim pool' := by
  obtain ⟨victim, pool', found, result⟩ := findLoop_found _ none sweepable turns_le unpinned
  refine ⟨victim, pool', ?_, result⟩
  simp only [findPageToEvict, found]

theorem findPageToEvict_pinned (sweepable : Sweepable pool)
    (pinned : ∀ frame ∈ pool.unpinnedFrames, (pool.bufferPoolMeta frame).pinCount ≠ 0)
    {last : Nat} (queue : pool.unpinnedFrames.getLast? = some last) :
    ∃ pool', pool.findPageToEvict = (.ok last, pool') ∧ Cleared pool pool' := by
  obtain ⟨pool', found, cleared⟩ := findLoop_cleared _ none sweepable turns_le pinned
  refine ⟨pool', ?_, cleared⟩
  rw [queue] at found
  simp only [findPageToEvict, found, Option.some_or]

theorem findPageToEvict_empty (queue : pool.unpinnedFrames = []) :
    pool.findPageToEvict = (.error .allPagesPinned, pool) := by
  simp only [findPageToEvict, queue, List.length_nil, Nat.mul_zero, findLoop]

end Datashil.BufferPool
