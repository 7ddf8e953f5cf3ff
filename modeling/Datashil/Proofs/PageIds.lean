import Datashil.Library.Along
import Datashil.StorageManager

/-! Page ids are handed out once, as long as no access to the allocator's meta page goes wrong in
a way that the next one does not make up for. -/

namespace Datashil
open Library

namespace StorageManager
variable {metaPage buffer : List Byte} {manager : StorageManager}

/-- What `pread` and `pwrite` leave: the first bytes come from one page, the others from the other. -/
theorem take_splice {first second : List Byte} {count most : Nat} (le : most ≤ count)
    (inside : count ≤ first.length) :
    (first.take count ++ second.drop count).take most = first.take most := by
  have size : (first.take count).length = count := List.length_take_of_le inside
  rw [List.take_append_of_le_length (Nat.le_trans le (Nat.le_of_eq size.symm)), List.take_take,
    Nat.min_eq_left le]

theorem splice_same {first second : List Byte} {count most : Nat} (le : count ≤ most)
    (same : first.take most = second.take most) :
    first.take count ++ second.drop count = second := by
  have start := congrArg (List.take count) same
  rw [List.take_take, List.take_take, Nat.min_eq_left le] at start
  rw [start, List.take_append_drop]

theorem length_splice {first second : List Byte} {count : Nat} (same : first.length = second.length) :
    (first.take count ++ second.drop count).length = second.length := by
  rw [List.length_append, List.length_take, List.length_drop]
  omega

theorem transferred_le (result : Option Nat) : transferred result ≤ PAGE_SIZE := Nat.min_le_right _ _

theorem privateReadPage_buffer (whole : metaPage.length = PAGE_SIZE) (read : Option Nat)
    (buffer : List Byte) :
    (privateReadPage metaPage read buffer).2 = metaPage.take (transferred read) ++
      buffer.drop (transferred read) := by
  have count : min (transferred read) metaPage.length = transferred read := by
    rw [whole]
    exact Nat.min_eq_left (transferred_le read)
  simp only [privateReadPage, count]
  split
  · rfl
  split <;> rfl

theorem privateWritePage_file (metaPage : List Byte) (written : Option Nat) (buffer : List Byte) :
    (privateWritePage metaPage written buffer).2 = buffer.take (transferred written) ++
      metaPage.drop (transferred written) := by
  simp only [privateWritePage]
  split
  · rfl
  split <;> rfl

theorem lengthen_of_whole (whole : metaPage.length = PAGE_SIZE) : lengthen metaPage = metaPage := by
  rw [lengthen, whole, Nat.sub_self, List.replicate_zero, List.append_nil]

theorem magicNumber_congr {page page' : List Byte} {most : Nat} (least : MAGIC_NUMBER_SIZE ≤ most)
    (same : page.take most = page'.take most) :
    magicNumber page = magicNumber page' := by
  have start := congrArg (List.take MAGIC_NUMBER_SIZE) same
  rw [List.take_take, List.take_take, Nat.min_eq_left least] at start
  rw [magicNumber, start, magicNumber]

theorem pageOffsetIndex_congr {page page' : List Byte}
    (same : page.take (MAGIC_NUMBER_SIZE + 8) = page'.take (MAGIC_NUMBER_SIZE + 8)) :
    pageOffsetIndex page = pageOffsetIndex page' := by
  have rest := congrArg (List.drop MAGIC_NUMBER_SIZE) same
  rw [List.drop_take, List.drop_take, Nat.add_sub_cancel_left] at rest
  rw [pageOffsetIndex, rest, pageOffsetIndex]

theorem pageOffsetIndex_of_take {page magic : List Byte} (size : magic.length = MAGIC_NUMBER_SIZE)
    {index : Nat}
    (fits : index < 18446744073709551616)
    (same : page.take (MAGIC_NUMBER_SIZE + 8) = magic ++ LittleEndian.encode 8 index) :
    magicNumber page = LittleEndian.decode magic ∧ pageOffsetIndex page = index := by
  have start := congrArg (List.take MAGIC_NUMBER_SIZE) same
  have rest := congrArg (List.drop MAGIC_NUMBER_SIZE) same
  rw [List.take_take, Nat.min_eq_left (Nat.le_add_right _ _), List.take_left' size] at start
  rw [List.drop_take, Nat.add_sub_cancel_left, List.drop_left' size] at rest
  exact ⟨congrArg LittleEndian.decode start,
    (congrArg LittleEndian.decode rest).trans (LittleEndian.decode_encode_of_lt fits)⟩

/-! ### Starting -/

theorem isDatabaseFile_of_magic {startup : Startup} (whole : metaPage.length = PAGE_SIZE)
    (magic : magicNumber metaPage = STORAGE_MANAGER_MAGIC_NUMBER)
    (read : MAGIC_NUMBER_SIZE ≤ transferred startup.magicRead) :
    isDatabaseFile metaPage startup = true := by
  have page := privateReadPage_buffer whole startup.magicRead startup.magicPage.1
  have start : (metaPage.take (transferred startup.magicRead) ++
    startup.magicPage.1.drop (transferred startup.magicRead)).take MAGIC_NUMBER_SIZE =
      metaPage.take MAGIC_NUMBER_SIZE :=
        take_splice read (Nat.le_trans (transferred_le _) (Nat.le_of_eq whole.symm))
  rw [isDatabaseFile, if_neg (by omega)]
  simp only [page, decide_eq_true_eq]
  exact (magicNumber_congr (Nat.le_refl _) start).trans magic

/-- A file that is recognized stays as it is. -/
theorem bootstrap_of_database {startup : Startup} (whole : metaPage.length = PAGE_SIZE)
    (known : isDatabaseFile metaPage startup = true)
    (read : MAGIC_NUMBER_SIZE + 8 ≤ transferred startup.indexRead) :
    bootstrap metaPage startup = ⟨metaPage, pageOffsetIndex metaPage⟩ := by
  have inside : transferred startup.indexRead ≤ metaPage.length :=
    Nat.le_trans (transferred_le _) (Nat.le_of_eq whole.symm)
  simp only [bootstrap, known, ite_true, privateReadPage_buffer whole]
  rw [pageOffsetIndex_congr (take_splice read inside)]

/-- The first `Bootstrap` writes the meta page and reads its counter back. -/
structure Creates (startup : Startup) : Prop where
  written : MAGIC_NUMBER_SIZE + 8 ≤ transferred startup.metaWrite
  length : transferred startup.metaWrite = PAGE_SIZE ∨ 0 < transferred startup.databaseWrite
  read : MAGIC_NUMBER_SIZE + 8 ≤ transferred startup.indexRead

theorem length_initialMetaPage : initialMetaPage.length = PAGE_SIZE := by
  simp only [initialMetaPage, List.length_append, LittleEndian.length_encode, List.length_replicate,
    PAGE_SIZE, MAGIC_NUMBER_SIZE]

theorem bootstrap_create {startup : Startup} (creates : Creates startup) :
    ∃ metaPage, bootstrap [] startup = ⟨metaPage, DATABASE_META_PAGE_ID + 1⟩ ∧ metaPage.length = PAGE_SIZE ∧
      magicNumber metaPage = STORAGE_MANAGER_MAGIC_NUMBER ∧
        pageOffsetIndex metaPage = DATABASE_META_PAGE_ID + 1 := by
  have unknown : isDatabaseFile [] startup = false := by
    rw [isDatabaseFile, if_pos (by decide)]
  have file := privateWritePage_file [] startup.metaWrite initialMetaPage
  rw [List.drop_nil, List.append_nil] at file
  have inside : transferred startup.metaWrite ≤ initialMetaPage.length := by
    rw [length_initialMetaPage]
    exact transferred_le _
  have size : (initialMetaPage.take (transferred startup.metaWrite)).length =
      transferred startup.metaWrite :=
    List.length_take_of_le inside
  obtain ⟨metaPage, same, whole, start⟩ : ∃ metaPage, (if 0 < transferred startup.databaseWrite then
      lengthen (initialMetaPage.take (transferred startup.metaWrite))
        else initialMetaPage.take (transferred startup.metaWrite)) = metaPage ∧
      metaPage.length = PAGE_SIZE ∧ metaPage.take (MAGIC_NUMBER_SIZE + 8) =
        initialMetaPage.take (MAGIC_NUMBER_SIZE + 8) := by
    refine ⟨_, rfl, ?_, ?_⟩
    · have length := creates.length
      have most := transferred_le startup.metaWrite
      split
      · rw [lengthen, List.length_append, List.length_replicate, size]
        omega
      · omega
    · split
      · rw [lengthen, List.take_append_of_le_length
          (Nat.le_trans creates.written (Nat.le_of_eq size.symm)), List.take_take,
          Nat.min_eq_left creates.written]
      · rw [List.take_take, Nat.min_eq_left creates.written]
  have parts : initialMetaPage.take (MAGIC_NUMBER_SIZE + 8) =
      LittleEndian.encode MAGIC_NUMBER_SIZE STORAGE_MANAGER_MAGIC_NUMBER ++
        LittleEndian.encode 8 (DATABASE_META_PAGE_ID + 1) :=
    List.take_left' (by simp only [List.length_append, LittleEndian.length_encode])
  obtain ⟨magic, index⟩ := pageOffsetIndex_of_take (LittleEndian.length_encode ..) (by decide)
    (start.trans parts)
  rw [LittleEndian.decode_encode_of_lt (by decide)] at magic
  have inside : transferred startup.indexRead ≤ metaPage.length :=
    Nat.le_trans (transferred_le _) (Nat.le_of_eq whole.symm)
  refine ⟨metaPage, ?_, whole, magic, index⟩
  simp only [bootstrap, unknown, Bool.false_eq_true, ite_false, file, same, privateReadPage_buffer whole]
  rw [pageOffsetIndex_congr (take_splice creates.read inside), index]

/-! ### Allocating -/

/-- The magic number is read back before anything is written, and the write does not end within the
counter. -/
structure Harmless (allocation : Allocation) : Prop where
  read : MAGIC_NUMBER_SIZE ≤ transferred allocation.read ∨ transferred allocation.written = 0
  written : transferred allocation.written ≤ MAGIC_NUMBER_SIZE ∨
    MAGIC_NUMBER_SIZE + 8 ≤ transferred allocation.written

/-- The id is the counter. The meta page is as before, or has the next counter. -/
theorem allocateNewPage_spec {allocation : Allocation} (whole : manager.metaPage.length = PAGE_SIZE)
    (harmless : Harmless allocation)
    (room : manager.newPageOffsetIndex + 1 < 18446744073709551616) :
    ∃ metaPage, manager.allocateNewPage allocation =
      (manager.newPageOffsetIndex, ⟨metaPage, manager.newPageOffsetIndex + 1⟩) ∧
      ((transferred allocation.written ≤ MAGIC_NUMBER_SIZE ∧ metaPage = manager.metaPage) ∨
        (MAGIC_NUMBER_SIZE + 8 ≤ transferred allocation.written ∧ metaPage.length = PAGE_SIZE ∧
        magicNumber metaPage = magicNumber manager.metaPage ∧
          pageOffsetIndex metaPage = manager.newPageOffsetIndex + 1)) := by
  obtain ⟨metaPage, index⟩ := manager
  simp only at whole room ⊢
  have next : u64 (index + 1) = index + 1 := Nat.mod_eq_of_lt room
  have pid : u64 (index + 1 + 18446744073709551615) = index := by
    simp only [u64]
    omega
  let page := metaPage.take (transferred allocation.read) ++
    allocation.page.1.drop (transferred allocation.read)
  have pageSize : page.length = PAGE_SIZE :=
    (length_splice (whole.trans allocation.page.2.symm)).trans allocation.page.2
  let changed := page.take MAGIC_NUMBER_SIZE ++ LittleEndian.encode 8 (index + 1) ++
    page.drop (MAGIC_NUMBER_SIZE + 8)
  have magicSize : (page.take MAGIC_NUMBER_SIZE).length = MAGIC_NUMBER_SIZE :=
    List.length_take_of_le (by rw [pageSize]; decide)
  have size : changed.length = PAGE_SIZE := by
    rw [List.length_append, List.length_append, magicSize, LittleEndian.length_encode, List.length_drop,
      pageSize]
    rfl
  refine ⟨changed.take (transferred allocation.written) ++
    metaPage.drop (transferred allocation.written), ?_, ?_⟩
  · have extended : (if allocation.fallocated then
      { metaPage := lengthen metaPage, newPageOffsetIndex := index : StorageManager }
        else ⟨metaPage, index⟩) = ⟨metaPage, index⟩ := by
      rw [lengthen_of_whole whole, ite_self]
    simp only [allocateNewPage, extended, setNewPageOffsetIndex, privateReadPage_buffer whole,
      privateWritePage_file, next, pid]
    rfl
  · have start : MAGIC_NUMBER_SIZE ≤ transferred allocation.read →
      changed.take MAGIC_NUMBER_SIZE = metaPage.take MAGIC_NUMBER_SIZE := by
      intro read
      have inside : transferred allocation.read ≤ metaPage.length :=
        Nat.le_trans (transferred_le _) (Nat.le_of_eq whole.symm)
      have head : changed.take MAGIC_NUMBER_SIZE = page.take MAGIC_NUMBER_SIZE := by
        simp only [changed]
        rw [List.append_assoc, List.take_left' magicSize]
      rw [head]
      exact take_splice read inside
    cases harmless.written with
    | inl few =>
      refine .inl ⟨few, ?_⟩
      cases harmless.read with
      | inl read => exact splice_same few (start read)
      | inr nothing => exact @splice_same changed metaPage _ 0 (Nat.le_of_eq nothing) rfl
    | inr many =>
      right
      have read : MAGIC_NUMBER_SIZE ≤ transferred allocation.read := by
        apply harmless.read.resolve_right
        intro nothing
        rw [nothing] at many
        cases many
      have inside : transferred allocation.written ≤ changed.length :=
        Nat.le_trans (transferred_le _) (Nat.le_of_eq size.symm)
      have both := @take_splice changed metaPage _ _ many inside
      have parts : changed.take (MAGIC_NUMBER_SIZE + 8) = page.take MAGIC_NUMBER_SIZE ++
          LittleEndian.encode 8 (index + 1) :=
        List.take_left' (by rw [List.length_append, magicSize, LittleEndian.length_encode])
      obtain ⟨-, stored⟩ := pageOffsetIndex_of_take magicSize room (both.trans parts)
      refine ⟨many, (length_splice (size.trans whole.symm)).trans whole, ?_, stored⟩
      exact (magicNumber_congr (Nat.le_add_right _ _) both).trans
        (magicNumber_congr (Nat.le_refl _) (start read))

/-- The storage below the buffer pool, without the bytes of the meta page. -/
structure Matches {α : Type} (manager : StorageManager) (storage : Storage α) : Prop where
  stored : pageOffsetIndex manager.metaPage = storage.storedIndex
  counter : manager.newPageOffsetIndex = storage.newPageOffsetIndex

/-- Where no access fails, both hand out the same page. -/
theorem Matches.allocateNewPage {α : Type} {storage : Storage α} (same : manager.Matches storage)
    {allocation : Allocation}
    (whole : manager.metaPage.length = PAGE_SIZE) (read : transferred allocation.read = PAGE_SIZE)
    (written : transferred allocation.written = PAGE_SIZE)
    (room : manager.newPageOffsetIndex + 1 < 18446744073709551616) :
    (manager.allocateNewPage allocation).1 = storage.allocateNewPage.1 ∧
      (manager.allocateNewPage allocation).2.Matches storage.allocateNewPage.2 := by
  have harmless : Harmless allocation := ⟨.inl (by rw [read]; decide), .inr (by rw [written]; decide)⟩
  obtain ⟨metaPage, made, left⟩ := allocateNewPage_spec whole harmless room
  rw [made]
  cases left with
  | inl few =>
    rw [written] at few
    exact absurd few.1 (by decide)
  | inr stored =>
    obtain ⟨-, -, -, index⟩ := stored
    exact ⟨same.counter, index.trans (congrArg (· + 1) same.counter), congrArg (· + 1) same.counter⟩

end StorageManager

/-! ### Runs -/

namespace Allocator
open StorageManager
variable {allocator : Allocator}

/-- Steps without harm: a restart recognizes the file and finds, on the meta page, the counter that
was in memory. -/
def Careful (allocator : Allocator) : AllocatorStep → Prop
  | .allocate allocation =>
    Harmless allocation ∧ allocator.manager.newPageOffsetIndex + 1 < 18446744073709551616
  | .restart startup => isDatabaseFile allocator.manager.metaPage startup = true ∧
      MAGIC_NUMBER_SIZE + 8 ≤ transferred startup.indexRead ∧
      pageOffsetIndex allocator.manager.metaPage = allocator.manager.newPageOffsetIndex

def Advances (metaPage metaPage' : List Byte) : Prop :=
  magicNumber metaPage' = magicNumber metaPage ∧ pageOffsetIndex metaPage ≤ pageOffsetIndex metaPage'

/-- No id is handed out twice, none belongs to a meta page, and the allocator's meta page only
advances. -/
structure Once (startup : Startup) (steps : List AllocatorStep) : Prop where
  distinct : (steps.foldl step (create startup)).handedOut.Nodup
  reserved : ∀ pid ∈ (steps.foldl step (create startup)).handedOut, pid ≠ STORAGE_MANAGER_META_PAGE_ID ∧
    pid ≠ DATABASE_META_PAGE_ID
  advances : Along step (fun allocator action =>
    Advances allocator.manager.metaPage (allocator.step action).manager.metaPage)
    (create startup) steps

/-- All ids handed out are below the counter in memory, which is never behind the one in the file. -/
structure Sound (allocator : Allocator) : Prop where
  whole : allocator.manager.metaPage.length = PAGE_SIZE
  behind : pageOffsetIndex allocator.manager.metaPage ≤ allocator.manager.newPageOffsetIndex
  low : DATABASE_META_PAGE_ID < allocator.manager.newPageOffsetIndex
  distinct : allocator.handedOut.Nodup
  range : ∀ pid ∈ allocator.handedOut, DATABASE_META_PAGE_ID < pid ∧
    pid < allocator.manager.newPageOffsetIndex

theorem sound_create {startup : Startup} (creates : Creates startup) : Sound (create startup) := by
  obtain ⟨metaPage, made, whole, -, index⟩ := bootstrap_create creates
  have parts : create startup = ⟨⟨metaPage, DATABASE_META_PAGE_ID + 1⟩, []⟩ := by
    rw [create, made]
  rw [parts]
  exact ⟨whole, Nat.le_of_eq index, Nat.lt_succ_self _, List.nodup_nil, List.forall_mem_nil _⟩

theorem step_allocate {allocation : Allocation} (whole : allocator.manager.metaPage.length = PAGE_SIZE)
    (careful : allocator.Careful (.allocate allocation)) :
    ∃ metaPage, allocator.step (.allocate allocation) =
        ⟨⟨metaPage, allocator.manager.newPageOffsetIndex + 1⟩,
          allocator.manager.newPageOffsetIndex :: allocator.handedOut⟩ ∧
      ((transferred allocation.written ≤ MAGIC_NUMBER_SIZE ∧ metaPage = allocator.manager.metaPage) ∨
        (MAGIC_NUMBER_SIZE + 8 ≤ transferred allocation.written ∧ metaPage.length = PAGE_SIZE ∧
        magicNumber metaPage = magicNumber allocator.manager.metaPage ∧
          pageOffsetIndex metaPage = allocator.manager.newPageOffsetIndex + 1)) := by
  obtain ⟨metaPage, made, left⟩ := allocateNewPage_spec whole careful.1 careful.2
  refine ⟨metaPage, ?_, left⟩
  simp only [Allocator.step, made]

theorem Sound.step (sound : Sound allocator) {action : AllocatorStep} (careful : allocator.Careful action) :
    Sound (allocator.step action) ∧
      Advances allocator.manager.metaPage (allocator.step action).manager.metaPage := by
  obtain ⟨whole, behind, low, distinct, range⟩ := sound
  cases action with
  | allocate allocation =>
    obtain ⟨metaPage, stepped, left⟩ := step_allocate whole careful
    have fresh : (allocator.manager.newPageOffsetIndex :: allocator.handedOut).Nodup :=
      List.nodup_cons.mpr ⟨fun member => Nat.lt_irrefl _ (range _ member).2, distinct⟩
    have range' : ∀ pid ∈ allocator.manager.newPageOffsetIndex :: allocator.handedOut,
        DATABASE_META_PAGE_ID < pid ∧ pid < allocator.manager.newPageOffsetIndex + 1 := by
      intro pid member
      cases List.mem_cons.mp member with
      | inl here => exact ⟨Nat.lt_of_lt_of_eq low here.symm, Nat.lt_succ_of_le (Nat.le_of_eq here)⟩
      | inr earlier => exact ⟨(range pid earlier).1, Nat.lt_succ_of_lt (range pid earlier).2⟩
    rw [stepped]
    cases left with
    | inl same =>
      obtain ⟨-, rfl⟩ := same
      exact ⟨⟨whole, Nat.le_succ_of_le behind, Nat.lt_succ_of_lt low, fresh, range'⟩, rfl, Nat.le_refl _⟩
    | inr written =>
      obtain ⟨-, whole', magic, index⟩ := written
      exact ⟨⟨whole', Nat.le_of_eq index, Nat.lt_succ_of_lt low, fresh, range'⟩, magic,
        Nat.le_trans (Nat.le_succ_of_le behind) (Nat.le_of_eq index.symm)⟩
  | restart startup =>
    obtain ⟨known, read, same⟩ := careful
    have stepped : allocator.step (.restart startup) =
        ⟨⟨allocator.manager.metaPage, allocator.manager.newPageOffsetIndex⟩, allocator.handedOut⟩ := by
      simp only [Allocator.step, bootstrap_of_database whole known read, same]
    rw [stepped]
    exact ⟨⟨whole, behind, low, distinct, range⟩, rfl, Nat.le_refl _⟩

/-- Along careful steps, every id is handed out once. The counter in memory only grows, and a
careful restart finds in the file what the counter was in memory. -/
theorem ids_handed_out_once (startup : Startup) (steps : List AllocatorStep) (creates : Creates startup)
    (careful : Along step Careful (create startup) steps) : Once startup steps := by
  have kept : ∀ allocator action, Sound allocator → Careful allocator action →
      Sound (allocator.step action) :=
    fun _ _ sound careful => (sound.step careful).1
  have final := Along.invariant kept (sound_create creates) careful
  refine ⟨final.distinct, fun pid member => ?_, ?_⟩
  · have low := (final.range pid member).1
    simp only [STORAGE_MANAGER_META_PAGE_ID, DATABASE_META_PAGE_ID] at low ⊢
    omega
  · exact Along.imp kept (fun _ _ sound careful => (sound.step careful).2) (sound_create creates) careful

/-! ### A write that fails before a restart -/

def zeros : PageBuffer := ⟨List.replicate PAGE_SIZE 0, List.length_replicate⟩

def smooth : Startup := ⟨some PAGE_SIZE, zeros, some PAGE_SIZE, some PAGE_SIZE, some PAGE_SIZE, zeros⟩

def allocation (written : Option Nat) : Allocation := ⟨true, some PAGE_SIZE, zeros, written⟩

theorem creates_smooth : Creates smooth := ⟨by decide, .inl (by decide), by decide⟩

theorem harmless_whole : Harmless (allocation (some PAGE_SIZE)) := ⟨.inl (by decide), .inr (by decide)⟩

theorem harmless_failed : Harmless (allocation none) := ⟨.inl (by decide), .inl (by decide)⟩

theorem create_smooth : ∃ metaPage, create smooth = ⟨⟨metaPage, 2⟩, []⟩ ∧ metaPage.length = PAGE_SIZE ∧
    magicNumber metaPage = STORAGE_MANAGER_MAGIC_NUMBER ∧ pageOffsetIndex metaPage = 2 := by
  obtain ⟨metaPage, made, rest⟩ := bootstrap_create creates_smooth
  refine ⟨metaPage, ?_, rest⟩
  rw [create, made]
  rfl

theorem careful_allocate {metaPage : List Byte} {index : Nat} {pids : List Nat} {written : Option Nat}
    (harmless : Harmless (allocation written))
    (room : index + 1 < 18446744073709551616) :
    Careful ⟨⟨metaPage, index⟩, pids⟩ (.allocate (allocation written)) :=
  ⟨harmless, room⟩

/-- A write that fails is made up for by the next one. -/
theorem ids_handed_out_once_two :
    Once smooth [.allocate (allocation none), .allocate (allocation (some PAGE_SIZE))] := by
  apply ids_handed_out_once smooth _ creates_smooth
  obtain ⟨metaPage, made, whole, -, -⟩ := create_smooth
  rw [made]
  have first : Careful ⟨⟨metaPage, 2⟩, []⟩ (.allocate (allocation none)) :=
    careful_allocate harmless_failed (by decide)
  obtain ⟨left, stepped, -⟩ := step_allocate whole first
  refine ⟨first, ?_, trivial⟩
  rw [stepped]
  exact careful_allocate harmless_whole (show 3 + 1 < 18446744073709551616 by decide)

/-- A write that fails is not made up for by a restart: the id that has been handed out is handed
out again. -/
theorem ids_handed_out_twice :
    ¬Once smooth [.allocate (allocation none), .restart smooth, .allocate (allocation none)] := by
  intro once
  obtain ⟨metaPage, made, whole, magic, index⟩ := create_smooth
  have unwritten : ¬MAGIC_NUMBER_SIZE + 8 ≤ transferred (allocation none).written := by decide
  have allocated : ∀ pids, step ⟨⟨metaPage, 2⟩, pids⟩ (.allocate (allocation none)) =
      ⟨⟨metaPage, 3⟩, 2 :: pids⟩ := by
    intro pids
    obtain ⟨left, stepped, ⟨-, same⟩ | written⟩ :=
      @step_allocate ⟨⟨metaPage, 2⟩, pids⟩ (allocation none) whole
      (careful_allocate harmless_failed (by decide))
    · rw [stepped, same]
    · exact absurd written.1 unwritten
  have restarted : step ⟨⟨metaPage, 3⟩, [2]⟩ (.restart smooth) = ⟨⟨metaPage, 2⟩, [2]⟩ := by
    have known := @isDatabaseFile_of_magic metaPage smooth whole magic (by decide)
    simp only [step, bootstrap_of_database whole known (by decide), index]
  have distinct := once.distinct
  simp only [List.foldl_cons, List.foldl_nil, made, allocated, restarted] at distinct
  exact absurd distinct (by decide)

end Allocator
end Datashil
