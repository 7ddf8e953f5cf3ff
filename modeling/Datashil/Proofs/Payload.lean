import Datashil.Proofs.LeafDelete
import Datashil.Proofs.Store

/-! Payloads across pages: what the tuple in a leaf and the overflow pages behind
it spell out, that inserting stores a payload this way, and that a stream reads it
back. -/

namespace Datashil
open Library LeafPage BTree

/-- Overflow pages from one id on that spell out some bytes. -/
inductive Chained (pages : Nat → Page) (bound : Nat) : Nat → List Byte → Prop
  | last {pid : Nat} {page : OverflowPage} {bytes : List Byte} (below : pid < bound)
      (stored : pages pid = .overflow page)
      (flag : page.overflow = 0) (fits : bytes.length ≤ PAGE_SIZE - OVERFLOW_PAGE_HEADER_SIZE)
      (content : page.bytes.read OVERFLOW_PAGE_HEADER_SIZE bytes.length = bytes) :
        Chained pages bound pid bytes
  | more {pid : Nat} {page : OverflowPage} {bytes rest : List Byte} (below : pid < bound)
      (stored : pages pid = .overflow page)
      (flag : 0 < page.overflow) (full : bytes.length = PAGE_SIZE - OVERFLOW_PAGE_HEADER_SIZE)
      (content : page.bytes.read OVERFLOW_PAGE_HEADER_SIZE bytes.length = bytes)
      (chain : Chained pages bound page.overflowPage rest) : Chained pages bound pid (bytes ++ rest)

/-- A chain of overflow pages with room for some bytes: the ids of its pages, all of them full but
the last one, which ends the chain. -/
inductive Strung (pages : Nat → Page) : Nat → List Nat → Nat → Prop
  | last {pid size : Nat} {page : OverflowPage} (stored : pages pid = .overflow page)
      (flag : page.overflow = 0) (some : 0 < size)
      (fits : size ≤ PAGE_SIZE - OVERFLOW_PAGE_HEADER_SIZE) : Strung pages pid [pid] size
  | more {pid size : Nat} {page : OverflowPage} {ids : List Nat} (stored : pages pid = .overflow page)
      (flag : 0 < page.overflow)
      (chain : Strung pages page.overflowPage ids size) :
        Strung pages pid (pid :: ids) (PAGE_SIZE - OVERFLOW_PAGE_HEADER_SIZE + size)

structure Among (low high : Nat) (ids : List Nat) : Prop where
  distinct : ids.Nodup
  range : ∀ id ∈ ids, low ≤ id ∧ id < high

def OverflowKept (tree other : BTree) : Prop :=
  tree.newPageOffsetIndex ≤ other.newPageOffsetIndex ∧
    ∀ pid page, pid < tree.newPageOffsetIndex → tree.pages pid = .overflow page →
      other.pages pid = .overflow page

theorem OverflowKept.trans {first second third : BTree} (left : OverflowKept first second)
    (right : OverflowKept second third) :
    OverflowKept first third :=
  ⟨Nat.le_trans left.1 right.1, fun pid page below stored =>
    right.2 pid page (Nat.lt_of_lt_of_le below left.1) (left.2 pid page below stored)⟩

theorem Chained.kept {tree other : BTree} (kept : OverflowKept tree other) {pid : Nat} {bytes : List Byte}
    (chained : Chained tree.pages tree.newPageOffsetIndex pid bytes) :
    Chained other.pages other.newPageOffsetIndex pid bytes := by
  induction chained with
  | last below stored flag fits content =>
    exact .last (Nat.lt_of_lt_of_le below kept.1) (kept.2 _ _ below stored) flag fits content
  | more below stored flag full content _ ih =>
    exact .more (Nat.lt_of_lt_of_le below kept.1) (kept.2 _ _ below stored) flag full content ih

theorem Strung.kept {tree other : BTree} (kept : OverflowKept tree other) {pid size : Nat} {ids : List Nat}
    (strung : Strung tree.pages pid ids size) (below : ∀ id ∈ ids, id < tree.newPageOffsetIndex) :
    Strung other.pages pid ids size := by
  induction strung with
  | last stored flag some fits => exact .last (kept.2 _ _ (below _ (.head _)) stored) flag some fits
  | more stored flag chain ih =>
    exact .more (kept.2 _ _ (below _ (.head _)) stored) flag
      (ih fun id member => below id (.tail _ member))

/-! ### Raw tuples -/

def headerOf (raw : List Byte) : TupleHeader := TupleHeader.decode (raw.take TUPLE_HEADER_SIZE)

/-- A raw tuple and the overflow pages behind it spell out a payload. -/
structure Spells (pages : Nat → Page) (bound : Nat) (raw payload : List Byte) : Prop where
  size : (headerOf raw).size = payload.length
  content : ∃ rest, payload = raw.drop TUPLE_HEADER_SIZE ++ rest ∧
    (((headerOf raw).overflow = 0 ∧ rest = []) ∨
      (0 < (headerOf raw).overflow ∧ Chained pages bound (headerOf raw).overflowPage rest))

theorem Spells.kept {tree other : BTree} (kept : OverflowKept tree other) {raw payload : List Byte}
    (spells : Spells tree.pages tree.newPageOffsetIndex raw payload) :
    Spells other.pages other.newPageOffsetIndex raw payload := by
  obtain ⟨size, rest, payload, whole | ⟨flag, chain⟩⟩ := spells
  · exact ⟨size, rest, payload, .inl whole⟩
  · exact ⟨size, rest, payload, .inr ⟨flag, chain.kept kept⟩⟩

/-- What a raw tuple owns besides its place in a leaf: the overflow pages with the rest of its
payload. -/
inductive Owned (pages : Nat → Page) (raw : List Byte) : List Nat → Prop
  | whole (flag : (headerOf raw).overflow = 0)
      (size : (headerOf raw).size = (raw.drop TUPLE_HEADER_SIZE).length) : Owned pages raw []
  | chained {ids : List Nat} {size : Nat} (flag : 0 < (headerOf raw).overflow)
      (chain : Strung pages (headerOf raw).overflowPage ids size)
      (sum : (headerOf raw).size = (raw.drop TUPLE_HEADER_SIZE).length + size) : Owned pages raw ids

theorem headerOf_encode {header : TupleHeader} {chunk : List Byte} (flag : header.overflow < 256)
    (pid : header.overflowPage < 18446744073709551616) (size : header.size < 4294967296) :
    headerOf (header.encode ++ chunk) = header := by
  have parts : ∀ {first second third : List Byte}, first.length = 1 → second.length = 8 → third.length = 4 →
      headerOf (first ++ second ++ third ++ chunk) =
        ⟨LittleEndian.decode first, LittleEndian.decode second, LittleEndian.decode third⟩ := by
    intro first second third one eight four
    rw [headerOf, TUPLE_HEADER_SIZE, List.take_left' (by simp [one, eight, four]), TupleHeader.decode]
    congr 1
    · rw [List.append_assoc, List.take_left' one]
    · rw [List.append_assoc, List.drop_left' one, List.take_left' eight]
    · rw [List.drop_left' (by simp [one, eight]), List.take_of_length_le (by omega)]
  rw [TupleHeader.encode, parts (by simp) (by simp) (by simp), LittleEndian.decode_encode_of_lt flag,
    LittleEndian.decode_encode_of_lt pid, LittleEndian.decode_encode_of_lt size]

theorem withOverflow_encode (overflow overflowPage size : Nat) (chunk : List Byte) :
    withOverflow overflow overflowPage (TupleHeader.encode ⟨0, 0, size⟩ ++ chunk) =
      TupleHeader.encode ⟨overflow, overflowPage, size⟩ ++ chunk := by
  simp only [withOverflow, TupleHeader.encode]
  rw [List.append_assoc (_ ++ _), List.drop_left' (by simp), List.append_assoc (_ ++ _)]

def payloadKey (payload : List Byte) : Nat := LittleEndian.decode (payload.take SIZEOF_KEY)

/-! ### Storing -/

def Page.linked (address overflow overflowPage : Nat) : Page → Page
  | .leaf page => .leaf (page.setOverflowInfo address overflow overflowPage)
  | .overflow page => .overflow { page with overflow, overflowPage }
  | page => page

def Page.Linkable : Page → Prop
  | .leaf _ | .overflow _ => True
  | _ => False

theorem ran_setOverflowInfo {tree : BTree} {pid address overflow overflowPage : Nat}
    {post : Unit → BTree → Prop}
    (linkable : (tree.pages pid).Linkable) :
    Ran (BTree.setOverflowInfo pid address overflow overflowPage) tree post ↔
      post ()
        (((tree.record (.read pid)).setPage pid
        ((tree.pages pid).linked address overflow overflowPage)).record (.write pid)) := by
  simp only [BTree.setOverflowInfo, ran_bind, ran_readPage]
  cases stored : tree.pages pid <;> simp only [stored, Page.Linkable] at linkable
  · simp only [ran_writePage, Page.linked]
  · simp only [ran_writePage, Page.linked]

/-- The store after what a page did not take has been put into overflow pages. -/
structure Overflown (st st' : BTree) (pid address : Nat) (bytes : List Byte) : Prop where
  root : st'.rootPageId = st.rootPageId
  grows : st.newPageOffsetIndex ≤ st'.newPageOffsetIndex
  frame : ∀ other, other < st.newPageOffsetIndex → other ≠ pid → st'.pages other = st.pages other
  chain : (bytes = [] ∧ st'.pages pid = st.pages pid) ∨
    (bytes ≠ [] ∧ ∃ next, next < st'.newPageOffsetIndex ∧
      st'.pages pid = (st.pages pid).linked address 1 next ∧
      Chained st'.pages st'.newPageOffsetIndex next bytes ∧
      ∃ ids, Strung st'.pages next ids bytes.length ∧ Among st.newPageOffsetIndex st'.newPageOffsetIndex ids)

theorem Pointer.read_advance (pointer : Pointer) (first second : Nat) :
    pointer.read (first + second) = pointer.read first ++ (pointer.advance first).read second := by
  simp only [Pointer.read, Pointer.advance, Memory.read_add]

private theorem Overflown.turn {st middle st' : BTree} {pid address address' : Nat}
    (page : OverflowPage) {bytes rest : List Byte}
    (below : pid < st.newPageOffsetIndex) (root : middle.rootPageId = st.rootPageId)
    (next : middle.newPageOffsetIndex = st.newPageOffsetIndex + 1)
    (pages : ∀ other, middle.pages other = if other = st.newPageOffsetIndex then .overflow page
      else if other = pid then (st.pages pid).linked address 1 st.newPageOffsetIndex else st.pages other)
    (nonempty : bytes ≠ []) (content : page.bytes.read OVERFLOW_PAGE_HEADER_SIZE bytes.length = bytes)
    (flag : page.overflow = 0) (fits : bytes.length ≤ PAGE_SIZE - OVERFLOW_PAGE_HEADER_SIZE)
    (full : rest ≠ [] → bytes.length = PAGE_SIZE - OVERFLOW_PAGE_HEADER_SIZE)
    (turns : Overflown middle st' st.newPageOffsetIndex address' rest) :
    Overflown st st' pid address (bytes ++ rest) := by
  have grows := turns.grows
  have apart : pid ≠ st.newPageOffsetIndex := by omega
  have positive := List.length_pos_iff.mpr nonempty
  refine ⟨turns.root.trans root, by omega, ?_,
    .inr ⟨by simp [nonempty], st.newPageOffsetIndex, by omega, ?_, ?_⟩⟩
  · intro other old away
    rw [turns.frame other (by omega) (by omega), pages, if_neg (by omega), if_neg away]
  · rw [turns.frame pid (by omega) apart, pages, if_neg apart, if_pos rfl]
  · rcases turns.chain with ⟨rfl, same⟩ | ⟨some_left, following, inside, linked, chain⟩
    · rw [pages, if_pos rfl] at same
      rw [List.append_nil]
      refine ⟨.last (by omega) same flag fits content, [st.newPageOffsetIndex],
        .last same flag positive fits, List.nodup_singleton _, ?_⟩
      intro id member
      rw [List.mem_singleton.mp member]
      omega
    · obtain ⟨chain, ids, strung, distinct, range⟩ := chain
      rw [pages, if_pos rfl] at linked
      have strung := Strung.more linked Nat.one_pos strung
      rw [← full some_left, ← List.length_append] at strung
      refine ⟨.more (by omega) linked Nat.one_pos (full some_left) content chain, _ :: ids, strung, ?_, ?_⟩
      · refine List.nodup_cons.mpr ⟨fun member => ?_, distinct⟩
        have above := (range _ member).1
        omega
      · intro id member
        cases List.mem_cons.mp member with
        | inl here => omega
        | inr later =>
          have := range id later
          omega

theorem writeOverflowPages_spec (fuel : Nat) {remaining : Nat} (enough : remaining ≤ fuel) {st : BTree}
    {pid : Nat}
    (below : pid < st.newPageOffsetIndex) (linkable : (st.pages pid).Linkable) (status : WriteStatus)
    (pointer : Pointer) :
    Ran (writeOverflowPages fuel pid status pointer remaining) st fun _ st' =>
      Overflown st st' pid status.overflowInfoStoreAddress (pointer.read remaining) := by
  induction fuel generalizing remaining st pid status pointer with
  | zero =>
    obtain rfl : remaining = 0 := by omega
    simp only [writeOverflowPages, gt_iff_lt, Nat.lt_irrefl, ite_false, ran_pure]
    exact ⟨rfl, Nat.le_refl _, fun _ _ _ => rfl, .inl ⟨rfl, rfl⟩⟩
  | succ fuel ih =>
    by_cases some_left : remaining > 0
    · have apart : pid ≠ st.newPageOffsetIndex := by omega
      simp only [writeOverflowPages, some_left, ite_true, ran_bind, ran_allocateNewPage, ran_writePage]
      rw [ran_setOverflowInfo (by simpa [apart] using linkable), ran_releasePage,
        ran_readOverflow ⟨st.newPageOffsetIndex, 0, 0, fun _ => 0⟩ (by simp [Ne.symm apart])]
      have nonempty : ∀ count, 0 < count → pointer.read count ≠ [] := by
        intro count positive none
        have := congrArg List.length none
        simp at this
        omega
      let stored : Nat → OverflowPage := fun count =>
        ⟨st.newPageOffsetIndex, 0, 0,
          Memory.copy (fun _ => 0) OVERFLOW_PAGE_HEADER_SIZE pointer.block pointer.offset count⟩
      by_cases large : remaining + OVERFLOW_PAGE_HEADER_SIZE > PAGE_SIZE
      · have split : remaining = PAGE_SIZE - OVERFLOW_PAGE_HEADER_SIZE +
          (remaining - (PAGE_SIZE - OVERFLOW_PAGE_HEADER_SIZE)) := by
          simp only [PAGE_SIZE, OVERFLOW_PAGE_HEADER_SIZE] at large ⊢
          omega
        simp only [OverflowPage.writeChunkOverflow, if_pos large]
        rw [split, Pointer.read_advance, ← split]
        refine (ih (by simp only [PAGE_SIZE, OVERFLOW_PAGE_HEADER_SIZE]; omega) (by simp)
          (by simp [Page.Linkable]) _ _).imp ?_
        intro _ st' turns
        refine turns.turn (stored (PAGE_SIZE - OVERFLOW_PAGE_HEADER_SIZE)) below (by simp) (by simp) ?_
          (nonempty _ (by decide)) ?_ rfl (by simp) (by simp)
        · intro other
          by_cases fresh : other = st.newPageOffsetIndex
          · simp [fresh, stored]
          · simp [fresh, apart]
        · simp [stored, Pointer.read, Memory.read_copy_same]
      · have whole : remaining = remaining + 0 := rfl
        have small : u16 remaining = remaining :=
          u16_eq rfl (by simp only [PAGE_SIZE, OVERFLOW_PAGE_HEADER_SIZE] at large; omega)
        simp only [OverflowPage.writeChunkOverflow, if_neg large, small, Nat.sub_self]
        rw [whole, Pointer.read_advance]
        refine (ih (by omega) (by simp) (by simp [Page.Linkable]) _ _).imp ?_
        intro _ st' turns
        refine turns.turn (stored remaining) below (by simp) (by simp) ?_
          (nonempty _ some_left) ?_ rfl ?_ (by simp [Pointer.read])
        · intro other
          by_cases fresh : other = st.newPageOffsetIndex
          · simp [fresh, stored]
          · simp [fresh, apart]
        · simp [stored, Pointer.read, Memory.read_copy_same]
        · simp only [Pointer.length_read, PAGE_SIZE, OVERFLOW_PAGE_HEADER_SIZE] at large ⊢
          omega
    · obtain rfl : remaining = 0 := by omega
      simp only [writeOverflowPages, gt_iff_lt, Nat.lt_irrefl, ite_false, ran_pure]
      exact ⟨rfl, Nat.le_refl _, fun _ _ _ => rfl, .inl ⟨rfl, rfl⟩⟩

/-! ### The tuple in the leaf -/

theorem read_buffer {buffer : List Byte} {count : Nat} (inside : count ≤ buffer.length) :
    (Pointer.ofBuffer buffer).read count = buffer.take count := Memory.read_ofList_prefix buffer count inside

theorem read_buffer_rest {buffer : List Byte} {count : Nat} (inside : count ≤ buffer.length) :
    ((Pointer.ofBuffer buffer).advance count).read (buffer.length - count) = buffer.drop count := by
  simp only [Pointer.ofBuffer, Pointer.advance, Pointer.read, Nat.zero_add]
  rw [Memory.read_ofList_range _ _ _ (by omega), List.take_of_length_le (by simp)]

/-- The tuple a new buffer starts as: a header without overflow and its first bytes. -/
def freshTuple (buffer : List Byte) (chunk : Nat) : List Byte :=
  headerBytes buffer.length none ++ (Pointer.ofBuffer buffer).read chunk

theorem keyOf_freshTuple {buffer : List Byte} {chunk : Nat} (least : SIZEOF_KEY ≤ chunk)
    (inside : chunk ≤ buffer.length) :
    keyOf (freshTuple buffer chunk) = payloadKey buffer := by
  rw [freshTuple, keyOf_append (by simp), read_buffer inside, List.take_take, Nat.min_eq_left least,
    payloadKey]

theorem headerOf_whole {buffer : List Byte} (size : buffer.length < 4294967296) (chunk : Nat) :
    headerOf (freshTuple buffer chunk) = ⟨0, 0, buffer.length⟩ := by
  rw [freshTuple, headerBytes, u32_eq size]
  exact headerOf_encode (by simp) (by simp) size

theorem freshTuple_linked {buffer : List Byte} (size : buffer.length < 4294967296) (chunk next : Nat) :
    withOverflow 1 next (freshTuple buffer chunk) = TupleHeader.encode ⟨1, next, buffer.length⟩ ++
      (Pointer.ofBuffer buffer).read chunk := by
  rw [freshTuple, headerBytes, u32_eq size, withOverflow_encode]

theorem headerOf_linked {buffer : List Byte} (size : buffer.length < 4294967296) (chunk : Nat) {next : Nat}
    (fits : next < 18446744073709551616) :
    headerOf (withOverflow 1 next (freshTuple buffer chunk)) = ⟨1, next, buffer.length⟩ := by
  rw [freshTuple_linked size]
  exact headerOf_encode (by simp) fits size

theorem spells_whole {pages : Nat → Page} {bound : Nat} {buffer : List Byte}
    (size : buffer.length < 4294967296) :
    Spells pages bound (freshTuple buffer buffer.length) buffer := by
  have header := headerOf_whole size buffer.length
  refine ⟨by rw [header], [], ?_, .inl ⟨by rw [header], rfl⟩⟩
  rw [freshTuple, List.drop_left' (by simp), read_buffer (Nat.le_refl _), List.take_length, List.append_nil]

theorem owned_whole {pages : Nat → Page} {buffer : List Byte} (size : buffer.length < 4294967296) :
    Owned pages (freshTuple buffer buffer.length) [] := by
  have header := headerOf_whole size buffer.length
  apply Owned.whole
  · rw [header]
  · rw [header, freshTuple, List.drop_left' (by simp), Pointer.length_read]

theorem spells_linked {pages : Nat → Page} {bound : Nat} {buffer : List Byte}
    (size : buffer.length < 4294967296) {chunk next : Nat}
    (inside : chunk ≤ buffer.length) (fits : next < 18446744073709551616)
    (chain : Chained pages bound next (buffer.drop chunk)) :
    Spells pages bound (withOverflow 1 next (freshTuple buffer chunk)) buffer := by
  have header := headerOf_linked size chunk fits
  refine ⟨by rw [header], buffer.drop chunk, ?_,
    .inr ⟨by rw [header]; exact Nat.one_pos, by rw [header]; exact chain⟩⟩
  rw [freshTuple_linked size, List.drop_left' (by simp [TupleHeader.encode, TUPLE_HEADER_SIZE]),
    read_buffer inside, List.take_append_drop]

theorem owned_linked {pages : Nat → Page} {buffer : List Byte} (size : buffer.length < 4294967296)
    {chunk next : Nat} {ids : List Nat}
    (inside : chunk ≤ buffer.length) (fits : next < 18446744073709551616)
    (strung : Strung pages next ids (buffer.drop chunk).length) :
    Owned pages (withOverflow 1 next (freshTuple buffer chunk)) ids := by
  have header := headerOf_linked size chunk fits
  refine .chained (by rw [header]; exact Nat.one_pos) (by rw [header]; exact strung) ?_
  rw [header, freshTuple_linked size, List.drop_left' (by simp [TupleHeader.encode, TUPLE_HEADER_SIZE]),
    Pointer.length_read, List.length_drop]
  exact (Nat.add_sub_of_le inside).symm

end Datashil
