import Datashil.Proofs.CleanCuts
import Datashil.Proofs.Reading

/-! Histories of operations whose keys are inserted only while they are absent: the
tree object stands for the finite map of the present keys throughout. -/

namespace Datashil
open Library LeafPage BTree Datashil.Tree

/-- The payloads of a map: one for each present key. -/
structure Lists (payloads : List (List Byte)) (contents : Contents) : Prop where
  distinct : (payloads.map payloadKey).Nodup
  mem : ∀ key payload, contents key = some payload ↔ payload ∈ payloads ∧ payloadKey payload = key

def Keeps (st : BTree) {h : Nat} (tree : Tree h) (contents : Contents) : Prop :=
  ∃ payloads, Stores (· < ·) st tree payloads ∧ Lists payloads contents

/-- Keys are inserted only while they are absent, with buffers that can be stored. -/
def Admits (contents : Contents) : Operation → Prop
  | .insert buffer key => Storable buffer key ∧ contents key = none
  | _ => True

def Fresh : Contents → List Operation → Prop
  | _, [] => True
  | contents, operation :: operations =>
    Admits contents operation ∧ Fresh (contents.apply operation) operations

def keyBuffer (key : Nat) : List Byte := LittleEndian.encode SIZEOF_KEY key

theorem storable_keyBuffer {key : Nat} (small : key < KEY_LIMIT) : Storable (keyBuffer key) key := by
  have size : (keyBuffer key).length = SIZEOF_KEY := LittleEndian.length_encode ..
  refine ⟨Nat.le_of_eq size.symm, ?_, ?_⟩
  · rw [size]
    decide
  · rw [payloadKey, List.take_of_length_le (Nat.le_of_eq size)]
    exact LittleEndian.decode_encode_of_lt small

def paddedBuffer (key size : Nat) : List Byte := keyBuffer key ++ List.replicate (size - SIZEOF_KEY) 0

theorem storable_paddedBuffer {key size : Nat} (small : key < KEY_LIMIT)
    (most : size < 4294967296 - SLOT_SIZE - TUPLE_HEADER_SIZE) :
    Storable (paddedBuffer key size) key := by
  have short := storable_keyBuffer small
  have length : (keyBuffer key).length = SIZEOF_KEY := LittleEndian.length_encode ..
  have whole : (paddedBuffer key size).length = SIZEOF_KEY + (size - SIZEOF_KEY) := by
    rw [paddedBuffer, List.length_append, length, List.length_replicate]
  refine ⟨?_, ?_, ?_⟩
  · rw [whole]
    exact Nat.le_add_right _ _
  · rw [whole]
    simp only [SIZEOF_KEY, SLOT_SIZE, TUPLE_HEADER_SIZE] at most ⊢
    omega
  · have front : (paddedBuffer key size).take SIZEOF_KEY = (keyBuffer key).take SIZEOF_KEY := by
      rw [paddedBuffer, ← length, List.take_left, List.take_length]
    rw [payloadKey, front]
    exact short.keyed

/-- Six of the largest tuples in two leaves, a payload with an overflow chain, a deletion, reads of
both kinds of payload in pieces, and a key that comes back. -/
def firstRun : List Usage :=
  ([10, 20, 30, 40, 50, 60].map fun key => .insert (paddedBuffer key 795) key) ++
    [.insert (paddedBuffer 70 6000) 70, .delete 20, .read 40 [3, 800], .read 70 [100, 4078, 5000],
      .insert (keyBuffer 20) 20]

def varied : List Operation := firstRun.map Usage.operation

theorem fresh_varied : Fresh .empty varied := by
  have storable : ∀ key < KEY_LIMIT, Storable (paddedBuffer key 795) key :=
    fun key small => storable_paddedBuffer small (by decide)
  exact ⟨⟨storable 10 (by decide), rfl⟩, ⟨storable 20 (by decide), rfl⟩, ⟨storable 30 (by decide), rfl⟩,
    ⟨storable 40 (by decide), rfl⟩,
    ⟨storable 50 (by decide), rfl⟩, ⟨storable 60 (by decide), rfl⟩,
      ⟨storable_paddedBuffer (by decide) (by decide), rfl⟩, trivial, trivial,
    trivial, ⟨storable_keyBuffer (by decide), rfl⟩, trivial⟩

theorem fresh_append {contents : Contents} {first second : List Operation} :
    Fresh contents (first ++ second) ↔
    Fresh contents first ∧ Fresh (contents.applyAll first) second := by
  induction first generalizing contents with
  | nil => simp [Fresh, Contents.applyAll]
  | cons operation first ih => simp [Fresh, ih, Contents.applyAll, and_assoc]

/-! ### A new tree -/

def emptyLeaf (pid : Nat) : LeafPage := makePage (fun _ => 0) [] (fun _ => 0) pid 0 0

theorem construct_spec (cut : Nat → Nat → Prop) (bounds : cut 0 KEY_LIMIT) :
    Ran construct bootstrapped fun _ st => Stores cut st (h := 0) (emptyLeaf 2) [] := by
  have made : Made (emptyLeaf 2) [] :=
    makePage_spec (fun _ => 0) [] (fun _ => 0) 2 0 0 (by simp [FitLengths]) (by simp [tuplesOf])
    (by simp [liveBytes, LEAF_PAGE_HEADER_SIZE, PAGE_SIZE])
  have none : (emptyLeaf 2).tuples = [] := made.tuples_eq
  have last : RightLinked [emptyLeaf 2] 0 := ⟨rfl, trivial⟩
  refine ⟨(), _, rfl, ⟨rfl, rfl, rfl, by simp, ?_, ?_, fun _ => ?_, trivial⟩, ?_, fun _ => last, ?_⟩
  · intro pid inside
    obtain rfl : pid = 2 := List.mem_singleton.mp inside
    decide
  · intro leaf member
    obtain rfl : leaf = emptyLeaf 2 := by simpa using member
    exact made.valid
  · refine within_leaf.mpr ⟨bounds, ?_⟩
    rw [none]
    simp
  · intro leaf member
    obtain rfl : leaf = emptyLeaf 2 := by simpa using member
    exact .inl rfl
  · simp [Tree.tuples, none]

/-! ### Single operations -/

variable {st : BTree} {h : Nat} {tree : Tree h} {contents : Contents} {payloads : List (List Byte)}

theorem Stores.keys {cut : Nat → Nat → Prop} (stores : Stores cut st tree payloads) :
    tree.keys = payloads.map payloadKey := by
  have filed := stores.filed
  rw [Tree.keys]
  generalize tree.tuples = tuples at filed
  clear stores
  induction filed with
  | nil => rfl
  | cons head rest ih => rw [List.map_cons, List.map_cons, head.keyed, ih]

theorem Lists.none_iff (lists : Lists payloads contents) {key : Nat} :
    contents key = none ↔ ∀ payload ∈ payloads, payloadKey payload ≠ key := by
  constructor
  · intro none payload member keyed
    have some := (lists.mem key payload).mpr ⟨member, keyed⟩
    rw [none] at some
    cases some
  · intro absent
    cases found : contents key with
    | none => rfl
    | some payload =>
      obtain ⟨member, keyed⟩ := (lists.mem key payload).mp found
      exact absurd keyed (absent payload member)

theorem Lists.perm {payloads' : List (List Byte)} (lists : Lists payloads contents)
    (perm : payloads'.Perm payloads) :
    Lists payloads' contents :=
  ⟨(perm.map payloadKey).nodup_iff.mpr lists.distinct, fun key payload => by rw [lists.mem, perm.mem_iff]⟩

theorem Lists.insert {buffer : List Byte} {key : Nat} (lists : Lists payloads contents)
    (keyed : payloadKey buffer = key) (absent : contents key = none) :
    Lists (buffer :: payloads) (contents.apply (.insert buffer key)) := by
  have others := lists.none_iff.mp absent
  constructor
  · rw [List.map_cons, List.nodup_cons]
    refine ⟨fun member => ?_, lists.distinct⟩
    obtain ⟨payload, inside, same⟩ := List.mem_map.mp member
    exact others payload inside (same.trans keyed)
  · intro other payload
    simp only [Contents.apply]
    split
    next here =>
      subst here
      constructor
      · intro same
        cases same
        exact ⟨.head _, keyed⟩
      · rintro ⟨member, same⟩
        rcases List.mem_cons.mp member with rfl | inside
        · rfl
        · exact absurd same (others payload inside)
    next away =>
      rw [lists.mem]
      have different : payloadKey payload = other → payload ≠ buffer := by
        rintro same rfl
        exact away (same.symm.trans keyed)
      constructor
      · rintro ⟨member, same⟩
        exact ⟨.tail _ member, same⟩
      · rintro ⟨member, same⟩
        rcases List.mem_cons.mp member with inside | inside
        · exact absurd inside (different same)
        · exact ⟨inside, same⟩

theorem Lists.delete {gone kept : List (List Byte)} {key : Nat} (lists : Lists payloads contents)
    (perm : (gone ++ kept).Perm payloads)
    (taken : ∀ payload ∈ gone, payloadKey payload = key) (rest : ∀ payload ∈ kept, payloadKey payload ≠ key) :
    Lists kept (contents.apply (.delete key)) := by
  constructor
  · have distinct := (perm.map payloadKey).nodup_iff.mpr lists.distinct
    rw [List.map_append] at distinct
    exact (List.nodup_append.mp distinct).2.1
  · intro other payload
    simp only [Contents.apply]
    split
    next here =>
      subst here
      constructor
      · intro none
        cases none
      · rintro ⟨member, same⟩
        exact absurd same (rest payload member)
    next away =>
      rw [lists.mem, ← perm.mem_iff, List.mem_append]
      constructor
      · rintro ⟨member | member, same⟩
        · exact absurd (same.symm.trans (taken payload member)) away
        · exact ⟨member, same⟩
      · rintro ⟨member, same⟩
        exact ⟨.inr member, same⟩

theorem Stores.payload {cut : Nat → Nat → Prop} (stores : Stores cut st tree payloads)
    {tuple : List Byte} (member : tuple ∈ tree.tuples) :
    ∃ payload ∈ payloads, Filed st tuple payload := by
  have filed := stores.filed
  generalize tree.tuples = tuples at filed member
  clear stores
  induction filed with
  | nil => cases member
  | cons head rest ih =>
    rcases List.mem_cons.mp member with rfl | member
    · exact ⟨_, .head _, head⟩
    · obtain ⟨payload, inside, found⟩ := ih member
      exact ⟨payload, .tail _ inside, found⟩

theorem Stores.nonempty {cut : Nat → Nat → Prop} (stores : Stores cut st tree payloads)
    (addressable : Addressable st) {payload : List Byte}
    (member : payload ∈ payloads) : payload ≠ [] := by
  have long : ∀ tuple ∈ tree.tuples, TUPLE_HEADER_SIZE + SIZEOF_KEY ≤ tuple.length := by
    intro tuple inside
    obtain ⟨leaf, among, found⟩ := List.mem_flatMap.mp inside
    exact ((stores.represents.valid leaf among).length_tuple found).1
  have filed := stores.filed
  generalize tree.tuples = tuples at filed long
  clear stores
  induction filed with
  | nil => cases member
  | cons head rest ih =>
    rcases List.mem_cons.mp member with rfl | member
    · obtain ⟨suffix, whole, -⟩ := (head.spells addressable).content
      have := long _ (.head _)
      intro none
      have := congrArg List.length (none.symm.trans whole)
      simp only [List.length_nil, List.length_append, List.length_drop, TUPLE_HEADER_SIZE, SIZEOF_KEY] at *
      omega
    · exact ih member fun tuple inside => long tuple (.tail _ inside)

/-- Where equal keys stay together, a leaf that a key belongs to has all tuples with the key. -/
theorem Represents.located_tuples (represents : Represents (· < ·) st tree) {page : LeafPage}
    {key : Nat} (member : page ∈ tree.leaves)
    (located : Located key page.pageId tree) {tuple : List Byte} (inside : tuple ∈ tree.tuples)
    (keyed : keyOf tuple = key) :
    tuple ∈ page.tuples := by
  obtain ⟨first, leaf, second, split, named, below, above⟩ :=
    (represents.within Cut.strict).split_leaves Cut.strict located
  obtain rfl : leaf = page := leaf_unique represents.nodup (by rw [split]; simp) member named
  obtain ⟨other, among, found⟩ := List.mem_flatMap.mp inside
  rw [split] at among
  rcases List.mem_append.mp among with before | here
  · exact absurd keyed (Nat.ne_of_lt (below other before tuple found))
  rcases List.mem_cons.mp here with rfl | after
  · exact found
  · exact absurd keyed (Nat.ne_of_gt (above other after tuple found))

theorem mem_tuples {page : LeafPage} (member : page ∈ tree.leaves) {tuple : List Byte}
    (inside : tuple ∈ page.tuples) : tuple ∈ tree.tuples :=
  List.mem_flatMap.mpr ⟨page, member, inside⟩

theorem Stores.absent_of_located (stores : Stores (· < ·) st tree payloads) {page : LeafPage}
    {key : Nat} (member : page ∈ tree.leaves)
    (located : Located key page.pageId tree) (absent : ∀ tuple ∈ page.tuples, keyOf tuple ≠ key) :
    ∀ payload ∈ payloads, payloadKey payload ≠ key := by
  intro payload inside keyed
  have among : key ∈ tree.keys := by
    rw [stores.keys]
    exact List.mem_map.mpr ⟨payload, inside, keyed⟩
  obtain ⟨tuple, found, same⟩ := List.mem_map.mp among
  exact absent tuple (stores.represents.located_tuples member located found same) same

/-- A search finds a payload with its key, or there is none in the leaf it arrives at. -/
theorem Stores.searches {cut : Nat → Nat → Prop} (stores : Stores cut st tree payloads) (key : Nat) :
    Ran (BTree.search key) st fun stream st' => st.Agrees st' ∧
      ((∃ leaf ∈ tree.leaves, Located key leaf.pageId tree ∧ (∀ tuple ∈ leaf.tuples, keyOf tuple ≠ key) ∧
          stream.Yields st.pages st.newPageOffsetIndex []) ∨
        ∃ payload ∈ payloads, payloadKey payload = key ∧
          (Addressable st → stream.Yields st.pages st.newPageOffsetIndex payload)) := by
  have represents := stores.represents
  simp only [BTree.search, ran_bind, ran_get, represents.root]
  refine (searchFrom_spec _ represents.fuel represents.holds).imp ?_
  rintro _ st' ⟨agrees, leaf, member, located, rfl⟩
  refine ⟨agrees, ?_⟩
  rcases leaf.stream_spec (represents.valid leaf member) (represents.holds.leaf member) key with
    ⟨absent, nothing⟩ | ⟨first, tuple, second, found, yields⟩
  · exact .inl ⟨leaf, member, located, absent, nothing⟩
  · have inside : tuple ∈ leaf.tuples := by
      rw [found.1]
      simp
    obtain ⟨payload, among, filed⟩ := stores.payload (mem_tuples member inside)
    exact .inr ⟨payload, among, filed.keyed.symm.trans found.2.1, fun addressable =>
      yields payload (filed.spells addressable)⟩

/-- Where equal keys stay together, it finds one if there is one. -/
theorem Stores.search (stores : Stores (· < ·) st tree payloads) (key : Nat) :
    Ran (BTree.search key) st fun stream st' => st.Agrees st' ∧
      (((∀ payload ∈ payloads, payloadKey payload ≠ key) ∧ stream.Yields st.pages st.newPageOffsetIndex []) ∨
        ∃ payload ∈ payloads, payloadKey payload = key ∧
          (Addressable st → stream.Yields st.pages st.newPageOffsetIndex payload)) := by
  refine (stores.searches key).imp fun stream st' searched => ⟨searched.1, searched.2.imp_left ?_⟩
  rintro ⟨leaf, member, located, absent, nothing⟩
  exact ⟨stores.absent_of_located member located absent, nothing⟩

theorem insert_keeps (keeps : Keeps st tree contents) {buffer : List Byte} {key : Nat}
    (storable : Storable buffer key)
    (absent : contents key = none) :
    Ran (BTree.insert buffer key) st fun result st' =>
      result = true ∧ ∃ (h' : Nat) (tree' : Tree h'), Inserted (· < ·) key buffer st st' tree tree' ∧
        Keeps st' tree' (contents.apply (.insert buffer key)) := by
  obtain ⟨payloads, stores, lists⟩ := keeps
  have distinct : tree.keys.Nodup := stores.keys ▸ lists.distinct
  refine (insert_spec .strict stores.represents storable fun _ =>
    splittable_strict stores.represents.valid distinct).imp ?_
  rintro result st' ⟨done, h', tree', inserted⟩
  obtain ⟨payloads', perm, stores'⟩ := inserted.stores stores storable.keyed
  exact ⟨done, h', tree', inserted, payloads', stores', (lists.insert storable.keyed absent).perm perm⟩

theorem delete_keeps (keeps : Keeps st tree contents) (key : Nat) :
    Ran (BTree.delete (fun _ => 0) key) st fun result st' =>
      result = (tree.report key).success ∧ ∃ (h' : Nat) (tree' : Tree h'),
        Reduced (· < ·) key st st' tree tree' ∧
        Keeps st' tree' (contents.apply (.delete key)) := by
  obtain ⟨payloads, stores, lists⟩ := keeps
  have represents := stores.represents
  have distinct : tree.keys.Nodup := stores.keys ▸ lists.distinct
  have clean : CleanDelete (· < ·) key tree :=
    cleanDelete_strict (represents.within Cut.strict) represents.valid distinct
  refine (delete_spec .strict represents stores.known clean).imp ?_
  rintro result st' ⟨done, h', tree', reduced⟩
  refine ⟨done, h', tree', reduced, ?_⟩
  obtain ⟨page, member, located, removed, gone, kept, takes, filed, perm, stores'⟩ := reduced.stores stores
  refine ⟨kept, stores', ?_⟩
  cases takes with
  | nothing absent clean =>
    cases filed
    have none := stores.absent_of_located member located absent
    exact lists.delete perm (by simp) fun payload inside =>
      none payload (perm.mem_iff.mp (by simpa using inside))
  | first inside keyed dirty =>
    obtain ⟨⟩ | ⟨found, ⟨⟩⟩ := filed
    have gone := found.keyed.symm.trans keyed
    refine lists.delete perm (by simpa using gone) fun payload among same => ?_
    have apart := (perm.map payloadKey).nodup_iff.mpr lists.distinct
    rw [List.singleton_append, List.map_cons, List.nodup_cons] at apart
    exact apart.1 (List.mem_map.mpr ⟨payload, among, same.trans gone.symm⟩)

theorem search_keeps (keeps : Keeps st tree contents) (key : Nat) :
    Ran (BTree.search key) st fun stream st' =>
      st.Agrees st' ∧ Keeps st' tree contents ∧
        (contents key = none ∨ Addressable st →
          stream.Yields st.pages st.newPageOffsetIndex ((contents key).getD [])) := by
  obtain ⟨payloads, stores, lists⟩ := keeps
  refine (stores.search key).imp ?_
  rintro stream st' ⟨agrees, found⟩
  refine ⟨agrees, ⟨payloads, stores.agrees agrees, lists⟩, fun known => ?_⟩
  rcases found with ⟨absent, nothing⟩ | ⟨payload, member, keyed, yields⟩
  · rw [lists.none_iff.mpr absent]
    exact nothing
  · have present := (lists.mem key payload).mpr ⟨member, keyed⟩
    rw [present]
    exact yields (known.resolve_left (by simp [present]))

/-! ### Histories -/

theorem perform_keeps {operation : Operation} (keeps : Keeps st tree contents)
    (admits : Admits contents operation) :
    Ran (perform operation) st fun _ st' => ∃ (h' : Nat) (tree' : Tree h'),
      Keeps st' tree' (contents.apply operation) := by
  cases operation with
  | insert buffer key =>
    refine ran_bind.mpr ((insert_keeps keeps admits.1 admits.2).imp fun result st' inserted =>
      ran_pure.mpr ?_)
    obtain ⟨-, h', tree', -, keeps⟩ := inserted
    exact ⟨h', tree', keeps⟩
  | delete key =>
    refine ran_bind.mpr ((delete_keeps keeps key).imp fun result st' deleted => ran_pure.mpr ?_)
    obtain ⟨-, h', tree', -, keeps⟩ := deleted
    exact ⟨h', tree', keeps⟩
  | search key =>
    refine ran_bind.mpr ((search_keeps keeps key).imp fun stream st' searched => ran_pure.mpr ?_)
    exact ⟨h, tree, searched.2.1⟩

/-- What every operation keeps is kept by all of them. -/
theorem performAll_invariant (invariant : BTree → Contents → Prop)
    (step : ∀ st contents operation, invariant st contents → Admits contents operation →
      Ran (perform operation) st fun _ st' => invariant st' (contents.apply operation))
    (operations : List Operation) (holds : invariant st contents) (fresh : Fresh contents operations) :
    Ran (performAll operations) st fun _ st' => invariant st' (contents.applyAll operations) := by
  induction operations generalizing st contents with
  | nil => exact ran_pure.mpr holds
  | cons operation operations ih =>
    simp only [performAll, ran_bind, ran_pure]
    exact (step st contents operation holds fresh.1).imp fun _ st' holds => ih holds fresh.2

theorem performAll_keeps (operations : List Operation) (keeps : Keeps st tree contents)
    (fresh : Fresh contents operations) :
    Ran (performAll operations) st fun _ st' => ∃ (h' : Nat) (tree' : Tree h'),
      Keeps st' tree' (contents.applyAll operations) := by
  refine performAll_invariant (fun st contents => ∃ (h : Nat) (tree : Tree h), Keeps st tree contents)
    ?_ operations ⟨h, tree, keeps⟩ fresh
  intro st contents operation keeps admits
  obtain ⟨h, tree, keeps⟩ := keeps
  exact perform_keeps keeps admits

theorem construct_keeps : Ran construct bootstrapped fun _ st => Keeps st (h := 0) (emptyLeaf 2) .empty :=
  (construct_spec (· < ·) (by decide)).imp fun _ _ stores => ⟨[], stores, by simp, by simp [Contents.empty]⟩

/-- Any history that inserts only absent keys runs to its end and leaves the map it describes. -/
theorem run_keeps (operations : List Operation) (fresh : Fresh .empty operations) :
    Ran (run operations) bootstrapped fun _ st => ∃ (h : Nat) (tree : Tree h),
      Keeps st tree (Contents.empty.applyAll operations) :=
  ran_bind.mpr (construct_keeps.imp fun _ _ keeps => performAll_keeps operations keeps fresh)

/-! ### Histories that are checked by running them -/

/-- Each operation passes a check where it happens, and the state after the last one has a property. -/
def Checked (check : BTree → Operation → Prop) (final : BTree → Prop) : List Operation → BTree → Prop
  | [], st => final st
  | operation :: operations, st =>
    check st operation ∧ Ran (perform operation) st fun _ st' => Checked check final operations st'

instance decidableChecked {check : BTree → Operation → Prop} {final : BTree → Prop}
    [∀ st operation, Decidable (check st operation)]
    [DecidablePred final] : ∀ (operations : List Operation) (st : BTree),
      Decidable (Checked check final operations st)
  | [], st => inferInstanceAs (Decidable (final st))
  | operation :: operations, st =>
    have : ∀ st', Decidable (Checked check final operations st') := decidableChecked operations
    inferInstanceAs (Decidable (check st operation ∧ Ran (perform operation) st fun _ st' =>
      Checked check final operations st'))

theorem Reaches.checked {allowed check : BTree → Operation → Prop} {final : BTree → Prop}
    (implies : ∀ st operation, check st operation → allowed st operation)
    {earlier later : List Operation} (reaches : Reaches allowed earlier st)
    (checked : Checked check final later st) :
    ∃ st', Reaches allowed (earlier ++ later) st' ∧ final st' := by
  induction later generalizing earlier st with
  | nil => exact ⟨st, by rwa [List.append_nil], checked⟩
  | cons operation later ih =>
    obtain ⟨passes, outcome, st₁, performed, checked⟩ := checked
    have through := ih (.step reaches (implies st operation passes) performed) checked
    rwa [List.append_assoc, List.singleton_append] at through

/-- A check of insertions by the leaf they end at; whether there are deletions. -/
def Fits (good : LeafPage → Nat → Prop) (deletes : Bool) (st : BTree) : Operation → Prop
  | .insert buffer key =>
    Storable buffer key ∧ ∀ leaf ∈ st.leafOf key, leaf.HasRoom buffer.length ∨ good leaf key
  | .delete _ => deletes = true
  | .search _ => True

instance (buffer : List Byte) (key : Nat) : Decidable (Storable buffer key) :=
  decidable_of_iff (SIZEOF_KEY ≤ buffer.length ∧
    buffer.length < 4294967296 - SLOT_SIZE - TUPLE_HEADER_SIZE ∧ payloadKey buffer = key)
    ⟨fun parts => ⟨parts.1, parts.2.1, parts.2.2⟩, fun storable =>
      ⟨storable.least, storable.most, storable.keyed⟩⟩

instance {good : LeafPage → Nat → Prop} [∀ leaf key, Decidable (good leaf key)] (deletes : Bool)
    (st : BTree) :
    ∀ operation, Decidable (Fits good deletes st operation)
  | .insert _ _ => inferInstanceAs (Decidable (_ ∧ _))
  | .delete _ => inferInstanceAs (Decidable (_ = _))
  | .search _ => inferInstanceAs (Decidable True)

end Datashil
