import Datashil.Proofs.Restart
import Datashil.Proofs.Visits

/-! The database file from one start of the server to the next, with the clients that come and go in
between. Everything that is answered is answered from one finite map. -/

namespace Datashil
open Library Server BTree

inductive Arrives : List Visit → List Arrival → Prop
  | nil : Arrives [] []
  | interrupted {visits : List Visit} {arrivals : List Arrival} (arrives : Arrives visits arrivals) :
      Arrives visits (.interrupted :: arrivals)
  | visit {visit : Visit} {visits : List Visit} {arrivals : List Arrival} {delivery : Delivery}
      (proper : visit.Proper) (ends : delivery.Ends)
      (arrives : Arrives visits arrivals) :
        Arrives (visit :: visits) (.connection (visit.deliveries ++ [delivery]) :: arrivals)

def Server.opening (storage : Storage Page) : Server :=
  ⟨BTree.unopened storage.bootstrap, false, [], [], 0, []⟩

/-- The file after any number of runs of the server, with the queries of all connections so far. The
pool has served all calls of the tree, and writes of its destructor succeed. Writes to clients may
fail unless the network is reliable. -/
inductive Operated (reliable : Prop) : List (List Query) → Storage Page → Prop
  | created : Operated reliable [] .created
  | stopped {asked : List (List Query)} {storage : Storage Page} {visits : List Visit}
      {arrivals : List Arrival} {environment : Environment}
      {fuel : Nat} {exit : Exit} {server : Server} {frames : Nat → Page} {session : Session Page}
      (operated : Operated reliable asked storage)
      (arrives : Arrives visits arrivals) (responsive : reliable → Responsive environment)
      (enough : ∀ visit ∈ visits, visit.queries.length < fuel)
      (ended : (do bootstrap; runServer environment fuel (arrivals ++ [Arrival.stopped]))
        (opening storage) = .ok exit server)
      (hosted : Hosted (BTree.unopened storage.bootstrap)
        (.start storage.bootstrap frames) server.btree session) :
      Operated reliable (asked ++ visits.map Visit.queries) (session.pool.destroy fun _ => .whole)

abbrev Achieved (reliable : Prop) : List (List Query) → List (List Query) → Prop :=
  List.Forall₂ (Achieves reliable)

variable {environment : Environment} {server : Server} {queries more : List Query}
    {asked performed : List (List Query)} {contents : Contents}
  {st st' : BTree} {storage : Storage Page} {visits : List Visit} {arrivals last : List Arrival}
  {current : Visit} {fuel : Nat} {frames : Nat → Page}
  {reliable stronger : Prop}

theorem Achieves.single {query : Query} {performed : List Query}
    (achieves : Achieves reliable [query] performed) :
    performed = [] ∨ performed = [query] := by
  cases performed with
  | nil => exact .inl rfl
  | cons first performed =>
    obtain ⟨rfl, rest⟩ := List.cons_prefix_cons.mp achieves.first
    rw [List.prefix_nil.mp rest]
    exact .inr rfl

theorem Achieves.refl {asked : List Query} : Achieves reliable asked asked :=
  ⟨List.prefix_refl _, fun _ => rfl⟩

namespace Achieved

theorem refl (asked : List (List Query)) : Achieved reliable asked asked :=
  List.forall₂_same.mpr fun _ _ => .refl

theorem weaken (achieved : Achieved stronger asked performed) (implies : reliable → stronger) :
    Achieved reliable asked performed :=
  achieved.imp fun _ _ achieves => ⟨achieves.first, fun known => achieves.all (implies known)⟩

theorem append {more performed' : List (List Query)} (achieved : Achieved reliable asked performed)
    (later : Achieved reliable more performed') :
    Achieved reliable (asked ++ more) (performed ++ performed') := List.rel_append achieved later

theorem eq (achieved : Achieved reliable asked performed) (known : reliable) : performed = asked := by
  induction achieved with
  | nil => rfl
  | cons first _ ih => rw [first.all known, ih]

theorem length (achieved : Achieved reliable asked performed) :
    performed.flatten.length ≤ asked.flatten.length := by
  induction achieved with
  | nil => exact Nat.le_refl _
  | cons first _ ih =>
    rw [List.flatten_cons, List.flatten_cons, List.length_append, List.length_append]
    exact Nat.add_le_add first.first.length_le ih

end Achieved

/-! ### A run of the server -/

/-- Whatever is performed of some queries, the operations are in order. -/
def Sequenced (reliable : Prop) (contents : Contents) (asked : List (List Query)) : Prop :=
  ∀ performed, Achieved reliable asked performed →
    Fresh contents (performed.flatten.filterMap Query.operation)

namespace Sequenced
variable {more : List (List Query)}

theorem here (sequenced : Sequenced reliable contents (asked ++ more)) :
    Sequenced reliable contents asked := by
  intro performed achieved
  have fresh := sequenced _ (achieved.append (.refl more))
  rw [List.flatten_append, List.filterMap_append] at fresh
  exact (fresh_append.mp fresh).1

theorem later (sequenced : Sequenced reliable contents (asked ++ more))
    (achieved : Achieved reliable asked performed) :
    Sequenced reliable (contents.served performed.flatten) more := by
  intro performed' achieved'
  have fresh := sequenced _ (achieved.append achieved')
  rw [List.flatten_append, List.filterMap_append] at fresh
  exact (fresh_append.mp fresh).2

theorem strengthen (sequenced : Sequenced reliable contents asked) (implies : reliable → stronger) :
    Sequenced stronger contents asked :=
  fun _ achieved => sequenced _ (achieved.weaken implies)

theorem one {asked : List Query} (sequenced : Sequenced reliable contents [asked]) :
    Fresh contents (asked.filterMap Query.operation) := by
  have fresh := sequenced [asked] (.refl _)
  rwa [List.flatten_singleton] at fresh

end Sequenced

/-- Clients come and go; the server is left with a tree that stands for what they have done. -/
theorem Arrives.attended {post : Exit → Server → Prop} (arrives : Arrives visits arrivals)
    (upholds : Upholds server.btree contents)
    (sequenced : Sequenced (Responsive environment) contents (visits.map Visit.queries))
    (enough : ∀ visit ∈ visits, visit.queries.length < fuel)
    (room : server.btree.newPageOffsetIndex + MOST_PAGES * (visits.map Visit.queries).flatten.length ≤
      18446744073709551616)
    (later : ∀ performed middle, Achieved (Responsive environment) (visits.map Visit.queries) performed →
      Continues performed.flatten.length (contents.served performed.flatten) server.btree middle.btree →
      Ran (runServer environment fuel last) middle post) :
      Ran (runServer environment fuel (arrivals ++ last)) server post := by
  induction arrives generalizing server contents with
  | nil => exact later [] server .nil (.refl upholds)
  | interrupted arrives ih => exact ih upholds sequenced enough room later
  | @visit visit visits arrivals delivery proper ends arrives ih =>
    rw [List.map_cons, List.flatten_cons, List.length_append] at room
    rw [List.map_cons, ← List.singleton_append] at sequenced
    have here : server.btree.newPageOffsetIndex + MOST_PAGES * visit.queries.length ≤
        18446744073709551616 := by
      rw [Nat.mul_add] at room
      omega
    rw [List.cons_append, runServer, ran_bind, accept, ran_modify, ran_bind, handleClient, ran_bind,
      ran_modify]
    have ran := @Visit.Proper.attended environment { server with connected := true, sent := [] }
      contents fuel visit proper upholds
      sequenced.here.one here (enough visit (.head _))
    rw [handleClient, ran_bind, ran_modify] at ran
    apply (readLoop_left ends ran).imp
    intro exit middle left
    obtain ⟨rfl, first, achieves, attended⟩ := left
    have grows := attended.continues.grows
    have shorter := achieves.first.length_le
    have started : Achieved (Responsive environment) [visit.queries] [first] := .cons achieves .nil
    have rest := sequenced.later started
    rw [List.flatten_singleton] at rest
    have left : middle.btree.newPageOffsetIndex +
        MOST_PAGES * (visits.map Visit.queries).flatten.length ≤ 18446744073709551616 := by
      have less := Nat.mul_le_mul_left MOST_PAGES shorter
      rw [Nat.mul_add] at room
      simp only at grows
      omega
    apply ih attended.continues.upholds rest (fun visit member => enough visit (.tail _ member)) left
    intro performed final achieved continues
    apply later (first :: performed) final (.cons achieves achieved)
    rw [List.flatten_cons, List.length_append, Contents.served_append]
    exact attended.continues.trans continues

/-! ### The file -/

structure Preserves (storage : Storage Page) (queries : List Query) : Prop where
  resumes : Resumes storage (Contents.empty.served queries)
  small : (Contents.empty.served queries).Small
  index : storage.storedIndex ≤ 3 + MOST_PAGES * queries.length

theorem Preserves.opened (preserves : Preserves storage queries) :
    Ran bootstrap (opening storage) fun _ server =>
    Upholds server.btree (Contents.empty.served queries) ∧
      Guarded 13 (BTree.unopened storage.bootstrap) server.btree ∧
      server.btree.newPageOffsetIndex ≤ 3 + MOST_PAGES * queries.length := by
  refine (@liftTree_ran (opening storage) _ _ _ preserves.resumes.construct).imp fun _ server opened => ?_
  obtain ⟨⟨guarded, rests, few⟩, -⟩ := opened
  have index := preserves.index
  exact ⟨⟨rests, preserves.small⟩, guarded.weaken (by decide), by omega⟩

structure Runs (storage : Storage Page) (queries : List Query) (st : BTree) : Prop where
  upholds : Upholds st (Contents.empty.served queries)
  guarded : Guarded 13 (BTree.unopened storage.bootstrap) st
  index : st.newPageOffsetIndex ≤ 3 + MOST_PAGES * queries.length

theorem Preserves.runs {post : Exit → Server → Prop} (preserves : Preserves storage queries)
    (arrives : Arrives visits arrivals)
    (enough : ∀ visit ∈ visits, visit.queries.length < fuel)
    (sequenced : Sequenced (Responsive environment) (Contents.empty.served queries)
      (visits.map Visit.queries))
    (few : 3 + MOST_PAGES * (queries.length + (visits.map Visit.queries).flatten.length) ≤
      18446744073709551616)
    (later : ∀ performed middle, Achieved (Responsive environment) (visits.map Visit.queries) performed →
      Runs storage (queries ++ performed.flatten) middle.btree →
        Ran (runServer environment fuel last) middle post) :
    Ran (do bootstrap; runServer environment fuel (arrivals ++ last)) (opening storage) post := by
  rw [Nat.mul_add] at few
  rw [ran_bind]
  apply preserves.opened.imp
  intro _ server opened
  obtain ⟨upholds, guarded, index⟩ := opened
  apply arrives.attended upholds sequenced enough (by omega)
  intro performed middle achieved continues
  have grows := continues.grows
  have shown := continues.upholds
  rw [← Contents.served_append] at shown
  apply later performed middle achieved
  refine ⟨shown, guarded.trans continues.guarded, ?_⟩
  rw [List.length_append, Nat.mul_add]
  omega

/-- The server can be stopped at any time. -/
theorem Preserves.stops (preserves : Preserves storage queries) (arrives : Arrives visits arrivals)
    (enough : ∀ visit ∈ visits, visit.queries.length < fuel)
    (sequenced : Sequenced (Responsive environment) (Contents.empty.served queries)
      (visits.map Visit.queries))
    (few : 3 + MOST_PAGES * (queries.length + (visits.map Visit.queries).flatten.length) ≤
      18446744073709551616) :
    Ran (do bootstrap; runServer environment fuel (arrivals ++ [Arrival.stopped])) (opening storage)
      fun _ server =>
      ∃ performed, Achieved (Responsive environment) (visits.map Visit.queries) performed ∧
        Runs storage (queries ++ performed.flatten) server.btree :=
  preserves.runs arrives enough sequenced few fun performed _ achieved runs =>
    ran_pure.mpr ⟨performed, achieved, runs⟩

/-- A run that is stopped leaves what it has come to in the file. -/
theorem Runs.closed (runs : Runs storage queries st) {session : Session Page}
    (hosted : Hosted (BTree.unopened storage.bootstrap) (.start storage.bootstrap frames) st session) :
    Preserves (session.pool.destroy fun _ => .whole) queries := by
  obtain ⟨⟨⟨h, tree, resting⟩, small⟩, guarded, index⟩ := runs
  have running : Running storage st tree (Contents.empty.served queries) := ⟨guarded, resting⟩
  have saves := running.saves hosted
  exact ⟨.inr ⟨_, h, tree, resting, saves⟩, small, saves.storedIndex ▸ index⟩

/-- The pool serves all calls of the tree during a run. -/
theorem Runs.hosted (runs : Runs storage queries st) (preserves : Preserves storage more)
    (frames : Nat → Page) :
    ∃ session, Hosted (BTree.unopened storage.bootstrap) (.start storage.bootstrap frames) st session := by
  obtain ⟨some, blank⟩ := preserves.resumes.blank
  obtain ⟨session, hosted, -⟩ := runs.guarded.hosted (mirrors_start frames) (by decide)
    (fun pid member => absurd member (Multiset.notMem_zero pid))
    some blank
  exact ⟨session, hosted⟩

theorem Operated.preserves (operated : Operated reliable asked storage)
    (sequenced : Sequenced reliable .empty asked)
    (few : 3 + MOST_PAGES * asked.flatten.length ≤ 18446744073709551616) :
    ∃ performed, Achieved reliable asked performed ∧ Preserves storage performed.flatten := by
  induction operated with
  | created => exact ⟨[], .nil, .inl ⟨rfl, rfl⟩, nofun, by decide⟩
  | stopped operated arrives responsive enough ended hosted ih =>
    rw [List.flatten_append, List.length_append] at few
    rw [Nat.mul_add] at few
    obtain ⟨performed, achieved, preserves⟩ := ih sequenced.here (by omega)
    have shorter := Nat.mul_le_mul_left MOST_PAGES achieved.length
    have stopped := preserves.stops arrives enough ((sequenced.later achieved).strengthen responsive)
      (by rw [Nat.mul_add]; omega)
    obtain ⟨performed', achieved', runs⟩ := stopped.elim ended
    refine ⟨performed ++ performed', achieved.append (achieved'.weaken responsive), ?_⟩
    rw [List.flatten_append]
    exact runs.closed hosted

theorem Trailing.nil : Trailing [] :=
  @Trailing.parted searchQuery _ _ (by decide) (List.nil_append _) (encode_ne_nil _)

def storeQuery : Query := ⟨true, .insert, 7, [ascii "a"]⟩

theorem sendable_storeQuery : Sendable storeQuery :=
  ⟨⟨by decide, by decide⟩, by decide, by decide, fun _ => by decide⟩

theorem sendable_searchQuery : Sendable searchQuery := ⟨⟨by decide, by decide⟩, by decide, by decide, nofun⟩

theorem admits_storeQuery : Admits .empty (.insert storeQuery.buffer 7) :=
  ⟨⟨by decide, by decide, by decide⟩, rfl⟩

end Datashil
