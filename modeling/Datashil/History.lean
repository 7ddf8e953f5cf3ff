import Datashil.BTree

/-! Operations on a tree object one after the other, and what is expected of them. -/

namespace Datashil

inductive Operation
  | insert (buffer : List Byte) (key : Nat)
  | delete (key : Nat)
  | search (key : Nat)

inductive Outcome
  | inserted (result : Bool)
  | deleted (result : Bool)
  | found (stream : PayloadStream)
  deriving DecidableEq, Repr

namespace BTree

/-- What the server calls. The locals of `Delete` that the source leaves unset start at 0 here;
`delete` takes what they hold as an argument. -/
def perform : Operation → TreeM Outcome
  | .insert buffer key => return .inserted (← insert buffer key)
  | .delete key => return .deleted (← delete (fun _ => 0) key)
  | .search key => return .found (← search key)

def performAll : List Operation → TreeM (List Outcome)
  | [] => return []
  | operation :: operations => do
    let outcome ← perform operation
    return outcome :: (← performAll operations)

def run (operations : List Operation) : TreeM (List Outcome) := do
  construct
  performAll operations

/-! ### Reading the tree -/

def leavesFrom (pages : Nat → Page) : (fuel pid : Nat) → List LeafPage
  | 0, _ => []
  | fuel + 1, pid =>
    match pages pid with
    | .leaf page => [page]
    | .internal page => page.children.flatMap (leavesFrom pages fuel)
    | _ => []

def pidsFrom (pages : Nat → Page) : (fuel pid : Nat) → List Nat
  | 0, _ => []
  | fuel + 1, pid =>
    match pages pid with
    | .leaf _ => [pid]
    | .internal page => pid :: page.children.flatMap (pidsFrom pages fuel)
    | _ => []

/-- The leaf page at which a search for a key below a page ends. -/
def leafFrom (pages : Nat → Page) (key : Nat) : (fuel pid : Nat) → Option LeafPage
  | 0, _ => none
  | fuel + 1, pid =>
    match pages pid with
    | .leaf page => some page
    | .internal page => leafFrom pages key fuel (page.getChildPageId key)
    | _ => none

def leaves (st : BTree) : List LeafPage := leavesFrom st.pages st.newPageOffsetIndex st.rootPageId

def pids (st : BTree) : List Nat := pidsFrom st.pages st.newPageOffsetIndex st.rootPageId

def leafOf (st : BTree) (key : Nat) : Option LeafPage :=
  leafFrom st.pages key st.newPageOffsetIndex st.rootPageId

end BTree

/-- The tree object after some operations on a new database, each of them allowed where it happens.
What is allowed may look at the state, so a run can be kept away from the inputs of a defect. -/
inductive Reaches (allowed : BTree → Operation → Prop) : List Operation → BTree → Prop
  | start {st : BTree} (constructed : BTree.construct BTree.bootstrapped = .ok () st) : Reaches allowed [] st
  | step {operations : List Operation} {operation : Operation} {outcome : Outcome} {st st' : BTree}
      (reaches : Reaches allowed operations st)
      (allows : allowed st operation) (performed : BTree.perform operation st = .ok outcome st') :
      Reaches allowed (operations ++ [operation]) st'

/-- What the server does with a tree: a search is followed by reads of the stream it returned. -/
inductive Usage
  | insert (buffer : List Byte) (key : Nat)
  | delete (key : Nat)
  | read (key : Nat) (sizes : List Nat)

def Usage.operation : Usage → Operation
  | .insert buffer key => .insert buffer key
  | .delete key => .delete key
  | .read key _ => .search key

def BTree.use : Usage → TreeM (Outcome × List (List Byte))
  | .insert buffer key => return (.inserted (← insert buffer key), [])
  | .delete key => return (.deleted (← delete (fun _ => 0) key), [])
  | .read key sizes => do
    let stream ← search key
    let (pieces, _) ← stream.nextAll sizes
    return (.found stream, pieces)

def BTree.useAll : List Usage → TreeM (List (Outcome × List (List Byte)))
  | [] => return []
  | usage :: usages => do
    let result ← use usage
    return result :: (← useAll usages)

inductive Used : List Usage → BTree → Prop
  | start {st : BTree} (constructed : BTree.construct BTree.bootstrapped = .ok () st) : Used [] st
  | step {usages : List Usage} {usage : Usage} {result : Outcome × List (List Byte)} {st st' : BTree}
      (used : Used usages st)
      (returned : BTree.use usage st = .ok result st') : Used (usages ++ [usage]) st'

/-- The finite map a tree stands for: the payload of each present key. It is what the operations
are compared with; nothing in the database looks like it. -/
abbrev Contents := Nat → Option (List Byte)

namespace Contents

def empty : Contents := fun _ => none

def apply (contents : Contents) : Operation → Contents
  | .insert buffer key => fun other => if other = key then some buffer else contents other
  | .delete key => fun other => if other = key then none else contents other
  | .search _ => contents

def applyAll (contents : Contents) (operations : List Operation) : Contents := operations.foldl apply contents

end Contents
end Datashil
