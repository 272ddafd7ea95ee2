import SolvedForm.Var

/-!
# Tables keyed by variables

A `Table` keeps one value for each of finitely many variables, in an array of rows with ascending
keys. Keys are found by bisection, so looking one up costs logarithmically many comparisons.
`Table.Sorted` says that the keys do ascend; every operation keeps it.
-/

namespace SolvedForm

structure Table (α : Type) where
  entries : Array (Var × α) := #[]
deriving DecidableEq, Repr

namespace Table

variable {α β : Type}

/-- The rows in ascending order of their keys. -/
def toList (t : Table α) : List (Var × α) :=
  t.entries.toList

/-- The table with the given rows, which are listed in ascending order of their keys. -/
def ofRows (rows : List (Var × α)) : Table α :=
  ⟨rows.toArray⟩

/-- Keys strictly ascend from row to row. -/
def Sorted (t : Table α) : Prop :=
  t.toList.Pairwise fun a b => a.1 < b.1

def size (t : Table α) : Nat :=
  t.entries.size

def isEmpty (t : Table α) : Bool :=
  t.entries.isEmpty

def keys (t : Table α) : List Var :=
  t.toList.map Prod.fst

/-- The first position in `lo ..< hi` whose key is not below `v`, or `hi` if there is none. -/
def lowerBound (rows : Array (Var × α)) (v : Var) (lo hi : Nat) : Nat :=
  if lo < hi then
    let mid := lo + (hi - lo) / 2
    match rows[mid]? with
    | some (key, _) => if key < v then lowerBound rows v (mid + 1) hi else lowerBound rows v lo mid
    | none => lo
  else
    lo
termination_by hi - lo

/-- Where the row of `v` is, or would have to be inserted. -/
def position (t : Table α) (v : Var) : Nat :=
  lowerBound t.entries v 0 t.entries.size

def get? (t : Table α) (v : Var) : Option α :=
  match t.entries[t.position v]? with
  | some (key, a) => if key = v then some a else none
  | none => none

def contains (t : Table α) (v : Var) : Bool :=
  (t.get? v).isSome

/-- Gives `v` the value `a`, in its own row if it has one and else in a new row. -/
def insert (t : Table α) (v : Var) (a : α) : Table α :=
  let i := t.position v
  if h : i < t.entries.size then
    if t.entries[i].1 = v then ⟨t.entries.set i (v, a)⟩ else ⟨t.entries.insertIdx i (v, a)⟩
  else
    ⟨t.entries.push (v, a)⟩

/-- Removes the row of `v`, if there is one. -/
def erase (t : Table α) (v : Var) : Table α :=
  let i := t.position v
  if h : i < t.entries.size then
    if t.entries[i].1 = v then ⟨t.entries.eraseIdx i⟩ else t
  else
    t

/-- Replaces every value, leaving the keys as they are. -/
def map (f : α → β) (t : Table α) : Table β :=
  ⟨t.entries.map fun (v, a) => (v, f a)⟩

/-- The rows whose value satisfies `p`. -/
def filter (p : α → Bool) (t : Table α) : Table α :=
  ⟨t.entries.filter fun (_, a) => p a⟩

end Table

end SolvedForm
