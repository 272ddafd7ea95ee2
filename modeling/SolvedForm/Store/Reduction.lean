import SolvedForm.Store.Basic

/-!
# Reducing a form against a store

Reduction replaces known variables of a form by what the store says of them, the least one first,
for as long as the form mentions any.
-/

namespace SolvedForm.Store

/-- The first variable of `p` that has a rule, with its rule. -/
def firstRule? (store : Store) (p : LinearForm) : Option (Var × LinearForm) :=
  p.support.findSome? fun v => (store.rule? v).map fun q => (v, q)

/-- Replaces known variables until none is left, in at most `steps` steps. -/
def replaceKnown (store : Store) : (steps : Nat) → LinearForm → Except Misuse LinearForm
  | 0, p => if (store.firstRule? p).isSome then .error .cyclicStore else .ok p
  | steps + 1, p =>
    match store.firstRule? p with
    | some (v, q) => (p.substitute v q).bind (store.replaceKnown steps)
    | none => .ok p

/-- How many variables of `p` have a rule. Rules of a store in solved form mention no variable that
has one, so that each step takes one known variable away and brings none in. -/
def knownCount (store : Store) (p : LinearForm) : Nat :=
  p.support.countP store.knows

/-- Expresses `p` in variables without a rule. -/
def expand (store : Store) (p : LinearForm) : Except Misuse LinearForm :=
  store.replaceKnown (store.knownCount p) p

/-- Expands `p` and flushes what is near zero. -/
def reduce (store : Store) (eps : Rat) (p : LinearForm) : Except Misuse LinearForm :=
  (store.expand p).map (LinearForm.flush eps)

end SolvedForm.Store
