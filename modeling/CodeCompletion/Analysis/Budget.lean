import CodeCompletion.Settings.Limits

/-! What an analysis keeps account of: the steps it has taken, how deep in function bodies it is and
whether it has to stop. The account can be kept in a state of any type that tells what becomes of it
when a node is visited and when a function is entered and left. -/
namespace CodeCompletion

/-- Why nothing more is visited: the limits allow no further step, or the counter of steps has no room
for one. With the counter at its end an analysis has failed, and what it has found is no answer. -/
inductive Stop where
  | limit
  | overflow
deriving DecidableEq

structure Budget where
  /-- Nodes visited so far, those of nested function bodies included. -/
  steps : UInt64 := 0
  /-- How many functions have been entered to be shaped and not left. -/
  shapeDepth : Nat := 0
  stop : Option Stop := none
deriving DecidableEq

namespace Budget

def exhausted (b : Budget) : Bool :=
  b.stop.isSome

/-- Counts one more visit. An error is the state in which there is none. -/
def visit (limits : Limits) (b : Budget) : Except Budget Budget :=
  if b.exhausted then .error b
  else if b.steps.toNat + 1 = UInt64.size then .error { b with stop := some .overflow }
  else
    let steps := b.steps + 1
    if limits.walkSteps < steps.toNat then .error { b with steps, stop := some .limit }
    else .ok { b with steps }

/-- Enters a function, unless functions are nested too deeply already. -/
def enter? (limits : Limits) (b : Budget) : Option Budget :=
  if limits.shapeDepth ≤ b.shapeDepth then none
  else some { b with shapeDepth := b.shapeDepth + 1 }

def leave (b : Budget) : Budget :=
  { b with shapeDepth := b.shapeDepth - 1 }

/-- What a walk of its own has used up is used up here too. How deep it was is its own affair. -/
def absorb (b inner : Budget) : Budget :=
  { b with steps := inner.steps, stop := b.stop.or inner.stop }

end Budget

class Account (σ : Type) where
  visit : Limits → σ → Except σ σ
  enter? : Limits → σ → Option σ
  leave : σ → σ
  absorb : σ → σ → σ

instance : Account Budget :=
  ⟨Budget.visit, Budget.enter?, Budget.leave, Budget.absorb⟩

end CodeCompletion
