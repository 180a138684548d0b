import CodeCompletion.Settings.Limits

/-! The settings of a session. Each has a default. -/
namespace CodeCompletion

inductive RefreshPolicy where
  /-- Whenever the text or the caret has changed since the last analysis. -/
  | onChange
  /-- Until there is an analysis, and from then on only when told to. -/
  | onDemand
deriving DecidableEq

namespace RefreshPolicy

def name : RefreshPolicy → String
  | onChange => "on-change"
  | onDemand => "on-invalidate"

def ofName? (text : String) : Option RefreshPolicy :=
  [onChange, onDemand].find? (·.name = text)

end RefreshPolicy

structure Settings where
  refresh : RefreshPolicy := .onChange
  /-- Whether keywords are offered. -/
  keywords : Bool := true
  /-- Whether live objects are consulted, when there are any. -/
  sandbox : Bool := true
  limits : Limits := {}
deriving DecidableEq

end CodeCompletion
