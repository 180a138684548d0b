import CodeCompletion.Analysis.Scope
import CodeCompletion.Candidate.Ranking
import CodeCompletion.Session.Repair
import CodeCompletion.Settings.Basic

/-! A session: the last good analysis of a text that is being edited. An analysis is replaced as a
whole, and only when the text parses; otherwise the one before stays, so that once there is an
analysis there always is one. Texts may also be parsed in the background: such a result is dropped
when a newer analysis has been requested in the meantime. -/
namespace CodeCompletion

structure Site where
  source : String
  caret : Position
deriving DecidableEq

inductive SessionError where
  | unparsable (error : SyntaxError)
  | caretOutside (caret : Position)

def SessionError.message : SessionError → String
  | unparsable error => error.message
  | caretOutside caret => "caret " ++ caret.display ++ " is outside the buffer"

def requireCaret (source : String) (caret : Position) : Except SessionError Unit :=
  if (caretOffset? source caret).isSome then .ok () else .error (.caretOutside caret)

structure Session where
  settings : Settings
  realm : Option Realm
  /-- The shape of the scope at the last caret for which the text could be parsed. -/
  scope : Option Shape
  /-- What the last analysis, good or not, was made of. -/
  analyzed : Option Site
  /-- The number of analyses requested. -/
  version : Nat

structure BackgroundParse where
  site : Site
  version : Nat
deriving DecidableEq

namespace Session

def start (settings : Settings) (realm : Option Realm) : Session :=
  ⟨settings, realm, none, none, 0⟩

def replace (s : Session) (program : Program) (caret : Position) : Session :=
  { s with scope := some (visibleAt program.body caret s.settings.limits) }

/-- Whether the text has to be analysed before it is answered from. -/
def isDue (s : Session) (site : Site) : Bool :=
  match s.settings.refresh with
  | .onChange => s.analyzed ≠ some site
  | .onDemand => s.scope.isNone && s.analyzed ≠ some site

def analyze (s : Session) (site : Site) : Session :=
  let s := { s with version := s.version + 1, analyzed := some site }
  match parseAt site.source site.caret with
  | .ok program => s.replace program site.caret
  | .error _ => s

def answer (s : Session) (intent : Intent) : Completions :=
  let realm := if s.settings.sandbox then s.realm else none
  ranked intent s.scope realm s.settings.keywords s.settings.limits

/-- The candidates at a caret. Where nothing can be completed there are none, and nothing
is analysed. -/
def complete (s : Session) (site : Site) : Completions × Session :=
  match contextAt site.source site.caret with
  | none => (.empty, s)
  | some intent =>
    let s := if s.isDue site then s.analyze site else s
    (s.answer intent, s)

def completeChecked (s : Session) (site : Site) : Except SessionError Completions × Session :=
  match requireCaret site.source site.caret with
  | .error e => (.error e, s)
  | .ok _ =>
    let (found, s) := s.complete site
    (.ok found, s)

def request (s : Session) (site : Site) : BackgroundParse × Session :=
  let s := { s with version := s.version + 1 }
  (⟨site, s.version⟩, s)

/-- Takes the result of a background parse. Says whether the analysis was replaced: not by
a result that is out of date, nor by a text that cannot be parsed. The latter is an error
only while there is no analysis at all. -/
def receive (s : Session) (pending : BackgroundParse) : Except SessionError Bool × Session :=
  if pending.version = s.version then
    let s := { s with analyzed := some pending.site }
    match parseAt pending.site.source pending.site.caret with
    | .ok program => (.ok true, s.replace program pending.site.caret)
    | .error e => (if s.scope.isNone then .error (.unparsable e) else .ok false, s)
  else (.ok false, s)

end Session

end CodeCompletion
