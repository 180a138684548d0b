import CodeCompletion.Realm.Completion
import CodeCompletion.Settings.Limits
import CodeCompletion.Shape.Basic

/-! Candidates from the shape of a scope. The chain of an intent is followed over a list of places
at once: at each name every place gives its child of that name, and the types of a place lead to
further places, those of the functions that produce such values. The types of standard objects lead
to their prototypes, when live objects are given. -/
namespace CodeCompletion

/-- The name put where a name is missing, so that the text around it can be parsed. -/
def placeholder : String := "__augur_caret__"

inductive Provider where
  | shape (shape : Shape)
  | object (id : ObjectId)

structure Surroundings where
  root : Shape
  realm : Option Realm
  limits : Limits

namespace Surroundings

def providersOf (s : Surroundings) (type : Facet) : List Provider :=
  let origin := s.root.get? type.path
  let source := origin.bind (·.source? type.index)
  if type.index = Facet.ofInstance then
    let shared := origin.bind (·.property? "prototype")
    let object := s.realm.bind fun realm =>
      realm.instancePrototype? s.limits.prototypeDepth type.origin
    (source.map .shape).toList ++ (shared.map .shape).toList ++ (object.map .object).toList
  else (source.map .shape).toList

def typesOf : Provider → List Facet
  | .shape shape => shape.types.toList
  | .object _ => []

/-- The places that types lead to, those not seen before, and what has been seen then. -/
def followTypes (s : Surroundings) :
    List Facet → List Facet → List Provider × List Facet
  | [], seen => ([], seen)
  | type :: rest, seen =>
    if seen.contains type then s.followTypes rest seen
    else
      let (found, seen) := s.followTypes rest (type :: seen)
      (s.providersOf type ++ found, seen)

/-- Places and what their types lead to in at most `steps` steps, nearest first. Each type
is followed once. -/
def reachFrom (s : Surroundings) : Nat → List Facet → List Provider → List Provider
  | _, _, [] => []
  | 0, _, level => level
  | steps + 1, seen, level =>
    let (next, seen) := s.followTypes (level.flatMap typesOf) seen
    level ++ s.reachFrom steps seen next

def reach (s : Surroundings) (level : List Provider) : List Provider :=
  s.reachFrom s.limits.shapeDepth [] level

def child? (s : Surroundings) (name : String) : Provider → Option Provider
  | .shape shape => (shape.property? name).map .shape
  | .object id => do
    let realm ← s.realm
    let value ← realm.get? name s.limits.prototypeDepth id
    return .object value

def startOf (s : Surroundings) : IntentKind → List Provider
  | .identifier | .property => [.shape s.root]
  | .string => s.providersOf (.instanceOf "String")
  | .regex => s.providersOf (.instanceOf "RegExp")

def followPath (s : Surroundings) : List String → List Provider → List Provider
  | [], level => level
  | name :: rest, level => s.followPath rest ((s.reach level).filterMap (s.child? name))

/-- Whether a name that is known from the text may be offered. -/
def isEligible (typed name : String) : Bool :=
  properlyExtends typed name && name != placeholder && isName name

/-- The candidates of a place that is known from the text. Their score is the weight. -/
def shapeCandidates (typed : String) : Provider → List Candidate
  | .shape shape => shape.properties.filterMap fun (name, child) =>
    if isEligible typed name then some ⟨name, typed, child.weight⟩ else none
  | .object _ => []

def objectCandidates (s : Surroundings) (typed : String) : Provider → List Candidate
  | .shape _ => []
  | .object id => s.realm.elim [] fun realm =>
    (realm.offersOn s.limits.prototypeDepth id typed).candidates

/-- The candidates for an intent. What is known from the text comes first. -/
def completions (s : Surroundings) (intent : Intent) : Completions :=
  let places := s.reach (s.followPath intent.parents (s.startOf intent.kind))
  (Completions.ofList (places.flatMap (shapeCandidates intent.typed))).insertAll
    (places.flatMap (s.objectCandidates intent.typed))

end Surroundings

end CodeCompletion
