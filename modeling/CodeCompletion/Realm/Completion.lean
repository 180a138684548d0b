import CodeCompletion.Candidate.Basic
import CodeCompletion.Caret.Intent
import CodeCompletion.Realm.Reading
import CodeCompletion.Token.Stream

/-! Candidates from live objects. All of them have one score, below everything that is known from
the text of the program and above the keywords. -/
namespace CodeCompletion.Realm

def candidateScore : Int := -1

def offersOn (r : Realm) (links : Nat) (id : ObjectId) (typed : String) :
    Completions :=
  .ofList <| (r.names links id).filterMap fun name =>
    if properlyExtends typed name && isName name then
      some ⟨name, typed, candidateScore⟩
    else none

def startOf? (r : Realm) (links : Nat) : IntentKind → Option ObjectId
  | .identifier | .property => some globalId
  | .string => r.instancePrototype? links "String"
  | .regex => r.instancePrototype? links "RegExp"

def completions (r : Realm) (links : Nat) (intent : Intent) : Completions :=
  match (r.startOf? links intent.kind).bind (r.holderOf? links · intent.fullChain) with
  | some id => r.offersOn links id intent.typed
  | none => .empty

end CodeCompletion.Realm
