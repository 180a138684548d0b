import CodeCompletion.Candidate.Keyword
import CodeCompletion.Candidate.Lookup

/-! One ranked list from three kinds of candidates: from the text, from live objects, and keywords.
Where two kinds offer one name, the earlier kind wins. -/
namespace CodeCompletion

def scopeCompletions (scope : Option Shape) (realm : Option Realm) (limits : Limits)
    (intent : Intent) : Completions :=
  scope.elim .empty fun root => Surroundings.completions ⟨root, realm, limits⟩ intent

def objectCompletions (realm : Option Realm) (limits : Limits) (intent : Intent) :
    Completions :=
  realm.elim .empty fun realm => realm.completions limits.prototypeDepth intent

/-- Keywords, which are offered for a name that stands alone. -/
def wordCompletions (withKeywords : Bool) (intent : Intent) : Completions :=
  if withKeywords ∧ intent.kind = .identifier ∧ intent.chain.length = 1 then
    keywordsAfter intent.typed
  else .empty

def ranked (intent : Intent) (scope : Option Shape) (realm : Option Realm)
    (withKeywords : Bool) (limits : Limits) : Completions :=
  (((scopeCompletions scope realm limits intent).addAll
    (objectCompletions realm limits intent)).addAll
      (wordCompletions withKeywords intent)).sort

end CodeCompletion
