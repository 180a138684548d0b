/-! What is being completed at a caret. -/
namespace CodeCompletion

inductive IntentKind where
  /-- A name, alone or as the last member of a chain. -/
  | identifier
  /-- Right after the dot of a chain. -/
  | property
  /-- A member of a string literal. -/
  | string
  /-- A member of a regular expression literal. -/
  | regex
deriving DecidableEq

def IntentKind.name : IntentKind → String
  | identifier => "identifier"
  | property => "property"
  | string => "string"
  | regex => "regex"

/-- A chain of names. It ends with the partly typed one, except that a property intent
stops before its dot, and that right after the dot of a literal the chain is empty. -/
structure Intent where
  kind : IntentKind
  chain : List String
deriving DecidableEq

namespace Intent

def typed (intent : Intent) : String :=
  match intent.kind with
  | .property => ""
  | _ => intent.chain.getLast?.getD ""

/-- The chain with the partly typed name always present, possibly empty. -/
def fullChain (intent : Intent) : List String :=
  if intent.kind = .property ∨ intent.chain = [] then intent.chain ++ [""]
  else intent.chain

def parents (intent : Intent) : List String :=
  intent.fullChain.dropLast

end Intent

end CodeCompletion
