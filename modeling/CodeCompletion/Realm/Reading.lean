import CodeCompletion.Realm.Basic

/-! Reading properties through prototypes, without ever running an accessor. Every function is
given the number of prototype links that it may follow. -/
namespace CodeCompletion.Realm

/-- The object that a property holds, from the nearest object that has the property. A
primitive or an accessor there ends the search. -/
def get? (r : Realm) (name : String) (links : Nat) (id : ObjectId) : Option ObjectId :=
  match r.content? id name with
  | some (.object value) => some value
  | some _ => none
  | none =>
    match links with
    | 0 => none
    | links + 1 => (r.prototype? id).bind (get? r name links)

/-- An object and those on its chain of prototypes, up to the first that comes again. -/
def holders (r : Realm) (links : Nat) (seen : List ObjectId) (id : ObjectId) :
    List ObjectId :=
  if seen.contains id then []
  else
    id ::
      match links with
      | 0 => []
      | links + 1 =>
        match r.prototype? id with
        | none => []
        | some prototype => holders r links (id :: seen) prototype

def names (r : Realm) (links : Nat) (id : ObjectId) : List String :=
  ((r.holders links [] id).flatMap r.ownNames).eraseDups

def instancePrototype? (r : Realm) (links : Nat) (constructor : String) :
    Option ObjectId :=
  (r.get? constructor links globalId).bind (r.get? "prototype" links)

def follow? (r : Realm) (links : Nat) (id : ObjectId) : List String → Option ObjectId
  | [] => some id
  | name :: rest => (r.get? name links id).bind (follow? r links · rest)

/-- The object whose members the last name of a chain is one of; an empty chain has none. -/
def holderOf? (r : Realm) (links : Nat) (id : ObjectId) (chain : List String) :
    Option ObjectId :=
  if chain.isEmpty then none else r.follow? links id chain.dropLast

end CodeCompletion.Realm
