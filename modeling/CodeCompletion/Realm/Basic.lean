/-! A realm of live objects. An object has properties in the order in which they were first set,
and it may have a prototype. Objects are known by their number; a number may be used before its
object exists, so prototypes can form cycles. Object 0 is the global object. -/
namespace CodeCompletion

abbrev ObjectId := Nat

/-- What a property holds, as far as can be seen without running code. -/
inductive Content where
  | object (id : ObjectId)
  | primitive
  | accessor
deriving DecidableEq

structure Object where
  properties : List (String × Content)
  prototype : Option ObjectId

structure Realm where
  objects : Array Object

namespace Realm

def empty : Realm := ⟨#[⟨[], none⟩]⟩

def globalId : ObjectId := 0

def nextId (r : Realm) : ObjectId := r.objects.size

def add (r : Realm) (prototype : Option ObjectId) : Realm :=
  ⟨r.objects.push ⟨[], prototype⟩⟩

/-- Sets a name, in its place if it has one and at the end if not. -/
def setContent (name : String) (content : Content) :
    List (String × Content) → List (String × Content)
  | [] => [(name, content)]
  | (other, held) :: rest =>
    if other = name then (other, content) :: rest
    else (other, held) :: setContent name content rest

/-- Sets a property. Nothing happens when there is no such object. -/
def set (r : Realm) (id : ObjectId) (name : String) (content : Content) : Realm :=
  ⟨r.objects.modify id fun o => { o with properties := setContent name content o.properties }⟩

def setPrototype (r : Realm) (id : ObjectId) (prototype : Option ObjectId) : Realm :=
  ⟨r.objects.modify id fun o => { o with prototype }⟩

def properties (r : Realm) (id : ObjectId) : List (String × Content) :=
  r.objects[id]?.elim [] (·.properties)

def ownNames (r : Realm) (id : ObjectId) : List String :=
  (r.properties id).map (·.1)

/-- The own property of a name; inherited ones are not looked for. -/
def content? (r : Realm) (id : ObjectId) (name : String) : Option Content :=
  (r.properties id).lookup name

def prototype? (r : Realm) (id : ObjectId) : Option ObjectId :=
  r.objects[id]?.bind (·.prototype)

def global? (r : Realm) (name : String) : Option ObjectId :=
  match r.content? globalId name with
  | some (.object id) => some id
  | _ => none

end Realm

end CodeCompletion
