import CodeCompletion.Realm.Basic

/-! The standard global objects of ECMAScript: the constructors with their own members and those of
their instances, `Math`, `JSON` and the global functions. -/
namespace CodeCompletion.Realm

/-- The members of a standard object: methods are functions, values primitives. -/
structure MemberNames where
  methods : List String := []
  values : List String := []
  accessors : List String := []

def plainPrototype : ObjectId := 1

def functionPrototype : ObjectId := 2

/-- The global object and the two prototypes that all others need. -/
def foundation : Realm :=
  let r := (empty.add none).add (some plainPrototype)
  r.setPrototype globalId (some plainPrototype)

def addMethod (r : Realm) (id : ObjectId) (name : String) : Realm :=
  (r.add (some functionPrototype)).set id name (.object r.nextId)

def setMembers (r : Realm) (id : ObjectId) (members : MemberNames) : Realm :=
  let r := members.methods.foldl (addMethod · id) r
  let r := members.values.foldl (fun r name => r.set id name .primitive) r
  members.accessors.foldl (fun r name => r.set id name .accessor) r

def addConstructorOf (r : Realm) (name : String) (id prototype : ObjectId)
    (statics members : MemberNames) : Realm :=
  let r := r.set id "prototype" (.object prototype)
  let r := r.set id "length" .primitive
  let r := r.set id "name" .primitive
  let r := r.set prototype "constructor" (.object id)
  ((r.setMembers id statics).setMembers prototype members).set globalId name (.object id)

/-- Adds a global constructor for a prototype that there is already. -/
def addConstructor (r : Realm) (name : String) (prototype : ObjectId)
    (statics members : MemberNames) : Realm :=
  (r.add (some functionPrototype)).addConstructorOf name r.nextId prototype statics members

/-- Adds a global constructor and a prototype for it that inherits from `parent`. -/
def addClass (r : Realm) (name : String) (parent : ObjectId)
    (statics members : MemberNames) : Realm :=
  ((r.add (some functionPrototype)).add (some parent)).addConstructorOf name r.nextId
    (r.nextId + 1) statics members

def addNamespace (r : Realm) (name : String) (members : MemberNames) : Realm :=
  ((r.add (some plainPrototype)).setMembers r.nextId members).set globalId name (.object r.nextId)

def addErrors (r : Realm) : Realm :=
  let values := ["message", "name"]
  let parent := r.nextId + 1
  let r := r.addClass "Error" plainPrototype {} { methods := ["toString"], values }
  ["EvalError", "RangeError", "ReferenceError", "SyntaxError", "TypeError", "URIError"].foldl
    (fun r name => r.addClass name parent {} { values }) r

def standard : Realm :=
  foundation
    |>.addConstructor "Object" plainPrototype
      { methods := ["assign", "create", "defineProperties", "defineProperty", "entries",
          "freeze", "getOwnPropertyDescriptor", "getOwnPropertyNames", "getPrototypeOf",
          "isExtensible", "isFrozen", "isSealed", "keys", "preventExtensions", "seal",
          "values"] }
      { methods := ["hasOwnProperty", "isPrototypeOf", "propertyIsEnumerable",
          "toLocaleString", "toString", "valueOf"] }
    |>.addConstructor "Function" functionPrototype {}
      { methods := ["apply", "bind", "call", "toString"], values := ["length", "name"] }
    |>.addClass "Array" plainPrototype
      { methods := ["from", "isArray", "of"] }
      { methods := ["concat", "entries", "every", "fill", "filter", "find", "findIndex",
          "forEach", "includes", "indexOf", "join", "keys", "lastIndexOf", "map", "pop",
          "push", "reduce", "reduceRight", "reverse", "shift", "slice", "some", "sort",
          "splice", "unshift"],
        values := ["length"] }
    |>.addClass "String" plainPrototype
      { methods := ["fromCharCode", "fromCodePoint", "raw"] }
      { methods := ["charAt", "charCodeAt", "codePointAt", "concat", "endsWith",
          "includes", "indexOf", "lastIndexOf", "localeCompare", "match", "padEnd",
          "padStart", "repeat", "replace", "search", "slice", "split", "startsWith",
          "substr", "substring", "toLocaleLowerCase", "toLocaleUpperCase", "toLowerCase",
          "toUpperCase", "trim"],
        values := ["length"] }
    |>.addClass "Number" plainPrototype
      { methods := ["isFinite", "isInteger", "isNaN", "parseFloat", "parseInt"],
        values := ["MAX_VALUE", "MIN_VALUE", "NaN", "NEGATIVE_INFINITY",
          "POSITIVE_INFINITY", "EPSILON"] }
      { methods := ["toExponential", "toFixed", "toLocaleString", "toPrecision",
          "toString", "valueOf"] }
    |>.addClass "Boolean" plainPrototype {} { methods := ["toString", "valueOf"] }
    |>.addClass "RegExp" plainPrototype {}
      { methods := ["exec", "test", "toString"],
        accessors := ["flags", "global", "ignoreCase", "multiline", "source", "sticky"] }
    |>.addClass "Date" plainPrototype
      { methods := ["now", "parse", "UTC"] }
      { methods := ["getDate", "getDay", "getFullYear", "getHours", "getMilliseconds",
          "getMinutes", "getMonth", "getSeconds", "getTime", "getTimezoneOffset",
          "setDate", "setFullYear", "setHours", "setMilliseconds", "setMinutes",
          "setMonth", "setSeconds", "setTime", "toDateString", "toISOString", "toJSON",
          "toLocaleDateString", "toLocaleTimeString", "toTimeString", "toUTCString"] }
    |>.addErrors
    |>.addNamespace "Math"
      { methods := ["abs", "acos", "asin", "atan", "atan2", "ceil", "cos", "exp", "floor",
          "log", "max", "min", "pow", "random", "round", "sign", "sin", "sqrt", "tan",
          "trunc"],
        values := ["E", "LN10", "LN2", "LOG10E", "LOG2E", "PI", "SQRT1_2", "SQRT2"] }
    |>.addNamespace "JSON" { methods := ["parse", "stringify"] }
    |>.setMembers globalId
      { methods := ["decodeURI", "decodeURIComponent", "encodeURI", "encodeURIComponent",
          "eval", "isFinite", "isNaN", "parseFloat", "parseInt"],
        values := ["Infinity", "NaN", "undefined"] }

end CodeCompletion.Realm
