import ProtoClojure.Compiler.Form

/-! The spellings the compiler dispatches on: qualifiers, namespace aliases and the
keys of globals. -/
namespace ProtoClojure

inductive CompileError where
  | compile (message : String)     -- `CompileError`
  | length (message : String)      -- `std::length_error` of a bytecode limit
  | outOfRange (message : String)  -- `std::out_of_range`
  | stackOverflow                  -- `checkNativeStack`
  deriving DecidableEq, Repr

/-- What the compiler reads of the process around it while it compiles one form. -/
structure Env where
  namespaceAlias : String → Option String
  /-- whether the global of this key holds a macro -/
  globalMacro : String → Bool
  /-- a macro's answer for a call form, given the names of the locals in scope and
  the gensym counter; `Except.error` describes what the macro threw -/
  expandMacroCall : String → Form → (String → Bool) → Nat → Except String (Form × Nat)
  /-- whether the global of an operator still is what `clojure.core/` keeps of it -/
  operatorIntact : String → Bool
  coreNamespaceActive : Bool
  /-- the code is compiled for the debugger -/
  recordPositions : Bool
  /-- it is library code, which keeps locals clearing under the debugger -/
  library : Bool
  /-- the line the reader recorded for the form of the `n`-th look-up, 0 for none -/
  formLine : Nat → Nat
  printedForm : Form → String

/-- What follows `pre` in `s`, when `s` starts with it. -/
def afterPrefix (pre s : String) : Option String :=
  if pre.toList.isPrefixOf s.toList then some (String.ofList (s.toList.drop pre.toList.length))
  else none

/-- The parts of `s` around its first `/`. -/
def splitSlash (s : String) : Option (String × String) :=
  match s.toList.span (· != '/') with
  | (_, []) => none
  | (before, _ :: rest) => some (String.ofList before, String.ofList rest)

def core (name : String) : String := "clojure.core/" ++ name

/-- The rest of a name with a leading `clojure.core/`, which is never empty. -/
def stripCoreQualifier (name : String) : Option String :=
  match afterPrefix "clojure.core/" name with
  | some "" => none
  | r => r

/-- The rest of `user/x`. -/
def stripUserQualifier (name : String) : Option String :=
  match afterPrefix "user/" name with
  | some "" => none
  | r => r

/-- The two parts of a name `isQualifiedName` accepts, `a/b`. -/
def qualifiedParts (name : String) : Option (String × String) :=
  if isKeywordName name then none
  else match splitSlash name with
    | some (a, b) => if a = "" ∨ b = "" then none else some (a, b)
    | none => none

def isQualifiedName (name : String) : Bool := (qualifiedParts name).isSome

def isSpecialFormName (name : String) : Bool :=
  ["def", "if", "do", "let*", "loop*", "fn*", "quote", "var", "recur", "throw", "try", "catch",
    "finally", "new", "set!", "letfn*", "case*", ".", "&", "monitor-enter", "monitor-exit",
    "import*", "deftype*", "reify*", "let", "loop", "fn"].contains name

/-- The global a symbol names, `none` for a keyword. -/
def globalKeyForSymbol (spelling : String) : Option String :=
  if spelling = "" ∨ isKeywordName spelling then none
  else some ((stripUserQualifier spelling).getD spelling)

def isKnownNamespace (ns : String) : Bool :=
  ["clojure.core", "clojure.string", "clojure.set", "clojure.java.io", "clojure.java.shell",
    "clojure.edn", "cheshire.core", "clojure.data.json"].contains ns

/-- The library functions that are built-ins here, by their namespace. -/
def libraryNames : List (String × List String) :=
  [("clojure.string/", ["blank?", "ends-with?", "includes?", "index-of", "join", "lower-case",
      "replace", "replace-first", "reverse", "split", "split-lines", "starts-with?", "trim",
      "triml", "trimr", "upper-case"]),
    ("clojure.set/", ["union", "intersection", "difference", "subset?", "superset?"]),
    ("clojure.java.io/", ["reader", "writer", "file", "copy", "delete-file", "make-parents"]),
    ("clojure.java.shell/", ["sh"])]

/-- The namespaces that are objects, whose members are the functions. -/
def memberNames : List (String × List String) :=
  [("clojure.edn/", ["read-string"]),
    ("cheshire.core/", ["parse-string", "generate-string", "parse-stream", "generate-stream",
      "decode", "encode"]),
    ("clojure.data.json/", ["read-str", "write-str", "read", "write"])]

/-- The bare name, when a table lists it under one of its prefixes. -/
def listedName (table : List (String × List String)) (name : String) : Option String :=
  table.findSome? fun (pre, names) =>
    (afterPrefix pre name).bind fun bare => if names.contains bare then some bare else none

/-- `name` with a namespace alias replaced by its namespace. -/
def replaceAlias (env : Env) (name : String) : String :=
  match splitSlash name with
  | some (a, b) =>
    if a = "" ∨ b = "" then name
    else match env.namespaceAlias a with
      | some ns => ns ++ "/" ++ b
      | none => name
  | none => name

def aliasLibraryNamespace (env : Env) (written : String) : Except CompileError String :=
  if written = "" ∨ isKeywordName written then .ok written
  else
    let name := replaceAlias env written
    if (afterPrefix "clojure.core/" name).isSome then .ok name
    else if (listedName memberNames name).isSome then .ok name
    else match listedName libraryNames name with
      | some bare => .ok (core bare)
      | none =>
        match splitSlash written, splitSlash name with
        | some _, some (ns, _) =>
          if isKnownNamespace ns then .error (.compile ("No such var: " ++ written)) else .ok name
        | _, _ => .ok name

end ProtoClojure
