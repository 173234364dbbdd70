import ProtoClojure.Compiler.Destructure

/-! Parameter vectors: fixed parameters, then a rest symbol or a keyword-argument map. -/
namespace ProtoClojure
open CompileM

/-- A `:keys` entry with its `:or` default. -/
structure KwKeyDecl where
  name : String
  defaultForm : Option Form

inductive RestSpec where
  | none
  | variadic (name : String)
  | kwBased (keys : List KwKeyDecl) (asName : Option String)

structure ParamSpec where
  fixed : List Form
  rest : RestSpec

def RestSpec.isVariadic : RestSpec → Bool
  | .variadic _ => true
  | _ => false

def RestSpec.isKwBased : RestSpec → Bool
  | .kwBased _ _ => true
  | _ => false

/-- What one pass over the entries of `& \x7b...\x7d` collects. -/
structure KwMap where
  keys : List String := []
  sawKeys : Bool := false
  orEntries : List Form := []
  asName : Option String := .none

def kwMapEntry (m : KwMap) (k v : Form) : CompileM KwMap :=
  if !k.isName then fail "fn/defn: `& \x7b...\x7d` key must be a keyword"
  else if k.nameOf = ":keys" then
    match v with
    | .vector ks =>
      if ks.all (·.isName) then
        return { m with keys := m.keys ++ ks.map Form.nameOf, sawKeys := true }
      else fail "fn/defn: `:keys` entry must be a symbol"
    | _ => fail "fn/defn: `:keys` must be a vector of symbols"
  else if k.nameOf = ":or" then
    match v with
    | .map ors => return { m with orEntries := ors }
    | _ => fail "fn/defn: `:or` must be a map"
  else if k.nameOf = ":as" then
    if v.isName then return { m with asName := some v.nameOf }
    else fail "fn/defn: `:as` binding must be a symbol"
  else fail ("fn/defn: unsupported entry in `& \x7b...\x7d`: " ++ k.nameOf)

/-- Gives the first `:keys` entry of that name the default. -/
def attachDefault (keys : List KwKeyDecl) (name : String) (default : Form) :
    Option (List KwKeyDecl) :=
  match keys with
  | [] => .none
  | d :: rest =>
    if d.name = name then some ({ d with defaultForm := some default } :: rest)
    else (attachDefault rest name default).map (d :: ·)

def attachDefaults (keys : List KwKeyDecl) : List (Form × Form) → CompileM (List KwKeyDecl)
  | [] => return keys
  | (k, v) :: rest =>
    if !k.isName then fail "fn/defn: `:or` key must be a symbol"
    else match attachDefault keys k.nameOf v with
      | some keys => attachDefaults keys rest
      | .none => fail ("fn/defn: `:or` key not in :keys: " ++ k.nameOf)

def parseKwMap (entries : List Form) : CompileM RestSpec := do
  let m ← (pairUp entries).foldlM (fun m (k, v) => kwMapEntry m k v) {}
  if !m.sawKeys then fail "fn/defn: `& \x7b...\x7d` needs at least :keys"
  let keys ← attachDefaults (m.keys.map fun k => ⟨k, .none⟩) (pairUp m.orEntries)
  return .kwBased keys m.asName

/-- The form after `&`. -/
def parseRest : Form → CompileM RestSpec
  | .map entries => parseKwMap entries
  | .name s =>
    if isQualifiedName s then fail ("Can't use qualified name as parameter: " ++ s)
    else return .variadic s
  | _ => fail "fn/defn: form after `&` must be a symbol (variadic) or a `\x7b:keys [...]\x7d` map"

/-- Splits the parameters at the first `&`. -/
def parseParams : List Form → CompileM ParamSpec
  | [] => return ⟨[], .none⟩
  | p :: params =>
    if isNamed "&" p then
      match params with
      | [rp] => return ⟨[], ← parseRest rp⟩
      | _ => fail "fn/defn: `&` must be followed by exactly one form"
    else do
      let spec ← parseParams params
      return { spec with fixed := p :: spec.fixed }

/-- The names of the fixed parameters. -/
def fixedNames : List Form → CompileM (List String)
  | [] => return []
  | p :: rest =>
    if !p.isName then fail "fn/defn: parameter name must be a symbol"
    else if isQualifiedName p.nameOf then
      fail ("Can't use qualified name as parameter: " ++ p.nameOf)
    else return p.nameOf :: (← fixedNames rest)

/-- Names bound in order to the slots from `start` on; the later of two wins. -/
def bindNames (names : List String) (start : Nat) (locals : String → Option Nat) :
    String → Option Nat :=
  match names with
  | [] => locals
  | name :: rest => bindNames rest (start + 1) (Function.update locals name (some start))

def RestSpec.names : RestSpec → List String
  | .none => []
  | .variadic name => [name]
  | .kwBased keys asName => keys.map (·.name) ++ asName.toList

end ProtoClojure
