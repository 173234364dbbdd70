import ProtoClojure.Compiler.Session

/-! Destructuring: a binding form is rewritten into symbol bindings over calls of
clojure.core, as `clojure.core/destructure` does it. -/
namespace ProtoClojure
open CompileM

def callForm (f : String) (args : List Form) : Form := .list (.name (core f) :: args)

def isNamed (s : String) (f : Form) : Bool := f.isName && f.nameOf == s

section
variable (env : Env)

/-- The items of a vector pattern, from the `index`-th on. `gseq` is the generated seq,
there when the pattern has a `&`. -/
def destructureItems (destructure : Form → Form → CompileM (List Form)) (gvec : Form)
    (gseq : Option Form) : Bool → Nat → List Form → CompileM (List Form)
  | _, _, [] => return []
  | seenRest, index, b :: rest =>
    if isNamed "&" b then
      match rest with
      | [] => fail "Unsupported binding form, missing binding after &"
      | target :: rest => do
        if seenRest then fail "Unsupported binding form, only :as can follow & parameter"
        let bound ← destructure target (gseq.getD .nil)
        let more ← destructureItems destructure gvec gseq true index rest
        return bound ++ more
    else if isNamed ":as" b then
      match rest with
      | [] => fail "Unsupported binding form, missing binding after :as"
      -- `:as` binds the whole value; what follows is ignored
      | target :: _ => destructure target gvec
    else do
      if seenRest then fail "Unsupported binding form, only :as can follow & parameter"
      let bound ← match gseq with
        | some gseq => do
          let gfirst ← freshSymbol "first__"
          let bound ← destructure b gfirst
          pure ([gfirst, callForm "first" [gseq], gseq, callForm "next" [gseq]] ++ bound)
        | none => destructure b (callForm "nth" [gvec, .int index, .nil])
      let more ← destructureItems destructure gvec gseq seenRest (index + 1) rest
      return bound ++ more

/-- The `:or` defaults of a map pattern, the later of two for one local first. -/
def orDefaults : List (Form × Form) → CompileM (List (String × Form))
  | [] => return []
  | (k, v) :: rest =>
    if isNamed ":or" k then
      match v with
      | .map ors => do
        let here ← (pairUp ors).mapM fun (name, default) =>
          if name.isName then pure (name.nameOf, default)
          else fail (":or key must be a symbol, got " ++ env.printedForm name)
        let more ← orDefaults rest
        return more ++ here.reverse
      | _ => fail (":or must be a map, got " ++ env.printedForm v)
    else orDefaults rest

def getForm (gmap : Form) (defaults : List (String × Form)) (key : Form) (bound : String) : Form :=
  match defaults.lookup bound with
  | none => callForm "get" [gmap, key]
  | some d => callForm "get" [gmap, key, d]

def withoutColon (s : String) : String :=
  if isKeywordName s then String.ofList (s.toList.drop 1) else s

/-- One symbol of a `:keys`, `:strs` or `:syms` vector. -/
def destructureKey (gmap : Form) (defaults : List (String × Form)) (kind kwNs : String) (s : Form) :
    CompileM (List Form) := do
  if !s.isName then fail ("Unsupported binding form: " ++ env.printedForm s)
  let spelled := withoutColon s.nameOf
  let bound := ((splitSlash spelled).map (·.2)).getD spelled
  let full := if (splitSlash spelled).isNone && kwNs != "" then kwNs ++ "/" ++ spelled else spelled
  let key : Form :=
    if kind = "keys" then .name (":" ++ full)
    else if kind = "strs" then .str bound
    else .list [.name "quote", .name full]
  return [.name bound, getForm gmap defaults key bound]

/-- One entry of a map pattern. -/
def destructureEntry (destructure : Form → Form → CompileM (List Form)) (gmap : Form)
    (defaults : List (String × Form)) (k v : Form) : CompileM (List Form) :=
  if isNamed ":or" k then return []
  else if isNamed ":as" k then
    if !v.isName || v.isKeyword then
      fail (":as must be followed by a symbol, got " ++ env.printedForm v)
    else return [v, gmap]
  else if k.isKeyword then
    let kw := withoutColon k.nameOf
    let kind := ((splitSlash kw).map (·.2)).getD kw
    let kwNs := ((splitSlash kw).map (·.1)).getD ""
    if kind != "keys" && kind != "strs" && kind != "syms" then
      fail ("Unsupported binding key: " ++ k.nameOf)
    else if kind == "strs" && kwNs != "" then fail ("Unsupported binding key: " ++ k.nameOf)
    else match v with
      | .vector names => do
        let bound ← names.mapM (destructureKey env gmap defaults kind kwNs)
        return bound.flatten
      | _ => fail (k.nameOf ++ " must be followed by a vector, got " ++ env.printedForm v)
  else if k.isName then return [k, getForm gmap defaults v k.nameOf]
  else destructure k (callForm "get" [gmap, v])

/-- The symbol and expression pairs that bind `pattern` to the value of `value`. -/
def destructure : Nat → Form → Form → CompileM (List Form)
  | 0, _, _ => throw .stackOverflow
  | fuel + 1, pattern, value =>
    match pattern with
    | .name s =>
      if isKeywordName s then fail ("Unsupported binding form: " ++ s)
      else return [pattern, value]
    | .vector items => do
      let gvec ← freshSymbol "vec__"
      if items.any (isNamed "&") then
        let gseq ← freshSymbol "seq__"
        let bound ← destructureItems (destructure fuel) gvec (some gseq) false 0 items
        return [gvec, value, gseq, callForm "seq" [gvec]] ++ bound
      else
        let bound ← destructureItems (destructure fuel) gvec none false 0 items
        return [gvec, value] ++ bound
    | .map entries => do
      let gmap ← freshSymbol "map__"
      let defaults ← orDefaults env (pairUp entries)
      let bound ← (pairUp entries).mapM fun (k, v) =>
        destructureEntry env (destructure fuel) gmap defaults k v
      return [gmap, value, gmap, callForm "__destructure-map" [gmap]] ++ bound.flatten
    | _ => fail ("Unsupported binding form: " ++ env.printedForm pattern)

/-- Whether every binding target is a symbol, so that nothing needs rewriting. -/
def simpleBindings (bindings : List Form) : Bool :=
  (pairUp bindings).all fun (b, _) => b.isName && !b.isKeyword

/-- The bindings with every pattern destructured, or `none` when all are symbols. -/
def destructureBindings (fuel : Nat) (bindings : List Form) : CompileM (Option (List Form)) :=
  if simpleBindings bindings then return none
  else do
    let flat ← (pairUp bindings).mapM fun (b, v) => destructure env fuel b v
    return some flat.flatten

/-- Whether the keyword-argument path takes the map after `&`: symbol `:keys`, `:or`
and `:as`, and nothing else. -/
def kwPathTakes (entries : List Form) : Bool :=
  let es := pairUp entries
  es.all (fun (k, v) =>
    if isNamed ":keys" k then
      match v with
      | .vector ks => ks.all fun s => s.isName && !s.isKeyword && !isQualifiedName s.nameOf
      | _ => false
    else if isNamed ":or" k then v.isMap
    else if isNamed ":as" k then v.isName
    else false) &&
  es.any fun (k, _) => isNamed ":keys" k

/-- The parameters with each destructured one replaced by a generated symbol, and the
bindings of the `let` the body then becomes. -/
def rewriteParams : Option Form → List Form → CompileM (List Form × List Form)
  | _, [] => return ([], [])
  | previous, p :: rest => do
    let afterAmp := previous.any (isNamed "&")
    if !p.isVector && !p.isMap && (!p.isName || p.isKeyword) then
      fail ("Unsupported binding form: " ++ env.printedForm p)
    let taken := match p with
      | .map entries => afterAmp && kwPathTakes entries
      | _ => false
    if p.isVector || (p.isMap && !taken) then
      let g ← freshSymbol "p__"
      let (effective, pairs) ← rewriteParams (some p) rest
      return (g :: effective, p :: g :: pairs)
    else
      let (effective, pairs) ← rewriteParams (some p) rest
      return (p :: effective, pairs)

end

end ProtoClojure
