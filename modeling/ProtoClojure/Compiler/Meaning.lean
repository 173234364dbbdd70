import ProtoClojure.Compiler.Layout
import ProtoClojure.Runtime.CallRoutes
import ProtoClojure.Runtime.Services

/-! What a core expression does: its value, what it raises and what it changes, with every name
looked up in its lexical scope and no slot, stack or handler in sight. -/
namespace ProtoClojure.Meaning
open Recursion
open Vm (Host Heap Thrown Service Site serve raiseError truthy)

/-- Names with their values, the innermost binding first. -/
abbrev Locals := List (String × Value)

structure Closure where
  multi : Bool
  arities : Arities
  scope : Locals

/-- How an expression ends early. -/
inductive Abrupt where
  | raise (t : Thrown)
  | recur (args : List Value)

/-- A `recur` that reaches no loop. -/
inductive Stray where
  | recur

/-- An expression in a scope; the turns of a loop or a function body, whose names have values
that `recur` replaces from the first on; a call. -/
inductive Query (σ : Type) where
  | exp (ρ : Locals) (e : Exp) (w : Vm.World σ Closure)
  | turns (names : List String) (vals : List Value) (ρ : Locals) (body : Exp) (w : Vm.World σ Closure)
  | apply (site : Site) (f : Value) (args : List Value) (w : Vm.World σ Closure)

@[reducible] def Query.Answer {σ : Type} : Query σ → Type
  | .exp _ _ _ => Except Abrupt Value × Vm.World σ Closure
  | .turns _ _ _ _ _ | .apply _ _ _ _ => Except Thrown Value × Vm.World σ Closure

abbrev Eval (σ χ α : Type) := Effect (Query σ) Query.Answer Stray (Vm.World σ Closure) χ α

/-! ### The arguments of a call -/

structure Arity where
  fixed : List String
  rest : RestParam
  keys : Keys
  body : Exp

def toList : Arities → List Arity
  | .nil => []
  | .cons fixed rest keys body more => ⟨fixed, rest, keys, body⟩ :: toList more

namespace Arity
variable (a : Arity)

def params : List String := paramNames a.fixed a.rest a.keys

/-- Whether a call with so many arguments is taken: exactly, by a rest parameter, by keyword
arguments. -/
def takesExactly (argc : Nat) : Bool := !a.rest.isVariadic && a.fixed.length == argc
def takesRest (argc : Nat) : Bool := a.rest.isVariadic && a.fixed.length ≤ argc
def takesPairs (argc : Nat) : Bool :=
  a.rest.isKwBased && a.fixed.length ≤ argc &&
    ((argc - a.fixed.length) % 2 == 0 || argc - a.fixed.length == 1)

/-- The keyword map of the arguments after the fixed ones: one map, or pairs. -/
def keywordMap (args : List Value) : Except Refusal (Option Value) :=
  let extra := args.drop a.fixed.length
  if args.length < a.fixed.length then .error (.keywords a.fixed.length args.length)
  else if extra.length = 0 then .ok none
  else if extra.length = 1 then .ok extra.head?
  else if extra.length % 2 = 0 then .ok (some (.map (mapAssocPairs [] extra)))
  else .error (.keywords a.fixed.length args.length)

def keyValue (map : Option Value) (name : String) : Value :=
  match map with
  | some (.map entries) => (mapGet name entries).getD .nil
  | _ => .nil

/-- A call binds at most 17 parameters, the rest arguments as one, and 16 keys. -/
def limited (bound : Nat) (vals : List Value) : Except Refusal (List Value) :=
  if kMaxBoundParameters < bound then .error .tooManyParameters
  else if kMaxKeys < a.keys.names.length then .error .tooManyKeys
  else .ok vals

/-- The values of the parameters, in their order. -/
def bind (args : List Value) : Except Refusal (List Value) :=
  let fixed := a.fixed.length
  match a.rest with
  | .none =>
    if args.length = fixed then a.limited fixed args else .error (.arity fixed args.length)
  | .variadic _ =>
    if args.length < fixed then .error (.variadic fixed args.length)
    else a.limited (fixed + 1) (args.take fixed ++ [restValue fixed args])
  | .kwBased asName => do
    let map ← a.keywordMap args
    a.limited fixed
      (args.take fixed ++ a.keys.names.map (keyValue map) ++ asName.toList.map fun _ => map.getD .nil)

end Arity

namespace Closure
variable (c : Closure)

def pickArity (argc : Nat) : Option Arity :=
  let arities := toList c.arities
  (arities.find? (·.takesExactly argc)).or
    ((arities.find? (·.takesRest argc)).or (arities.find? (·.takesPairs argc)))

/-- The arity a call takes, with the values of its parameters. A call form that ends in a
literal keyword and a value gives a function of one arity pairs, and never a map. -/
def bind (site : Site) (args : List Value) : Except Refusal (Arity × List Value) :=
  if c.multi then
    match c.pickArity args.length with
    | none => .error (.noArity args.length)
    | some a => (a.bind args).map (a, ·)
  else
    match toList c.arities with
    | [] => .error (.noArity args.length)
    | a :: _ =>
      match site with
      | .callKw =>
        if a.rest.isKwBased ∧ args.length = a.fixed.length + 1 then
          .error (.keywords a.fixed.length args.length)
        else (a.bind args).map (a, ·)
      | _ => (a.bind args).map (a, ·)

def refusalText (site : Site) : Refusal → String :=
  match site with
  | .call => Vm.dispatchText
  | .callKw => if c.multi then Vm.dispatchText else Vm.callKwText
  | .invoke => Vm.invokeText

end Closure

/-! ### Evaluation -/

def bindNames (names : List String) (vals : List Value) (ρ : Locals) : Locals :=
  (names.zip vals).reverse ++ ρ

section
variable {σ α : Type} (H : Host σ)

def eval (ρ : Locals) (e : Exp) : Eval σ Abrupt Value := fun w => Comp.ask (Q := Query σ) (.exp ρ e w)

def turns (names : List String) (vals : List Value) (ρ : Locals) (body : Exp) :
    Eval σ Thrown Value := fun w => Comp.ask (Q := Query σ) (.turns names vals ρ body w)

def apply (site : Site) (f : Value) (args : List Value) : Eval σ Thrown Value :=
  fun w => Comp.ask (Q := Query σ) (.apply site f args w)

def service (s : Service σ α) : Eval σ Thrown α := serve (apply .invoke) s

/-- In an expression what is raised ends it early. -/
def raising (x : Eval σ Thrown α) : Eval σ Abrupt α := x.settle fun t => .ok (.raise t)

/-- Nothing but a raise gets out of a function's body. -/
def closing (x : Eval σ Abrupt α) : Eval σ Thrown α := x.settle fun t =>
  match t with
  | .raise t => .ok t
  | .recur _ => .error .recur

def serving (s : Service σ α) : Eval σ Abrupt α := raising (service s)

def evalArgs (ρ : Locals) : Exps → Eval σ Abrupt (List Value)
  | .nil => return []
  | .cons e rest => do
    let v ← eval ρ e
    let vs ← evalArgs ρ rest
    return v :: vs

def evalEffects (ρ : Locals) : Exps → Eval σ Abrupt Unit
  | .nil => return
  | .cons e rest => do
    let _ ← eval ρ e
    evalEffects ρ rest

def evalBinds (ρ : Locals) : Binds → Eval σ Abrupt (List Value)
  | .nil => return []
  | .cons x init rest => do
    let v ← eval ρ init
    let vs ← evalBinds ((x, v) :: ρ) rest
    return v :: vs

/-- An operator that a call of its global may stand for. -/
def operate (op : Op) (core : Bool) (a b : Value) : Eval σ Thrown Value := do
  match ← service (Vm.redefinedOperator H op (if core then 1 else 0)) with
  | some f => apply .call f [a, b]
  | none => service (H.binary op a b)

/-- The `:or` defaults, from the key in place `slot` on: one is taken where `=` finds the
argument equal to nil. -/
def evalDefaults (names : List String) (ρ : Locals) :
    Nat → Keys → List Value → Eval σ Abrupt (List Value)
  | _, .nil, vals => return vals
  | slot, .cons _ rest, vals => evalDefaults names ρ (slot + 1) rest vals
  | slot, .consOr _ default rest, vals => do
    if truthy (← raising (operate H .eq false (vals.getD slot .nil) .nil)) then do
      let v ← eval (bindNames names vals ρ) default
      evalDefaults names ρ (slot + 1) rest (vals.set slot v)
    else evalDefaults names ρ (slot + 1) rest vals

def newFn (c : Closure) : Eval σ Abrupt Value := do
  let id := (← get).fns.length
  modify fun w => { w with fns := w.fns ++ [c] }
  return .fn id

def lookUp (ρ : Locals) (x : String) : Eval σ Abrupt Value :=
  match ρ.lookup x with
  | some v => return v
  | none => serving (Vm.readGlobal H x)

def evalLit : Lit → Eval σ Abrupt Value
  | .nil => return .nil
  | .bool b => return .bool b
  | .const c => serving (Vm.materialise H c)

/-- Whether a clause takes the exception. -/
def takes (ρ : Locals) (v : Value) : CatchTest → Eval σ Abrupt Bool
  | .builtin id => serving (H.exceptionMatches v id)
  | .bound x name => do serving (H.matchCatchType v (← lookUp H ρ x) name)
  | .boundMember x m name => do
    let type ← serving (H.getMember (← lookUp H ρ x) m)
    serving (H.matchCatchType v type name)
  | .resolved key name => do serving (H.matchCatchType v (← serving (H.resolveCatchType key)) name)

/-- What an exception nothing took is raised as again. -/
def again (t : Thrown) (v : Value) : Thrown :=
  match t with
  | .exception _ => t
  | .failure _ => .exception v

def evalClauses (ρ : Locals) (t : Thrown) (v : Value) : Clauses → Eval σ Abrupt Value
  | .nil => throw (.raise (again t v))
  | .cons test x body rest => do
    if ← takes H ρ v test then eval ((x, v) :: ρ) body else evalClauses ρ t v rest

/-- What is raised in `x` is given to `f`, as an exception and its value. -/
def catching (x : Eval σ Abrupt Value) (f : Thrown → Value → Eval σ Abrupt Value) :
    Eval σ Abrupt Value :=
  tryCatch x fun a =>
    match a with
    | .raise t => do
      let (v, heap) := Vm.caughtValue H t (← get).heap
      modify fun w => { w with heap }
      f t v
    | .recur vs => throw (.recur vs)

def evalExp (ρ : Locals) : Exp → Eval σ Abrupt Value
  | .lit l => evalLit H l
  | .sym x => lookUp H ρ x
  | .global key => serving (Vm.readGlobal H key)
  | .member o m => do serving (H.getMember (← eval ρ o) m)
  | .ite test thn els => do if truthy (← eval ρ test) then eval ρ thn else eval ρ els
  | .both a b => do
    let v ← eval ρ a
    if truthy v then eval ρ b else return v
  | .either a b => do
    let v ← eval ρ a
    if truthy v then return v else eval ρ b
  | .seq a b => do
    let _ ← eval ρ a
    eval ρ b
  | .bind x init body => do eval ((x, ← eval ρ init) :: ρ) body
  | .loop bs body => do raising (turns bs.names (← evalBinds ρ bs) ρ body)
  | .recur args => do throw (.recur (← evalArgs ρ args))
  | .fn _ multi arities => newFn ⟨multi, arities, ρ⟩
  | .call kw f args => do
    let f ← eval ρ f
    let vs ← evalArgs ρ args
    raising (apply (if kw then .callKw else .call) f vs)
  | .apply f a => do
    let f ← eval ρ f
    let v ← eval ρ a
    raising do apply .call f (← service (Vm.spreadItems H v))
  | .operator op core a b => do
    let va ← eval ρ a
    let vb ← eval ρ b
    raising (operate H op core va vb)
  | .callMember o m args => do
    let o ← eval ρ o
    let vs ← evalArgs ρ args
    serving (H.callMember o m vs)
  | .setGlobal key e => do
    let v ← eval ρ e
    serving (Vm.storeGlobal H key v)
    return v
  | .throw e => do throw (.raise (.exception (← serving (H.thrownValue (← eval ρ e)))))
  | .tryPlain body => eval ρ body
  | .tryCatch body clauses => catching H (eval ρ body) fun t v => evalClauses H ρ t v clauses
  | .tryFinally body fin fin' => do
    let v ← catching H (eval ρ body) fun t v => do
      evalEffects ρ fin'
      throw (.raise (again t v))
    evalEffects ρ fin
    return v

/-- The body of an arity, entered with the values of its parameters. -/
def enter (a : Arity) (vals : List Value) (ρ : Locals) : Eval σ Thrown Value := do
  let vals ← closing (evalDefaults H a.params ρ a.fixed.length a.keys vals)
  turns a.params vals ρ a.body

def applyFn (site : Site) (c : Closure) (args : List Value) : Eval σ Thrown Value :=
  match c.bind site args with
  | .error r => service (raiseError H (c.refusalText site r))
  | .ok (a, vals) => enter H a vals c.scope

def applyValue (site : Site) (f : Value) (args : List Value) : Eval σ Thrown Value := do
  match f with
  | .fn id =>
    match (← get).fns[id]? with
    | some c => applyFn H site c args
    | none => service (Vm.otherCallee H site f args)
  | _ => service (Vm.otherCallee H site f args)

def meaning : Program (Query σ) Query.Answer Stray
  | .exp ρ e w => evalExp H ρ e w
  | .turns names vals ρ body w => do
    let (r, w) ← Comp.ask (Q := Query σ) (.exp (bindNames names vals ρ) body w)
    match r with
    | .ok v => return (.ok v, w)
    | .error (.raise t) => return (.error t, w)
    | .error (.recur vs) =>
      Comp.ask (Q := Query σ) (.turns names (vs ++ vals.drop vs.length) ρ body w)
  | .apply site f args w => applyValue H site f args w

end

end ProtoClojure.Meaning
