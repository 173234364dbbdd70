import ProtoClojure.Runtime.BytecodeModule

/-! Values, function objects and the three places that bind a call's arguments:
`dispatchCall`, `CALL_KW` and `invoke`. -/
namespace ProtoClojure

/-- Values as the calls tell them apart. The entries of a map are its assocs, the latest
first. -/
inductive Value where
  | nil
  | bool (b : Bool)
  | const (c : Const)                      -- a number, a string, a name, a quoted datum
  | list (items : List Value)
  | map (entries : List (Value × Value))
  | fn (id : Nat)
  | host (id : Nat)                        -- any other object
  deriving Inhabited

/-- A function wrapper: the module of its body with the captured values, or one of each
for every arity. -/
inductive FnObject where
  | single (body : BytecodeModule) (captures : List Value)
  | multi (arities : List (BytecodeModule × List Value))

/-- What a call hands to `execute`. -/
structure Binding where
  body : BytecodeModule
  captures : List Value
  args : List Value
  kwVals : List Value := []
  kwMap : Option Value := none

/-- Why a call binds nothing; each route words it in its own way. -/
inductive Refusal where
  | noArity (argc : Nat)
  | arity (fixed argc : Nat)
  | variadic (fixed argc : Nat)
  | keywords (fixed argc : Nat)
  | tooManyParameters
  | tooManyKeys
  | notAList
  deriving DecidableEq, Repr

def kMaxBoundParameters : Nat := 17
def kMaxKeys : Nat := 16

def Value.isKeyword : Value → Bool
  | const (.named s) => isKeywordName s
  | _ => false

/-! ### Keyword arguments -/

def mapAssocPairs (entries : List (Value × Value)) (kv : List Value) : List (Value × Value) :=
  (pairUp kv).foldl (fun entries p => p :: entries) entries

/-- The value of the keyword `:name`. -/
def mapGet (name : String) : List (Value × Value) → Option Value
  | [] => none
  | (.const (.named key), v) :: rest => if key = ":" ++ name then some v else mapGet name rest
  | _ :: rest => mapGet name rest

def kChunkItems : Nat := 256

/-- The pairs of the operand stack as a map, one chunk after the other. -/
def foldKeywordPairs (entries : List (Value × Value)) (kv : List Value) : List (Value × Value) :=
  if kv.length = 0 then entries
  else foldKeywordPairs (mapAssocPairs entries (kv.take kChunkItems)) (kv.drop kChunkItems)
termination_by kv.length
decreasing_by
  rw [List.length_drop, kChunkItems]
  omega

def extractKwVals (body : BytecodeModule) (maybeMap : Option Value) : List Value :=
  match maybeMap with
  | some (.map entries) => body.kwKeys.map fun k => (mapGet k.name entries).getD .nil
  | _ => body.kwKeys.map fun _ => .nil

/-! ### Arity -/

/-- The arity of a multi-arity function that takes `argc` arguments: one that has as many
parameters, else a variadic one, else one with keyword arguments. -/
def pickArity (arities : List (BytecodeModule × List Value)) (argc : Nat) :
    Option (BytecodeModule × List Value) :=
  (arities.find? fun a => !a.1.isVariadic && a.1.arity == argc).or
    ((arities.find? fun a => a.1.isVariadic && a.1.arity ≤ argc).or
      (arities.find? fun a => a.1.isKwBased && a.1.arity ≤ argc &&
        ((argc - a.1.arity) % 2 == 0 || argc - a.1.arity == 1)))

/-! ### The routes -/

/-- The end of a call, once the keyword map is told from the positional arguments. -/
def passArguments (body : BytecodeModule) (captures callArgs : List Value) (passArgc : Nat)
    (kwArgsMap : Option Value) : Except Refusal Binding :=
  if kMaxBoundParameters < passArgc then .error .tooManyParameters
  else if body.isKwBased then
    if kMaxKeys < body.kwKeys.length then .error .tooManyKeys
    else .ok ⟨body, captures, callArgs, extractKwVals body kwArgsMap, kwArgsMap⟩
  else .ok ⟨body, captures, callArgs, [], none⟩

/-- `dispatchCall` on a body; `argc` arguments are on the stack, the pairs after the fixed
ones already folded. -/
def dispatchFolded (body : BytecodeModule) (captures args : List Value) : Except Refusal Binding :=
  let fixed := body.arity
  let argc := args.length
  if body.isKwBased ∧ argc ≠ fixed + 1 ∧ argc ≠ fixed then .error (.keywords fixed argc)
  else if !body.isKwBased ∧ !body.isVariadic ∧ fixed ≠ argc then .error (.arity fixed argc)
  else if !body.isKwBased ∧ body.isVariadic ∧ argc < fixed then .error (.variadic fixed argc)
  else
    let trailing : Bool := body.isKwBased ∧ argc = fixed + 1
    let kwArgsMap := if trailing then args.getLast? else none
    let posArgc := if trailing then argc - 1 else argc
    let passArgc := if body.isVariadic then fixed + 1 else posArgc
    let rest := (args.take posArgc).drop fixed
    let callArgs :=
      args.take fixed ++
        if body.isVariadic then [if fixed < posArgc then .list rest else .nil]
        else if !body.isKwBased then rest
        else []
    passArguments body captures callArgs passArgc kwArgsMap

def dispatchBody (body : BytecodeModule) (captures args : List Value) : Except Refusal Binding :=
  let fixed := body.arity
  if body.isKwBased ∧ fixed + 1 < args.length ∧ (args.length - fixed) % 2 = 0 then
    dispatchFolded body captures
      (args.take fixed ++ [.map (foldKeywordPairs [] (args.drop fixed))])
  else dispatchFolded body captures args

/-- `CALL` and `CALL_APPLY`, once the arguments are on the operand stack. -/
def dispatchCall (f : FnObject) (args : List Value) : Except Refusal Binding :=
  match f with
  | .single body captures => dispatchBody body captures args
  | .multi arities =>
    match pickArity arities args.length with
    | none => .error (.noArity args.length)
    | some (body, captures) => dispatchBody body captures args

/-- What `CALL_APPLY` spreads on the stack; `seqItems` realises the seq of a vector, a map, a
set, a string or a lazy seq. -/
def spread (seqItems : Value → Option (List Value)) : Value → Option (List Value)
  | .list items => some items
  | .nil => some []
  | v => seqItems v

def callApply (seqItems : Value → Option (List Value)) (f : FnObject) (coll : Value) :
    Except Refusal Binding :=
  match spread seqItems coll with
  | some items => dispatchCall f items
  | none => .error .notAList

/-- `CALL_KW`, for a call form that ends in a literal keyword and a value. -/
def callKw (f : FnObject) (args : List Value) : Except Refusal Binding :=
  match f with
  | .single body captures =>
    if body.isKwBased then
      let fixed := body.arity
      if args.length < fixed ∨ (args.length - fixed) % 2 ≠ 0 then
        .error (.keywords fixed args.length)
      else if 0 < args.length - fixed then
        dispatchCall (.single body captures)
          (args.take fixed ++ [.map (foldKeywordPairs [] (args.drop fixed))])
      else dispatchCall (.single body captures) (args.take fixed)
    else dispatchCall f args
  | .multi _ => dispatchCall f args

def invokeBody (body : BytecodeModule) (captures args : List Value) : Except Refusal Binding :=
  let fixed := body.arity
  let argc := args.length
  let pass (kwArgsMap : Option Value) (posArgc : Nat) :=
    let passArgc := if body.isVariadic then fixed + 1 else posArgc
    let rest := (args.take posArgc).drop fixed
    let callArgs :=
      args.take fixed ++
        if body.isVariadic then [if fixed < posArgc then .list rest else .nil]
        else if !body.isKwBased then rest
        else []
    passArguments body captures callArgs passArgc kwArgsMap
  if body.isKwBased then
    if fixed + 1 < argc ∧ (argc - fixed) % 2 = 0 then
      pass (some (.map (mapAssocPairs [] (args.drop fixed)))) fixed
    else if argc = fixed + 1 then pass args.getLast? (argc - 1)
    else if argc ≠ fixed then .error (.keywords fixed argc)
    else pass none argc
  else if !body.isVariadic ∧ fixed ≠ argc then .error (.arity fixed argc)
  else if body.isVariadic ∧ argc < fixed then .error (.variadic fixed argc)
  else pass none argc

/-- `invoke`: a call from a primitive. -/
def invoke (f : FnObject) (args : List Value) : Except Refusal Binding :=
  match f with
  | .single body captures => invokeBody body captures args
  | .multi arities =>
    match pickArity arities args.length with
    | none => .error (.noArity args.length)
    | some (body, captures) => invokeBody body captures args

/-! ### The frame -/

/-- What the parameters, the `:keys`, the `:as` map and the captures put in the slots of a
new frame; `none` is a slot that holds no value. -/
def Binding.slots (b : Binding) : Nat → Option Value :=
  let bound : Nat → Option Value := fun i => b.args[i]?
  let bound :=
    if b.body.isKwBased then
      let keyed := (b.body.kwKeys.zipIdx).foldl
        (fun slots (k, i) => Function.update slots k.localSlot (some ((b.kwVals[i]?).getD .nil)))
        bound
      match b.body.asSlot with
      | some s => Function.update keyed s (some (b.kwMap.getD .nil))
      | none => keyed
    else bound
  (b.body.captureSpecs.zip b.captures).foldl
    (fun slots (spec, v) => Function.update slots spec.localSlot (some v)) bound

end ProtoClojure
