import ProtoClojure.Runtime.Dispatch
import Mathlib.Tactic.Common

/-! A call binds the same values on whichever route it reaches the function. -/
namespace ProtoClojure

theorem pairUp_append {α : Type} (xs ys : List α) (h : xs.length % 2 = 0) :
    pairUp (xs ++ ys) = pairUp xs ++ pairUp ys := by
  induction xs using pairUp.induct with
  | case1 a b rest ih =>
    have hr : rest.length % 2 = 0 := by
      simp only [List.length_cons] at h
      omega
    simp only [List.cons_append, pairUp, ih hr]
  | case2 xs hx =>
    match xs, hx, h with
    | [], _, _ => rfl
    | [_], _, h => simp at h
    | a :: b :: rest, hx, _ => exact absurd rfl (hx a b rest)

theorem mapAssocPairs_append (entries : List (Value × Value)) (xs ys : List Value)
    (h : xs.length % 2 = 0) :
    mapAssocPairs entries (xs ++ ys) = mapAssocPairs (mapAssocPairs entries xs) ys := by
  rw [mapAssocPairs, pairUp_append xs ys h, List.foldl_append]
  rfl

/-- The chunks are of even length, so that no pair is cut. -/
theorem foldKeywordPairs_eq (entries : List (Value × Value)) (kv : List Value) :
    foldKeywordPairs entries kv = mapAssocPairs entries kv := by
  induction entries, kv using foldKeywordPairs.induct with
  | case1 entries kv h =>
    rw [foldKeywordPairs, if_pos h, List.length_eq_zero_iff.mp h]
    rfl
  | case2 entries kv h ih =>
    rw [foldKeywordPairs, if_neg h, ih]
    by_cases hk : kv.length ≤ kChunkItems
    · rw [List.drop_eq_nil_of_le hk, List.take_of_length_le hk]
      rfl
    · have he : (kv.take kChunkItems).length % 2 = 0 := by
        rw [List.length_take, Nat.min_eq_left (by omega)]
        rfl
      rw [← mapAssocPairs_append _ _ _ he, List.take_append_drop]

/-! ### What the language binds -/

/-- The positional arguments and the keyword map a body takes from a list of arguments. -/
def splitArgs (body : BytecodeModule) (args : List Value) :
    Except Refusal (List Value × Option Value) :=
  let fixed := body.arity
  let extra := args.length - fixed
  if body.isKwBased then
    if args.length < fixed then .error (.keywords fixed args.length)
    else if extra = 0 then .ok (args, none)
    else if extra = 1 then .ok (args.take fixed, args.getLast?)
    else if extra % 2 = 0 then
      .ok (args.take fixed, some (.map (mapAssocPairs [] (args.drop fixed))))
    else .error (.keywords fixed args.length)
  else if body.isVariadic then
    if args.length < fixed then .error (.variadic fixed args.length) else .ok (args, none)
  else if args.length ≠ fixed then .error (.arity fixed args.length)
  else .ok (args, none)

/-- The rest parameter: nil when nothing is left for it. -/
def restValue (fixed : Nat) (args : List Value) : Value :=
  if fixed < args.length then .list (args.drop fixed) else .nil

def bindBody (body : BytecodeModule) (captures args : List Value) : Except Refusal Binding :=
  match splitArgs body args with
  | .error e => .error e
  | .ok (positional, kwMap) =>
    if body.isVariadic then
      passArguments body captures (positional.take body.arity ++ [restValue body.arity positional])
        (body.arity + 1) kwMap
    else passArguments body captures positional positional.length kwMap

def bindArgs (f : FnObject) (args : List Value) : Except Refusal Binding :=
  match f with
  | .single body captures => bindBody body captures args
  | .multi arities =>
    match pickArity arities args.length with
    | none => .error (.noArity args.length)
    | some (body, captures) => bindBody body captures args

/-- A body without keyword arguments takes every argument as a positional one. -/
theorem dispatchFolded_positional (body : BytecodeModule) (captures args : List Value)
    (hk : body.isKwBased = false) : dispatchFolded body captures args = bindBody body captures args := by
  cases hv : body.isVariadic with
  | true =>
    by_cases hf : args.length < body.arity
    · simp [dispatchFolded, bindBody, splitArgs, hk, hv, hf]
    · simp [dispatchFolded, bindBody, splitArgs, restValue, hk, hv, hf]
  | false =>
    by_cases hf : args.length = body.arity
    · simp [dispatchFolded, bindBody, splitArgs, hk, hv, ← hf]
    · simp [dispatchFolded, bindBody, splitArgs, hk, hv, hf, Ne.symm hf]

/-- A keyword-argument body with no argument, or one map, after the fixed ones. -/
theorem dispatchFolded_keywords (body : BytecodeModule) (captures args : List Value)
    (hk : body.isKwBased = true)
    (hp : ¬ (body.arity + 1 < args.length ∧ (args.length - body.arity) % 2 = 0)) :
    dispatchFolded body captures args = bindBody body captures args := by
  by_cases h0 : args.length = body.arity
  · cases hv : body.isVariadic <;>
      simp [dispatchFolded, bindBody, splitArgs, restValue, hk, hv, ← h0]
  · by_cases h1 : args.length = body.arity + 1
    · have hf : ¬ body.arity + 1 < body.arity := by omega
      cases hv : body.isVariadic <;>
        simp [dispatchFolded, bindBody, splitArgs, restValue, List.take_take, hk, hv, h1, hf]
    · by_cases hf : args.length < body.arity
      · simp [dispatchFolded, bindBody, splitArgs, hk, hf, h0, h1]
      · have h2 : args.length - body.arity ≠ 0 := by omega
        have h3 : args.length - body.arity ≠ 1 := by omega
        have h4 : (args.length - body.arity) % 2 ≠ 0 := fun h => hp ⟨by omega, h⟩
        simp [dispatchFolded, bindBody, splitArgs, hk, hf, h0, h1, h2, h3, h4]

/-- The pairs after the fixed arguments, folded into a map in the first pair's place, bind
as the pairs do. -/
theorem dispatchFolded_pairs (body : BytecodeModule) (captures args : List Value)
    (hk : body.isKwBased = true) (hl : body.arity < args.length)
    (he : (args.length - body.arity) % 2 = 0) :
    dispatchFolded body captures
        (args.take body.arity ++ [.map (foldKeywordPairs [] (args.drop body.arity))]) =
      bindBody body captures args := by
  have h0 : min body.arity args.length = body.arity := by omega
  have h1 : ¬ args.length < body.arity := by omega
  have h2 : args.length - body.arity ≠ 0 := by omega
  have h3 : args.length - body.arity ≠ 1 := by omega
  cases hv : body.isVariadic <;>
    simp [dispatchFolded, bindBody, splitArgs, restValue, List.take_take, foldKeywordPairs_eq, hk,
      hv, h0, h1, h2, h3, he]

theorem dispatchBody_eq (body : BytecodeModule) (captures args : List Value) :
    dispatchBody body captures args = bindBody body captures args := by
  rw [dispatchBody]
  split_ifs with hp
  · obtain ⟨hk, hl, he⟩ := hp
    exact dispatchFolded_pairs body captures args hk (by omega) he
  · cases hk : body.isKwBased with
    | true => exact dispatchFolded_keywords body captures args hk fun h => hp ⟨hk, h⟩
    | false => exact dispatchFolded_positional body captures args hk

theorem invokeBody_eq (body : BytecodeModule) (captures args : List Value) :
    invokeBody body captures args = bindBody body captures args := by
  cases hk : body.isKwBased with
  | true =>
    by_cases hp : body.arity + 1 < args.length ∧ (args.length - body.arity) % 2 = 0
    · have h1 : ¬ args.length < body.arity := by omega
      have h2 : args.length - body.arity ≠ 0 := by omega
      have h3 : args.length - body.arity ≠ 1 := by omega
      have h4 : min body.arity args.length = body.arity := by omega
      cases hv : body.isVariadic <;>
        simp [invokeBody, bindBody, splitArgs, restValue, List.take_take, hk, hv, hp, h1, h2, h3, h4]
    · rw [← dispatchFolded_keywords body captures args hk hp]
      by_cases h1 : args.length = body.arity + 1
      · simp [invokeBody, dispatchFolded, hk, h1]
      · by_cases h0 : args.length = body.arity
        · have hl : ¬ body.arity + 1 < body.arity := by omega
          simp [invokeBody, dispatchFolded, hk, h0, hl]
        · simp [invokeBody, dispatchFolded, hk, hp, h0, h1]
  | false =>
    rw [← dispatchFolded_positional body captures args hk]
    simp [invokeBody, dispatchFolded, hk]

theorem dispatchCall_eq (f : FnObject) (args : List Value) :
    dispatchCall f args = bindArgs f args := by
  cases f with
  | single body captures => exact dispatchBody_eq body captures args
  | multi arities =>
    cases h : pickArity arities args.length with
    | none => simp only [dispatchCall, bindArgs, h]
    | some arity => simp only [dispatchCall, bindArgs, h, dispatchBody_eq]

theorem invoke_eq (f : FnObject) (args : List Value) : invoke f args = bindArgs f args := by
  cases f with
  | single body captures => exact invokeBody_eq body captures args
  | multi arities =>
    cases h : pickArity arities args.length with
    | none => simp only [invoke, bindArgs, h]
    | some arity => simp only [invoke, bindArgs, h, invokeBody_eq]

/-! ### `CALL_KW` -/

/-- A single-arity keyword-argument function with one argument more than it has parameters. -/
def OneAfterFixed (f : FnObject) (args : List Value) : Prop :=
  ∃ body captures, f = .single body captures ∧ body.isKwBased = true ∧
    args.length = body.arity + 1

/-- `CALL_KW` folds the pairs itself. -/
theorem callKw_pairs (body : BytecodeModule) (captures args : List Value)
    (hk : body.isKwBased = true) (hl : body.arity < args.length)
    (he : (args.length - body.arity) % 2 = 0) :
    callKw (.single body captures) args = bindBody body captures args := by
  have h1 : ¬ (args.length < body.arity ∨ (args.length - body.arity) % 2 ≠ 0) := by omega
  have h2 : 0 < args.length - body.arity := by omega
  have h3 : (args.take body.arity ++
      [Value.map (foldKeywordPairs [] (args.drop body.arity))]).length = body.arity + 1 := by
    rw [List.length_append, List.length_take, Nat.min_eq_left (by omega)]
    rfl
  simp only [callKw, if_pos hk, if_neg h1, if_pos h2, dispatchCall, dispatchBody, h3]
  rw [if_neg (by omega)]
  exact dispatchFolded_pairs body captures args hk hl he

theorem callKw_eq (f : FnObject) (args : List Value) (h : ¬ OneAfterFixed f args) :
    callKw f args = bindArgs f args := by
  cases f with
  | multi arities => exact dispatchCall_eq (.multi arities) args
  | single body captures =>
    cases hk : body.isKwBased with
    | false =>
      rw [callKw, if_neg (by simp [hk])]
      exact dispatchCall_eq _ args
    | true =>
      have h1 : args.length ≠ body.arity + 1 := fun h1 => h ⟨body, captures, rfl, hk, h1⟩
      by_cases hr : args.length < body.arity ∨ (args.length - body.arity) % 2 ≠ 0
      · rw [callKw, if_pos hk, if_pos hr, bindArgs, bindBody, splitArgs]
        by_cases hf : args.length < body.arity
        · simp [hk, hf]
        · have he := hr.resolve_left hf
          have h2 : args.length - body.arity ≠ 0 := by omega
          have h3 : args.length - body.arity ≠ 1 := by omega
          simp [hk, hf, h2, h3, he]
      · by_cases hl : body.arity < args.length
        · exact callKw_pairs body captures args hk hl (by omega)
        · have h2 : ¬ 0 < args.length - body.arity := by omega
          rw [callKw, if_pos hk, if_neg hr, if_neg h2, List.take_of_length_le (by omega)]
          exact dispatchCall_eq _ args

/-- With the map as the one argument after the fixed ones `CALL_KW` refuses. -/
theorem callKw_oneAfterFixed {f : FnObject} {args : List Value} (h : OneAfterFixed f args) :
    ∃ fixed argc, callKw f args = .error (.keywords fixed argc) := by
  obtain ⟨body, captures, rfl, hk, hl⟩ := h
  refine ⟨body.arity, args.length, ?_⟩
  rw [callKw, if_pos hk, if_pos]
  right
  rw [hl, Nat.add_sub_cancel_left]
  decide

theorem passArguments_ne (body : BytecodeModule) (captures callArgs : List Value) (n : Nat)
    (kwMap : Option Value) (fixed argc : Nat) :
    passArguments body captures callArgs n kwMap ≠ .error (.keywords fixed argc) := by
  rw [passArguments]
  split_ifs <;> simp

theorem bindArgs_oneAfterFixed {f : FnObject} {args : List Value} (h : OneAfterFixed f args)
    (fixed argc : Nat) : bindArgs f args ≠ .error (.keywords fixed argc) := by
  obtain ⟨body, captures, rfl, hk, hl⟩ := h
  have h1 : ¬ args.length < body.arity := by omega
  have h2 : args.length - body.arity ≠ 0 := by omega
  have h3 : args.length - body.arity = 1 := by omega
  have hs : splitArgs body args = .ok (args.take body.arity, args.getLast?) := by
    rw [splitArgs, if_pos hk, if_neg h1, if_neg h2, if_pos h3]
  rw [bindArgs, bindBody, hs]
  dsimp only
  split_ifs <;> apply passArguments_ne

/-! ### The routes -/

inductive Route where
  | call
  | callKw
  | apply (coll : Value)
  | invoke

section
variable (seqItems : Value → Option (List Value))

def Route.bind (f : FnObject) (args : List Value) : Route → Except Refusal Binding
  | call => dispatchCall f args
  | callKw => ProtoClojure.callKw f args
  | apply coll => callApply seqItems f coll
  | invoke => ProtoClojure.invoke f args

/-- The route takes these arguments: `CALL_KW` is emitted for a form that ends in a literal
keyword and a value, and `CALL_APPLY` gets a collection that spreads to the arguments. -/
def Route.Carries (args : List Value) : Route → Prop
  | callKw => ∃ init k v, args = init ++ [k, v] ∧ k.isKeyword = true
  | apply coll => spread seqItems coll = some args
  | call | invoke => True

theorem Route.bind_eq (r : Route) (f : FnObject) (args : List Value)
    (hr : r.Carries seqItems args)
    (h : ¬ (Route.callKw.Carries seqItems args ∧ OneAfterFixed f args)) :
    r.bind seqItems f args = bindArgs f args := by
  cases r with
  | call => exact dispatchCall_eq f args
  | invoke => exact invoke_eq f args
  | callKw => exact callKw_eq f args fun ho => h ⟨hr, ho⟩
  | apply coll =>
    have hs : spread seqItems coll = some args := hr
    simp only [Route.bind, callApply, hs]
    exact dispatchCall_eq f args

/-- All routes bind alike, except that a call form which ends in a literal keyword and a
value refuses the value as the keyword map of a single-arity function whose last fixed
parameter takes the keyword. -/
theorem routes_agree_iff (f : FnObject) (args : List Value) :
    (∀ r₁ r₂ : Route, r₁.Carries seqItems args → r₂.Carries seqItems args →
        r₁.bind seqItems f args = r₂.bind seqItems f args) ↔
      ¬ (Route.callKw.Carries seqItems args ∧ OneAfterFixed f args) := by
  constructor
  · rintro h ⟨hc, ho⟩
    obtain ⟨fixed, argc, hk⟩ := callKw_oneAfterFixed ho
    have he := h .call .callKw trivial hc
    rw [Route.bind, Route.bind, hk, dispatchCall_eq] at he
    exact bindArgs_oneAfterFixed ho fixed argc he
  · intro h r₁ r₂ h₁ h₂
    rw [Route.bind_eq seqItems r₁ f args h₁ h, Route.bind_eq seqItems r₂ f args h₂ h]

end

/-- `(defn f [a & {:keys [k]}] ...)` called as `(f :a {:k 1})`. -/
theorem routes_disagree :
    ¬ ∀ (seqItems : Value → Option (List Value)) (f : FnObject) (args : List Value)
      (r₁ r₂ : Route), r₁.Carries seqItems args → r₂.Carries seqItems args →
        r₁.bind seqItems f args = r₂.bind seqItems f args := by
  intro h
  let body : BytecodeModule := { arity := 1, isKwBased := true, kwKeys := [⟨"k", 1⟩] }
  let args : List Value :=
    [.const (.named ":a"), .map [(.const (.named ":k"), .const (.long 1))]]
  have hc : Route.callKw.Carries (fun _ => none) args :=
    ⟨[], .const (.named ":a"), .map [(.const (.named ":k"), .const (.long 1))], rfl, by decide⟩
  have he := h (fun _ => none) (.single body []) args .invoke .callKw trivial hc
  simp [Route.bind, invoke, invokeBody, callKw, passArguments, kMaxBoundParameters, kMaxKeys, body,
    args] at he

end ProtoClojure
