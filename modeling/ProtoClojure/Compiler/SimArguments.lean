import ProtoClojure.Compiler.SimFunctions

/-! A call binds in a frame's slots what it binds to a closure's parameters. -/
namespace ProtoClojure.Simulation
open Recursion
open Meaning (Locals Closure Arity toList)

variable {env : Env} {m : BytecodeModule} {a : Arity} {args captures vals : List Value}

/-! ### Slots -/

/-- Values after those of the first slots. -/
theorem setSlots_range' : ∀ (ys xs : List Value),
    setSlots (List.range' xs.length ys.length) ys (fun i => xs[i]?) = fun i => (xs ++ ys)[i]?
  | [], xs => by simp [setSlots]
  | y :: ys, xs => by
    have hupd : Function.update (fun i => xs[i]?) xs.length (some y) = fun i => (xs ++ [y])[i]? := by
      funext i
      by_cases hi : i = xs.length
      · subst hi
        simp
      · rw [Function.update_of_ne hi]
        by_cases hlt : i < xs.length
        · rw [List.getElem?_append_left hlt]
        · rw [List.getElem?_eq_none (by omega), List.getElem?_eq_none (by simp; omega)]
    rw [List.length_cons, List.range'_succ, setSlots, hupd]
    have h := setSlots_range' ys (xs ++ [y])
    rw [List.length_append, List.length_singleton] at h
    rw [h, List.append_assoc]
    rfl

theorem captured_slots : ∀ (specs : List CaptureSpec) (vals : List Value) (l : Nat → Option Value),
    (specs.zip vals).foldl (fun (l : Nat → Option Value) p => Function.update l p.1.localSlot (some p.2)) l =
      setSlots (specs.map (·.localSlot)) vals l
  | [], _, _ => rfl
  | _ :: _, [], _ => rfl
  | _ :: specs, _ :: vals, _ => captured_slots specs vals _

theorem keyed_slots : ∀ (keys : List KwKey) (pre vals : List Value) (l : Nat → Option Value),
    keys.length = vals.length →
    (keys.zipIdx pre.length).foldl
        (fun (l : Nat → Option Value) p =>
          Function.update l p.1.localSlot (some (((pre ++ vals)[p.2]?).getD .nil))) l =
      setSlots (keys.map (·.localSlot)) vals l
  | [], _, [], _, _ => rfl
  | k :: keys, pre, v :: vals, l, h => by
    have hrest := keyed_slots keys (pre ++ [v]) vals (Function.update l k.localSlot (some v)) (Nat.succ.inj h)
    rw [List.length_append, List.length_singleton, List.append_assoc] at hrest
    rw [List.zipIdx_cons, List.foldl_cons]
    simpa [setSlots] using hrest

/-! ### Arities -/

/-- The module of an arity. -/
structure ArityRel (a : Arity) (m : BytecodeModule) : Prop where
  header : Header m a.fixed a.rest a.keys
  keyed : a.rest.isKwBased = true ∨ a.keys.names = []

/-- What a frame is entered with, for the values of an arity's parameters. -/
structure Entered (a : Arity) (m : BytecodeModule) (captures vals : List Value) (b : Binding) : Prop where
  length : vals.length = a.params.length
  same : b.body = m
  captured : b.captures = captures
  slots : b.slots = setSlots (m.captureSpecs.map (·.localSlot)) captures fun i => vals[i]?

theorem limited_eq {bound : Nat} (h : bound ≤ kMaxBoundParameters) (hk : a.keys.names.length ≤ kMaxKeys) :
    a.limited bound vals = .ok vals := by
  unfold Arity.limited
  rw [if_neg (by omega), if_neg (by omega)]

theorem limited_bound {bound : Nat} (h : kMaxBoundParameters < bound) :
    a.limited bound vals = .error .tooManyParameters := by
  unfold Arity.limited
  rw [if_pos h]

theorem limited_keys {bound : Nat} (h : bound ≤ kMaxBoundParameters) (hk : kMaxKeys < a.keys.names.length) :
    a.limited bound vals = .error .tooManyKeys := by
  unfold Arity.limited
  rw [if_neg (by omega), if_pos hk]

/-- Both refuse, or both bind. -/
def BindsAlike (a : Arity) (m : BytecodeModule) (captures : List Value) :
    Except Refusal (List Value) → Except Refusal Binding → Prop
  | .error r, .error r' => r = r'
  | .ok vals, .ok b => Entered a m captures vals b
  | _, _ => False

/-- The end of a call without keyword arguments. -/
theorem pass_positional {callArgs : List Value} (hk : m.isKwBased = false) (hn : a.keys.names = [])
    (hl : callArgs.length = a.params.length) :
    BindsAlike a m captures (a.limited callArgs.length callArgs)
      (passArguments m captures callArgs callArgs.length none) := by
  unfold passArguments
  by_cases hmax : kMaxBoundParameters < callArgs.length
  · rw [limited_bound hmax, if_pos hmax]
    rfl
  · rw [limited_eq (by omega) (by rw [hn]; exact Nat.zero_le _), if_neg hmax, hk]
    refine ⟨hl, rfl, rfl, ?_⟩
    unfold Binding.slots
    simp only [hk]
    exact captured_slots _ _ _

theorem key_slots (h : ArityRel a m) (hr : a.rest.isKwBased = true) :
    m.kwKeys.map (·.localSlot) = List.range' a.fixed.length a.keys.names.length ∧
      m.kwKeys.map (·.name) = a.keys.names := by
  rw [h.header.kwKeys, hr, if_pos rfl]
  constructor
  · refine List.ext_getElem? fun i => ?_
    by_cases hi : i < a.keys.names.length
    · simp [hi]
    · rw [List.getElem?_eq_none (by simp; omega), List.getElem?_eq_none (by simp; omega)]
  · refine List.ext_getElem? fun i => ?_
    simp only [List.getElem?_map, List.getElem?_mapIdx, Option.map_map]
    cases a.keys.names[i]? <;> rfl

theorem extract_eq (h : ArityRel a m) (hr : a.rest.isKwBased = true) (map : Option Value) :
    extractKwVals m map = a.keys.names.map (Arity.keyValue map) := by
  rw [← (key_slots h hr).2, List.map_map]
  rcases map with _ | v
  · rfl
  · cases v <;> rfl

/-- The end of a call with keyword arguments. -/
theorem pass_keyed {asName : Option String} {positional : List Value} {map : Option Value}
    (h : ArityRel a m) (hr : a.rest = .kwBased asName) (hl : positional.length = a.fixed.length) :
    BindsAlike a m captures
      (a.limited a.fixed.length (positional ++ a.keys.names.map (Arity.keyValue map) ++
        asName.toList.map fun _ => map.getD .nil))
      (passArguments m captures positional positional.length map) := by
  have hk : a.rest.isKwBased = true := by rw [hr]; rfl
  have hkm : m.isKwBased = true := h.header.isKwBased.trans hk
  obtain ⟨hslots, hnames⟩ := key_slots h hk
  have hcount : m.kwKeys.length = a.keys.names.length := by rw [← hnames, List.length_map]
  unfold passArguments
  rw [hl, hkm, if_pos rfl, hcount]
  by_cases hmax : kMaxBoundParameters < a.fixed.length
  · rw [limited_bound hmax, if_pos hmax]
    rfl
  · rw [if_neg hmax]
    by_cases hkeys : kMaxKeys < a.keys.names.length
    · rw [limited_keys (by omega) hkeys, if_pos hkeys]
      rfl
    · rw [limited_eq (by omega) (by omega), if_neg hkeys]
      refine ⟨?_, rfl, rfl, ?_⟩
      · unfold Arity.params paramNames
        rw [hr]
        simp [hl]
      · unfold Binding.slots
        simp only [hkm, if_true]
        refine (captured_slots _ _ _).trans (congrArg _ ?_)
        have hkw := keyed_slots m.kwKeys [] (a.keys.names.map (Arity.keyValue map)) (fun i => positional[i]?)
          (by rw [hcount, List.length_map])
        rw [hslots, ← hl, ← List.length_map (Arity.keyValue map), setSlots_range'] at hkw
        rw [extract_eq h hk]
        have has := h.header.asSlot
        rw [hr] at has
        cases asName with
        | none =>
          simp only [has]
          exact hkw.trans (by simp)
        | some x =>
          simp only [has]
          have hlast := setSlots_range' [map.getD .nil] (positional ++ a.keys.names.map (Arity.keyValue map))
          rw [← hkw, List.length_append, List.length_map, hl] at hlast
          exact hlast

theorem bindBody_rel (h : ArityRel a m) :
    BindsAlike a m captures (a.bind args) (bindBody m captures args) := by
  have harity := h.header.arity
  have hvar := h.header.isVariadic
  have hkw := h.header.isKwBased
  unfold Arity.bind bindBody splitArgs
  cases hr : a.rest with
  | none =>
    rw [hr] at hvar hkw
    have hn : a.keys.names = [] := h.keyed.resolve_left (by simp [hr, RestParam.isKwBased])
    have hp : a.params = a.fixed := by unfold Arity.params paramNames; rw [hr]
    simp only [hkw, hvar, harity, RestParam.isKwBased, RestParam.isVariadic, Bool.false_eq_true, if_false]
    by_cases hlen : args.length = a.fixed.length
    · simp only [if_pos hlen, if_neg (not_not_intro hlen)]
      rw [← hlen]
      exact pass_positional hkw hn (hlen.trans (congrArg _ hp.symm))
    · simp only [if_neg hlen, if_pos (show args.length ≠ a.fixed.length from hlen)]
      rfl
  | variadic name =>
    rw [hr] at hvar hkw
    have hn : a.keys.names = [] := h.keyed.resolve_left (by simp [hr, RestParam.isKwBased])
    have hp : a.params = a.fixed ++ [name] := by unfold Arity.params paramNames; rw [hr]
    simp only [hkw, hvar, harity, RestParam.isKwBased, RestParam.isVariadic, Bool.false_eq_true, if_false,
      if_true]
    by_cases hlen : args.length < a.fixed.length
    · simp only [if_pos hlen]
      rfl
    · simp only [if_neg hlen]
      have hcall : (args.take a.fixed.length ++ [restValue a.fixed.length args]).length = a.fixed.length + 1 := by
        simp
        omega
      rw [← hcall]
      exact pass_positional hkw hn (by rw [hcall, hp]; simp)
  | kwBased asName =>
    rw [hr] at hvar hkw
    simp only [hkw, hvar, harity, RestParam.isKwBased, RestParam.isVariadic, Bool.false_eq_true, if_false,
      if_true]
    unfold Arity.keywordMap
    by_cases hlen : args.length < a.fixed.length
    · simp only [if_pos hlen]
      rfl
    · have htake : (args.take a.fixed.length).length = a.fixed.length := by
        rw [List.length_take]
        omega
      simp only [if_neg hlen, List.length_drop]
      by_cases h0 : args.length - a.fixed.length = 0
      · simp only [if_pos h0]
        have hall : args.take a.fixed.length = args := List.take_of_length_le (by omega)
        rw [hall]
        exact pass_keyed h hr (by omega)
      · simp only [if_neg h0]
        by_cases h1 : args.length - a.fixed.length = 1
        · simp only [if_pos h1]
          have hlast : (args.drop a.fixed.length).head? = args.getLast? := by
            rw [List.head?_drop, List.getLast?_eq_getElem?, show args.length - 1 = a.fixed.length by omega]
          rw [hlast]
          exact pass_keyed h hr htake
        · simp only [if_neg h1]
          by_cases h2 : (args.length - a.fixed.length) % 2 = 0
          · simp only [if_pos h2]
            exact pass_keyed h hr htake
          · simp only [if_neg h2]
            rfl

end ProtoClojure.Simulation
