import ProtoClojure.Compiler.Compile
import ProtoClojure.Runtime.CallRoutes

/-! `acceptsArgCount` against the calls it speaks for. -/
namespace ProtoClojure

/-- Of a function value; any other callable answers true and reports a mismatch itself. -/
def acceptsArgCount (f : FnObject) (argc : Nat) : Bool :=
  match f with
  | .multi arities => (pickArity arities argc).isSome
  | .single body _ =>
    if body.isKwBased then argc == body.arity || argc == body.arity + 1
    else if body.isVariadic then body.arity ≤ argc
    else argc == body.arity

/-- Some call with `argc` arguments binds the parameters. -/
def WouldBind (f : FnObject) (argc : Nat) : Prop :=
  ∃ args b, args.length = argc ∧ invoke f args = .ok b

namespace BytecodeModule
variable (body : BytecodeModule) (argc : Nat)

/-- A rest parameter and keyword arguments exclude each other. -/
def OneRest : Prop := ¬ (body.isVariadic = true ∧ body.isKwBased = true)

/-- The parameters fit a frame. -/
def Fits : Prop :=
  (if body.isVariadic then body.arity + 1 else body.arity) ≤ kMaxBoundParameters ∧
    (body.isKwBased = true → body.kwKeys.length ≤ kMaxKeys)

/-- One or more key/value pairs follow the fixed arguments. -/
def TakesPairs : Prop :=
  body.isKwBased = true ∧ body.arity + 2 ≤ argc ∧ (argc - body.arity) % 2 = 0

/-- The count alone would bind. -/
def TakesCount : Prop :=
  if body.isKwBased then argc = body.arity ∨ argc = body.arity + 1 ∨ body.TakesPairs argc
  else if body.isVariadic then body.arity ≤ argc
  else argc = body.arity

end BytecodeModule

def FnObject.OneRest : FnObject → Prop
  | single body _ => body.OneRest
  | multi arities => ∀ a ∈ arities, a.1.OneRest

/-- What the compiler makes of a parameter vector. -/
theorem ParamSpec.module_oneRest (spec : ParamSpec) : spec.module.OneRest := by
  unfold ParamSpec.module BytecodeModule.OneRest
  cases spec.rest with
  | none => exact nofun
  | variadic name => exact nofun
  | kwBased keys asName => exact nofun

section
variable {body : BytecodeModule} {captures args : List Value} {n : Nat}

theorem passArguments_ok {callArgs : List Value} {kwMap : Option Value} :
    (∃ b, passArguments body captures callArgs n kwMap = .ok b) ↔
      n ≤ kMaxBoundParameters ∧ (body.isKwBased = true → body.kwKeys.length ≤ kMaxKeys) := by
  unfold passArguments
  by_cases hn : kMaxBoundParameters < n
  · rw [if_pos hn]
    exact iff_of_false nofun fun h => Nat.not_le.mpr hn h.1
  · cases hk : body.isKwBased with
    | false => simp [hn, Nat.le_of_not_lt hn]
    | true =>
      by_cases hkeys : kMaxKeys < body.kwKeys.length
      · simp [hn, hkeys]
      · simp [hn, hkeys, Nat.le_of_not_lt hn, Nat.le_of_not_lt hkeys]

/-- What is left to bind positionally has the length of the fixed parameters. -/
theorem splitArgs_ok (h : body.TakesCount args.length) :
    ∃ positional kwMap, splitArgs body args = .ok (positional, kwMap) ∧
      (body.isVariadic = false → positional.length = body.arity) := by
  unfold BytecodeModule.TakesCount at h
  unfold splitArgs
  cases hk : body.isKwBased with
  | true =>
    rw [hk, if_pos rfl] at h
    rcases h with h | h | ⟨-, hl, he⟩
    · exact ⟨args, none, by simp [h], fun _ => h⟩
    · exact ⟨args.take body.arity, args.getLast?, by simp [h], fun _ => by simp [h]⟩
    · have h1 : ¬ args.length < body.arity := by omega
      have h2 : args.length - body.arity ≠ 0 := by omega
      have h3 : args.length - body.arity ≠ 1 := by omega
      have h4 : min body.arity args.length = body.arity := by omega
      exact ⟨args.take body.arity, _, by simp [h1, h2, h3, he]; rfl, fun _ => by simp [h4]⟩
  | false =>
    rw [hk, if_neg Bool.false_ne_true] at h
    cases hv : body.isVariadic with
    | true =>
      rw [hv, if_pos rfl] at h
      exact ⟨args, none, by simp [Nat.not_lt.mpr h], nofun⟩
    | false =>
      rw [hv, if_neg Bool.false_ne_true] at h
      exact ⟨args, none, by simp [h], fun _ => h⟩

theorem splitArgs_refused (h : ¬ body.TakesCount args.length) :
    ∃ e, splitArgs body args = .error e := by
  unfold BytecodeModule.TakesCount BytecodeModule.TakesPairs at h
  unfold splitArgs
  cases hk : body.isKwBased with
  | true =>
    simp only [hk, if_true, true_and, not_or, not_and] at h
    obtain ⟨h0, h1, h2⟩ := h
    by_cases hl : args.length < body.arity
    · simp [hl]
    · have h3 : args.length - body.arity ≠ 0 := by omega
      have h4 : args.length - body.arity ≠ 1 := by omega
      have h5 : (args.length - body.arity) % 2 ≠ 0 := h2 (by omega)
      simp [hl, h3, h4, h5]
  | false =>
    cases hv : body.isVariadic with
    | true =>
      simp only [hk, hv, if_true] at h
      simp [Nat.lt_of_not_le h]
    | false =>
      rw [hk, hv, if_neg Bool.false_ne_true, if_neg Bool.false_ne_true] at h
      simp [h]

theorem bindBody_ok :
    (∃ b, bindBody body captures args = .ok b) ↔ body.TakesCount args.length ∧ body.Fits := by
  unfold bindBody
  by_cases h : body.TakesCount args.length
  · obtain ⟨positional, kwMap, hs, hlen⟩ := splitArgs_ok h
    rw [hs]
    cases hv : body.isVariadic with
    | true => simp [passArguments_ok, BytecodeModule.Fits, h, hv]
    | false => simp [passArguments_ok, BytecodeModule.Fits, h, hv, hlen hv]
  · obtain ⟨e, he⟩ := splitArgs_refused h
    rw [he]
    simp [h]

end

/-! ### The predicate -/

/-- A list of that many arguments. -/
theorem exists_args {P : Nat → Prop} {n : Nat} :
    (∃ args : List Value, args.length = n ∧ P args.length) ↔ P n :=
  ⟨fun ⟨_, hn, h⟩ => hn ▸ h, fun h => ⟨List.replicate n .nil, by simp, by simpa using h⟩⟩

theorem binds_single {body : BytecodeModule} {captures : List Value} {argc : Nat} :
    WouldBind (.single body captures) argc ↔ body.TakesCount argc ∧ body.Fits := by
  rw [← exists_args (P := fun n => body.TakesCount n ∧ body.Fits)]
  refine exists_congr fun args => ?_
  rw [exists_and_left, invoke_eq]
  exact and_congr_right fun _ => bindBody_ok

/-- An arity is picked by its count, so that only its size can refuse. -/
theorem pickArity_takes {arities : List (BytecodeModule × List Value)} {argc : Nat}
    {a : BytecodeModule × List Value} (ha : ∀ a ∈ arities, a.1.OneRest)
    (h : pickArity arities argc = some a) : a.1.TakesCount argc := by
  have hone : ∀ p, arities.find? p = some a → p a = true ∧ a.1.OneRest := fun p hp =>
    ⟨List.find?_some hp, ha a (List.mem_of_find?_eq_some hp)⟩
  unfold BytecodeModule.TakesCount BytecodeModule.TakesPairs
  rcases Option.or_eq_some_iff.mp h with h | ⟨-, h⟩
  · obtain ⟨hp, -⟩ := hone _ h
    have hp : a.1.isVariadic = false ∧ a.1.arity = argc := by simpa using hp
    simp [hp]
  · rcases Option.or_eq_some_iff.mp h with h | ⟨-, h⟩
    · obtain ⟨hp, h1⟩ := hone _ h
      have hp : a.1.isVariadic = true ∧ a.1.arity ≤ argc := by simpa using hp
      have hk : a.1.isKwBased = false := by
        cases hk : a.1.isKwBased with
        | false => rfl
        | true => exact absurd ⟨hp.1, hk⟩ h1
      simp [hp, hk]
    · obtain ⟨hp, -⟩ := hone _ h
      have hp : (a.1.isKwBased = true ∧ a.1.arity ≤ argc) ∧
          ((argc - a.1.arity) % 2 = 0 ∨ argc - a.1.arity = 1) := by simpa using hp
      simp only [hp, if_true, true_and]
      omega

theorem pickArity_mem {arities : List (BytecodeModule × List Value)} {argc : Nat}
    {a : BytecodeModule × List Value} (h : pickArity arities argc = some a) : a ∈ arities := by
  rcases Option.or_eq_some_iff.mp h with h | ⟨-, h⟩
  · exact List.mem_of_find?_eq_some h
  · rcases Option.or_eq_some_iff.mp h with h | ⟨-, h⟩
    · exact List.mem_of_find?_eq_some h
    · exact List.mem_of_find?_eq_some h

theorem binds_multi {arities : List (BytecodeModule × List Value)} {argc : Nat}
    (ha : ∀ a ∈ arities, a.1.OneRest) :
    WouldBind (.multi arities) argc ↔ ∃ a, pickArity arities argc = some a ∧ a.1.Fits := by
  unfold WouldBind
  rw [← exists_args (P := fun n => ∃ a, pickArity arities n = some a ∧ a.1.Fits)]
  refine exists_congr fun args => ?_
  rw [exists_and_left, invoke_eq]
  refine and_congr_right fun _ => ?_
  cases h : pickArity arities args.length with
  | none => simp only [bindArgs, h, reduceCtorEq, exists_false, false_and]
  | some a =>
    have ht := pickArity_takes ha h
    simp only [bindArgs, h, bindBody_ok, ht, true_and, Option.some.injEq, exists_eq_left']

/-- The counts the predicate and the calls decide alike: no pairs after the fixed parameters of
a single-arity function that fits a frame, and no count of an arity that fits none. -/
def FnObject.Told (f : FnObject) (argc : Nat) : Prop :=
  match f with
  | single body _ => (body.TakesPairs argc → ¬ body.Fits) ∧
      (body.TakesCount argc ∧ ¬ body.TakesPairs argc → body.Fits)
  | multi arities => ∀ a, pickArity arities argc = some a → a.1.Fits

theorem acceptsArgCount_iff (f : FnObject) (argc : Nat) (hf : f.OneRest) :
    (acceptsArgCount f argc = true ↔ WouldBind f argc) ↔ f.Told argc := by
  cases f with
  | single body captures =>
    have haccepts : acceptsArgCount (.single body captures) argc = true ↔
        body.TakesCount argc ∧ ¬ body.TakesPairs argc := by
      unfold BytecodeModule.TakesCount BytecodeModule.TakesPairs
      cases hk : body.isKwBased with
      | true =>
        simp only [acceptsArgCount, hk, if_true, Bool.or_eq_true, beq_iff_eq, true_and]
        omega
      | false => cases hv : body.isVariadic <;> simp [acceptsArgCount, hk, hv]
    have htakes : body.TakesPairs argc → body.TakesCount argc := fun h => by
      unfold BytecodeModule.TakesCount
      rw [if_pos h.1]
      exact .inr (.inr h)
    rw [haccepts, binds_single]
    unfold FnObject.Told
    by_cases hp : body.TakesPairs argc
    · simp [hp, htakes hp]
    · simp [hp]
  | multi arities =>
    rw [binds_multi hf]
    unfold FnObject.Told
    cases h : pickArity arities argc with
    | none => simp [acceptsArgCount, h]
    | some a => simp [acceptsArgCount, h]

/-- `(fn ([a] ...) ([a & {:keys [k]}] ...) ([a b c & more] ...))` takes one argument, a fixed one
and a pair, and five; `(fn [a & {:keys [k]}] ...)` takes a trailing map. -/
theorem acceptsArgCount_iff_arities :
    let kw : BytecodeModule := { arity := 1, isKwBased := true, kwKeys := [⟨"k", 0⟩] }
    let f : FnObject := .multi [({ arity := 1 }, []), (kw, []),
      ({ arity := 3, isVariadic := true }, [])]
    let g : FnObject := .single kw []
    f.OneRest ∧ g.OneRest ∧ acceptsArgCount f 3 = true ∧
      (acceptsArgCount f 1 = true ↔ WouldBind f 1) ∧ (acceptsArgCount f 2 = true ↔ WouldBind f 2) ∧
      (acceptsArgCount f 3 = true ↔ WouldBind f 3) ∧ (acceptsArgCount f 5 = true ↔ WouldBind f 5) ∧
      (acceptsArgCount g 2 = true ↔ WouldBind g 2) := by
  intro kw f g
  have hkw : kw.OneRest := nofun
  have hf : f.OneRest := by
    intro a ha
    obtain rfl | rfl | rfl : a = _ ∨ a = _ ∨ a = _ := by simpa [f] using ha
    · exact nofun
    · exact hkw
    · exact nofun
  have hpick : ∀ n, f.Told n := by
    intro n a ha
    have hm : a ∈ [(({ arity := 1 } : BytecodeModule), ([] : List Value)), (kw, []),
        ({ arity := 3, isVariadic := true }, [])] := pickArity_mem ha
    obtain rfl | rfl | rfl : a = _ ∨ a = _ ∨ a = _ := by simpa using hm
    all_goals simp [kw, BytecodeModule.Fits, kMaxBoundParameters, kMaxKeys]
  have hg : g.Told 2 := ⟨fun h => absurd h.2.1 (by decide), fun _ => by
    simp [kw, BytecodeModule.Fits, kMaxBoundParameters, kMaxKeys]⟩
  exact ⟨hf, hkw, by decide, (acceptsArgCount_iff f 1 hf).mpr (hpick 1),
    (acceptsArgCount_iff f 2 hf).mpr (hpick 2), (acceptsArgCount_iff f 3 hf).mpr (hpick 3),
    (acceptsArgCount_iff f 5 hf).mpr (hpick 5), (acceptsArgCount_iff g 2 hkw).mpr hg⟩

/-- `(fn [& {:keys [k]}] ...)` takes `:k 1`. -/
theorem acceptsArgCount_pairs :
    let f : FnObject := .single { arity := 0, isKwBased := true, kwKeys := [⟨"k", 0⟩] } []
    ¬ (acceptsArgCount f 2 = true ↔ WouldBind f 2) := by
  intro f h
  have hb : WouldBind f 2 := binds_single.mpr ⟨by simp [BytecodeModule.TakesCount,
    BytecodeModule.TakesPairs], by simp [BytecodeModule.Fits, kMaxBoundParameters, kMaxKeys]⟩
  exact absurd (h.mpr hb) (by decide)

end ProtoClojure
