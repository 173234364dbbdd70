import ProtoClojure.Compiler.Generated

/-! A form stands for one expression only, and leaves the gensym counter at one place. -/
namespace ProtoClojure
open CompileM

/-! ### Native stack left over -/

/-- What `m` accepts `m'` accepts too, with the same answer. -/
def Below {α : Type} (m m' : CompileM α) : Prop := ∀ s r, m s = .ok r → m' s = .ok r

namespace Below
variable {α β : Type}

theorem refl (m : CompileM α) : Below m m := fun _ _ h => h

theorem trans {m m' m'' : CompileM α} (h : Below m m') (h' : Below m' m'') : Below m m'' :=
  fun s r hm => h' s r (h s r hm)

theorem bind {m m' : CompileM α} {f f' : α → CompileM β} (hm : Below m m')
    (hf : ∀ a, Below (f a) (f' a)) : Below (m >>= f) (m' >>= f') := by
  intro s ⟨b, s'⟩ h
  obtain ⟨a, s₁, h₁, h₂⟩ := bind_ok.mp h
  exact bind_ok.mpr ⟨a, s₁, hm s _ h₁, hf a s₁ _ h₂⟩

theorem ite {c : Prop} [Decidable c] {m m' k k' : CompileM α} (h : Below m m') (h' : Below k k') :
    Below (if c then m else k) (if c then m' else k') := by
  split_ifs
  · exact h
  · exact h'

/-- A check in front of the rest. -/
theorem guard {c : Prop} [Decidable c] {message : String} {u k k' : CompileM α} (h : Below k k') :
    Below (if c then (CompileM.fail message : CompileM PUnit) >>= fun _ => u else k)
      (if c then (CompileM.fail message : CompileM PUnit) >>= fun _ => u else k') := .ite (.refl _) h

theorem mapM {f f' : α → CompileM β} (hf : ∀ a, Below (f a) (f' a)) :
    ∀ l : List α, Below (l.mapM f) (l.mapM f')
  | [] => .refl _
  | a :: l => by
    rw [List.mapM_cons, List.mapM_cons]
    exact .bind (hf a) fun b => .bind (mapM hf l) fun bs => .refl _

end Below

section
variable {env : Env}

section
variable {f f' : Form → Form → CompileM (List Form)} (hd : ∀ p v, Below (f p v) (f' p v))
include hd

theorem below_destructureItems (gvec : Form) (gseq : Option Form) :
    ∀ (items : List Form) (seenRest : Bool) (index : Nat),
      Below (destructureItems f gvec gseq seenRest index items)
        (destructureItems f' gvec gseq seenRest index items)
  | [], seenRest, index => by
    unfold destructureItems
    exact .refl _
  | [b], seenRest, index => by
    have ih := below_destructureItems gvec gseq [] seenRest (index + 1)
    unfold destructureItems
    refine .ite (.refl _) (.ite (.refl _) (.guard ?_))
    cases gseq with
    | none => exact .bind (hd _ _) fun _ => .bind ih fun _ => .refl _
    | some g =>
      refine .bind (.refl _) fun _ => .bind (hd _ _) fun _ => .bind (.refl _) fun _ => ?_
      exact .bind ih fun _ => .refl _
  | b :: target :: rest, seenRest, index => by
    have ih := below_destructureItems gvec gseq rest true index
    have ih' := below_destructureItems gvec gseq (target :: rest) seenRest (index + 1)
    unfold destructureItems
    refine .ite (.guard (.bind (hd _ _) fun _ => .bind ih fun _ => .refl _)) (.ite (hd _ _) (.guard ?_))
    cases gseq with
    | none => exact .bind (hd _ _) fun _ => .bind ih' fun _ => .refl _
    | some g =>
      refine .bind (.refl _) fun _ => .bind (hd _ _) fun _ => .bind (.refl _) fun _ => ?_
      exact .bind ih' fun _ => .refl _

theorem below_destructureEntry (gmap : Form) (defaults : List (String × Form)) (k v : Form) :
    Below (destructureEntry env f gmap defaults k v) (destructureEntry env f' gmap defaults k v) := by
  unfold destructureEntry
  exact .ite (.refl _) (.ite (.refl _) (.ite (.refl _) (.ite (.refl _) (hd _ _))))

end

theorem below_destructure : ∀ (fuel : Nat) (pattern value : Form),
    Below (destructure env fuel pattern value) (destructure env (fuel + 1) pattern value)
  | 0, _, _ => fun _ _ h => by cases h
  | fuel + 1, pattern, value => by
    have ih := below_destructure fuel
    unfold destructure
    split
    · exact .refl _
    · refine .bind (.refl _) fun gvec => .ite (.bind (.refl _) fun gseq => ?_) ?_
      · exact .bind (below_destructureItems ih _ _ _ _ _) fun _ => .refl _
      · exact .bind (below_destructureItems ih _ _ _ _ _) fun _ => .refl _
    · refine .bind (.refl _) fun gmap => .bind (.refl _) fun defaults => ?_
      exact .bind (.mapM (fun p => below_destructureEntry ih _ _ _ _) _) fun _ => .refl _
    · exact .refl _

theorem below_destructureBindings {fuel fuel' : Nat} (hle : fuel ≤ fuel') (items : List Form) :
    Below (destructureBindings env fuel items) (destructureBindings env fuel' items) := by
  induction hle with
  | refl => exact .refl _
  | step _ ih =>
    refine ih.trans ?_
    exact .ite (.refl _) (.bind (.mapM (fun _ => below_destructure _ _ _) _) fun _ => .refl _)

/-- Where every target is a symbol there is nothing to rewrite. -/
theorem destructureBindings_some {fuel n n' : Nat} {items flat : List Form}
    (h : Draws n (destructureBindings env fuel items) (some flat) n') (hs : simpleBindings items = true) :
    False := by
  obtain ⟨s, s', -, -, h⟩ := h
  unfold destructureBindings at h
  rw [if_pos hs] at h
  cases (pure_ok.mp h).1

/-- The rewritten bindings are the same however much native stack there was. -/
theorem destructureBindings_unique {fuel fuel' n n₁ n₂ : Nat} {items : List Form} {r r' : Option (List Form)}
    (h : Draws n (destructureBindings env fuel items) r n₁)
    (h' : Draws n (destructureBindings env fuel' items) r' n₂) : r = r' ∧ n₁ = n₂ := by
  have hmax : ∀ {k m r}, k ≤ max fuel fuel' → Draws n (destructureBindings env k items) r m →
      Draws n (destructureBindings env (max fuel fuel') items) r m :=
    fun hle ⟨s, s', hs, hs', hr⟩ => ⟨s, s', hs, hs', below_destructureBindings hle items _ _ hr⟩
  exact Draws.unique (onlyGensym_destructureBindings _ _) (hmax (le_max_left ..) h) (hmax (le_max_right ..) h')

/-! ### What a head tells -/

section
variable {vis : String → Bool} {head : Form} {name name' : String} {core core' : Bool}

attribute [grind →] CallHead.toHeadIs CallHead.isName

@[grind →]
theorem HeadIs.unique (h : HeadIs env vis head name core) (h' : HeadIs env vis head name' core') :
    name = name' ∧ core = core' := by
  have heq := h.dispatch.symm.trans h'.dispatch
  cases heq
  exact ⟨rfl, rfl⟩

@[grind →]
theorem HeadIs.no_expansion {key : String} (h : HeadIs env vis head name core)
    (hm : macroFor env vis head = some key) : False := by
  rw [h.noMacro] at hm
  cases hm

@[grind →]
theorem HeadIs.of_notName (h : HeadIs env vis head name core) (hn : head.isName = false) : name = "" := by
  have hd := h.dispatch
  unfold dispatchName at hd
  rw [hn] at hd
  cases hd
  rfl

@[grind →]
theorem macroFor_isName {key : String} (h : macroFor env vis head = some key) : head.isName = true := by
  unfold macroFor macroForHead at h
  split_ifs at h with hn
  simpa using hn

/-- A call's head is none of the special forms. -/
@[grind →]
theorem CallHead.names_ne (h : CallHead env vis head name core) :
    name ≠ "defmacro" ∧ name ≠ "def" ∧ name ≠ "if" ∧ name ≠ "and" ∧ name ≠ "or" ∧ name ≠ "do" ∧
      name ≠ "quote" ∧ name ≠ "fn" ∧ name ≠ "defn" ∧ name ≠ "let" ∧ name ≠ "loop" ∧ name ≠ "try" ∧
      name ≠ "throw" ∧ name ≠ "apply" ∧ name ≠ "recur" := by
  have hp := h.plain
  simpa [specialHeads] using hp

end

theorem ArityClauses.unique : ∀ {rest : List Form} {clauses clauses' : List (List Form × List Form)},
    ArityClauses env rest clauses → ArityClauses env rest clauses' → clauses = clauses'
  | _, _, _, .nil, .nil => rfl
  | _, _, _, .cons hp h, .cons hp' h' => by
    rw [Yields.unique (onlyGensym_paramItems _ _) hp hp', ArityClauses.unique h h']

/-! ### The rule a head leaves -/

section
variable {vis : String → Bool} {top core : Bool} {head : Form} {rest : List Form} {n n' : Nat} {e : Exp}

theorem Elab.of_expansion {key : String} (hm : macroFor env vis head = some key)
    (h : Elab env vis top n (.list (head :: rest)) e n') :
    ∃ g m, env.expandMacroCall key (.list (head :: rest)) vis n = .ok (g, m) ∧ Elab env vis top m g e n' := by
  cases h with
  | expansion hm' hx h =>
    rw [hm] at hm'
    cases hm'
    exact ⟨_, _, hx, h⟩
  -- every other rule wants another head
  | _ => grind

theorem Elab.of_macroDefinition (hd : HeadIs env vis head "defmacro" core)
    (h : Elab env vis top n (.list (head :: rest)) e n') :
    ∃ name more key fn e₁, rest = .name name :: more ∧ globalKeyForSymbol name = some key ∧
      Yields (macroFn more) fn ∧ Elab env vis top n fn e₁ n' ∧
      e = defExp env key (.call false (.global "__macro__") (.cons e₁ .nil)) := by
  cases h with
  | defmacro _ hk hf h => exact ⟨_, _, _, _, _, rfl, hk, hf, h, rfl⟩
  | _ => grind

theorem Elab.of_def (hd : HeadIs env vis head "def" core)
    (h : Elab env vis top n (.list (head :: rest)) e n') :
    ∃ name f key e₁, rest = [.name name, f] ∧ globalKeyForSymbol name = some key ∧
      Elab env vis top n f e₁ n' ∧ e = defExp env key e₁ := by
  cases h with
  | define _ hk h => exact ⟨_, _, _, _, rfl, hk, h, rfl⟩
  | _ => grind

theorem Elab.of_if {test thn : Form} {els : List Form} (hd : HeadIs env vis head "if" core)
    (h : Elab env vis top n (.list (head :: test :: thn :: els)) e n') :
    match literalTest test with
    | some true => Elab env vis top n thn e n'
    | some false => ElabDo env vis top n els e n'
    | none => ∃ e₁ e₂ e₃ n₁ n₂, Elab env vis top n test e₁ n₁ ∧ Elab env vis top n₁ thn e₂ n₂ ∧
        ElabDo env vis top n₂ els e₃ n' ∧ e = .ite e₁ e₂ e₃ := by
  cases h with
  | ifTrue _ hl _ h =>
    rw [hl]
    exact h
  | ifFalse _ hl _ h =>
    rw [hl]
    exact h
  | ite _ hl _ h₁ h₂ h₃ =>
    rw [hl]
    exact ⟨_, _, _, _, _, h₁, h₂, h₃, rfl⟩
  | _ => grind

theorem Elab.of_and (hd : HeadIs env vis head "and" core)
    (h : Elab env vis top n (.list (head :: rest)) e n') : ElabShort env vis top true n rest e n' := by
  cases h with
  | and _ h => exact h
  | _ => grind

theorem Elab.of_or (hd : HeadIs env vis head "or" core)
    (h : Elab env vis top n (.list (head :: rest)) e n') : ElabShort env vis top false n rest e n' := by
  cases h with
  | or _ h => exact h
  | _ => grind

theorem Elab.of_do (hd : HeadIs env vis head "do" core)
    (h : Elab env vis top n (.list (head :: rest)) e n') : ElabDo env vis top n rest e n' := by
  cases h with
  | «do» _ h => exact h
  | _ => grind

theorem Elab.of_quoteName {s : String} (hd : HeadIs env vis head "quote" core)
    (h : Elab env vis top n (.list [head, .name s]) e n') : .lit (.const (.named s)) = e ∧ n = n' := by
  cases h with
  | quoteName => exact ⟨rfl, rfl⟩
  | quoteAtom _ hq => cases hq
  | quoteDatum _ hq => cases hq
  | _ => grind

theorem Elab.of_quoteAtom {q : Form} (hd : HeadIs env vis head "quote" core)
    (hq : (q.isStr || q.isNumber || q matches .nil | .bool _) = true)
    (h : Elab env vis top n (.list [head, q]) e n') : Elab env vis top n q e n' := by
  cases h with
  | quoteName => cases hq
  | quoteAtom _ _ h => exact h
  | _ => grind

theorem Elab.of_quoteDatum {q : Form} (hd : HeadIs env vis head "quote" core)
    (hq : (q.isName || q.isStr || q.isNumber || q matches .nil | .bool _) = false)
    (h : Elab env vis top n (.list [head, q]) e n') : .lit (.const (.datum q)) = e ∧ n = n' := by
  cases h with
  | quoteName => cases hq
  | quoteDatum => exact ⟨rfl, rfl⟩
  | _ => grind

theorem Elab.of_fn (hd : HeadIs env vis head "fn" core)
    (h : Elab env vis top n (.list (head :: rest)) e n') : ElabFn env vis head n rest e n' := by
  cases h with
  | fn _ h => exact h
  | _ => grind

theorem Elab.of_defn {name : Form} (hd : HeadIs env vis head "defn" core)
    (h : Elab env vis top n (.list (head :: name :: rest)) e n') :
    match dropDocs rest with
    | some rest' => Elab env vis top n (.list (head :: name :: rest')) e n'
    | none => ∃ e₁, ElabFn env vis head n rest e₁ n' ∧
        e = defExp env ((globalKeyForSymbol name.nameOf).getD "") e₁ := by
  cases h with
  | defnDocs _ hr h =>
    rw [hr]
    exact h
  | defn _ hr h =>
    rw [hr]
    exact ⟨_, h, rfl⟩
  | _ => grind

theorem Elab.of_thunk {name : String} (hd : HeadIs env vis head name core)
    (hn : name = "let" ∨ name = "loop" ∨ name = "try")
    (h : Elab env vis true n (.list (head :: rest)) e n') :
    ∃ e₁, Elab env vis false n (.list (head :: rest)) e₁ n' ∧ e = ProtoClojure.thunk e₁ := by
  cases h with
  | thunk _ _ h => exact ⟨_, h, rfl⟩
  | _ => grind

theorem Elab.of_let {bindings : Form} {items body : List Form} (hd : HeadIs env vis head "let" core)
    (hb : Yields (bindingItems "let" bindings) items)
    (h : Elab env vis false n (.list (head :: bindings :: body)) e n') :
    (∃ fuel flat m, Draws n (destructureBindings env fuel items) (some flat) m ∧
      Elab env vis false m (.list (head :: .vector flat :: body)) e n') ∨
    (simpleBindings items = true ∧ ∃ bs m e₁, ElabBinds env vis n items bs m ∧
      ElabDo env (withNames bs.names vis) false m body e₁ n' ∧ e = bindAll bs e₁) := by
  cases h with
  | letPattern _ hb' hf h =>
    obtain rfl := Yields.unique (onlyGensym_bindingItems _ _) hb hb'
    exact .inl ⟨_, _, _, hf, h⟩
  | «let» _ hb' hs h₁ h₂ =>
    obtain rfl := Yields.unique (onlyGensym_bindingItems _ _) hb hb'
    exact .inr ⟨hs, _, _, _, h₁, h₂, rfl⟩
  | _ => grind

theorem Elab.of_loop {bindings : Form} {items body : List Form} (hd : HeadIs env vis head "loop" core)
    (hb : Yields (bindingItems "loop" bindings) items)
    (h : Elab env vis false n (.list (head :: bindings :: body)) e n') :
    (simpleBindings items = false ∧ ∃ outer loopBs inner m,
      Draws n (loopRewrite (pairUp items)) (outer, loopBs, inner) m ∧
      Elab env vis false m (.list [.name "let", .vector outer,
        .list [head, .vector loopBs, .list (.name "let" :: .vector inner :: body)]]) e n') ∨
    (simpleBindings items = true ∧ ∃ bs m e₁, ElabBinds env vis n items bs m ∧
      ElabDo env (withNames bs.names vis) false m body e₁ n' ∧ e = .loop bs e₁) := by
  cases h with
  | loopPattern _ hb' hs hr h =>
    obtain rfl := Yields.unique (onlyGensym_bindingItems _ _) hb hb'
    exact .inl ⟨hs, _, _, _, _, hr, h⟩
  | loop _ hb' hs h₁ h₂ =>
    obtain rfl := Yields.unique (onlyGensym_bindingItems _ _) hb hb'
    exact .inr ⟨hs, _, _, _, h₁, h₂, rfl⟩
  | _ => grind

theorem Elab.of_recur (hd : HeadIs env vis head "recur" core)
    (h : Elab env vis false n (.list (head :: rest)) e n') :
    ∃ es, ElabList env vis false n rest es n' ∧ e = .recur es := by
  cases h with
  | recur _ h => exact ⟨_, h, rfl⟩
  | _ => grind

theorem Elab.of_try (hd : HeadIs env vis head "try" core)
    (h : Elab env vis false n (.list (head :: rest)) e n') :
    ∃ parts e₁ clauses fin n₁ n₂, Yields (splitTry false false rest) parts ∧
      ElabDo env vis false n parts.body e₁ n₁ ∧ ElabClauses env vis n₁ parts.catches clauses n₂ ∧
      ElabFinally env vis n₂ parts.finallyForms fin n' ∧ e = tryExp e₁ clauses fin := by
  cases h with
  | «try» _ hp h₁ h₂ h₃ => exact ⟨_, _, _, _, _, _, hp, h₁, h₂, h₃, rfl⟩
  | _ => grind

theorem Elab.of_throw {f : Form} (hd : HeadIs env vis head "throw" core)
    (h : Elab env vis top n (.list [head, f]) e n') : ∃ e₁, Elab env vis top n f e₁ n' ∧ e = .throw e₁ := by
  cases h with
  | throw _ h => exact ⟨_, h, rfl⟩
  | _ => grind

theorem Elab.of_apply {f a : Form} (hd : HeadIs env vis head "apply" core)
    (h : Elab env vis top n (.list [head, f, a]) e n') :
    ∃ e₁ e₂ m, Elab env vis top n f e₁ m ∧ Elab env vis top m a e₂ n' ∧ e = .apply e₁ e₂ := by
  cases h with
  | apply _ h₁ h₂ => exact ⟨_, _, _, h₁, h₂, rfl⟩
  | _ => grind

theorem Elab.of_applyMore {f a b : Form} {more : List Form} (hd : HeadIs env vis head "apply" core)
    (h : Elab env vis top n (.list (head :: f :: a :: b :: more)) e n') :
    ∃ e₁ es m, Elab env vis top n f e₁ m ∧ ElabList env vis top m (a :: b :: more) es n' ∧
      e = .apply e₁ (.call false (.global "clojure.core/list*") es) := by
  cases h with
  | applyMore _ h₁ h₂ => exact ⟨_, _, _, h₁, h₂, rfl⟩
  | _ => grind

theorem Elab.of_operator {name : String} {f : Form} {op : Op} (hd : CallHead env vis head name core)
    (ho : inlined env vis name core (rest.length + 1) = some op)
    (h : Elab env vis top n (.list (head :: f :: rest)) e n') :
    ∃ e₁ es m, Elab env vis top n f e₁ m ∧ ElabList env vis top m rest es n' ∧
      e = foldOperator op core e₁ es := by
  cases h with
  | operator hd' ho' h₁ h₂ =>
    obtain ⟨rfl, rfl⟩ := hd.toHeadIs.unique hd'.toHeadIs
    rw [ho] at ho'
    cases ho'
    exact ⟨_, _, _, h₁, h₂, rfl⟩
  | _ => grind

theorem Elab.of_call {name : String} (hd : CallHead env vis head name core)
    (ho : inlined env vis name core rest.length = none) (h : Elab env vis top n (.list (head :: rest)) e n') :
    ∃ es, ElabList env vis top n rest es n' ∧
      match headExp vis name core with
      | some f => e = .call (hasKvSuffix rest) f es
      | none => ∃ a b, qualifiedParts name = some (a, b) ∧ e = .callMember (.sym a) b es := by
  cases h with
  | call hd' _ hf h =>
    obtain ⟨rfl, rfl⟩ := hd.toHeadIs.unique hd'.toHeadIs
    rw [hf]
    exact ⟨_, h, rfl⟩
  | callMember hd' _ hf hq h =>
    obtain ⟨rfl, rfl⟩ := hd.toHeadIs.unique hd'.toHeadIs
    rw [hf]
    exact ⟨_, h, _, _, hq, rfl⟩
  | _ => grind

theorem Elab.of_callExp (hd : head.isName = false) (h : Elab env vis top n (.list (head :: rest)) e n') :
    ∃ f es m, Elab env vis top n head f m ∧ ElabList env vis top m rest es n' ∧
      e = .call (hasKvSuffix rest) f es := by
  cases h with
  | callExp _ h₁ h₂ => exact ⟨_, _, _, h₁, h₂, rfl⟩
  | _ => grind

end

/-! ### Forms -/

mutual

theorem Elab.unique {vis : String → Bool} {top : Bool} {n n₁ n₂ : Nat} {f : Form} {e e' : Exp} :
    Elab env vis top n f e n₁ → Elab env vis top n f e' n₂ → e = e' ∧ n₁ = n₂
  | .nil, h' => by cases h'; exact ⟨rfl, rfl⟩
  | .bool b, h' => by cases h'; exact ⟨rfl, rfl⟩
  | .int i, h' => by cases h'; exact ⟨rfl, rfl⟩
  | .float bits, h' => by cases h'; exact ⟨rfl, rfl⟩
  | .str s, h' => by cases h'; exact ⟨rfl, rfl⟩
  | .pattern src, h' => by cases h'; exact ⟨rfl, rfl⟩
  | .emptyList, h' => by cases h'; exact ⟨rfl, rfl⟩
  | .keyword h hk, h' => by cases h' <;> grind
  | .symbol h hk, h' => by cases h' <;> grind
  | .constSet h, h' => by cases h' <;> grind
  | .set h hs, h' => by
    cases h' with
    | constSet h' => exact absurd (h.symm.trans h') Bool.false_ne_true
    | set _ hs' =>
      obtain ⟨rfl, rfl⟩ := hs.unique hs'
      exact ⟨rfl, rfl⟩
  | .vector hs, .vector hs' => by
    obtain ⟨rfl, rfl⟩ := hs.unique hs'
    exact ⟨rfl, rfl⟩
  | .map hs, .map hs' => by
    obtain ⟨rfl, rfl⟩ := hs.unique hs'
    exact ⟨rfl, rfl⟩
  | .expansion hm hx h, he' => by
    obtain ⟨g, m, hx', h'⟩ := he'.of_expansion hm
    rw [hx] at hx'
    cases hx'
    exact h.unique h'
  | Elab.defmacro hd hk hf h, he' => by
    obtain ⟨_, _, _, _, _, hr, hk', hf', h', rfl⟩ := he'.of_macroDefinition hd
    cases hr
    rw [hk] at hk'
    cases hk'
    obtain rfl := Yields.unique (onlyGensym_macroFn _) hf hf'
    obtain ⟨rfl, rfl⟩ := h.unique h'
    exact ⟨rfl, rfl⟩
  | .define hd hk h, he' => by
    obtain ⟨_, _, _, _, hr, hk', h', rfl⟩ := he'.of_def hd
    cases hr
    rw [hk] at hk'
    cases hk'
    obtain ⟨rfl, rfl⟩ := h.unique h'
    exact ⟨rfl, rfl⟩
  | .ifTrue hd hl hn h, h' => by
    have hi := h'.of_if hd
    rw [hl] at hi
    exact h.unique hi
  | .ifFalse hd hl hn h, h' => by
    have hi := h'.of_if hd
    rw [hl] at hi
    exact h.unique hi
  | .ite hd hl hn h₁ h₂ h₃, h' => by
    have hi := h'.of_if hd
    rw [hl] at hi
    obtain ⟨_, _, _, _, _, h₁', h₂', h₃', rfl⟩ := hi
    obtain ⟨rfl, rfl⟩ := h₁.unique h₁'
    obtain ⟨rfl, rfl⟩ := h₂.unique h₂'
    obtain ⟨rfl, rfl⟩ := h₃.unique h₃'
    exact ⟨rfl, rfl⟩
  | .and hd h, h' => h.unique (h'.of_and hd)
  | .or hd h, h' => h.unique (h'.of_or hd)
  | .do hd h, h' => h.unique (h'.of_do hd)
  | .quoteName hd, h' => h'.of_quoteName hd
  | .quoteAtom hd hq h, h' => h.unique (h'.of_quoteAtom hd hq)
  | .quoteDatum hd hq, h' => h'.of_quoteDatum hd hq
  | .fn hd h, h' => h.unique (h'.of_fn hd)
  | .defnDocs hd hr h, h' => by
    have hi := h'.of_defn hd
    rw [hr] at hi
    exact h.unique hi
  | .defn hd hr h, he' => by
    have hi := he'.of_defn hd
    rw [hr] at hi
    obtain ⟨_, h', rfl⟩ := hi
    obtain ⟨rfl, rfl⟩ := h.unique h'
    exact ⟨rfl, rfl⟩
  | .thunk hd hn h, he' => by
    obtain ⟨_, h', rfl⟩ := he'.of_thunk hd hn
    obtain ⟨rfl, rfl⟩ := h.unique h'
    exact ⟨rfl, rfl⟩
  | .letPattern hd hb hf h, he' => by
    obtain ⟨_, _, _, hf', h'⟩ | ⟨hs, -⟩ := he'.of_let hd hb
    · obtain ⟨hflat, rfl⟩ := destructureBindings_unique hf hf'
      cases hflat
      exact h.unique h'
    · exact (destructureBindings_some hf hs).elim
  | .let hd hb hs h₁ h₂, h' => by
    obtain ⟨_, _, _, hf', -⟩ | ⟨-, _, _, _, h₁', h₂', rfl⟩ := h'.of_let hd hb
    · exact (destructureBindings_some hf' hs).elim
    · obtain ⟨rfl, rfl⟩ := h₁.unique h₁'
      obtain ⟨rfl, rfl⟩ := h₂.unique h₂'
      exact ⟨rfl, rfl⟩
  | .loopPattern hd hb hs hr h, he' => by
    obtain ⟨-, _, _, _, _, hr', h'⟩ | ⟨hs', -⟩ := he'.of_loop hd hb
    · obtain ⟨hrw, rfl⟩ := Draws.unique (onlyGensym_loopRewrite _) hr hr'
      cases hrw
      exact h.unique h'
    · exact absurd (hs.symm.trans hs') Bool.false_ne_true
  | .loop hd hb hs h₁ h₂, h' => by
    obtain ⟨hs', -⟩ | ⟨-, _, _, _, h₁', h₂', rfl⟩ := h'.of_loop hd hb
    · exact absurd (hs'.symm.trans hs) Bool.false_ne_true
    · obtain ⟨rfl, rfl⟩ := h₁.unique h₁'
      obtain ⟨rfl, rfl⟩ := h₂.unique h₂'
      exact ⟨rfl, rfl⟩
  | .recur hd h, he' => by
    obtain ⟨_, h', rfl⟩ := he'.of_recur hd
    obtain ⟨rfl, rfl⟩ := h.unique h'
    exact ⟨rfl, rfl⟩
  | .try hd hp h₁ h₂ h₃, h' => by
    obtain ⟨_, _, _, _, _, _, hp', h₁', h₂', h₃', rfl⟩ := h'.of_try hd
    obtain rfl := Yields.unique (onlyGensym_splitTry _ _ _) hp hp'
    obtain ⟨rfl, rfl⟩ := h₁.unique h₁'
    obtain ⟨rfl, rfl⟩ := h₂.unique h₂'
    obtain ⟨rfl, rfl⟩ := h₃.unique h₃'
    exact ⟨rfl, rfl⟩
  | .throw hd h, he' => by
    obtain ⟨_, h', rfl⟩ := he'.of_throw hd
    obtain ⟨rfl, rfl⟩ := h.unique h'
    exact ⟨rfl, rfl⟩
  | .apply hd h₁ h₂, h' => by
    obtain ⟨_, _, _, h₁', h₂', rfl⟩ := h'.of_apply hd
    obtain ⟨rfl, rfl⟩ := h₁.unique h₁'
    obtain ⟨rfl, rfl⟩ := h₂.unique h₂'
    exact ⟨rfl, rfl⟩
  | .applyMore hd h₁ h₂, h' => by
    obtain ⟨_, _, _, h₁', h₂', rfl⟩ := h'.of_applyMore hd
    obtain ⟨rfl, rfl⟩ := h₁.unique h₁'
    obtain ⟨rfl, rfl⟩ := h₂.unique h₂'
    exact ⟨rfl, rfl⟩
  | .operator hd ho h₁ h₂, h' => by
    obtain ⟨_, _, _, h₁', h₂', rfl⟩ := h'.of_operator hd ho
    obtain ⟨rfl, rfl⟩ := h₁.unique h₁'
    obtain ⟨rfl, rfl⟩ := h₂.unique h₂'
    exact ⟨rfl, rfl⟩
  | .call hd ho hf h, he' => by
    obtain ⟨_, h', he⟩ := he'.of_call hd ho
    rw [hf] at he
    obtain ⟨rfl, rfl⟩ := h.unique h'
    exact ⟨he.symm, rfl⟩
  | .callMember hd ho hf hq h, he' => by
    obtain ⟨_, h', he⟩ := he'.of_call hd ho
    rw [hf] at he
    obtain ⟨_, _, hq', rfl⟩ := he
    rw [hq] at hq'
    cases hq'
    obtain ⟨rfl, rfl⟩ := h.unique h'
    exact ⟨rfl, rfl⟩
  | .callExp hd h₁ h₂, h' => by
    obtain ⟨_, _, _, h₁', h₂', rfl⟩ := h'.of_callExp hd
    obtain ⟨rfl, rfl⟩ := h₁.unique h₁'
    obtain ⟨rfl, rfl⟩ := h₂.unique h₂'
    exact ⟨rfl, rfl⟩
termination_by structural h => h

theorem ElabList.unique {vis : String → Bool} {top : Bool} {n n₁ n₂ : Nat} {forms : List Form} {es es' : Exps} :
    ElabList env vis top n forms es n₁ → ElabList env vis top n forms es' n₂ → es = es' ∧ n₁ = n₂
  | .nil, .nil => ⟨rfl, rfl⟩
  | .cons h hs, .cons h' hs' => by
    obtain ⟨rfl, rfl⟩ := h.unique h'
    obtain ⟨rfl, rfl⟩ := hs.unique hs'
    exact ⟨rfl, rfl⟩
termination_by structural h => h

theorem ElabDo.unique {vis : String → Bool} {top : Bool} {n n₁ n₂ : Nat} {forms : List Form} {e e' : Exp} :
    ElabDo env vis top n forms e n₁ → ElabDo env vis top n forms e' n₂ → e = e' ∧ n₁ = n₂
  | .nil, .nil => ⟨rfl, rfl⟩
  | .one h, .one h' => h.unique h'
  | .more h hs, .more h' hs' => by
    obtain ⟨rfl, rfl⟩ := h.unique h'
    obtain ⟨rfl, rfl⟩ := hs.unique hs'
    exact ⟨rfl, rfl⟩
termination_by structural h => h

theorem ElabShort.unique {vis : String → Bool} {top isAnd : Bool} {n n₁ n₂ : Nat} {forms : List Form}
    {e e' : Exp} :
    ElabShort env vis top isAnd n forms e n₁ → ElabShort env vis top isAnd n forms e' n₂ → e = e' ∧ n₁ = n₂
  | .and, .and => ⟨rfl, rfl⟩
  | .or, .or => ⟨rfl, rfl⟩
  | .one h, .one h' => h.unique h'
  | .more h hs, .more h' hs' => by
    obtain ⟨rfl, rfl⟩ := h.unique h'
    obtain ⟨rfl, rfl⟩ := hs.unique hs'
    exact ⟨rfl, rfl⟩
termination_by structural h => h

theorem ElabBinds.unique {vis : String → Bool} {n n₁ n₂ : Nat} {items : List Form} {bs bs' : Binds} :
    ElabBinds env vis n items bs n₁ → ElabBinds env vis n items bs' n₂ → bs = bs' ∧ n₁ = n₂
  | .nil, .nil => ⟨rfl, rfl⟩
  | .cons h hs, .cons h' hs' => by
    obtain ⟨rfl, rfl⟩ := h.unique h'
    obtain ⟨rfl, rfl⟩ := hs.unique hs'
    exact ⟨rfl, rfl⟩
termination_by structural h => h

theorem ElabClauses.unique {vis : String → Bool} {n n₁ n₂ : Nat} {cs : List CatchClause}
    {clauses clauses' : Clauses} :
    ElabClauses env vis n cs clauses n₁ → ElabClauses env vis n cs clauses' n₂ → clauses = clauses' ∧ n₁ = n₂
  | .nil, .nil => ⟨rfl, rfl⟩
  | .cons h hs, .cons h' hs' => by
    obtain ⟨rfl, rfl⟩ := h.unique h'
    obtain ⟨rfl, rfl⟩ := hs.unique hs'
    exact ⟨rfl, rfl⟩
termination_by structural h => h

theorem ElabFinally.unique {vis : String → Bool} {n n₁ n₂ : Nat} {forms : Option (List Form)}
    {fin fin' : Option (Exps × Exps)} :
    ElabFinally env vis n forms fin n₁ → ElabFinally env vis n forms fin' n₂ → fin = fin' ∧ n₁ = n₂
  | .none, .none => ⟨rfl, rfl⟩
  | .some h hs, .some h' hs' => by
    obtain ⟨rfl, rfl⟩ := h.unique h'
    obtain ⟨rfl, rfl⟩ := hs.unique hs'
    exact ⟨rfl, rfl⟩
termination_by structural h => h

theorem ElabFn.unique {vis : String → Bool} {head : Form} {n n₁ n₂ : Nat} {rest : List Form} {e e' : Exp} :
    ElabFn env vis head n rest e n₁ → ElabFn env vis head n rest e' n₂ → e = e' ∧ n₁ = n₂
  | .unnamed hr h, h' => by
    cases h' with
    | unnamed _ h' => exact h.unique h'
    | named => cases hr
  | .named hh hp h, h' => by
    cases h' with
    | unnamed hr _ => cases hr
    | named _ hp' h' =>
      obtain rfl := Yields.unique (onlyGensym_paramItems _ _) hp hp'
      obtain ⟨rfl, rfl⟩ := h.unique h'
      exact ⟨rfl, rfl⟩
termination_by structural h => h

theorem ElabFnArities.unique {vis : String → Bool} {n n₁ n₂ : Nat} {rest : List Form} {e e' : Exp} :
    ElabFnArities env vis n rest e n₁ → ElabFnArities env vis n rest e' n₂ → e = e' ∧ n₁ = n₂
  | .single hm hp h, h' => by
    cases h' with
    | single _ hp' h' =>
      obtain rfl := Yields.unique (onlyGensym_paramItems _ _) hp hp'
      obtain ⟨rfl, rfl⟩ := h.unique h'
      exact ⟨rfl, rfl⟩
    | multi hm' _ _ => exact absurd (hm.symm.trans hm') Bool.false_ne_true
  | .multi hm hc h, h' => by
    cases h' with
    | single hm' _ _ => exact absurd (hm'.symm.trans hm) Bool.false_ne_true
    | multi _ hc' h' =>
      obtain rfl := hc.unique hc'
      obtain ⟨rfl, rfl⟩ := h.unique h'
      exact ⟨rfl, rfl⟩
termination_by structural h => h

theorem ElabArities.unique {vis : String → Bool} {n n₁ n₂ : Nat} {clauses : List (List Form × List Form)}
    {arities arities' : Arities} :
    ElabArities env vis n clauses arities n₁ → ElabArities env vis n clauses arities' n₂ →
      arities = arities' ∧ n₁ = n₂
  | .nil, .nil => ⟨rfl, rfl⟩
  | .cons hr hs hf hk hb hm, .cons hr' hs' hf' hk' hb' hm' => by
    obtain ⟨hrw, rfl⟩ := Draws.unique (onlyGensym_rewriteParams _ _) hr hr'
    cases hrw
    obtain rfl := Yields.unique (onlyGensym_parseParams _) hs hs'
    obtain rfl := Yields.unique (onlyGensym_fixedNames _) hf hf'
    obtain ⟨rfl, rfl⟩ := hk.unique hk'
    obtain ⟨rfl, rfl⟩ := hb.unique hb'
    obtain ⟨rfl, rfl⟩ := hm.unique hm'
    exact ⟨rfl, rfl⟩
termination_by structural h => h

theorem ElabKeys.unique {vis : String → Bool} {n n₁ n₂ : Nat} {decls : List KwKeyDecl} {keys keys' : Keys} :
    ElabKeys env vis n decls keys n₁ → ElabKeys env vis n decls keys' n₂ → keys = keys' ∧ n₁ = n₂
  | .nil, .nil => ⟨rfl, rfl⟩
  | .cons hs, .cons hs' => by
    obtain ⟨rfl, rfl⟩ := hs.unique hs'
    exact ⟨rfl, rfl⟩
  | .consOr h hs, .consOr h' hs' => by
    obtain ⟨rfl, rfl⟩ := h.unique h'
    obtain ⟨rfl, rfl⟩ := hs.unique hs'
    exact ⟨rfl, rfl⟩
termination_by structural h => h

end

end
end ProtoClojure
