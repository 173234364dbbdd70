import ProtoClojure.Compiler.Clearing
import ProtoClojure.Compiler.SoundBindings

/-! Whatever the compiler accepts stands for a core expression, and the code it emits is that
expression laid out: functions and the forms that remain. -/
namespace ProtoClojure
open CompileM

/-! ### Parameters -/

theorem bindNames_eq (names : List String) (start : Nat) (locals : String → Option Nat) :
    bindNames names start locals =
      fun x => (((names.zipIdx start).reverse : Names).lookup x).or (locals x) := by
  induction names generalizing start locals with
  | nil => rfl
  | cons name rest ih =>
    funext x
    rw [bindNames, ih, List.zipIdx_cons, List.reverse_cons, List.lookup_append, Option.or_assoc]
    by_cases hx : x = name
    · simp [hx]
    · have hb : (x == name) = false := beq_false_of_ne hx
      simp [List.lookup_cons, hb, Function.update_of_ne hx]

theorem paramSlots_lt {params : List String} {p : String × Nat} (h : p ∈ paramSlots params) :
    p.2 < params.length := by
  have hmem := List.mem_reverse.mp h
  have hlt := List.snd_lt_of_mem_zipIdx hmem
  omega

theorem lookup_paramSlots_isSome (params : List String) (y : String) :
    ((paramSlots params).lookup y).isSome = params.contains y := by
  have hmem : ∀ l : Names, (l.lookup y).isSome = (l.map (·.1)).contains y := by
    intro l
    induction l with
    | nil => rfl
    | cons p l ih =>
      rw [List.lookup_cons, List.map_cons, List.contains_cons]
      cases hy : y == p.1 <;> simp [ih]
  rw [hmem, paramSlots, List.map_reverse, List.contains_reverse, List.zipIdx_map_fst]

/-- What a body's scope stands for before anything is compiled into it. -/
def paramGhost (spec : ParamSpec) (fixed : List String) : Ghost :=
  { names := paramSlots (fixed ++ spec.rest.names) }

theorem scopeOk_params (spec : ParamSpec) (fixed : List String) (W : World) :
    ScopeOk (paramGhost spec fixed) W (spec.scope fixed) where
  slots := by
    funext x
    rw [ParamSpec.scope, bindNames_eq]
    rfl
  captures := rfl
  names_lt := fun p hp => paramSlots_lt hp
  captured_lt := by simp [paramGhost]
  nodup := by simp [paramGhost]
  parent := by simp [paramGhost]
  seen := by simp [paramGhost]
  targets := by simp [ParamSpec.scope]

theorem visible_params (spec : ParamSpec) (fixed : List String) (W : World) :
    World.visible ((paramGhost spec fixed, spec.scope fixed) :: W) =
      withNames (fixed ++ spec.rest.names) W.visible := by
  funext y
  simp only [World.visible, List.any_cons, withNames, paramGhost]
  rw [lookup_paramSlots_isSome]

section
variable {env : Env} {compile : Form → CompileM Unit}

/-! ### `:or` defaults -/

def defaultCode (slot : Nat) (cd : Code) : Code :=
  .seq (.block [⟨.pushLocal, slot⟩, ⟨.pushNil, 0⟩, ⟨.eq, 0⟩])
    (.skipIf .jumpIfFalse (.seq cd (.ins ⟨.storeLocal, slot⟩)))

theorem compileDefault_sound (hc : Sound env compile) {form : Form} {slot : Nat} {s s' : Session}
    {V W : World} (hs : SameScope V W) (ht : Tracks env s W)
    (h : compileDefault compile slot form s = .ok ((), s')) :
    ∃ e cd W', Elab env V.visible V.isEmpty s.gensym form e s'.gensym ∧
      Emits env s s' W W' (defaultCode slot cd) fun T lo hi =>
        Compiles env T V.names V.recurSlots lo hi e cd := by
  obtain ⟨_, s₁, h₁, hk₁⟩ := bind_ok.mp h
  obtain ⟨-, rfl⟩ := emit_unit_ok.mp h₁
  obtain ⟨_, s₂, h₂, hk₂⟩ := bind_ok.mp hk₁
  obtain ⟨-, rfl⟩ := emit_unit_ok.mp h₂
  obtain ⟨_, s₃, h₃, hk₃⟩ := bind_ok.mp hk₂
  obtain ⟨-, rfl⟩ := emit_unit_ok.mp h₃
  obtain ⟨jif, s₄, h₄, hk₄⟩ := bind_ok.mp hk₃
  obtain ⟨-, rfl, rfl⟩ := emit_ok.mp h₄
  obtain ⟨_, s₅, h₅, hk₅⟩ := bind_ok.mp hk₄
  obtain ⟨_, s₆, h₆, hk₆⟩ := bind_ok.mp hk₅
  obtain ⟨-, rfl⟩ := emit_unit_ok.mp h₆
  obtain ⟨p, s₇, h₇, hk₇⟩ := bind_ok.mp hk₆
  obtain ⟨rfl, rfl⟩ := pos_ok.mp h₇
  obtain rfl := patchTo_ok hk₇
  have ht₃ := ((ht.push ⟨.pushLocal, slot⟩).push ⟨.pushNil, 0⟩).push ⟨.eq, 0⟩
  obtain ⟨e, cd, W', he, hem⟩ := hc.at hs (ht₃.push ⟨.jumpIfFalse, 0⟩) h₅
  have hst := Emits.ins hem.tracks ⟨.storeLocal, slot⟩ (R := fun _ lo hi => lo = hi) fun _ _ => rfl
  have hskip := Emits.skipIf ht₃ .jumpIfFalse (Emits.seq (ht₃.push ⟨.jumpIfFalse, 0⟩) hem hst)
  have hx₁ := Extends.push ht ⟨.pushLocal, slot⟩
  have hx₂ := hx₁.trans (.push hx₁.tracks ⟨.pushNil, 0⟩)
  have hx₃ := hx₂.trans (.push hx₂.tracks ⟨.eq, 0⟩)
  have htest : Emits env s _ W W (.block [⟨.pushLocal, slot⟩, ⟨.pushNil, 0⟩, ⟨.eq, 0⟩])
      fun _ lo hi => lo = hi := ⟨by rw [Code.flatten_block]; exact hx₃, rfl, fun _ _ => rfl⟩
  refine ⟨e, cd, W', he, ?_⟩
  have hn : (s₅.push ⟨.storeLocal, slot⟩).out.code.length -
      ((((s.push ⟨.pushLocal, slot⟩).push ⟨.pushNil, 0⟩).push ⟨.eq, 0⟩).out.code.length + 1) =
      (Code.seq cd (.ins ⟨.storeLocal, slot⟩)).len := by
    rw [Session.push_code, List.length_append, hem.length]
    simp only [Session.push_code, List.length_append, List.length_cons, List.length_nil, Code.len]
    omega
  rw [hn]
  refine (Emits.seq ht htest hskip).mono ?_
  rintro T lo hi - ⟨mid, rfl, mid', hR, rfl⟩
  exact hR

theorem compileDefaults_sound (hc : Sound env compile) {V : World} (hL : V.recurSlots = none)
    (hne : V.isEmpty = false) :
    ∀ {decls : List KwKeyDecl} {slot : Nat} {s s' : Session} {W : World}, SameScope V W →
      Tracks env s W → compileDefaults compile slot decls s = .ok ((), s') →
      ∃ keys c W', ElabKeys env V.visible s.gensym decls keys s'.gensym ∧
        keys.names = decls.map (·.name) ∧
        Emits env s s' W W' c fun T lo hi => CompilesKeys env T V.names slot lo hi keys c
  | [], slot, s, s', W, _, ht, h => by
    obtain ⟨-, rfl⟩ := pure_ok.mp h
    exact ⟨.nil, .nil, W, .nil, rfl, .nil ht fun T _ => .nil (Nat.le_refl _)⟩
  | ⟨name, none⟩ :: rest, slot, s, s', W, hs, ht, h => by
    have h : compileDefaults compile (slot + 1) rest s = .ok ((), s') := h
    obtain ⟨keys, c, W', hkeys, hn, hem⟩ := compileDefaults_sound hc hL hne hs ht h
    exact ⟨.cons name keys, c, W', .cons hkeys, by simp [Keys.names, hn],
      hem.mono fun T lo hi _ hR => .cons hR⟩
  | ⟨name, some form⟩ :: rest, slot, s, s', W, hs, ht, h => by
    obtain ⟨_, s₁, h₁, hk₁⟩ := bind_ok.mp h
    obtain ⟨e, cd, W₁, he, hem₁⟩ := compileDefault_sound hc hs ht h₁
    obtain ⟨keys, c, W', hkeys, hn, hem⟩ :=
      compileDefaults_sound hc hL hne (hs.trans hem₁.same) hem₁.tracks hk₁
    rw [hne] at he
    refine ⟨.consOr name e keys, .seq (defaultCode slot cd) c, W', .consOr he hkeys,
      by simp [Keys.names, hn], (Emits.seq ht hem₁ hem).mono ?_⟩
    rintro T lo hi - ⟨mid, h₁, h₂⟩
    rw [hL] at h₁
    exact .consOr h₁ h₂

/-! ### One arity -/

theorem paramNames_eq {fixed : List String} {rest : RestSpec} {keys : Keys}
    (h : keys.names = rest.decls.map (·.name)) :
    paramNames fixed rest.param keys = fixed ++ rest.names := by
  cases rest with
  | none => simp [paramNames, RestSpec.param, RestSpec.names]
  | variadic name => rfl
  | kwBased decls asName => simp [paramNames, RestSpec.param, RestSpec.names, h, RestSpec.decls]

@[simp] theorem ParamSpec.module_code (spec : ParamSpec) : spec.module.code = [] := by
  cases hr : spec.rest <;> simp [module, hr]

@[simp] theorem ParamSpec.module_blocks (spec : ParamSpec) : spec.module.blocks = [] := by
  cases hr : spec.rest <;> simp [module, hr]

@[simp] theorem ParamSpec.module_hasHandlers (spec : ParamSpec) :
    spec.module.hasHandlers = false := by
  cases hr : spec.rest <;> simp [module, hr]

@[simp] theorem ParamSpec.module_arity (spec : ParamSpec) :
    spec.module.arity = spec.fixed.length := by
  cases hr : spec.rest <;> simp [module, hr]

theorem header_sound {spec : ParamSpec} {fixed : List String} {keys : Keys} {m : BytecodeModule}
    (hf : fixed.length = spec.fixed.length) (hk : keys.names = spec.rest.decls.map (·.name))
    (harity : m.arity = spec.module.arity) (hvar : m.isVariadic = spec.module.isVariadic)
    (hkw : m.isKwBased = spec.module.isKwBased) (has : m.asSlot = spec.module.asSlot)
    (hkeys : m.kwKeys = spec.module.kwKeys) : Header m fixed spec.rest.param keys := by
  obtain ⟨params, rest⟩ := spec
  simp only at hf
  have hlen : keys.names.length = rest.decls.length := by rw [hk, List.length_map]
  cases rest with
  | none =>
    exact ⟨harity.trans hf.symm, hvar, hkw, hkeys, has⟩
  | variadic name => exact ⟨harity.trans hf.symm, hvar, hkw, hkeys, has⟩
  | kwBased decls asName =>
    refine ⟨harity.trans hf.symm, hvar, hkw, ?_, ?_⟩
    · rw [hkeys, hk]
      simp only [ParamSpec.module, RestSpec.param, RestParam.isKwBased, RestSpec.decls, hf, if_true]
      exact List.ext_getElem (by simp) fun i _ _ => by simp
    · rw [has]
      cases asName with
      | none => rfl
      | some x => simp [ParamSpec.module, RestSpec.param, hf, hlen, RestSpec.decls]

theorem isTryBegin_cleared {w w' : Instr} (h : w.ClearedTo w') : w'.isTryBegin = w.isTryBegin := by
  rcases h with rfl | ⟨hw, rfl⟩
  · rfl
  · simp [Instr.isTryBegin, hw]

/-- `body` is `m` before its last reads were turned into clearing ones. -/
structure Ended (env : Env) (body m : BytecodeModule) (paramEnd : Nat) : Prop where
  rest : m = { body with code := m.code }
  code : m.code = clearedCode env body paramEnd body.code
  handlers : m.code.any Instr.isTryBegin = body.code.any Instr.isTryBegin

theorem ended_sound (env : Env) (body : BytecodeModule) (paramEnd : Nat) :
    Ended env body (if !body.debugInfo || env.library then clearLastReads body body.arity paramEnd else body)
      paramEnd := by
  split_ifs with hc
  · refine ⟨clearLastReads_eq body body.arity paramEnd, ?_,
      cleared_any (clearLastReads_cleared _ _ _) fun w w' => isTryBegin_cleared⟩
    cases body
    rw [clearedCode, if_pos hc]
  · refine ⟨?_, by rw [clearedCode, if_neg hc], rfl⟩
    cases body
    rfl

/-- What is cleared does not depend on the code a module already has. -/
theorem Ended.clearedCode_eq {body m : BytecodeModule} {paramEnd : Nat}
    (h : Ended env body m paramEnd) : m.code = clearedCode env m paramEnd body.code := by
  rw [h.rest]
  exact h.code

theorem endBody_ok {paramEnd : Nat} {outer m : BytecodeModule} {s s' : Session} {g : Ghost}
    {sc : Scope} {V : World} (hs : s.scopes = ((g, sc) :: V).map (·.2))
    (h : endBody env paramEnd outer s = .ok (m, s')) :
    s' = { s with scopes := V.map (·.2), out := outer } ∧
      Ended env { s.out with
        localCount := sc.nextSlot - sc.arity
        captureSpecs := sc.captures } m paramEnd := by
  obtain ⟨t, s₁, hg, hk⟩ := bind_ok.mp h
  obtain ⟨ht', hs'⟩ := get_ok.mp hg
  rw [ht', hs'] at hk
  simp only [hs, List.map_cons] at hk
  obtain ⟨_, s₂, h₂, hk₂⟩ := bind_ok.mp hk
  obtain rfl := set_ok.mp h₂
  split_ifs at hk₂ with hc
  · obtain ⟨rfl, rfl⟩ := pure_ok.mp hk₂
    have he := ended_sound env { s.out with
      localCount := sc.nextSlot - sc.arity
      captureSpecs := sc.captures } paramEnd
    rw [if_pos hc] at he
    exact ⟨rfl, he⟩
  · obtain ⟨rfl, rfl⟩ := pure_ok.mp hk₂
    have he := ended_sound env { s.out with
      localCount := sc.nextSlot - sc.arity
      captureSpecs := sc.captures } paramEnd
    rw [if_neg hc] at he
    exact ⟨rfl, he⟩

theorem keepsGensym_beginDebugBody : KeepsGensym (beginDebugBody env) := by
  intro s s' u h
  obtain ⟨t, s₁, h₁, hk⟩ := bind_ok.mp h
  obtain ⟨-, rfl⟩ := get_ok.mp h₁
  obtain ⟨_, s₂, h₂, hk⟩ := bind_ok.mp hk
  have hmark : s'.gensym = s₂.gensym := by
    refine KeepsGensym.bind (.debugOn env) (fun b => .ite ?_ (.pure _)) _ _ _ hk
    exact .bind (.modify fun _ => rfl) fun _ => .ite (.emit_ _ _) (.pure _)
  rw [hmark, set_ok.mp h₂, (get_ok.mp h₁).1]

/-- The entry mark of a body; debug information is all that changes besides. -/
theorem beginDebugBody_sound {s s' : Session} {W : World} (ht : Tracks env s W)
    (h : beginDebugBody env s = .ok ((), s')) :
    ∃ k b s₁, Mark k ∧ s₁.out = { s.out with debugInfo := b } ∧ Tracks env s₁ W ∧
      Emits env s₁ s' W W k fun _ lo hi => lo = hi := by
  obtain ⟨t, s₁, h₁, hk⟩ := bind_ok.mp h
  obtain ⟨ht', hs'⟩ := get_ok.mp h₁
  rw [ht', hs'] at hk
  obtain ⟨_, s₂, h₂, hk⟩ := bind_ok.mp hk
  obtain rfl := set_ok.mp h₂
  obtain ⟨on, s₃, h₃, hk⟩ := bind_ok.mp hk
  obtain ⟨-, rfl⟩ := debugOn_ok.mp h₃
  have ht₁ : Tracks env { s with pendingFnLine := 0, pendingThunk := false } W :=
    ⟨ht.scopes, ht.ok, ht.start, ht.laid⟩
  have ht₂ : Tracks env { s with
      out := { s.out with debugInfo := true }, pendingFnLine := 0, pendingThunk := false } W :=
    ⟨ht.scopes, ht.ok, ht.start, ht.laid⟩
  rcases ite_ok.mp hk with ⟨-, hk⟩ | ⟨-, hk⟩
  · obtain ⟨_, s₄, h₄, hk⟩ := bind_ok.mp hk
    obtain rfl := modify_ok.mp h₄
    rcases ite_ok.mp hk with ⟨-, hk⟩ | ⟨-, hk⟩
    · obtain ⟨-, rfl⟩ := emit_unit_ok.mp hk
      exact ⟨_, true, _, .line _, rfl, ht₂, .ins ht₂ ⟨.line, _⟩ fun _ _ => rfl⟩
    · obtain ⟨-, rfl⟩ := pure_ok.mp hk
      exact ⟨_, true, _, .none, rfl, ht₂, .nil ht₂ fun _ _ => rfl⟩
  · obtain ⟨-, rfl⟩ := pure_ok.mp hk
    refine ⟨_, s.out.debugInfo, _, .none, ?_, ht₁, .nil ht₁ fun _ _ => rfl⟩
    cases hs : s.out
    rfl

/-- The inside of a body: the prologue, the code of the body as a `recur` target, and `RETURN`. -/
theorem bodyCode_sound (hc : Sound env compile) {slots : List Nat} {decls : List KwKeyDecl}
    {slot : Nat} {body : List Form} {s s₁ s₂ s₃ s₄ : Session} {W : World} (ht : Tracks env s W)
    (hne : W ≠ []) (hL : W.recurSlots = none)
    (h₁ : compileDefaults compile slot decls s = .ok ((), s₁))
    (h₂ : pushRecurTarget slots s₁ = .ok ((), s₂)) (h₃ : compileDo compile body s₂ = .ok ((), s₃))
    (h₄ : (do emit_ .ret 0; popRecurTarget : CompileM Unit) s₃ = .ok ((), s₄)) :
    ∃ keys e n cp cb W', ElabKeys env W.visible s.gensym decls keys n ∧
      keys.names = decls.map (·.name) ∧ ElabDo env W.visible false n body e s₄.gensym ∧
      Emits env s s₄ W W' (.seq cp (.seq (.loop cb) (.ins ⟨.ret, 0⟩))) fun T lo hi => ∃ mid,
        CompilesKeys env T W.names slot lo mid keys cp ∧
          Compiles env T W.names (some slots) mid hi e cb := by
  obtain ⟨_, s₅, h₅, hk⟩ := bind_ok.mp h₄
  obtain ⟨-, rfl⟩ := emit_unit_ok.mp h₅
  obtain rfl := onTopScope_ok.mp hk
  obtain ⟨keys, cp, W₁, hkeys, hn, hemp⟩ :=
    compileDefaults_sound hc hL (isEmpty_of_ne_nil hne) (.refl W) ht h₁
  have hne₁ := hemp.same.ne_nil hne
  obtain ⟨W₂, hw, hoff₂, hslots⟩ := pushRecurTarget_sound hemp.tracks hne₁ h₂
  obtain ⟨e, cb, W₃, he, hem⟩ := compileDo_sound hc (.refl W₂) hw.reset.tracks h₃
  have hret := Emits.ins hem.tracks ⟨.ret, 0⟩ (R := fun _ lo hi => lo = hi) fun _ _ => rfl
  obtain ⟨W₄, hem₄⟩ := hw.emits (d := .seq (.loop cb) (.ins ⟨.ret, 0⟩))
    (Emits.seq hw.reset.tracks hem hret) (by rw [hoff₂]; rfl)
  rw [World.visible_eq hw.names, World.visible_eq hemp.names, isEmpty_of_ne_nil hw.ne_nil,
    keepsGensym_pushRecurTarget _ _ _ _ h₂] at he
  refine ⟨keys, e, _, cp, cb, W₄, hkeys, hn, he, (Emits.seq ht hemp hem₄).mono ?_⟩
  rintro T lo hi - ⟨mid, hk, mid', hb, rfl⟩
  rw [World.names_eq hw.names, World.names_eq hemp.names, hslots] at hb
  exact ⟨mid, hk, hb⟩

theorem Tables.sees_eq {T : Tables} {W : World} (h : T.outer = World.visible W.tail) :
    T.sees W.names = W.visible := by
  funext x
  rw [Tables.sees, h]
  cases W with
  | nil => rfl
  | cons p W => simp [World.visible, World.names]

/-- One arity: the module it compiles to, as a body made in the current one. -/
theorem compileArity_sound (hc : Sound env compile) {params body : List Form} {m : BytecodeModule}
    {s s' : Session} {W : World} (ht : Tracks env s W)
    (h : compileArity env compile params body s = .ok (m, s')) :
    ∃ fixed rest keys e W',
      (∀ {more arities n}, ElabArities env W.visible s'.gensym more arities n →
        ElabArities env W.visible s.gensym ((params, body) :: more) (.cons fixed rest keys e arities) n) ∧
      Extends env s s' W W' [] ∧ W'.map (·.1.names) = W.map (·.1.names) ∧
      (∀ b ∈ m.blocks, LaidOut env b) ∧
      ∀ T, Final T s' W' → ∀ {more ms}, CompilesArities env T W.names more ms →
        CompilesArities env T W.names (.cons fixed rest keys e more) (m :: ms) := by
  obtain ⟨⟨params', pairs⟩, s₁, h₁, hk₁⟩ := bind_ok.mp h
  obtain ⟨spec, s₂, h₂, hk₂⟩ := bind_ok.mp hk₁
  obtain ⟨fixed, s₃, h₃, hk₃⟩ := bind_ok.mp hk₂
  obtain ⟨t, s₄, h₄, hk₄⟩ := bind_ok.mp hk₃
  obtain ⟨ht', hs'⟩ := get_ok.mp h₄
  rw [ht', hs'] at hk₄
  obtain ⟨_, s₅, h₅, hk₅⟩ := bind_ok.mp hk₄
  obtain rfl := modify_ok.mp h₅
  obtain ⟨_, s₅, h₅', hk₅⟩ := bind_ok.mp hk₅
  have hx := (onlyGensym_rewriteParams params none).extends ht h₁
  obtain rfl := (onlyGensym_parseParams params').same h₂
  obtain rfl := (onlyGensym_fixedNames spec.fixed).same h₃
  -- the prologue is empty for every other kind of rest parameter
  obtain ⟨s₆, h₆, hk₆⟩ : ∃ s₆, compileDefaults compile fixed.length spec.rest.decls s₅ =
      .ok ((), s₆) ∧
      (do
        pushRecurTarget (List.range fixed.length)
        compileDo compile (bodyForms pairs body)
        emit_ .ret 0
        popRecurTarget
        endBody env (fixed ++ spec.rest.names).length s₃.out : CompileM BytecodeModule) s₆ =
          .ok (m, s') := by
    cases hr : spec.rest with
    | none =>
      simp only [hr] at hk₅
      exact ⟨_, rfl, hk₅⟩
    | variadic name =>
      simp only [hr] at hk₅
      exact ⟨_, rfl, hk₅⟩
    | kwBased decls asName =>
      simp only [hr] at hk₅
      obtain ⟨_, s₆, h₆, hk₆⟩ := bind_ok.mp hk₅
      exact ⟨s₆, h₆, hk₆⟩
  obtain ⟨_, s₇, h₇, hk₇⟩ := bind_ok.mp hk₆
  obtain ⟨_, s₈, h₈, hk₈⟩ := bind_ok.mp hk₇
  obtain ⟨_, s₉, h₉, hk₉⟩ := bind_ok.mp hk₈
  obtain ⟨_, s₁₀, h₁₀, hk₁₀⟩ := bind_ok.mp hk₉
  have ht₀ : Tracks env { s₃ with scopes := spec.scope fixed :: s₃.scopes, out := spec.module }
      ((paramGhost spec fixed, spec.scope fixed) :: W) :=
    ⟨by rw [hx.tracks.scopes]; rfl, ⟨scopeOk_params spec fixed W, hx.tracks.ok⟩, Nat.zero_le _, by
      simp⟩
  obtain ⟨k, debugInfo, s₀, hmark, hout₀, ht₀, hmk⟩ := beginDebugBody_sound ht₀ h₅'
  obtain ⟨keys, e, n, cp, cb, W₅, hkeys, hn, he, hbe⟩ := bodyCode_sound hc hmk.tracks (by simp) rfl
    h₆ h₇ h₈ (bind_ok.mpr ⟨_, s₉, h₉, h₁₀⟩)
  have hem := Emits.seq ht₀ hmk hbe
  obtain ⟨⟨g, sc⟩, V, hbody, hV, rfl⟩ := List.forall₂_cons_left_iff.mp hem.grows.grows
  obtain ⟨rfl, hended⟩ := endBody_ok hem.tracks.scopes hk₁₀
  rw [visible_params] at hkeys he
  rw [keepsGensym_beginDebugBody _ _ _ h₅'] at hkeys
  have hout := hem.grows.out
  have hoff : s₀.offset = 0 := by
    rw [Session.offset, hout₀, ParamSpec.module_code, List.length_nil, Nat.zero_sub]
  have hcode : s₁₀.out.code = (bodyCode k cp cb).flatten 0 := by
    rw [hout.code, hout₀, ParamSpec.module_code, hoff]
    rfl
  rw [hout₀] at hout
  have hVn : V.map (·.1.names) = W.map (·.1.names) := World.tail_names hem.names
  have hpn : paramNames fixed spec.rest.param keys = fixed ++ spec.rest.names := paramNames_eq hn
  obtain ⟨hok, hVok⟩ := hem.tracks.ok
  refine ⟨fixed, spec.rest.param, keys, e, V,
    fun hm => .cons ⟨_, _, rfl, rfl, h₁⟩ ⟨_, _, h₂⟩ ⟨_, _, h₃⟩ hkeys he hm,
    ⟨⟨rfl, hVok, ?_, hx.tracks.laid⟩, hV, hx.out⟩, hVn, ?_, ?_⟩
  · rw [Session.bodyStart_eq (t := { s₁₀ with scopes := V.map (·.2), out := s₃.out })
      hx.tracks.scopes rfl hV]
    exact hx.tracks.start
  · rw [hended.rest]
    exact hem.tracks.laid
  · intro T hf more ms hmore
    have hsees : T.sees W.names = World.visible V := by
      rw [← World.names_eq hVn]
      exact Tables.sees_eq hf.outer
    have hfinal : Final (m.tables g.captured (T.sees W.names)) s₁₀ ((g, sc) :: V) := by
      rw [hended.rest]
      exact ⟨List.prefix_rfl, List.prefix_rfl, List.prefix_rfl,
        ⟨[], by simp [BytecodeModule.tables, World.captured], by simp⟩, hsees⟩
    obtain ⟨_, hlo, mid, hck, hcb⟩ := hem.rel _ hfinal
    rw [← hlo] at hck
    obtain ⟨hh₁, hh₂, hh₃, hh₄, hh₅, hh₆, hh₇⟩ := hout.header
    obtain ⟨new, hcap, hnew⟩ := hbody.captured
    have hcap' : g.captured = new := by simpa [paramGhost] using hcap
    have hlen := fixedNames_length h₃
    have harity : m.arity = spec.fixed.length := by
      rw [hended.rest]
      exact hh₂.trans spec.module_arity
    have hheader : Header m fixed spec.rest.param keys := by
      rw [hended.rest]
      exact header_sound hlen hn hh₂ hh₄ hh₅ hh₆ hh₇
    refine @CompilesArities.cons env T W.names fixed spec.rest.param keys e more m ms g.captured mid
      sc.nextSlot k cp cb hheader hmark ?_ ?_ hok.nodup ?_ ?_ ?_ ?_ ?_ ?_ hmore
    · rw [hended.rest]
      exact hok.captures.symm
    · intro p hp
      rw [← World.names_eq hVn]
      exact hf.slotOf_some (hok.parent p hp)
    · intro p hp
      rw [hpn]
      exact ⟨(hnew p (hcap' ▸ hp)).1, hok.captured_lt p hp⟩
    · rw [hpn]
      exact hck
    · rw [hpn]
      exact hcb
    · rw [harity, ← hlen]
      have hsc : sc.arity = fixed.length := hbody.arity
      rw [hended.rest, ← hsc]
    · rw [hpn, ← hcode]
      exact hended.clearedCode_eq
    · rw [hended.handlers]
      have hm : m.hasHandlers = s₁₀.out.hasHandlers := by rw [hended.rest]
      rw [hm, hout.handlers, spec.module_hasHandlers, Bool.false_or, hcode, hoff]
      rfl

/-- The module of an arity is laid out, and so are its blocks. -/
theorem compileArity_laidOut (hc : Sound env compile) {params body : List Form} {m : BytecodeModule}
    {s s' : Session} {W : World} (ht : Tracks env s W)
    (h : compileArity env compile params body s = .ok (m, s')) : LaidOut env m := by
  obtain ⟨fixed, rest, keys, e, W', hclause, hx, hn, hl, hrel⟩ := compileArity_sound hc ht h
  exact .body (hclause .nil) (hrel _ (.self s' W') .nil) hl

end

/-! ### Function forms -/

/-- A step that changes neither the scopes nor the module. -/
theorem Extends.of_same {s : Session} (s' : Session) {W : World} (ht : Tracks env s W)
    (hs : s'.scopes = s.scopes) (ho : s'.out = s.out) : Extends env s s' W W [] := by
  refine ⟨⟨hs.trans ht.scopes, ht.ok, ?_, ?_⟩, .refl W, ?_⟩
  · have hstart := ht.start
    rw [Session.bodyStart, hs, ho]
    exact hstart
  · rw [ho]
    exact ht.laid
  · rw [ho]
    exact .refl s.out

theorem keepsGensym_markFn (line : Nat) : KeepsGensym (markFn env line) :=
  .bind (.debugOn env) fun _ => .ite (.modify fun _ => rfl) (.pure _)

theorem markFn_extends {line : Nat} {s s' : Session} {W : World} (ht : Tracks env s W)
    (h : markFn env line s = .ok ((), s')) : Extends env s s' W W [] := by
  obtain ⟨on, s₁, h₁, hk⟩ := bind_ok.mp h
  obtain ⟨-, rfl⟩ := debugOn_ok.mp h₁
  rcases ite_ok.mp hk with ⟨-, hk⟩ | ⟨-, hk⟩
  · obtain rfl := modify_ok.mp hk
    exact .of_same _ ht rfl rfl
  · obtain ⟨-, rfl⟩ := pure_ok.mp hk
    exact .refl ht

theorem keepsGensym_emitCaptures : ∀ captures : List CaptureSpec, KeepsGensym (emitCaptures captures)
  | [] => .pure _
  | c :: rest => .bind (.emit_ .pushLocal c.parentSlot) fun _ => keepsGensym_emitCaptures rest

theorem keepsGensym_emitBlockCaptures : ∀ is : List Nat, KeepsGensym (emitBlockCaptures is)
  | [] => .pure _
  | _ :: rest => .bind .get fun _ =>
    .bind (keepsGensym_emitCaptures _) fun _ => keepsGensym_emitBlockCaptures rest

theorem emitCaptures_sound : ∀ {captures : List CaptureSpec} {s s' : Session} {W : World},
    Tracks env s W → emitCaptures captures s = .ok ((), s') →
    Emits env s s' W W (.pushes captures) (fun _ lo hi => lo = hi) ∧ s'.out.blocks = s.out.blocks
  | [], s, s', W, ht, h => by
    obtain ⟨-, rfl⟩ := pure_ok.mp h
    exact ⟨.nil ht fun _ _ => rfl, rfl⟩
  | c :: rest, s, s', W, ht, h => by
    obtain ⟨_, s₁, h₁, hk⟩ := bind_ok.mp h
    obtain ⟨-, rfl⟩ := emit_unit_ok.mp h₁
    have hins := Emits.ins ht ⟨.pushLocal, c.parentSlot⟩ (R := fun _ lo hi => lo = hi) fun _ _ => rfl
    obtain ⟨hem, hb⟩ := emitCaptures_sound hins.tracks hk
    refine ⟨(Emits.seq ht hins hem).mono ?_, hb⟩
    rintro T lo hi - ⟨mid, rfl, rfl⟩
    rfl

theorem Code.flatten_pushes (captures more : List CaptureSpec) (k : Nat) :
    (Code.pushes (captures ++ more)).flatten k =
      (Code.pushes captures).flatten k ++ (Code.pushes more).flatten (k + (Code.pushes captures).len) := by
  rw [pushes, pushes, pushes, flatten_block, flatten_block, flatten_block, List.map_append]

theorem emitBlockCaptures_sound {blocks : List BytecodeModule} :
    ∀ {is : List Nat} {ms : List BytecodeModule} {s s' : Session} {W : World}, Tracks env s W →
      s.out.blocks = blocks → is.map (blocks[·]?) = ms.map some →
      emitBlockCaptures is s = .ok ((), s') →
      Emits env s s' W W (.pushes (ms.flatMap (·.captureSpecs))) fun _ lo hi => lo = hi
  | [], [], s, s', W, ht, _, _, h => by
    obtain ⟨-, rfl⟩ := pure_ok.mp h
    exact .nil ht fun _ _ => rfl
  | [], _ :: _, s, s', W, _, _, his, _ => by cases his
  | _ :: _, [], s, s', W, _, _, his, _ => by cases his
  | b :: is, m :: ms, s, s', W, ht, hb, his, h => by
    obtain ⟨hbm, his⟩ := List.cons.inj his
    obtain ⟨t, s₁, h₁, hk₁⟩ := bind_ok.mp h
    obtain ⟨ht', hs'⟩ := get_ok.mp h₁
    rw [ht', hs'] at hk₁
    obtain ⟨_, s₂, h₂, hk₂⟩ := bind_ok.mp hk₁
    simp only at hbm
    rw [hb, hbm] at h₂
    obtain ⟨hem, hb₂⟩ := emitCaptures_sound ht h₂
    have hrest := emitBlockCaptures_sound hem.tracks (hb₂.trans hb) his hk₂
    have hall := (Emits.seq ht hem hrest).congr (d := .pushes (m.captureSpecs ++ ms.flatMap (·.captureSpecs)))
      fun k => Code.flatten_pushes _ _ k
    rw [List.flatMap_cons]
    refine hall.mono ?_
    rintro T lo hi - ⟨mid, rfl, rfl⟩
    rfl

theorem addBlock_grows (m sub : BytecodeModule) : OutGrows m (m.addBlock sub).2 [] :=
  ⟨by simp [BytecodeModule.addBlock], List.prefix_rfl, List.prefix_append _ _, List.prefix_rfl,
    ⟨rfl, rfl, rfl, rfl, rfl, rfl, rfl⟩, by simp [BytecodeModule.addBlock]⟩

theorem addBlock_extends {m : BytecodeModule} {s : Session} {W : World} (ht : Tracks env s W)
    (hm : LaidOut env m) : Extends env s { s with out := (s.out.addBlock m).2 } W W [] := by
  refine Extends.onOut (f := (·.addBlock m)) ht (addBlock_grows s.out m) fun b hb => ?_
  rcases List.mem_append.mp hb with hb | hb
  · exact ht.laid b hb
  · rw [List.mem_singleton.mp hb]
    exact hm

section
variable {env : Env} {compile : Form → CompileM Unit}

theorem compileArities_sound (hc : Sound env compile) {line : Nat} {V : World} :
    ∀ {forms : List Form} {is : List Nat} {s s' : Session} {W : World}, SameScope V W →
      Tracks env s W → compileArities env compile line forms s = .ok (is, s') →
      ∃ clauses arities ms W', ArityClauses env forms clauses ∧
        ElabArities env V.visible s.gensym clauses arities s'.gensym ∧ Extends env s s' W W' [] ∧
        W'.map (·.1.names) = W.map (·.1.names) ∧ is.map (s'.out.blocks[·]?) = ms.map some ∧
        ∀ T, Final T s' W' → CompilesArities env T V.names arities ms
  | [], is, s, s', W, _, ht, h => by
    obtain ⟨rfl, rfl⟩ := pure_ok.mp h
    exact ⟨[], .nil, [], W, .nil, .nil, .refl ht, rfl, rfl, fun T _ => .nil⟩
  | f :: rest, is, s, s', W, hs, ht, h => by
    unfold compileArities at h
    split at h
    · rename_i p body
      obtain ⟨params, s₁, h₁, hk₁⟩ := bind_ok.mp h
      obtain ⟨_, s₁', h₁', hk₁⟩ := bind_ok.mp hk₁
      obtain ⟨m, s₂, h₂, hk₂⟩ := bind_ok.mp hk₁
      obtain ⟨i, s₃, h₃, hk₃⟩ := bind_ok.mp hk₂
      obtain ⟨rfl, rfl⟩ := onOut_ok.mp h₃
      obtain ⟨is', s₄, h₄, hk₄⟩ := bind_ok.mp hk₃
      obtain ⟨rfl, rfl⟩ := pure_ok.mp hk₄
      obtain rfl := (onlyGensym_paramItems _ p).same h₁
      have hx₁ := markFn_extends ht h₁'
      obtain ⟨fixed, rp, keys, e, W₂, hclause, hx₂, hn₂, -, hrel⟩ := compileArity_sound hc hx₁.tracks h₂
      have hx₃ := addBlock_extends hx₂.tracks (compileArity_laidOut hc hx₁.tracks h₂)
      have hs₂ : SameScope V W₂ := hs.trans ⟨hx₂.grows, hn₂⟩
      obtain ⟨clauses, arities, ms, W', hcl, har, hx₄, hn₄, hb, hrel₄⟩ :=
        compileArities_sound hc hs₂ hx₃.tracks h₄
      rw [World.visible_eq hs.names, keepsGensym_markFn _ _ _ _ h₁'] at hclause
      rw [World.names_eq hs.names] at hrel
      refine ⟨(params, body) :: clauses, .cons fixed rp keys e arities, m :: ms, W',
        .cons (paramItems_yields h₁) hcl, hclause har, ((hx₁.trans hx₂).trans hx₃).trans hx₄,
        hn₄.trans hn₂, ?_, fun T hf => ?_⟩
      · rw [List.map_cons, List.map_cons, hb]
        have hm : (s₂.out.addBlock m).2.blocks[(s₂.out.addBlock m).1]? = some m :=
          List.getElem?_concat_length
        rw [getElem?_mono hx₄.out.blocks hm]
      · have hf₃ := hf.back hx₄ (World.tail_names hn₄)
        have hf₂ : Final T s₂ W₂ := hf₃.back hx₃ rfl
        exact hrel T hf₂ (hrel₄ T hf)
    · exact (fail_ok.mp h).elim
    · exact (fail_ok.mp h).elim

end

end ProtoClojure
