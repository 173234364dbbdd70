import ProtoClojure.Compiler.SoundForms

/-! Every form the compiler accepts stands for a core expression, and the modules it makes are
laid out: the forms put together. -/
namespace ProtoClojure
open CompileM

section
variable {env : Env} {compile : Form → CompileM Unit}

/-! ### Atoms and literals -/

/-- Code of a literal, which draws no generated symbol. -/
def EmitsLit (env : Env) (V : World) (l : Lit) (s s' : Session) (W : World) : Prop :=
  s'.gensym = s.gensym ∧
    ∃ c W', Emits env s s' W W' c fun T lo hi => Compiles env T V.names V.recurSlots lo hi (.lit l) c

theorem pushConst_sound {add : BytecodeModule → Nat × BytecodeModule} {k : Const}
    {s s' : Session} {V W : World} (ha : Adds add k) (ht : Tracks env s W)
    (h : pushConst add s = .ok ((), s')) : EmitsLit env V (.const k) s s' W := by
  obtain ⟨i, hem⟩ := constOp_sound ht ha h
  exact ⟨KeepsGensym.constOp _ _ _ _ _ h, _, W, hem.mono fun T lo hi _ hR => .const hR.1.le hR.2⟩

theorem pushInt_sound {i : Int} {s s' : Session} {V W : World} (ht : Tracks env s W)
    (h : pushInt i s = .ok ((), s')) : EmitsLit env V (.const (intConst i)) s s' W := by
  unfold pushInt at h
  rw [intConst]
  split_ifs at h ⊢ with hi
  · exact pushConst_sound (addLong_adds i) ht h
  · exact pushConst_sound (addBigInteger_adds i) ht h

theorem pushLit_sound {op : Op} {l : Lit} {s s' : Session} {V W : World} (ht : Tracks env s W)
    (hl : ∀ T lo, Compiles env T V.names V.recurSlots lo lo (.lit l) (.ins ⟨op, 0⟩))
    (h : emit_ op 0 s = .ok ((), s')) : EmitsLit env V l s s' W := by
  obtain ⟨-, rfl⟩ := emit_unit_ok.mp h
  exact ⟨rfl, _, W, .ins ht ⟨op, 0⟩ fun T _ => hl T W.next⟩

/-- A form of its own kind, compiled by its own function. -/
def SoundAt (env : Env) (V : World) (f : Form) (s s' : Session) (W : World) : Prop :=
  ∃ e c W', Elab env V.visible V.isEmpty s.gensym f e s'.gensym ∧
    Emits env s s' W W' c fun T lo hi => Compiles env T V.names V.recurSlots lo hi e c

theorem EmitsLit.soundAt {f : Form} {l : Lit} {s s' : Session} {V W : World}
    (h : EmitsLit env V l s s' W) (he : ∀ n, Elab env V.visible V.isEmpty n f (.lit l) n) :
    SoundAt env V f s s' W := by
  obtain ⟨hg, c, W', hem⟩ := h
  refine ⟨_, c, W', ?_, hem⟩
  rw [hg]
  exact he _

/-! ### Special forms -/

theorem compileDef_sound (hc : Sound env compile) {head : Form} {core : Bool} {rest : List Form}
    {s s' : Session} {V W : World} (hs : SameScope V W) (ht : Tracks env s W)
    (hd : HeadIs env V.visible head "def" core)
    (h : compileDef env compile rest s = .ok ((), s')) :
    SoundAt env V (.list (head :: rest)) s s' W := by
  rcases rest with _ | ⟨nameForm, _ | ⟨f, _ | ⟨g, more⟩⟩⟩
  · exact (fail_ok.mp h).elim
  · exact (fail_ok.mp h).elim
  · unfold compileDef at h
    cases hkey : (if nameForm.isName then globalKeyForSymbol nameForm.nameOf else none) with
    | none =>
      simp only [hkey] at h
      exact (fail_ok.mp h).elim
    | some key =>
      simp only [hkey] at h
      obtain ⟨hname, hkey⟩ : nameForm.isName = true ∧ globalKeyForSymbol nameForm.nameOf = some key := by
        split_ifs at hkey with hn
        exact ⟨hn, hkey⟩
      obtain ⟨name, rfl⟩ : ∃ name, nameForm = .name name := by
        cases nameForm <;> first | exact ⟨_, rfl⟩ | cases hname
      obtain ⟨_, s₁, h₁, hk⟩ := bind_ok.mp h
      obtain ⟨e, c, W₁, he, hem⟩ := hc.at hs ht h₁
      obtain ⟨c', hem'⟩ := emitStoreGlobal_sound ht hem hk
      rw [← keepsGensym_emitStoreGlobal _ _ _ _ hk] at he
      exact ⟨_, c', W₁, .define hd hkey he, hem'⟩
  · exact (fail_ok.mp h).elim

theorem compileIfForm_sound (hc : Sound env compile) {head : Form} {core : Bool} {rest : List Form}
    {s s' : Session} {V W : World} (hs : SameScope V W) (ht : Tracks env s W)
    (hd : HeadIs env V.visible head "if" core) (h : compileIfForm compile rest s = .ok ((), s')) :
    SoundAt env V (.list (head :: rest)) s s' W := by
  rcases rest with _ | ⟨test, _ | ⟨thn, els⟩⟩
  · exact (fail_ok.mp h).elim
  · exact (fail_ok.mp h).elim
  · unfold compileIfForm at h
    dsimp only at h
    rcases ite_ok.mp h with ⟨-, h⟩ | ⟨hn, h⟩
    · exact (fail_ok.mp h).elim
    have hn : els.length ≤ 1 := by omega
    have hels : els.head?.toList = els := by
      rcases els with _ | ⟨f, _ | ⟨g, more⟩⟩
      · rfl
      · rfl
      · simp at hn
    cases hl : literalTest test with
    | some b =>
      cases b with
      | true =>
        simp only [hl] at h
        obtain ⟨e, c, W₁, he, hem⟩ := hc.at hs ht h
        exact ⟨e, c, W₁, .ifTrue hd hl hn he, hem⟩
      | false =>
        simp only [hl] at h
        rcases els with _ | ⟨f, _ | ⟨g, more⟩⟩
        · exact (pushLit_sound ht (fun T lo => .nil (Nat.le_refl lo)) h).soundAt fun _ =>
            .ifFalse hd hl hn .nil
        · obtain ⟨e, c, W₁, he, hem⟩ := hc.at hs ht h
          exact ⟨e, c, W₁, .ifFalse hd hl hn (.one he), hem⟩
        · simp at hn
    | none =>
      simp only [hl] at h
      obtain ⟨e₁, e₂, e₃, n₁, n₂, c, W', h₁, h₂, h₃, hem⟩ := compileIf_sound hc hs ht h
      rw [hels] at h₃
      exact ⟨_, c, W', .ite hd hl hn h₁ h₂ h₃, hem⟩

theorem compileQuote_sound (hc : Sound env compile) {head : Form} {core : Bool} {rest : List Form}
    {s s' : Session} {V W : World} (hs : SameScope V W) (ht : Tracks env s W)
    (hd : HeadIs env V.visible head "quote" core) (h : compileQuote compile rest s = .ok ((), s')) :
    SoundAt env V (.list (head :: rest)) s s' W := by
  have hatom : ∀ {q : Form}, (∀ e, Elab env V.visible V.isEmpty s.gensym q e s'.gensym →
        Elab env V.visible V.isEmpty s.gensym (.list [head, q]) e s'.gensym) →
      compile q s = .ok ((), s') → SoundAt env V (.list [head, q]) s s' W := by
    intro q hq h
    obtain ⟨e, c, W', he, hem⟩ := hc.at hs ht h
    exact ⟨e, c, W', hq e he, hem⟩
  rcases rest with _ | ⟨q, _ | ⟨g, more⟩⟩
  · exact (fail_ok.mp h).elim
  · cases q with
    | name name => exact (pushConst_sound (addNamed_adds name) ht h).soundAt fun _ => .quoteName hd
    | nil | bool | str | int | float => exact hatom (fun _ he => .quoteAtom hd rfl he) h
    | list | vector | map | set | pattern | other =>
      exact (pushConst_sound (addDatum_adds _) ht h).soundAt fun _ => .quoteDatum hd rfl
  · exact (fail_ok.mp h).elim

theorem compileThrow_sound (hc : Sound env compile) {head : Form} {core : Bool} {rest : List Form}
    {s s' : Session} {V W : World} (hs : SameScope V W) (ht : Tracks env s W)
    (hd : HeadIs env V.visible head "throw" core) (h : compileThrow compile rest s = .ok ((), s')) :
    SoundAt env V (.list (head :: rest)) s s' W := by
  rcases rest with _ | ⟨f, _ | ⟨g, more⟩⟩
  · exact (fail_ok.mp h).elim
  · obtain ⟨_, s₁, h₁, hk⟩ := bind_ok.mp h
    obtain ⟨-, rfl⟩ := emit_unit_ok.mp hk
    obtain ⟨e, c, W₁, he, hem⟩ := hc.at hs ht h₁
    have hins := Emits.ins hem.tracks ⟨.throw, 0⟩ (R := fun _ lo hi => lo = hi) fun _ _ => rfl
    refine ⟨_, _, W₁, .throw hd he, (Emits.seq ht hem hins).mono ?_⟩
    rintro T lo hi - ⟨mid, hR, rfl⟩
    exact .throw hR
  · exact (fail_ok.mp h).elim

/-! ### List forms -/

theorem atTopLevel_ok {s s' : Session} {W : World} {b : Bool} (ht : Tracks env s W)
    (h : atTopLevel s = .ok (b, s')) : b = W.isEmpty ∧ s' = s := by
  obtain ⟨t, s₁, h₁, hk⟩ := bind_ok.mp h
  obtain ⟨rfl, rfl⟩ := get_ok.mp h₁
  obtain ⟨rfl, rfl⟩ := pure_ok.mp hk
  rw [ht.scopes]
  cases W <;> exact ⟨rfl, rfl⟩

/-- `let`, `loop` and `try`: at the top level they run as the body of a thunk. -/
theorem thunked_sound (hc : Sound env compile) {head : Form} {name : String} {core : Bool}
    {rest : List Form} {m : CompileM Unit} {s s' : Session} {W : World} (ht : Tracks env s W)
    (hd : HeadIs env W.visible head name core) (hn : name = "let" ∨ name = "loop" ∨ name = "try")
    (hm : W ≠ [] → m s = .ok ((), s') →
      ∃ e c W', Elab env W.visible false s.gensym (.list (head :: rest)) e s'.gensym ∧
      Emits env s s' W W' c fun T lo hi => Compiles env T W.names W.recurSlots lo hi e c)
    (h : (if W.isEmpty then compileAsThunk env compile (.list (head :: rest)) else m) s =
      .ok ((), s')) :
    SoundAt env W (.list (head :: rest)) s s' W := by
  cases W with
  | nil =>
    obtain ⟨e, c, he, hem⟩ := compileAsThunk_sound hc ht h
    exact ⟨_, c, [], .thunk hd hn he, hem⟩
  | cons p W => exact hm (by simp) h

/-- A head that names no special form: a call. -/
theorem callForm_sound (hc : Sound env compile) {head : Form} {name : String} {core : Bool}
    {rest : List Form} {s s' : Session} {W : World} (ht : Tracks env s W)
    (hd : HeadIs env W.visible head name core) (hplain : specialHeads.contains name = false)
    (h : (if core ∧ name = "unquote" then fail "unquote (~) used outside a syntax-quote (`)"
      else if core ∧ name = "unquote-splicing" then
        fail "unquote-splicing (~@) used outside a syntax-quote (`)"
      else if head.isName then compileNamedCall env compile head name core rest
      else do
        compile head
        compileCallArgs compile rest : CompileM Unit) s = .ok ((), s')) :
    SoundAt env W (.list (head :: rest)) s s' W := by
  rcases ite_ok.mp h with ⟨-, h⟩ | ⟨hu, h⟩
  · exact (fail_ok.mp h).elim
  rcases ite_ok.mp h with ⟨-, h⟩ | ⟨hus, h⟩
  · exact (fail_ok.mp h).elim
  have hunquote : (core && (name == "unquote" || name == "unquote-splicing")) = false := by
    cases core with
    | false => rfl
    | true => simpa using ⟨fun h => hu ⟨rfl, h⟩, fun h => hus ⟨rfl, h⟩⟩
  rcases ite_ok.mp h with ⟨hname, h⟩ | ⟨hname, h⟩
  · exact compileNamedCall_sound hc ht ⟨hd, hname, hplain, hunquote⟩ h
  · obtain ⟨_, s₁, h₁, hk⟩ := bind_ok.mp h
    obtain ⟨f, cf, W₁, hf, hem⟩ := hc ht h₁
    obtain ⟨es, c, W', hes, hem'⟩ := compileCallArgs_sound hc (.refl W) ht hem hk
    exact ⟨_, c, W', .callExp (by simpa using hname) hf hes, hem'⟩

theorem compileListForm_sound (hc : Sound env compile) {fuel : Nat} {head : Form} {name : String}
    {core : Bool} {rest : List Form} {s s' : Session} {W : World} (ht : Tracks env s W)
    (hd : HeadIs env W.visible head name core)
    (h : compileListForm env compile fuel (.list (head :: rest)) head name core rest s =
      .ok ((), s')) :
    SoundAt env W (.list (head :: rest)) s s' W := by
  unfold compileListForm at h
  obtain ⟨top, s₁, h₁, hk⟩ := bind_ok.mp h
  obtain ⟨rfl, rfl⟩ := atTopLevel_ok ht h₁
  split at hk
  · exact compileDefmacro_sound hc (.refl W) ht hd hk
  · exact compileDef_sound hc (.refl W) ht hd hk
  · exact compileIfForm_sound hc (.refl W) ht hd hk
  · cases rest with
    | nil =>
      exact (pushLit_sound ht (fun T lo => .bool true (Nat.le_refl lo)) hk).soundAt fun _ => .and hd .and
    | cons f rest =>
      obtain ⟨e, c, W₁, he, hem⟩ :=
        compileShortCircuit_sound hc true rfl (by simp) (.refl W) ht hk
      exact ⟨e, c, W₁, .and hd he, hem⟩
  · cases rest with
    | nil =>
      exact (pushLit_sound ht (fun T lo => .nil (Nat.le_refl lo)) hk).soundAt fun _ => .or hd .or
    | cons f rest =>
      obtain ⟨e, c, W₁, he, hem⟩ :=
        compileShortCircuit_sound hc false rfl (by simp) (.refl W) ht hk
      exact ⟨e, c, W₁, .or hd he, hem⟩
  · obtain ⟨e, c, W₁, he, hem⟩ := compileDo_sound hc (.refl W) ht hk
    exact ⟨e, c, W₁, .do hd he, hem⟩
  · exact compileQuote_sound hc (.refl W) ht hd hk
  · exact compileFnForm_sound true hc (.refl W) ht hd hk
  · exact compileFnForm_sound false hc (.refl W) ht hd hk
  · exact thunked_sound hc ht hd (by simp) (fun hne => compileLetForm_sound hc ht hne hd) hk
  · exact thunked_sound hc ht hd (by simp) (fun hne => compileLoopForm_sound hc ht hne hd) hk
  · exact thunked_sound hc ht hd (by simp) (fun hne => compileTry_sound hc ht hne hd) hk
  · exact compileThrow_sound hc (.refl W) ht hd hk
  · exact compileApply_sound hc ht rfl rfl hd hk
  · exact compileRecur_sound hc ht hd hk
  · refine callForm_sound hc ht hd ?_ hk
    simp_all [specialHeads]

theorem compileList_sound (hc : Sound env compile) {fuel : Nat} {head : Form} {rest : List Form}
    {s s' : Session} {W : World} (ht : Tracks env s W)
    (h : compileList env compile fuel head rest s = .ok ((), s')) :
    SoundAt env W (.list (head :: rest)) s s' W := by
  obtain ⟨⟨name, core⟩, s₁, h₁, hk⟩ := bind_ok.mp h
  obtain ⟨hdisp, rfl⟩ := lift_ok.mp h₁
  obtain ⟨_, s₂, h₂, hk⟩ := bind_ok.mp hk
  obtain ⟨k, hmark, hmk⟩ := markList_sound ht h₂
  obtain ⟨t, s₃, h₃, hk⟩ := bind_ok.mp hk
  obtain ⟨ht', hs'⟩ := get_ok.mp h₃
  rw [ht', hs'] at hk
  obtain ⟨e, c, W', he, hem⟩ : SoundAt env W (.list (head :: rest)) s₂ s' W := by
    cases hm : macroForHead env s₂ head with
    | some key =>
      simp only [hm] at hk
      rw [hmk.tracks.macroForHead] at hm
      exact compileMacroCall_sound hc (.refl W) hmk.tracks hm hk
    | none =>
      simp only [hm] at hk
      rw [hmk.tracks.macroForHead] at hm
      exact compileListForm_sound hc hmk.tracks ⟨hm, hdisp⟩ hk
  rw [keepsGensym_markList _ _ _ _ h₂] at he
  refine ⟨e, _, W', he, (Emits.seq ht hmk hem).mono ?_⟩
  rintro T lo hi - ⟨mid, rfl, hR⟩
  exact .mark hmark hR

end

/-! ### The compiler -/

/-- The compiler, with any amount of native stack. -/
theorem compileForm_sound (env : Env) (fuel : Nat) : Sound env (compileForm env fuel) := by
  induction fuel with
  | zero =>
    intro f s s' W _ h
    exact (throw_ok.mp h).elim
  | succ fuel ih =>
    intro f s s' W ht h
    cases f with
    | nil => exact (pushLit_sound ht (fun T lo => .nil (Nat.le_refl lo)) h).soundAt fun _ => .nil
    | bool b =>
      cases b with
      | true =>
        exact (pushLit_sound ht (fun T lo => .bool true (Nat.le_refl lo)) h).soundAt fun _ => .bool true
      | false =>
        exact (pushLit_sound ht (fun T lo => .bool false (Nat.le_refl lo)) h).soundAt fun _ => .bool false
    | int i => exact (pushInt_sound ht h).soundAt fun _ => .int i
    | float bits => exact (pushConst_sound (addDouble_adds bits) ht h).soundAt fun _ => .float bits
    | str str => exact (pushConst_sound (addString_adds str) ht h).soundAt fun _ => .str str
    | name spelling => exact compileName_sound ht h
    | list items =>
      cases items with
      | nil => exact (pushConst_sound (addDatum_adds (.list [])) ht h).soundAt fun _ => .emptyList
      | cons head rest => exact compileList_sound ih ht h
    | vector items =>
      obtain ⟨es, c, W', hes, hem⟩ := compileHelperCall_sound ih (.refl W) ht h
      exact ⟨_, c, W', .vector hes, hem⟩
    | map entries =>
      obtain ⟨es, c, W', hes, hem⟩ := compileHelperCall_sound ih (.refl W) ht h
      exact ⟨_, c, W', .map hes, hem⟩
    | set elems =>
      rcases ite_ok.mp h with ⟨hall, h⟩ | ⟨hall, h⟩
      · exact (pushConst_sound (addDatum_adds (.set elems)) ht h).soundAt fun _ => .constSet hall
      · obtain ⟨es, c, W', hes, hem⟩ := compileHelperCall_sound ih (.refl W) ht h
        exact ⟨_, c, W', .set (by simpa using hall) hes, hem⟩
    | pattern source =>
      exact (pushConst_sound (addDatum_adds (.pattern source)) ht h).soundAt fun _ => .pattern source
    | other id => exact (fail_ok.mp h).elim

/-- The module of a top-level form: the form's expression laid out and a return, with the
modules of the functions in it laid out too. -/
theorem compileModule_laidOut {env : Env} {fuel : Nat} {form : Form} {m : BytecodeModule}
    (h : compileModule env fuel form = .ok m) :
    ∃ e n c, Elab env (fun _ => false) true 0 form e n ∧
      Compiles env (m.tables [] fun _ => false) [] none 0 0 e c ∧
      m.code = (Code.seq c (.ins ⟨.ret, 0⟩)).flatten 0 ∧ (∀ b ∈ m.blocks, LaidOut env b) ∧
      m.captureSpecs = [] ∧ m.hasHandlers = m.code.any Instr.isTryBegin := by
  unfold compileModule at h
  cases hr : (compileForm env fuel form *> emit_ .ret 0 : CompileM Unit).run
      { out := { debugInfo := env.recordPositions } } with
  | error e =>
    rw [hr] at h
    cases h
  | ok r =>
    rw [hr] at h
    cases h
    rw [seqRight_eq_bind] at hr
    obtain ⟨_, s₁, h₁, hk⟩ := bind_ok.mp hr
    obtain ⟨-, hs₂⟩ := emit_unit_ok.mp hk
    have ht : Tracks env { out := { debugInfo := env.recordPositions } } [] :=
      ⟨rfl, trivial, Nat.le_refl _, fun b hb => by cases hb⟩
    obtain ⟨e, c, W', he, hem⟩ := compileForm_sound env fuel ht h₁
    obtain rfl : W' = [] := List.map_eq_nil_iff.mp hem.names
    have hret := Emits.ins hem.tracks ⟨.ret, 0⟩ (R := fun _ lo hi => lo = hi) fun _ _ => rfl
    have hall := Emits.seq ht hem hret
    rw [hs₂]
    obtain ⟨mid, hc, rfl⟩ := hall.rel _ (.self _ [])
    refine ⟨e, _, c, he, hc, hall.grows.out.code, hall.tracks.laid, hall.grows.out.header.1, ?_⟩
    rw [hall.grows.out.code]
    exact hall.grows.out.handlers

end ProtoClojure
