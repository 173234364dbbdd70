import ProtoClojure.Compiler.SoundFunctions

/-! Whatever the compiler accepts stands for a core expression, and the code it emits is that
expression laid out: function forms, thunks and macros. -/
namespace ProtoClojure
open CompileM

section
variable {env : Env} {compile : Form → CompileM Unit}

/-! ### `fn` and `defn` -/

theorem ElabFn.single {vis : String → Bool} {head p : Form} {body params : List Form} {n n' : Nat}
    {arities : Arities} (hm : isArityForm p = false) (hn : p.isName = false)
    (hp : Yields (paramItems "" p) params) (h : ElabArities env vis n [(params, body)] arities n') :
    ElabFn env vis head n (p :: body) (.fn true false arities) n' :=
  .unnamed (by simp [hn]) (.single hm hp h)

theorem formLineOf_extends {line : Nat} {s s' : Session} {W : World} (ht : Tracks env s W)
    (h : formLineOf env s = .ok (line, s')) : Extends env s s' W W [] := by
  obtain ⟨on, s₁, h₁, hk⟩ := bind_ok.mp h
  obtain ⟨-, rfl⟩ := debugOn_ok.mp h₁
  rcases ite_ok.mp hk with ⟨-, hk⟩ | ⟨-, hk⟩
  · obtain ⟨t, s₂, h₂, hk⟩ := bind_ok.mp hk
    obtain ⟨ht', hs'⟩ := get_ok.mp h₂
    rw [ht', hs'] at hk
    obtain ⟨_, s₃, h₃, hk⟩ := bind_ok.mp hk
    obtain rfl := set_ok.mp h₃
    obtain ⟨-, rfl⟩ := pure_ok.mp hk
    exact .of_same _ ht rfl rfl
  · obtain ⟨-, rfl⟩ := pure_ok.mp hk
    exact .refl ht

theorem keepsGensym_formLineOf : KeepsGensym (formLineOf env) := by
  refine .bind (.debugOn env) fun on => .ite ?_ (.pure _)
  intro s s' line h
  obtain ⟨t, s₁, h₁, hk⟩ := bind_ok.mp h
  obtain ⟨_, s₂, h₂, hk⟩ := bind_ok.mp hk
  rw [(pure_ok.mp hk).2, set_ok.mp h₂, (get_ok.mp h₁).1]

/-- What `paramItems` takes is no name. -/
theorem paramItems_isName {message : String} {p : Form} {params : List Form} {s s' : Session}
    (h : paramItems message p s = .ok (params, s')) : p.isName = false := by
  cases p <;> first | rfl | exact (fail_ok.mp h).elim

/-- The one arity of a function form, with the form around it. -/
theorem compileFnBody_sound (hc : Sound env compile) {head : Form} {rest : List Form}
    {m : BytecodeModule} {s s' : Session} {W : World} (ht : Tracks env s W)
    (hm : rest.head?.any isArityForm = false)
    (h : compileFnBody env compile head rest s = .ok (m, s')) :
    ∃ asSpelled arities W', ElabFn env W.visible head s.gensym rest (.fn asSpelled false arities) s'.gensym ∧
      Extends env s s' W W' [] ∧ W'.map (·.1.names) = W.map (·.1.names) ∧ LaidOut env m ∧
      ∀ T, Final T s' W' → CompilesArities env T W.names arities [m] := by
  unfold compileFnBody at h
  split_ifs at h with hhead
  · exact (fail_ok.mp h).elim
  cases rest with
  | nil => exact (fail_ok.mp h).elim
  | cons p body =>
    dsimp only at h
    split_ifs at h with hname
    · obtain ⟨hfn, hp⟩ := Bool.and_eq_true_iff.mp hname
      cases body with
      | nil => exact (fail_ok.mp h).elim
      | cons q body =>
        obtain ⟨params, s₁, h₁, hk⟩ := bind_ok.mp h
        obtain rfl := (onlyGensym_paramItems _ q).same h₁
        obtain ⟨fixed, rp, keys, e, W₂, harity, hx₂, hn₂, -, hrel⟩ := compileArity_sound hc ht hk
        obtain ⟨name, rfl⟩ : ∃ name, p = .name name := by
          cases p <;> first | exact ⟨_, rfl⟩ | cases hp
        exact ⟨!isArityForm q, _, W₂, .named (of_decide_eq_true hfn) (paramItems_yields h₁)
          (harity .nil), hx₂, hn₂, compileArity_laidOut hc ht hk,
          fun T hf => hrel T hf .nil⟩
    · obtain ⟨params, s₁, h₁, hk⟩ := bind_ok.mp h
      obtain rfl := (onlyGensym_paramItems _ p).same h₁
      obtain ⟨fixed, rp, keys, e, W₂, harity, hx₂, hn₂, -, hrel⟩ := compileArity_sound hc ht hk
      exact ⟨true, _, W₂, .single hm (paramItems_isName h₁) (paramItems_yields h₁) (harity .nil),
        hx₂, hn₂, compileArity_laidOut hc ht hk, fun T hf => hrel T hf .nil⟩

theorem isArityForm_isName {f : Form} (h : isArityForm f = true) : f.isName = false := by
  cases f <;> first | rfl | cases h

theorem map_getElem?_mono {α : Type} {l l' : List α} (h : l <+: l') :
    ∀ {is : List Nat} {as : List α}, is.map (l[·]?) = as.map some → is.map (l'[·]?) = as.map some
  | [], [], _ => rfl
  | [], _ :: _, hi => by cases hi
  | _ :: _, [], hi => by cases hi
  | i :: is, a :: as, hi => by
    obtain ⟨ha, hi⟩ := List.cons.inj hi
    rw [List.map_cons, List.map_cons, map_getElem?_mono h hi]
    exact congrArg (· :: as.map some) (getElem?_mono h ha)

/-- Several arities: their captures, then `MAKE_FN_MULTI`. -/
theorem fnMulti_sound (asSpelled : Bool) {arities : Arities} {is : List Nat} {ms : List BytecodeModule}
    {s s₁ s' : Session} {V W W₁ : World} {L : Option (List Nat)} (ht : Tracks env s W)
    (hx : Extends env s s₁ W W₁ []) (hn : W₁.map (·.1.names) = W.map (·.1.names))
    (hb : is.map (s₁.out.blocks[·]?) = ms.map some)
    (hrel : ∀ T, Final T s₁ W₁ → CompilesArities env T V.names arities ms)
    (h : (do
      emitBlockCaptures is
      let g ← onOut (·.addArityGroup is)
      emit_ .makeFnMulti g : CompileM Unit) s₁ = .ok ((), s')) :
    ∃ c W', Emits env s s' W W' c fun T lo hi =>
      Compiles env T V.names L lo hi (.fn asSpelled true arities) c := by
  obtain ⟨_, s₂, h₂, hk⟩ := bind_ok.mp h
  obtain ⟨g, s₃, h₃, hk⟩ := bind_ok.mp hk
  obtain ⟨rfl, rfl⟩ := onOut_ok.mp h₃
  obtain ⟨-, rfl⟩ := emit_unit_ok.mp hk
  have hem := emitBlockCaptures_sound hx.tracks rfl hb h₂
  have hg : OutGrows s₂.out (s₂.out.addArityGroup is).2 [] :=
    ⟨by simp [BytecodeModule.addArityGroup], List.prefix_rfl, List.prefix_rfl,
      List.prefix_append _ _, ⟨rfl, rfl, rfl, rfl, rfl, rfl, rfl⟩,
      by simp [BytecodeModule.addArityGroup]⟩
  have hx₃ := Extends.onOut (f := (·.addArityGroup is)) hem.tracks hg hem.tracks.laid
  have hins := Emits.after hx₃ rfl hem.tracks (Emits.ins hx₃.tracks
    ⟨.makeFnMulti, (s₂.out.addArityGroup is).1⟩ (R := fun T lo hi => lo = hi ∧
      T.groups[(s₂.out.addArityGroup is).1]? = some is ∧ is.map (T.blocks[·]?) = ms.map some ∧
        CompilesArities env T V.names arities ms) fun T hf => ?_)
  · refine ⟨_, _, (Emits.after hx hn ht (Emits.seq hx.tracks hem hins)).mono ?_⟩
    rintro T lo hi - ⟨mid, hlo, mid', rfl, mid'', hlo', rfl, hgroup, hbs, hcs⟩
    exact .fnMulti (hlo.trans hlo') hcs hgroup hbs
  · have hf₂ : Final T s₂ W₁ := hf.back hx₃ rfl
    have hf₁ : Final T s₁ W₁ := hem.back hf₂
    exact ⟨rfl, getElem?_mono hf.groups List.getElem?_concat_length,
      map_getElem?_mono hf₁.blocks hb, hrel T hf₁⟩

/-- One arity: its captures, then `MAKE_FN`. -/
theorem fnSingle_sound (asSpelled : Bool) {arities : Arities} {m : BytecodeModule}
    {s s₁ s' : Session} {V W W₁ : World} {L : Option (List Nat)} (ht : Tracks env s W) (hx : Extends env s s₁ W W₁ [])
    (hn : W₁.map (·.1.names) = W.map (·.1.names)) (hm : LaidOut env m)
    (hrel : ∀ T, Final T s₁ W₁ → CompilesArities env T V.names arities [m])
    (h : (do
      let b ← onOut (·.addBlock m)
      emitCaptures m.captureSpecs
      emit_ .makeFn b : CompileM Unit) s₁ = .ok ((), s')) :
    ∃ c W', Emits env s s' W W' c fun T lo hi =>
      Compiles env T V.names L lo hi (.fn asSpelled false arities) c := by
  obtain ⟨b, s₂, h₂, hk⟩ := bind_ok.mp h
  obtain ⟨rfl, rfl⟩ := onOut_ok.mp h₂
  obtain ⟨_, s₃, h₃, hk⟩ := bind_ok.mp hk
  obtain ⟨-, rfl⟩ := emit_unit_ok.mp hk
  have hx₂ := addBlock_extends hx.tracks hm
  have hx₁₂ := hx.trans hx₂
  have hem := (emitCaptures_sound hx₂.tracks h₃).1
  have hins := Emits.ins hem.tracks ⟨.makeFn, (s₁.out.addBlock m).1⟩ (R := fun T lo hi => lo = hi ∧
      T.blocks[(s₁.out.addBlock m).1]? = some m ∧ CompilesArities env T V.names arities [m])
    fun T hf => by
      have hf₂ := hem.back hf
      exact ⟨rfl, getElem?_mono hf₂.blocks List.getElem?_concat_length, hrel T (hf₂.back hx₂ rfl)⟩
  refine ⟨_, _, (Emits.after hx₁₂ hn ht (Emits.seq hx₁₂.tracks hem hins)).mono ?_⟩
  rintro T lo hi - ⟨mid, hlo, mid', rfl, rfl, hb, hcs⟩
  exact .fnSingle hlo hcs hb

theorem compileFnValue_sound (hc : Sound env compile) {head : Form} {rest : List Form}
    {s s' : Session} {V W : World} {L : Option (List Nat)} (hs : SameScope V W)
    (ht : Tracks env s W) (h : compileFnValue env compile head rest s = .ok ((), s')) :
    ∃ e c W', ElabFn env V.visible head s.gensym rest e s'.gensym ∧
      Emits env s s' W W' c fun T lo hi => Compiles env T V.names L lo hi e c := by
  obtain ⟨t, s₁, h₁, hk⟩ := bind_ok.mp h
  obtain ⟨ht', hs'⟩ := get_ok.mp h₁
  rw [ht', hs'] at hk
  rw [← World.visible_eq hs.names]
  split_ifs at hk with hm
  · obtain ⟨is, s₂, h₂, hk⟩ := bind_ok.mp hk
    obtain ⟨clauses, arities, ms, W₂, hcl, har, hx, hn, hb, hrel⟩ :=
      compileArities_sound hc (.refl W) ht h₂
    obtain ⟨c, W', hem⟩ := fnMulti_sound true (L := L) ht hx hn hb hrel hk
    have hg : s'.gensym = s₂.gensym := by
      exact KeepsGensym.bind (keepsGensym_emitBlockCaptures is) (fun _ => .constOp _ _) _ _ _ hk
    rw [← hg] at har
    have hname : rest.head?.any Form.isName = false := by
      cases rest with
      | nil => rfl
      | cons p body => exact isArityForm_isName hm
    refine ⟨_, c, W', .unnamed hname (.multi hm hcl har), hem.mono fun T lo hi _ hR => ?_⟩
    rwa [← World.names_eq hs.names]
  · obtain ⟨_, s₂, h₂, hk⟩ := bind_ok.mp hk
    obtain ⟨m, s₃, h₃, hk⟩ := bind_ok.mp hk
    have hx₂ := markFn_extends ht h₂
    obtain ⟨asSpelled, arities, W₃, harity, hx, hn, hlaid, hrel⟩ :=
      compileFnBody_sound hc hx₂.tracks (by simpa using hm) h₃
    obtain ⟨c, W', hem⟩ := fnSingle_sound asSpelled (L := L) ht (hx₂.trans hx) hn hlaid hrel hk
    have hg : s'.gensym = s₃.gensym := by
      refine KeepsGensym.bind (.onOut _) (fun b => ?_) _ _ _ hk
      exact .bind (keepsGensym_emitCaptures _) fun _ => .emit_ _ _
    rw [keepsGensym_markFn _ _ _ _ h₂, ← hg] at harity
    refine ⟨_, c, W', harity, hem.mono fun T lo hi _ hR => ?_⟩
    rwa [← World.names_eq hs.names]

theorem compileFnForm_sound (isFn : Bool) (hc : Sound env compile) {head : Form} {core : Bool}
    {rest : List Form} {s s' : Session} {V W : World} (hs : SameScope V W) (ht : Tracks env s W)
    (hd : HeadIs env V.visible head (if isFn then "fn" else "defn") core)
    (h : compileFnForm env compile head isFn rest s = .ok ((), s')) :
    ∃ e c W', Elab env V.visible V.isEmpty s.gensym (.list (head :: rest)) e s'.gensym ∧
      Emits env s s' W W' c fun T lo hi => Compiles env T V.names V.recurSlots lo hi e c := by
  unfold compileFnForm at h
  cases isFn with
  | true =>
    rw [if_pos rfl] at h hd
    split_ifs at h with hr
    · exact (fail_ok.mp h).elim
    obtain ⟨e, c, W', he, hem⟩ := compileFnValue_sound hc hs ht h
    exact ⟨e, c, W', .fn hd he, hem⟩
  | false =>
    rw [if_neg Bool.false_ne_true] at h hd
    cases rest with
    | nil => exact (fail_ok.mp h).elim
    | cons nameForm rest =>
      dsimp only at h
      cases hdocs : dropDocs rest with
      | some rest' =>
        rw [hdocs] at h
        obtain ⟨e, c, W', he, hem⟩ := hc.at hs ht h
        exact ⟨e, c, W', .defnDocs hd hdocs he, hem⟩
      | none =>
        rw [hdocs] at h
        dsimp only at h
        split_ifs at h with hr hname
        · exact (fail_ok.mp h).elim
        · exact (fail_ok.mp h).elim
        obtain ⟨_, s₁, h₁, hk⟩ := bind_ok.mp h
        obtain ⟨e, c, W₁, he, hem⟩ := compileFnValue_sound hc hs ht h₁
        obtain ⟨c', hem'⟩ := emitStoreGlobal_sound ht hem hk
        obtain ⟨name, rfl⟩ : ∃ name, nameForm = .name name := by
          cases nameForm <;> first | exact ⟨_, rfl⟩ | exact absurd rfl hname
        rw [← keepsGensym_emitStoreGlobal _ _ _ _ hk] at he
        exact ⟨_, c', W₁, .defn hd hdocs he, hem'⟩

/-! ### Thunks -/

/-- A body without parameters, as its forms stand for it. -/
theorem elabArities_thunk {vis : String → Bool} {f : Form} {n n' : Nat} {fixed : List String} {rest : RestParam}
    {keys : Keys} {e : Exp}
    (h : ElabArities env vis n [([], [f])] (.cons fixed rest keys e .nil) n') :
    fixed = [] ∧ rest = .none ∧ keys = .nil ∧ Elab env vis false n f e n' := by
  cases h with
  | @cons _ _ _ _ _ _ _ _ _ params' pairs spec _ _ _ _ hr hs hf hk hb hm =>
    cases hm
    obtain ⟨s₁, s₁', rfl, rfl, h₁⟩ := hr
    obtain ⟨hp, rfl⟩ := pure_ok.mp h₁
    obtain ⟨rfl, rfl⟩ := Prod.mk.inj hp
    obtain ⟨s₂, s₂', h₂⟩ := hs
    obtain ⟨rfl, -⟩ := pure_ok.mp h₂
    obtain ⟨s₃, s₃', h₃⟩ := hf
    obtain ⟨rfl, -⟩ := pure_ok.mp h₃
    have hvis : withNames ([] ++ RestSpec.none.names) vis = vis := by
      funext y
      simp [withNames, RestSpec.names]
    rw [hvis] at hb
    cases hk
    cases hb with
    | one hb => exact ⟨rfl, rfl, rfl, hb⟩

/-- At the top level there is nothing to capture. -/
theorem captureSpecs_top {T : Tables} {fixed : List String} {rest : RestParam} {keys : Keys} {e : Exp}
    {m : BytecodeModule} (hT : T.captures = [])
    (h : CompilesArities env T [] (.cons fixed rest keys e .nil) [m]) : m.captureSpecs = [] := by
  cases h with
  | @cons _ _ _ _ _ _ _ _ _ captures _ _ _ _ _ _ _ hcap hp _ _ _ _ _ _ _ _ =>
    cases captures with
    | nil => exact hcap.symm
    | cons p captures =>
      have hslot := hp p List.mem_cons_self
      rw [Tables.slotOf, hT] at hslot
      cases hslot

theorem compileAsThunk_sound (hc : Sound env compile) {f : Form} {s s' : Session}
    (ht : Tracks env s []) (h : compileAsThunk env compile f s = .ok ((), s')) :
    ∃ e c, Elab env (World.visible []) false s.gensym f e s'.gensym ∧
      Emits env s s' [] [] c fun T lo hi => Compiles env T [] none lo hi (thunk e) c := by
  obtain ⟨line, s₁, h₁, hk⟩ := bind_ok.mp h
  obtain ⟨_, s₂, h₂, hk⟩ := bind_ok.mp hk
  obtain rfl := modify_ok.mp h₂
  obtain ⟨m, s₃, h₃, hk⟩ := bind_ok.mp hk
  obtain ⟨b, s₄, h₄, hk⟩ := bind_ok.mp hk
  obtain ⟨rfl, rfl⟩ := onOut_ok.mp h₄
  obtain ⟨_, s₅, h₅, hk⟩ := bind_ok.mp hk
  obtain ⟨-, rfl⟩ := emit_unit_ok.mp h₅
  obtain ⟨-, rfl⟩ := emit_unit_ok.mp hk
  have hx₁ := formLineOf_extends ht h₁
  have hx₂ := hx₁.trans (Extends.of_same { s₁ with pendingFnLine := line, pendingThunk := true }
    hx₁.tracks rfl rfl)
  obtain ⟨fixed, rp, keys, e, W₃, harity, hx₃, hn, hl, hrel⟩ := compileArity_sound hc hx₂.tracks h₃
  have hW : W₃ = [] := List.map_eq_nil_iff.mp hn
  subst hW
  have hlaid := compileArity_laidOut hc hx₂.tracks h₃
  have hcap := captureSpecs_top (T := s₃.out.tables [] (World.visible [])) rfl
    (hrel _ (.self s₃ []) .nil)
  obtain ⟨rfl, rfl, rfl, he⟩ := elabArities_thunk (harity .nil)
  have hg : s₁.gensym = s.gensym := keepsGensym_formLineOf _ _ _ h₁
  rw [← hg]
  obtain ⟨c, W', hem⟩ := fnSingle_sound true (V := []) (L := none) ht (hx₂.trans hx₃) hn hlaid
    (fun T hf => hrel T hf .nil) (bind_ok.mpr ⟨_, _, onOut_ok.mpr ⟨rfl, rfl⟩, by
      rw [hcap]
      exact bind_ok.mpr ⟨_, _, pure_ok.mpr ⟨rfl, rfl⟩, h₅⟩⟩)
  have hW' : W' = [] := List.map_eq_nil_iff.mp hem.names
  subst hW'
  have hcall := Emits.ins hem.tracks ⟨.call, 0⟩ (R := fun _ lo hi => lo = hi) fun _ _ => rfl
  refine ⟨e, _, he, ((Emits.seq ht hem hcall).congr (d := .seq c (.seq .nil (.ins ⟨.call, 0⟩)))
    fun k => ?_).mono ?_⟩
  · simp [Code.flatten]
  · rintro T lo hi - ⟨mid, hf, rfl⟩
    exact .call hf (.nil (Nat.le_refl _))

/-! ### Line marks of list forms -/

theorem keepsGensym_markList (name : String) : KeepsGensym (markList env name) := by
  refine .bind (.marking env) fun _ => .ite (.bind keepsGensym_formLineOf fun line => ?_) (.pure _)
  refine .ite (.pure _) (.bind (.modify fun _ => rfl) fun _ => .ite (.modify fun _ => rfl) ?_)
  exact .bind (.bind .get fun _ => .pure _) fun _ => .ite (.pure _) (.emit_ _ _)

theorem markForm_sound {name : String} {s s' : Session} {W : World} (ht : Tracks env s W)
    (h : markForm env name s = .ok ((), s')) :
    ∃ k, Mark k ∧ Emits env s s' W W k fun _ lo hi => lo = hi := by
  -- steps that change neither the scopes nor the module come first
  have hnone : ∀ {s₁ : Session}, Extends env s s₁ W W [] →
      ∃ k, Mark k ∧ Emits env s s₁ W W k fun _ lo hi => lo = hi :=
    fun hx => ⟨.nil, .none, hx, rfl, fun _ _ => rfl⟩
  obtain ⟨line, s₁, h₁, hk⟩ := bind_ok.mp h
  have hx₁ := formLineOf_extends ht h₁
  rcases ite_ok.mp hk with ⟨-, hk⟩ | ⟨-, hk⟩
  · obtain ⟨-, rfl⟩ := pure_ok.mp hk
    exact hnone hx₁
  obtain ⟨_, s₂, h₂, hk⟩ := bind_ok.mp hk
  obtain rfl := modify_ok.mp h₂
  have hx₂ := hx₁.trans (Extends.of_same { s₁ with lastMarkLine := line } hx₁.tracks rfl rfl)
  rcases ite_ok.mp hk with ⟨-, hk⟩ | ⟨-, hk⟩
  · obtain rfl := modify_ok.mp hk
    exact hnone (hx₂.trans (Extends.of_same _ hx₂.tracks rfl rfl))
  obtain ⟨top, s₃, h₃, hk⟩ := bind_ok.mp hk
  obtain ⟨t, s₄, h₄, hp⟩ := bind_ok.mp h₃
  obtain ⟨-, rfl⟩ := get_ok.mp h₄
  obtain ⟨-, rfl⟩ := pure_ok.mp hp
  rcases ite_ok.mp hk with ⟨-, hk⟩ | ⟨-, hk⟩
  · obtain ⟨-, rfl⟩ := pure_ok.mp hk
    exact hnone hx₂
  · obtain ⟨-, rfl⟩ := emit_unit_ok.mp hk
    refine ⟨_, .line line, (Emits.after hx₂ rfl ht (Emits.ins hx₂.tracks ⟨.line, line⟩
      (R := fun T lo hi => lo = W.next ∧ hi = W.next) fun _ _ => ⟨rfl, rfl⟩)).1, rfl, fun _ _ => rfl⟩

theorem markList_sound {name : String} {s s' : Session} {W : World} (ht : Tracks env s W)
    (h : markList env name s = .ok ((), s')) :
    ∃ k, Mark k ∧ Emits env s s' W W k fun _ lo hi => lo = hi := by
  obtain ⟨b, s₁, h₁, hk⟩ := bind_ok.mp h
  obtain rfl := marking_ok h₁
  rcases ite_ok.mp hk with ⟨-, hk⟩ | ⟨-, hk⟩
  · exact markForm_sound ht hk
  · obtain ⟨-, rfl⟩ := pure_ok.mp hk
    exact ⟨.nil, .none, .nil ht fun _ _ => rfl⟩

/-! ### Macros -/

theorem World.any_scopes : ∀ W : World, WorldOk W → ∀ x,
    (W.map (·.2)).any (fun sc => (sc.nameToSlot x).isSome) = W.visible x
  | [], _, _ => rfl
  | (g, sc) :: W, ⟨hg, hW⟩, x => by
    rw [List.map_cons, List.any_cons, World.any_scopes W hW x, hg.slots]
    change _ = ((g.names.lookup x).isSome || World.visible W x)
    rw [Ghost.slotOf]
    cases hl : g.names.lookup x with
    | some i => simp
    | none =>
      cases hc : g.captured.lookup x with
      | none => simp
      | some spec => simp [hg.seen _ (mem_of_lookup hc)]

/-- The names the session takes for local are those in scope. -/
theorem Tracks.isLocalName {s : Session} {W : World} (ht : Tracks env s W) :
    s.isLocalName = W.visible := by
  funext x
  rw [Session.isLocalName, ht.scopes]
  exact World.any_scopes W ht.ok x

theorem macroForHead_congr {s s' : Session} (h : s.isLocalName = s'.isLocalName) (head : Form) :
    macroForHead env s head = macroForHead env s' head := by
  unfold macroForHead
  rw [h]

theorem Tracks.macroForHead {s : Session} {W : World} (ht : Tracks env s W) (head : Form) :
    macroForHead env s head = macroFor env W.visible head := by
  refine macroForHead_congr ?_ head
  rw [ht.isLocalName]
  funext x
  cases hx : W.visible x <;> simp [Session.isLocalName, hx]

theorem compileMacroCall_sound (hc : Sound env compile) {head : Form} {rest : List Form}
    {key name : String} {s s' : Session} {V W : World} (hs : SameScope V W) (ht : Tracks env s W)
    (hm : macroFor env V.visible head = some key)
    (h : compileMacroCall env compile (.list (head :: rest)) key name s = .ok ((), s')) :
    ∃ e c W', Elab env V.visible V.isEmpty s.gensym (.list (head :: rest)) e s'.gensym ∧
      Emits env s s' W W' c fun T lo hi => Compiles env T V.names V.recurSlots lo hi e c := by
  obtain ⟨t, s₁, h₁, hk⟩ := bind_ok.mp h
  obtain ⟨ht', hs'⟩ := get_ok.mp h₁
  rw [ht', hs'] at hk
  cases hx : env.expandMacroCall key (.list (head :: rest)) s.isLocalName s.gensym with
  | error thrown =>
    rw [hx] at hk
    exact (fail_ok.mp hk).elim
  | ok r =>
    rw [hx] at hk
    obtain ⟨_, s₂, h₂, hk⟩ := bind_ok.mp hk
    obtain rfl := set_ok.mp h₂
    have hx₂ := Extends.of_same { s with gensym := r.2 } ht rfl rfl
    obtain ⟨e, c, W', he, hem⟩ := hc.at hs hx₂.tracks hk
    rw [ht.isLocalName, World.visible_eq hs.names] at hx
    exact ⟨e, c, W', .expansion hm hx he, Emits.widen hx₂ rfl ht hem⟩

theorem compileDefmacro_sound (hc : Sound env compile) {head : Form} {core : Bool}
    {rest : List Form} {s s' : Session} {V W : World} (hs : SameScope V W) (ht : Tracks env s W)
    (hd : HeadIs env V.visible head "defmacro" core)
    (h : compileDefmacro env compile rest s = .ok ((), s')) :
    ∃ e c W', Elab env V.visible V.isEmpty s.gensym (.list (head :: rest)) e s'.gensym ∧
      Emits env s s' W W' c fun T lo hi => Compiles env T V.names V.recurSlots lo hi e c := by
  rcases rest with _ | ⟨nameForm, _ | ⟨r, more⟩⟩
  · exact (fail_ok.mp h).elim
  · exact (fail_ok.mp h).elim
  · unfold compileDefmacro at h
    cases hkey : (if nameForm.isName then globalKeyForSymbol nameForm.nameOf else none) with
    | none =>
      simp only [hkey] at h
      exact (fail_ok.mp h).elim
    | some key =>
      simp only [hkey] at h
      obtain ⟨hname, hkey⟩ : nameForm.isName = true ∧ globalKeyForSymbol nameForm.nameOf = some key := by
        split_ifs at hkey with hn
        exact ⟨hn, hkey⟩
      obtain ⟨name, rfl⟩ : ∃ name, nameForm = .name name := by
        cases nameForm <;> first | exact ⟨_, rfl⟩ | cases hname
      obtain ⟨fn, s₁, h₁, hk⟩ := bind_ok.mp h
      obtain rfl := (onlyGensym_macroFn (r :: more)).same h₁
      obtain ⟨_, s₂, h₂, hk⟩ := bind_ok.mp hk
      obtain ⟨_, s₃, h₃, hk⟩ := bind_ok.mp hk
      obtain rfl := modify_ok.mp h₃
      obtain ⟨_, s₄, h₄, hk⟩ := bind_ok.mp hk
      obtain ⟨_, s₅, h₅, hk⟩ := bind_ok.mp hk
      obtain rfl := modify_ok.mp h₅
      obtain ⟨_, s₆, h₆, hk⟩ := bind_ok.mp hk
      obtain ⟨-, rfl⟩ := emit_unit_ok.mp h₆
      obtain ⟨cf, W₂, hf⟩ := pushVar_sound (V := V) ht h₂
      have hx₃ := Extends.of_same { s₂ with noDebug := s₂.noDebug + 1 } hf.tracks rfl rfl
      have hs₂ := hs.trans hf.same
      obtain ⟨e, ce, W₄, he, hem⟩ := hc.at hs₂ hx₃.tracks h₄
      have hx₅ := Extends.of_same { s₄ with noDebug := s₄.noDebug - 1 } hem.tracks rfl rfl
      have hcall := Emits.ins hx₅.tracks ⟨.call, 1⟩ (R := fun _ lo hi => lo = hi) fun _ _ => rfl
      have hfe := Emits.seq hf.tracks (Emits.widen hx₃ rfl hf.tracks hem)
        (Emits.after hx₅ rfl hem.tracks hcall)
      have hall := (Emits.seq ht hf hfe).congr
        (d := .seq cf (.seq (.seq ce .nil) (.ins ⟨.call, 1⟩))) fun k => by
          simp [Code.flatten]
      have hmacro := hall.mono (Q := fun T lo hi => Compiles env T V.names V.recurSlots lo hi
          (.call false (.global "__macro__") (.cons e .nil))
          (.seq cf (.seq (.seq ce .nil) (.ins ⟨.call, 1⟩)))) (by
        rintro T lo hi - ⟨mid, hf, mid₁, he, mid₂, hhi, rfl⟩
        exact .call hf (.cons he (.nil hhi)))
      obtain ⟨c', hem'⟩ := emitStoreGlobal_sound ht hmacro hk
      have hg : s'.gensym = s₄.gensym := (keepsGensym_emitStoreGlobal _ _ _ _ hk).trans rfl
      have hg₂ : s₂.gensym = s₁.gensym := KeepsGensym.constOp _ _ _ _ _ h₂
      rw [← hg, hg₂] at he
      exact ⟨_, c', W₄, Elab.defmacro hd hkey ⟨_, _, h₁⟩ he, hem'⟩

end

end ProtoClojure
