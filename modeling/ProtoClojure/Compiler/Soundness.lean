import ProtoClojure.Compiler.Emits

/-! Whatever the compiler accepts stands for a core expression, and the code it emits is that
expression laid out: forms without bindings. -/
namespace ProtoClojure
open CompileM

/-! ### Constants -/

/-- An entry found or added is where the index says, and nothing else changes. -/
theorem findOrAdd_spec (m : BytecodeModule) {key : Const → Bool} {k : Const}
    (hk : ∀ v, key v = true → v = k) :
    OutGrows m (m.findOrAdd key k).2 [] ∧ (m.findOrAdd key k).2.blocks = m.blocks ∧
      (m.findOrAdd key k).2.consts[(m.findOrAdd key k).1]? = some k := by
  rw [BytecodeModule.findOrAdd]
  cases hi : m.consts.findIdx? key with
  | some i =>
    obtain ⟨hl, hv, -⟩ := List.findIdx?_eq_some_iff_getElem.mp hi
    refine ⟨.refl m, rfl, ?_⟩
    rw [← hk _ hv]
    exact List.getElem?_eq_getElem hl
  | none =>
    refine ⟨⟨by simp, List.prefix_append _ _, List.prefix_rfl, List.prefix_rfl, .refl m, by simp⟩,
      rfl, ?_⟩
    exact List.getElem?_concat_length

/-- `add` answers the index of the constant `k`. -/
def Adds (add : BytecodeModule → Nat × BytecodeModule) (k : Const) : Prop :=
  ∀ m, OutGrows m (add m).2 [] ∧ (add m).2.blocks = m.blocks ∧
    (add m).2.consts[(add m).1]? = some k

theorem addSymbol_adds (name : String) : Adds (·.addSymbol name) (.symbol name) := fun m =>
  findOrAdd_spec m fun v h => by cases v <;> simp_all

theorem addLong_adds (i : Int) : Adds (·.addLong i) (.long i) := fun m =>
  findOrAdd_spec m fun v h => by cases v <;> simp_all

theorem addBigInteger_adds (i : Int) : Adds (·.addBigInteger i) (.bigInteger i) := fun m =>
  findOrAdd_spec m fun v h => by cases v <;> simp_all

theorem addDouble_adds (bits : UInt64) : Adds (·.addDouble bits) (.double bits) := fun m =>
  findOrAdd_spec m fun v h => by cases v <;> simp_all

theorem addString_adds (s : String) : Adds (·.addString s) (.string s) := fun m =>
  findOrAdd_spec m fun v h => by cases v <;> simp_all

theorem addNamed_adds (s : String) : Adds (·.addNamed s) (.named s) := fun m =>
  findOrAdd_spec m fun v h => by cases v <;> simp_all

theorem addDatum_adds (f : Form) : Adds (·.addDatum f) (.datum f) := fun m =>
  findOrAdd_spec m fun _ h => by cases h

theorem Extends.onOut {s : Session} {W : World} (ht : Tracks env s W)
    {f : BytecodeModule → Nat × BytecodeModule} (h : OutGrows s.out (f s.out).2 [])
    (hl : ∀ b ∈ (f s.out).2.blocks, LaidOut env b) :
    Extends env s { s with out := (f s.out).2 } W W [] := by
  refine ⟨⟨ht.scopes, ht.ok, ?_, hl⟩, .refl W, h⟩
  change s.bodyStart ≤ _
  rw [h.code, List.append_nil]
  exact ht.start

theorem getElem?_mono {α : Type} {l l' : List α} {i : Nat} {a : α} (h : l <+: l')
    (ha : l[i]? = some a) : l'[i]? = some a := by
  obtain ⟨ext, rfl⟩ := h
  rw [List.getElem?_append_left]
  · exact ha
  · exact (List.getElem?_eq_some_iff.mp ha).1

/-- A constant looked up, then an instruction that names it. -/
theorem constOp_sound {s s' : Session} {W : World} (ht : Tracks env s W) {o : Op}
    {add : BytecodeModule → Nat × BytecodeModule} {k : Const} (ha : Adds add k)
    (h : (do let i ← onOut add; emit_ o i : CompileM Unit) s = .ok ((), s')) :
    ∃ i, Emits env s s' W W (.ins ⟨o, i⟩) fun T lo hi => lo = hi ∧ T.consts[i]? = some k := by
  obtain ⟨i, s₁, h₁, h₂⟩ := bind_ok.mp h
  obtain ⟨rfl, rfl⟩ := onOut_ok.mp h₁
  obtain ⟨-, rfl⟩ := emit_unit_ok.mp h₂
  obtain ⟨hg, hb, hk⟩ := ha s.out
  have hx := Extends.onOut ht hg (hb ▸ ht.laid)
  exact ⟨_, hx.trans (.push hx.tracks _), rfl, fun T hf => ⟨rfl, getElem?_mono hf.consts hk⟩⟩

/-! ### The compiler of nested forms -/

/-- The same functions are being compiled, with the same names bound. -/
structure SameScope (W W' : World) : Prop where
  grows : Grows W W'
  names : W'.map (·.1.names) = W.map (·.1.names)

theorem SameScope.refl (W : World) : SameScope W W := ⟨.refl W, rfl⟩

theorem SameScope.trans {W W' W'' : World} (h : SameScope W W') (h' : SameScope W' W'') :
    SameScope W W'' := ⟨h.grows.trans h'.grows, h'.names.trans h.names⟩

theorem Emits.same {s s' : Session} {W W' : World} {c : Code} {R : Tables → Nat → Nat → Prop}
    (h : Emits env s s' W W' c R) : SameScope W W' := ⟨h.grows.grows, h.names⟩

section
variable (env : Env) (compile : Form → CompileM Unit)

/-- Every form `compile` accepts stands for an expression, laid out by what is emitted. -/
def Sound : Prop :=
  ∀ {f : Form} {s s' : Session} {W : World}, Tracks env s W → compile f s = .ok ((), s') →
    ∃ e c W', Elab env W.visible W.isEmpty s.gensym f e s'.gensym ∧
      Emits env s s' W W' c fun T lo hi => Compiles env T W.names W.recurSlots lo hi e c

end

section
variable {env : Env} {compile : Form → CompileM Unit}

/-- A form compiled later, in the terms of an earlier state of the scopes. -/
theorem Sound.at (hc : Sound env compile) {f : Form} {s s' : Session} {V W : World}
    (hs : SameScope V W) (ht : Tracks env s W) (h : compile f s = .ok ((), s')) :
    ∃ e c W', Elab env V.visible V.isEmpty s.gensym f e s'.gensym ∧
      Emits env s s' W W' c fun T lo hi => Compiles env T V.names V.recurSlots lo hi e c := by
  obtain ⟨e, c, W', he, hem⟩ := hc ht h
  rw [World.visible_eq hs.names, hs.grows.isEmpty] at he
  rw [World.names_eq hs.names, hs.grows.recurSlots] at hem
  exact ⟨e, c, W', he, hem⟩

/-! ### Sequences -/

theorem compileArgs_sound (hc : Sound env compile) {V : World} :
    ∀ {forms : List Form} {s s' : Session} {W : World}, SameScope V W → Tracks env s W →
      compileArgs compile forms s = .ok ((), s') →
      ∃ es c W', ElabList env V.visible V.isEmpty s.gensym forms es s'.gensym ∧ es.length = forms.length ∧
        Emits env s s' W W' c fun T lo hi => CompilesArgs env T V.names V.recurSlots lo hi es c
  | [], s, s', W, _, ht, h => by
    obtain ⟨-, rfl⟩ := pure_ok.mp h
    exact ⟨.nil, .nil, W, .nil, rfl, .nil ht fun T _ => .nil (Nat.le_refl _)⟩
  | f :: rest, s, s', W, hs, ht, h => by
    obtain ⟨_, s₁, h₁, h₂⟩ := bind_ok.mp h
    obtain ⟨e, c, W₁, he, hem⟩ := hc.at hs ht h₁
    obtain ⟨es, cs, W₂, hes, hl, hems⟩ := compileArgs_sound hc (hs.trans hem.same) hem.tracks h₂
    refine ⟨.cons e es, .seq c cs, W₂, .cons he hes, by simp [Exps.length, hl], ?_⟩
    refine (Emits.seq ht hem hems).mono ?_
    rintro T lo hi - ⟨mid, h₁, h₂⟩
    exact .cons h₁ h₂

theorem compileBody_sound (hc : Sound env compile) {V : World} :
    ∀ {forms : List Form} {s s' : Session} {W : World}, forms ≠ [] → SameScope V W → Tracks env s W →
      compileBody compile forms s = .ok ((), s') →
      ∃ e c W', ElabDo env V.visible V.isEmpty s.gensym forms e s'.gensym ∧
        Emits env s s' W W' c fun T lo hi => Compiles env T V.names V.recurSlots lo hi e c
  | [f], s, s', W, _, hs, ht, h => by
    obtain ⟨e, c, W', he, hem⟩ := hc.at hs ht h
    exact ⟨e, c, W', .one he, hem⟩
  | f :: g :: rest, s, s', W, _, hs, ht, h => by
    obtain ⟨_, s₁, h₁, h₂⟩ := bind_ok.mp h
    obtain ⟨_, s₂, h₂, h₃⟩ := bind_ok.mp h₂
    obtain ⟨-, rfl⟩ := emit_unit_ok.mp h₂
    obtain ⟨e, c, W₁, he, hem⟩ := hc.at hs ht h₁
    have hpop := Emits.ins hem.tracks ⟨.pop, 0⟩ (R := fun _ lo hi => lo = hi) fun _ _ => rfl
    obtain ⟨e', c', W₂, he', hem'⟩ :=
      compileBody_sound hc (by simp) (hs.trans hem.same) hpop.tracks h₃
    refine ⟨.seq e e', .seq c (.seq (.ins ⟨.pop, 0⟩) c'), W₂, .more he he', ?_⟩
    refine (Emits.seq ht hem (Emits.seq hem.tracks hpop hem')).mono ?_
    rintro T lo hi - ⟨mid, h₁, mid', rfl, h₂⟩
    exact .seq h₁ h₂

theorem compileDo_sound (hc : Sound env compile) {V W : World} {forms : List Form}
    {s s' : Session} (hs : SameScope V W) (ht : Tracks env s W)
    (h : compileDo compile forms s = .ok ((), s')) :
    ∃ e c W', ElabDo env V.visible V.isEmpty s.gensym forms e s'.gensym ∧
      Emits env s s' W W' c fun T lo hi => Compiles env T V.names V.recurSlots lo hi e c := by
  cases forms with
  | nil =>
    obtain ⟨-, rfl⟩ := emit_unit_ok.mp h
    exact ⟨.lit .nil, .ins ⟨.pushNil, 0⟩, W, .nil,
      .ins ht ⟨.pushNil, 0⟩ fun T _ => .nil (Nat.le_refl _)⟩
  | cons f rest => exact compileBody_sound hc (by simp) hs ht h

/-! ### `if`, `and` and `or` -/

/-- The part of a conditional after its test. -/
theorem branch_sound (hc : Sound env compile) {V W : World} {thn : Form} {els : Option Form}
    {s s₃ s₇ : Session} (hs : SameScope V W) (ht : Tracks env s W)
    (h₃ : compile thn (s.push ⟨.jumpIfFalse, 0⟩) = .ok ((), s₃))
    (h₇ : (match els with
      | some els => compile els
      | none => emit_ .pushNil 0)
      ((s₃.push ⟨.jump, 0⟩).patch s.out.code.length
        ((s₃.push ⟨.jump, 0⟩).out.code.length - (s.out.code.length + 1))) = .ok ((), s₇)) :
    ∃ e₂ e₃ c₂ c₃ W', Elab env V.visible V.isEmpty s.gensym thn e₂ s₃.gensym ∧
      ElabDo env V.visible V.isEmpty s₃.gensym els.toList e₃ s₇.gensym ∧
      Emits env s (s₇.patch s₃.out.code.length (s₇.out.code.length - (s₃.out.code.length + 1))) W W'
        (.branch c₂ c₃) fun T lo hi => ∃ mid, Compiles env T V.names V.recurSlots lo mid e₂ c₂ ∧
          Compiles env T V.names V.recurSlots mid hi e₃ c₃ := by
  obtain ⟨e₂, c₂, W₂, he₂, hem₂⟩ := hc.at hs (ht.push _) h₃
  have hl₂ : s₃.out.code.length = s.out.code.length + c₂.len + 1 := by
    rw [hem₂.length, Session.push_code, List.length_append]
    simp only [List.length_cons, List.length_nil]
    omega
  have hn₂ : (s₃.push ⟨.jump, 0⟩).out.code.length - (s.out.code.length + 1) = c₂.len + 1 := by
    rw [Session.push_code, List.length_append, hl₂]
    simp only [List.length_cons, List.length_nil]
    omega
  rw [hn₂] at h₇
  have ht₆ := (hem₂.tracks.push ⟨.jump, 0⟩).patch s.out.code.length (c₂.len + 1)
  have hels : ∃ e₃ c₃ W₃, ElabDo env V.visible V.isEmpty s₃.gensym els.toList e₃ s₇.gensym ∧
      Emits env ((s₃.push ⟨.jump, 0⟩).patch s.out.code.length (c₂.len + 1)) s₇ W₂ W₃ c₃
        fun T lo hi => Compiles env T V.names V.recurSlots lo hi e₃ c₃ := by
    cases els with
    | none =>
      obtain ⟨-, rfl⟩ := emit_unit_ok.mp h₇
      exact ⟨.lit .nil, .ins ⟨.pushNil, 0⟩, W₂, .nil, .ins ht₆ ⟨.pushNil, 0⟩ fun T _ =>
        .nil (Nat.le_refl _)⟩
    | some f =>
      obtain ⟨e, c, W', he, hem⟩ := hc.at (hs.trans hem₂.same) ht₆ h₇
      exact ⟨e, c, W', .one he, hem⟩
  obtain ⟨e₃, c₃, W₃, he₃, hem₃⟩ := hels
  have hn₃ : s₇.out.code.length - (s₃.out.code.length + 1) = c₃.len := by
    rw [hem₃.length]
    simp only [Session.patch, List.length_modify, Session.push_code, List.length_append,
      List.length_cons, List.length_nil]
    omega
  rw [hn₃]
  exact ⟨e₂, e₃, c₂, c₃, W₃, he₂, he₃, Emits.branch ht hem₂ hem₃ hl₂⟩

theorem compileIf_sound (hc : Sound env compile) {V W : World} {test thn : Form}
    {els : Option Form} {s s' : Session} (hs : SameScope V W) (ht : Tracks env s W)
    (h : compileIf compile test thn els s = .ok ((), s')) :
    ∃ e₁ e₂ e₃ n₁ n₂ c W', Elab env V.visible V.isEmpty s.gensym test e₁ n₁ ∧
      Elab env V.visible V.isEmpty n₁ thn e₂ n₂ ∧
      ElabDo env V.visible V.isEmpty n₂ els.toList e₃ s'.gensym ∧
      Emits env s s' W W' c
        fun T lo hi => Compiles env T V.names V.recurSlots lo hi (.ite e₁ e₂ e₃) c := by
  obtain ⟨_, s₁, h₁, h⟩ := bind_ok.mp h
  obtain ⟨jif, s₂, h₂, h⟩ := bind_ok.mp h
  obtain ⟨-, rfl, rfl⟩ := emit_ok.mp h₂
  obtain ⟨_, s₃, h₃, h⟩ := bind_ok.mp h
  obtain ⟨jmp, s₄, h₄, h⟩ := bind_ok.mp h
  obtain ⟨-, rfl, rfl⟩ := emit_ok.mp h₄
  obtain ⟨p, s₅, h₅, h⟩ := bind_ok.mp h
  obtain ⟨rfl, rfl⟩ := pos_ok.mp h₅
  obtain ⟨_, s₆, h₆, h⟩ := bind_ok.mp h
  cases patchTo_ok h₆
  obtain ⟨s₇, h₇, h⟩ : ∃ s₇, (match els with
      | some els => compile els
      | none => emit_ .pushNil 0)
        ((s₃.push ⟨.jump, 0⟩).patch s₁.out.code.length
          ((s₃.push ⟨.jump, 0⟩).out.code.length - (s₁.out.code.length + 1))) = .ok ((), s₇) ∧
        (do patchTo s₃.out.code.length (← pos) : CompileM Unit) s₇ = .ok ((), s') := by
    cases els <;>
    · obtain ⟨_, s₇, h₇, h⟩ := bind_ok.mp h
      exact ⟨s₇, h₇, h⟩
  obtain ⟨q, s₈, h₈, h⟩ := bind_ok.mp h
  obtain ⟨rfl, rfl⟩ := pos_ok.mp h₈
  cases patchTo_ok h
  obtain ⟨e₁, c₁, W₁, he₁, hem₁⟩ := hc.at hs ht h₁
  obtain ⟨e₂, e₃, c₂, c₃, W₃, he₂, he₃, hem⟩ :=
    branch_sound hc (hs.trans hem₁.same) hem₁.tracks h₃ h₇
  refine ⟨e₁, e₂, e₃, _, _, .seq c₁ (.branch c₂ c₃), W₃, he₁, he₂, he₃,
    (Emits.seq ht hem₁ hem).mono ?_⟩
  rintro T lo hi - ⟨mid, h₁, mid', h₂, h₃⟩
  exact .ite h₁ h₂ h₃

/-- The jumps at `is` patched to land on `target`. -/
def Session.patchAll (s : Session) (target : Nat) (is : List Nat) : Session :=
  is.foldl (fun s i => s.patch i (target - (i + 1))) s

theorem patchAll_ok {target : Nat} : ∀ {is : List Nat} {s s' : Session},
    patchAll target is s = .ok ((), s') → s' = s.patchAll target is
  | [], s, s', h => (pure_ok.mp h).2
  | i :: is, s, s', h => by
    obtain ⟨_, s₁, h₁, h₂⟩ := bind_ok.mp h
    rw [patchTo_ok h₁] at h₂
    have h' := patchAll_ok h₂
    exact h'

theorem Session.patch_comm (s : Session) (target i j : Nat) :
    (s.patch i (target - (i + 1))).patch j (target - (j + 1)) =
      (s.patch j (target - (j + 1))).patch i (target - (i + 1)) := by
  by_cases hij : i = j
  · rw [hij]
  · simp only [Session.patch]
    rw [List.modify_modify_ne _ _ _ hij]

theorem Session.patchAll_patch (s : Session) (target i : Nat) (is : List Nat) :
    (s.patch i (target - (i + 1))).patchAll target is =
      (s.patchAll target is).patch i (target - (i + 1)) := by
  induction is generalizing s with
  | nil => rfl
  | cons j is ih =>
    change ((s.patch i _).patch j _).patchAll target is = _
    rw [Session.patch_comm, ih]
    rfl

@[simp] theorem Session.patchAll_length (s : Session) (target : Nat) (is : List Nat) :
    (s.patchAll target is).out.code.length = s.out.code.length := by
  induction is generalizing s with
  | nil => rfl
  | cons i is ih =>
    change ((s.patch i _).patchAll target is).out.code.length = _
    rw [ih]
    exact List.length_modify ..

@[simp] theorem Session.patchAll_gensym (s : Session) (target : Nat) (is : List Nat) :
    (s.patchAll target is).gensym = s.gensym := by
  induction is generalizing s with
  | nil => rfl
  | cons i is ih =>
    change ((s.patch i _).patchAll target is).gensym = _
    rw [ih]
    rfl

def shortCode (op : Op) (a b : Code) : Code :=
  .seq a (.seq (.ins ⟨.dup, 0⟩) (.skipIf op (.seq (.ins ⟨.pop, 0⟩) b)))

/-- The operands of `and` / `or`, once their jumps are patched to the end. -/
theorem compileOperands_sound (hc : Sound env compile) {V : World} (isAnd : Bool) {op : Op}
    (hop : op = if isAnd then .jumpIfFalse else .jumpIfTrue) :
    ∀ {forms : List Form} {s s' : Session} {W : World} {shorts : List Nat}, forms ≠ [] →
      SameScope V W → Tracks env s W → compileOperands compile op forms s = .ok (shorts, s') →
      ∃ e c W', ElabShort env V.visible V.isEmpty isAnd s.gensym forms e s'.gensym ∧
        Emits env s (s'.patchAll s'.out.code.length shorts) W W' c
          fun T lo hi => Compiles env T V.names V.recurSlots lo hi e c
  | [f], s, s', W, shorts, _, hs, ht, h => by
    obtain ⟨_, s₁, h₁, h₂⟩ := bind_ok.mp h
    obtain ⟨rfl, rfl⟩ := pure_ok.mp h₂
    obtain ⟨e, c, W', he, hem⟩ := hc.at hs ht h₁
    exact ⟨e, c, W', .one he, hem⟩
  | f :: g :: rest, s, s', W, shorts, _, hs, ht, h => by
    obtain ⟨_, s₁, h₁, h⟩ := bind_ok.mp h
    obtain ⟨_, s₂, h₂, h⟩ := bind_ok.mp h
    obtain ⟨-, rfl⟩ := emit_unit_ok.mp h₂
    obtain ⟨i, s₃, h₃, h⟩ := bind_ok.mp h
    obtain ⟨-, rfl, rfl⟩ := emit_ok.mp h₃
    obtain ⟨_, s₄, h₄, h⟩ := bind_ok.mp h
    obtain ⟨-, rfl⟩ := emit_unit_ok.mp h₄
    obtain ⟨shorts', s₅, h₅, h⟩ := bind_ok.mp h
    obtain ⟨rfl, rfl⟩ := pure_ok.mp h
    obtain ⟨e, c, W₁, he, hem⟩ := hc.at hs ht h₁
    have ht₂ := hem.tracks.push ⟨.dup, 0⟩
    have hdup := Emits.ins hem.tracks ⟨.dup, 0⟩ (R := fun _ lo hi => lo = hi) fun _ _ => rfl
    have hpop := Emits.ins (ht₂.push ⟨op, 0⟩) ⟨.pop, 0⟩ (R := fun _ lo hi => lo = hi) fun _ _ => rfl
    obtain ⟨e', c', W₂, he', hem'⟩ := compileOperands_sound hc isAnd hop (by simp)
      (hs.trans hem.same) hpop.tracks h₅
    have hskip := Emits.skipIf ht₂ op (Emits.seq (ht₂.push ⟨op, 0⟩) hpop hem')
    have hlen : (s₁.push ⟨.dup, 0⟩).out.code.length + 1 + (Code.seq (.ins ⟨.pop, 0⟩) c').len =
        s'.out.code.length := by
      have hl := hem'.length
      rw [Session.patchAll_length] at hl
      rw [hl]
      simp only [Session.push_code, List.length_append, List.length_cons, List.length_nil, Code.len]
      omega
    refine ⟨if isAnd then .both e e' else .either e e', shortCode op c c', W₂, .more he he', ?_⟩
    change Emits env s ((s'.patch _ _).patchAll _ shorts') W W₂ _ _
    rw [Session.patchAll_patch, ← hlen, Nat.add_sub_cancel_left, hlen]
    refine (Emits.seq ht hem (Emits.seq hem.tracks hdup hskip)).mono ?_
    rintro T lo hi - ⟨mid, h₁, mid', rfl, mid'', rfl, h₂⟩
    cases isAnd <;> subst hop
    · exact .either h₁ h₂
    · exact .both h₁ h₂

theorem compileShortCircuit_sound (hc : Sound env compile) {V W : World} (isAnd : Bool) {op : Op}
    (hop : op = if isAnd then .jumpIfFalse else .jumpIfTrue) {forms : List Form} {s s' : Session}
    (hf : forms ≠ []) (hs : SameScope V W) (ht : Tracks env s W)
    (h : compileShortCircuit compile op forms s = .ok ((), s')) :
    ∃ e c W', ElabShort env V.visible V.isEmpty isAnd s.gensym forms e s'.gensym ∧
      Emits env s s' W W' c fun T lo hi => Compiles env T V.names V.recurSlots lo hi e c := by
  obtain ⟨shorts, s₁, h₁, h⟩ := bind_ok.mp h
  obtain ⟨p, s₂, h₂, h⟩ := bind_ok.mp h
  obtain ⟨rfl, rfl⟩ := pos_ok.mp h₂
  rw [patchAll_ok h, Session.patchAll_gensym]
  exact compileOperands_sound hc isAnd hop hf hs ht h₁

/-! ### Names -/

theorem resolveLocal_sound {x : String} {s s₁ : Session} {W : World} {r : Option Nat}
    (ht : Tracks env s W) (h : resolveLocal x s = .ok (r, s₁)) :
    (W.visible x = false ∧ r = none ∧ s₁ = s) ∨
      ∃ slot W₁, r = some slot ∧ W.visible x = true ∧ Extends env s s₁ W W₁ [] ∧
        W₁.map (·.1.names) = W.map (·.1.names) ∧ W₁.slotOf x = some slot := by
  have hsc := ht.scopes
  rcases resolveIn_spec x W ht.ok with ⟨hr, hv⟩ | ⟨slot, W₁, hr, hok, hg, hn, hs⟩
  · rcases resolveLocal_ok.mp h with ⟨-, hrn, hs⟩ | ⟨i, scopes, hri, -⟩
    · exact .inl ⟨hv, hrn, hs⟩
    · rw [hsc, hr] at hri
      cases hri
  · rcases resolveLocal_ok.mp h with ⟨hrn, -⟩ | ⟨i, scopes, hri, hi, rfl⟩
    · rw [hsc, hr] at hrn
      cases hrn
    · rw [hsc, hr] at hri
      cases hri
      have hv : W.visible x = true := by
        rw [← World.visible_eq hn]
        exact World.slotOf_visible hok hs
      have hb := Session.bodyStart_eq (t := { s with scopes := W₁.map (·.2) }) hsc rfl hg
      refine .inr ⟨slot, W₁, hi, hv, ⟨⟨rfl, hok, ?_, ht.laid⟩, hg, .refl s.out⟩, hn, hs⟩
      rw [hb]
      exact ht.start

/-- The instruction that reads a name just resolved. -/
theorem pushLocal_sound {x : String} {s s₁ : Session} {V W W₁ : World} {slot : Nat} (op : Op)
    (hs : SameScope V W) (ht : Tracks env s W) (hx : Extends env s s₁ W W₁ [])
    (hn : W₁.map (·.1.names) = W.map (·.1.names)) (hl : W₁.slotOf x = some slot) :
    Emits env s (s₁.push ⟨op, slot⟩) W W₁ (.ins ⟨op, slot⟩) fun T lo hi =>
      lo ≤ hi ∧ T.slotOf V.names x = some slot := by
  have hem := Emits.ins hx.tracks ⟨op, slot⟩ (R := fun T lo hi =>
    lo ≤ hi ∧ T.slotOf V.names x = some slot) fun T hf => ⟨Nat.le_refl _, by
      rw [← World.names_eq hs.names, ← World.names_eq hn]
      exact hf.slotOf_some hl⟩
  refine (Emits.after hx hn ht hem).mono ?_
  rintro T lo hi - ⟨mid, hlo, hhi, hc⟩
  exact ⟨Nat.le_trans hlo hhi, hc⟩

theorem pushVar_sound {key : String} {s s' : Session} {V W : World} (ht : Tracks env s W)
    (h : pushVar key s = .ok ((), s')) :
    ∃ c W', Emits env s s' W W' c
      fun T lo hi => Compiles env T V.names V.recurSlots lo hi (.global key) c := by
  obtain ⟨i, hem⟩ := constOp_sound ht (addSymbol_adds key) h
  exact ⟨_, W, hem.mono fun T lo hi _ hR => .global hR.1.le hR.2⟩

/-- A name in no scope is read as a global. -/
theorem pushVar_sym_sound {x : String} {s s' : Session} {V W : World} (hs : SameScope V W)
    (ht : Tracks env s W) (hv : V.visible x = false) (h : pushVar x s = .ok ((), s')) :
    ∃ c W', Emits env s s' W W' c
      fun T lo hi => Compiles env T V.names V.recurSlots lo hi (.sym x) c := by
  obtain ⟨i, hem⟩ := constOp_sound ht (addSymbol_adds x) h
  refine ⟨_, W, hem.mono fun T lo hi hf hR => ?_⟩
  rw [← World.visible_eq hs.names] at hv
  have hnone := hf.slotOf_none hem.tracks.ok hv
  rw [World.names_eq hs.names] at hnone
  exact .symGlobal hR.1.le hnone.1 hnone.2 hR.2

theorem compileQualifiedPrefix_sound {x : String} {s s' : Session} {V W : World}
    (hs : SameScope V W) (ht : Tracks env s W) (h : compileQualifiedPrefix x s = .ok ((), s')) :
    ∃ c W', Emits env s s' W W' c
      fun T lo hi => Compiles env T V.names V.recurSlots lo hi (.sym x) c := by
  obtain ⟨r, s₁, h₁, hk⟩ := bind_ok.mp h
  rcases resolveLocal_sound ht h₁ with ⟨hv, rfl, rfl⟩ | ⟨slot, W₁, rfl, hv, hx, hn, hl⟩
  · rw [World.visible_eq hs.names] at hv
    exact pushVar_sym_sound hs ht hv hk
  · obtain ⟨-, rfl⟩ := emit_unit_ok.mp hk
    exact ⟨_, W₁, (pushLocal_sound .pushLocal hs ht hx hn hl).mono fun T lo hi _ hR =>
      .symLocal hR.1 hR.2⟩

theorem keepsGensym_compileQualifiedPrefix (x : String) : KeepsGensym (compileQualifiedPrefix x) := by
  refine .bind (.resolveLocal x) fun r => ?_
  cases r with
  | none => exact .constOp _ _
  | some slot => exact .emit_ _ _

theorem member_sound {o : Exp} {m : String} {s s₁ s' : Session} {V W W₁ : World} {c : Code}
    (ht : Tracks env s W)
    (ho : Emits env s s₁ W W₁ c fun T lo hi => Compiles env T V.names V.recurSlots lo hi o c)
    (h : (do let i ← addSymbol m; emit_ .getMember i : CompileM Unit) s₁ = .ok ((), s')) :
    ∃ c W', Emits env s s' W W' c
      fun T lo hi => Compiles env T V.names V.recurSlots lo hi (.member o m) c := by
  obtain ⟨i, hem⟩ := constOp_sound ho.tracks (addSymbol_adds m) h
  refine ⟨_, W₁, (Emits.seq ht ho hem).mono ?_⟩
  rintro T lo hi - ⟨mid, h₁, rfl, h₃⟩
  exact .member h₁ h₃

theorem keepsGensym_compileName (spelling : String) : KeepsGensym (compileName env spelling) := by
  refine .bind (.lift _) fun name => .ite (.constOp _ _) ?_
  split
  · exact .guard (.guard (.constOp _ _))
  · split
    · exact .guard (.constOp _ _)
    · refine .bind (.resolveLocal name) fun r => ?_
      split
      · exact .emit_ _ _
      · refine .guard ?_
        split
        · exact .bind (keepsGensym_compileQualifiedPrefix _) fun _ => .constOp _ _
        · exact .constOp _ _

theorem compileName_sound {spelling : String} {s s' : Session} {W : World} (ht : Tracks env s W)
    (h : compileName env spelling s = .ok ((), s')) :
    ∃ e c W', Elab env W.visible W.isEmpty s.gensym (.name spelling) e s'.gensym ∧
      Emits env s s' W W' c fun T lo hi => Compiles env T W.names W.recurSlots lo hi e c := by
  rw [keepsGensym_compileName spelling _ _ _ h]
  obtain ⟨name, s₁, h₁, hk⟩ := bind_ok.mp h
  obtain ⟨hname, rfl⟩ := lift_ok.mp h₁
  cases hkw : isKeywordName name with
  | true =>
    rw [hkw] at hk
    obtain ⟨i, hem⟩ := constOp_sound ht (addNamed_adds name) hk
    exact ⟨_, _, W, .keyword hname hkw, hem.mono fun T lo hi _ hR => .const hR.1.le hR.2⟩
  | false =>
    rw [hkw, if_neg Bool.false_ne_true] at hk
    suffices hsym : ∃ c W', Emits env s₁ s' W W' c fun T lo hi =>
        Compiles env T W.names W.recurSlots lo hi (symbolExp W.visible name) c by
      obtain ⟨c, W', hem⟩ := hsym
      exact ⟨_, c, W', .symbol hname hkw, hem⟩
    rw [symbolExp]
    cases hcore : stripCoreQualifier name with
    | some bare =>
      simp only [hcore] at hk
      obtain ⟨-, hk⟩ := guard_ok.mp hk
      obtain ⟨-, hk⟩ := guard_ok.mp hk
      exact pushVar_sound ht hk
    | none =>
      simp only [hcore] at hk
      cases huser : stripUserQualifier name with
      | some key =>
        simp only [huser] at hk
        obtain ⟨-, hk⟩ := guard_ok.mp hk
        exact pushVar_sound ht hk
      | none =>
        simp only [huser] at hk
        obtain ⟨r, s₂, h₂, hr⟩ := bind_ok.mp hk
        rcases resolveLocal_sound ht h₂ with ⟨hv, rfl, rfl⟩ | ⟨slot, W₁, rfl, hv, hx, hn, hl⟩
        · obtain ⟨-, hq'⟩ := guard_ok.mp hr
          simp only [hv, Bool.false_eq_true, if_false]
          cases hq : qualifiedParts name with
          | none =>
            simp only [hq] at hq'
            exact pushVar_sym_sound (.refl W) ht hv hq'
          | some ab =>
            simp only [hq] at hq'
            obtain ⟨_, s₃, h₃, hm⟩ := bind_ok.mp hq'
            obtain ⟨c, W₁, ho⟩ := compileQualifiedPrefix_sound (.refl W) ht h₃
            exact member_sound ht ho hm
        · obtain ⟨-, rfl⟩ := emit_unit_ok.mp hr
          simp only [hv, if_true]
          exact ⟨_, W₁, (pushLocal_sound .pushLocal (.refl W) ht hx hn hl).mono
            fun T lo hi _ hR => .symLocal hR.1 hR.2⟩

/-! ### Globals -/

theorem setGlobal_sound {key : String} {e : Exp} {s s₁ s' : Session} {V W W₁ : World} {c : Code}
    (ht : Tracks env s W)
    (he : Emits env s s₁ W W₁ c fun T lo hi => Compiles env T V.names V.recurSlots lo hi e c)
    (h : (do let i ← addSymbol key; emit_ .storeGlobal i : CompileM Unit) s₁ = .ok ((), s')) :
    ∃ c, Emits env s s' W W₁ c
      fun T lo hi => Compiles env T V.names V.recurSlots lo hi (.setGlobal key e) c := by
  obtain ⟨i, hem⟩ := constOp_sound he.tracks (addSymbol_adds key) h
  refine ⟨_, (Emits.seq ht he hem).mono ?_⟩
  rintro T lo hi - ⟨mid, h₁, rfl, h₃⟩
  exact .setGlobal h₁ h₃

theorem keepsGensym_emitStoreGlobal (key : String) : KeepsGensym (emitStoreGlobal env key) :=
  .bind (.onOut _) fun _ => .bind (.emit_ _ _) fun _ => .ite (.constOp _ _) (.pure _)

theorem emitStoreGlobal_sound {key : String} {e : Exp} {s s₁ s' : Session} {V W W₁ : World}
    {c : Code} (ht : Tracks env s W)
    (he : Emits env s s₁ W W₁ c fun T lo hi => Compiles env T V.names V.recurSlots lo hi e c)
    (h : emitStoreGlobal env key s₁ = .ok ((), s')) :
    ∃ c, Emits env s s' W W₁ c
      fun T lo hi => Compiles env T V.names V.recurSlots lo hi (defExp env key e) c := by
  rw [defExp]
  obtain ⟨i, s₂, h₂, hk⟩ := bind_ok.mp h
  obtain ⟨_, s₃, h₃, hk'⟩ := bind_ok.mp hk
  obtain ⟨c₁, hem⟩ := setGlobal_sound ht he (bind_ok.mpr ⟨i, s₂, h₂, h₃⟩)
  split_ifs at hk' ⊢ with hcore
  · exact setGlobal_sound ht hem hk'
  · obtain ⟨-, rfl⟩ := pure_ok.mp hk'
    exact ⟨c₁, hem⟩

/-! ### Calls -/

theorem compileCallArgs_sound (hc : Sound env compile) {f : Exp} {args : List Form}
    {s s₁ s' : Session} {V W W₁ : World} {c : Code} (hs : SameScope V W) (ht : Tracks env s W)
    (hf : Emits env s s₁ W W₁ c fun T lo hi => Compiles env T V.names V.recurSlots lo hi f c)
    (h : compileCallArgs compile args s₁ = .ok ((), s')) :
    ∃ es c W', ElabList env V.visible V.isEmpty s₁.gensym args es s'.gensym ∧
      Emits env s s' W W' c fun T lo hi =>
        Compiles env T V.names V.recurSlots lo hi (.call (hasKvSuffix args) f es) c := by
  obtain ⟨_, s₂, h₂, hk⟩ := bind_ok.mp h
  obtain ⟨-, rfl⟩ := emit_unit_ok.mp hk
  obtain ⟨es, cs, W₂, hes, hl, hems⟩ := compileArgs_sound hc (hs.trans hf.same) hf.tracks h₂
  have hcall := Emits.ins hems.tracks ⟨if hasKvSuffix args then .callKw else .call, args.length⟩
    (R := fun _ lo hi => lo = hi) fun _ _ => rfl
  refine ⟨es, _, W₂, hes, (Emits.seq ht hf (Emits.seq hf.tracks hems hcall)).mono ?_⟩
  rintro T lo hi - ⟨mid, h₁, mid', h₂, rfl⟩
  rw [← hl]
  exact .call h₁ h₂

theorem compileHelperCall_sound (hc : Sound env compile) {name : String} {args : List Form}
    {s s' : Session} {V W : World} (hs : SameScope V W) (ht : Tracks env s W)
    (h : compileHelperCall compile name args s = .ok ((), s')) :
    ∃ es c W', ElabList env V.visible V.isEmpty s.gensym args es s'.gensym ∧
      Emits env s s' W W' c fun T lo hi =>
        Compiles env T V.names V.recurSlots lo hi (.call false (.global name) es) c := by
  obtain ⟨_, s₁, h₁, hk⟩ := bind_ok.mp h
  obtain ⟨_, s₂, h₂, hk'⟩ := bind_ok.mp hk
  obtain ⟨-, rfl⟩ := emit_unit_ok.mp hk'
  obtain ⟨c, W₁, hf⟩ : ∃ c W₁, Emits env s s₁ W W₁ c
      fun T lo hi => Compiles env T V.names V.recurSlots lo hi (.global name) c :=
    pushVar_sound ht h₁
  obtain ⟨es, cs, W₂, hes, hl, hems⟩ :=
    compileArgs_sound hc (hs.trans hf.same) hf.tracks h₂
  have hcall := Emits.ins hems.tracks ⟨.call, args.length⟩ (R := fun _ lo hi => lo = hi)
    fun _ _ => rfl
  rw [KeepsGensym.constOp _ _ _ _ _ h₁] at hes
  refine ⟨es, _, W₂, hes, (Emits.seq ht hf (Emits.seq hf.tracks hems hcall)).mono ?_⟩
  rintro T lo hi - ⟨mid, h₁, mid', h₂, rfl⟩
  rw [← hl]
  exact .call h₁ h₂

theorem compileApply_sound (hc : Sound env compile) {vis : String → Bool} {top : Bool}
    {head : Form} {core : Bool} {rest : List Form} {s s' : Session} {W : World} (ht : Tracks env s W)
    (hv : W.visible = vis) (htop : W.isEmpty = top) (hd : HeadIs env vis head "apply" core)
    (h : compileApply compile rest s = .ok ((), s')) :
    ∃ e c W', Elab env vis top s.gensym (.list (head :: rest)) e s'.gensym ∧
      Emits env s s' W W' c fun T lo hi => Compiles env T W.names W.recurSlots lo hi e c := by
  subst hv htop
  match rest, h with
  | [], h => exact (fail_ok.mp h).elim
  | [_], h => exact (fail_ok.mp h).elim
  | [f, a], h =>
    obtain ⟨_, s₁, h₁, hk⟩ := bind_ok.mp h
    obtain ⟨_, s₂, h₂, hk'⟩ := bind_ok.mp hk
    obtain ⟨-, rfl⟩ := emit_unit_ok.mp hk'
    obtain ⟨e₁, c₁, W₁, he₁, hem₁⟩ := hc ht h₁
    obtain ⟨e₂, c₂, W₂, he₂, hem₂⟩ := hc.at hem₁.same hem₁.tracks h₂
    have hcall := Emits.ins hem₂.tracks ⟨.callApply, 0⟩ (R := fun _ lo hi => lo = hi) fun _ _ => rfl
    refine ⟨_, _, W₂, .apply hd he₁ he₂,
      (Emits.seq ht hem₁ (Emits.seq hem₁.tracks hem₂ hcall)).mono ?_⟩
    rintro T lo hi - ⟨mid, h₁, mid', h₂, rfl⟩
    exact .apply h₁ h₂
  | f :: a :: b :: more, h =>
    obtain ⟨_, s₁, h₁, hk⟩ := bind_ok.mp h
    obtain ⟨_, s₂, h₂, hk'⟩ := bind_ok.mp hk
    obtain ⟨-, rfl⟩ := emit_unit_ok.mp hk'
    obtain ⟨e₁, c₁, W₁, he₁, hem₁⟩ := hc ht h₁
    obtain ⟨es, c₂, W₂, hes, hem₂⟩ := compileHelperCall_sound hc hem₁.same hem₁.tracks h₂
    have hcall := Emits.ins hem₂.tracks ⟨.callApply, 0⟩ (R := fun _ lo hi => lo = hi) fun _ _ => rfl
    refine ⟨_, _, W₂, .applyMore hd he₁ hes,
      (Emits.seq ht hem₁ (Emits.seq hem₁.tracks hem₂ hcall)).mono ?_⟩
    rintro T lo hi - ⟨mid, h₁, mid', h₂, rfl⟩
    exact .apply h₁ h₂

/-- The operands after the first, folded into what is on the stack. -/
theorem compileOperatorArgs_sound (hc : Sound env compile) {V : World} {op : Op}
    (hop : ∃ name, operatorOp name = some op) (core : Bool) :
    ∀ {args : List Form} {e : Exp} {s s₁ s' : Session} {W W₁ : World} {c : Code}, SameScope V W →
      Tracks env s W →
      Emits env s s₁ W W₁ c (fun T lo hi => Compiles env T V.names V.recurSlots lo hi e c) →
      compileOperatorArgs compile op (if core then 1 else 0) args s₁ = .ok ((), s') →
      ∃ es c W', ElabList env V.visible V.isEmpty s₁.gensym args es s'.gensym ∧
        Emits env s s' W W' c fun T lo hi =>
          Compiles env T V.names V.recurSlots lo hi (foldOperator op core e es) c
  | [], e, s, s₁, s', W, W₁, c, _, _, he, h => by
    obtain ⟨-, rfl⟩ := pure_ok.mp h
    exact ⟨.nil, c, W₁, .nil, he⟩
  | f :: rest, e, s, s₁, s', W, W₁, c, hs, ht, he, h => by
    obtain ⟨_, s₂, h₂, hk⟩ := bind_ok.mp h
    obtain ⟨_, s₃, h₃, hk'⟩ := bind_ok.mp hk
    obtain ⟨-, rfl⟩ := emit_unit_ok.mp h₃
    obtain ⟨e', c', W₂, he', hem'⟩ := hc.at (hs.trans he.same) he.tracks h₂
    have hins := Emits.ins hem'.tracks ⟨op, if core then 1 else 0⟩ (R := fun _ lo hi => lo = hi)
      fun _ _ => rfl
    have hfold := (Emits.seq ht he (Emits.seq he.tracks hem' hins)).mono
      (Q := fun T lo hi => Compiles env T V.names V.recurSlots lo hi (.operator op core e e')
        (.seq c (.seq c' (.ins ⟨op, if core then 1 else 0⟩)))) (by
          rintro T lo hi - ⟨mid, h₁, mid', h₂, rfl⟩
          exact .operator hop h₁ h₂)
    obtain ⟨es, c'', W₃, hes, hem⟩ := compileOperatorArgs_sound hc hop core hs ht hfold hk'
    exact ⟨.cons e' es, c'', W₃, .cons he' hes, hem⟩

/-- Code after a step that emits none, such as a capture that is not used. -/
theorem Emits.widen {e : Exp} {c : Code} {s s₁ s' : Session} {V W W₁ W' : World}
    (hx : Extends env s s₁ W W₁ []) (hn : W₁.map (·.1.names) = W.map (·.1.names)) (ht : Tracks env s W)
    (h : Emits env s₁ s' W₁ W' c fun T lo hi => Compiles env T V.names V.recurSlots lo hi e c) :
    Emits env s s' W W' c fun T lo hi => Compiles env T V.names V.recurSlots lo hi e c := by
  refine (Emits.after hx hn ht h).mono ?_
  rintro T lo hi - ⟨mid, hlo, hR⟩
  exact hR.widen hlo

theorem pureIte_ok {α : Type} {c : Prop} [Decidable c] {a b r : α} {s s' : Session} :
    (if c then pure a else pure b : CompileM α) s = .ok (r, s') ↔
      r = (if c then a else b) ∧ s' = s := by
  split_ifs <;> exact pure_ok

theorem keepsGensym_inlinedOperator (name : String) (core : Bool) (argc : Nat) :
    KeepsGensym (inlinedOperator env name core argc) := by
  unfold inlinedOperator
  split
  · exact .pure _
  · refine .ite (.bind (.pure _) fun _ => ?_) (.bind (.resolveLocal name) fun _ => ?_)
    · exact .ite (.pure _) (.pure _)
    · exact .ite (.pure _) (.pure _)

theorem inlinedOperator_sound {name : String} {core : Bool} {argc : Nat} {s s₁ : Session}
    {W : World} {r : Option Op} (ht : Tracks env s W)
    (h : inlinedOperator env name core argc s = .ok (r, s₁)) :
    r = inlined env W.visible name core argc ∧
      ∃ W₁, Extends env s s₁ W W₁ [] ∧ W₁.map (·.1.names) = W.map (·.1.names) := by
  rw [inlined]
  rw [inlinedOperator] at h
  cases hop : operatorOp name with
  | none =>
    simp only [hop] at h
    obtain ⟨rfl, rfl⟩ := pure_ok.mp h
    exact ⟨rfl, W, .refl ht, rfl⟩
  | some op =>
    simp only [hop] at h
    cases core with
    | true =>
      rw [if_pos rfl] at h
      obtain ⟨shadow, s₂, h₂, hk⟩ := bind_ok.mp h
      obtain ⟨rfl, rfl⟩ := pure_ok.mp h₂
      obtain ⟨rfl, rfl⟩ := pureIte_ok.mp hk
      exact ⟨by simp, W, .refl ht, rfl⟩
    | false =>
      rw [if_neg Bool.false_ne_true] at h
      obtain ⟨shadow, s₂, h₂, hk⟩ := bind_ok.mp h
      obtain ⟨rfl, rfl⟩ := pureIte_ok.mp hk
      rcases resolveLocal_sound ht h₂ with ⟨hv, rfl, rfl⟩ | ⟨slot, W₁, rfl, hv, hx, hn, -⟩
      · exact ⟨by simp [hv], W, .refl ht, rfl⟩
      · exact ⟨by simp [hv], W₁, hx, hn⟩

/-- A head that dispatches on a keyword is that keyword. -/
theorem keyword_head {vis : String → Bool} {top : Bool} {head : Form} {name : String} {e : Exp}
    (hd : dispatchName env head = .ok (name, false)) (hn : head.isName = true)
    (hk : isKeywordName name = true) {n n' : Nat}
    (he : Elab env vis top n head e n') : e = .lit (.const (.named name)) ∧ n' = n := by
  cases head with
  | name spelling =>
    have halias : aliasLibraryNamespace env spelling = .ok name := by
      rw [dispatchName] at hd
      cases ha : aliasLibraryNamespace env spelling with
      | error err =>
        simp only [Form.isName, Form.nameOf, ha] at hd
        cases hd
      | ok full =>
        simp only [Form.isName, Form.nameOf, ha] at hd
        have hd' : (if (stripCoreQualifier full).getD full = "fn*" then "fn"
            else (stripCoreQualifier full).getD full, (stripCoreQualifier full).isSome) =
            (name, false) := Except.ok.inj hd
        obtain ⟨hname, hcore⟩ := Prod.mk.inj hd'
        rw [Option.isSome_eq_false_iff, Option.isNone_iff_eq_none] at hcore
        rw [hcore, Option.getD_none] at hname
        split_ifs at hname with hfn
        · rw [← hname] at hk
          exact absurd hk (by decide)
        · rw [hname]
    cases he with
    | keyword h _ =>
      rw [halias] at h
      cases h
      exact ⟨rfl, rfl⟩
    | symbol h hk' =>
      rw [halias] at h
      cases h
      rw [hk] at hk'
      cases hk'
  | _ => cases hn

/-- A call of a member, `(a/b ...)`. -/
theorem callMember_sound (hc : Sound env compile) {a b : String} {args : List Form}
    {s s' : Session} {V W : World} (hs : SameScope V W) (ht : Tracks env s W)
    (h : (do
      compileQualifiedPrefix a
      compileArgs compile args
      emit_ .callMember args.length
      let i ← addSymbol b
      emit_ .nop i : CompileM Unit) s = .ok ((), s')) :
    ∃ es c W', ElabList env V.visible V.isEmpty s.gensym args es s'.gensym ∧
      Emits env s s' W W' c fun T lo hi =>
        Compiles env T V.names V.recurSlots lo hi (.callMember (.sym a) b es) c := by
  obtain ⟨_, s₁, h₁, hk⟩ := bind_ok.mp h
  obtain ⟨_, s₂, h₂, hk⟩ := bind_ok.mp hk
  obtain ⟨_, s₃, h₃, hk⟩ := bind_ok.mp hk
  obtain ⟨-, rfl⟩ := emit_unit_ok.mp h₃
  obtain ⟨co, W₁, ho⟩ : ∃ co W₁, Emits env s s₁ W W₁ co
      fun T lo hi => Compiles env T V.names V.recurSlots lo hi (.sym a) co :=
    compileQualifiedPrefix_sound hs ht h₁
  obtain ⟨es, cs, W₂, hes, hl, hems⟩ := compileArgs_sound hc (hs.trans ho.same) ho.tracks h₂
  have ht₃ := hems.tracks.push ⟨.callMember, args.length⟩
  obtain ⟨i, hem⟩ := constOp_sound ht₃ (addSymbol_adds b) hk
  have hmem : Emits env s₂ s' W₂ W₂ (.member args.length i) fun T lo hi =>
      lo = hi ∧ T.consts[i]? = some (.symbol b) :=
    ⟨(Extends.push hems.tracks ⟨.callMember, args.length⟩).trans hem.grows, rfl, hem.rel⟩
  rw [keepsGensym_compileQualifiedPrefix a _ _ _ h₁] at hes
  have hg := KeepsGensym.constOp _ _ _ _ _ hk
  rw [hg]
  refine ⟨es, _, W₂, hes, (Emits.seq ht ho (Emits.seq ho.tracks hems hmem)).mono ?_⟩
  rintro T lo hi - ⟨mid, h₁, mid', h₂, rfl, h₃⟩
  rw [← hl]
  exact .callMember h₁ h₂ h₃

/-- A call of a name that no special form takes and no macro expands. -/
theorem compileNamedCall_sound (hc : Sound env compile) {head : Form} {name : String} {core : Bool}
    {args : List Form} {s s' : Session} {W : World} (ht : Tracks env s W)
    (hd : CallHead env W.visible head name core)
    (h : compileNamedCall env compile head name core args s = .ok ((), s')) :
    ∃ e c W', Elab env W.visible W.isEmpty s.gensym (.list (head :: args)) e s'.gensym ∧
      Emits env s s' W W' c fun T lo hi => Compiles env T W.names W.recurSlots lo hi e c := by
  obtain ⟨r, s₁, h₁, hk⟩ := bind_ok.mp h
  obtain ⟨hr, W₁, hx, hn⟩ := inlinedOperator_sound ht h₁
  rw [← keepsGensym_inlinedOperator name core args.length _ _ _ h₁]
  have hs₁ : SameScope W W₁ := ⟨hx.grows, hn⟩
  have ht₁ := hx.tracks
  cases r with
  | some op =>
    obtain ⟨hop, hargc⟩ : operatorOp name = some op ∧ ¬ args.length < 2 := by
      rw [inlined] at hr
      cases ho : operatorOp name with
      | none => rw [ho] at hr; cases hr
      | some op' =>
        simp only [ho] at hr
        split_ifs at hr with hcond
        cases hr
        simp only [Bool.or_eq_true, decide_eq_true_eq, not_or] at hcond
        exact ⟨rfl, hcond.1.2⟩
    obtain ⟨_, s₂, h₂, hk⟩ := bind_ok.mp hk
    match args, hargc with
    | f :: rest, hargc =>
      obtain ⟨_, s₃, h₃, hnil⟩ := bind_ok.mp h₂
      obtain ⟨-, rfl⟩ := pure_ok.mp hnil
      obtain ⟨e, c, W₂, he, hem⟩ := hc.at hs₁ ht₁ h₃
      obtain ⟨es, c', W₃, hes, hem'⟩ := compileOperatorArgs_sound hc ⟨name, hop⟩ core hs₁ ht₁ hem hk
      exact ⟨_, c', W₃, .operator hd hr.symm he hes, Emits.widen hx hn ht hem'⟩
  | none =>
    simp only at hk
    have hcall : ∀ {f : Exp} {s₂ : Session} {c : Code} {W₂ : World},
        headExp W.visible name core = some f →
        Emits env s₁ s₂ W₁ W₂ c (fun T lo hi => Compiles env T W.names W.recurSlots lo hi f c) →
        s₂.gensym = s₁.gensym → compileCallArgs compile args s₂ = .ok ((), s') →
        ∃ e c W', Elab env W.visible W.isEmpty s₁.gensym (.list (head :: args)) e s'.gensym ∧
          Emits env s s' W W' c fun T lo hi => Compiles env T W.names W.recurSlots lo hi e c := by
      intro f s₂ c W₂ hf hem hg hargs
      rw [← hg]
      obtain ⟨es, c', W₃, hes, hem'⟩ := compileCallArgs_sound hc hs₁ ht₁ hem hargs
      exact ⟨_, c', W₃, .call hd hr.symm hf hes, Emits.widen hx hn ht hem'⟩
    rw [headExp] at hcall
    cases core with
    | true =>
      obtain ⟨_, s₂, h₂, hk⟩ := bind_ok.mp hk
      obtain ⟨c, W₂, hem⟩ := pushVar_sound (V := W) ht₁ h₂
      exact hcall rfl hem (KeepsGensym.constOp _ _ _ _ _ h₂) hk
    | false =>
      simp only [Bool.false_eq_true, if_false] at hk hcall
      cases huser : stripUserQualifier name with
      | some key =>
        simp only [huser] at hk hcall
        obtain ⟨_, s₂, h₂, hk⟩ := bind_ok.mp hk
        obtain ⟨c, W₂, hem⟩ := pushVar_sound (V := W) ht₁ h₂
        exact hcall rfl hem (KeepsGensym.constOp _ _ _ _ _ h₂) hk
      | none =>
        simp only [huser] at hk hcall
        cases hkw : isKeywordName name with
        | true =>
          simp only [hkw, if_true] at hk hcall
          obtain ⟨_, s₂, h₂, hk⟩ := bind_ok.mp hk
          obtain ⟨e, c, W₂, he, hem⟩ := hc.at hs₁ ht₁ h₂
          obtain ⟨rfl, hg⟩ := keyword_head hd.dispatch hd.isName hkw he
          exact hcall rfl hem hg hk
        | false =>
          simp only [hkw, Bool.false_eq_true, if_false] at hk hcall
          obtain ⟨r, s₂, h₂, hr'⟩ := bind_ok.mp hk
          rcases resolveLocal_sound ht₁ h₂ with
            ⟨hv, rfl, rfl⟩ | ⟨slot, W₂, rfl, hv, hx₂, hn₂, hl⟩
          · rw [World.visible_eq hn] at hv
            simp only [hv, Bool.false_eq_true, if_false] at hcall
            cases hq : qualifiedParts name with
            | none =>
              simp only [hq] at hr' hcall
              obtain ⟨_, s₃, h₃, hk'⟩ := bind_ok.mp hr'
              obtain ⟨c, W₂, hem⟩ := pushVar_sym_sound hs₁ ht₁ hv h₃
              exact hcall rfl hem (KeepsGensym.constOp _ _ _ _ _ h₃) hk'
            | some ab =>
              simp only [hq] at hr'
              have hf : headExp W.visible name false = none := by
                simp [headExp, huser, hkw, hv, hq]
              obtain ⟨es, c, W₂, hes, hem⟩ := callMember_sound hc hs₁ ht₁ hr'
              exact ⟨_, c, W₂, .callMember hd hr.symm hf hq hes, Emits.widen hx hn ht hem⟩
          · rw [World.visible_eq hn] at hv
            simp only [hv, if_true] at hcall
            obtain ⟨_, s₃, h₃, hk'⟩ := bind_ok.mp hr'
            obtain ⟨-, rfl⟩ := emit_unit_ok.mp h₃
            have hem := (pushLocal_sound .pushLocal hs₁ ht₁ hx₂ hn₂ hl).mono
              (Q := fun T lo hi => Compiles env T W.names W.recurSlots lo hi (.sym name)
                (.ins ⟨.pushLocal, slot⟩)) fun T lo hi _ hR => .symLocal hR.1 hR.2
            have hg : s₂.gensym = s₁.gensym := KeepsGensym.resolveLocal _ _ _ _ h₂
            exact hcall rfl hem hg hk'

end

end ProtoClojure
