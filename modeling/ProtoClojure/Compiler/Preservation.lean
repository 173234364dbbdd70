import ProtoClojure.Compiler.Compiled
import ProtoClojure.Compiler.Determined
import ProtoClojure.Compiler.SimProgram
import ProtoClojure.Runtime.FrameStack

/-! Compiled top-level forms, run one after the other, do what the forms mean. -/
namespace ProtoClojure
open Recursion Simulation
open Meaning (Closure Abrupt meaning)
open Vm (Host Thrown)

variable {σ : Type} (H : Host σ)

/-- A top-level form, with what the compiler found around it and the native stack it had. -/
structure TopLevel where
  env : Env
  fuel : Nat
  form : Form

def TopLevel.Compiled (t : TopLevel) (m : BytecodeModule) : Prop := compileModule t.env t.fuel t.form = .ok m

def TopLevel.StandsFor (t : TopLevel) (e : Exp) : Prop := ∃ n, Elab t.env (fun _ => false) true 0 t.form e n

theorem TopLevel.StandsFor.unique {t : TopLevel} {e e' : Exp} (h : t.StandsFor e) (h' : t.StandsFor e') : e = e' := by
  obtain ⟨_, h⟩ := h
  obtain ⟨_, h'⟩ := h'
  exact (h.unique h').1

/-- How a top-level expression ends. -/
def Evaluates (e : Exp) (w : Vm.World σ Closure) (r : Except Abrupt Value) (w' : Vm.World σ Closure) : Prop :=
  (meaning H).Answers (.exp [] e w) (r, w')

/-- How the run of a top-level form's module ends on a native stack of so many bytes, with room for
so many frames. -/
def Executes (bytes room : Nat) (m : BytecodeModule) (w : Vm.World σ FnObject) (r : Except Thrown Value)
    (w' : Vm.World σ FnObject) : Prop := (Vm.runOn H bytes room m w).Returns (Vm.vmOn H bytes).Answers (r, w')

/-- How it ends on a stack without an end. -/
def EndsIn (m : BytecodeModule) (w : Vm.World σ FnObject) (r : Except Thrown Value) (w' : Vm.World σ FnObject) :
    Prop := (Vm.run H m w).Returns (Vm.vm H).Answers (r, w')

variable {H}

theorem Laid.topLevel {m : BytecodeModule} {c : Code} {P : Instr → Prop} (hc : c.Every P)
    (hP : ∀ w, P w → Plain w) (hcode : m.code = c.flatten 0) (hh : m.hasHandlers = m.code.any Instr.isTryBegin) :
    Laid ⟨m, m.tables [] fun _ => false, none, 0, [], []⟩ := by
  refine ⟨rfl, rfl, rfl, fun i n hi => ?_, .of_none fun w hw ho => ?_⟩
  · show m.hasHandlers = true
    rw [hh, List.any_eq_true]
    exact ⟨_, List.mem_of_getElem? hi, by simp [Instr.isTryBegin]⟩
  · rw [hcode] at hw
    rcases hc.of_mem hw with h | h
    · exact (hP w h).2 ho
    · rw [ho] at h
      simp [Code.shapeOps] at h

/-- The run of a form's module ends as the form's expression does. -/
theorem TopLevel.Compiled.executes {t : TopLevel} {m : BytecodeModule} (h : t.Compiled m) :
    ∃ e, t.StandsFor e ∧ (e.steady false = true → ∀ {w : Vm.World σ Closure} {wM : Vm.World σ FnObject} {r w'},
      WorldRel w wM → Evaluates H e w r w' →
      ∃ r' wM', r = r'.mapError .raise ∧ WorldRel w' wM' ∧ EndsIn H m wM r' wM') := by
  obtain ⟨e, n, c, he, hc, hcode, -, hcap, hh⟩ := compileModule_laidOut h
  refine ⟨e, ⟨n, he⟩, fun hs {w wM r w'} hw ha => ?_⟩
  have hevery : (Code.seq c (.ins ⟨.ret, 0⟩)).Every Plain := ⟨hc.every.mono fun _ => Fits.isPlain, Plain.of⟩
  have hlaid := Laid.topLevel hevery (fun _ => id) hcode hh
  have hat : Code.At m.code 0 0 (.seq c (.ins ⟨.ret, 0⟩)) := by
    unfold Code.At
    rw [hcode]
    exact fun i w hw => ⟨w, by rwa [Nat.zero_add], .inl rfl⟩
  let s : St σ := ⟨0, [], Binding.slots { body := m, captures := [], args := [] }, fun _ => none, wM⟩
  have hhere : Here ⟨m, m.tables [] fun _ => false, none, 0, [], []⟩ [] [] 0 s 0 false w :=
    ⟨hlaid, ⟨fun _ => rfl, fun _ _ h => (by cases h), fun _ _ h => (by cases h)⟩, hw, fun _ h => (by cases h),
      fun h => absurd rfl h, fun h => absurd rfl h⟩
  have hrun := answers_sim ha hc (hat.seq.1 : Code.At _ s.p 0 c) hhere hs
  have hret := hat.seq.2.ins (by simp)
  obtain ⟨r', rfl⟩ : ∃ r' : Except Thrown Value, r = r'.mapError .raise := by
    rcases r with (t | args) | v
    · exact ⟨.error t, rfl⟩
    · obtain ⟨_, _, _, _, hL, -⟩ := hrun
      cases hL
    · exact ⟨.ok v, rfl⟩
  obtain ⟨wM', hw', hanswer⟩ := hrun.answers rfl hret
  refine ⟨r', wM', rfl, hw', ?_⟩
  unfold EndsIn
  rw [Vm.run_frame hcap]
  exact Comp.returns_ask.mpr hanswer

theorem TopLevel.standsFor_all {ts : List TopLevel} {es : List Exp} (h : List.Forall₂ TopLevel.StandsFor ts es)
    (es' : List Exp) : List.Forall₂ TopLevel.StandsFor ts es' ↔ es' = es := by
  refine ⟨fun h' => ?_, fun he => he ▸ h⟩
  induction h generalizing es' with
  | nil =>
    cases h'
    rfl
  | cons h _ ih =>
    cases h' with
    | cons h' hs' => rw [h'.unique h, ih _ hs']

/-- The forms of a session, each compiled where it was read, stand for one list of expressions. The session
ends as these do, on every native stack with room enough for it: every form in the same value or exception,
and with the same globals after it. -/
theorem session_preserved {ts : List TopLevel} {ms : List BytecodeModule}
    (hc : List.Forall₂ TopLevel.Compiled ts ms) :
    ∃ es, (∀ es', List.Forall₂ TopLevel.StandsFor ts es' ↔ es' = es) ∧ ((∀ e ∈ es, e.steady false = true) →
      ∀ {w w' : Vm.World σ Closure} {wM : Vm.World σ FnObject} {rs : List (Except Abrupt Value)},
        WorldRel w wM → Successive (Evaluates H) es w rs w' →
        ∃ (rs' : List (Except Thrown Value)) (wM' : Vm.World σ FnObject),
          List.Forall₂ (fun r r' => r = r'.mapError .raise) rs rs' ∧ WorldRel w' wM' ∧
            ∀ bytes, ∃ n, ∀ room, n ≤ room → Successive (Executes H bytes room) ms wM rs' wM') := by
  obtain ⟨es, hes, hrel⟩ : ∃ es, List.Forall₂ TopLevel.StandsFor ts es ∧
      ((∀ e ∈ es, e.steady false = true) → List.Forall₂ (fun e m => ∀ {w : Vm.World σ Closure} {wM r w'},
        WorldRel w wM → Evaluates H e w r w' →
          ∃ r' wM', r = Except.mapError .raise r' ∧ WorldRel w' wM' ∧ EndsIn H m wM r' wM') es ms) := by
    induction hc with
    | nil => exact ⟨[], .nil, fun _ => .nil⟩
    | cons h _ ih =>
      obtain ⟨e, he, hrun⟩ := h.executes (H := H)
      obtain ⟨es, hes, hruns⟩ := ih
      refine ⟨e :: es, .cons he hes, fun hs => .cons (hrun (hs e (List.mem_cons_self ..))) (hruns fun e' he' => ?_)⟩
      exact hs e' (List.mem_cons_of_mem e he')
  refine ⟨es, TopLevel.standsFor_all hes, fun hs {w w' wM rs} hw h => ?_⟩
  obtain ⟨rs', wM', hrs, hw', hends⟩ :=
    Successive.simulates (fun e m _ _ _ _ hm hw he => hm hw he) (hrel hs) hw h
  exact ⟨rs', wM', hrs, hw', fun bytes => hends.enough fun _ _ _ _ => Vm.runOn_enough⟩

/-! #### A runtime with constants and nothing else -/

def bareHost : Host Unit where
  same _ _ := false
  constant c := pure (.const c)
  errorValue text := pure (.const (.string text))
  exceptionFromError what h := (.const (.string what), h)
  callValue _ _ := pure .nil
  invokeValue _ _ := pure .nil
  getMember _ _ := pure .nil
  callMember _ _ _ := pure .nil
  seqItems _ := pure []
  binary _ _ _ := pure .nil
  thrownValue v := pure v
  exceptionMatches _ id := pure (exceptionClassIsA kExceptionClassId id)
  resolveCatchType _ := pure .nil
  matchCatchType _ _ _ := pure true

def bareEnv : Env where
  namespaceAlias _ := none
  globalMacro _ := false
  expandMacroCall _ f _ n := .ok (f, n)
  operatorIntact _ := true
  coreNamespaceActive := false
  recordPositions := false
  library := false
  formLine _ := 0
  printedForm _ := ""

def bareWorld (F : Type) : Vm.World Unit F := ⟨⟨fun _ => none, fun _ => false, ()⟩, []⟩

/-! #### Two forms: a function that keeps its argument, and a `try` around a loop that throws -/

def Form.call (f : String) (args : List Form) : Form := .list (.name f :: args)

/-- `(def k (fn [x] (fn [] x)))`. -/
def keepForm : Form := .call "def" [.name "k", .call "fn" [.vector [.name "x"], .call "fn" [.vector [], .name "x"]]]

/-- `(loop [c true] (if c (recur false) (throw (g))))`. -/
def loopForm : Form :=
  .call "loop" [.vector [.name "c", .bool true],
    .call "if" [.name "c", .call "recur" [.bool false], .call "throw" [.call "g" []]]]

/-- `((fn [] (g)))`. -/
def handlerForm : Form := .list [.call "fn" [.vector [], .call "g" []]]

/-- `(let [g (k 7)] (try loopForm (catch Exception e handlerForm)))`. -/
def rethrownForm : Form :=
  .call "let" [.vector [.name "g", .call "k" [.int 7]],
    .call "try" [loopForm, .call "catch" [.name "Exception", .name "e", handlerForm]]]

def fnExp (params : List String) (body : Exp) : Exp := .fn true false (.cons params .none .nil body .nil)

def callExp (f : String) (args : Exps) : Exp := .call false (.sym f) args

def keepExp : Exp := .setGlobal "k" (fnExp ["x"] (fnExp [] (.sym "x")))

def loopExp : Exp :=
  .loop (.cons "c" (.lit (.bool true)) .nil)
    (.ite (.sym "c") (.recur (.cons (.lit (.bool false)) .nil)) (.throw (callExp "g" .nil)))

def handlerExp : Exp := .call false (fnExp [] (callExp "g" .nil)) .nil

def rethrownExp : Exp :=
  thunk (.bind "g" (callExp "k" (.cons (.lit (.const (intConst 7))) .nil))
    (.tryCatch loopExp (.cons (.builtin kExceptionClassId) "e" handlerExp .nil)))

section
variable {vis : String → Bool} {top : Bool} {n : Nat}

theorem bareEnv_headIs {s name : String} (h : dispatchName bareEnv (.name s) = .ok (name, false)) :
    HeadIs bareEnv vis (.name s) name false := by
  refine ⟨?_, h⟩
  unfold macroFor macroForHead
  split
  · rfl
  · split
    · rfl
    · simp [bareEnv]

theorem bareEnv_symbol {s : String} (ha : aliasLibraryNamespace bareEnv s = .ok s) (hk : isKeywordName s = false)
    (hs : symbolExp vis s = .sym s) : Elab bareEnv vis top n (.name s) (.sym s) n := hs ▸ .symbol ha hk

theorem bareEnv_fn {params : List Form} {names : List String} {body : Form} {e : Exp}
    (hr : ∀ s : Session, rewriteParams bareEnv none params s = .ok ((params, []), s))
    (hp : Yields (parseParams params) ⟨params, .none⟩) (hf : Yields (fixedNames params) names)
    (h : Elab bareEnv (withNames names vis) false n body e n) :
    Elab bareEnv vis top n (.call "fn" [.vector params, body]) (fnExp names e) n := by
  have hno : names ++ RestSpec.names .none = names := List.append_nil _
  have hparams : Draws n (rewriteParams bareEnv none params) (params, []) n :=
    ⟨{ gensym := n }, _, rfl, rfl, hr _⟩
  refine .fn (bareEnv_headIs rfl) (.unnamed rfl (.single rfl ⟨{}, {}, rfl⟩ (.cons hparams hp hf .nil ?_ .nil)))
  rw [hno]
  exact .one h

theorem bareEnv_call {s : String} {rest : List Form} {es : Exps} (hh : CallHead bareEnv vis (.name s) s false)
    (ho : inlined bareEnv vis s false rest.length = none) (hf : headExp vis s false = some (.sym s))
    (hk : hasKvSuffix rest = false) (h : ElabList bareEnv vis top n rest es n) :
    Elab bareEnv vis top n (.call s rest) (callExp s es) n := by
  have hcall := Elab.call hh ho hf h
  rwa [hk] at hcall

end

theorem keepForm_elab : Elab bareEnv (fun _ => false) true 0 keepForm keepExp 0 := by
  have hx : Elab bareEnv (withNames [] (withNames ["x"] fun _ => false)) false 0 (.name "x") (.sym "x") 0 :=
    bareEnv_symbol rfl rfl rfl
  refine .define (bareEnv_headIs rfl) rfl (bareEnv_fn (fun _ => rfl) ⟨{}, {}, rfl⟩ ⟨{}, {}, rfl⟩ ?_)
  exact bareEnv_fn (fun _ => rfl) ⟨{}, {}, rfl⟩ ⟨{}, {}, rfl⟩ hx

theorem loopForm_elab : Elab bareEnv (withNames ["g"] fun _ => false) false 0 loopForm loopExp 0 := by
  refine .loop (bareEnv_headIs rfl) ⟨{}, {}, rfl⟩ rfl (.cons (.bool true) .nil) (.one ?_)
  have hrecur : Elab bareEnv (withNames ["c"] (withNames ["g"] fun _ => false)) false 0 (.call "recur" [.bool false])
      (.recur (.cons (.lit (.bool false)) .nil)) 0 := .recur (bareEnv_headIs rfl) (.cons (.bool false) .nil)
  exact .ite (bareEnv_headIs rfl) rfl (Nat.le_refl 1) (bareEnv_symbol rfl rfl rfl) hrecur
    (.one (.throw (bareEnv_headIs rfl) (bareEnv_call ⟨bareEnv_headIs rfl, rfl, rfl, rfl⟩ rfl rfl rfl .nil)))

theorem handlerForm_elab :
    Elab bareEnv (withName "e" (withNames ["g"] fun _ => false)) false 0 handlerForm handlerExp 0 := by
  refine .callExp rfl (bareEnv_fn (fun _ => rfl) ⟨{}, {}, rfl⟩ ⟨{}, {}, rfl⟩ ?_) .nil
  exact bareEnv_call ⟨bareEnv_headIs rfl, rfl, rfl, rfl⟩ rfl rfl rfl .nil

theorem rethrownForm_elab : Elab bareEnv (fun _ => false) true 0 rethrownForm rethrownExp 0 := by
  have hk : Elab bareEnv (fun _ => false) false 0 (.call "k" [.int 7])
      (callExp "k" (.cons (.lit (.const (intConst 7))) .nil)) 0 :=
    bareEnv_call ⟨bareEnv_headIs rfl, rfl, rfl, rfl⟩ rfl rfl rfl (.cons (.int 7) .nil)
  have hparts : Yields (splitTry false false [loopForm, .call "catch" [.name "Exception", .name "e", handlerForm]])
      ⟨[loopForm], [⟨some kExceptionClassId, "Exception", "e", [handlerForm]⟩], none⟩ := ⟨{}, {}, rfl⟩
  refine .thunk (bareEnv_headIs rfl) (.inl rfl) ?_
  refine .let (bareEnv_headIs rfl) ⟨{}, {}, rfl⟩ rfl (.cons hk .nil) (.one ?_)
  exact .try (bareEnv_headIs rfl) hparts (.one loopForm_elab) (.cons (.one handlerForm_elab) .nil) .none

theorem exists_of_isOk {ε α : Type} {x : Except ε α} (h : x.isOk = true) : ∃ a, x = .ok a := by
  cases x with
  | error e => cases h
  | ok a => exact ⟨a, rfl⟩

def keepTop : TopLevel := ⟨bareEnv, 20, keepForm⟩

def rethrownTop : TopLevel := ⟨bareEnv, 20, rethrownForm⟩

theorem keepTop_compiled : ∃ m, keepTop.Compiled m := exists_of_isOk (by decide +kernel)

theorem rethrownTop_compiled : ∃ m, rethrownTop.Compiled m := exists_of_isOk (by decide +kernel)

theorem keepTop_standsFor : keepTop.StandsFor keepExp := ⟨0, keepForm_elab⟩

theorem rethrownTop_standsFor : rethrownTop.StandsFor rethrownExp := ⟨0, rethrownForm_elab⟩

/-- The second form throws the 7 that the first form's function kept, and its handler answers it. -/
theorem session_preserved_rethrown : ∃ ms wM, List.Forall₂ TopLevel.Compiled [keepTop, rethrownTop] ms ∧
    ∀ bytes, ∃ n, ∀ room, n ≤ room → Successive (Executes bareHost bytes room) ms (bareWorld FnObject)
      [.ok (.fn 0), .ok (.const (.long 7))] wM := by
  obtain ⟨m₁, hm₁⟩ := keepTop_compiled
  obtain ⟨m₂, hm₂⟩ := rethrownTop_compiled
  have hc : List.Forall₂ TopLevel.Compiled [keepTop, rethrownTop] [m₁, m₂] := .cons hm₁ (.cons hm₂ .nil)
  obtain ⟨es, hes, hrun⟩ := session_preserved (H := bareHost) hc
  obtain rfl := (hes [keepExp, rethrownExp]).mp (.cons keepTop_standsFor (.cons rethrownTop_standsFor .nil))
  have hworld : WorldRel (bareWorld Closure) (bareWorld FnObject) := ⟨rfl, .nil⟩
  obtain ⟨w, w', hkeep, hrethrown⟩ : ∃ w w', Evaluates bareHost keepExp (bareWorld Closure) (.ok (.fn 0)) w ∧
      Evaluates bareHost rethrownExp w (.ok (.const (.long 7))) w' := ⟨_, _, ⟨10, rfl⟩, 30, rfl⟩
  have hsteady : ∀ e ∈ [keepExp, rethrownExp], e.steady false = true := by
    rintro e (_ | ⟨_, _ | ⟨_, ⟨⟩⟩⟩) <;> rfl
  obtain ⟨rs, wM, hrs, -, hexec⟩ := hrun hsteady hworld
    ⟨_, _, _, rfl, hkeep, _, _, _, rfl, hrethrown, rfl, rfl⟩
  obtain _ | ⟨hr₁, _ | ⟨hr₂, hrs⟩⟩ := hrs
  cases hrs
  rename_i r₁ r₂
  cases r₁ <;> cases hr₁
  cases r₂ <;> cases hr₂
  exact ⟨[m₁, m₂], wM, hc, hexec⟩

end ProtoClojure
