import ProtoClojure.Compiler.SimEntry

/-! A call of a function object does what the call of its closure means. -/
namespace ProtoClojure.Simulation
open Recursion
open Meaning (Locals Closure Abrupt Arity Query Eval meaning toList)
open Vm (Host Thrown Site)

variable {σ : Type} {H : Host σ} {env : Env} {X : Ctx} {ρ : Locals} {w w' : Vm.World σ Closure}
  {wM : Vm.World σ FnObject} {a : Arity} {m : BytecodeModule} {caps args : List Value}

/-! ### Bodies -/

/-- The module and the captured values of an arity of a closure made in `ρ`. -/
structure BodyRel (ρ : Locals) (a : Arity) (m : BytecodeModule) (caps : List Value) : Prop where
  compiled : ∃ env T β, CompilesArities env T β (.cons a.fixed a.rest a.keys a.body .nil) [m] ∧
    (∀ x, T.sees β x = (ρ.lookup x).isSome) ∧ Captured T β ρ m.captureSpecs caps
  steady : (Arities.cons a.fixed a.rest a.keys a.body .nil).steady = true

theorem range_parts {fixed n : Nat} (h : fixed ≤ n) :
    List.range fixed ++ (List.range (n - fixed)).map (fixed + ·) = List.range n := by
  rw [← List.range_add, Nat.add_sub_cancel' h]

theorem fixed_le_params (a : Arity) : a.fixed.length ≤ a.params.length := by
  unfold Arity.params paramNames
  split <;> simp

/-- The turns of a body start where its parameters have values. -/
theorem Bound.turn {s : St σ} {vals : List Value} (h : Bound X ρ a.params vals s w)
    (hread : ∀ r x : Nat, a.fixed.length ≤ x → x < a.params.length → ¬ Clears X.m.code r x) :
    Turn { X with L := some (List.range a.fixed.length), head := s.p, floor := s.stack } [] ρ 0
      (List.range a.fixed.length) ((List.range (a.params.length - a.fixed.length)).map (a.fixed.length + ·))
      a.params vals s w := by
  have hrange := range_parts (fixed_le_params a)
  refine ⟨⟨h.laid.consts, h.laid.blocks, h.laid.groups, h.laid.handlers, h.laid.safe⟩, rfl, rfl, rfl, h.agrees,
    h.world, ?_, ?_, ?_, fun x hx => ⟨Nat.zero_le x, ?_⟩, fun x hx r => ?_, fun p hp hun => ?_⟩
  · rw [hrange, List.length_range]
  · rw [hrange, List.length_range, h.length]
  · rw [hrange]
    exact List.nodup_range
  · rw [hrange] at hx
    exact h.own x (List.mem_range.mp hx)
  · obtain ⟨i, hi, rfl⟩ := List.mem_map.mp hx
    have := List.mem_range.mp hi
    exact hread r _ (Nat.le_add_right ..) (by omega)
  · rw [hrange] at hp
    obtain ⟨i, hi⟩ := List.getElem?_of_mem hp
    obtain ⟨h₁, h₂⟩ := List.getElem?_zip_eq_some.mp hi
    have hlt := (List.getElem?_eq_some_iff.mp h₁).1
    rw [List.getElem?_range (by simpa using hlt), Option.some.injEq] at h₁
    exact h.holds p.1 p.2 (h₁ ▸ h₂) hun

theorem keys_le_params (h : a.rest.isKwBased = true ∨ a.keys.names = []) :
    a.fixed.length + a.keys.names.length ≤ a.params.length := by
  rcases h with h | h
  · unfold Arity.params paramNames
    cases hr : a.rest with
    | kwBased asName =>
      simp
    | _ =>
      rw [hr] at h
      cases h
  · rw [h]
    exact fixed_le_params a

/-- A body entered with the values of its parameters. -/
theorem enter_sim {b : Binding} {vals : List Value} {r : Except Thrown Value}
    (hb : BodyRel ρ a m caps) (he : Entered a m caps vals b) (hw : WorldRel w wM)
    (h : (Meaning.enter H a vals ρ w).Returns (Simulated H) (r, w')) :
    ∃ wM', WorldRel w' wM' ∧ (Vm.execute H b wM).Returns (Vm.vm H).Answers (r, wM') := by
  obtain ⟨⟨env, T, β, hc, hρ, hcap⟩, hst⟩ := hb
  cases hc with
  | cons hh hmark hc hp hn hs hk hbody hl hcode ht hnil =>
  rename_i captures mid hi k cp cb
  obtain ⟨⟨⟨hkeyed, hskeys⟩, hsbody⟩, -⟩ := by simpa only [Arities.steady, Bool.and_eq_true] using hst
  have hkeyed : a.rest.isKwBased = true ∨ a.keys.names = [] := by simpa using hkeyed
  obtain ⟨hat, hsafe, hread⟩ := body_placed hmark hc hk hbody hcode
  rw [hh.arity] at hread
  have hmid := CompilesKeys.le' hk
  let X : Ctx := ⟨m, m.tables captures (T.sees β), none, 0, [], []⟩
  have hlaid : Laid X := by
    refine ⟨rfl, rfl, rfl, fun i n hi => ?_, hsafe⟩
    show m.hasHandlers = true
    rw [ht, List.any_eq_true]
    exact ⟨_, List.mem_of_getElem? hi, by simp [Instr.isTryBegin]⟩
  have hparam : ∀ i < a.params.length, i ∉ m.captureSpecs.map (·.localSlot) := by
    intro i hi hmem
    rw [← hc, List.map_map] at hmem
    obtain ⟨p, hp, rfl⟩ := List.mem_map.mp hmem
    exact absurd (hs p hp).1 (Nat.not_le.mpr hi)
  have hbound : Bound X ρ a.params vals ⟨k.len, [], b.slots, fun _ => none, wM⟩ w := by
    refine ⟨hlaid, he.agrees hc hp hn hcap hρ, hw, he.length, fun i v hv _ => ?_, fun i hi hcap' => ?_⟩
    · show b.slots i = some v
      rw [he.slots, setSlots_of_not_mem (hparam i ?_), hv]
      rw [← he.length]
      exact (List.getElem?_eq_some_iff.mp hv).1
    · obtain ⟨p, hp, rfl⟩ := hcap'
      exact absurd (hs p hp).1 (Nat.not_le.mpr hi)
  have hpro := hat.seq.2.seq.1
  have hloop := hat.seq.2.seq.2.seq.1.loop
  have hret := hat.seq.2.seq.2.seq.2.ins (by simp)
  rw [Nat.zero_add] at hpro hloop hret
  have hrun : Runs H X 0 [] ⟨0, [], b.slots, fun _ => none, wM⟩ (k.len + cp.len + cb.len) (fun v => [v])
      (r.mapError .raise) w' := by
    have hmarked := leads_mark (H := H) (X := X) (S := []) (l := b.slots) (u := fun _ => none) (z := wM) hmark hat.seq.1
    rw [Nat.zero_add] at hmarked
    refine .step hmarked (Nat.zero_le _) (by omega) ?_
    refine Runs.defaultsThen (s := ⟨k.len, [], b.slots, fun _ => none, wM⟩) rfl hread (returns_closing h) hk hpro
      hbound hskeys le_rfl le_rfl (keys_le_params hkeyed) (by simp) fun vals₁ w₁ l cc wM₁ hr hb₁ => ?_
    have hnames : Compiles env X.T ((a.params.zip (List.range a.fixed.length ++
        (List.range (a.params.length - a.fixed.length)).map (a.fixed.length + ·))).reverse ++ [])
        (some (List.range a.fixed.length)) mid hi a.body cb := by
      rw [range_parts (fixed_le_params a), ← paramSlots_eq]
      exact hbody
    have hbelow : ∀ x ∈ List.range a.fixed.length ++
        (List.range (a.params.length - a.fixed.length)).map (a.fixed.length + ·), x < mid := by
      intro x hx
      rw [range_parts (fixed_le_params a), List.mem_range] at hx
      exact hx.trans_le hmid
    have hturns : ∀ {u : Except Thrown Value},
        (Meaning.turns a.params vals₁ ρ a.body w₁).Returns (Simulated H) (u, w') →
        Runs H X 0 [] ⟨k.len + cp.len, [], l, cc, wM₁⟩ (k.len + cp.len + cb.len) (fun v => [v])
          (u.mapError .raise) w' := fun hu =>
      (turns_sim hu (hb₁.turn hread) hnames hloop (Nat.zero_le mid) hbelow hsbody).leave
    cases r with
    | ok v => exact hturns (raising_ok hr)
    | error t =>
      obtain ⟨u, hu, ht⟩ := raising_error hr
      cases hu
      exact hturns ht
  obtain ⟨wM', hw', ha⟩ := hrun.answers rfl hret
  refine ⟨wM', hw', ?_⟩
  have hexec : Vm.execute H b = fun z => Comp.ask (Q := Vm.Query σ) (.frame m { slots := b.slots } z) := by
    unfold Vm.execute
    rw [he.same, he.captured]
    exact if_neg fun hne => hne.2 hcap.1
  rw [hexec]
  exact Comp.returns_ask.mpr ha

/-! ### The arity a call takes -/

theorem BodyRel.arity (h : BodyRel ρ a m caps) : ArityRel a m := by
  obtain ⟨⟨env, T, β, hc, -⟩, hst⟩ := h
  obtain ⟨⟨⟨hkeyed, -⟩, -⟩, -⟩ := by simpa only [Arities.steady, Bool.and_eq_true] using hst
  cases hc with
  | cons hh => exact ⟨hh, by simpa using hkeyed⟩

/-- A function object has a body for every arity of its closure. -/
theorem bodies_rel {T : Tables} {β : Names} (hρ : ∀ x, T.sees β x = (ρ.lookup x).isSome) :
    ∀ {arities : Arities} {bodies : List (BytecodeModule × List Value)},
    CompilesArities env T β arities (bodies.map Prod.fst) → arities.steady = true →
    (∀ b ∈ bodies, Captured T β ρ b.1.captureSpecs b.2) →
    List.Forall₂ (fun a b => BodyRel ρ a b.1 b.2) (toList arities) bodies
  | .nil, [], _, _, _ => .nil
  | .cons fixed rest keys body more, (m, caps) :: bodies, .cons hh hk hc hp hn hs hks hb hl hcode ht hm, hst, hcap => by
    simp only [Arities.steady, Bool.and_eq_true] at hst
    obtain ⟨⟨⟨h₁, h₂⟩, h₃⟩, hmore⟩ := hst
    refine .cons ⟨⟨env, T, β, .cons hh hk hc hp hn hs hks hb hl hcode ht .nil, hρ, hcap _ (List.mem_cons_self ..)⟩, ?_⟩
      (bodies_rel hρ hm hmore fun b hb => hcap b (List.mem_cons_of_mem _ hb))
    simp only [Arities.steady, h₁, h₂, h₃, Bool.and_self]

section Related
variable {α β' : Type} {P : α → β' → Prop} {as : List α} {bs : List β'}

theorem find_related {f : α → Bool} {g : β' → Bool} (hfg : ∀ a b, P a b → f a = g b)
    (h : List.Forall₂ P as bs) : Option.Rel P (as.find? f) (bs.find? g) := by
  induction h with
  | nil => exact .none
  | @cons a b as bs hab _ ih =>
    rw [List.find?_cons, List.find?_cons, hfg a b hab]
    cases g b with
    | true => exact .some hab
    | false => exact ih

theorem getElem_related (h : List.Forall₂ P as bs) (i : Nat) : Option.Rel P as[i]? bs[i]? := by
  induction h generalizing i with
  | nil => exact .none
  | cons hab _ ih =>
    cases i with
    | zero => exact .some hab
    | succ i => exact ih i

theorem or_related {a a' : Option α} {b b' : Option β'} (h : Option.Rel P a b) (h' : Option.Rel P a' b') :
    Option.Rel P (a.or a') (b.or b') := by
  cases h with
  | some h => exact .some h
  | none => exact h'

end Related

theorem pick_related {arities : Arities} {bodies : List (BytecodeModule × List Value)} {c : Closure}
    (hc : c.arities = arities)
    (h : List.Forall₂ (fun a b => BodyRel ρ a b.1 b.2) (toList arities) bodies) (argc : Nat) :
    Option.Rel (fun a b => BodyRel ρ a b.1 b.2) (c.pickArity argc) (pickArity bodies argc) := by
  unfold Closure.pickArity pickArity
  rw [hc]
  refine or_related (find_related (fun a b hb => ?_) h)
    (or_related (find_related (fun a b hb => ?_) h) (find_related (fun a b hb => ?_) h)) <;>
  · have hh := hb.arity.header
    simp only [Arity.takesExactly, Arity.takesRest, Arity.takesPairs, hh.isVariadic, hh.isKwBased, hh.arity]

/-! ### Calls of functions -/

/-- Both refuse, or both take an arity and bind. -/
def CallsAlike (ρ : Locals) : Except Refusal (Arity × List Value) → Except Refusal Binding → Prop
  | .error r, .error r' => r = r'
  | .ok p, .ok b => ∃ m caps, BodyRel ρ p.1 m caps ∧ Entered p.1 m caps p.2 b
  | _, _ => False

theorem BodyRel.binds (h : BodyRel ρ a m caps) (args : List Value) :
    CallsAlike ρ ((a.bind args).map (a, ·)) (bindBody m caps args) := by
  have hb : BindsAlike a m caps (a.bind args) (bindBody m caps args) := bindBody_rel h.arity
  cases ha : a.bind args <;> cases hm : bindBody m caps args <;> rw [ha, hm] at hb
  · exact hb
  · exact hb
  · exact hb
  · exact ⟨m, caps, h, hb⟩

/-- What a function object binds of a call from `site`. -/
def siteBinds (site : Site) (f : FnObject) (args : List Value) : Except Refusal Binding :=
  match site with
  | .call => dispatchCall f args
  | .callKw => callKw f args
  | .invoke => invoke f args

theorem callKw_refuses (hk : m.isKwBased = true) (hl : args.length = m.arity + 1) :
    callKw (.single m caps) args = .error (.keywords m.arity args.length) := by
  rw [callKw, if_pos hk, if_pos (.inr (by rw [hl, Nat.add_sub_cancel_left]; decide))]

theorem calls_alike {c : Closure} {f : FnObject} (h : FnRel c f) (site : Site) (args : List Value) :
    CallsAlike c.scope (c.bind site args) (siteBinds site f args) := by
  obtain ⟨env, T, β, bodies, hc, hρ, hst, hcap, hf⟩ := h
  have hbodies := bodies_rel hρ hc hst hcap
  unfold Closure.bind
  cases hm : c.multi with
  | true =>
    rw [hm, if_pos rfl] at hf
    subst hf
    have hsite : siteBinds site (.multi bodies) args = bindArgs (.multi bodies) args := by
      cases site with
      | call => exact dispatchCall_eq (.multi bodies) args
      | callKw => exact dispatchCall_eq (.multi bodies) args
      | invoke => exact invoke_eq (.multi bodies) args
    have hpick := pick_related rfl hbodies args.length
    rw [if_pos rfl, hsite]
    cases hp : c.pickArity args.length <;> cases hp' : pickArity bodies args.length <;> rw [hp, hp'] at hpick <;>
      simp only [bindArgs, hp']
    · rfl
    · cases hpick
    · cases hpick
    · cases hpick with
      | some hb => exact hb.binds args
  | false =>
    rw [hm, if_neg (by decide)] at hf
    obtain ⟨m, caps, rfl, rfl⟩ := hf
    rw [if_neg (by decide)]
    cases hl : toList c.arities with
    | nil =>
      rw [hl] at hbodies
      cases hbodies
    | cons a more =>
      rw [hl] at hbodies
      cases hbodies with
      | cons hb _ =>
      have hh := hb.arity.header
      cases site with
      | call =>
        show CallsAlike c.scope ((a.bind args).map (a, ·)) (dispatchCall (.single m caps) args)
        rw [dispatchCall_eq]
        exact hb.binds args
      | invoke =>
        show CallsAlike c.scope ((a.bind args).map (a, ·)) (invoke (.single m caps) args)
        rw [invoke_eq]
        exact hb.binds args
      | callKw =>
        show CallsAlike c.scope
          (if a.rest.isKwBased ∧ args.length = a.fixed.length + 1 then
            .error (.keywords a.fixed.length args.length)
          else (a.bind args).map (a, ·)) (callKw (.single m caps) args)
        by_cases hone : a.rest.isKwBased ∧ args.length = a.fixed.length + 1
        · rw [if_pos hone, callKw_refuses (hh.isKwBased.trans hone.1) (by rw [hh.arity]; exact hone.2), hh.arity]
          rfl
        · rw [if_neg hone, callKw_eq]
          · exact hb.binds args
          · rintro ⟨_, _, he, hk, hlen⟩
            cases he
            exact hone ⟨hh.isKwBased ▸ hk, hh.arity ▸ hlen⟩

/-- Refused calls are worded alike. -/
def refusedText (site : Site) (f : FnObject) : Refusal → String :=
  match site with
  | .call => Vm.dispatchText
  | .callKw =>
    match f with
    | .single _ _ => Vm.callKwText
    | .multi _ => Vm.dispatchText
  | .invoke => Vm.invokeText

theorem refusedText_eq {c : Closure} {f : FnObject} (h : FnRel c f) (site : Site) :
    c.refusalText site = refusedText site f := by
  obtain ⟨env, T, β, bodies, -, -, -, -, hf⟩ := h
  unfold Closure.refusalText refusedText
  cases hm : c.multi with
  | true =>
    rw [hm, if_pos rfl] at hf
    subst hf
    cases site <;> rfl
  | false =>
    rw [hm, if_neg (by decide)] at hf
    obtain ⟨m, caps, -, rfl⟩ := hf
    cases site <;> rfl

theorem callFn_eq (site : Site) (f : FnObject) (args : List Value) :
    Vm.callFn H site f args = Vm.bound H (refusedText site f) (siteBinds site f args) := by
  cases site <;> cases f <;> rfl

/-- A call of a function object. -/
theorem serves_applyFn {c : Closure} {f : FnObject} (h : FnRel c f) (site : Site) (args : List Value) :
    Serves H (Simulated H) (Meaning.applyFn H site c args) (Vm.callFn H site f args) := by
  intro w wM r w' hw hr
  have hcall := calls_alike h site args
  rw [callFn_eq, ← refusedText_eq h]
  unfold Meaning.applyFn at hr
  cases hc : c.bind site args <;> cases hf : siteBinds site f args <;> rw [hc, hf] at hcall
  · obtain rfl : _ = _ := hcall
    rw [hc] at hr
    exact serves_service _ hw hr
  · exact hcall.elim
  · exact hcall.elim
  · rw [hc] at hr
    obtain ⟨m, caps, hb, he⟩ := hcall
    exact enter_sim hb he hw hr

/-- A call of any value. -/
theorem apply_step {site : Site} {f : Value} {args : List Value} {r : Except Thrown Value}
    (h : (meaning H (.apply site f args w)).Returns (Simulated H) (r, w')) :
    ApplySim H site f args w r w' := by
  intro wM hw
  cases f with
  | fn id =>
    have hf := getElem_related hw.fns id
    rcases Effect.returns_bind.mp h with ⟨_, _, hget, h⟩ | ⟨_, hget, -⟩ <;> cases hget
    cases hc : w.fns[id]? <;> cases hv : wM.fns[id]? <;> rw [hc, hv] at hf
    · simp only [hc] at h
      obtain ⟨wM', hw', hr⟩ := serves_service _ hw h
      refine ⟨wM', hw', Effect.returns_bind.mpr (.inl ⟨wM, wM, rfl, ?_⟩)⟩
      simp only [hv]
      exact hr
    · cases hf
    · cases hf
    · cases hf with
      | some hf =>
      simp only [hc] at h
      obtain ⟨wM', hw', hr⟩ := serves_applyFn hf site args hw h
      refine ⟨wM', hw', Effect.returns_bind.mpr (.inl ⟨wM, wM, rfl, ?_⟩)⟩
      simp only [hv]
      exact hr
  | _ => exact serves_service _ hw h

end ProtoClojure.Simulation
