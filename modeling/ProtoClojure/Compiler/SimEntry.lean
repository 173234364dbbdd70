import ProtoClojure.Compiler.SimArguments

/-! A body run from its entry: the defaults of its keys, then its turns. -/
namespace ProtoClojure.Simulation
open Recursion
open Meaning (Locals Closure Abrupt Arity Query Eval meaning)
open Vm (Host Thrown truthy)

variable {σ α : Type} {H : Host σ} {env : Env} {X : Ctx} {ρ : Locals} {lo mid hi k q : Nat} {s : St σ}
  {w w' : Vm.World σ Closure} {fin : α → List Value} {r : Except Abrupt α}

/-! ### The code of a body -/

theorem CompilesKeys.le' {T : Tables} {β : Names} : ∀ {keys : Keys} {slot lo hi : Nat} {c : Code},
    CompilesKeys env T β slot lo hi keys c → lo ≤ hi
  | .nil, _, _, _, _, .nil h => h
  | .cons _ _, _, _, _, _, .cons h => CompilesKeys.le' h
  | .consOr _ _ _, _, _, _, _, .consOr h hs => h.le.trans (CompilesKeys.le' hs)

/-- An instruction locals clearing has nothing to do with. -/
def Plain (w : Instr) : Prop := w.op ≠ .callMember ∧ w.op ≠ .pushLocalClear

theorem Plain.of {op : Op} {n : Nat} (h : op ≠ .callMember ∧ op ≠ .pushLocalClear := by decide) :
    Plain ⟨op, n⟩ := h

theorem Fits.isPlain {T : Tables} {L : Option (List Nat)} {u : Instr} (h : Fits T L lo hi u) : Plain u :=
  ⟨h.plain, h.uncleared⟩

theorem keys_every {T : Tables} {β : Names} : ∀ {keys : Keys} {slot lo hi : Nat} {c : Code},
    CompilesKeys env T β slot lo hi keys c → c.Every Plain
  | .nil, _, _, _, _, .nil _ => trivial
  | .cons _ _, _, _, _, _, .cons h => keys_every h
  | .consOr _ _ _, _, _, _, _, .consOr h hs =>
    ⟨⟨Code.every_block (by simp [Plain]), Plain.of, h.every.mono fun _ => Fits.isPlain, Plain.of⟩,
      keys_every hs⟩

theorem placed_clearedCode {m : BytecodeModule} {paramEnd : Nat} {raw : List Instr} :
    Placed (clearedCode env m paramEnd raw) 0 raw := by
  intro i w hw
  rw [Nat.zero_add]
  unfold clearedCode
  split_ifs
  · have hc := clearLastReads_cleared { m with code := raw } m.arity paramEnd
    have hi : i < (clearLastReads { m with code := raw } m.arity paramEnd).code.length := by
      rw [clearLastReads_length]
      exact (List.getElem?_eq_some_iff.mp hw).1
    have hget := (List.forall₂_iff_get.mp hc).2 i (List.getElem?_eq_some_iff.mp hw).1 hi
    refine ⟨_, List.getElem?_eq_getElem hi, ?_⟩
    rw [(List.getElem?_eq_some_iff.mp hw).2.symm]
    exact hget
  · exact ⟨w, hw, .inl rfl⟩

/-! ### Defaults -/

/-- Where the parameters have values: the slots hold them and what the closure captured. -/
structure Bound (X : Ctx) (ρ : Locals) (names : List String) (vals : List Value) (s : St σ)
    (w : Vm.World σ Closure) : Prop where
  laid : Laid X
  agrees : Agrees X.T X.m.code [] ρ 0 s.p s.slots
  world : WorldRel w s.world
  length : vals.length = names.length
  holds : ∀ (i : Nat) v, vals[i]? = some v → Unread X.m.code s.p i → s.slots i = some v
  own : ∀ i < names.length, ¬ X.T.Captures i

section Defaults
variable {names : List String} {vals : List Value}

theorem paramSlots_eq (names : List String) :
    paramSlots names = (names.zip (List.range names.length)).reverse ++ [] := by
  rw [paramSlots, List.zipIdx_eq_zip_range', List.range_eq_range', List.append_nil]

theorem Bound.move {t : St σ} {w₁ : Vm.World σ Closure} (h : Bound X ρ names vals s w)
    (hk : Keeps X lo t.p s t.slots t.caught) (hw : WorldRel w₁ t.world) (hp : s.p ≤ t.p)
    (hl : names.length ≤ lo) : Bound X ρ names vals t w₁ := by
  refine ⟨h.laid, h.agrees.move (hk.slots.weaken le_rfl le_rfl (Nat.zero_le lo)) hp, hw, h.length,
    fun i v hv hun => ?_, h.own⟩
  have hi := (List.getElem?_eq_some_iff.mp hv).1
  rw [h.length] at hi
  rcases hk.slots i (.inl (by omega)) with heq | ⟨r, -, hr, hclear⟩
  · exact heq.trans (h.holds i v hv fun r hr => hp.trans (hun r hr))
  · exact absurd (hun r hclear) (Nat.not_le.mpr hr)

theorem Bound.here {pending : Bool} (h : Bound X ρ names vals s w) (hL : X.L = none)
    (hl : names.length ≤ lo) (k : Nat) :
    Here X (paramSlots names) (Meaning.bindNames names vals ρ) lo s k pending w := by
  have hall : Agrees X.T X.m.code (paramSlots names) (Meaning.bindNames names vals ρ) lo s.p s.slots := by
    rw [paramSlots_eq]
    refine h.agrees.bindAll (by simp) (by simp [h.length]) (Nat.zero_le lo) (fun x hx => ?_) fun b hb hun => ?_
    · have := List.mem_range.mp hx
      omega
    · obtain ⟨i, hi⟩ := List.getElem?_of_mem hb
      rw [List.getElem?_zip_eq_some] at hi
      obtain ⟨h₁, h₂⟩ := hi
      have hlt := (List.getElem?_eq_some_iff.mp h₁).1
      rw [List.getElem?_range (by simpa using hlt), Option.some.injEq] at h₁
      exact h.holds b.1 b.2 (h₁ ▸ h₂) hun
  exact ⟨h.laid, hall, h.world, fun u hu => (by rw [hL] at hu; cases hu), fun hne => absurd hL hne,
    fun hne => absurd hL hne⟩

/-- A parameter is given another value. -/
theorem Bound.store {p slot : Nat} {v : Value} {S : List Value} {l : Nat → Option Value}
    {u : Nat → Option Thrown} {z : Vm.World σ FnObject} (h : Bound X ρ names vals ⟨p, v :: S, l, u, z⟩ w)
    (hs : slot < names.length) :
    Bound X ρ names (vals.set slot v) ⟨p + 1, S, Function.update l slot (some v), u, z⟩ w := by
  have hk : Kept X.T X.m.code p (p + 1) 0 l (Function.update l slot (some v)) :=
    .set l (some v) (Nat.zero_le slot) (h.own slot hs)
  refine ⟨h.laid, h.agrees.move hk (Nat.le_succ p), h.world, by rw [List.length_set, h.length],
    fun i v' hv hun => ?_, h.own⟩
  by_cases hi : i = slot
  · subst hi
    rw [List.getElem?_set_self (by rw [h.length]; exact hs), Option.some.injEq] at hv
    exact hv ▸ Function.update_self ..
  · rw [List.getElem?_set_ne (Ne.symm hi)] at hv
    exact (Function.update_of_ne hi ..).trans (h.holds i v' hv fun r hr => (Nat.le_succ p).trans (hun r hr))

theorem evalDefaults_consOr_bind {slot : Nat} {x : String} {default : Exp} {rest : Keys}
    {f : List Value → Eval σ Abrupt α} :
    (Meaning.evalDefaults H names ρ slot (.consOr x default rest) vals >>= f : Eval σ Abrupt α) =
      Meaning.raising (Meaning.operate H .eq false (vals.getD slot .nil) .nil) >>= fun b =>
        if truthy b then
          Meaning.eval (Meaning.bindNames names vals ρ) default >>= fun v =>
            Meaning.evalDefaults H names ρ (slot + 1) rest (vals.set slot v) >>= f
        else Meaning.evalDefaults H names ρ (slot + 1) rest vals >>= f := by
  refine (Effect.bind_assoc _ _ _).trans (congrArg _ (funext fun b => ?_))
  cases truthy b with
  | true => exact Effect.bind_assoc _ _ _
  | false => rfl

theorem len_default (n slot : Nat) (cd c : Code) :
    n + (Code.seq (.seq (.block [⟨.pushLocal, slot⟩, ⟨.pushNil, 0⟩, ⟨.eq, 0⟩])
      (.skipIf .jumpIfFalse (.seq cd (.ins ⟨.storeLocal, slot⟩)))) c).len = n + 4 + cd.len + 1 + c.len := by
  simp only [Code.block, Code.len]
  omega

/-- The defaults, each tested and taken in its key's slot. -/
theorem Runs.defaultsThen {fixed : Nat} (hL : X.L = none)
    (hread : ∀ r x : Nat, fixed ≤ x → x < names.length → ¬ Clears X.m.code r x) :
    ∀ {keys : Keys} {slot lo k : Nat} {vals : List Value} {f : List Value → Eval σ Abrupt α} {c : Code}
      {s : St σ} {w : Vm.World σ Closure},
    ((Meaning.evalDefaults H names ρ slot keys vals >>= f) w).Returns (Simulated H) (r, w') →
    CompilesKeys env X.T (paramSlots names) slot lo mid keys c → Code.At X.m.code s.p k c →
    Bound X ρ names vals s w → keys.steady = true → names.length ≤ lo → fixed ≤ slot →
    slot + keys.names.length ≤ names.length → s.p + c.len ≤ q →
    (∀ vals₁ w₁ l cc wM, (f vals₁ w₁).Returns (Simulated H) (r, w') →
      Bound X ρ names vals₁ ⟨s.p + c.len, s.stack, l, cc, wM⟩ w₁ →
      Runs H X 0 s.stack ⟨s.p + c.len, s.stack, l, cc, wM⟩ q fin r w') →
    Runs H X 0 s.stack s q fin r w'
  | .nil, _, _, _, vals, _, _, s, w, h, .nil _, _, hb, _, _, _, _, _, hf =>
    hf vals w s.slots s.caught s.world h hb
  | .cons x rest, _, _, _, _, _, _, _, _, h, .cons hc, ha, hb, hs, hlo, hx, hn, hq, hf =>
    Runs.defaultsThen hL hread (show ((Meaning.evalDefaults H names ρ _ rest _ >>= _) _).Returns _ _ from h)
      hc ha hb hs hlo (Nat.le_succ_of_le hx)
      (by simp only [Keys.names, List.length_cons] at hn; omega) hq hf
  | .consOr x default rest, slot, lo, k, vals, f, _, s, w, h, .consOr hd hc, ha, hb, hs, hlo, hx, hn, hq, hf => by
    rename_i _ cd c
    rw [evalDefaults_consOr_bind] at h
    obtain ⟨hsd, hsr⟩ := Bool.and_eq_true_iff.mp hs
    simp only [Keys.names, List.length_cons] at hn
    have hslot : slot < names.length := by omega
    rw [len_default] at hq hf
    have hblock := ha.seq.1.seq.1.block
    obtain ⟨hjump, hbody⟩ := ha.seq.1.seq.2.skipIf (by simp)
    have hrest := ha.seq.2
    have hval : s.slots slot = some (vals.getD slot .nil) := by
      have hlt : slot < vals.length := by rw [hb.length]; exact hslot
      refine hb.holds slot _ ?_ fun r hr => absurd hr (hread r slot hx hslot)
      rw [List.getD_eq_getElem?_getD, List.getElem?_eq_getElem hlt]
      rfl
    refine .step (leads_pushLocal (hblock.read.resolve_right (hread s.p slot hx hslot)) hval) (Nat.le_succ _)
      (by omega) ?_
    refine .step (leads_pushNil (hblock.tail.instr (by simp))) (Nat.le_succ _) (by omega) ?_
    have htest : ∀ r₁ w₁, (Meaning.raising (Meaning.operate H .eq false (vals.getD slot .nil) .nil) w).Returns
        (Simulated H) (r₁, w₁) → Runs H X lo s.stack
          ⟨s.p + 1 + 1, .nil :: vals.getD slot .nil :: s.stack, s.slots, s.caught, s.world⟩ (s.p + 3)
          (fun b => b :: s.stack) r₁ w₁ := fun r₁ w₁ hr =>
      .asking hr (serves_operate .eq false _ .nil) hb.world
        (asks_operator ⟨"=", rfl⟩ (hblock.tail.tail.instr (by simp)))
    refine Runs.bind (q := s.p + 3) h (Nat.le_succ _) (by omega) (Nat.zero_le lo) le_rfl htest fun b w₁ l cc wM _ hr hk hw => ?_
    have hkeep : Keeps X lo (s.p + 3) s l cc := ⟨hk.slots.weaken (Nat.le_add_right s.p 2) le_rfl le_rfl, hk.caught⟩
    have hb₁ : Bound X ρ names vals ⟨s.p + 3, b :: s.stack, l, cc, wM⟩ w₁ :=
      hb.move hkeep hw (Nat.le_add_right ..) hlo
    have hplace : s.p + (Code.seq (.block [⟨.pushLocal, slot⟩, ⟨.pushNil, 0⟩, ⟨.eq, 0⟩])
        (.skipIf .jumpIfFalse (.seq cd (.ins ⟨.storeLocal, slot⟩)))).len = s.p + 4 + cd.len + 1 := by
      simp only [Code.block, Code.len]
      omega
    rw [hplace] at hrest
    cases ht : truthy b with
    | true =>
      rw [ht, if_pos rfl] at hr
      refine .step (leads_jumpIfFalse hjump ht) (Nat.le_succ _) (by omega) ?_
      have hb₂ := hb₁.move (t := ⟨s.p + 4, s.stack, l, cc, wM⟩) .refl hw (Nat.le_succ _) hlo
      refine Runs.evalUnder hr (hL.symm ▸ hd) hbody.seq.1 (hb₂.here hL hlo _) hsd (by simp; omega)
        List.suffix_rfl (Nat.zero_le lo) le_rfl fun v w₂ l₂ cc₂ wM₂ _ hk₂ hr₂ hh₂ => ?_
      have hb₃ := hb₂.move hk₂ hh₂.world (Nat.le_add_right ..) hlo
      refine .after (leads_storeLocal (hbody.seq.2.ins (by simp)))
        ⟨.set l₂ (some v) (Nat.zero_le slot) (hb.own slot hslot), fun _ _ => rfl⟩ (Nat.le_succ _)
        (by simp; omega) le_rfl ?_
      exact Runs.defaultsThen hL hread hr₂ hc hrest (hb₃.store hslot) hsr (hlo.trans hd.le)
        (Nat.le_succ_of_le hx) (by omega) hq hf
    | false =>
      rw [ht, if_neg (by decide)] at hr
      refine .step (jumps_jumpIfFalse (q := s.p + 4 + cd.len + 1) hjump ht
        (show s.p + 3 + 1 + (cd.len + 1) = s.p + 4 + cd.len + 1 by omega))
        (show s.p + 3 ≤ s.p + 4 + cd.len + 1 by omega) (by omega) ?_
      exact Runs.defaultsThen hL hread hr hc hrest
        (hb₁.move (t := ⟨s.p + 4 + cd.len + 1, s.stack, l, cc, wM⟩) .refl hw (by simp; omega) hlo) hsr
        (hlo.trans hd.le) (Nat.le_succ_of_le hx) (by omega) hq hf

end Defaults

/-! ### From the entry to the return -/

theorem Runs.answers {r : Except Thrown Value} {n : Nat} {base : List Value} (hX : X.handlers = [])
    (hret : X.m.code[q]? = some ⟨.ret, n⟩)
    (h : Runs H X lo base s q (fun v => [v]) (r.mapError .raise) w) :
    ∃ wM, WorldRel w wM ∧ (Vm.vm H).Answers (.frame X.m (X.frame s) s.world) (r, wM) := by
  cases r with
  | ok v =>
    obtain ⟨l, c, wM, hlead, -, hw⟩ := h
    exact ⟨wM, hw, hlead _ (Vm.answers_ret hret rfl)⟩
  | error t =>
    obtain ⟨f, wM, ht, hh, -, -, hw⟩ := h
    exact ⟨wM, hw, ht.answers (hh.trans hX)⟩

/-- What is closed off and what is raised in an expression end alike. -/
theorem returns_closing {R : (q : Query σ) → q.Answer → Prop} {β : Type} {x : Eval σ Abrupt α}
    {g : α → Eval σ Thrown β} {r : Except Thrown β}
    (h : ((Meaning.closing x >>= g) w).Returns R (r, w')) :
    ((x >>= fun a => Meaning.raising (g a)) w).Returns R (r.mapError .raise, w') := by
  rcases Effect.returns_bind.mp h with ⟨a, w₁, ha, hg⟩ | ⟨t, ht, rfl⟩
  · rcases Effect.returns_settle.mp ha with ⟨_, ha, he⟩ | ⟨_, _, -, -, he⟩ <;> cases he
    refine Effect.returns_bind.mpr (.inl ⟨a, w₁, ha, Effect.returns_settle.mpr ?_⟩)
    cases r with
    | ok b => exact .inl ⟨b, hg, rfl⟩
    | error t => exact .inr ⟨t, .raise t, hg, rfl, rfl⟩
  · rcases Effect.returns_settle.mp ht with ⟨_, -, he⟩ | ⟨u, _, hu, hf, he⟩ <;> cases he
    cases u with
    | raise u =>
      cases hf
      exact Effect.returns_bind.mpr (.inr ⟨_, hu, rfl⟩)
    | recur args => cases hf

section Enter
variable {T : Tables} {β : Names} {a : Arity} {m : BytecodeModule} {captures : List (String × CaptureSpec)}
  {caps vals : List Value} {b : Binding}

/-- A new frame's slots hold what the closure captured, under its parameters. -/
theorem Entered.agrees {code : List Instr} {p : Nat} (he : Entered a m caps vals b)
    (hc : captures.map (·.2) = m.captureSpecs)
    (hp : ∀ p ∈ captures, T.slotOf β p.1 = some p.2.parentSlot)
    (hn : (captures.map (·.2.localSlot)).Nodup) (hcap : Captured T β ρ m.captureSpecs caps)
    (hρ : ∀ x, T.sees β x = (ρ.lookup x).isSome) :
    Agrees (m.tables captures (T.sees β)) code [] ρ 0 p b.slots := by
  refine ⟨hρ, fun x s hs => (by cases hs), fun x s hs => ?_⟩
  obtain ⟨spec, hspec, rfl⟩ := Option.map_eq_some_iff.mp (show (captures.lookup x).map (·.localSlot) = some s from hs)
  obtain ⟨front, back, hmem, -⟩ := List.lookup_eq_some_iff.mp hspec
  have hmem : (x, spec) ∈ captures := hmem ▸ List.mem_append_right _ (List.mem_cons_self ..)
  obtain ⟨i, hi⟩ := List.getElem?_of_mem (hc ▸ List.mem_map_of_mem (f := (·.2)) hmem : spec ∈ m.captureSpecs)
  have hlt : i < caps.length := hcap.1 ▸ (List.getElem?_eq_some_iff.mp hi).1
  refine ⟨caps[i], hcap.2 (spec, caps[i]) ?_ x (hp _ hmem), fun _ => ?_⟩
  · exact List.mem_of_getElem? (List.getElem?_zip_eq_some.mpr ⟨hi, List.getElem?_eq_getElem hlt⟩)
  · have hnodup : (m.captureSpecs.map (·.localSlot)).Nodup := by
      rw [← hc, List.map_map]
      exact hn
    rw [he.slots]
    refine setSlots_mem hnodup (spec.localSlot, caps[i]) ?_
    refine List.mem_of_getElem? (i := i) (List.getElem?_zip_eq_some.mpr ⟨?_, List.getElem?_eq_getElem hlt⟩)
    rw [List.getElem?_map, hi]
    rfl

/-- The code of a body where it lies, and what locals clearing did to it. -/
theorem body_placed {n mid hi : Nat} {L : Option (List Nat)} {names : List String} {keys : Keys} {body : Exp}
    {k cp cb : Code} {T' : Tables} (he : Mark k) (hT : T'.captures.map (·.2) = m.captureSpecs)
    (hk : CompilesKeys env T' (paramSlots names) n names.length mid keys cp)
    (hb : Compiles env T' (paramSlots names) L mid hi body cb)
    (hcode : m.code = clearedCode env m names.length ((bodyCode k cp cb).flatten 0)) :
    Code.At m.code 0 0 (bodyCode k cp cb) ∧ ClearSafe T' m.code ∧
      ∀ r x : Nat, m.arity ≤ x → x < names.length → ¬ Clears m.code r x := by
  have hentry : k.Every (Fits T' none 0 0) := he.every
  have hevery : (bodyCode k cp cb).Every Plain :=
    ⟨hentry.mono fun _ => Fits.isPlain, keys_every hk, hb.every.mono fun _ => Fits.isPlain, Plain.of⟩
  obtain ⟨hsafe, hparams⟩ : ClearSafe T' m.code ∧ ∀ r s, Clears m.code r s → ¬ (m.arity ≤ s ∧ s < names.length) := by
    rw [hcode]
    exact clearSafe_clearedCode hevery (fun _ hw => hw) hT
  refine ⟨?_, hsafe, fun r x h₁ h₂ hr => hparams r x hr ⟨h₁, h₂⟩⟩
  unfold Code.At
  rw [hcode]
  exact placed_clearedCode

end Enter

end ProtoClojure.Simulation
