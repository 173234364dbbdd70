import ProtoClojure.Compiler.SimExpressions

/-! Loops: the bindings, the turns, and what a turn may not touch. -/
namespace ProtoClojure.Simulation
open Recursion
open Meaning (Locals Closure Abrupt Query Eval meaning)
open Vm (Host Thrown)

variable {σ α : Type} {H : Host σ} {env : Env} {X : Ctx} {lo mid hi k q : Nat} {s : St σ}
  {pending : Bool} {w w' : Vm.World σ Closure} {fin : α → List Value} {base : List Value}

/-! ### Bindings -/

theorem evalBinds_cons_bind {ρ : Locals} {x : String} {e : Exp} {rest : Binds}
    {f : List Value → Eval σ Abrupt α} :
    (Meaning.evalBinds ρ (.cons x e rest) >>= f : Eval σ Abrupt α) =
      Meaning.eval ρ e >>= fun v => Meaning.evalBinds ((x, v) :: ρ) rest >>= fun vs => f (v :: vs) := by
  refine (Effect.bind_assoc _ _ _).trans (congrArg _ (funext fun v => ?_))
  exact Effect.bind_assoc _ _ _

theorem len_bound (n slot : Nat) (a b : Code) :
    n + (Code.seq a (.seq (.ins ⟨.storeLocal, slot⟩) b)).len = n + a.len + 1 + b.len := by
  simp only [Code.len]
  omega

theorem Runs.evalBindsThen {r : Except Abrupt α} {under : Nat} : ∀ {bs : Binds}
    {f : List Value → Eval σ Abrupt α} {ρ : Locals} {β : Names} {lo k : Nat} {slots : List Nat} {c : Code}
    {s : St σ} {w : Vm.World σ Closure},
    ((Meaning.evalBinds ρ bs >>= f) w).Returns (Simulated H) (r, w') →
    CompilesBinds env X.T β X.L lo mid bs slots c → Code.At X.m.code s.p k c →
    Here X β ρ lo s k pending w → bs.steady pending = true → s.p + c.len ≤ q →
    base <:+ s.stack → under ≤ lo →
    (∀ vs w₁ l cc wM, bs.returns = true → vs.length = slots.length →
      Keeps X lo (s.p + c.len) s l cc → (f vs w₁).Returns (Simulated H) (r, w') →
      (∀ p ∈ slots.zip vs, Unread X.m.code (s.p + c.len) p.1 → l p.1 = some p.2) →
      WorldRel w₁ wM →
      Runs H X under base ⟨s.p + c.len, s.stack, l, cc, wM⟩ q fin r w') →
    Runs H X under base s q fin r w'
  | .nil, f, ρ, β, lo, k, _, _, s, w, h, .nil hl, _, hh, _, _, _, _, hf =>
    hf [] w s.slots s.caught s.world rfl rfl .refl h (fun _ hp => by cases hp) hh.world
  | .cons x e rest, f, ρ, β, lo, k, _, _, s, w, h, .cons hc hm hcs, ha, hh, hs, hq, hb, hu, hf => by
    rw [evalBinds_cons_bind] at h
    obtain ⟨hs, hrest⟩ := Bool.and_eq_true_iff.mp hs
    simp only [len_bound] at hq hf
    have hlo := hc.le
    refine Runs.evalUnder h hc ha.seq.1 hh hs (by omega) hb hu le_rfl fun v w₁ l cc wM hv hk hr hh₁ => ?_
    have hstore := leads_storeLocal (H := H) (v := v) (S := s.stack) (l := l) (c := cc) (w := wM)
      (ha.seq.2.seq.1.ins (by simp))
    refine .after hstore ⟨.set l (some v) (hu.trans hlo) hm, fun _ _ => rfl⟩ (Nat.le_succ _)
      (by simp; omega) le_rfl ?_
    refine Runs.evalBindsThen hr hcs ha.seq.2.seq.2 (hh₁.bind le_rfl hm hh.floor)
      (steady_then hrest hv) hq hb (by omega) fun vs w₂ l₂ cc₂ wM₂ hvs hn hk₂ hr₂ hholds hw₂ => ?_
    have hk₁ := (hk.trans (t := ⟨_, v :: s.stack, l, cc, wM⟩)
      ⟨.set l (some v) hlo hm, fun _ _ => rfl⟩ (Nat.le_add_right ..) (Nat.le_succ _) le_rfl)
    refine hf (v :: vs) w₂ l₂ cc₂ wM₂ (Bool.and_eq_true_iff.mpr ⟨hv, hvs⟩) (congrArg (· + 1) hn)
      (hk₁.trans (t := ⟨_, s.stack, Function.update l _ (some v), cc, wM⟩) hk₂
        (Nat.le_add_right s.p (_ + 1)) (Nat.le_add_right ..) (by omega)) hr₂ (fun p hp hun => ?_) hw₂
    rcases List.mem_cons.mp hp with rfl | hp
    · rcases hk₂.slots _ (.inl (Nat.lt_succ_self _)) with heq | ⟨i, -, hi, hclear⟩
      · exact heq.trans (Function.update_self ..)
      · exact absurd (hun i hclear) (Nat.not_le.mpr hi)
    · exact hholds p hp hun

/-! ### Turns -/

section Turn
variable {β : Names} {ρ : Locals} {slots rest : List Nat} {names : List String} {vals : List Value}
  {body : Exp} {c : Code}

theorem Turn.here (h : Turn X β ρ lo slots rest names vals s w) (hl : lo ≤ mid)
    (hs : ∀ x ∈ slots ++ rest, x < mid) :
    Here X ((names.zip (slots ++ rest)).reverse ++ β) (Meaning.bindNames names vals ρ) mid s 0 false w := by
  refine ⟨h.laid, h.agrees.bindAll h.namesLength h.valsLength hl hs h.holds, h.world, fun u hu => ?_,
    fun _ => h.head, fun _ _ => h.floor.symm⟩
  rw [h.loop, Option.some.injEq] at hu
  exact hu ▸ (List.nodup_append.mp h.nodup).1

/-- A loop's code never empties a slot of a binding around it: that could happen in one turn
and not again in the next. -/
theorem not_clears_in_loop {j x r : Nat} (hsafe : ClearSafe X.T X.m.code)
    (hc : c.Every (Fits X.T (some slots) mid hi)) (ha : Code.At X.m.code s.p 0 c)
    (hj : X.m.code[j]? = some ⟨.jumpBack, j + 1 - s.p⟩) (hsj : s.p ≤ j) (hjc : j < s.p + c.len)
    (hx : x < mid ∨ X.T.Captures x) (hxs : x ∉ slots) (hr : s.p ≤ r) (hrj : r < j) :
    ¬ Clears X.m.code r x := by
  intro hclear
  obtain ⟨i, hji, hij, hi⟩ := hsafe.rebound r x j _ hclear hj (by omega) (by omega) hrj.le
  obtain ⟨n, rfl⟩ := Nat.exists_eq_add_of_le (show s.p ≤ i by omega)
  have hn : n < (c.flatten 0).length := by
    rw [Code.flatten_length]
    omega
  obtain ⟨u, hu, hto⟩ := ha n _ (List.getElem?_eq_getElem hn)
  rw [hi, Option.some.injEq] at hu
  subst hu
  rcases hto with heq | ⟨-, heq⟩
  · rcases hc.of_mem (List.getElem_mem hn) with hfit | hshape
    · rcases hfit.stores (by rw [← heq]) with ⟨h₁, -, h₃⟩ | ⟨_, hL, hmem⟩
      · rw [← heq] at h₁ h₃
        rcases hx with hlt | hcap
        · exact absurd h₁ (Nat.not_le.mpr hlt)
        · exact h₃ hcap
      · cases hL
        rw [← heq] at hmem
        exact hxs hmem
    · rw [← heq] at hshape
      simp [Code.shapeOps] at hshape
  · cases heq

/-- After a `recur` the next turn starts. -/
theorem Turn.again {args : List Value} {l : Nat → Option Value} {u : Nat → Option Thrown}
    {z : Vm.World σ FnObject} {w₁ : Vm.World σ Closure} (h : Turn X β ρ lo slots rest names vals s w)
    (hc : Compiles env X.T ((names.zip (slots ++ rest)).reverse ++ β) X.L mid hi body c)
    (ha : Code.At X.m.code s.p 0 c) (hl : lo ≤ mid) (hs : ∀ x ∈ slots ++ rest, x < mid)
    (hreb : Rebound X mid (s.p + c.len) s args slots l u) (hw : WorldRel w₁ z) :
    Turn X β ρ lo slots rest names (args ++ vals.drop args.length) ⟨X.head, X.floor, l, u, z⟩ w₁ ∧
      Keeps X lo X.head s l u := by
  obtain ⟨j, hj, -, hsj, hjc, hkept⟩ := hreb.kept
  have hsame : ∀ x, (x < mid ∨ X.T.Captures x) → x ∉ slots → l x = s.slots x := by
    intro x hx hxs
    rcases hkept x hx hxs with heq | ⟨r, hr, hrj, hclear⟩
    · exact heq
    · rw [h.head] at hj
      exact absurd hclear (not_clears_in_loop h.laid.safe (h.loop ▸ hc.every) ha hj hsj hjc hx hxs hr hrj)
  have hout : ∀ x, (x < lo ∨ X.T.Captures x) → l x = s.slots x := by
    intro x hx
    refine hsame x (hx.imp_left hl.trans_lt') fun hmem => ?_
    obtain ⟨h₁, h₂⟩ := h.own x (List.mem_append_left _ hmem)
    rcases hx with hlt | hcap
    · omega
    · exact h₂ hcap
  refine ⟨⟨h.laid, h.loop, rfl, rfl, ?_, hw, h.namesLength, ?_, h.nodup, h.own, h.kept, ?_⟩,
    ⟨fun x hx => .inl (hout x hx), fun x hx => hreb.caught x (by omega)⟩⟩
  · have hmove := h.agrees.move (q := s.p) (fun x hx => .inl (hout x hx)) le_rfl
    rwa [← h.head] at hmove
  · have h₁ := hreb.length
    have h₂ := h.valsLength
    simp only [List.length_append, List.length_drop] at h₂ ⊢
    omega
  · intro p hp hun
    rw [List.zip_append hreb.length.symm] at hp
    rcases List.mem_append.mp hp with hp | hp
    · exact hreb.rebound p hp
    · have hmem := List.of_mem_zip hp
      have hxs : p.1 ∉ slots := fun hx => (List.nodup_append.mp h.nodup).2.2 _ hx _ hmem.1 rfl
      show l p.1 = some p.2
      rw [hsame p.1 (.inl (hs p.1 (List.mem_append_right _ hmem.1))) hxs]
      refine h.holds p ?_ fun r hr => absurd hr (h.kept p.1 hmem.1 r)
      rw [← List.take_append_drop args.length vals, List.zip_append (by
        rw [List.length_take, h.valsLength, List.length_append, hreb.length]
        omega)]
      exact List.mem_append_right _ hp

end Turn

/-- The turns of a loop or a body do what they mean, where the body does. -/
theorem turns_step {ρ : Locals} {names : List String} {vals : List Value} {body : Exp}
    {r : Except Thrown Value}
    (h : (meaning H (.turns names vals ρ body w)).Returns (Simulated H) (r, w')) :
    TurnsSim H names vals ρ body w r w' := by
  intro env X β lo slots rest mid hi c s ht hc ha hl hs hst
  obtain ⟨⟨r₁, w₁⟩, hx, h⟩ := Comp.returns_bind.mp h
  have hrun := (Comp.returns_ask.mp hx).2 hc ha (ht.here hl hs) hst
  rcases r₁ with (t | args) | v
  · cases h
    exact hrun.weaken hl
  · obtain ⟨_, l, u, z, hL, hlead, hreb, hw⟩ := hrun
    rw [ht.loop, Option.some.injEq] at hL
    subst hL
    obtain ⟨hagain, hkeep⟩ := ht.again hc ha hl hs hreb hw
    have hnext := (Comp.returns_ask.mp h).2 hagain hc (ht.head.symm ▸ ha) hl hs hst
    have hrun := hnext.after hlead hkeep ht.head.ge (Nat.le_add_right ..) le_rfl
    simp only [ht.head, ht.floor] at hrun
    exact hrun
  · cases h
    exact hrun.weaken hl

section Loop
variable {β : Names} {ρ : Locals} {slots : List Nat} {bs : Binds} {body : Exp} {cs cb : Code}
  {r : Except Abrupt Value}

theorem sim_loop (hh : Here X β ρ lo s k pending w)
    (h₁ : CompilesBinds env X.T β X.L lo mid bs slots cs)
    (h₂ : Compiles env X.T ((bs.names.zip slots).reverse ++ β) (some slots) mid hi body cb)
    (ha : Code.At X.m.code s.p k (.seq cs (.loop cb))) (hs : (Exp.loop bs body).steady pending = true)
    (h : (Meaning.evalExp H ρ (.loop bs body) w).Returns (Simulated H) (r, w')) :
    Runs H X lo s.stack s (s.p + (cs.len + cb.len)) (fun v => v :: s.stack) r w' := by
  obtain ⟨hsb, hsbody⟩ := Bool.and_eq_true_iff.mp hs
  refine Runs.evalBindsThen h h₁ ha.seq.1 hh hsb (by omega) List.suffix_rfl le_rfl
    fun vs w₁ l u z hret hlen hk hr hholds hw => ?_
  have hturn : Turn { X with L := some slots, head := s.p + cs.len, floor := s.stack } β ρ lo slots []
      bs.names vs ⟨s.p + cs.len, s.stack, l, u, z⟩ w₁ := by
    refine ⟨⟨hh.laid.consts, hh.laid.blocks, hh.laid.groups, hh.laid.handlers, hh.laid.safe⟩, rfl, rfl, rfl,
      hh.agrees.move hk.slots (Nat.le_add_right ..), hw, ?_, ?_, ?_, ?_, ?_, ?_⟩
    · simpa using h₁.length
    · simpa using hlen
    · simpa using h₁.nodup
    · intro x hx
      obtain ⟨h₁, -, h₃⟩ := h₁.slots x (by simpa using hx)
      exact ⟨h₁, h₃⟩
    · intro x hx
      cases hx
    · simpa using hholds
  have hbody : Compiles env X.T ((bs.names.zip (slots ++ [])).reverse ++ β) (some slots) mid hi body cb := by
    simpa using h₂
  have hbelow : ∀ x ∈ slots ++ [], x < mid := fun x hx => (h₁.slots x (by simpa using hx)).2.1
  have hrun : ∀ {u : Except Thrown Value}, (Meaning.turns bs.names vs ρ body w₁).Returns (Simulated H) (u, w') →
      Runs H X lo s.stack ⟨s.p + cs.len, s.stack, l, _, z⟩ (s.p + cs.len + cb.len)
        (fun v => v :: s.stack) (u.mapError .raise) w' := fun ht =>
    (turns_sim ht hturn hbody ha.seq.2.loop h₁.le hbelow (steady_then hsbody hret)).leave
  rcases r with t | v
  · obtain ⟨t, rfl, ht⟩ := raising_error hr
    exact (hrun ht).cast (by omega)
  · exact (hrun (raising_ok hr)).cast (by omega)

end Loop

end ProtoClojure.Simulation
