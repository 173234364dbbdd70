import ProtoClojure.Compiler.SimHandlers

/-! A function object is made with the values its code captures. -/
namespace ProtoClojure.Simulation
open Recursion
open Meaning (Locals Closure Abrupt Query Eval meaning)
open Vm (Host Thrown)

variable {σ : Type} {H : Host σ} {env : Env} {X : Ctx} {β : Names} {ρ : Locals} {lo hi k : Nat}
  {s : St σ} {pending : Bool} {w w' : Vm.World σ Closure} {r : Except Abrupt Value}

theorem leads_captures (hs : ClearSafe X.T X.m.code) {c : Nat → Option Thrown} {z : Vm.World σ FnObject} :
    ∀ {specs : List CaptureSpec} {p : Nat} {S : List Value} {l : Nat → Option Value},
    Placed X.m.code p (specs.map fun c => ⟨.pushLocal, c.parentSlot⟩) →
    (∀ c ∈ specs, ∃ x, X.T.slotOf β x = some c.parentSlot) → Agrees X.T X.m.code β ρ lo p l →
    ∃ vals l', Captured X.T β ρ specs vals ∧
      X.Leads H ⟨p, S, l, c, z⟩ ⟨p + specs.length, vals.reverse ++ S, l', c, z⟩ ∧
      Kept X.T X.m.code p (p + specs.length) lo l l'
  | [], p, S, l, _, _, _ => ⟨[], l, ⟨rfl, fun _ hp => by cases hp⟩, Vm.Leads.refl _ _, .refl l⟩
  | spec :: specs, p, S, l, hp, hn, ha => by
    obtain ⟨x, hx⟩ := hn spec (List.mem_cons_self ..)
    obtain ⟨v, hv, hl⟩ := ha.holds x _ hx
    obtain ⟨l₁, hlead, hk⟩ := leads_read (H := H) (S := S) (c := c) (w := z) hs hp hl
    obtain ⟨vals, l', hvals, hleads, hk'⟩ := leads_captures hs (S := v :: S) hp.tail
      (fun c hc => hn c (List.mem_cons_of_mem _ hc)) (ha.move (hk lo) (Nat.le_succ p))
    have hlen : p + 1 + specs.length = p + (spec :: specs).length := by simp; omega
    rw [hlen] at hleads hk'
    refine ⟨v :: vals, l', ⟨congrArg (· + 1) hvals.1, fun q hq y hy => ?_⟩, ?_,
      (hk lo).trans hk' (Nat.le_succ p) (by simp) le_rfl⟩
    · rcases List.mem_cons.mp hq with rfl | hq
      · obtain ⟨v', hv', hl'⟩ := ha.holds y _ hy
        have heq : v' = v := by
          have h₁ := hl (unread hs hp)
          rw [hl' (unread hs hp)] at h₁
          exact Option.some.inj h₁
        exact heq ▸ hv'
      · exact hvals.2 q hq y hy
    · have hstack : (v :: vals).reverse ++ S = vals.reverse ++ (v :: S) := by simp
      rw [hstack]
      exact hlead.trans hleads

/-- The captures of every arity are those of names around. -/
theorem captures_named {T : Tables} : ∀ {arities : Arities} {ms : List BytecodeModule},
    CompilesArities env T β arities ms → ∀ m ∈ ms, ∀ c ∈ m.captureSpecs, ∃ x, T.slotOf β x = some c.parentSlot
  | .nil, _, .nil => fun m hm => by cases hm
  | .cons _ _ _ _ _, _, .cons _ _ hc hp _ _ _ _ _ _ _ hms => by
    intro m hm c hmem
    rcases List.mem_cons.mp hm with rfl | hm
    · rw [← hc] at hmem
      obtain ⟨p, hp', rfl⟩ := List.mem_map.mp hmem
      exact ⟨p.1, hp p hp'⟩
    · exact captures_named hms m hm c hmem

theorem slices_captured {T : Tables} : ∀ {ms : List BytecodeModule} {vals : List Value},
    Captured T β ρ (ms.flatMap (·.captureSpecs)) vals →
    (Vm.slices ms vals).map Prod.fst = ms ∧
      ∀ b ∈ Vm.slices ms vals, Captured T β ρ b.1.captureSpecs b.2
  | [], _, _ => ⟨rfl, fun b hb => by cases hb⟩
  | m :: ms, vals, ⟨hlen, hp⟩ => by
    have hcount : m.captureCount ≤ vals.length := by
      rw [hlen, List.flatMap_cons, List.length_append]
      exact Nat.le_add_right ..
    have hzip : ((m :: ms).flatMap (·.captureSpecs)).zip vals =
        m.captureSpecs.zip (vals.take m.captureCount) ++
          (ms.flatMap (·.captureSpecs)).zip (vals.drop m.captureCount) := by
      conv_lhs => rw [← List.take_append_drop m.captureCount vals, List.flatMap_cons]
      exact List.zip_append (by rw [List.length_take, Nat.min_eq_left hcount]; rfl)
    rw [hzip] at hp
    have hdrop : Captured T β ρ (ms.flatMap (·.captureSpecs)) (vals.drop m.captureCount) :=
      ⟨by rw [List.length_drop, hlen, List.flatMap_cons, List.length_append]; exact Nat.add_sub_cancel_left ..,
        fun q hq => hp q (List.mem_append_right _ hq)⟩
    obtain ⟨hfst, hrest⟩ := slices_captured hdrop
    refine ⟨congrArg (m :: ·) hfst, fun b hb => ?_⟩
    rcases List.mem_cons.mp hb with rfl | hb
    · exact ⟨by rw [List.length_take, Nat.min_eq_left hcount]; rfl,
        fun q hq => hp q (List.mem_append_left _ hq)⟩
    · exact hrest b hb

theorem mapM_eq_some {α β' : Type} {f : α → Option β'} : ∀ {as : List α} {bs : List β'},
    as.map f = bs.map some → as.mapM f = some bs
  | [], [], _ => rfl
  | a :: as, b :: bs, h => by
    obtain ⟨ha, h⟩ := List.cons.inj h
    rw [List.mapM_cons, ha, mapM_eq_some h]
    rfl

theorem pushes_len (captures : List CaptureSpec) : (Code.pushes captures).len = captures.length := by
  unfold Code.pushes
  induction captures with
  | nil => rfl
  | cons c captures ih =>
    show 1 + _ = _
    rw [ih, List.length_cons, Nat.add_comm]

theorem WorldRel.makes {c : Closure} {f : FnObject} {z : Vm.World σ FnObject} (h : WorldRel w z)
    (hf : FnRel c f) :
    WorldRel { w with fns := w.fns ++ [c] } { z with fns := z.fns ++ [f] } :=
  ⟨h.heap, List.rel_append h.fns (.cons hf .nil)⟩

section Fn
variable (hh : Here X β ρ lo s k pending w) {arities : Arities} {asSpelled : Bool}
include hh

theorem sim_fnSingle {m : BytecodeModule} {b : Nat} (hc : CompilesArities env X.T β arities [m])
    (hb : X.T.blocks[b]? = some m)
    (ha : Code.At X.m.code s.p k (.seq (.pushes m.captureSpecs) (.ins ⟨.makeFn, b⟩)))
    (hs : arities.steady = true)
    (h : (Meaning.evalExp H ρ (.fn asSpelled false arities) w).Returns (Simulated H) (r, w')) :
    Runs H X lo s.stack s (s.p + ((Code.pushes m.captureSpecs).len + 1)) (fun v => v :: s.stack) r w' := by
  obtain ⟨vals, l', hvals, hlead, hk⟩ := leads_captures (H := H) (S := s.stack) (c := s.caught)
    (z := s.world) hh.laid.safe ha.seq.1.block (captures_named hc m (List.mem_singleton_self m)) hh.agrees
  have hmake := ha.seq.2.ins (by simp)
  rw [pushes_len] at hmake
  have hlead' := leads_makeFn (H := H) (S := s.stack) (l := l') (c := s.caught) (w := s.world) hmake
    (hh.laid.blocks ▸ hb) hvals.1
  cases h
  rw [hh.world.fns.length_eq]
  refine ⟨l', s.caught, { s.world with fns := s.world.fns ++ [.single m vals] }, ?_, ?_, hh.world.makes ?_⟩
  · rw [pushes_len]
    exact hlead.trans hlead'
  · exact ⟨hk.weaken le_rfl (by rw [pushes_len]; omega) le_rfl, fun _ _ => rfl⟩
  · refine ⟨env, X.T, β, [(m, vals)], hc, hh.agrees.sees, hs, ?_, m, vals, rfl, rfl⟩
    intro b hb
    obtain rfl := List.mem_singleton.mp hb
    exact hvals

theorem sim_fnMulti {ms : List BytecodeModule} {bs : List Nat} {g : Nat}
    (hc : CompilesArities env X.T β arities ms) (hg : X.T.groups[g]? = some bs)
    (hb : bs.map (X.T.blocks[·]?) = ms.map some)
    (ha : Code.At X.m.code s.p k (.seq (.pushes (ms.flatMap (·.captureSpecs))) (.ins ⟨.makeFnMulti, g⟩)))
    (hs : arities.steady = true)
    (h : (Meaning.evalExp H ρ (.fn asSpelled true arities) w).Returns (Simulated H) (r, w')) :
    Runs H X lo s.stack s (s.p + ((Code.pushes (ms.flatMap (·.captureSpecs))).len + 1))
      (fun v => v :: s.stack) r w' := by
  have hnamed : ∀ c ∈ ms.flatMap (·.captureSpecs), ∃ x, X.T.slotOf β x = some c.parentSlot := by
    intro c hmem
    obtain ⟨m, hm, hmem⟩ := List.mem_flatMap.mp hmem
    exact captures_named hc m hm c hmem
  obtain ⟨vals, l', hvals, hlead, hk⟩ := leads_captures (H := H) (S := s.stack) (c := s.caught)
    (z := s.world) hh.laid.safe ha.seq.1.block hnamed hh.agrees
  have hmake := ha.seq.2.ins (by simp)
  rw [pushes_len] at hmake
  have hblocks : bs.mapM (X.m.blocks[·]?) = some ms := by
    rw [← hh.laid.blocks]
    exact mapM_eq_some hb
  have hcount : vals.length = (ms.map (·.captureCount)).sum := by
    rw [hvals.1, List.length_flatMap]
    rfl
  have hlead' := leads_makeFnMulti (H := H) (S := s.stack) (l := l') (c := s.caught) (w := s.world) hmake
    (hh.laid.groups ▸ hg) hblocks hcount
  obtain ⟨hfst, hslices⟩ := slices_captured hvals
  cases h
  rw [hh.world.fns.length_eq]
  refine ⟨l', s.caught, { s.world with fns := s.world.fns ++ [.multi (Vm.slices ms vals)] }, ?_, ?_,
    hh.world.makes ?_⟩
  · rw [pushes_len]
    exact hlead.trans hlead'
  · exact ⟨hk.weaken le_rfl (by rw [pushes_len]; omega) le_rfl, fun _ _ => rfl⟩
  · exact ⟨env, X.T, β, Vm.slices ms vals, hfst.symm ▸ hc, hh.agrees.sees, hs, hslices, rfl⟩

end Fn

end ProtoClojure.Simulation
