import ProtoClojure.Compiler.Flow
import ProtoClojure.Compiler.Fitting
import ProtoClojure.Compiler.SimEvaluation

/-! The code of every expression has one height and one set of handlers at each place, where no
`recur` that control can reach stands under pending operands. -/
namespace ProtoClojure
open Vm
open Simulation (steady_then)
open BytecodeModule (fallsThrough)

/-- Some labels make the code flow. -/
def Flow (P : BytecodeModule → Prop) (m : BytecodeModule) (L : Option Nat) (p : Nat)
    (hs : List TryHandler) (d : Option Nat) (c : Code) (d' : Option Nat) : Prop :=
  ∃ ds, Flows P m L p hs d c d' ds

/-- The height past the code, where control gets past it. -/
def exit (returns : Bool) (x : Nat) : Option Nat := if returns then some x else none

/-! ### Putting code together -/

section Combine
variable {P : BytecodeModule → Prop} {m : BytecodeModule} {L d' d₁ : Option Nat} {p d x y : Nat}
  {hs : List TryHandler} {a b c : Code} {r r' : Bool} {w : Instr}

namespace Flow

theorem dead : Flow P m L p hs none c none := ⟨_, .dead⟩

theorem nil : Flow P m L p hs (some d) .nil (some d) := ⟨_, .nil⟩

theorem weaken (h : Flow P m L p hs (some d) c (exit r x)) (hn : handlerFloor hs ≤ x) :
    Flow P m L p hs (some d) c (some x) := by
  obtain ⟨ds, h⟩ := h
  cases r with
  | true => exact ⟨ds, h⟩
  | false => exact ⟨ds, .weaken hn h⟩

theorem ins (hu : w.Usable P m) (hp : w.straight = true) (hf : fallsThrough w.op = true)
    (hn : w.takes m + handlerFloor hs ≤ d) (hx : d - w.takes m + w.gives = x) :
    Flow P m L p hs (some d) (.ins w) (some x) := hx ▸ ⟨_, .ins hu hp hf hn⟩

theorem stop (hu : w.Usable P m) (hp : w.straight = true) (hf : fallsThrough w.op = false)
    (hn : w.takes m + handlerFloor hs ≤ d) : Flow P m L p hs (some d) (.ins w) none :=
  ⟨_, .stop hu hp hf hn⟩

theorem seq (ha : Flow P m L p hs (some d) a d₁) (hb : Flow P m L (p + a.len) hs d₁ b d') :
    Flow P m L p hs (some d) (.seq a b) d' := by
  obtain ⟨xs, ha⟩ := ha
  obtain ⟨ys, hb⟩ := hb
  exact ⟨_, .seq ha hb⟩

/-- Code after code that control may not get past. -/
theorem after (ha : Flow P m L p hs (some d) a (exit r x))
    (hb : r = true → Flow P m L (p + a.len) hs (some x) b (exit r' y)) :
    Flow P m L p hs (some d) (.seq a b) (exit (r && r') y) := by
  cases r with
  | true => exact ha.seq (hb rfl)
  | false => exact ha.seq .dead

/-- The same where control gets past the second part, or does not. -/
theorem afterAll (ha : Flow P m L p hs (some d) a (exit r x))
    (hb : r = true → Flow P m L (p + a.len) hs (some x) b (some y)) :
    Flow P m L p hs (some d) (.seq a b) (exit r y) := by
  have h : Flow P m L p hs (some d) (.seq a b) (exit (r && true) y) := after ha hb
  rwa [Bool.and_true] at h

theorem afterNone (ha : Flow P m L p hs (some d) a (exit r x))
    (hb : r = true → Flow P m L (p + a.len) hs (some x) b none) :
    Flow P m L p hs (some d) (.seq a b) none := by
  have h : Flow P m L p hs (some d) (.seq a b) (exit (r && false) 0) := after ha hb
  rwa [Bool.and_false] at h

theorem mark (hk : Mark c) (hn : handlerFloor hs ≤ d) : Flow P m L p hs (some d) c (some d) := by
  cases hk with
  | none => exact nil
  | line n => exact ins trivial rfl rfl (by simpa [Instr.takes] using hn) rfl

end Flow

/-- A run of instructions that each take `t` and leave `g`. -/
theorem flow_block {ws : List Instr} {t g : Nat}
    (h : ∀ w ∈ ws, w.Usable P m ∧ w.straight = true ∧ fallsThrough w.op = true ∧ w.takes m = t ∧ w.gives = g)
    (hn : t * ws.length + handlerFloor hs ≤ d) :
    Flow P m L p hs (some d) (.block ws) (some (d - t * ws.length + g * ws.length)) := by
  induction ws generalizing p d with
  | nil => exact Flow.nil
  | cons w ws ih =>
    obtain ⟨hu, hp, hf, ht, hg⟩ := h w (List.mem_cons_self ..)
    rw [List.length_cons, Nat.mul_succ] at hn
    refine (Flow.ins hu hp hf (by omega) rfl).seq ?_
    have hrest := ih (p := p + (Code.ins w).len) (d := d - w.takes m + w.gives)
      (fun u hu => h u (List.mem_cons_of_mem w hu)) (by omega)
    rw [ht, hg] at hrest ⊢
    rw [List.length_cons, Nat.mul_succ, Nat.mul_succ]
    rwa [show d - t + g - t * ws.length + g * ws.length =
      d - (t * ws.length + t) + (g * ws.length + g) by omega] at hrest

namespace Flow

theorem push (hu : w.Usable P m) (hp : w.straight = true) (hf : fallsThrough w.op = true)
    (ht : w.takes m = 0) (hg : w.gives = 1) (hn : handlerFloor hs ≤ d) :
    Flow P m L p hs (some d) (.ins w) (some (d + 1)) := ins hu hp hf (by omega) (by omega)

theorem skipIf {op : Op} (hop : op = .jumpIfFalse ∨ op = .jumpIfTrue) (hn : handlerFloor hs ≤ x)
    (ha : Flow P m L (p + 1) hs (some x) a (exit r x)) :
    Flow P m L p hs (some (x + 1)) (.skipIf op a) (some x) := by
  obtain ⟨xs, ha⟩ := ha.weaken hn
  exact ⟨_, .skipIf (d := x + 1) hop (by omega) ha⟩

theorem branch (hn : handlerFloor hs ≤ x) (hy : handlerFloor hs ≤ y)
    (ha : Flow P m L (p + 1) hs (some x) a (exit r y))
    (hb : Flow P m L (p + a.len + 2) hs (some x) b (exit r' y)) :
    Flow P m L p hs (some (x + 1)) (.branch a b) (exit (r || r') y) := by
  have hboth : ∀ d', Flow P m L (p + 1) hs (some x) a d' → Flow P m L (p + a.len + 2) hs (some x) b d' →
      Flow P m L p hs (some (x + 1)) (.branch a b) d' := by
    rintro d' ⟨xs, ha⟩ ⟨ys, hb⟩
    exact ⟨_, .branch (d := x + 1) (by omega) ha hb⟩
  cases r with
  | true => exact hboth _ ha (hb.weaken hy)
  | false =>
    cases r' with
    | true => exact hboth _ (ha.weaken hy) hb
    | false => exact hboth _ ha hb

theorem loop (h : Flow P m (some d) p hs (some d) a d') : Flow P m L p hs (some d) (.loop a) d' := by
  obtain ⟨xs, h⟩ := h
  exact ⟨xs, .loop h⟩

/-- A guarded body with code after it, and its handler. -/
theorem protect {t : Nat} {rb : Bool} (hm : m.hasHandlers = true) (hn : handlerFloor hs ≤ d)
    (ht : t = p + a.len + b.len + 3) (hy : handlerFloor hs ≤ y)
    (ha : Flow P m none (p + 1) (⟨t, d⟩ :: hs) (some d) a (exit rb (d + 1)))
    (hb : rb = true → Flow P m none (p + a.len + 2) hs (some (d + 1)) b (exit r y))
    (hh : Flow P m none t hs (some (d + 1)) c (exit r' y)) :
    Flow P m L p hs (some d) (.protect a b c) (exit (rb && r || r') y) := by
  have hall : ∀ d₁ d', (∀ x, d₁ = some x → d ≤ x) →
      Flow P m none (p + 1) (⟨t, d⟩ :: hs) (some d) a d₁ → Flow P m none (p + a.len + 2) hs d₁ b d' →
      Flow P m none t hs (some (d + 1)) c d' → Flow P m L p hs (some d) (.protect a b c) d' := by
    rintro d₁ d' hd ⟨xs, ha⟩ ⟨ys, hb⟩ ⟨zs, hh⟩
    exact ⟨_, .protect hm hn ht ha hd hb hh⟩
  have hle : ∀ x, some (d + 1) = some x → d ≤ x := fun x hx => by cases hx; exact Nat.le_succ d
  cases rb with
  | true =>
    cases r with
    | true => exact hall _ _ hle ha (hb rfl) (hh.weaken hy)
    | false =>
      cases r' with
      | true => exact hall _ _ hle ha ((hb rfl).weaken hy) hh
      | false => exact hall _ _ hle ha (hb rfl) hh
  | false =>
    refine hall none _ (fun x hx => by cases hx) ha ?_ hh
    cases r' with
    | true => exact ⟨_, .weaken hy .dead⟩
    | false => exact dead

theorem protectPlain {t : Nat} {rb : Bool} (hm : m.hasHandlers = true) (hn : handlerFloor hs ≤ d)
    (ht : t = p + a.len + Code.nil.len + 3) (hy : handlerFloor hs ≤ d + 1)
    (ha : Flow P m none (p + 1) (⟨t, d⟩ :: hs) (some d) a (exit rb (d + 1)))
    (hh : Flow P m none t hs (some (d + 1)) c (exit r' (d + 1))) :
    Flow P m L p hs (some d) (.protect a .nil c) (exit (rb || r') (d + 1)) := by
  have h := protect (L := L) (r := true) (b := .nil) hm hn ht hy ha (fun _ => nil) hh
  rwa [Bool.and_true] at h

/-- The handler rethrows. -/
theorem protectAfter {t : Nat} {rb : Bool} (hm : m.hasHandlers = true) (hn : handlerFloor hs ≤ d)
    (ht : t = p + a.len + b.len + 3) (hy : handlerFloor hs ≤ y)
    (ha : Flow P m none (p + 1) (⟨t, d⟩ :: hs) (some d) a (exit rb (d + 1)))
    (hb : rb = true → Flow P m none (p + a.len + 2) hs (some (d + 1)) b (exit r y))
    (hh : Flow P m none t hs (some (d + 1)) c none) :
    Flow P m L p hs (some d) (.protect a b c) (exit (rb && r) y) := by
  have h : Flow P m L p hs (some d) (.protect a b c) (exit (rb && r || false) y) :=
    protect hm hn ht hy ha hb hh
  rwa [Bool.or_false] at h

end Flow

end Combine

/-- The slots of a frame: those of its parameters and of its locals. -/
def BytecodeModule.slotCount (m : BytecodeModule) : Nat := m.arity + m.localCount

namespace Flow
variable {P : BytecodeModule → Prop} {m : BytecodeModule} {L : Option Nat} {p d n : Nat}
  {hs : List TryHandler} (hn : handlerFloor hs ≤ d)
include hn

theorem pop : Flow P m L p hs (some (d + 1)) (.ins ⟨.pop, n⟩) (some d) :=
  .ins trivial rfl rfl (show 1 + _ ≤ _ by omega) rfl

theorem dup : Flow P m L p hs (some (d + 1)) (.ins ⟨.dup, n⟩) (some (d + 1 + 1)) :=
  .ins trivial rfl rfl (show 1 + _ ≤ _ by omega) rfl

theorem store (h : n < m.slotCount) : Flow P m L p hs (some (d + 1)) (.ins ⟨.storeLocal, n⟩) (some d) :=
  .ins h rfl rfl (show 1 + _ ≤ _ by omega) rfl

theorem storeCaught (h : n < m.slotCount) (hm : m.hasHandlers = true) :
    Flow P m L p hs (some (d + 1)) (.ins ⟨.storeCaught, n⟩) (some d) :=
  .ins ⟨h, hm⟩ rfl rfl (show 1 + _ ≤ _ by omega) rfl

theorem call (kw : Bool) :
    Flow P m L p hs (some (d + 1 + n)) (.ins ⟨if kw then .callKw else .call, n⟩) (some (d + 1)) := by
  cases kw <;>
    exact .ins trivial rfl rfl (show n + 1 + _ ≤ _ by omega) (show d + 1 + n - (n + 1) + 1 = _ by omega)

theorem callMember {i : Nat} (h : ∃ s, m.consts[i]? = some (.symbol s)) :
    Flow P m L p hs (some (d + 1 + n)) (.member n i) (some (d + 1)) := by
  obtain ⟨s, hs'⟩ := h
  have hflow : Flow P m L p hs (some (d + 1 + n)) (.member n i) (some (d + 1 + n - n)) :=
    ⟨_, .member hs' (by omega)⟩
  rwa [Nat.add_sub_cancel] at hflow

theorem makeFn {sub : BytecodeModule} (hb : m.blocks[n]? = some sub) (hsub : P sub) :
    Flow P m L p hs (some (d + sub.captureCount)) (.ins ⟨.makeFn, n⟩) (some (d + 1)) := by
  have ht : Instr.takes m ⟨.makeFn, n⟩ = sub.captureCount := by
    simp only [Instr.takes, BytecodeModule.blockCaptures, hb, Option.map_some, Option.getD_some]
  refine .ins ⟨sub, hb, hsub⟩ rfl rfl (by omega) ?_
  rw [ht, Nat.add_sub_cancel]
  rfl

theorem makeFnMulti {bs : List Nat} {subs : List BytecodeModule} (hg : m.arityGroups[n]? = some bs)
    (hb : bs.map (m.blocks[·]?) = subs.map some) (hsubs : ∀ sub ∈ subs, P sub) :
    Flow P m L p hs (some (d + (subs.map (·.captureCount)).sum)) (.ins ⟨.makeFnMulti, n⟩) (some (d + 1)) := by
  have hcaptures : bs.map m.blockCaptures = subs.map (·.captureCount) := by
    have h := congrArg (List.map fun b : Option BytecodeModule => (b.map (·.captureCount)).getD 0) hb
    rw [List.map_map, List.map_map] at h
    exact h
  have ht : Instr.takes m ⟨.makeFnMulti, n⟩ = (subs.map (·.captureCount)).sum := by
    simp only [Instr.takes, BytecodeModule.groupCaptures, hg, Option.getD_some, hcaptures]
  refine .ins ⟨bs, hg, fun i hi => ?_⟩ rfl rfl (by omega) ?_
  · have hmem : m.blocks[i]? ∈ subs.map some := hb ▸ List.mem_map_of_mem hi
    obtain ⟨sub, hsub, heq⟩ := List.mem_map.mp hmem
    exact ⟨sub, heq.symm, hsubs sub hsub⟩
  · rw [ht, Nat.add_sub_cancel]
    rfl

theorem rethrow (h : n < m.slotCount) : Flow P m L p hs (some d) (.ins ⟨.rethrow, n⟩) none :=
  .stop h rfl rfl (show 0 + _ ≤ _ by omega)

end Flow

/-! ### Slots and tables -/

/-- The tables are the module's, and its captures have slots in the frame. -/
structure Grounds (m : BytecodeModule) (T : Tables) : Prop where
  consts : T.consts = m.consts
  blocks : T.blocks = m.blocks
  groups : T.groups = m.arityGroups
  captures : ∀ p ∈ T.captures, p.2.localSlot < m.slotCount

/-- What an expression stands among: the slots of the names, the height where its loop starts, and
the handlers around. -/
structure Stands (m : BytecodeModule) (T : Tables) (β : Names) (L : Option (List Nat)) (start : Option Nat)
    (hs : List TryHandler) (d : Nat) (pending : Bool) : Prop where
  grounds : Grounds m T
  names : ∀ x s, β.lookup x = some s → s < m.slotCount
  slots : ∀ slots, L = some slots → ∀ s ∈ slots, s < m.slotCount
  target : ∀ slots, L = some slots → pending = false → start = some d
  floor : handlerFloor hs ≤ d

namespace Stands
variable {m : BytecodeModule} {T : Tables} {β : Names} {L : Option (List Nat)} {start start' : Option Nat}
  {hs : List TryHandler} {d d' : Nat} {pending : Bool}

theorem slotOf_lt (h : Stands m T β L start hs d pending) {x : String} {s : Nat}
    (hx : T.slotOf β x = some s) : s < m.slotCount := by
  unfold Tables.slotOf at hx
  cases hb : β.lookup x with
  | some s' =>
    rw [hb] at hx
    cases hx
    exact h.names x _ hb
  | none =>
    rw [hb, Option.none_or, Option.map_eq_some_iff] at hx
    obtain ⟨c, hc, rfl⟩ := hx
    obtain ⟨front, back, hcap, -⟩ := List.lookup_eq_some_iff.mp hc
    exact h.grounds.captures (x, c) (hcap ▸ List.mem_append_right _ (List.mem_cons_self ..))

/-- With more on the stack nothing may be rebound. -/
theorem push (h : Stands m T β L start hs d pending) (hd : d ≤ d') :
    Stands m T β L start hs d' true :=
  ⟨h.grounds, h.names, h.slots, fun _ _ hp => (by cases hp), h.floor.trans hd⟩

/-- No `recur` crosses a `try`. -/
theorem closed (h : Stands m T β L start hs d pending) (hd : d ≤ d') (q : Bool) :
    Stands m T β none start' hs d' q :=
  ⟨h.grounds, h.names, fun _ hn => (by cases hn), fun _ hn => (by cases hn), h.floor.trans hd⟩

theorem guarded (h : Stands m T β L start hs d pending) (t : Nat) (q : Bool) :
    Stands m T β none start' (⟨t, d⟩ :: hs) d q :=
  ⟨h.grounds, h.names, fun _ hn => (by cases hn), fun _ hn => (by cases hn), Nat.le_refl d⟩

theorem bind (h : Stands m T β L start hs d pending) {x : String} {s : Nat} (hs' : s < m.slotCount) :
    Stands m T ((x, s) :: β) L start hs d pending := by
  refine ⟨h.grounds, fun y i hi => ?_, h.slots, h.target, h.floor⟩
  rw [List.lookup_cons] at hi
  split at hi
  · cases hi
    exact hs'
  · exact h.names y i hi

theorem bindAll (h : Stands m T β L start hs d pending) {names : List String} {slots : List Nat}
    (hs' : ∀ s ∈ slots, s < m.slotCount) :
    Stands m T ((names.zip slots).reverse ++ β) L start hs d pending := by
  refine ⟨h.grounds, fun y i hi => ?_, h.slots, h.target, h.floor⟩
  rw [List.lookup_append, Option.or_eq_some_iff] at hi
  rcases hi with hi | ⟨-, hi⟩
  · obtain ⟨front, back, hz, -⟩ := List.lookup_eq_some_iff.mp hi
    have hmem : (y, i) ∈ names.zip slots :=
      List.mem_reverse.mp (hz ▸ List.mem_append_right _ (List.mem_cons_self ..))
    exact hs' i (List.of_mem_zip hmem).2
  · exact h.names y i hi

/-- The body of a loop: its slots are rebound where it starts. -/
theorem loop (h : Stands m T β L start hs d pending) {slots : List Nat}
    (hs' : ∀ s ∈ slots, s < m.slotCount) : Stands m T β (some slots) (some d) hs d false :=
  ⟨h.grounds, h.names, fun _ hn => (by cases hn; exact hs'), fun _ _ _ => rfl, h.floor⟩

end Stands

/-! ### Bodies -/

/-- Whether the code sets up a handler. -/
def Code.Tries : Code → Prop
  | .nil | .ins _ | .member _ _ | .recur => False
  | .seq a b | .branch a b => a.Tries ∨ b.Tries
  | .skipIf _ a | .loop a => a.Tries
  | .protect _ _ _ => True

/-- The module of a body in which no `recur` that control can reach stands under pending operands,
nor does one in the functions it makes. -/
inductive SteadyBody (env : Env) (m : BytecodeModule) : Prop
  | body {T β fixed rest keys e}
      (hc : CompilesArities env T β (.cons fixed rest keys e .nil) [m])
      (hs : (Arities.cons fixed rest keys e .nil).steady = true) : SteadyBody env m

section
variable {env : Env}

theorem CompilesArities.steadyBodies {T : Tables} {β : Names} :
    ∀ {arities : Arities} {ms : List BytecodeModule}, CompilesArities env T β arities ms →
      arities.steady = true → ∀ m ∈ ms, SteadyBody env m
  | .nil, _, .nil, _, m, hm => by cases hm
  | .cons .., _, .cons hh he hc hp hn hs hk hb hl hcode ht hrest, hst, m, hm => by
    simp only [Arities.steady, Bool.and_eq_true] at hst
    obtain ⟨⟨⟨h₁, h₂⟩, h₃⟩, h₄⟩ := hst
    rcases List.mem_cons.mp hm with rfl | hm
    · refine ⟨.cons hh he hc hp hn hs hk hb hl hcode ht .nil, ?_⟩
      simp only [Arities.steady, h₁, h₂, h₃, Bool.and_self]
    · exact hrest.steadyBodies h₄ m hm

/-- Every capture is of a slot of the frame around. -/
theorem CompilesArities.captured_lt {m : BytecodeModule} {T : Tables} {β : Names} {L : Option (List Nat)}
    {start : Option Nat} {hs : List TryHandler} {d : Nat} {pending : Bool}
    (hst : Stands m T β L start hs d pending) :
    ∀ {arities : Arities} {ms : List BytecodeModule}, CompilesArities env T β arities ms →
      ∀ c ∈ ms.flatMap (·.captureSpecs), c.parentSlot < m.slotCount
  | .nil, _, .nil, c, hc => by cases hc
  | .cons .., _, .cons _ _ hcap hp _ _ _ _ _ _ _ hrest, c, hc => by
    rw [List.flatMap_cons] at hc
    rcases List.mem_append.mp hc with hc | hc
    · rw [← hcap] at hc
      obtain ⟨p, hmem, rfl⟩ := List.mem_map.mp hc
      exact hst.slotOf_lt (hp p hmem)
    · exact hrest.captured_lt hst c hc

/-! ### Instructions that name a table -/

variable {m : BytecodeModule} {T : Tables} {β : Names} {L : Option (List Nat)} {start : Option Nat}
  {hs : List TryHandler} {d p : Nat} {pending : Bool} {Q : BytecodeModule → Prop}

theorem Grounds.symbol (g : Grounds m T) {i : Nat} {s : String} (h : T.consts[i]? = some (.symbol s)) :
    ∃ s, m.consts[i]? = some (.symbol s) := ⟨s, g.consts ▸ h⟩

theorem flow_pushes (hst : Stands m T β L start hs d pending) {arities : Arities} {ms : List BytecodeModule}
    (h : CompilesArities env T β arities ms) :
    Flow Q m start p hs (some d) (.pushes (ms.flatMap (·.captureSpecs)))
      (some (d + (ms.map (·.captureCount)).sum)) := by
  have hlen : (ms.flatMap (·.captureSpecs)).length = (ms.map (·.captureCount)).sum := List.length_flatMap
  have hfloor := hst.floor
  have hpushes : ∀ w ∈ (ms.flatMap (·.captureSpecs)).map fun c => (⟨.pushLocal, c.parentSlot⟩ : Instr),
      w.Usable Q m ∧ w.straight = true ∧ fallsThrough w.op = true ∧ w.takes m = 0 ∧ w.gives = 1 := by
    intro w hw
    obtain ⟨c, hc, rfl⟩ := List.mem_map.mp hw
    exact ⟨h.captured_lt hst c hc, rfl, rfl, rfl, rfl⟩
  have hroom : 0 * ((ms.flatMap (·.captureSpecs)).map fun c => (⟨.pushLocal, c.parentSlot⟩ : Instr)).length +
      handlerFloor hs ≤ d := by omega
  have hblock := flow_block (L := start) (p := p) hpushes hroom
  rw [List.length_map, hlen, Nat.zero_mul, Nat.one_mul, Nat.sub_zero] at hblock
  exact hblock

/-- The captures of a single arity. -/
theorem flow_captures (hst : Stands m T β L start hs d pending) {arities : Arities} {sub : BytecodeModule}
    (h : CompilesArities env T β arities [sub]) :
    Flow Q m start p hs (some d) (.pushes sub.captureSpecs) (some (d + sub.captureCount)) := by
  have hpush := flow_pushes (Q := Q) (p := p) hst h
  rwa [List.flatMap_singleton, List.map_singleton, List.sum_singleton] at hpush

theorem flow_stores {slots : List Nat} {k : Nat} (hk : slots.length = k)
    (hlt : ∀ s ∈ slots, s < m.slotCount) (hn : handlerFloor hs ≤ d) :
    Flow Q m start p hs (some (d + k)) (.stores slots) (some d) := by
  subst hk
  have hstores : ∀ w ∈ slots.map fun s => (⟨.storeLocal, s⟩ : Instr),
      w.Usable Q m ∧ w.straight = true ∧ fallsThrough w.op = true ∧ w.takes m = 1 ∧ w.gives = 0 := by
    intro w hw
    obtain ⟨s, hmem, rfl⟩ := List.mem_map.mp hw
    exact ⟨hlt s hmem, rfl, rfl, rfl, rfl⟩
  have hroom : 1 * (slots.map fun s => (⟨.storeLocal, s⟩ : Instr)).length + handlerFloor hs ≤
      d + slots.length := by
    rw [List.length_map]
    omega
  have hblock := flow_block (L := start) (p := p) hstores hroom
  rw [List.length_map, Nat.zero_mul, Nat.one_mul, Nat.add_sub_cancel, Nat.add_zero] at hblock
  exact hblock

/-- A test leaves its answer on the stack. -/
theorem CompilesTest.flow (hst : Stands m T β L start hs d pending) {ex : Nat} {test : CatchTest} {c : Code}
    (hx : ex < m.slotCount) (h : CompilesTest T β ex test c) :
    Flow Q m start p hs (some d) c (some (d + 1)) := by
  have hf := hst.floor
  have hpush : ∀ {slot p d}, slot < m.slotCount → handlerFloor hs ≤ d →
      Flow Q m start p hs (some d) (.ins ⟨.pushLocal, slot⟩) (some (d + 1)) := fun h hf =>
    .push h rfl rfl rfl rfl hf
  cases h with
  | builtin id =>
    refine (hpush hx hf).seq (Flow.seq ?_ .nil)
    exact .ins trivial rfl rfl (show 1 + _ ≤ _ by omega) rfl
  | bound hs' hi =>
    refine (hpush hx hf).seq ((hpush (hst.slotOf_lt hs') (by omega)).seq (Flow.seq ?_ .nil))
    exact .ins (hst.grounds.symbol hi) rfl rfl (show 2 + _ ≤ _ by omega) rfl
  | boundMember hs' hj hi =>
    refine (hpush hx hf).seq ((hpush (hst.slotOf_lt hs') (by omega)).seq
      (Flow.seq (.ins (x := d + 1 + 1) (hst.grounds.symbol hj) rfl rfl ?_ rfl) (Flow.seq ?_ .nil)))
    · exact show 1 + _ ≤ _ by omega
    · exact .ins (hst.grounds.symbol hi) rfl rfl (show 2 + _ ≤ _ by omega) rfl
  | resolved hj hi =>
    refine (hpush hx hf).seq
      (Flow.seq (.push (hst.grounds.symbol hj) rfl rfl rfl rfl (by omega)) (Flow.seq ?_ .nil))
    · exact .ins (hst.grounds.symbol hi) rfl rfl (show 2 + _ ≤ _ by omega) rfl

/-! ### Expressions -/

mutual

theorem Compiles.flow {T : Tables} {β : Names} {L : Option (List Nat)} {lo hi : Nat} {e : Exp}
    {c : Code} : Compiles env T β L lo hi e c →
    ∀ {m : BytecodeModule} {start : Option Nat} {p : Nat} {hs : List TryHandler} {d : Nat} {pending : Bool},
      Stands m T β L start hs d pending → hi ≤ m.slotCount → (c.Tries → m.hasHandlers = true) →
      e.steady pending = true →
      Flow (SteadyBody env) m start p hs (some d) c (exit e.returns (d + 1))
  | .mark hk h => fun st hh htry hst =>
    (Flow.mark hk st.floor).seq (h.flow st hh (fun ht => htry (.inr ht)) hst)
  | .nil _ => fun st _ _ _ => .push trivial rfl rfl rfl rfl st.floor
  | .bool b _ => fun st _ _ _ => by cases b <;> exact .push trivial rfl rfl rfl rfl st.floor
  | .const _ hi' => fun st _ _ _ => .push ⟨_, st.grounds.consts ▸ hi'⟩ rfl rfl rfl rfl st.floor
  | .symLocal _ hs => fun st _ _ _ => .push (st.slotOf_lt hs) rfl rfl rfl rfl st.floor
  | .symGlobal _ _ _ hi' | .global _ hi' => fun st _ _ _ =>
    .push (st.grounds.symbol hi') rfl rfl rfl rfl st.floor
  | .member h hi' => fun st hh htry hst => by
    have hf := st.floor
    exact (h.flow st hh (fun ht => htry (.inl ht)) hst).afterAll fun _ =>
      .ins (st.grounds.symbol hi') rfl rfl (show 1 + _ ≤ _ by omega) rfl
  | .ite h₁ h₂ h₃ => fun st hh htry hst => by
    have hf := st.floor
    obtain ⟨hs₁, hs₂₃⟩ := Bool.and_eq_true_iff.mp hst
    refine (h₁.flow st (by have := h₂.le; have := h₃.le; omega) (fun ht => htry (.inl ht)) hs₁).after
      fun hv => ?_
    obtain ⟨hs₂, hs₃⟩ := Bool.and_eq_true_iff.mp (steady_then hs₂₃ hv)
    exact .branch hf (by omega) (h₂.flow st (h₃.le.trans hh) (fun ht => htry (.inr (.inl ht))) hs₂)
      (h₃.flow st hh (fun ht => htry (.inr (.inr ht))) hs₃)
  | .seq h₁ h₂ => fun st hh htry hst => by
    have hf := st.floor
    obtain ⟨hs₁, hs₂⟩ := Bool.and_eq_true_iff.mp hst
    refine (h₁.flow st (h₂.le.trans hh) (fun ht => htry (.inl ht)) hs₁).after fun hv => ?_
    exact (Flow.pop hf).seq (h₂.flow st hh (fun ht => htry (.inr (.inr ht))) (steady_then hs₂ hv))
  | .both h₁ h₂ => fun st hh htry hst => by
    have hf := st.floor
    obtain ⟨hs₁, hs₂⟩ := Bool.and_eq_true_iff.mp hst
    refine (h₁.flow st (h₂.le.trans hh) (fun ht => htry (.inl ht)) hs₁).afterAll fun hv => ?_
    exact (Flow.dup hf).seq (.skipIf (.inl rfl) (by omega) ((Flow.pop hf).seq
      (h₂.flow st hh (fun ht => htry (.inr (.inr (.inr ht)))) (steady_then hs₂ hv))))
  | .either h₁ h₂ => fun st hh htry hst => by
    have hf := st.floor
    obtain ⟨hs₁, hs₂⟩ := Bool.and_eq_true_iff.mp hst
    refine (h₁.flow st (h₂.le.trans hh) (fun ht => htry (.inl ht)) hs₁).afterAll fun hv => ?_
    exact (Flow.dup hf).seq (.skipIf (.inr rfl) (by omega) ((Flow.pop hf).seq
      (h₂.flow st hh (fun ht => htry (.inr (.inr (.inr ht)))) (steady_then hs₂ hv))))
  | .bind h₁ hm h₂ => fun st hh htry hst => by
    have hlt := h₂.le
    obtain ⟨hs₁, hs₂⟩ := Bool.and_eq_true_iff.mp hst
    refine (h₁.flow st (by omega) (fun ht => htry (.inl ht)) hs₁).after fun hv => ?_
    exact (Flow.store st.floor (by omega)).seq
      (h₂.flow (st.bind (by omega)) hh (fun ht => htry (.inr (.inr ht))) (steady_then hs₂ hv))
  | .loop h₁ h₂ => fun st hh htry hst => by
    have hslots := fun s hs => (h₁.slots s hs).2.1.trans_le (h₂.le.trans hh)
    obtain ⟨hs₁, hs₂⟩ := Bool.and_eq_true_iff.mp hst
    refine (h₁.flow st (h₂.le.trans hh) (fun ht => htry (.inl ht)) hs₁).after fun hv => ?_
    exact .loop (h₂.flow ((st.bindAll hslots).loop hslots) hh (fun ht => htry (.inr ht)) (steady_then hs₂ hv))
  | .recur hlen h hk => fun st hh htry hst => by
    have hslots := st.slots _ rfl
    obtain ⟨hs₁, hs₂⟩ := Bool.and_eq_true_iff.mp hst
    refine (h.flow st hh (fun ht => htry (.inl ht)) hs₁).afterNone fun hv => ?_
    have hpending := Bool.not_eq_true' _ |>.mp (steady_then hs₂ hv)
    have hstart := st.target _ rfl hpending
    refine (flow_stores (by rw [List.length_reverse, hlen]) (fun s hs => hslots s (List.mem_reverse.mp hs))
      st.floor).seq ((Flow.mark hk st.floor).seq ?_)
    rw [hstart]
    exact ⟨_, .recur st.floor⟩
  | .tryPlain h => fun st hh htry hst => h.flow (st.closed (Nat.le_refl _) _) hh htry hst
  | .fnSingle _ h hb => fun st hh htry hst => by
    rw [st.grounds.blocks] at hb
    exact (flow_captures st h).seq (.makeFn st.floor hb (h.steadyBodies hst _ (List.mem_singleton_self _)))
  | .fnMulti _ h hg hb => fun st hh htry hst => by
    rw [st.grounds.groups] at hg
    rw [st.grounds.blocks] at hb
    exact (flow_pushes st h).seq (.makeFnMulti st.floor hg hb (h.steadyBodies hst))
  | .call h₁ h₂ => fun st hh htry hst => by
    have hf := st.floor
    obtain ⟨hs₁, hs₂⟩ := Bool.and_eq_true_iff.mp hst
    refine (h₁.flow st (h₂.le.trans hh) (fun ht => htry (.inl ht)) hs₁).after fun hv => ?_
    refine (h₂.flow (st.push (Nat.le_succ _)) hh (fun ht => htry (.inr (.inl ht))) (steady_then hs₂ hv)).afterAll
      fun _ => ?_
    exact .call hf _
  | .apply h₁ h₂ => fun st hh htry hst => by
    have hf := st.floor
    obtain ⟨hs₁, hs₂⟩ := Bool.and_eq_true_iff.mp hst
    refine (h₁.flow st (h₂.le.trans hh) (fun ht => htry (.inl ht)) hs₁).after fun hv => ?_
    refine (h₂.flow (st.push (Nat.le_succ _)) hh (fun ht => htry (.inr (.inl ht))) (steady_then hs₂ hv)).afterAll
      fun _ => ?_
    exact .ins trivial rfl rfl (show 2 + _ ≤ _ by omega) rfl
  | .operator ho h₁ h₂ => fun st hh htry hst => by
    have hf := st.floor
    obtain ⟨hs₁, hs₂⟩ := Bool.and_eq_true_iff.mp hst
    refine (h₁.flow st (h₂.le.trans hh) (fun ht => htry (.inl ht)) hs₁).after fun hv => ?_
    refine (h₂.flow (st.push (Nat.le_succ _)) hh (fun ht => htry (.inr (.inl ht))) (steady_then hs₂ hv)).afterAll
      fun _ => ?_
    obtain ⟨name, hn⟩ := ho
    unfold operatorOp at hn
    split at hn <;> cases hn <;> exact .ins trivial rfl rfl (show 2 + _ ≤ _ by omega) rfl
  | .callMember h₁ h₂ hi' => fun st hh htry hst => by
    have hf := st.floor
    obtain ⟨hs₁, hs₂⟩ := Bool.and_eq_true_iff.mp hst
    refine (h₁.flow st (h₂.le.trans hh) (fun ht => htry (.inl ht)) hs₁).after fun hv => ?_
    refine (h₂.flow (st.push (Nat.le_succ _)) hh (fun ht => htry (.inr (.inl ht))) (steady_then hs₂ hv)).afterAll
      fun _ => ?_
    exact .callMember hf (st.grounds.symbol hi')
  | .setGlobal h hi' => fun st hh htry hst => by
    have hf := st.floor
    exact (h.flow st hh (fun ht => htry (.inl ht)) hst).afterAll fun _ =>
      .ins (st.grounds.symbol hi') rfl rfl (show 1 + _ ≤ _ by omega) rfl
  | .throw h => fun st hh htry hst => by
    have hf := st.floor
    exact (h.flow st hh (fun ht => htry (.inl ht)) hst).afterNone fun _ =>
      .stop trivial rfl rfl (show 1 + _ ≤ _ by omega)
  | .tryCatch h₁ hx h₂ => fun st hh htry hst => by
    have hf := st.floor
    have hlt := h₂.le
    have hm := htry trivial
    obtain ⟨hs₁, hs₂⟩ := Bool.and_eq_true_iff.mp hst
    refine Flow.protectPlain hm hf rfl (by omega)
      (h₁.flow (st.guarded _ _) (by omega) (fun _ => hm) hs₁) ?_
    exact (Flow.storeCaught hf (by omega) hm).seq
      (h₂.flow (st.closed (Nat.le_refl _) _) (by omega) hh (fun _ => hm) hs₂)
  | .tryFinally h₁ h₂ hx h₃ => fun st hh htry hst => by
    have hf := st.floor
    have hlt := h₃.le
    have hlt₂ := h₂.le
    have hm := htry trivial
    obtain ⟨hs₁₂, hs₃⟩ := Bool.and_eq_true_iff.mp hst
    obtain ⟨hs₁, hs₂⟩ := Bool.and_eq_true_iff.mp hs₁₂
    refine Flow.protectAfter hm hf rfl (by omega) (h₁.flow (st.guarded _ _) (by omega) (fun _ => hm) hs₁)
      (fun hv => h₂.flow (st.closed (Nat.le_succ _) _) (by omega) (fun _ => hm) (steady_then hs₂ hv)) ?_
    exact (Flow.storeCaught hf (by omega) hm).seq
      ((h₃.flow (st.closed (Nat.le_refl _) _) hh (fun _ => hm) hs₃).afterNone fun _ => .rethrow hf (by omega))

theorem CompilesEffects.flow {T : Tables} {β : Names} {lo hi : Nat} {es : Exps} {c : Code} :
    CompilesEffects env T β lo hi es c →
    ∀ {m : BytecodeModule} {start : Option Nat} {p : Nat} {hs : List TryHandler} {d : Nat} {pending : Bool},
      Stands m T β none start hs d pending → hi ≤ m.slotCount → (c.Tries → m.hasHandlers = true) →
      es.effectsSteady pending = true → Flow (SteadyBody env) m start p hs (some d) c (exit es.returns d)
  | .nil _ => fun _ _ _ _ => .nil
  | .cons h hrest => fun st hh htry hst => by
    obtain ⟨hs₁, hs₂⟩ := Bool.and_eq_true_iff.mp hst
    refine (h.flow st (hrest.le.trans hh) (fun ht => htry (.inl ht)) hs₁).after fun hv => ?_
    exact (Flow.pop st.floor).seq (hrest.flow st hh (fun ht => htry (.inr (.inr ht))) (steady_then hs₂ hv))

theorem CompilesClauses.flow {T : Tables} {β : Names} {ex lo hi : Nat} {cs : Clauses} {c : Code} :
    CompilesClauses env T β ex lo hi cs c →
    ∀ {m : BytecodeModule} {start : Option Nat} {p : Nat} {hs : List TryHandler} {d : Nat} {pending : Bool},
      Stands m T β none start hs d pending → ex < m.slotCount → hi ≤ m.slotCount →
      (c.Tries → m.hasHandlers = true) → cs.steady pending = true →
      Flow (SteadyBody env) m start p hs (some d) c (exit cs.returns (d + 1))
  | .nil _ => fun st hx _ _ _ => .rethrow st.floor hx
  | .cons hl ht h hrest => fun st hx hh htry hst => by
    have hf := st.floor
    obtain ⟨hs₁, hs₂⟩ := Bool.and_eq_true_iff.mp hst
    refine (ht.flow st hx).seq (.branch hf (by omega) ?_ ?_)
    · exact h.flow (st.bind hx) (hrest.le.trans hh) (fun ht => htry (.inr (.inl ht))) hs₁
    · exact hrest.flow st hx hh (fun ht => htry (.inr (.inr ht))) hs₂

theorem CompilesArgs.flow {T : Tables} {β : Names} {L : Option (List Nat)} {lo hi : Nat} {es : Exps}
    {c : Code} : CompilesArgs env T β L lo hi es c →
    ∀ {m : BytecodeModule} {start : Option Nat} {p : Nat} {hs : List TryHandler} {d : Nat} {pending : Bool},
      Stands m T β L start hs d pending → hi ≤ m.slotCount → (c.Tries → m.hasHandlers = true) →
      es.steady pending = true →
      Flow (SteadyBody env) m start p hs (some d) c (exit es.returns (d + es.length))
  | .nil _ => fun _ _ _ _ => .nil
  | .cons h hrest => fun st hh htry hst => by
    obtain ⟨hs₁, hs₂⟩ := Bool.and_eq_true_iff.mp hst
    rw [Exps.length, Nat.add_comm (Exps.length _) 1, ← Nat.add_assoc]
    exact (h.flow st (hrest.le.trans hh) (fun ht => htry (.inl ht)) hs₁).after fun hv =>
      hrest.flow (st.push (Nat.le_succ _)) hh (fun ht => htry (.inr ht)) (steady_then hs₂ hv)

theorem CompilesBinds.flow {T : Tables} {β : Names} {L : Option (List Nat)} {lo hi : Nat} {bs : Binds}
    {slots : List Nat} {c : Code} : CompilesBinds env T β L lo hi bs slots c →
    ∀ {m : BytecodeModule} {start : Option Nat} {p : Nat} {hs : List TryHandler} {d : Nat} {pending : Bool},
      Stands m T β L start hs d pending → hi ≤ m.slotCount → (c.Tries → m.hasHandlers = true) →
      bs.steady pending = true → Flow (SteadyBody env) m start p hs (some d) c (exit bs.returns d)
  | .nil _ => fun _ _ _ _ => .nil
  | .cons h hm hrest => fun st hh htry hst => by
    have hlt := hrest.le
    obtain ⟨hs₁, hs₂⟩ := Bool.and_eq_true_iff.mp hst
    refine (h.flow st (by omega) (fun ht => htry (.inl ht)) hs₁).after fun hv => ?_
    exact (Flow.store st.floor (by omega)).seq
      (hrest.flow (st.bind (by omega)) hh (fun ht => htry (.inr (.inr ht))) (steady_then hs₂ hv))

end

end

end ProtoClojure
