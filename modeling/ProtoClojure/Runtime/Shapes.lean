import ProtoClojure.Recursion.Conditions
import ProtoClojure.Runtime.FrameRuns
import Mathlib.Logic.Relation

/-! The shape of a frame: where it is, how high its operand stack is and which handlers are set
up. What an instruction does to the shape does not depend on the values, and every frame of
`executeFrame` follows it. -/
namespace ProtoClojure
open Recursion Vm

/-- The operands an instruction takes or looks at. -/
def Instr.takes (m : BytecodeModule) (w : Instr) : Nat :=
  match w.op with
  | .pop | .storeLocal | .storeCaught | .storeGlobal | .jumpIfFalse | .jumpIfTrue | .dup | .throw
  | .excMatch | .getMember | .ret => 1
  | .add | .sub | .mul | .lt | .le | .gt | .ge | .eq | .callApply | .excMatchType => 2
  | .call | .callKw | .callMember => w.operand + 1
  | .makeFn => m.blockCaptures w.operand
  | .makeFnMulti => m.groupCaptures w.operand
  | _ => 0

/-- The values it leaves in their place. -/
def Instr.gives (w : Instr) : Nat :=
  match w.op with
  | .pushConst | .pushVar | .pushNil | .pushTrue | .pushFalse | .pushLocal | .pushLocalClear
  | .resolveClass | .makeFn | .makeFnMulti | .call | .callKw | .callMember | .callApply
  | .add | .sub | .mul | .lt | .le | .gt | .ge | .eq | .excMatch | .excMatchType | .getMember
  | .storeGlobal | .throw | .ret => 1
  | .dup => 2
  | _ => 0

/-- The words it takes up, the data word counted. -/
def Instr.size (w : Instr) : Nat :=
  match w.op with
  | .callMember => 2
  | _ => 1

theorem Instr.size_of_ne {w : Instr} (h : w.op ≠ .callMember) : w.size = 1 := by
  unfold size
  split
  · exact absurd ‹_› h
  · rfl

/-- Where it may jump to, from the place `i`. -/
def Instr.target (w : Instr) (i : Nat) : Option Nat :=
  match w.op with
  | .jump | .jumpIfFalse | .jumpIfTrue => some (i + 1 + w.operand)
  | .jumpBack => if w.operand ≤ i + 1 then some (i + 1 - w.operand) else none
  | _ => none

structure Shape where
  ip : Nat
  height : Nat
  handlers : List TryHandler

/-- The handlers after an instruction that falls through to the next one. -/
def Instr.handlersAfter (w : Instr) (s : Shape) : List TryHandler :=
  match w.op with
  | .tryBegin => ⟨s.ip + 1 + w.operand, s.height⟩ :: s.handlers
  | .tryEnd => s.handlers.tail
  | _ => s.handlers

/-- What one instruction may do to the shape. Where it raises, some of its operands may be gone
and others may lie on the stack. -/
inductive Shape.Step (m : BytecodeModule) (s : Shape) : Shape → Prop
  | next {w} (hc : m.code[s.ip]? = some w) (hf : BytecodeModule.fallsThrough w.op = true)
      (hn : w.takes m ≤ s.height) :
      Step m s ⟨s.ip + w.size, s.height - w.takes m + w.gives, w.handlersAfter s⟩
  | jump {w i} (hc : m.code[s.ip]? = some w) (ht : w.target s.ip = some i)
      (hn : w.takes m ≤ s.height) :
      Step m s ⟨i, s.height - w.takes m + w.gives, s.handlers⟩
  | land {w h rest k} (hc : m.code[s.ip]? = some w) (hh : s.handlers = h :: rest)
      (hk : s.height ≤ k + w.takes m) :
      Step m s ⟨h.target, min k h.sp + 1, rest⟩

namespace Vm

def Frame.shape (f : Frame) : Shape := ⟨f.ip, f.stack.length, f.handlers⟩

variable {σ α : Type} {H : Host σ} {m : BytecodeModule} {R : (q : Query σ) → q.Answer → Prop}
  {f f' : Frame} {w : World σ FnObject} {G : α → Config σ → Prop} {B : Thrown → Config σ → Prop}

/-! ### Conditions of the frame's operations -/

theorem ensures_onWorld {x : InWorld σ α} (hG : ∀ a w', G a ⟨f, w'⟩) (hB : ∀ t w', B t ⟨f, w'⟩) :
    Effect.Ensures R (onWorld x) ⟨f, w⟩ G B :=
  Effect.ensures_zoom.mpr (.of_forall x hG hB)

theorem raiseError_not_ok {text : String} {a : α} {w' : World σ FnObject} :
    ¬ (service (raiseError H text) w).Returns R (.ok a, w') := by
  intro h
  unfold service serve raiseError at h
  generalize H.errorValue text = c at h
  induction c generalizing w with
  | done v => cases (Effect.returns_throw.mp h).1
  | throw t => cases (Effect.returns_throw.mp h).1
  | call q next ih =>
    obtain ⟨b, w₁, -, h⟩ := Effect.returns_bind_ok.mp h
    exact ih b h

theorem ensures_raiseIn {text : String} (hB : ∀ t w', B t ⟨f, w'⟩) :
    Effect.Ensures R (raiseIn H text) ⟨f, w⟩ G B :=
  Effect.ensures_zoom.mpr ⟨fun _ _ h => (raiseError_not_ok h).elim, fun t w' _ => hB t w'⟩

theorem ensures_modifyFrame {g : Frame → Frame} {G : Unit → Config σ → Prop} :
    Effect.Ensures R (modifyFrame g) ⟨f, w⟩ G B ↔ G () ⟨g f, w⟩ := Effect.ensures_modify

theorem ensures_slotValue {slot : Nat} {G : Value → Config σ → Prop} (hG : ∀ v, G v ⟨f, w⟩) :
    Effect.Ensures R (slotValue slot) ⟨f, w⟩ G B := by
  simp only [slotValue, Effect.ensures_bind, Effect.ensures_get]
  cases f.slots slot with
  | none => exact Effect.ensures_fault _
  | some v => exact Effect.ensures_pure.mpr (hG v)

theorem ensures_symbolAt {i : Nat} {G : String → Config σ → Prop} (hG : ∀ s, G s ⟨f, w⟩) :
    Effect.Ensures R (symbolAt m i) ⟨f, w⟩ G B := by
  unfold symbolAt
  split
  · exact Effect.ensures_pure.mpr (hG _)
  · exact Effect.ensures_fault _

theorem ensures_popVal {G : Value → Config σ → Prop} (hB : f.stack = [] → ∀ t w', B t ⟨f, w'⟩)
    (hG : ∀ v rest, f.stack = v :: rest → G v ⟨{ f with stack := rest }, w⟩) :
    Effect.Ensures R (popVal H) ⟨f, w⟩ G B := by
  simp only [popVal, Effect.ensures_bind, Effect.ensures_get]
  cases hs : f.stack with
  | nil => exact ensures_raiseIn (hB hs)
  | cons v rest =>
    simp only [Effect.ensures_bind, ensures_modifyFrame, Effect.ensures_pure]
    exact hG v rest hs

theorem ensures_dispatch {site : Site} {argc : Nat} {G : Unit → Config σ → Prop}
    (hG : ∀ callee rest v w', f.stack.drop argc = callee :: rest →
      G () ⟨{ f with stack := v :: rest }, w'⟩) (hB : ∀ t w', B t ⟨f, w'⟩) :
    Effect.Ensures R (dispatch H site argc) ⟨f, w⟩ G B := by
  simp only [dispatch, Effect.ensures_bind, Effect.ensures_get]
  cases hs : f.stack.drop argc with
  | nil => exact Effect.ensures_fault _
  | cons callee rest =>
    simp only [Effect.ensures_bind]
    refine ensures_onWorld (fun v w' => ?_) hB
    exact ensures_modifyFrame.mpr (hG callee rest v w' hs)

/-! ### One instruction -/

/-- The frame goes on, its shape changed as the instruction may change it. -/
def GoesOn (m : BytecodeModule) (f : Frame) (_ : Unit) (c : Config σ) : Prop :=
  Shape.Step m f.shape c.frame.shape

/-- The instruction raised, with no more of the operands gone than it takes. -/
def Stops (m : BytecodeModule) (i : Instr) (f : Frame) (_ : Thrown) (c : Config σ) : Prop :=
  c.frame.handlers = f.handlers ∧ f.stack.length ≤ c.frame.stack.length + i.takes m

variable {op : Op} {n : Nat}

theorem stops_next (t : Thrown) (w' : World σ FnObject) : Stops m ⟨op, n⟩ f t ⟨f.next, w'⟩ :=
  ⟨rfl, Nat.le_add_right ..⟩

variable {slots : Nat → Option Value} {caught : Nat → Option Thrown} {last : Option Thrown}
  {stack : List Value} {handlers : List TryHandler}

theorem goesOn_next (hc : m.code[f.ip]? = some ⟨op, n⟩) (hf : BytecodeModule.fallsThrough op = true)
    (hn : Instr.takes m ⟨op, n⟩ ≤ f.stack.length)
    (hs : stack.length = f.stack.length - Instr.takes m ⟨op, n⟩ + Instr.gives ⟨op, n⟩)
    (hh : handlers = Instr.handlersAfter ⟨op, n⟩ f.shape) (w' : World σ FnObject) :
    GoesOn m f () ⟨⟨f.ip + Instr.size ⟨op, n⟩, stack, slots, handlers, caught, last⟩, w'⟩ := by
  have hstep := Shape.Step.next (s := f.shape) hc hf hn
  unfold GoesOn Frame.shape
  rw [hs, hh]
  exact hstep

/-- An instruction that pushes a value. -/
theorem goesOn_push (hc : m.code[f.ip]? = some ⟨op, n⟩) (hf : BytecodeModule.fallsThrough op = true)
    (ht : Instr.takes m ⟨op, n⟩ = 0) (hg : Instr.gives ⟨op, n⟩ = 1)
    (hh : f.handlers = Instr.handlersAfter ⟨op, n⟩ f.shape) (v : Value) (w' : World σ FnObject) :
    GoesOn m f ()
      ⟨⟨f.ip + Instr.size ⟨op, n⟩, v :: f.stack, slots, f.handlers, caught, last⟩, w'⟩ := by
  refine goesOn_next hc hf (by omega) ?_ hh w'
  rw [ht, hg]
  rfl

/-- An instruction that takes one value and leaves none. -/
theorem goesOn_drop (hc : m.code[f.ip]? = some ⟨op, n⟩) (hf : BytecodeModule.fallsThrough op = true)
    (ht : Instr.takes m ⟨op, n⟩ = 1) (hg : Instr.gives ⟨op, n⟩ = 0)
    (hh : f.handlers = Instr.handlersAfter ⟨op, n⟩ f.shape) {v : Value} {rest : List Value}
    (hst : f.stack = v :: rest) (w' : World σ FnObject) :
    GoesOn m f () ⟨⟨f.ip + Instr.size ⟨op, n⟩, rest, slots, f.handlers, caught, last⟩, w'⟩ := by
  have hlen : f.stack.length = rest.length + 1 := by rw [hst]; rfl
  exact goesOn_next hc hf (by omega) (by omega) hh w'

/-- An instruction that puts one value in the place of those it takes. -/
theorem goesOn_replace (hc : m.code[f.ip]? = some ⟨op, n⟩) (hf : BytecodeModule.fallsThrough op = true)
    (hg : Instr.gives ⟨op, n⟩ = 1) (hh : f.handlers = Instr.handlersAfter ⟨op, n⟩ f.shape)
    {rest : List Value} (hst : f.stack.length = rest.length + Instr.takes m ⟨op, n⟩) (v : Value)
    (w' : World σ FnObject) :
    GoesOn m f ()
      ⟨⟨f.ip + Instr.size ⟨op, n⟩, v :: rest, slots, f.handlers, caught, last⟩, w'⟩ := by
  refine goesOn_next hc hf (by omega) ?_ hh w'
  rw [hst, hg, Nat.add_sub_cancel]
  rfl

/-- A jump, or a conditional one that is taken. -/
theorem goesOn_jump (hc : m.code[f.ip]? = some ⟨op, n⟩) {i : Nat}
    (ht : Instr.target ⟨op, n⟩ f.ip = some i) (hn : Instr.takes m ⟨op, n⟩ ≤ f.stack.length)
    (hs : stack.length = f.stack.length - Instr.takes m ⟨op, n⟩ + Instr.gives ⟨op, n⟩)
    (w' : World σ FnObject) :
    GoesOn m f () ⟨⟨i, stack, slots, f.handlers, caught, last⟩, w'⟩ := by
  have hstep := Shape.Step.jump (s := f.shape) hc ht hn
  unfold GoesOn Frame.shape
  rw [hs]
  exact hstep

variable (H R) in
/-- The instruction changes the shape as it may, or raises. -/
def Performs (m : BytecodeModule) (op : Op) (n : Nat) (f : Frame) (w : World σ FnObject) : Prop :=
  m.code[f.ip]? = some ⟨op, n⟩ →
    Effect.Ensures R (perform H m op n) ⟨f.next, w⟩ (GoesOn m f) (Stops m ⟨op, n⟩ f)

theorem performs_pushConst : Performs H R m .pushConst n f w := by
  intro hc
  simp only [perform, Effect.ensures_bind, Effect.ensures_get]
  cases m.consts[n]? with
  | none => exact ensures_raiseIn stops_next
  | some c =>
    simp only [Effect.ensures_bind]
    refine ensures_onWorld (fun v w' => ?_) stops_next
    exact ensures_modifyFrame.mpr (goesOn_push hc rfl rfl rfl rfl v w')

theorem performs_pushVar : Performs H R m .pushVar n f w := by
  intro hc
  simp only [perform, Effect.ensures_bind, Effect.ensures_get]
  split
  · exact ensures_raiseIn stops_next
  · simp only [Effect.ensures_bind]
    refine ensures_onWorld (fun v w' => ?_) stops_next
    exact ensures_modifyFrame.mpr (goesOn_push hc rfl rfl rfl rfl v w')
  · exact ensures_raiseIn stops_next

theorem performs_pushLocal : Performs H R m .pushLocal n f w := by
  intro hc
  simp only [perform, Effect.ensures_bind, Effect.ensures_get]
  refine ensures_slotValue fun v => ?_
  exact ensures_modifyFrame.mpr (goesOn_push hc rfl rfl rfl rfl v w)

theorem performs_pushLocalClear : Performs H R m .pushLocalClear n f w := by
  intro hc
  simp only [perform, Effect.ensures_bind, Effect.ensures_get]
  refine ensures_slotValue fun v => ?_
  exact ensures_modifyFrame.mpr (ensures_modifyFrame.mpr (goesOn_push hc rfl rfl rfl rfl v w))

theorem performs_resolveClass : Performs H R m .resolveClass n f w := by
  intro hc
  simp only [perform, Effect.ensures_bind, Effect.ensures_get]
  refine ensures_symbolAt fun s => ?_
  refine ensures_onWorld (fun v w' => ?_) stops_next
  exact ensures_modifyFrame.mpr (goesOn_push hc rfl rfl rfl rfl v w')

theorem performs_literal (hop : op = .pushNil ∨ op = .pushTrue ∨ op = .pushFalse) :
    Performs H R m op n f w := by
  intro hc
  rcases hop with rfl | rfl | rfl <;>
    simp only [perform, Effect.ensures_bind, Effect.ensures_get, pushVal, ensures_modifyFrame] <;>
    exact goesOn_push hc rfl rfl rfl rfl _ w

theorem performs_pop : Performs H R m .pop n f w := by
  intro hc
  simp only [perform, Effect.ensures_bind, Effect.ensures_get]
  cases hs : f.stack with
  | nil =>
    rw [if_pos (show f.next.stack = [] from hs)]
    exact ensures_raiseIn stops_next
  | cons v rest =>
    rw [if_neg (show ¬ f.next.stack = [] by simp [Frame.next, hs])]
    refine ensures_modifyFrame.mpr ?_
    rw [show f.next.stack.tail = rest from congrArg List.tail hs]
    exact goesOn_drop hc rfl rfl rfl rfl hs w

theorem performs_storeLocal : Performs H R m .storeLocal n f w := by
  intro hc
  simp only [perform, Effect.ensures_bind, Effect.ensures_get]
  split
  · exact ensures_raiseIn stops_next
  · simp only [Effect.ensures_bind]
    refine ensures_popVal (fun _ => stops_next) fun v rest hs => ?_
    exact ensures_modifyFrame.mpr (goesOn_drop hc rfl rfl rfl rfl hs w)

theorem performs_storeCaught : Performs H R m .storeCaught n f w := by
  intro hc
  simp only [perform, Effect.ensures_bind, Effect.ensures_get]
  split
  · simp only [Effect.ensures_bind, ensures_modifyFrame]
    refine ensures_popVal (fun _ t w' => ⟨rfl, Nat.le_add_right ..⟩) fun v rest hs => ?_
    exact ensures_modifyFrame.mpr (goesOn_drop hc rfl rfl rfl rfl hs w)
  · exact ensures_raiseIn stops_next

theorem performs_makeFn : Performs H R m .makeFn n f w := by
  intro hc
  simp only [perform, Effect.ensures_bind, Effect.ensures_get]
  cases hb : m.blocks[n]? with
  | none => exact ensures_raiseIn stops_next
  | some sub =>
    have ht : Instr.takes m ⟨.makeFn, n⟩ = sub.captureCount := by
      simp only [Instr.takes, BytecodeModule.blockCaptures, hb, Option.map_some, Option.getD_some]
    dsimp only
    split
    · exact ensures_raiseIn stops_next
    · rename_i hlen
      refine Effect.ensures_modify.mpr (goesOn_replace hc rfl rfl rfl ?_ _ _)
      rw [ht, List.length_drop]
      exact (Nat.sub_add_cancel (Nat.le_of_not_lt hlen)).symm

theorem groupCaptures_eq {group : List Nat} {subs : List BytecodeModule}
    (h : group.mapM (m.blocks[·]?) = some subs) :
    (group.map m.blockCaptures).sum = (subs.map (·.captureCount)).sum := by
  induction group generalizing subs with
  | nil =>
    cases h
    rfl
  | cons b rest ih =>
    rw [List.mapM_cons] at h
    obtain ⟨sub, hb, h⟩ := Option.bind_eq_some_iff.mp h
    obtain ⟨more, hr, h⟩ := Option.bind_eq_some_iff.mp h
    cases h
    rw [List.map_cons, List.sum_cons, List.map_cons, List.sum_cons, ih hr]
    simp only [BytecodeModule.blockCaptures, hb, Option.map_some, Option.getD_some]

theorem performs_makeFnMulti : Performs H R m .makeFnMulti n f w := by
  intro hc
  simp only [perform, Effect.ensures_bind, Effect.ensures_get]
  cases hg : m.arityGroups[n]? with
  | none => exact ensures_raiseIn stops_next
  | some group =>
    dsimp only
    cases hs : group.mapM (m.blocks[·]?) with
    | none => exact Effect.ensures_fault _
    | some subs =>
      have ht : Instr.takes m ⟨.makeFnMulti, n⟩ = (subs.map (·.captureCount)).sum := by
        simp only [Instr.takes, BytecodeModule.groupCaptures, hg, Option.getD_some, groupCaptures_eq hs]
      dsimp only
      split
      · exact ensures_raiseIn stops_next
      · rename_i hlen
        refine Effect.ensures_modify.mpr (goesOn_replace hc rfl rfl rfl ?_ _ _)
        rw [ht, List.length_drop]
        exact (Nat.sub_add_cancel (Nat.le_of_not_lt hlen)).symm

theorem drop_length {s rest : List Value} {callee : Value} {k : Nat} (h : s.drop k = callee :: rest) :
    s.length = rest.length + (k + 1) := by
  have hlen := congrArg List.length h
  rw [List.length_drop, List.length_cons] at hlen
  omega

theorem performs_call {site : Site} (hop : op = .call ∧ site = .call ∨ op = .callKw ∧ site = .callKw) :
    Performs H R m op n f w := by
  intro hc
  have hd : Effect.Ensures R (dispatch H site n) ⟨f.next, w⟩ (GoesOn m f) (Stops m ⟨op, n⟩ f) := by
    refine ensures_dispatch (fun callee rest v w' hdrop => ?_) stops_next
    have hlen := drop_length (s := f.stack) hdrop
    rcases hop with ⟨rfl, -⟩ | ⟨rfl, -⟩ <;> exact goesOn_replace hc rfl rfl rfl hlen v w'
  rcases hop with ⟨rfl, rfl⟩ | ⟨rfl, rfl⟩ <;>
    simp only [perform, Effect.ensures_bind, Effect.ensures_get] <;> split
  · exact ensures_raiseIn stops_next
  · exact hd
  · exact ensures_raiseIn stops_next
  · exact hd

theorem performs_callApply : Performs H R m .callApply n f w := by
  intro hc
  simp only [perform, Effect.ensures_bind, Effect.ensures_get]
  split
  · exact ensures_raiseIn stops_next
  simp only [Effect.ensures_bind]
  refine ensures_popVal (fun _ => stops_next) fun v rest hs => ?_
  have hlen : f.stack.length = rest.length + 1 := congrArg List.length hs
  have hstop : ∀ (items : List Value) t (w' : World σ FnObject), Stops m ⟨.callApply, n⟩ f t
      ⟨⟨f.ip + 1, items.reverse ++ rest, f.slots, f.handlers, f.caught, f.justCaught⟩, w'⟩ := by
    intro items t w'
    refine ⟨rfl, ?_⟩
    simp only [Instr.takes, List.length_append]
    omega
  refine ensures_onWorld (fun items w₁ => ensures_modifyFrame.mpr ?_) (hstop [])
  refine ensures_dispatch (fun callee rest' v w' hdrop => ?_) (hstop items)
  have hlen' := drop_length (s := items.reverse ++ rest) hdrop
  rw [List.length_append, List.length_reverse] at hlen'
  exact goesOn_replace hc rfl rfl rfl (show f.stack.length = rest'.length + 2 by omega) v w'

theorem performs_storeGlobal : Performs H R m .storeGlobal n f w := by
  intro hc
  simp only [perform, Effect.ensures_bind, Effect.ensures_get]
  split
  · exact ensures_raiseIn stops_next
  · cases hs : f.stack with
    | nil =>
      simp only [show f.next.stack = [] from hs]
      exact ensures_raiseIn stops_next
    | cons v rest =>
      simp only [show f.next.stack = v :: rest from hs]
      refine ensures_onWorld (fun _ w' => ?_) stops_next
      exact goesOn_next hc rfl (by simp [Instr.takes, hs]) (by simp [Instr.takes, Instr.gives, hs]) rfl w'
  · exact ensures_raiseIn stops_next

theorem performs_jump : Performs H R m .jump n f w := by
  intro hc
  simp only [perform, Effect.ensures_bind, Effect.ensures_get]
  exact ensures_modifyFrame.mpr (goesOn_jump hc rfl (Nat.zero_le _) rfl w)

theorem performs_jumpBack : Performs H R m .jumpBack n f w := by
  intro hc
  simp only [perform, jumpBack, Effect.ensures_bind, Effect.ensures_get]
  split
  · exact Effect.ensures_fault _
  · rename_i hn
    have ht : Instr.target ⟨.jumpBack, n⟩ f.ip = some (f.ip + 1 - n) := if_pos (Nat.le_of_not_lt hn)
    exact ensures_modifyFrame.mpr (goesOn_jump hc ht (Nat.zero_le _) rfl w)

/-- A conditional jump: it is taken or not. -/
theorem goesOn_branch (hop : op = .jumpIfFalse ∨ op = .jumpIfTrue) (hc : m.code[f.ip]? = some ⟨op, n⟩)
    {v : Value} {rest : List Value} (hs : f.stack = v :: rest) (taken : Bool) :
    Effect.Ensures R
      (if taken then modifyFrame fun f => { f with ip := f.ip + n } else pure () : Exec σ Unit)
      ⟨⟨f.ip + 1, rest, f.slots, f.handlers, f.caught, f.justCaught⟩, w⟩ (GoesOn m f)
      (Stops m ⟨op, n⟩ f) := by
  have hlen : f.stack.length = rest.length + 1 := by rw [hs]; rfl
  cases taken with
  | true =>
    rw [if_pos rfl, ensures_modifyFrame]
    rcases hop with rfl | rfl <;>
      exact goesOn_jump hc rfl (show 1 ≤ _ by omega) (show rest.length = _ - 1 + 0 by omega) w
  | false =>
    rw [if_neg Bool.false_ne_true, Effect.ensures_pure]
    rcases hop with rfl | rfl <;> exact goesOn_drop hc rfl rfl rfl rfl hs w

theorem performs_jumpIfFalse : Performs H R m .jumpIfFalse n f w := by
  intro hc
  simp only [perform, Effect.ensures_bind, Effect.ensures_get]
  refine ensures_popVal (fun _ => stops_next) fun v rest hs => ?_
  exact goesOn_branch (.inl rfl) hc hs (!truthy v)

theorem performs_jumpIfTrue : Performs H R m .jumpIfTrue n f w := by
  intro hc
  simp only [perform, Effect.ensures_bind, Effect.ensures_get]
  refine ensures_popVal (fun _ => stops_next) fun v rest hs => ?_
  exact goesOn_branch (.inr rfl) hc hs (truthy v)

theorem performs_dup : Performs H R m .dup n f w := by
  intro hc
  simp only [perform, Effect.ensures_bind, Effect.ensures_get]
  cases hs : f.stack with
  | nil =>
    simp only [show f.next.stack = [] from hs]
    exact ensures_raiseIn stops_next
  | cons v rest =>
    simp only [show f.next.stack = v :: rest from hs]
    refine ensures_modifyFrame.mpr (goesOn_next hc rfl ?_ ?_ rfl w)
    · simp [Instr.takes, hs]
    · simp [Instr.takes, Instr.gives, Frame.next, hs]

def isOperator (op : Op) : Prop := op ∈ [Op.add, .sub, .mul, .lt, .le, .gt, .ge, .eq]

theorem ensures_operator {G : Unit → Config σ → Prop}
    (hG : ∀ a b rest v w', f.stack = b :: a :: rest → G () ⟨{ f with stack := v :: rest }, w'⟩)
    (hB : ∀ stack t w', f.stack.length ≤ stack.length → B t ⟨{ f with stack }, w'⟩) :
    Effect.Ensures R (operator H op n) ⟨f, w⟩ G B := by
  have hstop : ∀ t w', B t ⟨f, w'⟩ := fun t w' => hB f.stack t w' (Nat.le_refl _)
  simp only [operator, Effect.ensures_bind, Effect.ensures_get]
  split
  · rename_i b a rest hs
    simp only [Effect.ensures_bind]
    refine ensures_onWorld (fun found w₁ => ?_) hstop
    cases found with
    | none =>
      simp only [Effect.ensures_bind]
      refine ensures_onWorld (fun v w' => ?_) hstop
      exact ensures_modifyFrame.mpr (hG a b rest v w' hs)
    | some g =>
      simp only [Effect.ensures_bind, ensures_modifyFrame]
      refine ensures_dispatch (fun callee rest' v w' hdrop => ?_) fun t w' => ?_
      · cases hdrop
        exact hG a b rest v w' hs
      · refine hB _ t w' ?_
        rw [hs]
        exact Nat.le_succ _
  · exact ensures_raiseIn hstop

theorem performs_operator (hop : isOperator op) : Performs H R m op n f w := by
  intro hc
  simp only [isOperator, List.mem_cons, List.not_mem_nil, or_false] at hop
  rcases hop with rfl | rfl | rfl | rfl | rfl | rfl | rfl | rfl <;>
    simp only [perform, Effect.ensures_bind, Effect.ensures_get] <;>
    refine ensures_operator (fun a b rest v w' hs => ?_)
      (fun stack t w' hlen => ⟨rfl, Nat.le_add_right_of_le hlen⟩) <;>
    exact goesOn_replace hc rfl rfl rfl (congrArg List.length hs) v w'

theorem performs_tryBegin : Performs H R m .tryBegin n f w := by
  intro hc
  simp only [perform, Effect.ensures_bind, Effect.ensures_get]
  split
  · exact ensures_modifyFrame.mpr (goesOn_next hc rfl (Nat.zero_le _) rfl rfl w)
  · exact ensures_raiseIn stops_next

theorem performs_tryEnd : Performs H R m .tryEnd n f w := by
  intro hc
  simp only [perform, Effect.ensures_bind, Effect.ensures_get]
  cases hh : f.handlers with
  | nil =>
    simp only [show f.next.handlers = [] from hh]
    exact ensures_raiseIn stops_next
  | cons h rest =>
    simp only [show f.next.handlers = h :: rest from hh]
    refine ensures_modifyFrame.mpr (goesOn_next hc rfl (Nat.zero_le _) rfl ?_ w)
    exact congrArg List.tail hh.symm

theorem performs_throw : Performs H R m .throw n f w := by
  intro hc
  simp only [perform, Effect.ensures_bind, Effect.ensures_get]
  split
  · exact ensures_raiseIn stops_next
  · simp only [Effect.ensures_bind]
    exact ensures_onWorld (fun v w' => Effect.ensures_throw.mpr (stops_next _ w')) stops_next

theorem performs_rethrow : Performs H R m .rethrow n f w := by
  intro hc
  simp only [perform, rethrow, Effect.ensures_bind, Effect.ensures_get]
  split
  · exact Effect.ensures_throw.mpr (stops_next _ w)
  · simp only [Effect.ensures_bind]
    exact ensures_slotValue fun v => Effect.ensures_throw.mpr (stops_next _ w)

theorem performs_excMatch : Performs H R m .excMatch n f w := by
  intro hc
  simp only [perform, Effect.ensures_bind, Effect.ensures_get]
  refine ensures_popVal (fun _ => stops_next) fun v rest hs => ?_
  have hlen : f.stack.length = rest.length + 1 := congrArg List.length hs
  refine ensures_onWorld (fun b w' => ?_) fun t w' => ⟨rfl, Nat.le_of_eq hlen⟩
  exact ensures_modifyFrame.mpr (goesOn_replace hc rfl rfl rfl hlen (.bool b) w')

theorem performs_excMatchType : Performs H R m .excMatchType n f w := by
  intro hc
  simp only [perform, Effect.ensures_bind, Effect.ensures_get]
  refine ensures_symbolAt fun s => ?_
  split
  · rename_i type v rest hs
    simp only [Effect.ensures_bind]
    refine ensures_onWorld (fun b w' => ?_) stops_next
    exact ensures_modifyFrame.mpr (goesOn_replace hc rfl rfl rfl (congrArg List.length hs) (.bool b) w')
  · exact Effect.ensures_fault _

theorem performs_getMember : Performs H R m .getMember n f w := by
  intro hc
  simp only [perform, Effect.ensures_bind, Effect.ensures_get]
  refine ensures_symbolAt fun s => ?_
  split
  · rename_i o rest hs
    simp only [Effect.ensures_bind]
    refine ensures_onWorld (fun v w' => ?_) stops_next
    exact ensures_modifyFrame.mpr (goesOn_replace hc rfl rfl rfl (congrArg List.length hs) v w')
  · exact Effect.ensures_fault _

theorem performs_callMember : Performs H R m .callMember n f w := by
  intro hc
  simp only [perform, Effect.ensures_bind, Effect.ensures_get]
  split
  · exact Effect.ensures_fault _
  · simp only [Effect.ensures_bind, ensures_modifyFrame]
    refine ensures_symbolAt fun s => ?_
    split
    · exact Effect.ensures_fault _
    · rename_i o rest hs
      simp only [Effect.ensures_bind]
      refine ensures_onWorld (fun v w' => ?_) fun t w' => ⟨rfl, Nat.le_add_right ..⟩
      exact ensures_modifyFrame.mpr (goesOn_replace hc rfl rfl rfl (drop_length (s := f.stack) hs) v w')

theorem performs_nothing (hop : op = .nop ∨ op = .line) : Performs H R m op n f w := by
  intro hc
  rcases hop with rfl | rfl <;>
    simp only [perform, Effect.ensures_bind, Effect.ensures_get, Effect.ensures_pure] <;>
    exact goesOn_next hc rfl (Nat.zero_le _) rfl rfl w

/-- Every instruction but `RETURN`. -/
theorem performs (hr : op ≠ .ret) : Performs H R m op n f w := by
  cases op with
  | ret => exact absurd rfl hr
  | nop | line => exact performs_nothing (by decide)
  | pushNil | pushTrue | pushFalse => exact performs_literal (by decide)
  | add | sub | mul | lt | le | gt | ge | eq => exact performs_operator (by simp [isOperator])
  | call => exact performs_call (.inl ⟨rfl, rfl⟩)
  | callKw => exact performs_call (.inr ⟨rfl, rfl⟩)
  | pushConst => exact performs_pushConst
  | pushVar => exact performs_pushVar
  | pushLocal => exact performs_pushLocal
  | pushLocalClear => exact performs_pushLocalClear
  | resolveClass => exact performs_resolveClass
  | pop => exact performs_pop
  | storeLocal => exact performs_storeLocal
  | storeCaught => exact performs_storeCaught
  | makeFn => exact performs_makeFn
  | makeFnMulti => exact performs_makeFnMulti
  | callApply => exact performs_callApply
  | storeGlobal => exact performs_storeGlobal
  | jump => exact performs_jump
  | jumpBack => exact performs_jumpBack
  | jumpIfFalse => exact performs_jumpIfFalse
  | jumpIfTrue => exact performs_jumpIfTrue
  | dup => exact performs_dup
  | tryBegin => exact performs_tryBegin
  | tryEnd => exact performs_tryEnd
  | throw => exact performs_throw
  | rethrow => exact performs_rethrow
  | excMatch => exact performs_excMatch
  | excMatchType => exact performs_excMatchType
  | getMember => exact performs_getMember
  | callMember => exact performs_callMember

/-! ### Runs of a frame -/

section Runs
variable (H R) (m)

/-- One turn of the dispatch loop, the landing in a handler included, with the calls answered as
`R` allows. -/
inductive Turn (c : Config σ) : Config σ → Prop
  | goes {c'} (hs : (step H m c).Returns R (.ok none, c')) : Turn c c'
  | lands {c' t h rest} (hs : (step H m c).Returns R (.error t, c')) (hm : m.hasHandlers = true)
      (hh : c'.frame.handlers = h :: rest) :
      Turn c ⟨c'.frame.landing h rest t (caughtValue H t c'.world.heap).1,
        { c'.world with heap := (caughtValue H t c'.world.heap).2 }⟩

/-- The last turn. -/
inductive Ends (c : Config σ) : Except Thrown Value × World σ FnObject → Prop
  | answers {c' v} (hs : (step H m c).Returns R (.ok (some v), c')) : Ends c (.ok v, c'.world)
  | leaves {c' t} (hs : (step H m c).Returns R (.error t, c'))
      (hh : m.hasHandlers = false ∨ c'.frame.handlers = []) : Ends c (.error t, c'.world)

end Runs

theorem unwind_returns {t : Thrown} {c : Config σ} {a : Except Thrown Value × World σ FnObject} :
    (unwind H m t c).Returns R a ↔
      (∃ h rest, m.hasHandlers = true ∧ c.frame.handlers = h :: rest ∧
        R (.frame m (c.frame.landing h rest t (caughtValue H t c.world.heap).1)
          { c.world with heap := (caughtValue H t c.world.heap).2 }) a) ∨
      (m.hasHandlers = false ∨ c.frame.handlers = []) ∧ a = (.error t, c.world) := by
  unfold unwind
  cases hm : m.hasHandlers with
  | false =>
    simp only [Comp.returns_pure]
    exact ⟨fun h => .inr ⟨.inl trivial, h.symm⟩, fun h => h.elim (by simp) fun h => h.2.symm⟩
  | true =>
    cases hh : c.frame.handlers with
    | nil =>
      simp only [Comp.returns_pure]
      exact ⟨fun h => .inr ⟨.inr trivial, h.symm⟩, fun h => h.elim (by simp) fun h => h.2.symm⟩
    | cons h rest =>
      refine Comp.returns_ask.trans ⟨fun hr => .inl ⟨h, rest, rfl, rfl, ?_⟩, ?_⟩
      · cases t <;> exact hr
      · rintro (⟨h', rest', -, heq, hr⟩ | ⟨hno | hno, -⟩)
        · cases heq
          cases t <;> exact hr
        · cases hno
        · cases hno

/-- The interpreter runs a frame turn by turn. -/
theorem vm_frame_returns {a : Except Thrown Value × World σ FnObject} :
    (vm H (.frame m f w)).Returns R a ↔
      (∃ c, Turn H m R ⟨f, w⟩ c ∧ R (.frame m c.frame c.world) a) ∨ Ends H m R ⟨f, w⟩ a := by
  refine Comp.returns_bind.trans ⟨?_, ?_⟩
  · rintro ⟨⟨t | _ | v, c⟩, hs, h⟩
    · rcases unwind_returns.mp h with ⟨h', rest, hm, hh, hr⟩ | ⟨hh, rfl⟩
      · exact .inl ⟨_, .lands hs hm hh, hr⟩
      · exact .inr (.leaves hs hh)
    · exact .inl ⟨c, .goes hs, Comp.returns_ask.mp h⟩
    · cases h
      exact .inr (.answers hs)
  · rintro (⟨c, hturn, hr⟩ | hend)
    · cases hturn with
      | goes hs => exact ⟨_, hs, Comp.returns_ask.mpr hr⟩
      | lands hs hm hh => exact ⟨_, hs, unwind_returns.mpr (.inl ⟨_, _, hm, hh, hr⟩)⟩
    · cases hend with
      | answers hs => exact ⟨_, hs, rfl⟩
      | leaves hs hh => exact ⟨_, hs, unwind_returns.mpr (.inr ⟨hh, rfl⟩)⟩

section Answers
variable {R' : (q : Query σ) → q.Answer → Prop} (hR : ∀ q b, R q b → R' q b)
include hR

theorem Turn.mono {c c' : Config σ} (h : Turn H m R c c') : Turn H m R' c c' := by
  cases h with
  | goes hs => exact .goes (hs.mono hR)
  | lands hs hm hh => exact .lands (hs.mono hR) hm hh

theorem Ends.mono {c : Config σ} {a : Except Thrown Value × World σ FnObject} (h : Ends H m R c a) :
    Ends H m R' c a := by
  cases h with
  | answers hs => exact .answers (hs.mono hR)
  | leaves hs hh => exact .leaves (hs.mono hR) hh

end Answers

/-- What a frame answers is how a run of turns ends. -/
theorem answers_run {a : Except Thrown Value × World σ FnObject} (h : (vm H).Answers (.frame m f w) a) :
    ∃ c, Relation.ReflTransGen (Turn H m (vm H).Answers) ⟨f, w⟩ c ∧ Ends H m (vm H).Answers c a := by
  have hall : ∀ {q : Query σ} {a : q.Answer}, (vm H).Answers q a → ∀ m f w, q = .frame m f w →
      ∃ c, Relation.ReflTransGen (Turn H m (vm H).Answers) ⟨f, w⟩ c ∧ Ends H m (vm H).Answers c a := by
    intro q a h
    refine Program.Answers.induct (motive := fun q a => ∀ m f w, q = .frame m f w →
      ∃ c, Relation.ReflTransGen (Turn H m (vm H).Answers) ⟨f, w⟩ c ∧ Ends H m (vm H).Answers c a)
      (fun q a hr m f w hq => ?_) h
    subst hq
    rcases vm_frame_returns.mp hr with ⟨c, hturn, -, ih⟩ | hend
    · obtain ⟨c', hrun, hend⟩ := ih m c.frame c.world rfl
      exact ⟨c', .head (hturn.mono fun _ _ h => h.1) hrun, hend⟩
    · exact ⟨_, .refl, hend.mono fun _ _ h => h.1⟩
  exact hall h m f w rfl

theorem step_done {c : Config σ} (hc : m.code[c.frame.ip]? = none) :
    step H m c = .done (.ok (some (c.frame.stack.headD .nil)), c) := by
  simp only [step, Effect.get_bind, hc]
  rfl

theorem step_ret {c : Config σ} (hc : m.code[c.frame.ip]? = some ⟨.ret, n⟩) :
    step H m c = .done (.ok (some (c.frame.stack.headD .nil)), { c with frame := c.frame.next }) := by
  simp only [step, Effect.get_bind, hc]
  rfl

/-- A turn that is not the last performs an instruction. -/
theorem step_performs {c c' : Config σ} {r : Except Thrown (Option Value)}
    (hs : (step H m c).Returns R (r, c')) (hr : ∀ v, r ≠ .ok (some v)) :
    ∃ i, m.code[c.frame.ip]? = some i ∧
      ((r = .ok none ∧ GoesOn m c.frame () c') ∨ ∃ t, r = .error t ∧ Stops m i c.frame t c') := by
  cases hc : m.code[c.frame.ip]? with
  | none =>
    rw [step_done hc] at hs
    cases hs
    exact absurd rfl (hr _)
  | some i =>
    obtain ⟨op, n⟩ := i
    by_cases hop : op = .ret
    · rw [hop] at hc
      rw [step_ret hc] at hs
      cases hs
      exact absurd rfl (hr _)
    · refine ⟨_, rfl, ?_⟩
      rw [show c = ⟨c.frame, c.world⟩ from rfl, step_of_perform hc hop] at hs
      rcases Effect.returns_bind.mp hs with ⟨_, c₁, hp, hd⟩ | ⟨t, hp, rfl⟩
      · obtain ⟨rfl, rfl⟩ := Effect.returns_pure.mp hd
        exact .inl ⟨rfl, (performs hop hc).1 _ _ hp⟩
      · exact .inr ⟨t, rfl, (performs hop hc).2 t _ hp⟩

/-- Inside the code a frame ends with a value at a `RETURN` only, and the value is what the stack has. -/
theorem Ends.of_ok {c : Config σ} {v : Value} {w' : World σ FnObject} (h : Ends H m R c (.ok v, w'))
    (hin : c.frame.ip < m.code.length) :
    ∃ n, m.code[c.frame.ip]? = some ⟨.ret, n⟩ ∧ v = c.frame.stack.headD .nil := by
  obtain ⟨op, n, hc⟩ : ∃ op n, m.code[c.frame.ip]? = some ⟨op, n⟩ := ⟨_, _, List.getElem?_eq_getElem hin⟩
  cases h with
  | answers hs =>
    by_cases hop : op = .ret
    · subst hop
      rw [step_ret hc] at hs
      cases hs
      exact ⟨n, hc, rfl⟩
    · rw [show c = ⟨c.frame, c.world⟩ from rfl, step_of_perform hc hop] at hs
      rcases Effect.returns_bind.mp hs with ⟨_, c₁, -, hd⟩ | ⟨t, -, heq⟩
      · cases (Effect.returns_pure.mp hd).1
      · cases heq

theorem landing_shape (h : TryHandler) (rest : List TryHandler) (t : Thrown) (v : Value) :
    (f.landing h rest t v).shape = ⟨h.target, min f.stack.length h.sp + 1, rest⟩ := by
  simp only [Frame.landing, Frame.shape, List.length_cons, List.length_drop, Shape.mk.injEq, and_true,
    true_and]
  omega

/-- A turn changes the shape as its instruction may. -/
theorem Turn.shape {c c' : Config σ} (h : Turn H m R c c') :
    Shape.Step m c.frame.shape c'.frame.shape := by
  cases h with
  | goes hs =>
    obtain ⟨i, -, ⟨-, hgo⟩ | ⟨t, ht, -⟩⟩ := step_performs hs (by simp)
    · exact hgo
    · cases ht
  | @lands c₁ t h rest hs hm hh =>
    obtain ⟨i, hc, ⟨hok, -⟩ | ⟨t, -, hkeep, hlen⟩⟩ := step_performs hs (by simp)
    · cases hok
    · have hland := Shape.Step.land (s := c.frame.shape) hc (hkeep.symm.trans hh) hlen
      show Shape.Step m c.frame.shape (c₁.frame.landing h rest _ _).shape
      rw [landing_shape]
      exact hland

theorem turns_shape {c c' : Config σ} (h : Relation.ReflTransGen (Turn H m R) c c') :
    Relation.ReflTransGen (Shape.Step m) c.frame.shape c'.frame.shape := by
  induction h with
  | refl => exact .refl
  | tail _ ht ih => exact ih.tail ht.shape

end Vm

end ProtoClojure
