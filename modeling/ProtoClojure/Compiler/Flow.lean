import ProtoClojure.Compiler.Placement
import ProtoClojure.Runtime.StackBound

/-! The height of the operand stack and the handlers before each instruction of a tree of code:
where control can get, there is one answer for every way that leads there. -/
namespace ProtoClojure
open Vm
open BytecodeModule (fallsThrough)

/-- What lies on the stack and which handlers are set up before an instruction. -/
structure Label where
  height : Nat
  handlers : List TryHandler

/-- What the innermost handler leaves on the stack. -/
def handlerFloor : List TryHandler → Nat
  | [] => 0
  | h :: _ => h.sp

/-- An instruction that falls through to the next one or ends the frame, and leaves the handlers. -/
def Instr.straight (w : Instr) : Bool :=
  match w.op with
  | .jump | .jumpIfFalse | .jumpIfTrue | .jumpBack | .tryBegin | .tryEnd | .callMember => false
  | _ => true

/-- The operand is in range: a constant of the kind, a slot of the frame, a block with `P`. -/
def Instr.Usable (P : BytecodeModule → Prop) (m : BytecodeModule) (w : Instr) : Prop :=
  match w.op with
  | .pushConst => ∃ c, m.consts[w.operand]? = some c
  | .pushVar | .storeGlobal | .getMember | .excMatchType | .resolveClass =>
    ∃ s, m.consts[w.operand]? = some (.symbol s)
  | .makeFn => ∃ b, m.blocks[w.operand]? = some b ∧ P b
  | .makeFnMulti =>
    ∃ group, m.arityGroups[w.operand]? = some group ∧ ∀ i ∈ group, ∃ b, m.blocks[i]? = some b ∧ P b
  | .pushLocal | .pushLocalClear | .storeLocal | .rethrow => w.operand < m.arity + m.localCount
  | .storeCaught => w.operand < m.arity + m.localCount ∧ m.hasHandlers = true
  | .tryBegin => m.hasHandlers = true
  | _ => True

section
variable (P : BytecodeModule → Prop) (m : BytecodeModule)

/-- `Flows L p hs d c d' ds`: control enters the code `c` at `p` with `d` values on the stack and
the handlers `hs`, and gets past it with `d'` (`none`: not at all); `L` is the height where its loop
starts, `ds` what holds before each of its instructions. -/
inductive Flows : Option Nat → Nat → List TryHandler → Option Nat → Code → Option Nat →
    List (Option Label) → Prop
  | dead {L p hs c} : Flows L p hs none c none (List.replicate c.len none)
  | weaken {L p hs d c x ds} (hn : handlerFloor hs ≤ x) (h : Flows L p hs d c none ds) :
      Flows L p hs d c (some x) ds
  | nil {L p hs d} : Flows L p hs (some d) .nil (some d) []
  | ins {L p hs d w} (hu : w.Usable P m) (hp : w.straight = true) (hf : fallsThrough w.op = true)
      (hn : w.takes m + handlerFloor hs ≤ d) :
      Flows L p hs (some d) (.ins w) (some (d - w.takes m + w.gives)) [some ⟨d, hs⟩]
  | stop {L p hs d w} (hu : w.Usable P m) (hp : w.straight = true) (hf : fallsThrough w.op = false)
      (hn : w.takes m + handlerFloor hs ≤ d) :
      Flows L p hs (some d) (.ins w) none [some ⟨d, hs⟩]
  | member {L p hs d argc i s} (hi : m.consts[i]? = some (.symbol s))
      (hn : argc + 1 + handlerFloor hs ≤ d) :
      Flows L p hs (some d) (.member argc i) (some (d - argc)) [some ⟨d, hs⟩, some ⟨d - argc, hs⟩]
  | seq {L p hs d d₁ d' a b xs ys} (ha : Flows L p hs d a d₁ xs)
      (hb : Flows L (p + a.len) hs d₁ b d' ys) : Flows L p hs d (.seq a b) d' (xs ++ ys)
  | skipIf {L p hs d op a xs} (hop : op = .jumpIfFalse ∨ op = .jumpIfTrue)
      (hn : 1 + handlerFloor hs ≤ d) (ha : Flows L (p + 1) hs (some (d - 1)) a (some (d - 1)) xs) :
      Flows L p hs (some d) (.skipIf op a) (some (d - 1)) (some ⟨d, hs⟩ :: xs)
  | branch {L p hs d d' a b xs ys} (hn : 1 + handlerFloor hs ≤ d)
      (ha : Flows L (p + 1) hs (some (d - 1)) a d' xs)
      (hb : Flows L (p + a.len + 2) hs (some (d - 1)) b d' ys) :
      Flows L p hs (some d) (.branch a b) d' (some ⟨d, hs⟩ :: (xs ++ d'.map (⟨·, hs⟩) :: ys))
  | loop {L p hs d d' body xs} (h : Flows (some d) p hs (some d) body d' xs) :
      Flows L p hs (some d) (.loop body) d' xs
  | recur {p hs d} (hn : handlerFloor hs ≤ d) :
      Flows (some d) p hs (some d) .recur none [some ⟨d, hs⟩]
  | protect {L p hs d d₁ d' t body after handler xs ys zs} (hm : m.hasHandlers = true)
      (hn : handlerFloor hs ≤ d) (ht : t = p + body.len + after.len + 3)
      (hb : Flows none (p + 1) (⟨t, d⟩ :: hs) (some d) body d₁ xs) (hd : ∀ x, d₁ = some x → d ≤ x)
      (ha : Flows none (p + body.len + 2) hs d₁ after d' ys)
      (hh : Flows none t hs (some (d + 1)) handler d' zs) :
      Flows L p hs (some d) (.protect body after handler) d'
        (some ⟨d, hs⟩ :: (xs ++ d₁.map (⟨·, ⟨t, d⟩ :: hs⟩) ::
          (ys ++ d'.map (⟨·, hs⟩) :: zs)))

end

/-! ### Labels of a module's code -/

/-- A handler is entered with what was on the stack and the exception. -/
def Lands (lab : Nat → Option Label) : List TryHandler → Prop
  | [] => True
  | h :: rest => lab h.target = some ⟨h.sp + 1, rest⟩ ∧ handlerFloor rest ≤ h.sp ∧ Lands lab rest

/-- An instruction finds what it needs and leads to places that are labelled for it, none after
the place `e`. -/
structure Fitting (P : BytecodeModule → Prop) (m : BytecodeModule) (lab : Nat → Option Label)
    (e i : Nat) (w : Instr) (l : Label) : Prop where
  usable : w.Usable P m
  takes : w.takes m + handlerFloor l.handlers ≤ l.height
  next : fallsThrough w.op = true → i + 1 ≤ e ∧
    lab (i + 1) = some ⟨l.height - w.takes m + w.gives, w.handlersAfter ⟨i, l.height, l.handlers⟩⟩
  data : w.op = .callMember → ∃ n s, m.code[i + 1]? = some ⟨.nop, n⟩ ∧ m.consts[n]? = some (.symbol s)
  target : ∀ t, w.target i = some t →
    t ≤ e ∧ lab t = some ⟨l.height - w.takes m + w.gives, l.handlers⟩
  entry : w.op = .tryBegin →
    i + 1 + w.operand ≤ e ∧ lab (i + 1 + w.operand) = some ⟨l.height + 1, l.handlers⟩
  popped : w.op = .tryEnd → l.handlers ≠ []
  lands : Lands lab l.handlers

/-- The labels from `p` on. -/
def Lays (lab : Nat → Option Label) (p : Nat) (ds : List (Option Label)) : Prop :=
  ∀ i l, ds[i]? = some l → lab (p + i) = l

namespace Lays
variable {lab : Nat → Option Label} {p : Nat} {l : Option Label} {xs ys : List (Option Label)}

theorem left (h : Lays lab p (xs ++ ys)) : Lays lab p xs := fun i l hi =>
  h i l (by rw [List.getElem?_append_left (List.getElem?_eq_some_iff.mp hi).1, hi])

theorem right (h : Lays lab p (xs ++ ys)) : Lays lab (p + xs.length) ys := fun i l hi => by
  rw [Nat.add_assoc]
  exact h (xs.length + i) l (by
    rw [List.getElem?_append_right (Nat.le_add_right ..), Nat.add_sub_cancel_left, hi])

theorem head (h : Lays lab p (l :: xs)) : lab p = l := h 0 l rfl

theorem tail (h : Lays lab p (l :: xs)) : Lays lab (p + 1) xs :=
  right (show Lays lab p ([l] ++ xs) from h)

theorem head_eq {x y : Label} (h : Lays lab p (some x :: xs)) (hy : lab p = some y) : y = x :=
  Option.some.inj (hy.symm.trans h.head)

/-- A labelled place that control may come to is one it comes to. -/
theorem head_map {d : Option Nat} {hs : List TryHandler} {y : Label} (h : Lays lab p (d.map (⟨·, hs⟩) :: xs))
    (hy : lab p = some y) : ∃ x, d = some x ∧ y = ⟨x, hs⟩ := by
  obtain ⟨x, hx, rfl⟩ := Option.map_eq_some_iff.mp (h.head.symm.trans hy)
  exact ⟨x, hx, rfl⟩

end Lays

variable {P : BytecodeModule → Prop} {m : BytecodeModule}

theorem Flows.length {L : Option Nat} {p : Nat} {hs : List TryHandler} {d d' : Option Nat} {c : Code}
    {ds : List (Option Label)} (h : Flows P m L p hs d c d' ds) : ds.length = c.len := by
  induction h with
  | dead => exact List.length_replicate
  | weaken _ _ ih => exact ih
  | nil | ins | stop | member | recur => rfl
  | seq _ _ iha ihb => rw [List.length_append, iha, ihb, Code.len]
  | skipIf _ _ _ ih => rw [List.length_cons, ih, Code.len]
  | branch _ _ _ iha ihb =>
    simp only [List.length_cons, List.length_append, iha, ihb, Code.len]
    omega
  | loop _ ih => exact ih
  | protect _ _ _ _ _ _ _ ihb iha ihh =>
    simp only [List.length_cons, List.length_append, ihb, iha, ihh, Code.len]
    omega

/-- The first label is the one control enters with. -/
theorem Flows.entry {L : Option Nat} {p x : Nat} {hs : List TryHandler} {d d' : Option Nat} {c : Code}
    {ds : List (Option Label)} (h : Flows P m L p hs d c d' ds) (hd : d = some x) :
    ds[0]? = some (some ⟨x, hs⟩) ∨ (ds = [] ∧ d' = some x) := by
  induction h with
  | dead => cases hd
  | weaken _ _ ih =>
    refine (ih hd).imp_right ?_
    rintro ⟨-, hno⟩
    cases hno
  | nil => exact .inr ⟨rfl, hd⟩
  | ins | stop | member | skipIf | branch | recur | protect =>
    cases hd
    exact .inl rfl
  | @seq L p hs d d₁ d' a b xs ys _ _ iha ihb =>
    rcases iha hd with hx | ⟨rfl, hd₁⟩
    · refine .inl ?_
      rw [List.getElem?_append_left (List.getElem?_eq_some_iff.mp hx).1, hx]
    · exact ihb hd₁
  | loop _ ih => exact ih hd

/-- Nothing under the innermost handler's height is taken. -/
theorem Flows.floor {L : Option Nat} {p : Nat} {hs : List TryHandler} {d d' : Option Nat} {c : Code}
    {ds : List (Option Label)} (h : Flows P m L p hs d c d' ds)
    (hd : ∀ x, d = some x → handlerFloor hs ≤ x) : ∀ y, d' = some y → handlerFloor hs ≤ y := by
  induction h with
  | dead | stop | recur => exact fun y hy => by cases hy
  | weaken hn => exact fun y hy => by cases hy; exact hn
  | nil => exact hd
  | ins _ _ _ hn => exact fun y hy => by cases hy; omega
  | member _ hn => exact fun y hy => by cases hy; omega
  | seq _ _ iha ihb => exact ihb (iha hd)
  | skipIf _ hn => exact fun y hy => by cases hy; omega
  | branch hn _ _ iha => exact iha fun x hx => by cases hx; omega
  | loop _ ih => exact ih hd
  | protect _ hn _ _ hle _ _ _ iha => exact iha fun x hx => hn.trans (hle x hx)

theorem Flows.lab_start {lab : Nat → Option Label} {L : Option Nat} {p x : Nat} {hs : List TryHandler}
    {d' : Option Nat} {c : Code} {ds : List (Option Label)} (h : Flows P m L p hs (some x) c d' ds)
    (hl : Lays lab p ds) (hx : ∀ y, d' = some y → lab (p + c.len) = some ⟨y, hs⟩) :
    lab p = some ⟨x, hs⟩ := by
  rcases h.entry rfl with h0 | ⟨rfl, hd'⟩
  · exact hl 0 _ h0
  · have hlen : 0 = c.len := h.length
    have hend := hx x hd'
    rwa [← hlen] at hend

/-- An instruction but a read, which may have become a clearing one, is as it was laid out. -/
theorem at_ins {code : List Instr} {p k : Nat} {w : Instr} (h : Code.At code p k (.ins w)) :
    ∃ w', code[p]? = some w' ∧ w.ClearedTo w' := h 0 w rfl

section Cleared
variable {w w' : Instr} (h : w.ClearedTo w')
include h

theorem cleared_cases : w' = w ∨ ∃ n, w = ⟨.pushLocal, n⟩ ∧ w' = ⟨.pushLocalClear, n⟩ := by
  rcases h with rfl | ⟨hop, rfl⟩
  · exact .inl rfl
  · obtain ⟨op, n⟩ := w
    cases hop
    exact .inr ⟨n, rfl, rfl⟩

theorem takes_cleared : w'.takes m = w.takes m := by
  obtain rfl | ⟨n, rfl, rfl⟩ := cleared_cases h <;> rfl

theorem gives_cleared : w'.gives = w.gives := by
  obtain rfl | ⟨n, rfl, rfl⟩ := cleared_cases h <;> rfl

theorem usable_cleared (hu : w.Usable P m) : w'.Usable P m := by
  obtain rfl | ⟨n, rfl, rfl⟩ := cleared_cases h <;> exact hu

theorem straight_cleared : w'.straight = w.straight := by
  obtain rfl | ⟨n, rfl, rfl⟩ := cleared_cases h <;> rfl

theorem fallsThrough_cleared : fallsThrough w'.op = fallsThrough w.op := by
  obtain rfl | ⟨n, rfl, rfl⟩ := cleared_cases h <;> rfl

end Cleared

theorem straight_target {w : Instr} (h : w.straight = true) (i : Nat) : w.target i = none := by
  obtain ⟨op, n⟩ := w
  cases op <;> first | rfl | cases h

theorem straight_handlers {w : Instr} (h : w.straight = true) (s : Shape) :
    w.handlersAfter s = s.handlers := by
  obtain ⟨op, n⟩ := w
  cases op <;> first | rfl | cases h

variable {lab : Nat → Option Label} {e i x : Nat} {hs : List TryHandler}

/-- A straight instruction fits where its successor, if any, is labelled for it. -/
theorem fitting_straight {w w' : Instr} (hw : w.ClearedTo w') (hu : w.Usable P m)
    (hp : w.straight = true) (hn : w.takes m + handlerFloor hs ≤ x)
    (hnext : fallsThrough w.op = true →
      i + 1 ≤ e ∧ lab (i + 1) = some ⟨x - w.takes m + w.gives, hs⟩) (hlands : Lands lab hs) :
    Fitting P m lab e i w' ⟨x, hs⟩ := by
  have hp' := (straight_cleared hw).trans hp
  refine ⟨usable_cleared hw hu, by rwa [takes_cleared hw], fun hf => ?_, fun hop => ?_, fun t ht => ?_,
    fun hop => ?_, fun hop => ?_, hlands⟩
  · rw [fallsThrough_cleared hw] at hf
    rw [takes_cleared hw, gives_cleared hw, straight_handlers hp']
    exact hnext hf
  · rw [Instr.straight, hop] at hp'
    cases hp'
  · rw [straight_target hp'] at ht
    cases ht
  · rw [Instr.straight, hop] at hp'
    cases hp'
  · rw [Instr.straight, hop] at hp'
    cases hp'

/-- A conditional jump fits where both ways are labelled for it. -/
theorem fitting_jumpIf {op : Op} {n : Nat} (hop : op = .jumpIfFalse ∨ op = .jumpIfTrue)
    (hn : 1 + handlerFloor hs ≤ x) (hnext : i + 1 ≤ e ∧ lab (i + 1) = some ⟨x - 1, hs⟩)
    (htarget : i + 1 + n ≤ e ∧ lab (i + 1 + n) = some ⟨x - 1, hs⟩) (hlands : Lands lab hs) :
    Fitting P m lab e i ⟨op, n⟩ ⟨x, hs⟩ := by
  rcases hop with rfl | rfl <;>
    exact ⟨trivial, hn, fun _ => hnext, by simp, fun t ht => by cases ht; exact htarget, by simp,
      by simp, hlands⟩

theorem fitting_jump {n : Nat} (hn : handlerFloor hs ≤ x)
    (htarget : i + 1 + n ≤ e ∧ lab (i + 1 + n) = some ⟨x, hs⟩) (hlands : Lands lab hs) :
    Fitting P m lab e i ⟨.jump, n⟩ ⟨x, hs⟩ :=
  ⟨trivial, by simpa [Instr.takes] using hn, by simp [fallsThrough], by simp,
    fun t ht => by cases ht; exact htarget, by simp, by simp, hlands⟩

theorem fitting_nop {n : Nat} (hn : handlerFloor hs ≤ x)
    (hnext : i + 1 ≤ e ∧ lab (i + 1) = some ⟨x, hs⟩) (hlands : Lands lab hs) :
    Fitting P m lab e i ⟨.nop, n⟩ ⟨x, hs⟩ :=
  fitting_straight (.inl rfl) trivial rfl (by simpa [Instr.takes] using hn) (fun _ => hnext) hlands

/-- Where control can get, every instruction of the code fits. -/
theorem Flows.fitting {L : Option Nat} {p k : Nat} {hs : List TryHandler} {d d' : Option Nat} {c : Code}
    {ds : List (Option Label)} (h : Flows P m L p hs d c d' ds) (ha : Code.At m.code p k c)
    (hk : k ≤ p) (hl : Lays lab p ds) (hx : ∀ x, d' = some x → lab (p + c.len) = some ⟨x, hs⟩)
    (hL : ∀ x, L = some x → lab (p - k) = some ⟨x, hs⟩) (he : p + c.len ≤ e) (hlands : Lands lab hs)
    {w : Instr} {l : Label} (hp : p ≤ i) (hi : i < p + c.len) (hw : m.code[i]? = some w)
    (hlab : lab i = some l) : Fitting P m lab e i w l := by
  induction h generalizing k with
  | @dead L p hs c =>
    have hnone := hl (i - p) none (by
      rw [List.getElem?_replicate, if_pos (by omega)])
    rw [show p + (i - p) = i by omega, hlab] at hnone
    cases hnone
  | weaken _ _ ih => exact ih ha hk hl (fun x hx' => by cases hx') hL he hlands hp hi
  | nil => exact absurd hi (by simp only [Code.len]; omega)
  | @ins L p hs d w₀ hu hs' hf hn =>
    obtain ⟨w', hw', hcl⟩ := at_ins ha
    obtain rfl : i = p := by simp only [Code.len] at hi; omega
    rw [hw] at hw'
    cases hw'
    obtain rfl := hl.head_eq hlab
    exact fitting_straight hcl hu hs' hn (fun _ => ⟨he, hx _ rfl⟩) hlands
  | @stop L p hs d w₀ hu hs' hf hn =>
    obtain ⟨w', hw', hcl⟩ := at_ins ha
    obtain rfl : i = p := by simp only [Code.len] at hi; omega
    rw [hw] at hw'
    cases hw'
    obtain rfl := hl.head_eq hlab
    exact fitting_straight hcl hu hs' hn (fun hf' => by rw [hf] at hf'; cases hf') hlands
  | @seq L p hs d d₁ d' a b xs ys hfa hfb iha ihb =>
    obtain ⟨haa, hab⟩ := ha.seq
    have hlen := hfa.length
    have hlr := hl.right
    rw [hlen] at hlr
    simp only [Code.len] at hx hi he
    have hx' : ∀ y, d' = some y → lab (p + a.len + b.len) = some ⟨y, hs⟩ := fun y hy => by
      rw [Nat.add_assoc]
      exact hx y hy
    by_cases hia : i < p + a.len
    · refine iha haa hk hl.left (fun y hy => ?_) hL (by omega) hlands hp hia
      subst hy
      exact hfb.lab_start hlr hx'
    · refine ihb hab (by omega) hlr hx' (fun y hy => ?_) (by omega) hlands (by omega) (by omega)
      rw [Nat.add_sub_add_right]
      exact hL y hy
  | @skipIf L p hs d op a xs hop hn hfa iha =>
    obtain ⟨hins, haa⟩ := ha.skipIf (by rcases hop with rfl | rfl <;> decide)
    simp only [Code.len] at hx hi he
    have hend : lab (p + 1 + a.len) = some ⟨d - 1, hs⟩ := by
      rw [Nat.add_right_comm]
      exact hx _ rfl
    have hstart := hfa.lab_start hl.tail fun y hy => by cases hy; exact hend
    by_cases hip : i = p
    · subst hip
      rw [hins] at hw
      cases hw
      obtain rfl := hl.head_eq hlab
      exact fitting_jumpIf hop hn ⟨by omega, hstart⟩ ⟨by omega, hend⟩ hlands
    · refine iha haa (by omega) hl.tail (fun y hy => by cases hy; exact hend) (fun y hy => ?_) (by omega)
        hlands (by omega) (by omega)
      rw [Nat.add_sub_add_right]
      exact hL y hy
  | loop h ih =>
    exact ih ha.loop (Nat.zero_le _) hl hx (fun y hy => by cases hy; exact h.lab_start hl hx) he hlands
      hp hi
  | @recur p hs d hn =>
    obtain rfl : i = p := by simp only [Code.len] at hi; omega
    rw [ha.recur] at hw
    cases hw
    obtain rfl := hl.head_eq hlab
    refine ⟨trivial, by simpa [Instr.takes] using hn, by simp [fallsThrough], by simp, fun t ht => ?_,
      by simp, by simp, hlands⟩
    have htarget : Instr.target ⟨.jumpBack, k + 1⟩ i = some (i - k) := by
      simp only [Instr.target, if_pos (show k + 1 ≤ i + 1 by omega)]
      congr 1
      omega
    rw [htarget] at ht
    cases ht
    exact ⟨by omega, hL d rfl⟩
  | @member L p hs d argc n s hi' hn =>
    obtain ⟨hcall, hdata⟩ := ha.member
    simp only [Code.len] at hx hi he
    have hnop := hl.tail.head
    by_cases hip : i = p
    · subst hip
      rw [hcall] at hw
      cases hw
      obtain rfl := hl.head_eq hlab
      have htakes : Instr.takes m ⟨.callMember, argc⟩ = argc + 1 := rfl
      refine ⟨trivial, hn, fun _ => ⟨by omega, ?_⟩, fun _ => ⟨n, s, hdata, hi'⟩, by simp [Instr.target],
        by simp, by simp, hlands⟩
      rw [hnop, htakes]
      congr 2
      show d - argc = d - (argc + 1) + 1
      omega
    · obtain rfl : i = p + 1 := by omega
      rw [hdata] at hw
      cases hw
      rw [hlab] at hnop
      cases hnop
      exact fitting_nop (by omega) ⟨he, hx _ rfl⟩ hlands
  | @branch L p hs d d' a b xs ys hn hfa hfb iha ihb =>
    obtain ⟨hjump, haa, hskip, hab⟩ := ha.branch
    simp only [Code.len] at hx hi he
    have hlr := hl.tail.right
    rw [hfa.length] at hlr
    have hlb : Lays lab (p + a.len + 2) ys := by
      have h := hlr.tail
      rwa [show p + 1 + a.len + 1 = p + a.len + 2 by omega] at h
    have hxa : ∀ y, d' = some y → lab (p + 1 + a.len) = some ⟨y, hs⟩ := fun y hy => by
      rw [hlr.head, hy]
      rfl
    have hxb : ∀ y, d' = some y → lab (p + a.len + 2 + b.len) = some ⟨y, hs⟩ := fun y hy => by
      rw [show p + a.len + 2 + b.len = p + (a.len + b.len + 2) by omega]
      exact hx y hy
    by_cases hip : i = p
    · subst hip
      rw [hjump] at hw
      cases hw
      obtain rfl := hl.head_eq hlab
      refine fitting_jumpIf (.inl rfl) hn ⟨by omega, hfa.lab_start hl.tail.left hxa⟩ ⟨by omega, ?_⟩ hlands
      rw [show i + 1 + (a.len + 1) = i + a.len + 2 by omega]
      exact hfb.lab_start hlb hxb
    by_cases hia : i < p + 1 + a.len
    · refine iha haa (by omega) hl.tail.left hxa (fun y hy => ?_) (by omega) hlands (by omega) hia
      rw [Nat.add_sub_add_right]
      exact hL y hy
    by_cases hij : i = p + 1 + a.len
    · subst hij
      rw [hskip] at hw
      cases hw
      obtain ⟨y, hd', rfl⟩ := hlr.head_map hlab
      refine fitting_jump (hfa.floor (fun x hx' => by cases hx'; omega) y hd') ⟨by omega, ?_⟩ hlands
      rw [show p + 1 + a.len + 1 + b.len = p + a.len + 2 + b.len by omega]
      exact hxb y hd'
    · refine ihb hab (by omega) hlb hxb (fun y hy => ?_) (by omega) hlands (by omega) (by omega)
      rw [show p + a.len + 2 - (k + a.len + 2) = p - k by omega]
      exact hL y hy
  | @protect L p hs d d₁ d' t body after handler xs ys zs hm hn ht hfb hd hfa hfh ihb iha ihh =>
    obtain ⟨hbegin, hab, hend, haa, hskip, hah⟩ := ha.protect
    simp only [Code.len] at hx hi he
    have hl₁ := hl.tail.right
    rw [hfb.length] at hl₁
    have hla : Lays lab (p + body.len + 2) (ys ++ d'.map (⟨·, hs⟩) :: zs) := by
      have h := hl₁.tail
      rwa [show p + 1 + body.len + 1 = p + body.len + 2 by omega] at h
    have hl₂ := hla.right
    rw [hfa.length] at hl₂
    have hlh : Lays lab t zs := by
      have h := hl₂.tail
      rwa [show p + body.len + 2 + after.len + 1 = t by omega] at h
    have hxh : ∀ y, d' = some y → lab (t + handler.len) = some ⟨y, hs⟩ := fun y hy => by
      rw [show t + handler.len = p + (body.len + after.len + handler.len + 3) by omega]
      exact hx y hy
    have hxa : ∀ y, d' = some y → lab (p + body.len + 2 + after.len) = some ⟨y, hs⟩ := fun y hy => by
      rw [hl₂.head, hy]
      rfl
    have hxb : ∀ y, d₁ = some y → lab (p + 1 + body.len) = some ⟨y, ⟨t, d⟩ :: hs⟩ := fun y hy => by
      rw [hl₁.head, hy]
      rfl
    have hentry : lab t = some ⟨d + 1, hs⟩ := hfh.lab_start hlh hxh
    have hlands' : Lands lab (⟨t, d⟩ :: hs) := ⟨hentry, hn, hlands⟩
    by_cases hip : i = p
    · subst hip
      rw [hbegin] at hw
      cases hw
      obtain rfl := hl.head_eq hlab
      have htarget : i + 1 + (body.len + after.len + 2) = t := by omega
      refine ⟨hm, by simpa [Instr.takes] using hn, fun _ => ⟨by omega, ?_⟩, by simp, by simp [Instr.target],
        fun _ => ?_, by simp, hlands⟩
      · rw [hfb.lab_start hl.tail.left hxb, ← htarget]
        rfl
      · show i + 1 + (body.len + after.len + 2) ≤ e ∧ lab (i + 1 + (body.len + after.len + 2)) = _
        rw [htarget]
        exact ⟨by omega, hentry⟩
    by_cases hib : i < p + 1 + body.len
    · exact ihb hab (by omega) hl.tail.left hxb (fun y hy => by cases hy) (by omega) hlands' (by omega) hib
    by_cases hie : i = p + 1 + body.len
    · subst hie
      rw [hend] at hw
      cases hw
      obtain ⟨y, hd₁, rfl⟩ := hl₁.head_map hlab
      refine ⟨trivial, by simpa [Instr.takes, handlerFloor] using hd y hd₁, fun _ => ⟨by omega, ?_⟩, by simp,
        by simp [Instr.target], by simp, by simp, hlands'⟩
      subst hd₁
      rw [show p + 1 + body.len + 1 = p + body.len + 2 by omega]
      exact hfa.lab_start hla.left hxa
    by_cases hia : i < p + body.len + 2 + after.len
    · exact iha haa (by omega) hla.left hxa (fun y hy => by cases hy) (by omega) hlands (by omega) hia
    by_cases hij : i = p + body.len + 2 + after.len
    · subst hij
      rw [hskip] at hw
      cases hw
      obtain ⟨y, hd', rfl⟩ := hl₂.head_map hlab
      refine fitting_jump (hfh.floor (fun x hx' => by cases hx'; omega) y hd') ⟨by omega, ?_⟩ hlands
      rw [show p + body.len + 2 + after.len + 1 + handler.len = t + handler.len by omega]
      exact hxh y hd'
    · subst ht
      exact ihh hah (by omega) hlh hxh (fun y hy => by cases hy) (by omega) hlands (by omega) (by omega)

end ProtoClojure
