import ProtoClojure.Compiler.Clearing
import ProtoClojure.Compiler.Meaning

/-! Code where it lies in a module, and what the slots of a frame hold of a scope while it runs:
a slot may be empty once the one read that empties it is behind. -/
namespace ProtoClojure
open Meaning (Locals)

/-- The instructions `ws` lie in `code` from `p` on, some reads turned into clearing ones. -/
def Placed (code : List Instr) (p : Nat) (ws : List Instr) : Prop :=
  ∀ i w, ws[i]? = some w → ∃ w', code[p + i]? = some w' ∧ w.ClearedTo w'

namespace Placed
variable {code ws ws' : List Instr} {p : Nat} {w : Instr}

theorem left (h : Placed code p (ws ++ ws')) : Placed code p ws := by
  intro i w hw
  exact h i w (by rw [List.getElem?_append_left (List.getElem?_eq_some_iff.mp hw).1, hw])

theorem right (h : Placed code p (ws ++ ws')) : Placed code (p + ws.length) ws' := by
  intro i w hw
  obtain ⟨w', hc, hw'⟩ := h (ws.length + i) w (by
    rw [List.getElem?_append_right (Nat.le_add_right ..), Nat.add_sub_cancel_left, hw])
  exact ⟨w', by rw [Nat.add_assoc, hc], hw'⟩

theorem tail (h : Placed code p (w :: ws)) : Placed code (p + 1) ws := @right code [w] ws p h

theorem head (h : Placed code p (w :: ws)) : Placed code p [w] := @left code [w] ws p h

/-- An instruction but `PUSH_LOCAL` is left as it is. -/
theorem instr {op : Op} {n : Nat} (h : Placed code p (⟨op, n⟩ :: ws)) (ho : op ≠ .pushLocal) :
    code[p]? = some ⟨op, n⟩ := by
  obtain ⟨w', hc, rfl | ⟨hp, -⟩⟩ := h 0 _ rfl
  · exact hc
  · exact absurd hp ho

theorem read {slot : Nat} (h : Placed code p (⟨.pushLocal, slot⟩ :: ws)) :
    code[p]? = some ⟨.pushLocal, slot⟩ ∨ code[p]? = some ⟨.pushLocalClear, slot⟩ := by
  obtain ⟨w', hc, rfl | ⟨-, rfl⟩⟩ := h 0 _ rfl
  · exact .inl hc
  · exact .inr hc

end Placed

/-- The code of a tree lies at `p`, `k` instructions past the start of its loop. -/
def Code.At (code : List Instr) (p k : Nat) (c : Code) : Prop := Placed code p (c.flatten k)

namespace Code.At
variable {code : List Instr} {p k : Nat} {a b c : Code} {op : Op} {n : Nat}

theorem seq (h : At code p k (.seq a b)) : At code p k a ∧ At code (p + a.len) (k + a.len) b := by
  refine ⟨Placed.left h, ?_⟩
  have hr := Placed.right h
  rwa [flatten_length] at hr

theorem ins (h : At code p k (.ins ⟨op, n⟩)) (ho : op ≠ .pushLocal) : code[p]? = some ⟨op, n⟩ :=
  Placed.instr h ho

theorem member {argc sym : Nat} (h : At code p k (.member argc sym)) :
    code[p]? = some ⟨.callMember, argc⟩ ∧ code[p + 1]? = some ⟨.nop, sym⟩ :=
  ⟨Placed.instr h (by decide), Placed.instr (Placed.tail h) (by decide)⟩

theorem skipIf (h : At code p k (.skipIf op a)) (ho : op ≠ .pushLocal) :
    code[p]? = some ⟨op, a.len⟩ ∧ At code (p + 1) (k + 1) a := ⟨Placed.instr h ho, Placed.tail h⟩

theorem branch (h : At code p k (.branch a b)) :
    code[p]? = some ⟨.jumpIfFalse, a.len + 1⟩ ∧ At code (p + 1) (k + 1) a ∧
      code[p + 1 + a.len]? = some ⟨.jump, b.len⟩ ∧ At code (p + a.len + 2) (k + a.len + 2) b := by
  have ht := Placed.tail h
  have hr := Placed.right ht
  rw [flatten_length] at hr
  refine ⟨Placed.instr h (by decide), Placed.left ht, Placed.instr hr (by decide), ?_⟩
  have hb := Placed.tail hr
  rwa [show p + 1 + a.len + 1 = p + a.len + 2 by omega] at hb

theorem loop (h : At code p k (.loop a)) : At code p 0 a := h

theorem recur (h : At code p k .recur) : code[p]? = some ⟨.jumpBack, k + 1⟩ :=
  Placed.instr h (by decide)

theorem protect (h : At code p k (.protect a b c)) :
    code[p]? = some ⟨.tryBegin, a.len + b.len + 2⟩ ∧ At code (p + 1) (k + 1) a ∧
      code[p + 1 + a.len]? = some ⟨.tryEnd, 0⟩ ∧
      At code (p + a.len + 2) (k + a.len + 2) b ∧
      code[p + a.len + 2 + b.len]? = some ⟨.jump, c.len⟩ ∧
      At code (p + a.len + b.len + 3) (k + a.len + b.len + 3) c := by
  have ht := Placed.tail h
  have hr := Placed.right ht
  rw [flatten_length] at hr
  have hb := Placed.tail hr
  rw [show p + 1 + a.len + 1 = p + a.len + 2 by omega] at hb
  have hj := Placed.right hb
  rw [flatten_length] at hj
  have hc := Placed.tail hj
  rw [show p + a.len + 2 + b.len + 1 = p + a.len + b.len + 3 by omega] at hc
  exact ⟨Placed.instr h (by decide), Placed.left ht, Placed.instr hr (by decide),
    Placed.left hb, Placed.instr hj (by decide), hc⟩

theorem block {ws : List Instr} (h : At code p k (.block ws)) : Placed code p ws := by
  unfold At at h
  rwa [flatten_block] at h

end Code.At

/-! ### Cleared slots -/

def Clears (code : List Instr) (r slot : Nat) : Prop := code[r]? = some ⟨.pushLocalClear, slot⟩

/-- No read before `p` empties the slot. -/
def Unread (code : List Instr) (p slot : Nat) : Prop := ∀ r, Clears code r slot → p ≤ r

/-- From `p` to `q` the slots of bindings around are left alone, but for those emptied there. -/
def Kept (T : Tables) (code : List Instr) (p q lo : Nat) (l l' : Nat → Option Value) : Prop :=
  ∀ s, s < lo ∨ T.Captures s → l' s = l s ∨ ∃ r, p ≤ r ∧ r < q ∧ Clears code r s

theorem Kept.refl {T : Tables} {code : List Instr} {p q lo : Nat} (l : Nat → Option Value) :
    Kept T code p q lo l l := fun _ _ => .inl rfl

theorem Kept.trans {T : Tables} {code : List Instr} {p q q' lo lo' : Nat}
    {l l₁ l₂ : Nat → Option Value} (h : Kept T code p q lo l l₁) (h' : Kept T code q q' lo' l₁ l₂)
    (hp : p ≤ q) (hq : q ≤ q') (hl : lo ≤ lo') : Kept T code p q' lo l l₂ := by
  intro s hs
  rcases h' s (hs.imp_left hl.trans_lt') with h₂ | ⟨r, hr, hr', hc⟩
  · rcases h s hs with h₁ | ⟨r, hr, hr', hc⟩
    · exact .inl (h₂.trans h₁)
    · exact .inr ⟨r, hr, hr'.trans_le hq, hc⟩
  · exact .inr ⟨r, hp.trans hr, hr', hc⟩

theorem Kept.weaken {T : Tables} {code : List Instr} {p p' q q' lo lo' : Nat}
    {l l' : Nat → Option Value} (h : Kept T code p q lo l l') (hp : p' ≤ p) (hq : q ≤ q')
    (hl : lo' ≤ lo) : Kept T code p' q' lo' l l' := by
  intro s hs
  rcases h s (hs.imp_left fun hs => hs.trans_le hl) with h | ⟨r, hr, hr', hc⟩
  · exact .inl h
  · exact .inr ⟨r, hp.trans hr, hr'.trans_le hq, hc⟩

/-- A slot of a new binding is set. -/
theorem Kept.set {T : Tables} {code : List Instr} {p q lo slot : Nat} (l : Nat → Option Value)
    (v : Option Value) (hs : lo ≤ slot) (hc : ¬ T.Captures slot) :
    Kept T code p q lo l (Function.update l slot v) := by
  intro s hs'
  refine .inl (Function.update_of_ne ?_ _ _)
  rintro rfl
  rcases hs' with h | h
  · omega
  · exact hc h

/-! ### Scopes and slots -/

/-- With the code from `p` on still to come, the slots hold what the scope says. -/
structure Agrees (T : Tables) (code : List Instr) (β : Names) (ρ : Locals) (lo p : Nat)
    (l : Nat → Option Value) : Prop where
  sees : ∀ x, T.sees β x = (ρ.lookup x).isSome
  below : ∀ x s, β.lookup x = some s → s < lo
  holds : ∀ x s, T.slotOf β x = some s → ∃ v, ρ.lookup x = some v ∧ (Unread code p s → l s = some v)

namespace Agrees
variable {T : Tables} {code : List Instr} {β : Names} {ρ : Locals} {lo p q : Nat}
  {l l' : Nat → Option Value}

/-- The slot of a name is one of a binding around, or of a capture. -/
theorem slot_lt (h : Agrees T code β ρ lo p l) {x : String} {s : Nat} (hs : T.slotOf β x = some s) :
    s < lo ∨ T.Captures s := by
  unfold Tables.slotOf at hs
  cases hb : β.lookup x with
  | some s' =>
    rw [hb] at hs
    cases hs
    exact .inl (h.below x _ hb)
  | none =>
    rw [hb, Option.none_or, Option.map_eq_some_iff] at hs
    obtain ⟨c, hc, rfl⟩ := hs
    obtain ⟨front, back, hcap, -⟩ := List.lookup_eq_some_iff.mp hc
    exact .inr ⟨(x, c), hcap ▸ List.mem_append_right _ (List.mem_cons_self ..), rfl⟩

theorem move (h : Agrees T code β ρ lo p l) (hk : Kept T code p q lo l l') (hp : p ≤ q) :
    Agrees T code β ρ lo q l' := by
  refine ⟨h.sees, h.below, fun x s hs => ?_⟩
  obtain ⟨v, hv, hl⟩ := h.holds x s hs
  refine ⟨v, hv, fun hu => ?_⟩
  rcases hk s (h.slot_lt hs) with heq | ⟨r, -, hr, hc⟩
  · rw [heq]
    exact hl fun r hr => hp.trans (hu r hr)
  · exact absurd (hu r hc) (by omega)

theorem mono {lo' : Nat} (h : Agrees T code β ρ lo p l) (hl : lo ≤ lo') :
    Agrees T code β ρ lo' p l :=
  ⟨h.sees, fun x s hs => (h.below x s hs).trans_le hl, h.holds⟩

/-- A name whose slot holds its value. -/
theorem extend {lo' slot : Nat} {x : String} {v : Value} (h : Agrees T code β ρ lo p l) (hl : lo ≤ lo')
    (hs : slot < lo') (hv : Unread code p slot → l slot = some v) :
    Agrees T code ((x, slot) :: β) ((x, v) :: ρ) lo' p l := by
  refine ⟨fun y => ?_, fun y i hi => ?_, fun y i hi => ?_⟩
  · have hy := h.sees y
    unfold Tables.sees at hy ⊢
    rw [List.lookup_cons, List.lookup_cons]
    cases y == x with
    | true => rfl
    | false => exact hy
  · rw [List.lookup_cons] at hi
    cases hyx : y == x with
    | true =>
      rw [hyx] at hi
      cases hi
      exact hs
    | false =>
      rw [hyx] at hi
      exact (h.below y i hi).trans_le hl
  · unfold Tables.slotOf at hi
    rw [List.lookup_cons] at hi
    rw [List.lookup_cons]
    cases hyx : y == x with
    | true =>
      rw [hyx] at hi
      cases hi
      exact ⟨v, rfl, hv⟩
    | false =>
      rw [hyx] at hi
      exact h.holds y i hi

/-- A name is bound to a new slot that its value is stored in. -/
theorem bind {x : String} {slot : Nat} {v : Value} (h : Agrees T code β ρ lo p l) (hl : lo ≤ slot)
    (hc : ¬ T.Captures slot) :
    Agrees T code ((x, slot) :: β) ((x, v) :: ρ) (slot + 1) p (Function.update l slot (some v)) :=
  (h.move (.set l (some v) hl hc) le_rfl).extend (hl.trans (Nat.le_succ _)) (Nat.lt_succ_self _)
    fun _ => Function.update_self ..

theorem bindAll {lo' : Nat} :
    ∀ {names : List String} {slots : List Nat} {vals : List Value} {β : Names} {ρ : Locals} {lo : Nat},
    names.length = slots.length → vals.length = slots.length → Agrees T code β ρ lo p l → lo ≤ lo' →
    (∀ x ∈ slots, x < lo') → (∀ b ∈ slots.zip vals, Unread code p b.1 → l b.1 = some b.2) →
    Agrees T code ((names.zip slots).reverse ++ β) (Meaning.bindNames names vals ρ) lo' p l
  | [], [], [], _, _, _, _, _, h, hl, _, _ => h.mono hl
  | x :: names, a :: slots, v :: vals, β, ρ, _, hn, hv, h, hl, hs, hb => by
    have hstep := h.extend (x := x) hl (hs a (List.mem_cons_self ..))
      (hb (a, v) (List.mem_cons_self ..))
    have hrest := bindAll (Nat.succ.inj hn) (Nat.succ.inj hv) hstep le_rfl
      (fun y hy => hs y (List.mem_cons_of_mem a hy)) fun b hb' => hb b (List.mem_cons_of_mem _ hb')
    simpa [Meaning.bindNames] using hrest

theorem lookup_none (h : Agrees T code β ρ lo p l) {x : String} (hs : T.slotOf β x = none)
    (ho : T.outer x = false) : ρ.lookup x = none := by
  have hx := h.sees x
  unfold Tables.slotOf at hs
  unfold Tables.sees at hx
  rw [Option.or_eq_none_iff] at hs
  rw [hs.1, ho] at hx
  exact Option.not_isSome_iff_eq_none.mp (by rw [← hx]; decide)

end Agrees

end ProtoClojure
