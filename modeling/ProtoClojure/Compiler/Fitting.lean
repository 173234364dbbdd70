import ProtoClojure.Compiler.Placement

/-! Which instructions laid-out code has: the slots it stores are its own or those of its loop. -/
namespace ProtoClojure

/-- The instructions of a tree but for those its shape implies. -/
def Code.Every (P : Instr → Prop) : Code → Prop
  | .nil | .member _ _ | .recur => True
  | .ins w => P w
  | .seq a b | .branch a b => a.Every P ∧ b.Every P
  | .skipIf op a => P ⟨op, a.len⟩ ∧ a.Every P
  | .loop body => body.Every P
  | .protect body after handler => body.Every P ∧ after.Every P ∧ handler.Every P

namespace Code

theorem Every.mono {P Q : Instr → Prop} (hPQ : ∀ w, P w → Q w) {c : Code} (h : c.Every P) :
    c.Every Q := by
  induction c with
  | nil | member | recur => trivial
  | ins w => exact hPQ w h
  | seq a b iha ihb | branch a b iha ihb => exact ⟨iha h.1, ihb h.2⟩
  | skipIf op a ih => exact ⟨hPQ _ h.1, ih h.2⟩
  | loop body ih => exact ih h
  | protect a b c iha ihb ihc => exact ⟨iha h.1, ihb h.2.1, ihc h.2.2⟩

theorem every_block {P : Instr → Prop} {ws : List Instr} (h : ∀ w ∈ ws, P w) :
    (block ws).Every P := by
  induction ws with
  | nil => trivial
  | cons w rest ih =>
    exact ⟨h w (List.mem_cons_self ..), ih fun u hu => h u (List.mem_cons_of_mem w hu)⟩

/-- The opcodes a tree's shape implies. -/
def shapeOps : List Op := [.callMember, .nop, .jump, .jumpIfFalse, .jumpBack, .tryBegin, .tryEnd]

theorem Every.of_mem {P : Instr → Prop} {c : Code} {k : Nat} {w : Instr} (h : c.Every P)
    (hw : w ∈ c.flatten k) : P w ∨ w.op ∈ shapeOps := by
  induction c generalizing k with
  | nil => cases hw
  | ins u =>
    obtain rfl := List.mem_singleton.mp hw
    exact .inl h
  | member argc sym =>
    simp only [flatten, List.mem_cons, List.not_mem_nil, or_false] at hw
    rcases hw with rfl | rfl <;> exact .inr (by simp [shapeOps])
  | seq a b iha ihb => exact (List.mem_append.mp hw).elim (iha h.1) (ihb h.2)
  | skipIf op a ih =>
    rcases List.mem_cons.mp hw with rfl | hw
    · exact .inl h.1
    · exact ih h.2 hw
  | branch a b iha ihb =>
    simp only [flatten, List.mem_cons, List.mem_append] at hw
    rcases hw with rfl | hw | rfl | hw
    · exact .inr (by simp [shapeOps])
    · exact iha h.1 hw
    · exact .inr (by simp [shapeOps])
    · exact ihb h.2 hw
  | loop body ih => exact ih h hw
  | recur =>
    obtain rfl := List.mem_singleton.mp hw
    exact .inr (by simp [shapeOps])
  | protect a b c iha ihb ihc =>
    simp only [flatten, List.mem_cons, List.mem_append] at hw
    rcases hw with rfl | hw | rfl | hw | rfl | hw
    · exact .inr (by simp [shapeOps])
    · exact iha h.1 hw
    · exact .inr (by simp [shapeOps])
    · exact ihb h.2.1 hw
    · exact .inr (by simp [shapeOps])
    · exact ihc h.2.2 hw

end Code

/-! ### What locals clearing looks at -/

/-- A data word follows every `CALL_MEMBER`. -/
def Paired (ws : List Instr) : Prop :=
  ∀ j n, ws[j]? = some ⟨.callMember, n⟩ → ∃ s, ws[j + 1]? = some ⟨.nop, s⟩

namespace Paired
variable {ws ws' : List Instr} {w : Instr}

theorem cons (hw : w.op ≠ .callMember) (h : Paired ws) : Paired (w :: ws) := by
  intro j n hj
  cases j with
  | zero =>
    cases hj
    exact absurd rfl hw
  | succ j => exact h j n hj

theorem append (h : Paired ws) (h' : Paired ws') : Paired (ws ++ ws') := by
  intro j n hj
  by_cases hlt : j < ws.length
  · rw [List.getElem?_append_left hlt] at hj
    obtain ⟨s, hs⟩ := h j n hj
    exact ⟨s, by rw [List.getElem?_append_left (List.getElem?_eq_some_iff.mp hs).1, hs]⟩
  · rw [List.getElem?_append_right (by omega)] at hj
    obtain ⟨s, hs⟩ := h' _ n hj
    refine ⟨s, ?_⟩
    rw [List.getElem?_append_right (by omega), show j + 1 - ws.length = j - ws.length + 1 by omega, hs]

theorem tail (h : Paired (w :: ws)) : Paired ws := fun j n hj => h (j + 1) n hj

end Paired

/-- All the code but the data words is looked at. -/
theorem mem_scan : ∀ {ws : List Instr} {i j : Nat} {w : Instr}, Paired ws → ws[j]? = some w →
    w.op ≠ .nop → (i + j, w) ∈ scan i ws
  | [], i, j, w, _, hj, _ => by cases hj
  | [u], i, j, w, _, hj, _ => by
    have hj' : j = 0 := by
      have := (List.getElem?_eq_some_iff.mp hj).1
      simpa using this
    subst hj'
    cases hj
    unfold scan
    split <;> exact List.mem_cons_self ..
  | u :: v :: rest, i, j, w, h, hj, hn => by
    by_cases hu : u.op = .callMember
    · obtain ⟨op, n⟩ := u
      cases hu
      obtain ⟨s, hv⟩ := h 0 n rfl
      obtain rfl : v = ⟨.nop, s⟩ := Option.some.inj hv
      rcases j with _ | _ | j
      · cases hj
        exact List.mem_cons_self ..
      · cases hj
        exact absurd rfl hn
      · refine List.mem_cons_of_mem _ ?_
        rw [show i + (j + 2) = i + 2 + j by omega]
        exact mem_scan h.tail.tail hj hn
    · have hstep : scan i (u :: v :: rest) = (i, u) :: scan (i + 1) (v :: rest) := by
        conv_lhs => unfold scan
        split
        · rename_i hop _
          exact absurd hop hu
        · rfl
      rw [hstep]
      cases j with
      | zero =>
        cases hj
        exact List.mem_cons_self ..
      | succ j =>
        refine List.mem_cons_of_mem _ ?_
        rw [show i + (j + 1) = i + 1 + j by omega]
        exact mem_scan h.tail hj hn

theorem Code.paired {c : Code} (h : c.Every (·.op ≠ .callMember)) (k : Nat) : Paired (c.flatten k) := by
  induction c generalizing k with
  | nil => intro j n hj; cases hj
  | ins w => exact .cons h fun j n hj => by cases hj
  | member argc sym =>
    intro j n hj
    rcases j with _ | _ | j
    · exact ⟨sym, rfl⟩
    · cases hj
    · cases hj
  | seq a b iha ihb => exact (iha h.1 k).append (ihb h.2 _)
  | skipIf op a ih => exact .cons h.1 (ih h.2 _)
  | branch a b iha ihb =>
    exact .cons (by simp) ((iha h.1 _).append (.cons (by simp) (ihb h.2 _)))
  | loop body ih => exact ih h 0
  | recur => exact .cons (by simp) fun j n hj => by cases hj
  | protect a b c iha ihb ihc =>
    exact .cons (by simp) ((iha h.1 _).append (.cons (by simp) ((ihb h.2.1 _).append
      (.cons (by simp) (ihc h.2.2 _)))))

/-! ### The instructions of a body -/

/-- A slot stored in code that takes the slots from `lo` up to `hi`, inside a loop with the
slots `L`: one of its own or of the loop. -/
structure Fits (T : Tables) (L : Option (List Nat)) (lo hi : Nat) (w : Instr) : Prop where
  plain : w.op ≠ .callMember
  uncleared : w.op ≠ .pushLocalClear
  stores : w.op = .storeLocal →
    (lo ≤ w.operand ∧ w.operand < hi ∧ ¬ T.Captures w.operand) ∨ ∃ slots, L = some slots ∧ w.operand ∈ slots

namespace Fits
variable {T : Tables} {L : Option (List Nat)} {lo lo' hi hi' : Nat} {w : Instr}

theorem weaken (hl : lo' ≤ lo) (hh : hi ≤ hi') (h : Fits T L lo hi w) : Fits T L lo' hi' w :=
  ⟨h.plain, h.uncleared, fun hs => (h.stores hs).imp_left fun ⟨h₁, h₂, h₃⟩ => ⟨by omega, by omega, h₃⟩⟩

theorem closed (h : Fits T none lo hi w) : Fits T L lo hi w := by
  refine ⟨h.plain, h.uncleared, fun hs => (h.stores hs).imp_right ?_⟩
  rintro ⟨slots, hn, -⟩
  cases hn

/-- Outside the loop its slots are as any. -/
theorem leave {slots : List Nat} {mid : Nat}
    (hslots : ∀ s ∈ slots, lo ≤ s ∧ s < mid ∧ ¬ T.Captures s) (hl : lo ≤ mid) (hm : mid ≤ hi)
    (h : Fits T (some slots) mid hi w) : Fits T L lo hi w := by
  refine ⟨h.plain, h.uncleared, fun hs => .inl ?_⟩
  rcases h.stores hs with ⟨h₁, h₂, h₃⟩ | ⟨_, hL, hw⟩
  · exact ⟨by omega, h₂, h₃⟩
  · cases hL
    obtain ⟨h₁, h₂, h₃⟩ := hslots _ hw
    exact ⟨h₁, by omega, h₃⟩

/-- An instruction that stores no slot. -/
theorem other {op : Op} {n : Nat}
    (h : op ≠ .callMember ∧ op ≠ .pushLocalClear ∧ op ≠ .storeLocal := by decide) :
    Fits T L lo hi ⟨op, n⟩ := ⟨h.1, h.2.1, fun hs => absurd hs h.2.2⟩

theorem store {slot : Nat} (hl : lo ≤ slot) (hh : slot < hi) (hc : ¬ T.Captures slot) :
    Fits T L lo hi ⟨.storeLocal, slot⟩ := ⟨by simp, by simp, fun _ => .inl ⟨hl, hh, hc⟩⟩

end Fits

section
variable {env : Env}

/-! ### The slots taken -/

mutual

theorem Compiles.le {T : Tables} {β : Names} {L : Option (List Nat)} {lo hi : Nat} {e : Exp}
    {c : Code} : Compiles env T β L lo hi e c → lo ≤ hi
  | .mark _ h => h.le
  | .nil h => h
  | .bool _ h => h
  | .const h _ => h
  | .symLocal h _ => h
  | .symGlobal h _ _ _ => h
  | .global h _ => h
  | .member h _ => h.le
  | .ite h₁ h₂ h₃ => (h₁.le.trans h₂.le).trans h₃.le
  | .both h₁ h₂ | .either h₁ h₂ | .seq h₁ h₂ | .apply h₁ h₂ | .operator _ h₁ h₂ => h₁.le.trans h₂.le
  | .bind h₁ _ h₂ => h₁.le.trans ((Nat.le_succ _).trans h₂.le)
  | .loop h₁ h₂ => h₁.le.trans h₂.le
  | .recur _ h _ => h.le
  | .fnSingle h _ _ => h
  | .fnMulti h _ _ _ => h
  | .call h₁ h₂ => h₁.le.trans h₂.le
  | .callMember h₁ h₂ _ => h₁.le.trans h₂.le
  | .setGlobal h _ => h.le
  | .throw h => h.le
  | .tryPlain h => h.le
  | .tryCatch h₁ _ h₂ => h₁.le.trans ((Nat.le_succ _).trans h₂.le)
  | .tryFinally h₁ h₂ _ h₃ => (h₁.le.trans h₂.le).trans ((Nat.le_succ _).trans h₃.le)

theorem CompilesArgs.le {T : Tables} {β : Names} {L : Option (List Nat)} {lo hi : Nat} {es : Exps}
    {c : Code} : CompilesArgs env T β L lo hi es c → lo ≤ hi
  | .nil h => h
  | .cons h hs => h.le.trans hs.le

theorem CompilesEffects.le {T : Tables} {β : Names} {lo hi : Nat} {es : Exps} {c : Code} :
    CompilesEffects env T β lo hi es c → lo ≤ hi
  | .nil h => h
  | .cons h hs => h.le.trans hs.le

theorem CompilesBinds.le {T : Tables} {β : Names} {L : Option (List Nat)} {lo hi : Nat} {bs : Binds}
    {slots : List Nat} {c : Code} : CompilesBinds env T β L lo hi bs slots c → lo ≤ hi
  | .nil h => h
  | .cons h _ hs => h.le.trans ((Nat.le_succ _).trans hs.le)

theorem CompilesClauses.le {T : Tables} {β : Names} {ex lo hi : Nat} {cs : Clauses} {c : Code} :
    CompilesClauses env T β ex lo hi cs c → lo ≤ hi
  | .nil h => h
  | .cons h _ hb hs => (h.trans hb.le).trans hs.le

end

/-- The slots of a loop are new. -/
theorem CompilesBinds.slots {T : Tables} {L : Option (List Nat)} : ∀ {bs : Binds} {β : Names}
    {lo hi : Nat} {slots : List Nat} {c : Code}, CompilesBinds env T β L lo hi bs slots c →
    ∀ s ∈ slots, lo ≤ s ∧ s < hi ∧ ¬ T.Captures s
  | .nil, _, _, _, _, _, .nil _ => fun s hs => by cases hs
  | .cons _ _ _, _, _, _, _, _, .cons h hm hs => by
    intro s hmem
    have h₁ := h.le
    have h₂ := hs.le
    rcases List.mem_cons.mp hmem with rfl | hmem
    · exact ⟨h₁, h₂, hm⟩
    · obtain ⟨hl, hh, hc⟩ := hs.slots s hmem
      exact ⟨by omega, hh, hc⟩

theorem CompilesBinds.nodup {T : Tables} {L : Option (List Nat)} : ∀ {bs : Binds} {β : Names}
    {lo hi : Nat} {slots : List Nat} {c : Code}, CompilesBinds env T β L lo hi bs slots c →
    slots.Nodup
  | .nil, _, _, _, _, _, .nil _ => List.nodup_nil
  | .cons _ _ _, _, _, _, _, _, .cons _ _ hs => by
    refine List.nodup_cons.mpr ⟨fun hmem => ?_, hs.nodup⟩
    have := (hs.slots _ hmem).1
    omega

theorem CompilesBinds.length {T : Tables} {L : Option (List Nat)} : ∀ {bs : Binds} {β : Names}
    {lo hi : Nat} {slots : List Nat} {c : Code}, CompilesBinds env T β L lo hi bs slots c →
    bs.names.length = slots.length
  | .nil, _, _, _, _, _, .nil _ => rfl
  | .cons _ _ _, _, _, _, _, _, .cons _ _ hs => congrArg (· + 1) hs.length

/-! ### The slots stored -/

theorem Mark.every {T : Tables} {L : Option (List Nat)} {lo hi : Nat} {k : Code} (h : Mark k) :
    k.Every (Fits T L lo hi) := by
  cases h with
  | none => trivial
  | line n => exact Fits.other

theorem CompilesTest.every {T : Tables} {β : Names} {L : Option (List Nat)} {ex lo hi : Nat}
    {test : CatchTest} {c : Code} (h : CompilesTest T β ex test c) : c.Every (Fits T L lo hi) := by
  cases h <;> exact Code.every_block (by simp [Fits.other])

theorem pushes_every {T : Tables} {L : Option (List Nat)} {lo hi : Nat} (captures : List CaptureSpec) :
    (Code.pushes captures).Every (Fits T L lo hi) := by
  refine Code.every_block fun w hw => ?_
  obtain ⟨c, -, rfl⟩ := List.mem_map.mp hw
  exact .other

theorem stores_every {T : Tables} {lo hi : Nat} {slots slots' : List Nat} (h : ∀ s ∈ slots', s ∈ slots) :
    (Code.stores slots').Every (Fits T (some slots) lo hi) := by
  refine Code.every_block fun w hw => ?_
  obtain ⟨s, hs, rfl⟩ := List.mem_map.mp hw
  exact ⟨by simp, by simp, fun _ => .inr ⟨slots, rfl, h s hs⟩⟩

/-- Code is part of code that takes more slots. -/
theorem Code.Every.wider {T : Tables} {L : Option (List Nat)} {lo lo' hi hi' : Nat} {c : Code}
    (h : c.Every (Fits T L lo hi)) (hl : lo' ≤ lo) (hh : hi ≤ hi') : c.Every (Fits T L lo' hi') :=
  h.mono fun _ => Fits.weaken hl hh

theorem Code.Every.closed {T : Tables} {L : Option (List Nat)} {lo hi : Nat} {c : Code}
    (h : c.Every (Fits T none lo hi)) : c.Every (Fits T L lo hi) := h.mono fun _ => Fits.closed

mutual

theorem Compiles.every {T : Tables} {β : Names} {L : Option (List Nat)} {lo hi : Nat} {e : Exp}
    {c : Code} : Compiles env T β L lo hi e c → c.Every (Fits T L lo hi)
  | .mark hk h => ⟨hk.every, h.every⟩
  | .nil _ | .const _ _ | .symLocal _ _ | .symGlobal _ _ _ _ | .global _ _ => Fits.other
  | .bool b _ => by cases b <;> exact Fits.other
  | .member h _ => ⟨h.every, Fits.other⟩
  | .ite h₁ h₂ h₃ =>
    ⟨h₁.every.wider le_rfl (h₂.le.trans h₃.le), h₂.every.wider h₁.le h₃.le,
      h₃.every.wider (h₁.le.trans h₂.le) le_rfl⟩
  | .both h₁ h₂ | .either h₁ h₂ =>
    ⟨h₁.every.wider le_rfl h₂.le, Fits.other, Fits.other, Fits.other, h₂.every.wider h₁.le le_rfl⟩
  | .seq h₁ h₂ => ⟨h₁.every.wider le_rfl h₂.le, Fits.other, h₂.every.wider h₁.le le_rfl⟩
  | .bind h₁ hm h₂ =>
    ⟨h₁.every.wider le_rfl ((Nat.le_succ _).trans h₂.le), .store h₁.le h₂.le hm,
      h₂.every.wider (h₁.le.trans (Nat.le_succ _)) le_rfl⟩
  | .loop h₁ h₂ => ⟨h₁.every.wider le_rfl h₂.le, h₂.every.mono fun _ => .leave h₁.slots h₁.le h₂.le⟩
  | .recur _ h hk => ⟨h.every, stores_every fun _ => List.mem_reverse.mp, hk.every, trivial⟩
  | .fnSingle _ _ _ | .fnMulti _ _ _ _ => ⟨pushes_every _, Fits.other⟩
  | .call h₁ h₂ =>
    ⟨h₁.every.wider le_rfl h₂.le, h₂.every.wider h₁.le le_rfl, by cases ‹Bool› <;> exact Fits.other⟩
  | .apply h₁ h₂ => ⟨h₁.every.wider le_rfl h₂.le, h₂.every.wider h₁.le le_rfl, Fits.other⟩
  | .operator ho h₁ h₂ => by
    refine ⟨h₁.every.wider le_rfl h₂.le, h₂.every.wider h₁.le le_rfl, .other ?_⟩
    obtain ⟨name, hn⟩ := ho
    unfold operatorOp at hn
    split at hn <;> cases hn <;> decide
  | .callMember h₁ h₂ _ => ⟨h₁.every.wider le_rfl h₂.le, h₂.every.wider h₁.le le_rfl, trivial⟩
  | .setGlobal h _ => ⟨h.every, Fits.other⟩
  | .throw h => ⟨h.every, Fits.other⟩
  | .tryPlain h => h.every.closed
  | .tryCatch h₁ _ h₂ =>
    ⟨(h₁.every.wider le_rfl ((Nat.le_succ _).trans h₂.le)).closed, trivial, Fits.other,
      (h₂.every.wider (h₁.le.trans (Nat.le_succ _)) le_rfl).closed⟩
  | .tryFinally h₁ h₂ _ h₃ =>
    ⟨(h₁.every.wider le_rfl (h₂.le.trans ((Nat.le_succ _).trans h₃.le))).closed,
      (h₂.every.wider h₁.le ((Nat.le_succ _).trans h₃.le)).closed, Fits.other,
      (h₃.every.wider ((h₁.le.trans h₂.le).trans (Nat.le_succ _)) le_rfl).closed, Fits.other⟩

theorem CompilesArgs.every {T : Tables} {β : Names} {L : Option (List Nat)} {lo hi : Nat} {es : Exps}
    {c : Code} : CompilesArgs env T β L lo hi es c → c.Every (Fits T L lo hi)
  | .nil _ => trivial
  | .cons h hs => ⟨h.every.wider le_rfl hs.le, hs.every.wider h.le le_rfl⟩

theorem CompilesEffects.every {T : Tables} {β : Names} {lo hi : Nat} {es : Exps} {c : Code} :
    CompilesEffects env T β lo hi es c → c.Every (Fits T none lo hi)
  | .nil _ => trivial
  | .cons h hs => ⟨h.every.wider le_rfl hs.le, Fits.other, hs.every.wider h.le le_rfl⟩

theorem CompilesBinds.every {T : Tables} {β : Names} {L : Option (List Nat)} {lo hi : Nat}
    {bs : Binds} {slots : List Nat} {c : Code} :
    CompilesBinds env T β L lo hi bs slots c → c.Every (Fits T L lo hi)
  | .nil _ => trivial
  | .cons h hm hs =>
    ⟨h.every.wider le_rfl ((Nat.le_succ _).trans hs.le), .store h.le hs.le hm,
      hs.every.wider (h.le.trans (Nat.le_succ _)) le_rfl⟩

theorem CompilesClauses.every {T : Tables} {β : Names} {ex lo hi : Nat} {cs : Clauses} {c : Code} :
    CompilesClauses env T β ex lo hi cs c → c.Every (Fits T none lo hi)
  | .nil _ => Fits.other
  | .cons h ht hb hs =>
    ⟨ht.every, hb.every.wider h hs.le, hs.every.wider (h.trans hb.le) le_rfl⟩

end

end

end ProtoClojure
