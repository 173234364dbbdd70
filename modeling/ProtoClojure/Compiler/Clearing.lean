import ProtoClojure.Compiler.Compile
import Mathlib.Data.List.Forall2

/-! What `clearLastReads` may do to a body: turn reads of a slot into reads that empty it. -/
namespace ProtoClojure

/-- `w'` is `w`, or the clearing form of the read `w`. -/
def Instr.ClearedTo (w w' : Instr) : Prop :=
  w' = w ∨ (w.op = .pushLocal ∧ w' = { w with op := .pushLocalClear })

theorem Instr.ClearedTo.operand {w w' : Instr} (h : w.ClearedTo w') : w'.operand = w.operand := by
  rcases h with rfl | ⟨-, rfl⟩ <;> rfl

/-- The reads turned into clearing ones. -/
def clearAll (m : BytecodeModule) (reads : List Nat) : BytecodeModule :=
  reads.foldl (fun m readAt => m.patchOp readAt .pushLocalClear) m

theorem clearAll_eq (m : BytecodeModule) (reads : List Nat) :
    clearAll m reads = { m with code := (clearAll m reads).code } := by
  induction reads generalizing m with
  | nil =>
    cases m
    rfl
  | cons i reads ih => exact ih (m.patchOp i .pushLocalClear)

theorem clearLastReads_eq (m : BytecodeModule) (fixedArity paramEnd : Nat) :
    clearLastReads m fixedArity paramEnd =
      { m with code := (clearLastReads m fixedArity paramEnd).code } := clearAll_eq m _

/-- An instruction after the reads at `reads` are turned. -/
theorem clearAll_code (m : BytecodeModule) (reads : List Nat) (i : Nat) :
    (clearAll m reads).code[i]? =
      (m.code[i]?).map fun w => if i ∈ reads then { w with op := .pushLocalClear } else w := by
  induction reads generalizing m with
  | nil => simp [clearAll]
  | cons j reads ih =>
    have hstep : clearAll m (j :: reads) = clearAll (m.patchOp j .pushLocalClear) reads := rfl
    rw [hstep, ih, BytecodeModule.patchOp, List.getElem?_modify, Option.map_eq_map, Option.map_map]
    congr 1
    funext w
    by_cases hij : i = j
    · simp [hij]
    · have hji : ¬ j = i := fun h => hij h.symm
      simp [hij, hji]

theorem clearAll_length (m : BytecodeModule) (reads : List Nat) :
    (clearAll m reads).code.length = m.code.length := by
  induction reads generalizing m with
  | nil => rfl
  | cons j reads ih =>
    have hstep : clearAll m (j :: reads) = clearAll (m.patchOp j .pushLocalClear) reads := rfl
    rw [hstep, ih]
    exact List.length_modify ..

/-- What is looked at is code. -/
theorem scan_mem : ∀ {code : List Instr} {i j : Nat} {w : Instr}, (j, w) ∈ scan i code →
    i ≤ j ∧ code[j - i]? = some w
  | [], i, j, w, h => by cases h
  | [u], i, j, w, h => by
    unfold scan at h
    split at h
    · rename_i hrest
      cases hrest
    · rcases List.mem_cons.mp h with h | h
      · cases h
        simp
      · cases h
  | u :: v :: rest, i, j, w, h => by
    have hcase : (j, w) = (i, u) ∨ (j, w) ∈ scan (i + 2) rest ∨ (j, w) ∈ scan (i + 1) (v :: rest) := by
      unfold scan at h
      split at h
      · rename_i hrest
        cases hrest
        rcases List.mem_cons.mp h with h | h
        · exact .inl h
        · exact .inr (.inl h)
      · rcases List.mem_cons.mp h with h | h
        · exact .inl h
        · exact .inr (.inr h)
    rcases hcase with hw | hw | hw
    · cases hw
      simp
    · obtain ⟨hle, hget⟩ := scan_mem hw
      refine ⟨by omega, ?_⟩
      rw [show j - i = j - (i + 2) + 2 by omega]
      exact hget
    · obtain ⟨hle, hget⟩ := scan_mem hw
      refine ⟨by omega, ?_⟩
      rw [show j - i = j - (i + 1) + 1 by omega]
      exact hget

theorem positionsOf_spec {m : BytecodeModule} {op : Op} {slot i : Nat}
    (h : i ∈ positionsOf m op slot) : m.code[i]? = some ⟨op, slot⟩ := by
  obtain ⟨⟨j, w⟩, hmem, hw⟩ := List.mem_filterMap.mp h
  simp only [Option.ite_none_right_eq_some, Option.some.injEq] at hw
  obtain ⟨⟨rfl, rfl⟩, rfl⟩ := hw
  exact (scan_mem hmem).2

theorem clearableRead_spec {m : BytecodeModule} {fixedArity paramEnd slot i : Nat}
    (h : clearableRead m fixedArity paramEnd slot = some i) :
    positionsOf m .pushLocal slot = [i] ∧ bannedSlot m slot = false ∧
      ¬ (fixedArity ≤ slot ∧ slot < paramEnd) ∧
      ¬ (paramEnd ≤ slot ∧ (positionsOf m .storeLocal slot).isEmpty = true) ∧
      reboundInLoops m slot i = true := by
  unfold clearableRead at h
  split at h
  · rename_i readAt hpos
    split_ifs at h with h₁ h₂ h₃ h₄
    cases h
    exact ⟨hpos, by simpa using h₁, h₂, h₃, h₄⟩
  · cases h

/-- The reads that are turned. -/
def clearedReads (m : BytecodeModule) (fixedArity paramEnd : Nat) : List Nat :=
  (readSlots m).filterMap (clearableRead m fixedArity paramEnd)

theorem clearLastReads_code (m : BytecodeModule) (fixedArity paramEnd i : Nat) :
    (clearLastReads m fixedArity paramEnd).code[i]? =
      (m.code[i]?).map fun w =>
        if i ∈ clearedReads m fixedArity paramEnd then { w with op := .pushLocalClear } else w :=
  clearAll_code m _ i

@[simp] theorem clearLastReads_length (m : BytecodeModule) (fixedArity paramEnd : Nat) :
    (clearLastReads m fixedArity paramEnd).code.length = m.code.length := clearAll_length m _

/-- Only reads of slots are turned. -/
theorem clearedReads_spec {m : BytecodeModule} {fixedArity paramEnd i : Nat}
    (h : i ∈ clearedReads m fixedArity paramEnd) :
    ∃ slot, clearableRead m fixedArity paramEnd slot = some i ∧
      m.code[i]? = some ⟨.pushLocal, slot⟩ := by
  obtain ⟨slot, -, hslot⟩ := List.mem_filterMap.mp h
  have hpos := (clearableRead_spec hslot).1
  exact ⟨slot, hslot, positionsOf_spec (hpos ▸ List.mem_singleton_self i)⟩

theorem clearLastReads_cleared (m : BytecodeModule) (fixedArity paramEnd : Nat) :
    List.Forall₂ Instr.ClearedTo m.code (clearLastReads m fixedArity paramEnd).code := by
  rw [List.forall₂_iff_get]
  refine ⟨by simp, fun i h₁ h₂ => ?_⟩
  have hget := clearLastReads_code m fixedArity paramEnd i
  rw [List.getElem?_eq_getElem h₁, List.getElem?_eq_getElem h₂, Option.map_some,
    Option.some.injEq] at hget
  rw [List.get_eq_getElem, List.get_eq_getElem, hget]
  split_ifs with hmem
  · obtain ⟨slot, -, hslot⟩ := clearedReads_spec hmem
    rw [List.getElem?_eq_getElem h₁, Option.some.injEq] at hslot
    exact .inr ⟨by rw [hslot], rfl⟩
  · exact .inl rfl

theorem cleared_any {ws ws' : List Instr} (h : List.Forall₂ Instr.ClearedTo ws ws')
    {p : Instr → Bool} (hp : ∀ w w', Instr.ClearedTo w w' → p w' = p w) : ws'.any p = ws.any p := by
  induction h with
  | nil => rfl
  | cons hw _ ih => rw [List.any_cons, List.any_cons, hp _ _ hw, ih]

end ProtoClojure
