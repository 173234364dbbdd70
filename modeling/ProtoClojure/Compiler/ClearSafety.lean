import ProtoClojure.Compiler.Fitting

/-! What holds of the reads that locals clearing turned: each is the one read of its slot, and
on every way back to it the slot is stored. -/
namespace ProtoClojure

structure ClearSafe (T : Tables) (code : List Instr) : Prop where
  once : ∀ r r' s : Nat, Clears code r s → code[r']? = some ⟨.pushLocal, s⟩ ∨ Clears code r' s → r' = r
  own : ∀ r s : Nat, Clears code r s → ¬ T.Captures s
  caught : ∀ r s i : Nat, Clears code r s → code[i]? ≠ some ⟨.storeCaught, s⟩
  rebound : ∀ r s j n : Nat, Clears code r s → code[j]? = some ⟨.jumpBack, n⟩ → n ≤ j + 1 →
    j + 1 - n ≤ r → r ≤ j → ∃ i, j + 1 - n ≤ i ∧ i ≤ j ∧ code[i]? = some ⟨.storeLocal, s⟩

/-- Code without clearing reads. -/
theorem ClearSafe.of_none {T : Tables} {code : List Instr} (h : ∀ w ∈ code, w.op ≠ .pushLocalClear) :
    ClearSafe T code := by
  have hno : ∀ r s, ¬ Clears code r s := fun r s hr => h _ (List.mem_of_getElem? hr) rfl
  exact ⟨fun r _ s hr => absurd hr (hno r s), fun r s hr => absurd hr (hno r s),
    fun r s _ hr => absurd hr (hno r s), fun r s _ _ hr => absurd hr (hno r s)⟩

section
variable {m : BytecodeModule} {fixedArity paramEnd : Nat} (hp : Paired m.code)
  (hu : ∀ w ∈ m.code, w.op ≠ .pushLocalClear)

include hp in
theorem mem_positionsOf {op : Op} {slot i : Nat} (hn : op ≠ .nop) (h : m.code[i]? = some ⟨op, slot⟩) :
    i ∈ positionsOf m op slot := by
  refine List.mem_filterMap.mpr ⟨(i, ⟨op, slot⟩), ?_, by simp⟩
  have hmem := mem_scan (i := 0) hp h hn
  rwa [Nat.zero_add] at hmem

include hp in
theorem mem_loopRanges {j n : Nat} (h : m.code[j]? = some ⟨.jumpBack, n⟩) (hn : n ≤ j + 1) :
    (j + 1 - n, j) ∈ loopRanges m := by
  refine List.mem_filterMap.mpr ⟨(j, ⟨.jumpBack, n⟩), ?_, by simp [hn]⟩
  have hmem := mem_scan (i := 0) hp h (by simp)
  rwa [Nat.zero_add] at hmem

variable {code : List Instr} (hcode : code = (clearLastReads m fixedArity paramEnd).code)

include hcode in
/-- An instruction but a clearing read is as it was. -/
theorem uncleared_instr {i n : Nat} {op : Op} (h : code[i]? = some ⟨op, n⟩) (ho : op ≠ .pushLocalClear) :
    m.code[i]? = some ⟨op, n⟩ := by
  rw [hcode, clearLastReads_code, Option.map_eq_some_iff] at h
  obtain ⟨w, hw, h⟩ := h
  split_ifs at h with hi
  · cases h
    exact absurd rfl ho
  · rw [hw, h]

include hcode in
theorem kept_instr {i n : Nat} {op : Op} (h : m.code[i]? = some ⟨op, n⟩) (ho : op ≠ .pushLocal) :
    code[i]? = some ⟨op, n⟩ := by
  rw [hcode, clearLastReads_code, h, Option.map_some]
  split_ifs with hi
  · obtain ⟨slot, -, hr⟩ := clearedReads_spec hi
    rw [h] at hr
    cases hr
    exact absurd rfl ho
  · rfl

include hu hcode in
theorem clears_spec {r slot : Nat} (h : Clears code r slot) :
    clearableRead m fixedArity paramEnd slot = some r ∧ m.code[r]? = some ⟨.pushLocal, slot⟩ := by
  unfold Clears at h
  rw [hcode, clearLastReads_code, Option.map_eq_some_iff] at h
  obtain ⟨w, hw, h⟩ := h
  split_ifs at h with hr
  · obtain ⟨slot', hslot, hr'⟩ := clearedReads_spec hr
    rw [hw] at hr'
    cases hr'
    cases h
    exact ⟨hslot, hw⟩
  · exact absurd (congrArg Instr.op h) (hu w (List.mem_of_getElem? hw))

include hu hcode in
/-- The slots of keys and of what follows them are never emptied. -/
theorem clears_params {r slot : Nat} (h : Clears code r slot) :
    ¬ (fixedArity ≤ slot ∧ slot < paramEnd) :=
  (clearableRead_spec (clears_spec hu hcode h).1).2.2.1

include hp hu hcode in
theorem clearSafe_clearLastReads {T : Tables} (hT : T.captures.map (·.2) = m.captureSpecs) :
    ClearSafe T code := by
  have hspec := fun {r s} (h : Clears code r s) => clearableRead_spec (clears_spec hu hcode h).1
  have hbanned : ∀ {r s}, Clears code r s → positionsOf m .storeCaught s = [] ∧
      ∀ c ∈ m.captureSpecs, c.localSlot ≠ s := by
    intro r s h
    have hb := (hspec h).2.1
    simp only [bannedSlot, Bool.or_eq_false_iff, Bool.not_eq_false', List.isEmpty_iff,
      List.any_eq_false, beq_iff_eq] at hb
    exact ⟨hb.1.1, hb.2⟩
  refine ⟨fun r r' s h h' => ?_, fun r s h hcap => ?_, fun r s i h hi => ?_,
    fun r s j n h hj hn hjr hrj => ?_⟩
  · have hraw : m.code[r']? = some ⟨.pushLocal, s⟩ :=
      h'.elim (fun h' => uncleared_instr hcode h' (by simp)) fun h' => (clears_spec hu hcode h').2
    have hmem := mem_positionsOf hp (by simp) hraw
    rw [(hspec h).1] at hmem
    exact List.mem_singleton.mp hmem
  · obtain ⟨p, hp, hs⟩ := hcap
    exact (hbanned h).2 p.2 (hT ▸ List.mem_map_of_mem hp) hs
  · have hmem := mem_positionsOf hp (by simp) (uncleared_instr hcode hi (by simp))
    rw [(hbanned h).1] at hmem
    cases hmem
  · have hloops := (hspec h).2.2.2.2
    unfold reboundInLoops at hloops
    have hloop := List.all_eq_true.mp hloops _
      (mem_loopRanges hp (uncleared_instr hcode hj (by simp)) hn)
    simp only [Bool.or_eq_true, decide_eq_true_eq, List.any_eq_true, Bool.and_eq_true] at hloop
    rcases hloop with (hlt | hlt) | ⟨i, hi, hji, hij⟩
    · omega
    · omega
    · exact ⟨i, hji, hij, kept_instr hcode (positionsOf_spec hi) (by simp)⟩

end

/-- The code of a body, whether reads of it were turned or not. -/
theorem clearSafe_clearedCode {env : Env} {m : BytecodeModule} {paramEnd k : Nat} {c : Code} {T : Tables}
    {P : Instr → Prop} (hc : c.Every P) (hP : ∀ w, P w → w.op ≠ .callMember ∧ w.op ≠ .pushLocalClear)
    (hT : T.captures.map (·.2) = m.captureSpecs) :
    ClearSafe T (clearedCode env m paramEnd (c.flatten k)) ∧
      ∀ r s, Clears (clearedCode env m paramEnd (c.flatten k)) r s → ¬ (m.arity ≤ s ∧ s < paramEnd) := by
  have hp : Paired (c.flatten k) := Code.paired (hc.mono fun w hw => (hP w hw).1) k
  have hu : ∀ w ∈ c.flatten k, w.op ≠ .pushLocalClear := by
    intro w hw
    rcases hc.of_mem hw with h | h
    · exact (hP w h).2
    · intro ho
      rw [ho] at h
      simp [Code.shapeOps] at h
  unfold clearedCode
  split_ifs
  · exact ⟨clearSafe_clearLastReads (m := { m with code := c.flatten k }) hp hu rfl hT,
      fun r s h => clears_params (m := { m with code := c.flatten k }) hu rfl h⟩
  · exact ⟨.of_none hu, fun r s h => absurd rfl (hu _ (List.mem_of_getElem? h))⟩

end ProtoClojure
