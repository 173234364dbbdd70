import ProtoClojure.Json.Grammar
import ProtoClojure.Json.RoundTrip

/-! What a JSON text denotes. The last of repeated keys counts, however the entries of an object
are batched. -/

namespace ProtoClojure.Json
open Decimal KeyedMap

variable {D E W : Type}

/-! ### What a text denotes -/

namespace Doc

/-- The text of a decimal, its exponent always written. -/
def decimalText (x : Numeral) : Bytes := x.int ++ x.fractionText ++ 0x45 :: intText x.exp

mutual
/-- Of repeated keys the last counts. -/
def denote (F : Floats D) : Doc → Datum D
  | .null => .nil
  | .bool b => .bool b
  | .integer n => .integer n
  | .decimal negative x => .double (F.strtod (signText negative ++ decimalText x))
  | .string content => .string content
  | .array items => .sequence .vector (denoteItems F items)
  | .object members =>
    .map ((denoteMembers F members).foldl (fun m e => KeyedMap.insert stringKeys m e.1 e.2) [])
def denoteItems (F : Floats D) : List Doc → List (Datum D)
  | [] => []
  | d :: ds => d.denote F :: denoteItems F ds
def denoteMembers (F : Floats D) : List (Bytes × Doc) → List (Datum D × Datum D)
  | [] => []
  | (k, d) :: ms => (.string k, d.denote F) :: denoteMembers F ms
end

theorem denoteItems_eq (F : Floats D) (ds : List Doc) :
    denoteItems F ds = ds.map (denote F) := by
  induction ds with
  | nil => rfl
  | cons d ds ih => rw [denoteItems, ih, List.map_cons]

theorem denoteMembers_eq (F : Floats D) (ms : List (Bytes × Doc)) :
    denoteMembers F ms = ms.map fun m => (.string m.1, m.2.denote F) := by
  induction ms with
  | nil => rfl
  | cons m ms ih => rw [denoteMembers, ih, List.map_cons]

end Doc

/-- What is read depends on the sign and the decimal spelled, not on its spelling. -/
def ReadsSpelled (F : Floats D) : Prop :=
  ∀ (negative : Bool) (x : Numeral) (t t' : Bytes), x.Spells t → x.Spells t' →
    F.strtod (signText negative ++ t) = F.strtod (signText negative ++ t')

/-! ### The entries of an object -/

theorem stringKeys_lawful : (stringKeys : KeySemantics (Datum D)).LawfulOn (∃ s, · = .string s) where
  refl a ha := by
    obtain ⟨s, rfl⟩ := ha
    simp [stringKeys]
  symm a b ha hb h := by
    obtain ⟨s, rfl⟩ := ha
    obtain ⟨t, rfl⟩ := hb
    simp only [stringKeys, decide_eq_true_eq] at h ⊢
    exact h.symm
  trans a b c ha hb hc h h' := by
    obtain ⟨s, rfl⟩ := ha
    obtain ⟨t, rfl⟩ := hb
    obtain ⟨u, rfl⟩ := hc
    simp only [stringKeys, decide_eq_true_eq] at h h' ⊢
    exact h.trans h'
  hash _ _ _ _ _ := rfl
  identity _ _ _ _ h := by simp [stringKeys] at h

section Batches
variable {R : Runtime D E W} {b : Batch (Datum D)} {es kv : List (Datum D × Datum D)}

/-- With its pending entries inserted, the batch is the map of `es`. -/
def Batch.Collects (b : Batch (Datum D)) (es : List (Datum D × Datum D)) : Prop :=
  ∃ fs, b.folded = .map fs ∧ Distinct stringKeys fs ∧
    (∀ e ∈ fs ++ b.pending, ∃ s, e.1 = .string s) ∧
    (b.pending.foldl (fun m e => KeyedMap.insert stringKeys m e.1 e.2) fs).Perm
      (es.foldl (fun m e => KeyedMap.insert stringKeys m e.1 e.2) [])

theorem Batch.Collects.fold (hR : R.InsertsPairs) (h : b.Collects es) :
    (b.fold R.host).Collects es ∧ (b.fold R.host).pending = [] := by
  obtain ⟨fs, hfs, hd, hs, hp⟩ := h
  unfold Batch.fold
  split
  · rename_i hnil
    exact ⟨⟨fs, hfs, hd, hs, hp⟩, hnil⟩
  · have hperm := hR fs b.pending hs hd
    have hs' := List.forall_mem_append.mp hs
    have hd' := hd.inserts stringKeys_lawful hs'.1 hs'.2
    have hkeys : ∀ e ∈ b.pending.foldl (fun m e => KeyedMap.insert stringKeys m e.1 e.2) fs,
        ∃ s, e.1 = .string s :=
      keys_inserts (S := fun a => ∃ s, a = Datum.string s) hs'.1 hs'.2
    refine ⟨⟨R.assocPairs fs b.pending, ?_, ?_, ?_, hperm.trans hp⟩, rfl⟩
    · show Datum.map (R.assocPairs (entriesOf (some b.folded)) b.pending) = _
      rw [hfs]
      rfl
    · refine hd'.perm hperm.symm (stringKeys_lawful.mono fun a ha => ?_)
      obtain ⟨e, he, rfl⟩ := List.mem_map.mp ha
      exact hkeys e he
    · intro e he
      rw [List.append_nil] at he
      exact hkeys e (hperm.mem_iff.mp he)

theorem Batch.Collects.push (hR : R.InsertsPairs) (h : b.Collects es) {e : Datum D × Datum D}
    (he : ∃ s, e.1 = .string s) : (b.push R.host e).Collects (es ++ [e]) := by
  obtain ⟨fs, hfs, hd, hs, hp⟩ := h
  have hpend : ({ b with pending := b.pending ++ [e] } : Batch (Datum D)).Collects (es ++ [e]) := by
    refine ⟨fs, hfs, hd, ?_, ?_⟩
    · rw [← List.append_assoc]
      exact List.forall_mem_append.mpr ⟨hs, List.forall_mem_singleton.mpr he⟩
    · rw [List.foldl_append, List.foldl_append]
      exact insert_perm hp
  unfold Batch.push
  dsimp only
  split
  · exact (hpend.fold hR).1
  · exact hpend

theorem Batch.Collects.pushes (hR : R.InsertsPairs) (h : b.Collects es)
    (hs : ∀ e ∈ kv, ∃ s, e.1 = .string s) :
    (kv.foldl (fun b e => b.push R.host e) b).Collects (es ++ kv) := by
  induction kv generalizing es b with
  | nil => simpa using h
  | cons e kv ih =>
    obtain ⟨he, hs⟩ := List.forall_mem_cons.mp hs
    have hsplit : es ++ e :: kv = es ++ [e] ++ kv := by simp
    rw [List.foldl_cons, hsplit]
    exact ih (h.push hR he) hs

/-- A member and the entry read from it. -/
def ReadMember (F : Floats D) (m : Bytes × Doc) (e : Datum D × Datum D) : Prop :=
  e.1 = .string m.1 ∧ (m.2.denote F).Equal e.2

theorem collects_nil (hR : R.InsertsPairs) :
    ({ folded := R.host.mapAssocPairs none [] } : Batch (Datum D)).Collects [] :=
  ⟨[], congrArg Datum.map (assocPairs_nil hR), List.Pairwise.nil, List.forall_mem_nil _, .nil⟩

/-- What an object's entries are folded into is what its members denote. -/
theorem object_denotes (hR : R.InsertsPairs) (hb : b.Collects []) {ms : List (Bytes × Doc)}
    (h : List.Forall₂ (ReadMember R.floats) ms es) :
    (Doc.denote R.floats (.object ms)).Equal
      ((es.foldl (fun b e => b.push R.host e) b).fold R.host).folded := by
  have hs : ∀ e ∈ es, ∃ s, e.1 = .string s :=
    forall_right h fun m e hme => ⟨m.1, hme.1⟩
  have hall := hb.pushes hR hs
  rw [List.nil_append] at hall
  obtain ⟨⟨fs, hfs, -, -, hp⟩, hpending⟩ := hall.fold hR
  rw [hpending, List.foldl_nil] at hp
  rw [hfs, Doc.denote, Doc.denoteMembers_eq]
  let members : List (Datum D × Datum D) := ms.map fun m => (Datum.string m.1, m.2.denote R.floats)
  have hmembers : List.Forall₂ (fun e e' => e.1 = e'.1 ∧ Datum.Equal e.2 e'.2) members es :=
    List.forall₂_map_left_iff.mpr (h.imp fun m e hme => ⟨hme.1.symm, hme.2⟩)
  have hinserted : List.Forall₂ (fun e e' => e.1 = e'.1 ∧ Datum.Equal e.2 e'.2)
      (members.foldl (fun m e => KeyedMap.insert stringKeys m e.1 e.2) [])
      (es.foldl (fun m e => KeyedMap.insert stringKeys m e.1 e.2) []) :=
    inserts_forall₂ .nil hmembers
  obtain ⟨hl, hz⟩ := List.forall₂_iff_zip.mp hinserted
  refine .map ?_ (fun p hp' => (hz hp').2) hp.symm
  exact List.forall₂_eq_eq_eq ▸ List.rel_map (fun e e' he => he.1) hinserted

end Batches

end ProtoClojure.Json
