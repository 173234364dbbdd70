import ProtoClojure.Collections.KeyedMap
import ProtoClojure.Recursion.Calls

/-! Lookups of a hashed collection as the questions they ask of the keys, whose answers may fail
to come. -/

namespace ProtoClojure.KeyedMap
open Recursion

/-- What a helper asks a key semantics, beside whether a key is matched by being the same. -/
inductive Question (K : Type) where
  | hash (a : K)
  | equals (a b : K)

@[reducible] def Question.Answer {K : Type} : Question K → Type
  | .hash _ => UInt64
  | .equals _ _ => Bool

variable {K V : Type}

def KeySemantics.answer (sem : KeySemantics K) {S : K → Prop} :
    (q : Question {a // S a}) → q.Answer
  | .hash a => sem.hash a.1
  | .equals a b => sem.equals a.1 b.1

/-- A lookup, one question after the other; it asks about the key and those of the entries. -/
abbrev Asking (m : HashedMap K V) (k : K) : Type :=
  Comp (Question {a // Among m.entries k a}) Question.Answer Empty (Option V)

/-- How a helper looks a key up. -/
structure Lookup (h : Helper K V) where
  asks : (K → Bool) → (m : HashedMap K V) → (k : K) → Asking m k

/-- Answered as a semantics does, it finds what the helper finds. -/
def Lookup.Lawful {h : Helper K V} (L : Lookup h) : Prop :=
  ∀ (sem : KeySemantics K) m k, (L.asks sem.isIdentity m k).run (fun q => some (.ok (sem.answer q))) =
    some (.ok (h.hashedGet sem m k))

section Answers
variable (hash : K → Option UInt64) (equals : K → K → Option Bool)

/-- The answers that come. -/
def answering {S : K → Prop} : (q : Question {a // S a}) → Option (Except Empty q.Answer)
  | .hash a => (hash a.1).map .ok
  | .equals a b => (equals a.1 b.1).map .ok

/-- The lookup, which fails when an answer does. -/
def Lookup.get {h : Helper K V} (L : Lookup h) (isIdentity : K → Bool) (m : HashedMap K V) (k : K) :
    Option (Option V) :=
  match (L.asks isIdentity m k).run (answering hash equals) with
  | some (.ok r) => some r
  | _ => none

variable {hash equals} {h : Helper K V} {L : Lookup h} {sem : KeySemantics K} {m : HashedMap K V} {k : K}

/-- Answers that come are the semantics'. -/
structure AgreesOn (sem : KeySemantics K) (hash : K → Option UInt64) (equals : K → K → Option Bool)
    (S : K → Prop) : Prop where
  hash : ∀ a, S a → ∀ r, hash a = some r → r = sem.hash a
  equals : ∀ a b, S a → S b → ∀ r, equals a b = some r → r = sem.equals a b

theorem AgreesOn.mono {S T : K → Prop} (ha : AgreesOn sem hash equals T) (hST : ∀ a, S a → T a) :
    AgreesOn sem hash equals S where
  hash a hs := ha.hash a (hST a hs)
  equals a b hs ht := ha.equals a b (hST a hs) (hST b ht)

/-- A lookup that ends finds what the helper finds. -/
theorem Lookup.Lawful.get_eq (hL : L.Lawful) (ha : AgreesOn sem hash equals (Among m.entries k))
    {r : Option V} (hr : L.get hash equals sem.isIdentity m k = some r) : r = h.hashedGet sem m k := by
  unfold Lookup.get at hr
  split at hr
  · rename_i r' hrun
    cases hr
    have hmore : (L.asks sem.isIdentity m k).run (fun q => some (.ok (sem.answer q))) = some (.ok r) := by
      refine Comp.run_mono (fun q s hs => ?_) hrun
      cases q with
      | hash a =>
        obtain ⟨x, hx, rfl⟩ := Option.map_eq_some_iff.mp hs
        rw [ha.hash a.1 a.2 x hx]
        rfl
      | equals a b =>
        obtain ⟨x, hx, rfl⟩ := Option.map_eq_some_iff.mp hs
        rw [ha.equals a.1 b.1 a.2 b.2 x hx]
        rfl
    rw [hL sem m k] at hmore
    exact (Except.ok.inj (Option.some.inj hmore)).symm
  · cases hr

/-- A lookup whose questions are all answered ends. -/
theorem Lookup.get_isSome (hhash : ∀ a, Among m.entries k a → (hash a).isSome = true)
    (hequals : ∀ a b, Among m.entries k a → Among m.entries k b → (equals a b).isSome = true)
    (isIdentity : K → Bool) : (L.get hash equals isIdentity m k).isSome = true := by
  have hanswer : ∀ q : Question {a // Among m.entries k a}, ∃ x, answering hash equals q = some (.ok x) := by
    intro q
    cases q with
    | hash a =>
      obtain ⟨x, hx⟩ := Option.isSome_iff_exists.mp (hhash a.1 a.2)
      exact ⟨x, congrArg (Option.map Except.ok) hx⟩
    | equals a b =>
      obtain ⟨x, hx⟩ := Option.isSome_iff_exists.mp (hequals a.1 b.1 a.2 b.2)
      exact ⟨x, congrArg (Option.map Except.ok) hx⟩
  have hrun : ∀ c : Asking m k, ∃ r, c.run (answering hash equals) = some (.ok r) := by
    intro c
    induction c with
    | done a => exact ⟨a, rfl⟩
    | throw e => exact e.elim
    | call q next ih =>
      obtain ⟨x, hx⟩ := hanswer q
      obtain ⟨r, hr⟩ := ih x
      refine ⟨r, ?_⟩
      unfold Comp.run
      rw [hx]
      exact hr
  obtain ⟨r, hr⟩ := hrun (L.asks isIdentity m k)
  unfold Lookup.get
  rw [hr]
  rfl

end Answers

section Slots
variable [DecidableEq K]

/-- The first entry in the key's slot that is equal to it. -/
def askSlot {m : HashedMap K V} {k : K} (slot : UInt64) :
    (es : List (K × V)) → (∀ e ∈ es, e ∈ m.entries) → Asking m k
  | [], _ => .done none
  | e :: es, hes =>
    have he : Among m.entries k e.1 := among_of_mem (hes e List.mem_cons_self)
    .call (.hash ⟨e.1, he⟩) fun h =>
      if h % 0x40000000000000 = slot % 0x40000000000000 then
        .call (.equals ⟨k, among_self⟩ ⟨e.1, he⟩) fun r =>
          if r then .done (some e.2) else askSlot slot es fun f hf => hes f (List.mem_cons_of_mem e hf)
      else askSlot slot es fun f hf => hes f (List.mem_cons_of_mem e hf)

/-- How the helper that keeps one list looks: under the key itself, or in its slot. -/
def slotLookup : Lookup (bySlot : Helper K V) where
  asks isIdentity m k :=
    if isIdentity k then .done ((m.entries.find? fun e => e.1 = k).map Prod.snd)
    else .call (.hash ⟨k, among_self⟩) fun h => askSlot h m.entries fun _ he => he

theorem askSlot_run {sem : KeySemantics K} {m : HashedMap K V} {k : K} (hid : sem.isIdentity k = false)
    (es : List (K × V)) (hes : ∀ e ∈ es, e ∈ m.entries) :
    (askSlot (k := k) (sem.hash k) es hes).run (fun q => some (.ok (sem.answer q))) =
      some (.ok ((es.find? fun e => sameSlot sem k e.1).map Prod.snd)) := by
  induction es with
  | nil => rfl
  | cons e es ih =>
    have ih := ih fun f hf => hes f (List.mem_cons_of_mem e hf)
    have hslot : sameSlot sem k e.1 =
        (decide (sem.hash e.1 % 0x40000000000000 = sem.hash k % 0x40000000000000) && sem.equals k e.1) := by
      simp [sameSlot, hid]
    unfold askSlot
    rw [List.find?_cons, hslot]
    show (if sem.hash e.1 % 0x40000000000000 = sem.hash k % 0x40000000000000 then _ else _ :
      Asking m k).run _ = _
    by_cases hh : sem.hash e.1 % 0x40000000000000 = sem.hash k % 0x40000000000000
    · rw [if_pos hh]
      show (if sem.equals k e.1 then _ else _ : Asking m k).run _ = _
      cases he : sem.equals k e.1 with
      | true => simp [hh, Comp.run]
      | false =>
        simp only [Bool.and_false]
        exact ih
    · rw [if_neg hh]
      simp only [hh, decide_false, Bool.false_and]
      exact ih

theorem slotLookup_lawful : (slotLookup : Lookup (bySlot : Helper K V)).Lawful := by
  intro sem m k
  show (if sem.isIdentity k then _ else _ : Asking m k).run _ = _
  cases hid : sem.isIdentity k with
  | true => simp [Comp.run, bySlot, sameSlot, hid]
  | false =>
    simp only [Bool.false_eq_true, if_false, Comp.run, KeySemantics.answer]
    exact askSlot_run hid m.entries fun _ he => he

/-- A key that cannot be hashed is not looked up. -/
theorem slotLookup_get_none {hash : K → Option UInt64} {equals : K → K → Option Bool}
    {isIdentity : K → Bool} {m : HashedMap K V} {k : K} (hid : isIdentity k = false)
    (hk : hash k = none) : (slotLookup : Lookup bySlot).get hash equals isIdentity m k = none := by
  have hrun : (slotLookup.asks isIdentity m k).run (answering hash equals) = none := by
    show (if isIdentity k then _ else _ : Asking m k).run _ = none
    rw [hid]
    simp [Comp.run, answering, hk]
  unfold Lookup.get
  rw [hrun]

end Slots
end ProtoClojure.KeyedMap
