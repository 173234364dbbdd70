import ProtoClojure.Recursion.Effects

/-! Computations whose calls take room: a call made where there is none left is refused, and
answers what a refusal answers. -/
namespace ProtoClojure.Recursion

variable {Q : Type} {A : Q → Type} {ε α : Type}

namespace Comp

/-- The computation with room for so many calls inside one another. `refuse` is what a call without
room answers; a call it says nothing of takes none. -/
def under (refuse : (q : Q) → Option (A q)) (room : Nat) :
    Comp Q A ε α → Comp (Nat × Q) (fun q => A q.2) ε α
  | .done a => .done a
  | .throw e => .throw e
  | .call q next =>
    match refuse q, room with
    | none, room => .call (room, q) fun a => (next a).under refuse room
    | some a, 0 => (next a).under refuse 0
    | some _, room + 1 => .call (room, q) fun a => (next a).under refuse (room + 1)

/-- The computation where what it calls takes its own place. -/
def inPlace (room : Nat) : Comp Q A ε α → Comp (Nat × Q) (fun q => A q.2) ε α
  | .done a => .done a
  | .throw e => .throw e
  | .call q next => .call (room, q) fun a => (next a).inPlace room

section Returns
variable {R : (q : Q) → A q → Prop} {R' : (q : Nat × Q) → A q.2 → Prop} {c : Comp Q A ε α} {a : α}

/-- Where the calls answer the same with room enough, so does the computation. -/
theorem Returns.under {refuse : (q : Q) → Option (A q)}
    (hR : ∀ q b, R q b → ∃ n, ∀ room, n ≤ room → R' (room, q) b) (h : c.Returns R a) :
    ∃ n, ∀ room, n ≤ room → (c.under refuse room).Returns R' a := by
  induction c with
  | done b => exact ⟨0, fun _ _ => h⟩
  | throw e => exact h.elim
  | call q next ih =>
    obtain ⟨b, hb, h⟩ := h
    obtain ⟨n, hn⟩ := hR q b hb
    obtain ⟨k, hk⟩ := ih b h
    refine ⟨max n k + 1, fun room hle => ?_⟩
    obtain ⟨room, rfl⟩ : ∃ r, room = r + 1 := ⟨room - 1, by omega⟩
    unfold Comp.under
    cases refuse q with
    | none => exact ⟨b, hn _ (by omega), hk _ (by omega)⟩
    | some _ => exact ⟨b, hn _ (by omega), hk _ (by omega)⟩

theorem Returns.inPlace (hR : ∀ q b, R q b → ∃ n, ∀ room, n ≤ room → R' (room, q) b)
    (h : c.Returns R a) : ∃ n, ∀ room, n ≤ room → (c.inPlace room).Returns R' a := by
  induction c with
  | done b => exact ⟨0, fun _ _ => h⟩
  | throw e => exact h.elim
  | call q next ih =>
    obtain ⟨b, hb, h⟩ := h
    obtain ⟨n, hn⟩ := hR q b hb
    obtain ⟨k, hk⟩ := ih b h
    exact ⟨max n k, fun room hle => ⟨b, hn room (by omega), hk room (by omega)⟩⟩

end Returns
end Comp

/-- Where every one ends as another does with room enough, so do they one after the other. -/
theorem Successive.enough {C S P : Type} {ends : C → S → P → S → Prop} {ends' : Nat → C → S → P → S → Prop}
    (hends : ∀ c s r s', ends c s r s' → ∃ n, ∀ room, n ≤ room → ends' room c s r s')
    {cs : List C} {s s' : S} {rs : List P} (h : Successive ends cs s rs s') :
    ∃ n, ∀ room, n ≤ room → Successive (ends' room) cs s rs s' := by
  induction cs generalizing s rs with
  | nil => exact ⟨0, fun _ _ => h⟩
  | cons c cs ih =>
    obtain ⟨r, rest, s₁, rfl, hr, hrest⟩ := h
    obtain ⟨n, hn⟩ := hends c s r s₁ hr
    obtain ⟨k, hk⟩ := ih hrest
    exact ⟨max n k, fun room hle => ⟨r, rest, s₁, rfl, hn room (by omega), hk room (by omega)⟩⟩

end ProtoClojure.Recursion
