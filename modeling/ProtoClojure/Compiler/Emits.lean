import ProtoClojure.Compiler.Tracking

/-! Stretches of compiling that emit a tree of code, and how they are put together. -/
namespace ProtoClojure

/-- Between `s` and `s'` the code `c` was emitted; `R` holds of it, between the slot counters,
for all the tables the module may end with. -/
structure Emits (env : Env) (s s' : Session) (W W' : World) (c : Code) (R : Tables → Nat → Nat → Prop) :
    Prop where
  grows : Extends env s s' W W' (c.flatten s.offset)
  names : W'.map (·.1.names) = W.map (·.1.names)
  rel : ∀ T, Final T s' W' → R T W.next W'.next

section
variable {env : Env}

theorem Final.of_push {T : Tables} {s : Session} {W : World} {w : Instr}
    (h : Final T (s.push w) W) : Final T s W := ⟨h.consts, h.blocks, h.groups, h.captures, h.outer⟩

theorem Final.of_patch {T : Tables} {s : Session} {W : World} {i n : Nat}
    (h : Final T (s.patch i n) W) : Final T s W := ⟨h.consts, h.blocks, h.groups, h.captures, h.outer⟩

theorem Tracks.push {s : Session} {W : World} (h : Tracks env s W) (w : Instr) : Tracks env (s.push w) W :=
  (Extends.push h w).tracks

theorem Tracks.patch {s : Session} {W : World} (h : Tracks env s W) (i n : Nat) :
    Tracks env (s.patch i n) W := by
  refine ⟨h.scopes, h.ok, ?_, h.laid⟩
  have hs := h.start
  change s.bodyStart ≤ (s.out.code.modify i _).length
  rwa [List.length_modify]

theorem Tracks.offset_push {s : Session} {W : World} (h : Tracks env s W) (w : Instr) :
    (s.push w).offset = s.offset + 1 := Extends.offset h (Extends.push h w)

namespace Emits
variable {s s₁ s₂ s₃ s₄ s' : Session} {W W₁ W₂ W₃ W' : World} {c d c₁ c₂ c₃ : Code}
  {R R₁ R₂ R₃ Q : Tables → Nat → Nat → Prop}

theorem tracks (h : Emits env s s' W W' c R) : Tracks env s' W' := h.grows.tracks

theorem back (h : Emits env s s' W W' c R) {T : Tables} (hf : Final T s' W') : Final T s W :=
  hf.back h.grows (World.tail_names h.names)

theorem mono (h : Emits env s s' W W' c R)
    (hR : ∀ T lo hi, Final T s' W' → R T lo hi → Q T lo hi) : Emits env s s' W W' c Q :=
  ⟨h.grows, h.names, fun T hf => hR T _ _ hf (h.rel T hf)⟩

/-- The relation may name the last slot counter. -/
theorem atEnd (h : Emits env s s' W W' c R) :
    Emits env s s' W W' c fun T lo hi => hi = W'.next ∧ R T lo hi :=
  ⟨h.grows, h.names, fun T hf => ⟨rfl, h.rel T hf⟩⟩

/-- Another tree for the same instructions. -/
theorem congr (h : Emits env s s' W W' c R) (hc : ∀ k, d.flatten k = c.flatten k) :
    Emits env s s' W W' d R :=
  ⟨hc s.offset ▸ h.grows, h.names, h.rel⟩

theorem length (h : Emits env s s' W W' c R) : s'.out.code.length = s.out.code.length + c.len := by
  rw [h.grows.out.code, List.length_append, Code.flatten_length]

theorem offset (ht : Tracks env s W) (h : Emits env s s' W W' c R) : s'.offset = s.offset + c.len := by
  rw [Extends.offset ht h.grows, Code.flatten_length]

theorem nil (ht : Tracks env s W) (hR : ∀ T, Final T s W → R T W.next W.next) :
    Emits env s s W W .nil R :=
  ⟨.refl ht, rfl, hR⟩

theorem ins (ht : Tracks env s W) (w : Instr) (hR : ∀ T, Final T s W → R T W.next W.next) :
    Emits env s (s.push w) W W (.ins w) R :=
  ⟨.push ht w, rfl, fun T hf => hR T hf.of_push⟩

theorem seq (ht : Tracks env s W) (h₁ : Emits env s s₁ W W₁ c₁ R₁) (h₂ : Emits env s₁ s' W₁ W' c₂ R₂) :
    Emits env s s' W W' (.seq c₁ c₂) fun T lo hi => ∃ mid, R₁ T lo mid ∧ R₂ T mid hi := by
  refine ⟨?_, h₂.names.trans h₁.names, fun T hf => ⟨W₁.next, h₁.rel T (h₂.back hf), h₂.rel T hf⟩⟩
  have he := h₂.grows
  rw [offset ht h₁] at he
  exact h₁.grows.trans he

/-- A step that only adds to the tables or resolves a name, before the code. -/
theorem after (hx : Extends env s s₁ W W₁ []) (hn : W₁.map (·.1.names) = W.map (·.1.names))
    (ht : Tracks env s W) (h : Emits env s₁ s' W₁ W' c R) :
    Emits env s s' W W' c fun T lo hi => ∃ mid, lo ≤ mid ∧ R T mid hi := by
  refine ⟨?_, h.names.trans hn, fun T hf => ⟨W₁.next, hx.grows.next, h.rel T hf⟩⟩
  have ho := Extends.offset ht hx
  have he := h.grows
  rw [ho] at he
  exact hx.trans he

/-- A conditional jump over `c`, patched once `c` is emitted. -/
theorem skipIf (ht : Tracks env s W) (op : Op) (h : Emits env (s.push ⟨op, 0⟩) s₁ W W₁ c R) :
    Emits env s (s₁.patch s.out.code.length c.len) W W₁ (.skipIf op c) R := by
  have he := (Extends.push ht ⟨op, 0⟩).trans h.grows
  rw [ht.offset_push] at he
  refine ⟨?_, h.names, fun T hf => h.rel T hf.of_patch⟩
  exact Extends.patch (u := []) he rfl c.len

/-- Two branches: `JUMP_IF_FALSE` to the second, and a jump at the end of the first. -/
theorem branch (ht : Tracks env s W) (h₂ : Emits env (s.push ⟨.jumpIfFalse, 0⟩) s₂ W W₂ c₂ R₂)
    (h₃ : Emits env ((s₂.push ⟨.jump, 0⟩).patch s.out.code.length (c₂.len + 1)) s₄ W₂ W' c₃ R₃)
    {i : Nat} (hi : i = s.out.code.length + c₂.len + 1) :
    Emits env s (s₄.patch i c₃.len) W W' (.branch c₂ c₃)
      fun T lo hi => ∃ mid, R₂ T lo mid ∧ R₃ T mid hi := by
  have ht₂ := h₂.tracks
  have he₂ : Extends env s s₂ W W₂ (⟨.jumpIfFalse, 0⟩ :: c₂.flatten (s.offset + 1)) := by
    have he := (Extends.push ht ⟨.jumpIfFalse, 0⟩).trans h₂.grows
    rwa [ht.offset_push] at he
  have he₃ : Extends env s ((s₂.push ⟨.jump, 0⟩).patch s.out.code.length (c₂.len + 1)) W W₂
      (⟨.jumpIfFalse, c₂.len + 1⟩ :: (c₂.flatten (s.offset + 1) ++ [⟨.jump, 0⟩])) :=
    Extends.patch (u := []) (he₂.trans (Extends.push ht₂ ⟨.jump, 0⟩)) rfl _
  have ho : ((s₂.push ⟨.jump, 0⟩).patch s.out.code.length (c₂.len + 1)).offset =
      s.offset + c₂.len + 2 := by
    rw [Extends.offset ht he₃]
    simp only [List.length_cons, List.length_append, List.length_nil, Code.flatten_length]
    omega
  have he₄ := he₃.trans h₃.grows
  rw [ho] at he₄
  refine ⟨?_, h₃.names.trans h₂.names, fun T hf => ⟨W₂.next, h₂.rel T ?_, h₃.rel T hf.of_patch⟩⟩
  · have hp := Extends.patch (i := i) (n := c₃.len)
      (u := ⟨.jumpIfFalse, c₂.len + 1⟩ :: c₂.flatten (s.offset + 1)) (w := ⟨.jump, 0⟩)
      (v := c₃.flatten (s.offset + c₂.len + 2)) (by simpa using he₄) (by
        rw [hi, List.length_cons, Code.flatten_length]
        omega)
    simpa [Code.flatten] using hp
  · exact (h₃.back hf.of_patch).of_patch.of_push

/-- A protected stretch: the handler's entry is patched once `TRY_END` and the jump over the
handler are emitted, the jump once the handler is. -/
theorem protect (ht : Tracks env s W) (h₁ : Emits env (s.push ⟨.tryBegin, 0⟩) s₁ W W₁ c₁ R₁)
    (h₂ : Emits env (s₁.push ⟨.tryEnd, 0⟩) s₂ W₁ W₂ c₂ R₂)
    (h₃ : Emits env ((s₂.push ⟨.jump, 0⟩).patch s.out.code.length (c₁.len + c₂.len + 2)) s₄ W₂ W' c₃ R₃)
    {i : Nat} (hi : i = s.out.code.length + c₁.len + c₂.len + 2) :
    Emits env s (s₄.patch i c₃.len) W W' (.protect c₁ c₂ c₃)
      fun T lo hi => ∃ mid mid', R₁ T lo mid ∧ R₂ T mid mid' ∧ R₃ T mid' hi := by
  have ht₁ := h₁.tracks
  have ht₂ := h₂.tracks
  have he₁ : Extends env s (s₁.push ⟨.tryEnd, 0⟩) W W₁
      (⟨.tryBegin, 0⟩ :: (c₁.flatten (s.offset + 1) ++ [⟨.tryEnd, 0⟩])) := by
    have he := ((Extends.push ht ⟨.tryBegin, 0⟩).trans h₁.grows).trans
      (Extends.push ht₁ ⟨.tryEnd, 0⟩)
    rwa [ht.offset_push] at he
  have ho₁ : (s₁.push ⟨.tryEnd, 0⟩).offset = s.offset + c₁.len + 2 := by
    rw [Extends.offset ht he₁]
    simp only [List.length_cons, List.length_append, List.length_nil, Code.flatten_length]
    omega
  have he₂ := (he₁.trans h₂.grows).trans (Extends.push ht₂ ⟨.jump, 0⟩)
  rw [ho₁] at he₂
  have he₃ := Extends.patch (i := s.out.code.length) (n := c₁.len + c₂.len + 2) (u := [])
    (w := ⟨.tryBegin, 0⟩) (v := c₁.flatten (s.offset + 1) ++
      ⟨.tryEnd, 0⟩ :: (c₂.flatten (s.offset + c₁.len + 2) ++ [⟨.jump, 0⟩]))
    (by simpa using he₂) rfl
  have ho₃ : ((s₂.push ⟨.jump, 0⟩).patch s.out.code.length (c₁.len + c₂.len + 2)).offset =
      s.offset + c₁.len + c₂.len + 3 := by
    rw [Extends.offset ht he₃]
    simp only [List.length_cons, List.length_append, List.length_nil, Code.flatten_length]
    omega
  have he₄ := he₃.trans h₃.grows
  rw [ho₃] at he₄
  have hf₂ : ∀ T, Final T (s₄.patch i c₃.len) W' → Final T s₂ W₂ := fun T hf =>
    (h₃.back hf.of_patch).of_patch.of_push
  refine ⟨?_, (h₃.names.trans h₂.names).trans h₁.names, fun T hf =>
    ⟨W₁.next, W₂.next, h₁.rel T (h₂.back (hf₂ T hf)).of_push, h₂.rel T (hf₂ T hf),
      h₃.rel T hf.of_patch⟩⟩
  have hp := Extends.patch (i := i) (n := c₃.len)
    (u := ⟨.tryBegin, c₁.len + c₂.len + 2⟩ :: (c₁.flatten (s.offset + 1) ++
      ⟨.tryEnd, 0⟩ :: c₂.flatten (s.offset + c₁.len + 2))) (w := ⟨.jump, 0⟩)
    (v := c₃.flatten (s.offset + c₁.len + c₂.len + 3)) (by simpa using he₄) (by
      rw [hi]
      simp only [List.length_cons, List.length_append, Code.flatten_length]
      omega)
  simpa [Code.flatten] using hp

end Emits

end

end ProtoClojure
