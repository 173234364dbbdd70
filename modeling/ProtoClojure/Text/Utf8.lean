import Mathlib.Data.List.Basic

/-! UTF-8 texts as bytes, and the places between their characters. -/

namespace ProtoClojure.Text

def encode (cs : List Char) : List UInt8 := cs.flatMap String.utf8EncodeChar

def WellFormed (s : List UInt8) : Prop := ∃ cs, s = encode cs

/-- Between two characters, or at an end. -/
def IsBoundary (s : List UInt8) (pos : Nat) : Prop :=
  ∃ before after, s = encode before ++ encode after ∧ pos = (encode before).length

def isContinuation (b : UInt8) : Bool := b &&& 0xC0 == 0x80

/-- The length of a sequence, from its first byte. -/
def utf8Length (lead : UInt8) : Nat :=
  if lead < 0xC0 then 1
  else if lead < 0xE0 then 2
  else if lead < 0xF0 then 3
  else if lead < 0xF8 then 4
  else 1

@[simp] theorem encode_nil : encode [] = [] := rfl

theorem encode_cons (c : Char) (cs : List Char) :
    encode (c :: cs) = String.utf8EncodeChar c ++ encode cs := rfl

theorem encode_append (xs ys : List Char) : encode (xs ++ ys) = encode xs ++ encode ys :=
  List.flatMap_append

theorem IsBoundary.le {s : List UInt8} {pos : Nat} (h : IsBoundary s pos) : pos ≤ s.length := by
  obtain ⟨before, after, rfl, rfl⟩ := h
  rw [List.length_append]
  exact Nat.le_add_right ..

theorem isBoundary_zero {s : List UInt8} (h : WellFormed s) : IsBoundary s 0 := by
  obtain ⟨cs, rfl⟩ := h
  exact ⟨[], cs, rfl, rfl⟩

/-! ### The bytes of one character -/

theorem utf8Length_one : ∀ k < 128, utf8Length (UInt8.ofNat k) = 1 := by decide

theorem utf8Length_two : ∀ k < 32, utf8Length (UInt8.ofNat (k + 0xC0)) = 2 := by decide

theorem utf8Length_three : ∀ k < 16, utf8Length (UInt8.ofNat (k + 0xE0)) = 3 := by decide

theorem utf8Length_four : ∀ k < 8, utf8Length (UInt8.ofNat (k + 0xF0)) = 4 := by decide

theorem isContinuation_low : ∀ k < 64, isContinuation (UInt8.ofNat (k + 0x80)) = true := by decide

/-- The first byte tells the length, and the others go on. -/
theorem utf8EncodeChar_shape (c : Char) : ∃ lead more, String.utf8EncodeChar c = lead :: more ∧
    utf8Length lead = 1 + more.length ∧ more.all isContinuation = true := by
  unfold String.utf8EncodeChar
  dsimp only
  generalize c.val.toNat = v
  have hlow : ∀ n, isContinuation (UInt8.ofNat (n % 64 + 0x80)) = true := fun n =>
    isContinuation_low _ (Nat.mod_lt _ (by decide))
  split
  · rename_i h
    exact ⟨_, _, rfl, utf8Length_one v (by omega), rfl⟩
  split
  · refine ⟨_, _, rfl, utf8Length_two _ (Nat.mod_lt _ (by decide)), ?_⟩
    simp only [List.all_cons, List.all_nil, hlow, Bool.and_self]
  split
  · refine ⟨_, _, rfl, utf8Length_three _ (Nat.mod_lt _ (by decide)), ?_⟩
    simp only [List.all_cons, List.all_nil, hlow, Bool.and_self]
  · refine ⟨_, _, rfl, utf8Length_four _ (Nat.mod_lt _ (by decide)), ?_⟩
    simp only [List.all_cons, List.all_nil, hlow, Bool.and_self]

theorem IsBoundary.next {before after : List Char} (c : Char) :
    IsBoundary (encode before ++ encode (c :: after))
      ((encode before).length + (String.utf8EncodeChar c).length) := by
  refine ⟨before ++ [c], after, ?_, ?_⟩
  · simp [encode_append, encode_cons]
  · simp [encode_append, encode_cons]

end ProtoClojure.Text
