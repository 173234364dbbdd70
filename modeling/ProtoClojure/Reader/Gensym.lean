import Mathlib.Data.List.Basic
import Mathlib.Logic.Function.Basic

/-! The process-wide numbers of generated symbols, and the symbols that `foo#` stands for. -/
namespace ProtoClojure.Reader

/-- The counter, and the numbers that each caller has drawn, on whatever thread it runs. -/
structure Counter (C : Type) where
  value : Nat
  drawn : C → List Nat

section Draws
variable {C : Type} [DecidableEq C]

def Counter.start : Counter C := ⟨0, fun _ => []⟩

/-- One atomic addition: the number it answers is the new value. -/
def Counter.nextGensymId (s : Counter C) (c : C) : Counter C :=
  ⟨s.value + 1, Function.update s.drawn c (s.drawn c ++ [s.value + 1])⟩

/-- The draws of a run, in the order of their additions: any list of callers is one. -/
def Counter.run (callers : List C) : Counter C := callers.foldl nextGensymId .start

/-- Numbers drawn so far are not repeated. -/
structure Counter.Apart (s : Counter C) : Prop where
  le (c : C) : ∀ n ∈ s.drawn c, n ≤ s.value
  apart {c d : C} {n : Nat} : n ∈ s.drawn c → n ∈ s.drawn d → c = d

omit [DecidableEq C] in
theorem Counter.Apart.start : (Counter.start : Counter C).Apart where
  le c n h := by cases h
  apart h := by cases h

theorem Counter.mem_nextGensymId {s : Counter C} {c d : C} {n : Nat} :
    n ∈ (s.nextGensymId c).drawn d ↔ n ∈ s.drawn d ∨ d = c ∧ n = s.value + 1 := by
  by_cases hd : d = c
  · subst hd
    simp [nextGensymId]
  · simp [nextGensymId, hd]

theorem Counter.Apart.nextGensymId {s : Counter C} (h : s.Apart) (c : C) :
    (s.nextGensymId c).Apart where
  le d n hn := by
    rcases mem_nextGensymId.mp hn with hn | ⟨-, rfl⟩
    · exact Nat.le_succ_of_le (h.le d n hn)
    · exact Nat.le_refl _
  apart {d e n} hd he := by
    rcases mem_nextGensymId.mp hd with hd | ⟨rfl, rfl⟩
    · rcases mem_nextGensymId.mp he with he | ⟨-, rfl⟩
      · exact h.apart hd he
      · exact absurd (h.le d _ hd) (Nat.not_succ_le_self _)
    · rcases mem_nextGensymId.mp he with he | ⟨rfl, -⟩
      · exact absurd (h.le e _ he) (Nat.not_succ_le_self _)
      · rfl

theorem Counter.run_apart (callers : List C) : (Counter.run callers).Apart := by
  suffices h : ∀ s : Counter C, s.Apart → (callers.foldl Counter.nextGensymId s).Apart from
    h _ .start
  induction callers with
  | nil => exact fun s h => h
  | cons c callers ih => exact fun s h => ih _ (h.nextGensymId c)

end Draws

/-! ### Generated symbols -/

/-- `foo#`, without a namespace. -/
def isAutoGensym (spelling : String) : Bool :=
  1 < spelling.length && spelling.toList.getLast? == some '#' && !spelling.toList.contains '/'

/-- `foo__N__auto__` for `foo#`. -/
def autoGensym (spelling : String) (n : Nat) : String :=
  String.ofList spelling.toList.dropLast ++ "__" ++ toString n ++ "__auto__"

/-- What follows the last character that is no digit. -/
def lastDigits (s : List Char) : List Char := (s.reverse.takeWhile Char.isDigit).reverse

theorem lastDigits_append {s ds : List Char} {c : Char} (hc : c.isDigit = false)
    (hds : ∀ d ∈ ds, d.isDigit = true) : lastDigits (s ++ c :: ds) = ds := by
  have hreverse : (s ++ c :: ds).reverse = ds.reverse ++ c :: s.reverse := by simp
  rw [lastDigits, hreverse, List.takeWhile_append_of_pos fun d hd => hds d (List.mem_reverse.mp hd),
    List.takeWhile_cons_of_neg (by simp [hc]), List.append_nil, List.reverse_reverse]

theorem lastDigits_number (s : List Char) (n : Nat) :
    lastDigits (s ++ "__".toList ++ (toString n).toList) = Nat.toDigits 10 n := by
  have htext : s ++ "__".toList ++ (toString n).toList =
      (s ++ ['_']) ++ '_' :: Nat.toDigits 10 n := by
    simp
  rw [htext]
  exact lastDigits_append (by decide) fun d hd =>
    Nat.isDigit_of_mem_toDigits (by decide) (by decide) hd

theorem number_text {s t : List Char} {m n : Nat} (h : s ++ "__".toList ++ (toString m).toList =
    t ++ "__".toList ++ (toString n).toList) : m = n := by
  have hdigits := congrArg lastDigits h
  rw [lastDigits_number, lastDigits_number] at hdigits
  have hnumber := congrArg (Nat.ofDigitChars 10 · 0) hdigits
  simpa only [Nat.ofDigitChars_ten_toDigits] using hnumber

/-- The symbols generated from different numbers differ, whatever they stand for. -/
theorem autoGensym_number {s t : String} {m n : Nat} (h : autoGensym s m = autoGensym t n) :
    m = n := by
  have hlist := congrArg String.toList h
  simp only [autoGensym, String.toList_append, String.toList_ofList] at hlist
  exact number_text (List.append_cancel_right hlist)

end ProtoClojure.Reader
