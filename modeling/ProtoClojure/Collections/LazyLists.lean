import Mathlib.Order.Ideal
import Mathlib.Order.Hom.Basic
import Mathlib.Data.List.Infix
import Mathlib.Data.Stream.Init

/-! Possibly infinite lists, known by their beginnings: the ideals of partial lists, and the list
functions on them. -/
namespace ProtoClojure.LazyLists
open Order

/-- What is learnt of a list: its first elements, and whether these are all of them. -/
@[ext] structure PartialList (α : Type) where
  items : List α
  complete : Bool

namespace PartialList
variable {α β γ : Type}

/-- Below a list are the beginnings of it. -/
instance : PartialOrder (PartialList α) where
  le p q := p = q ∨ p.complete = false ∧ p.items <+: q.items
  le_refl _ := .inl rfl
  le_trans p q r := by
    rintro (rfl | ⟨hp, hpq⟩) hqr
    · exact hqr
    · rcases hqr with rfl | ⟨-, hqr⟩
      · exact .inr ⟨hp, hpq⟩
      · exact .inr ⟨hp, hpq.trans hqr⟩
  le_antisymm p q := by
    rintro (rfl | ⟨hp, hpq⟩) hqp
    · rfl
    · rcases hqp with rfl | ⟨hq, hqp⟩
      · rfl
      · exact PartialList.ext (hpq.eq_of_length (Nat.le_antisymm hpq.length_le hqp.length_le))
          (hp.trans hq.symm)

theorem le_iff {p q : PartialList α} : p ≤ q ↔ p = q ∨ p.complete = false ∧ p.items <+: q.items :=
  Iff.rfl

instance : OrderBot (PartialList α) where
  bot := ⟨[], false⟩
  bot_le _ := .inr ⟨rfl, List.nil_prefix⟩

theorem bot_def : (⊥ : PartialList α) = ⟨[], false⟩ := rfl

theorem items_prefix {p q : PartialList α} (h : p ≤ q) : p.items <+: q.items := by
  rcases h with rfl | ⟨-, h⟩
  · exact List.prefix_rfl
  · exact h

/-- The elements, then what is learnt of the rest. -/
def after (xs : List α) (p : PartialList α) : PartialList α := ⟨xs ++ p.items, p.complete⟩

theorem after_mono (xs : List α) : Monotone (after xs) := by
  rintro p q (rfl | ⟨hp, hpq⟩)
  · exact le_refl _
  · exact .inr ⟨hp, (List.prefix_append_right_inj xs).mpr hpq⟩

@[simp] theorem after_nil (p : PartialList α) : after [] p = p := rfl

theorem after_after (xs ys : List α) (p : PartialList α) :
    after xs (after ys p) = after (xs ++ ys) p :=
  PartialList.ext (List.append_assoc xs ys p.items).symm rfl

/-- A function of the elements that keeps a beginning a beginning, and the beginnings from which
its answer is fixed. -/
structure Reader (α β : Type) where
  answer : List α → List β
  stops : List α → Bool
  grows : ∀ xs ys, xs <+: ys → answer xs <+: answer ys
  fixed : ∀ xs ys, xs <+: ys → stops xs = true → stops ys = true ∧ answer ys = answer xs

namespace Reader

/-- A function that may always answer more. -/
def steady (answer : List α → List β) (grows : ∀ xs ys, xs <+: ys → answer xs <+: answer ys) :
    Reader α β where
  answer := answer
  stops _ := false
  grows := grows
  fixed _ _ _ h := by cases h

def read (r : Reader α β) (p : PartialList α) : PartialList β :=
  ⟨r.answer p.items, p.complete || r.stops p.items⟩

theorem read_mono (r : Reader α β) : Monotone r.read := by
  rintro p q (rfl | ⟨hp, hpq⟩)
  · exact le_refl _
  · cases hs : r.stops p.items with
    | false => exact .inr ⟨by simp [read, hp, hs], r.grows _ _ hpq⟩
    | true =>
      obtain ⟨hq, heq⟩ := r.fixed _ _ hpq hs
      exact .inl (PartialList.ext heq.symm (by simp [read, hs, hq]))

end Reader

/-- The first list is asked first: once it ends the second does not count. -/
def zipWith (f : α → β → γ) (p : PartialList α) (q : PartialList β) : PartialList γ :=
  ⟨List.zipWith f p.items q.items,
    if p.items.length ≤ q.items.length then p.complete else q.complete⟩

theorem zipWith_after (f : α → β → γ) (x : α) (y : β) (p : PartialList α) (q : PartialList β) :
    zipWith f (after [x] p) (after [y] q) = after [f x y] (zipWith f p q) := by
  simp [zipWith, after]

theorem prefix_zipWith {f : α → β → γ} {xs xs' : List α} {ys ys' : List β} (hx : xs <+: xs')
    (hy : ys <+: ys') : List.zipWith f xs ys <+: List.zipWith f xs' ys' := by
  induction xs generalizing xs' ys ys' with
  | nil => exact List.nil_prefix
  | cons x xs ih =>
    cases ys with
    | nil => exact List.nil_prefix
    | cons y ys =>
      obtain ⟨t, rfl⟩ := hx
      obtain ⟨u, rfl⟩ := hy
      exact List.cons_prefix_cons.mpr ⟨rfl, ih (List.prefix_append xs t) (List.prefix_append ys u)⟩

theorem zipWith_mono_right (f : α → β → γ) (p : PartialList α) : Monotone (zipWith f p) := by
  rintro q q' (rfl | ⟨hq, hqq'⟩)
  · exact le_refl _
  · have hle := hqq'.length_le
    by_cases hlen : p.items.length ≤ q.items.length
    · -- the first list has ended, or is not known further
      refine .inl (PartialList.ext ?_ (by simp [zipWith, hlen, hlen.trans hle]))
      refine (prefix_zipWith List.prefix_rfl hqq').eq_of_length ?_
      simp only [List.length_zipWith]
      omega
    · exact .inr ⟨by simp [zipWith, hlen, hq], prefix_zipWith List.prefix_rfl hqq'⟩

theorem zipWith_mono_left (f : α → β → γ) {p p' : PartialList α} (h : p ≤ p')
    (q : PartialList β) : zipWith f p q ≤ zipWith f p' q := by
  rcases h with rfl | ⟨hp, hpp'⟩
  · exact le_refl _
  · have hle := hpp'.length_le
    by_cases hlen : p.items.length ≤ q.items.length
    · exact .inr ⟨by simp [zipWith, hlen, hp], prefix_zipWith hpp' List.prefix_rfl⟩
    · have hlen' : ¬ p'.items.length ≤ q.items.length := by omega
      refine .inl (PartialList.ext ?_ (by simp [zipWith, hlen, hlen']))
      refine (prefix_zipWith hpp' List.prefix_rfl).eq_of_length ?_
      simp only [List.length_zipWith]
      omega

end PartialList
open PartialList (after Reader)

/-- A list as far as it can be read: finite, infinite, or with no end that can be reached. -/
abbrev LazyList (α : Type) : Type := Ideal (PartialList α)

namespace LazyList
variable {α β γ : Type}

theorem bot_mem (l : LazyList α) : ⊥ ∈ l := by
  obtain ⟨p, hp⟩ := l.nonempty
  exact l.lower bot_le hp

theorem ext_iff_mem {l m : LazyList α} : l = m ↔ ∀ p, p ∈ l ↔ p ∈ m := SetLike.ext_iff

/-- A list of which nothing is learnt. -/
theorem eq_bot_iff_mem {l : LazyList α} : l = ⊥ ↔ ∀ p ∈ l, p = ⊥ := by
  constructor
  · rintro rfl p hp
    exact le_bot_iff.mp hp
  · intro h
    refine ext_iff_mem.mpr fun p => ⟨fun hp => ?_, fun hp => ?_⟩
    · rw [h p hp]
      exact bot_mem ⊥
    · rw [le_bot_iff.mp (show p ≤ ⊥ from hp)]
      exact bot_mem l

theorem exists_ne_bot {l : LazyList α} (h : l ≠ ⊥) : ∃ p ∈ l, p ≠ ⊥ := by
  by_contra hnone
  refine h (eq_bot_iff_mem.mpr fun p hp => ?_)
  by_contra hp'
  exact hnone ⟨p, hp, hp'⟩

/-- What a function of beginnings answers for the whole list. -/
def extend (g : PartialList α →o LazyList β) (l : LazyList α) : LazyList β :=
  IsIdeal.toIdeal (I := {q | ∃ p ∈ l, q ∈ g p})
    { IsLowerSet := fun q q' hle ⟨p, hp, hq⟩ => ⟨p, hp, (g p).lower hle hq⟩
      Nonempty := ⟨⊥, ⊥, bot_mem l, bot_mem (g ⊥)⟩
      Directed := by
        rintro q ⟨p, hp, hq⟩ q' ⟨p', hp', hq'⟩
        obtain ⟨r, hr, hpr, hpr'⟩ := l.directed p hp p' hp'
        obtain ⟨t, ht, hqt, hqt'⟩ :=
          (g r).directed q (g.monotone hpr hq) q' (g.monotone hpr' hq')
        exact ⟨t, ⟨r, hr, ht⟩, hqt, hqt'⟩ }

theorem mem_extend {g : PartialList α →o LazyList β} {l : LazyList α} {q : PartialList β} :
    q ∈ extend g l ↔ ∃ p ∈ l, q ∈ g p := Iff.rfl

theorem extend_principal {g : PartialList α →o LazyList β} {p : PartialList α} :
    extend g (.principal p) = g p := by
  refine ext_iff_mem.mpr fun q => ⟨?_, fun hq => ⟨p, le_refl p, hq⟩⟩
  rintro ⟨p', hp', hq⟩
  exact g.monotone hp' hq

theorem extend_mono {g g' : PartialList α →o LazyList β} {l l' : LazyList α} (hg : ∀ p, g p ≤ g' p)
    (hl : l ≤ l') : extend g l ≤ extend g' l' := by
  rintro q ⟨p, hp, hq⟩
  exact ⟨p, hl hp, hg p hq⟩

theorem extend_const {g : PartialList α →o LazyList β} {l : LazyList α} {m : LazyList β}
    (h : ∀ p, g p = m) : extend g l = m := by
  refine ext_iff_mem.mpr fun q => ⟨?_, fun hq => ⟨⊥, bot_mem l, (h ⊥).symm ▸ hq⟩⟩
  rintro ⟨p, -, hq⟩
  exact h p ▸ hq

/-- A function that answers a beginning for a beginning. -/
def lift (g : PartialList α →o PartialList β) (l : LazyList α) : LazyList β :=
  extend ⟨fun p => .principal (g p), fun _ _ h => Ideal.principal_le_iff.mpr (g.monotone h)⟩ l

theorem lift_principal {g : PartialList α →o PartialList β} {p : PartialList α} :
    lift g (.principal p) = .principal (g p) := extend_principal

/-! ### Finite lists, and elements put in front -/

def ofList (xs : List α) : LazyList α := .principal ⟨xs, true⟩

def prepend (xs : List α) : LazyList α → LazyList α := lift ⟨after xs, PartialList.after_mono xs⟩

section Prepend
variable {xs ys : List α} {l : LazyList α} {p : PartialList α}

theorem prepend_principal : prepend xs (.principal p) = .principal (after xs p) := lift_principal

theorem prepend_ofList : prepend xs (ofList ys) = ofList (xs ++ ys) := prepend_principal

theorem mem_prepend : p ∈ prepend xs l ↔ ∃ q ∈ l, p ≤ after xs q := Iff.rfl

/-- What is learnt: no more than the elements in front, or those and something of the rest. -/
theorem mem_prepend_iff : p ∈ prepend xs l ↔ p ≤ ⟨xs, false⟩ ∨ ∃ q ∈ l, p = after xs q := by
  constructor
  · rintro ⟨q, hq, rfl | ⟨hp, hpq⟩⟩
    · exact .inr ⟨q, hq, rfl⟩
    · rcases List.prefix_or_prefix_of_prefix hpq (List.prefix_append xs q.items) with h | ⟨t, ht⟩
      · exact .inl (.inr ⟨hp, h⟩)
      · have htq : t <+: q.items := by
          rw [← ht] at hpq
          exact (List.prefix_append_right_inj xs).mp hpq
        exact .inr ⟨⟨t, false⟩, l.lower (.inr ⟨rfl, htq⟩) hq, PartialList.ext ht.symm hp⟩
  · rintro (h | ⟨q, hq, rfl⟩)
    · refine ⟨⊥, bot_mem l, h.trans (le_of_eq ?_)⟩
      exact PartialList.ext (List.append_nil xs).symm rfl
    · exact mem_prepend.mpr ⟨q, hq, le_refl _⟩

theorem mem_prepend_singleton {x : α} (hp : p ∈ prepend [x] l) (hne : p ≠ ⊥) :
    ∃ q ∈ l, p = after [x] q := by
  rcases mem_prepend_iff.mp hp with hle | hq
  · refine ⟨⊥, bot_mem l, ?_⟩
    rcases hle with rfl | ⟨hc, hle⟩
    · rfl
    · obtain ⟨items, complete⟩ := p
      cases items with
      | nil => exact (hne (PartialList.ext rfl hc)).elim
      | cons y items =>
        obtain ⟨rfl, hnil⟩ := List.cons_prefix_cons.mp hle
        exact PartialList.ext (congrArg (y :: ·) (List.prefix_nil.mp hnil)) hc
  · exact hq

theorem prepend_prepend : prepend xs (prepend ys l) = prepend (xs ++ ys) l := by
  refine ext_iff_mem.mpr fun p => ?_
  constructor
  · intro hp
    obtain ⟨q, hq, hpq⟩ := mem_prepend.mp hp
    obtain ⟨r, hr, hqr⟩ := mem_prepend.mp hq
    refine mem_prepend.mpr ⟨r, hr, hpq.trans ?_⟩
    rw [← PartialList.after_after]
    exact PartialList.after_mono xs hqr
  · intro hp
    obtain ⟨r, hr, hpr⟩ := mem_prepend.mp hp
    rw [← PartialList.after_after] at hpr
    exact mem_prepend.mpr ⟨after ys r, mem_prepend.mpr ⟨r, hr, le_refl _⟩, hpr⟩

theorem prepend_nil : prepend [] l = l := by
  refine ext_iff_mem.mpr fun q => ⟨?_, fun hq => mem_prepend.mpr ⟨q, hq, le_refl q⟩⟩
  intro hq
  obtain ⟨r, hr, hle⟩ := mem_prepend.mp hq
  exact l.lower hle hr

theorem prepend_ne_bot (h : xs ≠ []) : prepend xs l ≠ ⊥ := by
  intro hbot
  have hmem : (⟨xs, false⟩ : PartialList α) ∈ prepend xs l := mem_prepend_iff.mpr (.inl (le_refl _))
  exact h (congrArg PartialList.items (eq_bot_iff_mem.mp hbot _ hmem))

theorem ofList_ne_bot : ofList xs ≠ ⊥ := by
  intro hbot
  have hmem : (⟨xs, true⟩ : PartialList α) ∈ ofList xs := Ideal.mem_principal_self
  cases congrArg PartialList.complete (eq_bot_iff_mem.mp hbot _ hmem)

theorem extend_ofList {g : PartialList α →o LazyList β} : extend g (ofList xs) = g ⟨xs, true⟩ :=
  extend_principal

/-- The elements in front do not count. -/
theorem extend_onward {g g' : PartialList α →o LazyList β} (h : ∀ p, g (after xs p) = g' p) :
    extend g (prepend xs l) = extend g' l := by
  refine ext_iff_mem.mpr fun q => ?_
  constructor
  · rintro ⟨p, hp, hq⟩
    obtain ⟨r, hr, hle⟩ := mem_prepend.mp hp
    exact ⟨r, hr, h r ▸ g.monotone hle hq⟩
  · rintro ⟨r, hr, hq⟩
    exact ⟨after xs r, mem_prepend.mpr ⟨r, hr, le_refl _⟩, (h r).symm ▸ hq⟩

theorem extend_prepend {g g' : PartialList α →o LazyList β} {zs : List β}
    (h : ∀ p, g (after xs p) = prepend zs (g' p)) :
    extend g (prepend xs l) = prepend zs (extend g' l) := by
  refine ext_iff_mem.mpr fun q => ?_
  constructor
  · rintro ⟨p, ⟨r, hr, hp⟩, hq⟩
    obtain ⟨t, ht, hqt⟩ := h r ▸ g.monotone hp hq
    exact ⟨t, ⟨r, hr, ht⟩, hqt⟩
  · rintro ⟨t, ⟨r, hr, ht⟩, hqt⟩
    exact ⟨after xs r, mem_prepend.mpr ⟨r, hr, le_refl _⟩, h r ▸ ⟨t, ht, hqt⟩⟩

end Prepend

/-! ### Elements -/

/-- The element can be reached. -/
def Has (l : LazyList α) (x : α) : Prop := ∃ p ∈ l, x ∈ p.items

section Has
variable {xs : List α} {x : α} {l : LazyList α}

theorem has_prepend : Has (prepend xs l) x ↔ x ∈ xs ∨ Has l x := by
  constructor
  · rintro ⟨p, hp, hx⟩
    obtain ⟨q, hq, hle⟩ := mem_prepend.mp hp
    have hmem : x ∈ xs ++ q.items := (PartialList.items_prefix hle).subset hx
    exact (List.mem_append.mp hmem).imp id fun hx => ⟨q, hq, hx⟩
  · rintro (hx | ⟨q, hq, hx⟩)
    · exact ⟨⟨xs, false⟩, mem_prepend_iff.mpr (.inl (le_refl _)), hx⟩
    · exact ⟨after xs q, mem_prepend_iff.mpr (.inr ⟨q, hq, rfl⟩), List.mem_append_right xs hx⟩

end Has

/-! ### Functions that read their list from the front -/

def through (r : Reader α β) : LazyList α → LazyList β := lift ⟨r.read, r.read_mono⟩

section Through
variable {r r' : Reader α β} {xs : List α} {ys : List β} {l : LazyList α}

theorem through_ofList : through r (ofList xs) = ofList (r.answer xs) := lift_principal

/-- Past some elements the function goes on as another. -/
theorem through_prepend (ha : ∀ zs, r.answer (xs ++ zs) = ys ++ r'.answer zs)
    (hs : ∀ zs, r.stops (xs ++ zs) = r'.stops zs) :
    through r (prepend xs l) = prepend ys (through r' l) := by
  refine extend_prepend fun p => ?_
  refine Eq.trans ?_ prepend_principal.symm
  refine congrArg Ideal.principal (PartialList.ext (ha p.items) ?_)
  exact congrArg (p.complete || ·) (hs p.items)

/-- The elements in front do not count. -/
theorem through_onward (ha : ∀ zs, r.answer (xs ++ zs) = r'.answer zs)
    (hs : ∀ zs, r.stops (xs ++ zs) = r'.stops zs) : through r (prepend xs l) = through r' l := by
  have h : through r (prepend xs l) = prepend [] (through r' l) := through_prepend ha hs
  rwa [prepend_nil] at h

theorem through_stopped (h : r.stops xs = true) :
    through r (prepend xs l) = ofList (r.answer xs) := by
  refine ext_iff_mem.mpr fun q => ?_
  have hread (p : PartialList α) : r.read (after xs p) = ⟨r.answer xs, true⟩ := by
    obtain ⟨hstop, heq⟩ := r.fixed xs (xs ++ p.items) (List.prefix_append xs p.items) h
    exact PartialList.ext heq (by simp [Reader.read, after, hstop])
  constructor
  · rintro ⟨p, ⟨t, -, hp⟩, hq⟩
    have hle : q ≤ r.read (after xs t) := le_trans hq (r.read_mono hp)
    rw [hread] at hle
    exact hle
  · intro hq
    refine ⟨after xs ⊥, mem_prepend.mpr ⟨⊥, bot_mem l, le_refl _⟩, ?_⟩
    show q ≤ r.read (after xs ⊥)
    rw [hread]
    exact hq

theorem through_bot (ha : r.answer [] = []) (hs : r.stops [] = false) : through r ⊥ = ⊥ := by
  have h : through r (.principal ⊥) = .principal (r.read ⊥) := lift_principal
  have hbot : r.read ⊥ = ⊥ := PartialList.ext ha hs
  rw [hbot] at h
  exact h

theorem through_id {r : Reader α α} (ha : ∀ xs, r.answer xs = xs) (hs : ∀ xs, r.stops xs = false) :
    through r l = l := by
  have hread (p : PartialList α) : r.read p = p := by
    refine PartialList.ext (ha p.items) ?_
    show (p.complete || r.stops p.items) = p.complete
    rw [hs, Bool.or_false]
  refine ext_iff_mem.mpr fun q => ⟨?_, fun hq => ?_⟩
  · rintro ⟨p, hp, hq⟩
    exact l.lower (hread p ▸ hq) hp
  · refine ⟨q, hq, ?_⟩
    show q ≤ r.read q
    rw [hread]

/-- Where the elements in front do not count, what is answered comes from the rest. -/
theorem read_onward {p : PartialList α} (ha : ∀ zs, r.answer (xs ++ zs) = r.answer zs)
    (hs : ∀ zs, r.stops (xs ++ zs) = r.stops zs) (hbot : r.read ⊥ = ⊥) (hp : p ∈ prepend xs l)
    (hne : r.read p ≠ ⊥) : ∃ q ∈ l, p = after xs q ∧ r.read q ≠ ⊥ := by
  have hafter (q : PartialList α) : r.read (after xs q) = r.read q :=
    PartialList.ext (ha q.items) (congrArg (q.complete || ·) (hs q.items))
  rcases mem_prepend_iff.mp hp with hle | ⟨q, hq, rfl⟩
  · have hxs : after xs ⊥ = ⟨xs, false⟩ := PartialList.ext (List.append_nil xs) rfl
    rw [← hxs] at hle
    have hle := r.read_mono hle
    rw [hafter, hbot] at hle
    exact absurd (le_bot_iff.mp hle) hne
  · exact ⟨q, hq, rfl, hafter q ▸ hne⟩

theorem exists_read_ne_bot (h : through r l ≠ ⊥) : ∃ p ∈ l, r.read p ≠ ⊥ := by
  obtain ⟨q, ⟨p, hp, hq⟩, hne⟩ := exists_ne_bot h
  exact ⟨p, hp, fun hbot => hne (le_bot_iff.mp (hbot ▸ hq))⟩

end Through

/-! ### The list functions -/

section Functions
variable {xs : List α} {x : α} {l : LazyList α} {f : α → β} {p : α → Bool} {n : Nat}

def map (f : α → β) : LazyList α → LazyList β :=
  through (.steady (List.map f) fun _ _ h => h.map f)

theorem mem_map {q : PartialList β} :
    q ∈ map f l ↔ ∃ p ∈ l, q ≤ ⟨p.items.map f, p.complete⟩ := by
  have h : q ∈ map f l ↔ ∃ p ∈ l, q ≤ ⟨p.items.map f, p.complete || false⟩ := Iff.rfl
  simpa only [Bool.or_false] using h

theorem has_map {y : β} (h : Has (map f l) y) : ∃ x, Has l x ∧ f x = y := by
  obtain ⟨q, hq, hy⟩ := h
  obtain ⟨p, hp, hle⟩ := mem_map.mp hq
  obtain ⟨x, hx, rfl⟩ := List.mem_map.mp ((PartialList.items_prefix hle).subset hy)
  exact ⟨x, ⟨p, hp, hx⟩, rfl⟩

theorem map_map {g : β → γ} : map g (map f l) = map (fun x => g (f x)) l := by
  have hread (p : PartialList α) : (⟨(p.items.map f).map g, p.complete⟩ : PartialList γ) =
      ⟨p.items.map fun x => g (f x), p.complete⟩ :=
    PartialList.ext List.map_map rfl
  refine ext_iff_mem.mpr fun q => ?_
  rw [mem_map, mem_map]
  constructor
  · rintro ⟨r, hr, hq⟩
    obtain ⟨p, hp, hle⟩ := mem_map.mp hr
    refine ⟨p, hp, hq.trans (le_trans ?_ (le_of_eq (hread p)))⟩
    rcases hle with rfl | ⟨hc, hle⟩
    · exact le_refl _
    · exact .inr ⟨hc, hle.map g⟩
  · rintro ⟨p, hp, hq⟩
    exact ⟨_, mem_map.mpr ⟨p, hp, le_refl _⟩, hread p ▸ hq⟩

theorem map_prepend : map f (prepend xs l) = prepend (xs.map f) (map f l) :=
  through_prepend (fun _ => List.map_append) fun _ => rfl

theorem map_ofList : map f (ofList xs) = ofList (xs.map f) := through_ofList

theorem map_bot : map f ⊥ = ⊥ := through_bot rfl rfl

def filter (p : α → Bool) : LazyList α → LazyList α :=
  through (.steady (List.filter p) fun _ _ h => h.filter p)

theorem filter_prepend : filter p (prepend xs l) = prepend (xs.filter p) (filter p l) :=
  through_prepend (fun zs => List.filter_append xs zs) fun _ => rfl

theorem filter_ofList : filter p (ofList xs) = ofList (xs.filter p) := through_ofList

theorem filter_bot : filter p ⊥ = ⊥ := through_bot rfl rfl

def take (n : Nat) : LazyList α → LazyList α :=
  through
    { answer := List.take n
      stops := fun xs => n ≤ xs.length
      grows := fun _ _ h => h.take n
      fixed := by
        rintro xs _ ⟨t, rfl⟩ h
        have hle : n ≤ xs.length := of_decide_eq_true h
        refine ⟨decide_eq_true ?_, List.take_append_of_le_length hle⟩
        rw [List.length_append]
        omega }

theorem take_zero : take 0 l = ofList [] := by
  have h : take 0 (prepend [] l) = ofList [] := through_stopped (decide_eq_true (Nat.zero_le 0))
  rwa [prepend_nil] at h

theorem take_cons : take (n + 1) (prepend [x] l) = prepend [x] (take n l) :=
  through_prepend (fun _ => rfl) fun zs => by simp

theorem take_ofList : take n (ofList xs) = ofList (xs.take n) := through_ofList

theorem take_bot : take (n + 1) (⊥ : LazyList α) = ⊥ := through_bot rfl rfl

def takeWhile (p : α → Bool) : LazyList α → LazyList α :=
  through
    { answer := List.takeWhile p
      stops := fun xs => xs.any (!p ·)
      grows := by
        rintro xs _ ⟨t, rfl⟩
        induction xs with
        | nil => exact List.nil_prefix
        | cons x xs ih =>
          cases hx : p x with
          | false => simp [hx]
          | true => simpa [hx] using ih
      fixed := by
        rintro xs _ ⟨t, rfl⟩ h
        refine ⟨by rw [List.any_append, h, Bool.true_or], ?_⟩
        induction xs with
        | nil => cases h
        | cons x xs ih =>
          cases hx : p x with
          | false => simp [hx]
          | true => simpa [hx] using ih (by simpa [hx] using h) }

theorem takeWhile_cons_true (h : p x = true) :
    takeWhile p (prepend [x] l) = prepend [x] (takeWhile p l) :=
  through_prepend (fun zs => by simp [h]) fun zs => by simp [h]

theorem takeWhile_cons_false (h : p x = false) : takeWhile p (prepend [x] l) = ofList [] := by
  have hstop : takeWhile p (prepend [x] l) = ofList (List.takeWhile p [x]) :=
    through_stopped (by simp [h])
  rwa [List.takeWhile_cons_of_neg (by simp [h])] at hstop

theorem takeWhile_ofList : takeWhile p (ofList xs) = ofList (xs.takeWhile p) := through_ofList

theorem takeWhile_bot : takeWhile p ⊥ = ⊥ := through_bot rfl rfl

def drop (n : Nat) : LazyList α → LazyList α :=
  through (.steady (List.drop n) fun _ _ h => h.drop n)

theorem drop_zero : drop 0 l = l := through_id (fun _ => rfl) fun _ => rfl

theorem drop_cons : drop (n + 1) (prepend [x] l) = drop n l :=
  through_onward (fun _ => rfl) fun _ => rfl

theorem drop_ofList : drop n (ofList xs) = ofList (xs.drop n) := through_ofList

theorem drop_bot : drop n (⊥ : LazyList α) = ⊥ := through_bot List.drop_nil rfl

def dropWhile (p : α → Bool) : LazyList α → LazyList α :=
  through (.steady (List.dropWhile p) fun xs _ h => by
    obtain ⟨t, rfl⟩ := h
    induction xs with
    | nil => exact List.nil_prefix
    | cons x xs ih =>
      cases hx : p x with
      | false => simp [hx]
      | true => simpa [hx] using ih)

theorem dropWhile_cons_true (h : p x = true) : dropWhile p (prepend [x] l) = dropWhile p l :=
  through_onward (fun _ => List.dropWhile_cons_of_pos h) fun _ => rfl

theorem dropWhile_cons_false (h : p x = false) : dropWhile p (prepend [x] l) = prepend [x] l := by
  have hrest : through (.steady id fun _ _ h => h) l = l := through_id (fun _ => rfl) fun _ => rfl
  conv_rhs => rw [← hrest]
  exact through_prepend (fun _ => List.dropWhile_cons_of_neg (by simp [h])) fun _ => rfl

theorem dropWhile_ofList : dropWhile p (ofList xs) = ofList (xs.dropWhile p) := through_ofList

theorem dropWhile_bot : dropWhile p ⊥ = ⊥ := through_bot rfl rfl

end Functions

/-- The elements equal to none of the seen ones and to none before them. -/
def firstSeen (equals : α → α → Bool) : List α → List α → List α
  | _, [] => []
  | seen, x :: xs =>
    if seen.any (equals x) then firstSeen equals seen xs
    else x :: firstSeen equals (x :: seen) xs

def distinct (equals : α → α → Bool) (seen : List α) : LazyList α → LazyList α :=
  through (.steady (firstSeen equals seen) fun xs _ h => by
    obtain ⟨t, rfl⟩ := h
    induction xs generalizing seen with
    | nil => exact List.nil_prefix
    | cons x xs ih =>
      simp only [List.cons_append, firstSeen]
      split
      · exact ih seen
      · exact List.cons_prefix_cons.mpr ⟨rfl, ih (x :: seen)⟩)

section Distinct
variable {equals : α → α → Bool} {seen : List α} {x : α} {l : LazyList α}

theorem distinct_cons_seen (h : seen.any (equals x) = true) :
    distinct equals seen (prepend [x] l) = distinct equals seen l :=
  through_onward (fun _ => if_pos h) fun _ => rfl

theorem distinct_cons_new (h : seen.any (equals x) = false) :
    distinct equals seen (prepend [x] l) = prepend [x] (distinct equals (x :: seen) l) :=
  through_prepend (fun _ => if_neg (by simp [h])) fun _ => rfl

theorem distinct_ofList {xs : List α} :
    distinct equals seen (ofList xs) = ofList (firstSeen equals seen xs) := through_ofList

theorem distinct_bot : distinct equals seen ⊥ = ⊥ := through_bot rfl rfl

end Distinct

def flatten : LazyList (List α) → LazyList α :=
  through (.steady List.flatten fun _ _ h => by
    obtain ⟨t, rfl⟩ := h
    rw [List.flatten_append]
    exact List.prefix_append _ _)

section Flatten
variable {xs : List α} {l : LazyList (List α)}

theorem mem_flatten {q : PartialList α} :
    q ∈ flatten l ↔ ∃ p ∈ l, q ≤ ⟨p.items.flatten, p.complete⟩ := by
  have h : q ∈ flatten l ↔ ∃ p ∈ l, q ≤ ⟨p.items.flatten, p.complete || false⟩ := Iff.rfl
  simpa only [Bool.or_false] using h

theorem flatten_cons : flatten (prepend [xs] l) = prepend xs (flatten l) :=
  through_prepend (fun _ => rfl) fun _ => rfl

theorem flatten_ofList {xss : List (List α)} : flatten (ofList xss) = ofList xss.flatten :=
  through_ofList

theorem flatten_bot : flatten (⊥ : LazyList (List α)) = ⊥ := through_bot rfl rfl

end Flatten

/-! #### Several lists at once -/

def zipWith (f : α → β → γ) (l : LazyList α) (m : LazyList β) : LazyList γ :=
  extend ⟨fun p => lift ⟨PartialList.zipWith f p, PartialList.zipWith_mono_right f p⟩ m,
    fun _ _ h => extend_mono (fun q => Ideal.principal_le_iff.mpr
      (PartialList.zipWith_mono_left f h q)) (le_refl m)⟩ l

section ZipWith
variable {f : α → β → γ} {x : α} {y : β} {l : LazyList α} {m : LazyList β}

theorem zipWith_cons : zipWith f (prepend [x] l) (prepend [y] m) =
    prepend [f x y] (zipWith f l m) := by
  refine extend_prepend fun p => extend_prepend fun q => ?_
  refine Eq.trans ?_ prepend_principal.symm
  exact congrArg Ideal.principal (PartialList.zipWith_after f x y p q)

theorem zipWith_nil_left : zipWith f (ofList []) m = ofList [] :=
  extend_ofList.trans (extend_const fun _ => congrArg Ideal.principal (by
    simp [PartialList.zipWith]))

theorem zipWith_principal_right {q : PartialList β} {r : PartialList γ}
    (h : ∀ p, PartialList.zipWith f (after [x] p) q = r) :
    zipWith f (prepend [x] l) (.principal q) = .principal r := by
  have hconst : extend ⟨fun _ => .principal r, fun _ _ _ => le_refl _⟩ l = .principal r :=
    extend_const fun _ => rfl
  refine (extend_onward fun p => ?_).trans hconst
  exact lift_principal.trans (congrArg Ideal.principal (h p))

theorem zipWith_nil_right : zipWith f (prepend [x] l) (ofList []) = ofList [] :=
  zipWith_principal_right fun _ => by simp [PartialList.zipWith, after]

theorem zipWith_bot_left : zipWith f ⊥ m = ⊥ :=
  (extend_principal (p := ⊥)).trans (extend_const fun _ => congrArg Ideal.principal (by
    simp [PartialList.zipWith, PartialList.bot_def]))

theorem zipWith_bot_right : zipWith f (prepend [x] l) ⊥ = ⊥ :=
  zipWith_principal_right fun _ => by simp [PartialList.zipWith, after, PartialList.bot_def]

end ZipWith

/-- The second list follows the first, where the first ends. -/
def append (l m : LazyList α) : LazyList α :=
  extend ⟨fun p => if p.complete then prepend p.items m else .principal p, by
    rintro p q (rfl | ⟨hp, hpq⟩)
    · exact le_refl _
    · have hle : p ≤ ⟨q.items, false⟩ := .inr ⟨hp, hpq⟩
      simp only [hp, Bool.false_eq_true, if_false]
      refine Ideal.principal_le_iff.mpr ?_
      split
      · exact mem_prepend_iff.mpr (.inl hle)
      · exact .inr ⟨hp, hpq⟩⟩ l

section Append
variable {xs : List α} {l m m' : LazyList α}

theorem mem_append {q : PartialList α} : q ∈ append l m ↔
    ∃ p ∈ l, q ∈ if p.complete then prepend p.items m else .principal p := Iff.rfl

theorem append_ofList : append (ofList xs) m = prepend xs m := extend_ofList

theorem append_nil : append (ofList []) m = m := append_ofList.trans prepend_nil

theorem append_prepend : append (prepend xs l) m = prepend xs (append l m) := by
  refine extend_prepend fun p => ?_
  show (if p.complete = true then prepend (xs ++ p.items) m else .principal (after xs p)) =
    prepend xs (if p.complete = true then prepend p.items m else .principal p)
  split
  · exact prepend_prepend.symm
  · exact prepend_principal.symm

theorem append_ofList_nil : append l (ofList []) = l := by
  refine ext_iff_mem.mpr fun q => ?_
  have hprincipal (p : PartialList α) :
      (if p.complete then prepend p.items (ofList []) else Order.Ideal.principal p) = .principal p := by
    split
    · rename_i hc
      rw [prepend_ofList, List.append_nil]
      exact congrArg Ideal.principal (PartialList.ext rfl hc.symm)
    · rfl
  rw [mem_append]
  simp only [hprincipal]
  exact ⟨fun ⟨p, hp, hq⟩ => l.lower hq hp, fun hq => ⟨q, hq, Ideal.mem_principal_self⟩⟩

theorem append_bot : append ⊥ m = ⊥ := extend_principal (p := ⊥)

theorem append_mono (h : m ≤ m') : append l m ≤ append l m' := by
  refine extend_mono (fun p => ?_) (le_refl l)
  show (if p.complete = true then prepend p.items m else .principal p) ≤
    if p.complete = true then prepend p.items m' else .principal p
  split
  · exact extend_mono (fun _ => le_refl _) h
  · exact le_refl _

theorem append_extend {g : PartialList β →o LazyList α} {k : LazyList β} :
    append l (extend g k) = extend ⟨fun p => append l (g p), fun _ _ h =>
      append_mono (g.monotone h)⟩ k := by
  refine ext_iff_mem.mpr fun q => ?_
  constructor
  · intro hq
    obtain ⟨p, hp, hq⟩ := mem_append.mp hq
    split at hq
    · rename_i hc
      obtain ⟨r, ⟨t, ht, hr⟩, hq⟩ := mem_prepend.mp hq
      refine ⟨t, ht, mem_append.mpr ⟨p, hp, ?_⟩⟩
      rw [if_pos hc]
      exact mem_prepend.mpr ⟨r, hr, hq⟩
    · rename_i hc
      refine ⟨⊥, bot_mem k, mem_append.mpr ⟨p, hp, ?_⟩⟩
      rw [if_neg hc]
      exact hq
  · rintro ⟨t, ht, hq⟩
    obtain ⟨p, hp, hq⟩ := mem_append.mp hq
    refine mem_append.mpr ⟨p, hp, ?_⟩
    split at hq
    · rename_i hc
      obtain ⟨r, hr, hq⟩ := mem_prepend.mp hq
      rw [if_pos hc]
      exact mem_prepend.mpr ⟨r, mem_extend.mpr ⟨t, ht, hr⟩, hq⟩
    · rename_i hc
      rw [if_neg hc]
      exact hq

/-- A list that never ends is followed by nothing. -/
theorem append_endless (h : ∀ p ∈ l, p.complete = false) : append l m = l := by
  refine ext_iff_mem.mpr fun q => ⟨fun hq => ?_, fun hq => ?_⟩
  · obtain ⟨p, hp, hq⟩ := mem_append.mp hq
    rw [h p hp] at hq
    exact l.lower hq hp
  · refine mem_append.mpr ⟨q, hq, ?_⟩
    rw [h q hq]
    exact le_refl q

theorem finite_or_endless (l : LazyList α) :
    (∃ xs, l = ofList xs) ∨ ∀ p ∈ l, p.complete = false := by
  by_cases h : ∃ p ∈ l, p.complete = true
  · obtain ⟨p, hp, hc⟩ := h
    have hall : p = ⟨p.items, true⟩ := PartialList.ext rfl hc
    refine .inl ⟨p.items, ext_iff_mem.mpr fun q => ⟨fun hq => ?_, fun hq => ?_⟩⟩
    · obtain ⟨r, -, hpr, hqr⟩ := l.directed p hp q hq
      rcases hpr with rfl | ⟨hc', -⟩
      · exact le_trans hqr (le_of_eq hall)
      · rw [hc] at hc'
        cases hc'
    · exact l.lower (le_trans hq (le_of_eq hall.symm)) hp
  · refine .inr fun p hp => ?_
    rw [← Bool.not_eq_true]
    exact fun hc => h ⟨p, hp, hc⟩

end Append

/-- The lists of the elements, one after the other. -/
def chain (m : α → LazyList β) (xs : List α) (last : LazyList β) : LazyList β :=
  xs.foldr (fun x rest => append (m x) rest) last

theorem chain_mono {m : α → LazyList β} {xs : List α} {l l' : LazyList β} (h : l ≤ l') :
    chain m xs l ≤ chain m xs l' := by
  induction xs with
  | nil => exact h
  | cons x xs ih => exact append_mono ih

def flatMap (m : α → LazyList β) (l : LazyList α) : LazyList β :=
  extend ⟨fun p => chain m p.items (if p.complete then ofList [] else ⊥), by
    rintro p q (rfl | ⟨hp, t, ht⟩)
    · exact le_refl _
    · simp only [hp, Bool.false_eq_true, if_false]
      rw [← ht, chain, chain, List.foldr_append]
      exact chain_mono bot_le⟩ l

section FlatMap
variable {m : α → LazyList β} {x : α} {l : LazyList α}

theorem flatMap_nil : flatMap m (ofList []) = ofList [] := extend_ofList

theorem flatMap_cons : flatMap m (prepend [x] l) = append (m x) (flatMap m l) := by
  refine Eq.trans ?_ append_extend.symm
  exact extend_onward fun p => rfl

theorem flatMap_ofList {xs : List α} : flatMap m (ofList xs) = chain m xs (ofList []) := extend_ofList

theorem flatMap_congr {m' : α → LazyList β} (h : ∀ x, Has l x → m x = m' x) :
    flatMap m l = flatMap m' l := by
  have hchain (p : PartialList α) (hp : p ∈ l) (last : LazyList β) :
      chain m p.items last = chain m' p.items last :=
    List.foldr_ext _ _ last fun x hx rest => congrArg (append · rest) (h x ⟨p, hp, hx⟩)
  refine ext_iff_mem.mpr fun q => exists_congr fun p => and_congr_right fun hp => ?_
  exact iff_of_eq (congrArg (q ∈ ·) (hchain p hp _))

end FlatMap

/-! #### Endless lists -/

theorem take_prefix_take (s : Stream' α) {k n : Nat} (h : k ≤ n) : s.take k <+: s.take n := by
  have htake : (s.take n).take k = s.take k := by rw [Stream'.take_take, Nat.min_eq_right h]
  rw [← htake]
  exact List.take_prefix k (s.take n)

def ofStream (s : Stream' α) : LazyList α :=
  IsIdeal.toIdeal (I := {q | ∃ n, q ≤ ⟨s.take n, false⟩})
    { IsLowerSet := fun q q' hle ⟨n, hn⟩ => ⟨n, hle.trans hn⟩
      Nonempty := ⟨⊥, 0, bot_le⟩
      Directed := by
        rintro q ⟨n, hn⟩ q' ⟨n', hn'⟩
        refine ⟨⟨s.take (max n n'), false⟩, ⟨max n n', le_refl _⟩, hn.trans ?_, hn'.trans ?_⟩
        · exact .inr ⟨rfl, take_prefix_take s (Nat.le_max_left n n')⟩
        · exact .inr ⟨rfl, take_prefix_take s (Nat.le_max_right n n')⟩ }

section Endless
variable {xs : List α} {s : Stream' α} {l : LazyList α}

theorem mem_ofStream {q : PartialList α} : q ∈ ofStream s ↔ ∃ n, q ≤ ⟨s.take n, false⟩ := Iff.rfl

theorem prepend_ofStream : prepend xs (ofStream s) = ofStream (xs ++ₛ s) := by
  have htake (n : Nat) : (xs ++ₛ s).take (xs.length + n) = xs ++ s.take n := by
    induction xs with
    | nil => simp
    | cons x xs ih =>
      rw [List.length_cons, Nat.succ_add, Stream'.cons_append_stream, Stream'.take_succ_cons, ih]
      rfl
  refine ext_iff_mem.mpr fun q => ⟨fun hq => ?_, fun hq => ?_⟩
  · obtain ⟨r, hr, hq⟩ := mem_prepend.mp hq
    obtain ⟨n, hn⟩ := mem_ofStream.mp hr
    refine mem_ofStream.mpr ⟨xs.length + n, hq.trans ((PartialList.after_mono xs hn).trans ?_)⟩
    rw [htake]
    exact le_refl _
  · obtain ⟨n, hn⟩ := mem_ofStream.mp hq
    refine mem_prepend.mpr ⟨⟨s.take n, false⟩, mem_ofStream.mpr ⟨n, le_refl _⟩, hn.trans ?_⟩
    refine .inr ⟨rfl, ?_⟩
    show (xs ++ₛ s).take n <+: xs ++ s.take n
    rw [← htake]
    exact take_prefix_take _ (Nat.le_add_left n xs.length)

/-- The list again and again; a list without elements has none to repeat. -/
def cycle (l : LazyList α) : LazyList α :=
  extend ⟨fun p => if p.complete then
      (if h : p.items = [] then ofList [] else ofStream (Stream'.cycle p.items h))
    else .principal p, by
    rintro p q (rfl | ⟨hp, hpq⟩)
    · exact le_refl _
    · have hle : p ≤ ⟨q.items, false⟩ := .inr ⟨hp, hpq⟩
      simp only [hp, Bool.false_eq_true, if_false]
      refine Ideal.principal_le_iff.mpr ?_
      split
      · split
        · rename_i hnil
          exact hle.trans (.inr ⟨rfl, hnil ▸ List.nil_prefix⟩)
        · rename_i hne
          rw [Stream'.cycle_eq, ← prepend_ofStream]
          exact mem_prepend_iff.mpr (.inl hle)
      · exact .inr ⟨hp, hpq⟩⟩ l

theorem cycle_ofList : cycle (ofList xs) =
    if h : xs = [] then ofList [] else ofStream (Stream'.cycle xs h) := extend_ofList

theorem append_cycle : append l (cycle l) = cycle l := by
  rcases finite_or_endless l with ⟨xs, rfl⟩ | h
  · rw [append_ofList, cycle_ofList]
    split
    · rename_i hnil
      rw [hnil, prepend_nil]
    · rename_i hne
      rw [prepend_ofStream, ← Stream'.cycle_eq]
  · refine (append_endless h).trans (ext_iff_mem.mpr fun q => ⟨fun hq => ⟨q, hq, ?_⟩, ?_⟩)
    · show q ∈ if q.complete = true then _ else _
      rw [h q hq]
      exact le_refl q
    · rintro ⟨p, hp, hq⟩
      replace hq : q ∈ if p.complete = true then _ else _ := hq
      rw [h p hp] at hq
      exact l.lower hq hp

theorem cycle_bot : cycle (⊥ : LazyList α) = ⊥ := extend_principal (p := ⊥)

end Endless

/-- The first elements of all the lists, then the second ones, as long as no list has ended. -/
def tuples : List (LazyList α) → LazyList (List α)
  | [] => ofStream (Stream'.const [])
  | l :: ls => zipWith List.cons l (tuples ls)

theorem tuples_none : tuples ([] : List (LazyList α)) = prepend [[]] (tuples []) := by
  show ofStream _ = prepend [[]] (ofStream _)
  rw [prepend_ofStream]
  exact congrArg ofStream (Stream'.const_eq [])

section Singleton
variable {l : LazyList α} {x : α}

theorem zipWith_const {p : PartialList α} {n : Nat} (hn : p.items.length ≤ n) :
    PartialList.zipWith List.cons p ⟨(Stream'.const []).take n, false⟩ =
      ⟨p.items.map fun x => [x], p.complete⟩ := by
  have hitems (xs : List α) (n : Nat) (hn : xs.length ≤ n) :
      List.zipWith List.cons xs ((Stream'.const []).take n) = xs.map fun x => [x] := by
    induction xs generalizing n with
    | nil => rfl
    | cons x xs ih =>
      obtain ⟨n, rfl⟩ := Nat.exists_eq_add_of_le' hn
      rw [Stream'.const_eq, show n + (x :: xs).length = (n + xs.length).succ from rfl,
        Stream'.take_succ_cons, List.zipWith_cons_cons, ih (n + xs.length) (Nat.le_add_left _ n)]
      rfl
  refine PartialList.ext (hitems p.items n hn) ?_
  simp [PartialList.zipWith, hn]

/-- The tuples of one list are its elements. -/
theorem tuples_singleton : tuples [l] = map (fun x => [x]) l := by
  refine ext_iff_mem.mpr fun q => ⟨?_, fun hq => ?_⟩
  · rintro ⟨p, hp, r, ⟨n, hr⟩, hq⟩
    have hle : r ≤ ⟨(Stream'.const []).take (max n p.items.length), false⟩ :=
      hr.trans (.inr ⟨rfl, take_prefix_take _ (Nat.le_max_left _ _)⟩)
    refine mem_map.mpr ⟨p, hp, le_trans hq ?_⟩
    rw [← zipWith_const (Nat.le_max_right n _)]
    exact PartialList.zipWith_mono_right List.cons p hle
  · obtain ⟨p, hp, hq⟩ := mem_map.mp hq
    refine ⟨p, hp, ⟨(Stream'.const []).take p.items.length, false⟩,
      mem_ofStream.mpr ⟨_, le_refl _⟩, ?_⟩
    show q ≤ PartialList.zipWith List.cons p _
    rw [zipWith_const (le_refl _)]
    exact hq

theorem has_tuples_singleton (h : Has l x) : Has (tuples [l]) [x] := by
  obtain ⟨p, hp, hx⟩ := h
  rw [tuples_singleton]
  exact ⟨_, mem_map.mpr ⟨p, hp, le_refl _⟩, List.mem_map_of_mem hx⟩

theorem map_tuples_singleton {f : List α → β} : map f (tuples [l]) = map (fun x => f [x]) l := by
  rw [tuples_singleton, map_map]

theorem flatten_tuples_singleton : flatten (tuples [l]) = l := by
  have hflatten (xs : List α) : (xs.map fun x => [x]).flatten = xs := by
    induction xs with
    | nil => rfl
    | cons x xs ih => exact congrArg (x :: ·) ih
  rw [tuples_singleton]
  refine ext_iff_mem.mpr fun q => ⟨fun hq => ?_, fun hq => ?_⟩
  · obtain ⟨r, hr, hq⟩ := mem_flatten.mp hq
    obtain ⟨p, hp, hle⟩ := mem_map.mp hr
    refine l.lower (hq.trans ?_) hp
    rcases hle with rfl | ⟨hc, t, ht⟩
    · exact le_of_eq (PartialList.ext (hflatten p.items) rfl)
    · refine .inr ⟨hc, ?_⟩
      show r.items.flatten <+: p.items
      rw [← hflatten p.items, ← show r.items ++ t = p.items.map fun x => [x] from ht,
        List.flatten_append]
      exact List.prefix_append _ _
  · refine mem_flatten.mpr ⟨_, mem_map.mpr ⟨q, hq, le_refl _⟩, ?_⟩
    exact le_of_eq (PartialList.ext (hflatten q.items).symm rfl)

end Singleton

end LazyList
end ProtoClojure.LazyLists
