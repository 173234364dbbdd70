import Mathlib.Data.List.TakeWhile
import ProtoClojure.Json.Parser

/-! A parse of a reader's lines against a parse of the same text as one string: step by step
the two see the same next byte at the same place, as long as no string literal goes on with a
plain byte behind a line end: met right after a refill, it is taken for a backslash. -/

namespace ProtoClojure.Json
open Decimal

/-! ### The string literals of a text -/

/-- Where the next byte of a text stands. -/
inductive Place where
  | outside
  | inside       -- in a string literal
  | escaped      -- behind a backslash in it
  | lineStart    -- behind a line end in it
deriving DecidableEq

def Place.next (c : UInt8) : Place → Place
  | .outside => if c = quote then .inside else .outside
  | .escaped => .inside
  | .inside | .lineStart =>
    if c = quote then .outside
    else if c = backslash then .escaped
    else if c = LF then .lineStart
    else .inside

def placeFrom (p : Place) (t : Bytes) : Place := t.foldl (fun p c => p.next c) p

def unbrokenFrom : Place → Bytes → Bool
  | _, [] => true
  | p, c :: t => (p != .lineStart || !isPlain c) && unbrokenFrom (p.next c) t

/-- No string literal has an unescaped line end directly followed by a byte other than a quote, a
backslash and a line end. -/
def Unbroken (t : Bytes) : Prop := unbrokenFrom .outside t = true

instance (t : Bytes) : Decidable (Unbroken t) := inferInstanceAs (Decidable (_ = true))

theorem unbrokenFrom_append (p : Place) (s t : Bytes) :
    unbrokenFrom p (s ++ t) = (unbrokenFrom p s && unbrokenFrom (placeFrom p s) t) := by
  induction s generalizing p with
  | nil => rfl
  | cons c s ih => rw [List.cons_append, unbrokenFrom, unbrokenFrom, ih, Bool.and_assoc]; rfl

theorem Unbroken.of_prefix {s t : Bytes} (h : Unbroken t) (hst : s <+: t) : Unbroken s := by
  obtain ⟨u, rfl⟩ := hst
  rw [Unbroken, unbrokenFrom_append, Bool.and_eq_true] at h
  exact h.1

theorem not_unbroken {s u : Bytes} {c : UInt8} (hs : placeFrom .outside s = .lineStart)
    (hc : isPlain c = true) : ¬ Unbroken (s ++ c :: u) := by
  intro h
  rw [Unbroken, unbrokenFrom_append, hs, unbrokenFrom, hc] at h
  simp at h

/-! ### Sources -/

namespace Source
variable {S : Source} {c : UInt8} {t : Bytes}

theorem getElem?_pos : S.buf[S.pos]? = S.data.head? := by
  rw [data, List.head?_drop]

theorem data_advance (h : S.data = c :: t) : S.advance.data = t := by
  have hd := congrArg (List.drop 1) h
  rw [data, List.drop_drop] at hd
  simpa [advance, skip, data] using hd

/-- What was read of a text that is one string. -/
def taken (S : Source) : Bytes := S.buf.take S.pos

theorem taken_advance (h : S.data = c :: t) : S.advance.taken = S.taken ++ [c] := by
  have hget : S.buf[S.pos]? = some c := by rw [getElem?_pos, h]; rfl
  show S.buf.take (S.pos + 1) = S.buf.take S.pos ++ [c]
  rw [List.take_add_one, hget]
  rfl

theorem unread_eq_data (h : S.reader = none) : S.unread = S.data := by
  simp [unread, h]

theorem unread_of_data (h : S.data = c :: t) : ∃ u, S.unread = c :: u := by
  simp [unread, h]

theorem unread_advance (h : S.data = c :: t) {u : Bytes} (hu : S.unread = c :: u) :
    S.advance.unread = u := by
  have hr : S.advance.reader = S.reader := rfl
  rw [unread, data_advance h, hr]
  rw [unread, h] at hu
  exact List.cons.inj hu |>.2

@[simp] theorem unread_newline : S.newline.unread = S.unread := rfl

@[simp] theorem data_newline : S.newline.data = S.data := rfl

theorem column_advance (h : S.data = c :: t) (hle : S.lineStart ≤ S.pos) :
    S.advance.column = S.column + if isLead c then 1 else 0 := by
  have hget : S.buf[S.pos]? = some c := by rw [getElem?_pos, h]; rfl
  have hlt : S.pos < S.buf.length := (List.getElem?_eq_some_iff.mp hget).1
  have htake : S.buf.take (S.pos + 1) = S.buf.take S.pos ++ [c] := by
    rw [List.take_add_one, hget]
    rfl
  have hdrop : (S.buf.take S.pos ++ [c]).drop S.lineStart =
      (S.buf.take S.pos).drop S.lineStart ++ [c] := by
    apply List.drop_append_of_le_length
    rw [List.length_take]
    omega
  show 1 + ((S.buf.take (S.pos + 1)).drop S.lineStart).countP isLead = _
  rw [htake, hdrop, List.countP_append, List.countP_singleton, column]
  omega

@[simp] theorem column_newline : S.newline.column = 1 := by
  have hle : (S.buf.take S.pos).length ≤ S.pos := List.length_take_le _ _
  simp [column, newline, List.drop_eq_nil_of_le hle]

theorem peek_of_data (h : S.data = c :: t) : S.peek = (some c, S) := by
  rw [peek, getElem?_pos, h]
  rfl

theorem peek_string (h : S.reader = none) : S.peek = (S.unread.head?, S) := by
  rw [unread_eq_data h, peek, getElem?_pos]
  cases hd : S.data with
  | nil => simp [refill, h]
  | cons c t => rfl

theorem data_of_unread (h : S.unread = []) : S.data = [] := (List.append_eq_nil_iff.mp h).1

theorem peek_end (h : S.unread = []) : S.peek = (none, S) := by
  have hr : ∀ l ls, S.reader ≠ some (l :: ls) := by
    intro l ls hr
    simp [unread, hr] at h
  rw [peek, getElem?_pos, data_of_unread h]
  unfold refill
  rcases hc : S.reader with - | - | ⟨l, ls⟩
  · rfl
  · rfl
  · exact absurd hc (hr l ls)

end Source

/-- The reader's text is the string's, with a line end more when the string lacks its last. -/
theorem lines_text (s : Bytes) :
    (linesOf s).flatMap (· ++ [LF]) =
      if s = [] ∨ s.getLast? = some LF then s else s ++ [LF] := by
  induction s with
  | nil => rfl
  | cons c s ih =>
    by_cases hc : c = LF
    · subst hc
      rw [linesOf, if_pos rfl, List.flatMap_cons, ih]
      cases s with
      | nil => rfl
      | cons d s => by_cases hl : (d :: s).getLast? = some LF <;> simp [hl]
    · rw [linesOf, if_neg hc]
      cases hs : linesOf s with
      | nil =>
        have hnil : s = [] := by
          by_contra hne
          rw [hs] at ih
          split at ih
          · exact hne ih.symm
          · simp at ih
        subst hnil
        simp [hc]
      | cons l ls =>
        rw [hs, List.flatMap_cons] at ih
        cases s with
        | nil => cases hs
        | cons d s =>
          rw [List.flatMap_cons, List.cons_append, List.cons_append, ih]
          by_cases hl : (d :: s).getLast? = some LF <;> simp [hl]

/-! ### The two sources side by side -/

variable {V E W α β : Type}

/-- The two are at one place: not when the reader may have taken the line end that the string
does not have. -/
def Placed (exact : Bool) (A : Reading W) : Prop := exact = true ∨ A.unread ≠ []

theorem not_placed {exact : Bool} {A : Reading W} (he : exact = false) (hA : A.unread = []) :
    ¬ Placed exact A := by
  rintro (h | h)
  · exact Bool.false_ne_true (he.symm.trans h)
  · exact h hA

/-- `A` reads the string, `B` the lines. Not `exact`: the lines end with a line end the string
does not have. -/
structure Sim (exact : Bool) (p : Place) (A B : Reading W) : Prop where
  world : A.world = B.world
  string : A.reader = none
  unread : B.unread = A.unread ∨ exact = false ∧ B.unread = A.unread ++ [LF]
  lineEnd : B.data = [] ∨ ∃ d, B.data = d ++ [LF]
  reader : ∃ lines, B.reader = some lines
  startA : A.lineStart ≤ A.pos
  startB : B.lineStart ≤ B.pos
  line : Placed exact A → A.line = B.line
  column : Placed exact A → A.column = B.column
  refilled : Placed exact A → B.data = [] → A.column = 1
  place : placeFrom .outside A.taken = p
  inside : p = .inside → B.data ≠ []

section Moves
variable {exact : Bool} {p : Place} {A B : Reading W} {c : UInt8} {u t : Bytes}

theorem Sim.where_eq (hs : Sim exact p A B) (hp : Placed exact A) : A.where_ = B.where_ := by
  rw [Source.where_, Source.where_, hs.line hp, hs.column hp]

theorem Sim.data_string (hs : Sim exact p A B) : A.data = A.unread :=
  (Source.unread_eq_data hs.string).symm

/-- The reader's unread bytes after those of the buffer. -/
theorem Sim.unread_stream (hs : Sim exact p A B) (hA : A.unread = c :: u) :
    ∃ v, B.unread = c :: v ∧ (v = u ∨ exact = false ∧ v = u ++ [LF]) := by
  rcases hs.unread with h | ⟨he, h⟩
  · exact ⟨u, by rw [h, hA], .inl rfl⟩
  · exact ⟨u ++ [LF], by rw [h, hA]; rfl, .inr ⟨he, rfl⟩⟩

def advanced (r : Reading W) : Reading W := { r with toSource := r.toSource.advance }

def lineEnded (r : Reading W) : Reading W := { r with toSource := r.toSource.advance.newline }

theorem Placed.of_cons (hA : A.unread = c :: u) : Placed exact A := .inr (hA ▸ List.cons_ne_nil c u)

theorem Sim.advance_column (hs : Sim exact p A B) (hA : A.unread = c :: u) (hB : B.data = c :: t) :
    (advanced A).column = (advanced B).column := by
  have hdA : A.data = c :: u := by rw [hs.data_string, hA]
  have ha := Source.column_advance hdA hs.startA
  have hb := Source.column_advance hB hs.startB
  show A.toSource.advance.column = B.toSource.advance.column
  rw [ha, hb, hs.column (.of_cons hA)]

theorem Sim.advance_where (hs : Sim exact p A B) (hA : A.unread = c :: u) (hB : B.data = c :: t) :
    (advanced A).where_ = (advanced B).where_ := by
  have hline : (advanced A).line = (advanced B).line := hs.line (.of_cons hA)
  rw [Source.where_, Source.where_, hline, hs.advance_column hA hB]

theorem Sim.advance_place (hs : Sim exact p A B) (hA : A.unread = c :: u) :
    placeFrom .outside (advanced A).taken = p.next c := by
  have hdA : A.data = c :: u := by rw [hs.data_string, hA]
  have htaken : (advanced A).taken = A.taken ++ [c] := Source.taken_advance hdA
  rw [htaken, placeFrom, List.foldl_append]
  exact congrArg (Place.next c) hs.place

theorem Sim.advance (hs : Sim exact p A B) (hA : A.unread = c :: u) (hB : B.data = c :: t)
    (hc : c ≠ LF) : Sim exact (p.next c) (advanced A) (advanced B) := by
  have hdA : A.data = c :: u := by rw [hs.data_string, hA]
  have huA : (advanced A).unread = u := Source.unread_advance hdA hA
  have hdB : (advanced B).data = t := Source.data_advance hB
  obtain ⟨v, hv, huv⟩ := hs.unread_stream hA
  have huB : (advanced B).unread = v := Source.unread_advance hB hv
  have ht : ∃ d, t = d ++ [LF] := by
    rcases hs.lineEnd with h | ⟨d, h⟩
    · rw [h] at hB
      cases hB
    · cases d with
      | nil =>
        rw [hB] at h
        exact absurd (List.cons.inj h).1 hc
      | cons x d =>
        rw [hB] at h
        exact ⟨d, (List.cons.inj h).2⟩
  have hne : (advanced B).data ≠ [] := by
    obtain ⟨d, rfl⟩ := ht
    simp [hdB]
  exact {
    world := hs.world
    string := hs.string
    unread := by rw [huA, huB]; exact huv
    lineEnd := .inr (by rw [hdB]; exact ht)
    reader := hs.reader
    startA := Nat.le_succ_of_le hs.startA
    startB := Nat.le_succ_of_le hs.startB
    line := fun _ => hs.line (.of_cons hA)
    column := fun _ => hs.advance_column hA hB
    refilled := fun _ h => absurd h hne
    place := hs.advance_place hA
    inside := fun _ => hne }

theorem Sim.endLine (hs : Sim exact p A B) (hp : p ≠ .escaped) (hA : A.unread = LF :: u)
    (hB : B.data = LF :: t) : Sim exact (p.next LF) (lineEnded A) (lineEnded B) := by
  have hdA : A.data = LF :: u := by rw [hs.data_string, hA]
  have huA : (lineEnded A).unread = u := Source.unread_advance hdA hA
  have hdB : (lineEnded B).data = t := Source.data_advance hB
  obtain ⟨v, hv, huv⟩ := hs.unread_stream hA
  have huB : (lineEnded B).unread = v := Source.unread_advance hB hv
  have ht : t = [] ∨ ∃ d, t = d ++ [LF] := by
    rcases hs.lineEnd with h | ⟨d, h⟩
    · rw [h] at hB
      cases hB
    · cases d with
      | nil =>
        rw [hB] at h
        exact .inl (List.cons.inj h).2
      | cons x d =>
        rw [hB] at h
        exact .inr ⟨d, (List.cons.inj h).2⟩
  exact {
    world := hs.world
    string := hs.string
    unread := by rw [huA, huB]; exact huv
    lineEnd := by rw [hdB]; exact ht
    reader := hs.reader
    startA := Nat.le_refl _
    startB := Nat.le_refl _
    line := fun _ => congrArg (· + 1) (hs.line (.of_cons hA))
    column := fun _ => Source.column_newline.trans Source.column_newline.symm
    refilled := fun _ _ => Source.column_newline
    place := hs.advance_place hA
    inside := fun h => by
      cases p with
      | escaped => exact absurd rfl hp
      | outside | inside | lineStart => cases h }

theorem unread_endLast (hu : B.unread = [LF]) (hB : B.data = [LF]) : (lineEnded B).unread = [] :=
  Source.unread_advance hB hu

/-- The line end only the reader has. -/
theorem Sim.endLast (hs : Sim exact .outside A B) (he : exact = false) (hA : A.unread = [])
    (hu : B.unread = [LF]) (hB : B.data = [LF]) : Sim exact .outside A (lineEnded B) where
  world := hs.world
  string := hs.string
  unread := .inl (by rw [unread_endLast hu hB, hA])
  lineEnd := .inl (Source.data_advance hB)
  reader := hs.reader
  startA := hs.startA
  startB := Nat.le_refl _
  line := fun h => absurd h (not_placed he hA)
  column := fun h => absurd h (not_placed he hA)
  refilled := fun h => absurd h (not_placed he hA)
  place := hs.place
  inside := nofun

def peeked (r : Reading W) : Reading W := { r with toSource := r.toSource.peek.2 }

/-- Where a look at the next byte leaves the two sources. -/
inductive Next (exact : Bool) (A B : Reading W) : Option UInt8 → Option UInt8 → Prop where
  | none (hA : A.unread = []) (hB : B.unread = []) (hd : B.data = []) :
      Next exact A B .none .none
  | byte (c : UInt8) {u t : Bytes} (hA : A.unread = c :: u) (hB : B.data = c :: t) :
      Next exact A B (some c) (some c)
  | last (he : exact = false) (hA : A.unread = []) (hu : B.unread = [LF]) (hB : B.data = [LF]) :
      Next exact A B .none (some LF)

theorem Sim.refill (hs : Sim exact p A B) (hd : B.data = []) {l : Bytes} {ls : List Bytes}
    (hr : B.reader = some (l :: ls)) :
    Sim exact p A { B with buf := l ++ [LF], pos := 0, lineStart := 0, reader := some ls } where
  world := hs.world
  string := hs.string
  unread := by
    have hu : B.unread = l ++ [LF] ++ ls.flatMap (· ++ [LF]) := by
      simp [Source.unread, hd, hr]
    have h := hs.unread
    rw [hu] at h
    exact h
  lineEnd := .inr ⟨l, rfl⟩
  reader := ⟨ls, rfl⟩
  startA := hs.startA
  startB := Nat.le_refl _
  line := hs.line
  column := fun he => hs.refilled he hd
  refilled := fun _ h => by simp [Source.data] at h
  place := hs.place
  inside := fun _ h => by simp [Source.data] at h

theorem Sim.next (hs : Sim exact p A B) (hd : B.data ≠ []) :
    Next exact A B A.unread.head? B.data.head? := by
  obtain ⟨c, t, hB⟩ := List.exists_cons_of_ne_nil hd
  obtain ⟨v, hv⟩ := Source.unread_of_data hB
  rcases hs.unread with h | ⟨he, h⟩
  · have hA : A.unread = c :: v := by rw [← h, hv]
    rw [hA, hB]
    exact .byte c hA hB
  · cases hA : A.unread with
    | nil =>
      rw [hA] at h
      have hlast : B.data = [LF] := by
        have hcons : c :: v = [LF] := by rw [← hv, h]; rfl
        rcases hs.lineEnd with hnil | ⟨d, hend⟩
        · exact absurd hnil hd
        · have hprefix : ∃ w, B.data ++ w = [LF] :=
            ⟨(B.reader.getD []).flatMap (· ++ [LF]), by
              have hw : B.unread = [LF] := h
              rwa [Source.unread] at hw⟩
          obtain ⟨w, hw⟩ := hprefix
          rw [hB] at hw ⊢
          have hnil := (List.cons.inj hw).2
          rw [(List.cons.inj hw).1, (List.append_eq_nil_iff.mp hnil).1]
      rw [hlast]
      exact .last he hA h hlast
    | cons x u =>
      rw [hA, hv] at h
      have hx : c = x := (List.cons.inj h).1
      subst hx
      rw [hB]
      exact .byte c hA hB

theorem Sim.peek (hs : Sim exact p A B) :
    Sim exact p A (peeked B) ∧ (peeked B).unread = B.unread ∧ (B.data ≠ [] → peeked B = B) ∧
      Next exact A (peeked B) A.toSource.peek.1 B.toSource.peek.1 := by
  have hpA : A.toSource.peek.1 = A.unread.head? := by rw [Source.peek_string hs.string]
  rw [hpA]
  cases hd : B.data with
  | cons c t =>
    have hp : B.toSource.peek = (some c, B.toSource) := Source.peek_of_data hd
    have hB : peeked B = B := by simp [peeked, hp]
    have hn := hs.next (by rw [hd]; exact List.cons_ne_nil c t)
    rw [hd] at hn
    rw [hB, hp]
    exact ⟨hs, rfl, fun _ => rfl, hn⟩
  | nil =>
    obtain ⟨lines, hr⟩ := hs.reader
    have hnone : B.buf[B.pos]? = none := by rw [Source.getElem?_pos, hd]; rfl
    cases lines with
    | nil =>
      have hp : B.toSource.peek = (none, B.toSource) := by
        simp [Source.peek, hnone, Source.refill, hr]
      have hB : peeked B = B := by simp [peeked, hp]
      have hu : B.unread = [] := by simp [Source.unread, hd, hr]
      have hA : A.unread = [] := by
        rcases hs.unread with h | ⟨-, h⟩
        · rw [← h, hu]
        · rw [hu] at h
          simp at h
      rw [hB, hp, hA]
      exact ⟨hs, rfl, fun _ => rfl, .none hA hu hd⟩
    | cons l ls =>
      have hp : B.toSource.peek = ((l ++ [LF])[0]?,
          { B.toSource with buf := l ++ [LF], pos := 0, lineStart := 0, reader := some ls }) := by
        simp [Source.peek, hnone, Source.refill, hr]
      have hs' := hs.refill hd hr
      have hB : peeked B =
          { B with buf := l ++ [LF], pos := 0, lineStart := 0, reader := some ls } := by
        simp [peeked, hp]
      have hu : B.unread = l ++ [LF] ++ ls.flatMap (· ++ [LF]) := by
        simp [Source.unread, hd, hr]
      have hne : (peeked B).data ≠ [] := by
        rw [hB]
        simp [Source.data]
      have hhead : (peeked B).data.head? = (l ++ [LF])[0]? := by
        rw [hB]
        simp [Source.data, List.head?_eq_getElem?]
      refine ⟨hB ▸ hs', ?_, fun h => absurd rfl h, ?_⟩
      · rw [hB, hu]
        rfl
      · have hn := (hB ▸ hs' : Sim exact p A (peeked B)).next hne
        rw [hhead] at hn
        rw [hp]
        exact hn

end Moves

/-! ### Agreement -/

def stateOf {ε σ : Type} : EStateM.Result ε σ α → σ
  | .ok _ s => s
  | .error _ s => s

/-- The same fault; the words and the place of a syntax error are compared where they are
`placed`. -/
def Fault.Same (placed : Prop) : Fault E → Fault E → Prop
  | .jsonSyntaxError m, .jsonSyntaxError m' => placed → m = m'
  | .stackOverflow, .stackOverflow => True
  | .thrown e, .thrown e' => e = e'
  | _, _ => False

/-- In a text that is one string the parse only moves on. -/
def Onward (r r' : Reading W) : Prop := r'.reader = none ∧ r'.buf = r.buf ∧ r.pos ≤ r'.pos

class Forward (f : Parse E W α) : Prop where
  moves : ∀ r : Reading W, r.reader = none → Onward r (stateOf (f r))

/-- What was read of the string has a literal with a line end and a plain byte behind it. -/
def Broken (r : Reading W) : Prop := r.reader = none ∧ ¬ Unbroken r.taken

/-- `f` on the string and `g` on the lines have the same outcome, and end in the place `p` of the
text, or what `f` read is broken. -/
def Agree (exact : Bool) (p : Place) (Q : Reading W → Reading W → Prop) (f g : Parse E W α)
    (A B : Reading W) : Prop :=
  Broken (stateOf (f A)) ∨ match f A, g B with
    | .ok a A', .ok b B' => a = b ∧ Sim exact p A' B' ∧ A'.unread.length ≤ A.unread.length ∧
        B'.unread.length ≤ B.unread.length ∧ Q A' B'
    | .error e A', .error e' B' => e.Same (Placed exact A') e' ∧ A'.world = B'.world
    | _, _ => False

section Forward

theorem bind_apply (f : Parse E W α) (k : α → Parse E W β) (r : Reading W) :
    (f >>= k) r = match f r with
      | .ok a r' => k a r'
      | .error e r' => .error e r' := by
  show EStateM.bind f k r = _
  unfold EStateM.bind
  cases f r <;> rfl

variable {f g : Parse E W α} {k : α → Parse E W β}

theorem Onward.refl {r : Reading W} (hr : r.reader = none) : Onward r r := ⟨hr, rfl, Nat.le_refl _⟩

theorem Onward.trans {r r' r'' : Reading W} (h : Onward r r') (h' : Onward r' r'') : Onward r r'' :=
  ⟨h'.1, h'.2.1.trans h.2.1, Nat.le_trans h.2.2 h'.2.2⟩

theorem Onward.broken {r r' : Reading W} (h : Onward r r') (hb : Broken r) : Broken r' := by
  refine ⟨h.1, fun hu => hb.2 ?_⟩
  have htaken : r.taken <+: r'.taken := by
    rw [Source.taken, Source.taken, h.2.1]
    exact List.take_prefix_take_left h.2.2
  exact hu.of_prefix htaken

instance Forward.bind [hf : Forward f] [hk : ∀ a, Forward (k a)] : Forward (f >>= k) where
  moves r hr := by
    have h := hf.moves r hr
    rw [bind_apply]
    cases hfr : f r with
    | ok a r' =>
      rw [hfr] at h
      exact h.trans ((hk a).moves r' h.1)
    | error e r' =>
      rw [hfr] at h
      exact h

instance Forward.ite {c : Prop} [Decidable c] [hf : Forward f] [hg : Forward g] :
    Forward (if c then f else g) := by
  by_cases h : c
  · rwa [if_pos h]
  · rwa [if_neg h]

instance (a : α) : Forward (pure a : Parse E W α) := ⟨fun _ => Onward.refl⟩

instance (e : Fault E) : Forward (throw e : Parse E W α) := ⟨fun _ => Onward.refl⟩

instance (what : String) : Forward (fail what : Parse E W α) := ⟨fun _ => Onward.refl⟩

instance : Forward (fuel : Parse E W Nat) := ⟨fun _ => Onward.refl⟩

instance : Forward (peek : Parse E W (Option UInt8)) where
  moves r hr := by
    show Onward r { r with toSource := r.toSource.peek.2 }
    rw [Source.peek_string hr]
    exact .refl hr

instance (n : Nat) : Forward (skip n : Parse E W Unit) := ⟨fun _ hr => ⟨hr, rfl, Nat.le_add_right _ n⟩⟩

instance : Forward (advance : Parse E W Unit) := ⟨fun _ hr => ⟨hr, rfl, Nat.le_add_right _ 1⟩⟩

instance : Forward (newline : Parse E W Unit) := ⟨fun _ hr => ⟨hr, rfl, Nat.le_refl _⟩⟩

instance : Forward (plainRun : Parse E W Bytes) := ⟨fun _ hr => ⟨hr, rfl, Nat.le_add_right _ _⟩⟩

instance : Forward (describeCurrent : Parse E W String) := by
  unfold describeCurrent
  infer_instance

theorem forward_skipWhitespaceLoop (n : Nat) : Forward (skipWhitespaceLoop n : Parse E W Unit) := by
  induction n with
  | zero => exact inferInstanceAs (Forward (pure ()))
  | succ n ih =>
    unfold skipWhitespaceLoop
    infer_instance

instance : Forward (skipWhitespace : Parse E W Unit) := by
  have := @forward_skipWhitespaceLoop E W
  unfold skipWhitespace
  infer_instance

instance : Forward (more : Parse E W Bool) := by
  unfold more
  infer_instance

instance (c : UInt8) (what : String) : Forward (expect c what : Parse E W Unit) := by
  unfold expect
  infer_instance

theorem forward_copyWhileLoop (p : UInt8 → Bool) (n : Nat) (out : Bytes) :
    Forward (copyWhileLoop p n out : Parse E W Bytes) := by
  induction n generalizing out with
  | zero => exact inferInstanceAs (Forward (pure out))
  | succ n ih =>
    unfold copyWhileLoop
    have : ∀ c, Forward (match c with
        | some c => if p c then do
            advance
            copyWhileLoop p n (out ++ [c])
          else pure out
        | none => pure out : Parse E W Bytes) := by
      intro c
      cases c <;> infer_instance
    infer_instance

instance (p : UInt8 → Bool) : Forward (copyWhile p : Parse E W Bytes) := by
  have := @forward_copyWhileLoop E W p
  unfold copyWhile
  infer_instance

instance (token : Bytes) : Forward (unrecognized token : Parse E W α) := by
  unfold unrecognized
  infer_instance

theorem forward_wordLoop (w seen : Bytes) : Forward (wordLoop w seen : Parse E W Bytes) := by
  induction w generalizing seen with
  | nil => exact inferInstanceAs (Forward (pure seen))
  | cons p w ih =>
    unfold wordLoop
    infer_instance

instance (w : Bytes) : Forward (word w : Parse E W Unit) := by
  have := @forward_wordLoop E W
  unfold word
  infer_instance

instance : Forward (minus : Parse E W Bytes) := by
  unfold minus
  infer_instance

instance : Forward (integerPart : Parse E W Bytes) := by
  unfold integerPart
  infer_instance

instance : Forward (fractionPart : Parse E W Bytes) := by
  unfold fractionPart
  infer_instance

instance : Forward (exponentSign : Parse E W Bytes) := by
  unfold exponentSign
  have : ∀ c, Forward (match c with
      | some c => if c = 0x2B ∨ c = 0x2D then do
          advance
          pure [c]
        else pure []
      | none => pure [] : Parse E W Bytes) := by
    intro c
    cases c <;> infer_instance
  infer_instance

instance : Forward (exponentPart : Parse E W Bytes) := by
  unfold exponentPart
  infer_instance

instance (H : Host V E W) : Forward (number H : Parse E W V) := by
  unfold number
  infer_instance

theorem forward_hexDigits (i v : Nat) : Forward (hexDigits i v : Parse E W Nat) := by
  induction i generalizing v with
  | zero => exact inferInstanceAs (Forward (pure v))
  | succ i ih =>
    unfold hexDigits
    refine @Forward.bind _ _ _ _ _ _ inferInstance fun c => ?_
    cases Option.bind c hexDigit <;> infer_instance

instance : Forward (hex4 : Parse E W Nat) := forward_hexDigits 4 0

instance : Forward (unpairedSurrogate : Parse E W α) := by
  unfold unpairedSurrogate
  infer_instance

set_option synthInstance.maxSize 2000 in
instance : Forward (lowSurrogate : Parse E W Nat) := by
  unfold lowSurrogate
  infer_instance

instance : Forward (unicodeEscape : Parse E W Bytes) := by
  unfold unicodeEscape
  infer_instance

instance (e : UInt8) : Forward (escape e : Parse E W Bytes) := by
  unfold escape
  infer_instance

/-- What follows the byte taken for a backslash. -/
def afterBackslash (n : Nat) (out : Bytes) (e : Option UInt8) : Parse E W Bytes :=
  match e with
  | none => fail "unexpected end of input inside a string"
  | some e => do
    advance
    let bytes ← escape e
    stringLoop n (out ++ bytes)

/-- What follows a run of plain bytes. -/
def afterRun (n : Nat) (out : Bytes) (c : Option UInt8) : Parse E W Bytes :=
  match c with
  | none => fail "unexpected end of input inside a string"
  | some c => do
    advance
    if c = quote then return out
    else if c = LF then do
      newline
      stringLoop n (out ++ [LF])
    else do
      let e ← peek
      afterBackslash n out e

theorem stringLoop_succ (n : Nat) (out : Bytes) :
    (stringLoop (n + 1) out : Parse E W Bytes) =
      (do
        let run ← plainRun
        let c ← peek
        afterRun n (out ++ run) c) := by
  rw [stringLoop]
  rfl

theorem forward_stringLoop (n : Nat) (out : Bytes) : Forward (stringLoop n out : Parse E W Bytes) := by
  induction n generalizing out with
  | zero => exact inferInstanceAs (Forward (pure out))
  | succ n ih =>
    have hback : ∀ out e, Forward (afterBackslash n out e : Parse E W Bytes) := by
      intro out e
      cases e <;> unfold afterBackslash <;> infer_instance
    have hrun : ∀ out c, Forward (afterRun n out c : Parse E W Bytes) := by
      intro out c
      cases c <;> unfold afterRun <;> infer_instance
    rw [stringLoop_succ]
    infer_instance

instance (n : Nat) (out : Bytes) (e : Option UInt8) :
    Forward (afterBackslash n out e : Parse E W Bytes) := by
  have := @forward_stringLoop E W
  cases e <;> unfold afterBackslash <;> infer_instance

instance (n : Nat) (out : Bytes) (c : Option UInt8) :
    Forward (afterRun n out c : Parse E W Bytes) := by
  have := @forward_stringLoop E W
  cases c <;> unfold afterRun <;> infer_instance

instance : Forward (string : Parse E W Bytes) := by
  have := @forward_stringLoop E W
  unfold string
  infer_instance

instance (H : Host V E W) (f : V) (args : List V) : Forward (invoke H f args) where
  moves r hr := by
    unfold invoke
    rcases H.invoke f args r.world with ⟨e | v, w⟩ <;> exact .refl hr

theorem forward_arrayItems {value : Parse E W V} [Forward value] (n : Nat) (items : List V) :
    Forward (arrayItems value n items) := by
  induction n generalizing items with
  | zero => exact inferInstanceAs (Forward (pure items))
  | succ n ih =>
    unfold arrayItems
    infer_instance

instance (H : Host V E W) {value : Parse E W V} [Forward value] : Forward (array H value) := by
  have := @forward_arrayItems V E W value _
  unfold array
  infer_instance

instance (H : Host V E W) (opts : ReadOptions V) : Forward (key H opts) := by
  unfold key
  have : ∀ text, Forward (match opts.keys with
      | .fn keyFn => invoke H keyFn [makeKey H opts text]
      | .strings | .keywords => pure (makeKey H opts text) : Parse E W V) := by
    intro text
    cases opts.keys <;> infer_instance
  infer_instance

instance (H : Host V E W) (opts : ReadOptions V) (k v : V) : Forward (applyValueFn H opts k v) := by
  unfold applyValueFn
  cases opts.valueFn <;> infer_instance

instance (H : Host V E W) (opts : ReadOptions V) {value : Parse E W V} [Forward value] :
    Forward (objectEntry H opts value) := by
  unfold objectEntry
  infer_instance

theorem forward_objectItems (H : Host V E W) (opts : ReadOptions V) {value : Parse E W V}
    [Forward value] (n : Nat) (batch : Batch V) : Forward (objectItems H opts value n batch) := by
  induction n generalizing batch with
  | zero => exact inferInstanceAs (Forward (pure batch))
  | succ n ih =>
    unfold objectItems
    infer_instance

instance (H : Host V E W) (opts : ReadOptions V) {value : Parse E W V} [Forward value] :
    Forward (object H opts value) := by
  have := @forward_objectItems V E W H opts value _
  unfold object
  infer_instance

instance : Forward (noValue : Parse E W α) := by
  unfold noValue
  have : ∀ c, Forward (match c with
      | none => fail "unexpected end of input, expected a value"
      | some c => if isLetter c then do
          let token ← copyWhile fun d => isLetter d || isDigit d
          unrecognized token
        else fail ("unexpected " ++ describe (some c) ++ ", expected a value") : Parse E W α) := by
    intro c
    cases c <;> infer_instance
  infer_instance

set_option synthInstance.maxSize 2000 in
instance forward_value (H : Host V E W) (opts : ReadOptions V) (stack : Nat) :
    Forward (value H opts stack) := by
  induction stack with
  | zero => exact inferInstanceAs (Forward (throw .stackOverflow : Parse E W V))
  | succ stack ih =>
    unfold value
    infer_instance

end Forward

abbrev Anywhere (_ _ : Reading W) : Prop := True

/-- Both see the same byte next. -/
def Level (A B : Reading W) : Prop := A.unread.head? = B.unread.head?

section Rules
variable {exact : Bool} {p p' : Place} {A B : Reading W} {Q R : Reading W → Reading W → Prop}
  {f g : Parse E W α} {k k' : α → Parse E W β}

theorem Agree.bind [hk' : ∀ a, Forward (k a)] (hf : Agree exact p Q f g A B)
    (hk : ∀ a A' B', Sim exact p A' B' → A'.unread.length ≤ A.unread.length →
      B'.unread.length ≤ B.unread.length → Q A' B' → Agree exact p' R (k a) (k' a) A' B') :
    Agree exact p' R (f >>= k) (g >>= k') A B := by
  unfold Agree at hf ⊢
  rw [bind_apply, bind_apply]
  cases hfA : f A with
  | error e A' =>
    rw [hfA] at hf
    rcases hf with hm | hf
    · exact .inl hm
    · right
      cases hgB : g B with
      | error e' B' => rwa [hgB] at hf
      | ok b B' =>
        rw [hgB] at hf
        exact absurd hf not_false
  | ok a A' =>
    rw [hfA] at hf
    rcases hf with hm | hf
    · exact .inl (((hk' a).moves A' hm.1).broken hm)
    · cases hgB : g B with
      | error e' B' =>
        rw [hgB] at hf
        exact absurd hf not_false
      | ok b B' =>
        rw [hgB] at hf
        obtain ⟨rfl, hs, hlA, hlB, hQ⟩ := hf
        rcases hk a A' B' hs hlA hlB hQ with hm | h
        · exact .inl hm
        · right
          dsimp only
          revert h
          cases k a A' <;> cases k' a B' <;> intro h
          · obtain ⟨hab, hs', hlA', hlB', hR⟩ := h
            exact ⟨hab, hs', Nat.le_trans hlA' hlA, Nat.le_trans hlB' hlB, hR⟩
          · exact h
          · exact h
          · exact h

theorem Agree.mono (h : Agree exact p Q f g A B) (hQ : ∀ A B, Q A B → R A B) :
    Agree exact p R f g A B := by
  unfold Agree at h ⊢
  rcases h with hm | h
  · exact .inl hm
  · right
    revert h
    cases f A <;> cases g B <;> intro h
    · obtain ⟨hab, hs, hlA, hlB, hq⟩ := h
      exact ⟨hab, hs, hlA, hlB, hQ _ _ hq⟩
    · exact h
    · exact h
    · exact h

theorem Agree.pure (hs : Sim exact p A B) (hQ : Q A B) (a : α) :
    Agree exact p Q (Pure.pure a : Parse E W α) (Pure.pure a) A B :=
  .inr ⟨rfl, hs, Nat.le_refl _, Nat.le_refl _, hQ⟩

theorem Agree.fail_at {what what' : String} (hw : A.world = B.world)
    (hm : Placed exact A → what = what' ∧ A.where_ = B.where_) :
    Agree exact p Q (fail what : Parse E W α) (fail what') A B := by
  refine .inr ⟨fun he => ?_, hw⟩
  obtain ⟨rfl, hwhere⟩ := hm he
  rw [hwhere]

theorem Agree.fail (hs : Sim exact p A B) {what what' : String}
    (hm : Placed exact A → what = what') :
    Agree exact p' Q (fail what : Parse E W α) (Json.fail what') A B :=
  .fail_at hs.world fun he => ⟨hm he, hs.where_eq he⟩

theorem Agree.ite {c : Prop} [Decidable c] {f' g' : Parse E W α}
    (ht : c → Agree exact p Q f g A B) (he : ¬c → Agree exact p Q f' g' A B) :
    Agree exact p Q (if c then f else f') (if c then g else g') A B := by
  by_cases h : c
  · rw [if_pos h, if_pos h]
    exact ht h
  · rw [if_neg h, if_neg h]
    exact he h

theorem Agree.neither {c c' : Prop} [Decidable c] [Decidable c'] {f' g' : Parse E W α}
    (hc : ¬c) (hc' : ¬c') (h : Agree exact p Q f' g' A B) :
    Agree exact p Q (if c then f else f') (if c' then g else g') A B := by
  rwa [if_neg hc, if_neg hc']

theorem Agree.fuel_bind {k k' : Nat → Parse E W β}
    (hk : Agree exact p Q (k (A.unread.length + 1)) (k' (B.unread.length + 1)) A B) :
    Agree exact p Q (fuel >>= k) (fuel >>= k') A B := hk

theorem Agree.peek_bind {k k' : Option UInt8 → Parse E W β} (hs : Sim exact p A B)
    (hk : ∀ c c', Next exact A (peeked B) c c' → Sim exact p A (peeked B) →
      (peeked B).unread = B.unread → Agree exact p' Q (k c) (k' c') A (peeked B)) :
    Agree exact p' Q (peek >>= k) (peek >>= k') A B := by
  obtain ⟨hs', hu, -, hn⟩ := hs.peek
  have h := hk _ _ hn hs' hu
  have hA : A.toSource.peek.2 = A.toSource := by rw [Source.peek_string hs.string]
  unfold Agree at h ⊢
  rw [hu] at h
  rw [bind_apply, bind_apply]
  have hpA : (peek : Parse E W _) A = .ok A.toSource.peek.1 A := by
    show EStateM.Result.ok _ { A with toSource := A.toSource.peek.2 } = _
    rw [hA]
  have hpB : (peek : Parse E W _) B = .ok B.toSource.peek.1 (peeked B) := rfl
  rw [hpA, hpB]
  exact h

theorem Agree.after {A' B' : Reading W} {a : α} (hf : f A = .ok a A') (hg : g B = .ok a B')
    (hA : A'.unread.length ≤ A.unread.length) (hB : B'.unread.length ≤ B.unread.length)
    (h : Agree exact p Q (k a) (k' a) A' B') : Agree exact p Q (f >>= k) (g >>= k') A B := by
  unfold Agree at h ⊢
  rw [bind_apply, bind_apply, hf, hg]
  rcases h with hm | h
  · exact .inl hm
  · right
    dsimp only
    revert h
    cases k a A' <;> cases k' a B' <;> intro h
    · obtain ⟨hab, hs, hlA, hlB, hq⟩ := h
      exact ⟨hab, hs, Nat.le_trans hlA hA, Nat.le_trans hlB hB, hq⟩
    · exact h
    · exact h
    · exact h

theorem Sim.advance_length (hs : Sim exact p A B) {c : UInt8} {u t : Bytes} (hA : A.unread = c :: u)
    (hB : B.data = c :: t) : (advanced A).unread.length < A.unread.length ∧
      (advanced B).unread.length < B.unread.length := by
  obtain ⟨v, hv, -⟩ := hs.unread_stream hA
  have huA : (advanced A).unread = u := Source.unread_advance (hs.data_string.trans hA) hA
  have huB : (advanced B).unread = v := Source.unread_advance hB hv
  rw [huA, huB, hA, hv]
  exact ⟨Nat.lt_succ_self _, Nat.lt_succ_self _⟩

theorem Agree.read_bind {k k' : Unit → Parse E W β} (hs : Sim exact p A B) {c : UInt8}
    {u t : Bytes} (hA : A.unread = c :: u) (hB : B.data = c :: t) (hc : c ≠ LF)
    (hk : Sim exact (p.next c) (advanced A) (advanced B) →
      (advanced A).unread.length < A.unread.length →
      (advanced B).unread.length < B.unread.length →
      Agree exact p' Q (k ()) (k' ()) (advanced A) (advanced B)) :
    Agree exact p' Q (Json.advance >>= k) (Json.advance >>= k') A B := by
  obtain ⟨hlA, hlB⟩ := hs.advance_length hA hB
  exact .after rfl rfl (Nat.le_of_lt hlA) (Nat.le_of_lt hlB) (hk (hs.advance hA hB hc) hlA hlB)

theorem Sim.advance_outside (hs : Sim exact .outside A B) {c : UInt8} {u t : Bytes}
    (hA : A.unread = c :: u) (hB : B.data = c :: t) (hc : c ≠ LF ∧ c ≠ quote) :
    Sim exact .outside (advanced A) (advanced B) := by
  have h := hs.advance hA hB hc.1
  rwa [Place.next, if_neg hc.2] at h

/-- Between the string literals. -/
theorem Agree.advance_bind {k k' : Unit → Parse E W β} (hs : Sim exact .outside A B) {c : UInt8}
    {u t : Bytes} (hA : A.unread = c :: u) (hB : B.data = c :: t) (hc : c ≠ LF ∧ c ≠ quote)
    (hk : Sim exact .outside (advanced A) (advanced B) →
      (advanced A).unread.length < A.unread.length →
      (advanced B).unread.length < B.unread.length →
      Agree exact p' Q (k ()) (k' ()) (advanced A) (advanced B)) :
    Agree exact p' Q (Json.advance >>= k) (Json.advance >>= k') A B :=
  .read_bind hs hA hB hc.1 fun _ => hk (hs.advance_outside hA hB hc)

theorem Agree.advance (hs : Sim exact .outside A B) {c : UInt8} {u t : Bytes} (hA : A.unread = c :: u)
    (hB : B.data = c :: t) (hc : c ≠ LF ∧ c ≠ quote) :
    Agree (E := E) exact .outside Anywhere Json.advance Json.advance A B := by
  obtain ⟨hlA, hlB⟩ := hs.advance_length hA hB
  exact .inr ⟨rfl, hs.advance_outside hA hB hc, Nat.le_of_lt hlA, Nat.le_of_lt hlB, trivial⟩

theorem Agree.endLine_bind {k k' : Unit → Parse E W β} (hs : Sim exact p A B) (hp : p ≠ .escaped)
    {u t : Bytes} (hA : A.unread = LF :: u) (hB : B.data = LF :: t)
    (hk : Sim exact (p.next LF) (lineEnded A) (lineEnded B) →
      (lineEnded A).unread.length < A.unread.length →
      (lineEnded B).unread.length < B.unread.length →
      Agree exact p' Q (k ()) (k' ()) (lineEnded A) (lineEnded B)) :
    Agree exact p' Q (Json.advance >>= fun _ => newline >>= k)
      (Json.advance >>= fun _ => newline >>= k') A B := by
  obtain ⟨hlA, hlB⟩ := hs.advance_length hA hB
  refine .after rfl rfl (Nat.le_of_lt hlA) (Nat.le_of_lt hlB) ?_
  exact .after rfl rfl (Nat.le_refl _) (Nat.le_refl _) (hk (hs.endLine hp hA hB) hlA hlB)

end Rules

/-! ### Tokens -/

section Tokens
variable {exact : Bool} {A B : Reading W}

theorem peek_end {r : Reading W} (hu : r.unread = []) :
    (peek : Parse E W (Option UInt8)) r = .ok none r := by
  show EStateM.Result.ok r.toSource.peek.1 { r with toSource := r.toSource.peek.2 } = _
  rw [Source.peek_end hu]

theorem skipWhitespaceLoop_end {r : Reading W} (hu : r.unread = []) (n : Nat) :
    (skipWhitespaceLoop n : Parse E W Unit) r = .ok () r := by
  cases n with
  | zero => rfl
  | succ n =>
    unfold skipWhitespaceLoop
    rw [bind_apply, peek_end hu]
    rfl

theorem agree_skipWhitespaceLoop (nA : Nat) : ∀ (nB : Nat) (A B : Reading W), Sim exact .outside A B →
    A.unread.length < nA → B.unread.length < nB →
    Agree (E := E) exact .outside Level (skipWhitespaceLoop nA) (skipWhitespaceLoop nB) A B := by
  induction nA with
  | zero => intro nB A B _ hA; exact absurd hA (Nat.not_lt_zero _)
  | succ nA ih =>
    intro nB A B hs hA hB
    cases nB with
    | zero => exact absurd hB (Nat.not_lt_zero _)
    | succ nB =>
      unfold skipWhitespaceLoop
      refine .peek_bind hs fun p p' hn hs' hu => ?_
      rw [← hu] at hB
      cases hn with
      | none hAn hBn hdn =>
        simp only [reduceCtorEq, or_self, if_false]
        exact .pure hs' (by rw [Level, hAn, hBn]) ()
      | byte c hAc hBc =>
        refine .ite (fun hc => ?_) fun _ => .ite (fun hc => ?_) fun _ => ?_
        · refine .advance_bind hs' hAc hBc ?_ ?_
          · constructor <;> rintro rfl <;> revert hc <;> decide
          intro hs'' hlA hlB
          exact ih nB _ _ hs'' (by omega) (by omega)
        · cases hc
          refine .endLine_bind hs' nofun hAc hBc ?_
          intro hs'' hlA hlB
          exact ih nB _ _ hs'' (by omega) (by omega)
        · obtain ⟨v, hv, -⟩ := hs'.unread_stream hAc
          exact .pure hs' (by rw [Level, hAc, hv]; rfl) ()
      | last he hAn hBn hdn =>
        have hlast := hs'.endLast he hAn hBn hdn
        have hend := unread_endLast hBn hdn
        have hrun : (do
            advance
            newline
            skipWhitespaceLoop nB : Parse E W Unit) (peeked B) = .ok () (lineEnded (peeked B)) := by
          show skipWhitespaceLoop nB (lineEnded (peeked B)) = _
          exact skipWhitespaceLoop_end hend nB
        simp only [reduceCtorEq, or_self, if_false]
        rw [if_neg (by decide), if_true]
        refine .inr ?_
        rw [hrun, hBn]
        exact ⟨rfl, hlast, Nat.le_refl _, by rw [hend]; exact Nat.zero_le _, by rw [Level, hAn, hend]⟩

theorem agree_skipWhitespace (hs : Sim exact .outside A B) :
    Agree (E := E) exact .outside Level skipWhitespace skipWhitespace A B :=
  .fuel_bind (agree_skipWhitespaceLoop _ _ A B hs (Nat.lt_succ_self _) (Nat.lt_succ_self _))

theorem agree_more (hs : Sim exact .outside A B) :
    Agree (E := E) exact .outside Anywhere more more A B := by
  refine .bind (agree_skipWhitespace hs) fun _ A' B' hs' _ _ hl => ?_
  refine .peek_bind hs' fun p p' hn hs'' hu => ?_
  cases hn with
  | none hA hB hd => exact .pure hs'' trivial _
  | byte c hA hB => exact .pure hs'' trivial _
  | last he hA hB hd =>
    rw [Level, hA, ← hu, hB] at hl
    cases hl

theorem agree_describeCurrent {c : UInt8} {u : Bytes} (hs : Sim exact .outside A B)
    (hA : A.unread = c :: u) :
    Agree (E := E) exact .outside Anywhere describeCurrent describeCurrent A B := by
  refine .peek_bind hs fun p p' hn hs' hu => ?_
  cases hn with
  | none hAn hBn hd =>
    rw [hA] at hAn
    cases hAn
  | byte d hAd hBd => exact .pure hs' trivial _
  | last he hAn hBn hd =>
    rw [hA] at hAn
    cases hAn

theorem agree_copyWhileLoop {p : UInt8 → Bool} (hp : p LF = false ∧ p quote = false) (nA : Nat) :
    ∀ (nB : Nat) (out : Bytes) (A B : Reading W), Sim exact .outside A B → A.unread.length < nA →
    B.unread.length < nB →
    Agree (E := E) exact .outside Anywhere (copyWhileLoop p nA out) (copyWhileLoop p nB out) A B := by
  induction nA with
  | zero => intro nB out A B _ hA; exact absurd hA (Nat.not_lt_zero _)
  | succ nA ih =>
    intro nB out A B hs hA hB
    cases nB with
    | zero => exact absurd hB (Nat.not_lt_zero _)
    | succ nB =>
      unfold copyWhileLoop
      refine .peek_bind hs fun c c' hn hs' hu => ?_
      rw [← hu] at hB
      cases hn with
      | none hAn hBn hd => exact .pure hs' trivial out
      | byte c hAc hBc =>
        refine .ite (fun hc => ?_) fun _ => .pure hs' trivial out
        refine .advance_bind hs' hAc hBc ⟨?_, ?_⟩ ?_
        · rintro rfl
          rw [hp.1] at hc
          cases hc
        · rintro rfl
          rw [hp.2] at hc
          cases hc
        · intro hs'' hlA hlB
          exact ih nB _ _ _ hs'' (by omega) (by omega)
      | last he hAn hBn hd =>
        simp only [hp.1]
        exact .pure hs' trivial out

theorem agree_copyWhile {p : UInt8 → Bool} (hp : p LF = false ∧ p quote = false) (hs : Sim exact .outside A B) :
    Agree (E := E) exact .outside Anywhere (copyWhile p) (copyWhile p) A B :=
  .fuel_bind (agree_copyWhileLoop hp _ _ _ A B hs (Nat.lt_succ_self _) (Nat.lt_succ_self _))

theorem agree_unrecognized (hs : Sim exact .outside A B) (token : Bytes) {Q : Reading W → Reading W → Prop} :
    Agree (E := E) (α := α) exact .outside Q (unrecognized token) (unrecognized token) A B :=
  .fail hs fun _ => rfl

theorem agree_wordLoop (w seen : Bytes) (hw : ∀ c ∈ w, c ≠ LF ∧ c ≠ quote) (A B : Reading W) (hs : Sim exact .outside A B) :
    Agree (E := E) exact .outside Anywhere (wordLoop w seen) (wordLoop w seen) A B := by
  induction w generalizing seen A B with
  | nil => exact .pure hs trivial seen
  | cons p w ih =>
    have hp := hw p List.mem_cons_self
    unfold wordLoop
    refine .peek_bind hs fun c c' hn hs' hu => ?_
    have hmiss : Agree (E := E) (α := Bytes) exact .outside Anywhere
        (copyWhile isLetter >>= fun rest => unrecognized (seen ++ rest))
        (copyWhile isLetter >>= fun rest => unrecognized (seen ++ rest)) A (peeked B) :=
      .bind (agree_copyWhile (by decide) hs') fun rest _ _ h _ _ _ => agree_unrecognized h _
    cases hn with
    | none hAn hBn hd => exact hmiss
    | byte c hAc hBc =>
      refine .ite (fun hc => ?_) fun _ => hmiss
      cases hc
      refine .advance_bind hs' hAc hBc hp ?_
      intro hs'' _ _
      exact ih _ (fun c hc => hw c (List.mem_cons_of_mem _ hc)) _ _ hs''
    | last he hAn hBn hd =>
      have hne : ¬(some LF = some p) := fun h => hp.1 (Option.some.inj h).symm
      rw [if_neg hne]
      exact hmiss

theorem agree_word (w : Bytes) (hw : ∀ c ∈ w, c ≠ LF ∧ c ≠ quote) (hs : Sim exact .outside A B) :
    Agree (E := E) exact .outside Anywhere (word w) (word w) A B := by
  refine .bind (agree_wordLoop w [] hw A B hs) fun seen A' B' hs' _ _ _ => ?_
  refine .peek_bind hs' fun c c' hn hs'' hu => ?_
  cases hn with
  | none hAn hBn hd => exact .pure hs'' trivial ()
  | byte c hAc hBc =>
    refine .ite (fun _ => ?_) fun _ => .pure hs'' trivial ()
    exact .bind (agree_copyWhile (by decide) hs'') fun rest _ _ h _ _ _ => agree_unrecognized h _
  | last he hAn hBn hd => exact .pure hs'' trivial ()

end Tokens

/-! ### Numbers -/

section Numbers
variable {exact : Bool} {A B : Reading W}

/-- A digit must come next. -/
theorem agree_digits {what : String} (hs : Sim exact .outside A B) (f : Bytes → Bytes) :
    Agree (E := E) exact .outside Anywhere
      (do
        if (← peek).any isDigit then do
          let digits ← copyWhile isDigit
          return f digits
        else fail what)
      (do
        if (← peek).any isDigit then do
          let digits ← copyWhile isDigit
          return f digits
        else fail what) A B := by
  refine .peek_bind hs fun c c' hn hs' hu => ?_
  cases hn with
  | none hAn hBn hd => exact .neither (by decide) (by decide) (.fail hs' fun _ => rfl)
  | byte c hAc hBc =>
    refine .ite (fun _ => ?_) fun _ => .fail hs' fun _ => rfl
    exact .bind (agree_copyWhile (by decide) hs') fun digits _ _ h _ _ _ => .pure h trivial _
  | last he hAn hBn hd => exact .neither (by decide) (by decide) (.fail hs' fun _ => rfl)

theorem agree_minus (hs : Sim exact .outside A B) :
    Agree (E := E) exact .outside Anywhere minus minus A B := by
  refine .peek_bind hs fun c c' hn hs' hu => ?_
  cases hn with
  | none hAn hBn hd => exact .pure hs' trivial _
  | byte c hAc hBc =>
    refine .ite (fun hc => ?_) fun _ => .pure hs' trivial _
    refine .advance_bind hs' hAc hBc (by cases hc; decide) fun hs'' _ _ => ?_
    exact .pure hs'' trivial _
  | last he hAn hBn hd => exact .neither (by decide) (by decide) (.pure hs' trivial _)

theorem agree_integerPart (hs : Sim exact .outside A B) :
    Agree (E := E) exact .outside Anywhere integerPart integerPart A B := by
  refine .peek_bind hs fun c c' hn hs' hu => ?_
  cases hn with
  | none hAn hBn hd => exact .fail hs' fun _ => rfl
  | byte c hAc hBc =>
    refine .ite (fun hc => ?_) fun _ => .ite (fun _ => ?_) fun _ => .fail hs' fun _ => rfl
    · refine .advance_bind hs' hAc hBc (by cases hc; decide) fun hs'' _ _ => ?_
      refine .peek_bind hs'' fun d d' hn' hs₃ hu' => ?_
      cases hn' with
      | none hAn hBn hd => exact .pure hs₃ trivial _
      | byte d hAd hBd => exact .ite (fun _ => .fail hs₃ fun _ => rfl) fun _ => .pure hs₃ trivial _
      | last he hAn hBn hd => exact .pure hs₃ trivial _
    · exact agree_copyWhile (by decide) hs'
  | last he hAn hBn hd =>
    refine .neither (by decide) (by decide) (.neither (by decide) (by decide) ?_)
    exact .fail hs' fun _ => rfl

theorem agree_fractionPart (hs : Sim exact .outside A B) :
    Agree (E := E) exact .outside Anywhere fractionPart fractionPart A B := by
  refine .peek_bind hs fun c c' hn hs' hu => ?_
  cases hn with
  | none hAn hBn hd => exact .pure hs' trivial _
  | byte c hAc hBc =>
    refine .ite (fun hc => ?_) fun _ => .pure hs' trivial _
    refine .advance_bind hs' hAc hBc (by cases hc; decide) fun hs'' _ _ => ?_
    exact agree_digits hs'' _
  | last he hAn hBn hd => exact .neither (by decide) (by decide) (.pure hs' trivial _)

theorem agree_exponentSign (hs : Sim exact .outside A B) :
    Agree (E := E) exact .outside Anywhere exponentSign exponentSign A B := by
  refine .peek_bind hs fun c c' hn hs' hu => ?_
  cases hn with
  | none hAn hBn hd => exact .pure hs' trivial _
  | byte c hAc hBc =>
    refine .ite (fun hc => ?_) fun _ => .pure hs' trivial _
    refine .advance_bind hs' hAc hBc (by constructor <;> rintro rfl <;> revert hc <;> decide) fun hs'' _ _ => ?_
    exact .pure hs'' trivial _
  | last he hAn hBn hd => exact .pure hs' trivial _

theorem agree_exponentPart (hs : Sim exact .outside A B) :
    Agree (E := E) exact .outside Anywhere exponentPart exponentPart A B := by
  refine .peek_bind hs fun c c' hn hs' hu => ?_
  cases hn with
  | none hAn hBn hd => exact .pure hs' trivial _
  | byte c hAc hBc =>
    refine .ite (fun hc => ?_) fun _ => .pure hs' trivial _
    refine .advance_bind hs' hAc hBc (by constructor <;> rintro rfl <;> revert hc <;> decide) fun hs'' _ _ => ?_
    refine .bind (agree_exponentSign hs'') fun sign _ _ h _ _ _ => ?_
    exact agree_digits h _
  | last he hAn hBn hd => exact .neither (by decide) (by decide) (.pure hs' trivial _)

theorem agree_number (H : Host V E W) (hs : Sim exact .outside A B) :
    Agree exact .outside Anywhere (number H) (number H) A B := by
  refine .bind (agree_minus hs) fun sign _ _ hs _ _ _ => ?_
  refine .bind (agree_integerPart hs) fun int _ _ hs _ _ _ => ?_
  refine .bind (agree_fractionPart hs) fun fraction _ _ hs _ _ _ => ?_
  refine .bind (agree_exponentPart hs) fun exponent _ _ hs _ _ _ => ?_
  refine .peek_bind hs fun c c' hn hs' hu => ?_
  cases hn with
  | none hAn hBn hd => exact .pure hs' trivial _
  | byte c hAc hBc =>
    refine .ite (fun _ => ?_) fun _ => .pure hs' trivial _
    exact .bind (agree_describeCurrent hs' hAc) fun found _ _ h _ _ _ => .fail h fun _ => rfl
  | last he hAn hBn hd => exact .neither (by decide) (by decide) (.pure hs' trivial _)

end Numbers

/-! ### Strings -/

section Strings
variable {exact : Bool} {A B : Reading W}

/-- Refusals at the end of the input. -/
theorem Agree.faults {f g : Parse E W α} {Q : Reading W → Reading W → Prop} {p : Place} {m m' : String}
    {A' B' : Reading W} (he : exact = false) (hA' : A'.unread = [])
    (hf : f A = .error (.jsonSyntaxError m) A') (hg : g B = .error (.jsonSyntaxError m') B')
    (hw : A'.world = B'.world) : Agree exact p Q f g A B := by
  right
  rw [hf, hg]
  exact ⟨fun h => absurd h (not_placed he hA'), hw⟩

theorem hexDigit_lf : hexDigit LF = none := by decide

/-- A hexadecimal digit leaves a literal neither. -/
theorem next_hexDigit {c : UInt8} {d : Nat} (hd : hexDigit c = some d) :
    c ≠ LF ∧ Place.next c .inside = .inside := by
  have hne : ∀ x, hexDigit x = none → c ≠ x := by
    rintro x hx rfl
    rw [hx] at hd
    cases hd
  refine ⟨hne LF hexDigit_lf, ?_⟩
  rw [Place.next, if_neg (hne quote (by decide)), if_neg (hne backslash (by decide)),
    if_neg (hne LF hexDigit_lf)]

theorem agree_hexDigits (i v : Nat) (A B : Reading W) (hs : Sim exact .inside A B) :
    Agree (E := E) exact .inside Anywhere (hexDigits i v) (hexDigits i v) A B := by
  induction i generalizing v A B with
  | zero => exact .pure hs trivial v
  | succ i ih =>
    unfold hexDigits
    refine .peek_bind hs fun c c' hn hs' hu => ?_
    cases hn with
    | none hAn hBn hd => exact .fail hs' fun _ => rfl
    | byte c hAc hBc =>
      rw [Option.bind_some]
      cases hd : hexDigit c with
      | none => exact .fail hs' fun _ => rfl
      | some d =>
        obtain ⟨hlf, hnext⟩ := next_hexDigit hd
        refine .read_bind hs' hAc hBc hlf fun hs'' _ _ => ?_
        rw [hnext] at hs''
        exact ih _ _ _ hs''
    | last he hAn hBn hd =>
      rw [Option.bind_none, Option.bind_some, hexDigit_lf]
      exact .fail hs' fun _ => rfl

theorem agree_hex4 (hs : Sim exact .inside A B) : Agree (E := E) exact .inside Anywhere hex4 hex4 A B :=
  agree_hexDigits 4 0 A B hs

theorem agree_lowSurrogate (hs : Sim exact .inside A B) :
    Agree (E := E) exact .inside Anywhere lowSurrogate lowSurrogate A B := by
  have hfail : ∀ {p : Place} {A B : Reading W}, Sim exact p A B →
      Agree (E := E) (α := Nat) exact .inside Anywhere unpairedSurrogate unpairedSurrogate A B :=
    fun h => .fail h fun _ => rfl
  refine .peek_bind hs fun c c' hn hs' hu => ?_
  cases hn with
  | none hAn hBn hd => exact .neither (by decide) (by decide) (hfail hs')
  | byte c hAc hBc =>
    refine .ite (fun hc => ?_) fun _ => hfail hs'
    refine .read_bind hs' hAc hBc (by cases hc; decide) fun hs'' _ _ => ?_
    refine .peek_bind hs'' fun d d' hn' hs₃ hu' => ?_
    cases hn' with
    | none hAn hBn hd => exact .neither (by decide) (by decide) (hfail hs₃)
    | byte d hAd hBd =>
      refine .ite (fun hd => ?_) fun _ => hfail hs₃
      refine .read_bind hs₃ hAd hBd (by cases hd; decide) fun hs₄ _ _ => ?_
      cases hc
      refine .bind (agree_hex4 hs₄) fun lo _ _ h _ _ _ => ?_
      exact .ite (fun _ => hfail h) fun _ => .pure h trivial lo
    | last he hAn hBn hd => exact .neither (by decide) (by decide) (hfail hs₃)
  | last he hAn hBn hd => exact .neither (by decide) (by decide) (hfail hs')

theorem agree_unicodeEscape (hs : Sim exact .inside A B) :
    Agree (E := E) exact .inside Anywhere unicodeEscape unicodeEscape A B := by
  refine .bind (agree_hex4 hs) fun cp _ _ hs _ _ _ => ?_
  refine .ite (fun _ => ?_) fun _ => .ite (fun _ => .fail hs fun _ => rfl) fun _ => ?_
  · exact .bind (agree_lowSurrogate hs) fun lo _ _ h _ _ _ => .pure h trivial _
  · exact .pure hs trivial _

theorem agree_escape (e : UInt8) (hs : Sim exact .inside A B) :
    Agree (E := E) exact .inside Anywhere (escape e) (escape e) A B := by
  unfold escape
  repeat' first
    | exact .pure hs trivial _
    | exact agree_unicodeEscape hs
    | exact .fail hs fun _ => rfl
    | refine .ite (fun _ => ?_) fun _ => ?_

/-! #### Runs of plain bytes -/

def skipped (n : Nat) (r : Reading W) : Reading W := { r with toSource := r.toSource.skip n }

theorem skipped_succ (n : Nat) (r : Reading W) : skipped (n + 1) r = skipped n (advanced r) := by
  have hpos : r.pos + (n + 1) = r.pos + 1 + n := by omega
  simp [skipped, advanced, Source.skip, Source.advance, hpos]

/-- In a literal, and not behind a backslash. -/
def Place.Literal (p : Place) : Prop := p = .inside ∨ p = .lineStart

theorem Place.Literal.next {p : Place} (hp : p.Literal) (c : UInt8) : p.next c = Place.next c .inside := by
  rcases hp with rfl | rfl <;> rfl

theorem next_plain {c : UInt8} (hc : isPlain c = true) : c ≠ LF ∧ Place.next c .inside = .inside := by
  obtain ⟨⟨hquote, hback⟩, hlf⟩ : (c ≠ quote ∧ c ≠ backslash) ∧ c ≠ LF := by
    simpa [isPlain] using hc
  refine ⟨hlf, ?_⟩
  rw [Place.next, if_neg hquote, if_neg hback, if_neg hlf]

theorem Sim.skip (run : Bytes) {u t : Bytes} {p : Place} (hp : p.Literal) (A B : Reading W)
    (hs : Sim exact p A B) (hA : A.unread = run ++ u) (hB : B.data = run ++ t)
    (hrun : ∀ c ∈ run, isPlain c = true) :
    ∃ p' : Place, p'.Literal ∧ Sim exact p' (skipped run.length A) (skipped run.length B) := by
  induction run generalizing p A B with
  | nil => exact ⟨p, hp, hs⟩
  | cons c run ih =>
    obtain ⟨hc, hrun⟩ := List.forall_mem_cons.mp hrun
    obtain ⟨hlf, hnext⟩ := next_plain hc
    have hs' := hs.advance hA hB hlf
    rw [hp.next, hnext] at hs'
    rw [List.length_cons, skipped_succ, skipped_succ]
    exact ih (.inl rfl) _ _ hs' (Source.unread_advance (hs.data_string.trans hA) hA)
      (Source.data_advance hB) hrun

theorem data_skipped (n : Nat) (r : Reading W) : (skipped n r).data = r.data.drop n := by
  show r.buf.drop (r.pos + n) = (r.buf.drop r.pos).drop n
  rw [List.drop_drop]

theorem unread_skipped_length (n : Nat) (r : Reading W) :
    (skipped n r).unread.length ≤ r.unread.length := by
  have hr : (skipped n r).reader = r.reader := rfl
  rw [Source.unread, Source.unread, data_skipped, hr, List.length_append, List.length_append,
    List.length_drop]
  omega

theorem takeWhile_eq {run rest : Bytes} (hrun : ∀ c ∈ run, isPlain c = true)
    (hrest : ∀ c, rest.head? = some c → isPlain c = false) :
    (run ++ rest).takeWhile isPlain = run := by
  rw [List.takeWhile_append_of_pos hrun]
  cases rest with
  | nil => rw [List.takeWhile_nil, List.append_nil]
  | cons c rest =>
    have hc := hrest c rfl
    rw [List.takeWhile_cons_of_neg (by rw [hc]; exact Bool.false_ne_true), List.append_nil]

/-- The buffered run is the same in both, and what ends it is met without a refill. -/
theorem Sim.plainRun {p : Place} (hl : p.Literal) (hs : Sim exact p A B)
    (hp : B.data = [] → ∀ c, B.unread.head? = some c → isPlain c = false) :
    ∃ (run : Bytes) (n : Nat) (p' : Place), p'.Literal ∧
      (plainRun : Parse E W Bytes) A = .ok run (skipped n A) ∧
      (Json.plainRun : Parse E W Bytes) B = .ok run (skipped n B) ∧
      Sim exact p' (skipped n A) (skipped n B) ∧
      ∀ c, (skipped n B).unread.head? = some c → isPlain c = false := by
  have hrunA : (Json.plainRun : Parse E W Bytes) A =
      .ok (A.unread.takeWhile isPlain) (skipped (A.unread.takeWhile isPlain).length A) := by
    rw [← hs.data_string]
    rfl
  have hrunB : (Json.plainRun : Parse E W Bytes) B =
      .ok (B.data.takeWhile isPlain) (skipped (B.data.takeWhile isPlain).length B) := rfl
  rw [hrunA, hrunB]
  by_cases hd : B.data = []
  · have hnone : A.unread.takeWhile isPlain = [] := by
      refine @takeWhile_eq [] A.unread (List.forall_mem_nil _) fun c hc => ?_
      apply hp hd c
      rcases hs.unread with h | ⟨-, h⟩
      · rw [h, hc]
      · rw [h, List.head?_append, hc]
        rfl
    rw [hnone, hd]
    exact ⟨[], 0, p, hl, rfl, rfl, hs, hp hd⟩
  · obtain ⟨d, hlf⟩ := hs.lineEnd.resolve_left hd
    have hsplit := @List.takeWhile_append_dropWhile _ isPlain B.data
    have hrest := List.head?_dropWhile_not isPlain B.data
    generalize hr : B.data.takeWhile isPlain = run at hsplit
    generalize ht : B.data.dropWhile isPlain = t at hsplit hrest
    have hrun : ∀ c ∈ run, isPlain c = true := by
      rw [← hr]
      exact fun c hc => List.mem_takeWhile_imp hc
    have hne : t ≠ [] := by
      rintro rfl
      have hmem : LF ∈ B.data := by rw [hlf]; exact List.mem_append_right _ List.mem_cons_self
      rw [← hsplit, List.append_nil] at hmem
      exact absurd (hrun LF hmem) (by decide)
    have hhead : ∀ c, t.head? = some c → isPlain c = false := by
      intro c hc
      rw [hc] at hrest
      simpa using hrest
    have huB : B.unread = run ++ (t ++ (B.reader.getD []).flatMap (· ++ [LF])) := by
      rw [Source.unread, ← hsplit, List.append_assoc]
    have huA : ∃ u, A.unread = run ++ u ∧ ∀ c, u.head? = some c → isPlain c = false := by
      generalize (B.reader.getD []).flatMap (· ++ [LF]) = more at huB
      have hmore : ∀ c, (t ++ more).head? = some c → isPlain c = false := by
        obtain ⟨x, t', rfl⟩ := List.exists_cons_of_ne_nil hne
        exact hhead
      rcases hs.unread with h | ⟨-, h⟩
      · exact ⟨_, h ▸ huB, hmore⟩
      · refine ⟨(t ++ more).dropLast, ?_, fun c hc => hmore c ?_⟩
        · rw [← List.dropLast_append_of_ne_nil (by simp [hne]), ← huB, h, List.dropLast_concat]
        · cases hw : t ++ more with
          | nil => rw [hw] at hc; cases hc
          | cons x w =>
            rw [hw] at hc
            cases w with
            | nil => cases hc
            | cons y w => exact hc
    obtain ⟨u, huA, hu⟩ := huA
    have hrunA : A.unread.takeWhile isPlain = run := by rw [huA]; exact takeWhile_eq hrun hu
    have hdB : (skipped run.length B).data = t := by
      rw [data_skipped, ← hsplit, List.drop_left]
    rw [hrunA]
    obtain ⟨p', hl', hs'⟩ := hs.skip run hl A B huA hsplit.symm hrun
    refine ⟨run, run.length, p', hl', rfl, rfl, hs', fun c hc => ?_⟩
    rw [Source.unread, hdB] at hc
    obtain ⟨x, t', rfl⟩ := List.exists_cons_of_ne_nil hne
    exact hhead c hc

/-! #### String contents -/

theorem stringLoop_end {r : Reading W} (hu : r.unread = []) (n : Nat) (out : Bytes) :
    ∃ m r', (stringLoop (n + 1) out : Parse E W Bytes) r = .error (.jsonSyntaxError m) r' ∧
      r'.world = r.world := by
  have hd : r.data = [] := Source.data_of_unread hu
  have hrun : (plainRun : Parse E W Bytes) r = .ok [] r := by
    have h : (plainRun : Parse E W Bytes) r =
        .ok (r.data.takeWhile isPlain) (skipped (r.data.takeWhile isPlain).length r) := rfl
    rw [h, hd]
    rfl
  rw [stringLoop_succ, bind_apply, hrun]
  dsimp only
  rw [bind_apply, peek_end hu]
  exact ⟨_, r, rfl, rfl⟩

theorem taken_skipped {run t : Bytes} {r : Reading W} (h : r.data = run ++ t) :
    (skipped run.length r).taken = r.taken ++ run := by
  show r.buf.take (r.pos + run.length) = r.buf.take r.pos ++ run
  have hrun : (r.buf.drop r.pos).take run.length = run := by
    have hd : r.buf.drop r.pos = run ++ t := h
    rw [hd, List.take_left]
  rw [List.take_add, hrun]

/-- A literal that goes on with a plain byte behind a line end. -/
theorem broken_stringLoop {r : Reading W} {c : UInt8} {t : Bytes} (hr : r.reader = none)
    (hp : placeFrom .outside r.taken = .lineStart) (hd : r.data = c :: t) (hc : isPlain c = true)
    (n : Nat) (out : Bytes) : Broken (stateOf ((stringLoop (n + 1) out : Parse E W Bytes) r)) := by
  have hsplit : r.data = r.data.takeWhile isPlain ++ r.data.dropWhile isPlain :=
    List.takeWhile_append_dropWhile.symm
  have hrun : r.data.takeWhile isPlain = c :: t.takeWhile isPlain := by
    rw [hd, List.takeWhile_cons_of_pos hc]
  have hbroken : Broken (skipped (r.data.takeWhile isPlain).length r) := by
    refine ⟨hr, ?_⟩
    rw [taken_skipped hsplit, hrun]
    exact not_unbroken hp hc
  have hrest : Forward (peek >>= afterRun n (out ++ r.data.takeWhile isPlain) : Parse E W Bytes) :=
    inferInstance
  rw [stringLoop_succ, bind_apply]
  exact (hrest.moves _ hbroken.1).broken hbroken

theorem agree_afterBackslash (n n' : Nat) (out : Bytes)
    (ih : ∀ (out : Bytes) (A' B' : Reading W), Sim exact .inside A' B' →
      A'.unread.length ≤ A.unread.length → B'.unread.length ≤ B.unread.length →
      Agree (E := E) exact .outside Anywhere (stringLoop n out) (stringLoop n' out) A' B')
    (hs : Sim exact .escaped A B) :
    Agree (E := E) exact .outside Anywhere (peek >>= afterBackslash n out)
      (peek >>= afterBackslash n' out) A B := by
  refine .peek_bind hs fun c c' hn hs' hu => ?_
  cases hn with
  | none hAn hBn hd => exact .fail hs' fun _ => rfl
  | byte e hAe hBe =>
    by_cases hlf : e = LF
    · subst hlf
      refine .after rfl rfl ?_ ?_ (.fail_at hs'.world fun _ => ⟨rfl, hs'.advance_where hAe hBe⟩)
      · exact Nat.le_of_lt (hs'.advance_length hAe hBe).1
      · exact Nat.le_of_lt (hs'.advance_length hAe hBe).2
    · refine .read_bind hs' hAe hBe hlf fun hs'' hlA hlB => ?_
      have := @forward_stringLoop E W n
      refine .bind (agree_escape e hs'') fun bytes A' B' h hA hB _ => ?_
      rw [hu] at hlB
      exact ih _ _ _ h (by omega) (by omega)
  | last he hAn hBn hd => exact .faults he hAn rfl rfl hs'.world

theorem agree_afterRun {p : Place} (hl : p.Literal) (n n' : Nat) (out : Bytes)
    (hn' : B.unread.length ≤ n')
    (ih : ∀ (out : Bytes) (p' : Place) (A' B' : Reading W), p'.Literal → Sim exact p' A' B' →
      A'.unread.length < A.unread.length → B'.unread.length < B.unread.length →
      Agree (E := E) exact .outside Anywhere (stringLoop n out) (stringLoop n' out) A' B')
    (hs : Sim exact p A B) (hp : ∀ c, B.unread.head? = some c → isPlain c = false) :
    Agree (E := E) exact .outside Anywhere (peek >>= afterRun n out) (peek >>= afterRun n' out)
      A B := by
  refine .peek_bind hs fun c c' hn hs' hu => ?_
  rw [← hu] at hn' hp ih
  cases hn with
  | none hAn hBn hd => exact .fail hs' fun _ => rfl
  | byte c hAc hBc =>
    obtain ⟨v, hv, -⟩ := hs'.unread_stream hAc
    have hplain := hp c (by rw [hv]; rfl)
    by_cases hlf : c = LF
    · subst hlf
      have hescaped : p ≠ .escaped := by rintro rfl; rcases hl with h | h <;> cases h
      refine .endLine_bind hs' hescaped hAc hBc fun hs'' hlA hlB => ?_
      rw [hl.next] at hs''
      exact ih _ _ _ _ (.inr rfl) hs'' hlA hlB
    · refine .read_bind hs' hAc hBc hlf fun hs'' hlA hlB => ?_
      rw [hl.next] at hs''
      refine .ite (fun hq => ?_) fun hq => ?_
      · subst hq
        exact .pure hs'' trivial out
      rw [if_neg hlf, if_neg hlf]
      have hback : c = backslash := by
        have h : (c != quote && c != backslash && c != LF) = false := hplain
        simpa [hq, hlf] using h
      subst hback
      refine agree_afterBackslash n n' out (fun out A' B' h hA hB => ?_) hs''
      exact ih out .inside A' B' (.inl rfl) h (by omega) (by omega)
  | last he hAn hBn hd =>
    have hend := unread_endLast hBn hd
    have hpos : 0 < n' := by
      rw [hBn] at hn'
      exact hn'
    obtain ⟨k, rfl⟩ := Nat.exists_eq_succ_of_ne_zero (Nat.ne_of_gt hpos)
    obtain ⟨m, r', hrun, hw⟩ := @stringLoop_end E W _ hend k (out ++ [LF])
    exact .faults he hAn rfl hrun (hs'.world.trans hw.symm)

theorem agree_stringLoop (nA : Nat) : ∀ (nB : Nat) (out : Bytes) (p : Place) (A B : Reading W),
    p.Literal → Sim exact p A B → A.unread.length < nA → B.unread.length < nB →
    Agree (E := E) exact .outside Anywhere (stringLoop nA out) (stringLoop nB out) A B := by
  induction nA with
  | zero => intro nB out p A B _ _ hA; exact absurd hA (Nat.not_lt_zero _)
  | succ nA ih =>
    intro nB out p A B hl hs hA hB
    cases nB with
    | zero => exact absurd hB (Nat.not_lt_zero _)
    | succ nB =>
      by_cases hp : B.data = [] → ∀ c, B.unread.head? = some c → isPlain c = false
      · obtain ⟨run, n, p', hl', hrunA, hrunB, hs', hp'⟩ := hs.plainRun (E := E) hl hp
        rw [stringLoop_succ, stringLoop_succ]
        refine .after hrunA hrunB (unread_skipped_length n A) (unread_skipped_length n B) ?_
        have hlA := unread_skipped_length n A
        have hlB := unread_skipped_length n B
        refine agree_afterRun hl' nA nB (out ++ run) (by omega) (fun out p A' B' hl h hA' hB' => ?_)
          hs' hp'
        exact ih nB out p A' B' hl h (by omega) (by omega)
      · -- the literal goes on with a plain byte on the next line, which the reader still has to give
        have hmiss : B.data = [] ∧ ∃ c, B.unread.head? = some c ∧ isPlain c = true := by
          simpa using hp
        obtain ⟨hd, c, hc, hplain⟩ := hmiss
        have hstart : p = .lineStart := hl.resolve_left fun h => hs.inside h hd
        have hA : ∃ t, A.data = c :: t := by
          rw [hs.data_string]
          rcases hs.unread with h | ⟨-, h⟩
          · rw [h] at hc
            exact List.head?_eq_some_iff.mp hc
          · rw [h] at hc
            cases hAu : A.unread with
            | nil =>
              rw [hAu] at hc
              cases hc
              exact absurd hplain (by decide)
            | cons x t =>
              rw [hAu] at hc
              cases hc
              exact ⟨t, rfl⟩
        obtain ⟨t, hdA⟩ := hA
        exact .inl (broken_stringLoop hs.string (hs.place.trans hstart) hdA hplain nA out)

theorem agree_string (hs : Sim exact .inside A B) :
    Agree (E := E) exact .outside Anywhere string string A B :=
  .fuel_bind (agree_stringLoop _ _ _ _ A B (.inl rfl) hs (Nat.lt_succ_self _) (Nat.lt_succ_self _))

end Strings

/-! ### Values -/

section Values
variable {exact : Bool} {A B : Reading W}

theorem agree_describe_fail {Q : Reading W → Reading W → Prop} (f : String → String)
    (hs : Sim exact .outside A B) :
    Agree (E := E) (α := α) exact .outside Q (describeCurrent >>= fun found => fail (f found))
      (describeCurrent >>= fun found => fail (f found)) A B := by
  have h : (describeCurrent >>= fun found => fail (f found) : Parse E W α) =
      peek >>= fun c => fail (f (describe c)) := by
    simp [describeCurrent]
  rw [h]
  refine .peek_bind hs fun c c' hn hs' hu => ?_
  cases hn with
  | none hAn hBn hd => exact .fail hs' fun _ => rfl
  | byte c hAc hBc => exact .fail hs' fun _ => rfl
  | last he hAn hBn hd => exact .fail hs' fun h => absurd h (not_placed he hAn)

theorem agree_expect {c : UInt8} (hc : c ≠ LF ∧ c ≠ quote) (what : String) (hs : Sim exact .outside A B) :
    Agree (E := E) exact .outside Anywhere (expect c what) (expect c what) A B := by
  refine .peek_bind hs fun d d' hn hs' hu => ?_
  cases hn with
  | none hAn hBn hd => exact .neither nofun nofun (agree_describe_fail _ hs')
  | byte d hAd hBd =>
    refine .ite (fun h => ?_) fun _ => agree_describe_fail _ hs'
    exact .advance hs' hAd hBd (Option.some.inj h ▸ hc)
  | last he hAn hBn hd =>
    exact .neither nofun (fun h => hc.1 (Option.some.inj h).symm) (agree_describe_fail _ hs')

theorem agree_invoke (H : Host V E W) (f : V) (args : List V) (hs : Sim exact .outside A B) :
    Agree exact .outside Anywhere (invoke H f args) (invoke H f args) A B := by
  right
  unfold invoke
  rw [hs.world]
  rcases H.invoke f args B.world with ⟨e | v, w⟩
  · exact ⟨rfl, rfl⟩
  · exact ⟨rfl, { hs with world := rfl }, Nat.le_refl _, Nat.le_refl _, trivial⟩

theorem agree_arrayItems {value : Parse E W V} [Forward value]
    (hv : ∀ A B : Reading W, Sim exact .outside A B → Agree exact .outside Anywhere value value A B) (nA : Nat) :
    ∀ (nB : Nat) (items : List V) (A B : Reading W), Sim exact .outside A B → A.unread.length < nA →
    B.unread.length < nB →
    Agree exact .outside Anywhere (arrayItems value nA items) (arrayItems value nB items) A B := by
  induction nA with
  | zero => intro nB items A B _ hA; exact absurd hA (Nat.not_lt_zero _)
  | succ nA ih =>
    intro nB items A B hs hA hB
    cases nB with
    | zero => exact absurd hB (Nat.not_lt_zero _)
    | succ nB =>
      unfold arrayItems
      have := @forward_arrayItems V E W value _ nA
      refine .bind (hv A B hs) fun v A₁ B₁ hs₁ hA₁ hB₁ _ => ?_
      refine .bind (agree_skipWhitespace hs₁) fun _ A₂ B₂ hs₂ hA₂ hB₂ hl => ?_
      refine .peek_bind hs₂ fun d d' hn hs' hu => ?_
      cases hn with
      | none hAn hBn hd =>
        exact .neither nofun nofun (.neither nofun nofun (.fail hs' fun _ => rfl))
      | byte d hAd hBd =>
        refine .ite (fun hd => ?_) fun _ => .ite (fun hd => ?_) fun _ => ?_
        · refine .advance_bind hs' hAd hBd (by cases hd; decide) fun hs'' hlA hlB => ?_
          rw [hu] at hlB
          exact ih nB _ _ _ hs'' (by omega) (by omega)
        · refine .advance_bind hs' hAd hBd (by cases hd; decide) fun hs'' _ _ => ?_
          exact .pure hs'' trivial _
        · exact .neither nofun nofun (.fail hs' fun _ => rfl)
      | last he hAn hBn hd =>
        rw [Level, hAn, ← hu, hBn] at hl
        cases hl

theorem agree_array (H : Host V E W) {value : Parse E W V} [Forward value]
    (hv : ∀ A B : Reading W, Sim exact .outside A B → Agree exact .outside Anywhere value value A B)
    (hs : Sim exact .outside A B) : Agree exact .outside Anywhere (array H value) (array H value) A B := by
  have := @forward_arrayItems V E W value _
  have hitems : ∀ A B : Reading W, Sim exact .outside A B → Agree exact .outside Anywhere
      (do let items ← arrayItems value (← fuel) []; return H.newVector items)
      (do let items ← arrayItems value (← fuel) []; return H.newVector items) A B := by
    intro A B hs
    refine .fuel_bind ?_
    refine .bind (agree_arrayItems hv _ _ _ A B hs (Nat.lt_succ_self _) (Nat.lt_succ_self _)) ?_
    exact fun items _ _ h _ _ _ => .pure h trivial _
  refine .bind (agree_skipWhitespace hs) fun _ A₁ B₁ hs₁ _ _ hl => ?_
  refine .peek_bind hs₁ fun d d' hn hs' hu => ?_
  cases hn with
  | none hAn hBn hd => exact .neither nofun nofun (hitems _ _ hs')
  | byte d hAd hBd =>
    refine .ite (fun hd => ?_) fun _ => hitems _ _ hs'
    refine .advance_bind hs' hAd hBd (by cases hd; decide) fun hs'' _ _ => ?_
    exact .pure hs'' trivial _
  | last he hAn hBn hd => exact .neither nofun (by decide) (hitems _ _ hs')

theorem agree_key (H : Host V E W) (opts : ReadOptions V) (hs : Sim exact .outside A B) :
    Agree exact .outside Anywhere (key H opts) (key H opts) A B := by
  have : ∀ text, Forward (match opts.keys with
      | .fn keyFn => invoke H keyFn [makeKey H opts text]
      | .strings | .keywords => pure (makeKey H opts text) : Parse E W V) := by
    intro text
    cases opts.keys <;> infer_instance
  refine .bind (agree_skipWhitespace hs) fun _ A₁ B₁ hs₁ _ _ hl => ?_
  refine .peek_bind hs₁ fun q q' hn hs' hu => ?_
  cases hn with
  | none hAn hBn hd => exact .neither nofun nofun (.fail hs' fun _ => rfl)
  | byte q hAq hBq =>
    refine .ite (fun hq => ?_) fun _ => .neither nofun nofun (.fail hs' fun _ => rfl)
    refine .read_bind hs' hAq hBq (by cases hq; decide) fun hs'' _ _ => ?_
    cases hq
    refine .bind (agree_string hs'') fun text A₂ B₂ h _ _ _ => ?_
    cases opts.keys with
    | strings => exact .pure h trivial _
    | keywords => exact .pure h trivial _
    | fn keyFn => exact agree_invoke H keyFn _ h
  | last he hAn hBn hd =>
    rw [Level, hAn, ← hu, hBn] at hl
    cases hl

theorem agree_applyValueFn (H : Host V E W) (opts : ReadOptions V) (k v : V)
    (hs : Sim exact .outside A B) :
    Agree exact .outside Anywhere (applyValueFn H opts k v) (applyValueFn H opts k v) A B := by
  unfold applyValueFn
  cases opts.valueFn with
  | none => exact .pure hs trivial _
  | some valueFn =>
    exact .bind (agree_invoke H valueFn _ hs) fun r _ _ h _ _ _ => .pure h trivial _

theorem agree_objectEntry (H : Host V E W) (opts : ReadOptions V) {value : Parse E W V}
    [Forward value] (hv : ∀ A B : Reading W, Sim exact .outside A B → Agree exact .outside Anywhere value value A B)
    (hs : Sim exact .outside A B) :
    Agree exact .outside Anywhere (objectEntry H opts value) (objectEntry H opts value) A B := by
  refine .bind (agree_key H opts hs) fun k _ _ hs₁ _ _ _ => ?_
  refine .bind (agree_skipWhitespace hs₁) fun _ _ _ hs₂ _ _ _ => ?_
  refine .bind (agree_expect (by decide) _ hs₂) fun _ _ _ hs₃ _ _ _ => ?_
  exact .bind (hv _ _ hs₃) fun v _ _ hs₄ _ _ _ => agree_applyValueFn H opts k v hs₄

theorem agree_objectItems (H : Host V E W) (opts : ReadOptions V) {value : Parse E W V}
    [Forward value] (hv : ∀ A B : Reading W, Sim exact .outside A B → Agree exact .outside Anywhere value value A B)
    (nA : Nat) : ∀ (nB : Nat) (batch : Batch V) (A B : Reading W), Sim exact .outside A B →
    A.unread.length < nA → B.unread.length < nB →
    Agree exact .outside Anywhere (objectItems H opts value nA batch) (objectItems H opts value nB batch)
      A B := by
  induction nA with
  | zero => intro nB batch A B _ hA; exact absurd hA (Nat.not_lt_zero _)
  | succ nA ih =>
    intro nB batch A B hs hA hB
    cases nB with
    | zero => exact absurd hB (Nat.not_lt_zero _)
    | succ nB =>
      unfold objectItems
      have := @forward_objectItems V E W H opts value _ nA
      refine .bind (agree_objectEntry H opts hv hs) fun entry A₁ B₁ hs₁ hA₁ hB₁ _ => ?_
      refine .bind (agree_skipWhitespace hs₁) fun _ A₂ B₂ hs₂ hA₂ hB₂ hl => ?_
      refine .peek_bind hs₂ fun d d' hn hs' hu => ?_
      cases hn with
      | none hAn hBn hd =>
        exact .neither nofun nofun (.neither nofun nofun (.fail hs' fun _ => rfl))
      | byte d hAd hBd =>
        refine .ite (fun hd => ?_) fun _ => .ite (fun hd => ?_) fun _ => ?_
        · refine .advance_bind hs' hAd hBd (by cases hd; decide) fun hs'' hlA hlB => ?_
          rw [hu] at hlB
          exact ih nB _ _ _ hs'' (by omega) (by omega)
        · refine .advance_bind hs' hAd hBd (by cases hd; decide) fun hs'' _ _ => ?_
          exact .pure hs'' trivial _
        · exact .neither nofun nofun (.fail hs' fun _ => rfl)
      | last he hAn hBn hd =>
        rw [Level, hAn, ← hu, hBn] at hl
        cases hl

theorem agree_object (H : Host V E W) (opts : ReadOptions V) {value : Parse E W V}
    [Forward value] (hv : ∀ A B : Reading W, Sim exact .outside A B → Agree exact .outside Anywhere value value A B)
    (hs : Sim exact .outside A B) :
    Agree exact .outside Anywhere (object H opts value) (object H opts value) A B := by
  have := @forward_objectItems V E W H opts value _
  have hitems : ∀ (A B : Reading W) (batch : Batch V), Sim exact .outside A B → Agree exact .outside Anywhere
      (do let batch ← objectItems H opts value (← fuel) batch; return (batch.fold H).folded)
      (do let batch ← objectItems H opts value (← fuel) batch; return (batch.fold H).folded)
      A B := by
    intro A B batch hs
    refine .fuel_bind ?_
    refine .bind (agree_objectItems H opts hv _ _ batch A B hs (Nat.lt_succ_self _)
      (Nat.lt_succ_self _)) ?_
    exact fun items _ _ h _ _ _ => .pure h trivial _
  refine .bind (agree_skipWhitespace hs) fun _ A₁ B₁ hs₁ _ _ hl => ?_
  refine .peek_bind hs₁ fun d d' hn hs' hu => ?_
  cases hn with
  | none hAn hBn hd => exact .neither nofun nofun (hitems _ _ _ hs')
  | byte d hAd hBd =>
    refine .ite (fun hd => ?_) fun _ => hitems _ _ _ hs'
    refine .advance_bind hs' hAd hBd (by cases hd; decide) fun hs'' _ _ => ?_
    exact .pure hs'' trivial _
  | last he hAn hBn hd => exact .neither nofun (by decide) (hitems _ _ _ hs')

theorem agree_noValue {Q : Reading W → Reading W → Prop} (hs : Sim exact .outside A B) :
    Agree (E := E) (α := α) exact .outside Q noValue noValue A B := by
  refine .peek_bind hs fun c c' hn hs' hu => ?_
  cases hn with
  | none hAn hBn hd => exact .fail hs' fun _ => rfl
  | byte c hAc hBc =>
    refine .ite (fun _ => ?_) fun _ => .fail hs' fun _ => rfl
    exact .bind (agree_copyWhile (by decide) hs') fun token _ _ h _ _ _ => agree_unrecognized h _
  | last he hAn hBn hd => exact .fail hs' fun h => absurd h (not_placed he hAn)

set_option synthInstance.maxSize 2000 in
theorem agree_value (H : Host V E W) (opts : ReadOptions V) (stack : Nat) (A B : Reading W)
    (hs : Sim exact .outside A B) :
    Agree exact .outside Anywhere (value H opts stack) (value H opts stack) A B := by
  induction stack generalizing A B with
  | zero => exact .inr ⟨trivial, hs.world⟩
  | succ stack ih =>
    unfold value
    refine .bind (agree_skipWhitespace hs) fun _ A₁ B₁ hs₁ _ _ hl => ?_
    refine .peek_bind hs₁ fun c c' hn hs' hu => ?_
    have hword : ∀ (w : Bytes) (v : V), (w.all fun c => c != LF && c != quote) = true →
        Agree (E := E) exact .outside Anywhere (word w >>= fun _ => pure v) (word w >>= fun _ => pure v)
          A₁ (peeked B₁) :=
      fun w v hw => .bind (agree_word w (by simpa using hw) hs') fun _ _ _ h _ _ _ => .pure h trivial v
    cases hn with
    | none hAn hBn hd =>
      simp only [reduceCtorEq, Option.any_none, Bool.false_eq_true, or_self, if_false]
      exact agree_noValue hs'
    | byte c hAc hBc =>
      refine .ite (fun hc => ?_) fun _ => .ite (fun hc => ?_) fun _ => .ite (fun hc => ?_) fun _ => ?_
      · refine .advance_bind hs' hAc hBc (by cases hc; decide) fun hs'' _ _ => ?_
        exact agree_object H opts (fun _ _ => ih _ _) hs''
      · refine .advance_bind hs' hAc hBc (by cases hc; decide) fun hs'' _ _ => ?_
        exact agree_array H (fun _ _ => ih _ _) hs''
      · refine .read_bind hs' hAc hBc (by cases hc; decide) fun hs'' _ _ => ?_
        cases hc
        exact .bind (agree_string hs'') fun text _ _ h _ _ _ => .pure h trivial _
      · refine .ite (fun _ => hword _ _ rfl) fun _ => ?_
        refine .ite (fun _ => hword _ _ rfl) fun _ => ?_
        refine .ite (fun _ => hword _ _ rfl) fun _ => ?_
        exact .ite (fun _ => agree_number H hs') fun _ => agree_noValue hs'
    | last he hAn hBn hd =>
      rw [Level, hAn, ← hu, hBn] at hl
      cases hl

theorem agree_firstValue (H : Host V E W) (req : Request V) (stack : Nat) (hs : Sim exact .outside A B) :
    Agree exact .outside Anywhere (firstValue H req stack) (firstValue H req stack) A B := by
  unfold firstValue
  cases req.trailing with
  | ignore =>
    refine .bind (agree_more hs) fun found A₁ B₁ hs₁ _ _ _ => ?_
    refine .ite (fun _ => ?_) fun _ => .ite (fun _ => .pure hs₁ trivial _) fun _ => ?_
    · refine .bind (agree_value H req.opts stack A₁ B₁ hs₁) fun v A₂ B₂ hs₂ _ _ _ => ?_
      exact .pure hs₂ trivial v
    · exact .fail hs₁ fun _ => rfl
  | reject =>
    refine .bind (agree_more hs) fun found A₁ B₁ hs₁ _ _ _ => ?_
    refine .ite (fun _ => ?_) fun _ => .ite (fun _ => .pure hs₁ trivial _) fun _ => ?_
    · refine .bind (agree_value H req.opts stack A₁ B₁ hs₁) fun v A₂ B₂ hs₂ _ _ _ => ?_
      refine .bind (agree_more hs₂) fun again A₃ B₃ hs₃ _ _ _ => ?_
      exact .ite (fun _ => agree_describe_fail _ hs₃) fun _ => .pure hs₃ trivial v
    · exact .fail hs₁ fun _ => rfl

end Values

/-! ### A document -/

def Raised.Same (placed : Prop) : Raised E → Raised E → Prop
  | .classed k m, .classed k' m' => k = k' ∧ (placed → m = m')
  | .stackOverflow, .stackOverflow => True
  | .thrown e, .thrown e' => e = e'
  | _, _ => False

/-- The same value, or the same refusal, with the same words and place where they are `placed`. -/
def Answer.Same (placed : Prop) (a b : Answer V E W) : Prop :=
  a.world = b.world ∧ match a.result, b.result with
    | .ok v, .ok v' => v = v'
    | .error e, .error e' => e.Same placed e'
    | _, _ => False

/-- A reader tells the text it reads from one with a line end more only by that line end. -/
def EndsLine (s : Bytes) : Prop := s = [] ∨ s.getLast? = some LF

instance (s : Bytes) : Decidable (EndsLine s) := inferInstanceAs (Decidable (_ ∨ _))

theorem sim_start (s : Bytes) (w : W) : Sim (decide (EndsLine s)) .outside
    { Source.ofString s with world := w } { Source.ofReader (linesOf s) with world := w } where
  world := rfl
  string := rfl
  unread := by
    have hA : ({ Source.ofString s with world := w } : Reading W).unread = s := by
      simp [Source.unread, Source.ofString, Source.data]
    have hB : ({ Source.ofReader (linesOf s) with world := w } : Reading W).unread =
        (linesOf s).flatMap (· ++ [LF]) := rfl
    rw [hA, hB, lines_text]
    by_cases h : EndsLine s
    · exact .inl (if_pos h)
    · exact .inr ⟨decide_eq_false h, if_neg h⟩
  lineEnd := .inl rfl
  reader := ⟨_, rfl⟩
  startA := Nat.le_refl _
  startB := Nat.le_refl _
  line := fun _ => rfl
  column := fun _ => rfl
  refilled := fun _ _ => rfl
  place := rfl
  inside := nofun

theorem raise_same {placed placed' : Prop} (flavor : Flavor) {e e' : Fault E} (h : e.Same placed e')
    (hp : placed' → placed) : (raise flavor e).Same placed' (raise flavor e') := by
  cases e <;> cases e'
  case jsonSyntaxError.jsonSyntaxError => exact ⟨rfl, fun h' => h (hp h')⟩
  case stackOverflow.stackOverflow => trivial
  case thrown.thrown => exact h
  all_goals exact h.elim

instance (H : Host V E W) (req : Request V) (stack : Nat) : Forward (firstValue H req stack) := by
  unfold firstValue
  cases req.trailing <;> infer_instance

theorem readJson_source (H : Host V E W) (req : Request V) (stack : Nat) (S : Source) (w : W) :
    (readJson H req stack S w).source =
      (stateOf (firstValue H req stack { S with world := w })).toSource := by
  unfold readJson
  cases firstValue H req stack { S with world := w } <;> rfl

/-- What is read of a text is the start of it. -/
theorem taken_isPrefix (H : Host V E W) (req : Request V) (stack : Nat) (s : Bytes) (w : W) :
    (readJson H req stack (.ofString s) w).source.taken <+: s := by
  have h := Forward.moves (f := firstValue H req stack) { Source.ofString s with world := w } rfl
  rw [readJson_source, Source.taken, h.2.1]
  exact List.take_prefix _ _

/-- A document read from its lines is read as from one string, unless a string literal of it, as
far as it is read, has an unescaped line end that is directly followed by a byte other than a
quote, a backslash and a line end. A refusal has the same words and place, but for one at the very
end of a text that ends without a line end. -/
theorem readJson_lines (H : Host V E W) (req : Request V) (stack : Nat) (s : Bytes) (w : W)
    (h : Unbroken s ∨ Unbroken (readJson H req stack (.ofString s) w).source.taken) :
    (readJson H req stack (.ofString s) w).Same
      (EndsLine s ∨ (readJson H req stack (.ofString s) w).source.unread ≠ [])
      (readJson H req stack (.ofReader (linesOf s)) w) := by
  have htaken : Unbroken (readJson H req stack (.ofString s) w).source.taken :=
    h.elim (fun h => h.of_prefix (taken_isPrefix H req stack s w)) id
  rw [readJson_source] at htaken ⊢
  rcases agree_firstValue H req stack (sim_start s w) with hb | hagree
  · exact absurd htaken hb.2
  · unfold readJson
    revert hagree
    cases firstValue H req stack { Source.ofString s with world := w } <;>
      cases firstValue H req stack { Source.ofReader (linesOf s) with world := w } <;>
      intro hagree
    · exact ⟨hagree.2.1.world, hagree.1⟩
    · exact hagree.elim
    · exact hagree.elim
    · exact ⟨hagree.2, raise_same req.flavor hagree.1 (Or.imp_left decide_eq_true)⟩

/-- Values as the text they are read from. -/
def spellings : Host Bytes Empty Unit where
  nil := [0x6E, 0x75, 0x6C, 0x6C]
  true_ := [0x74, 0x72, 0x75, 0x65]
  false_ := [0x66, 0x61, 0x6C, 0x73, 0x65]
  makeUtf8String := id
  strtod := id
  fromLong n := (toString n).toUTF8.toList
  fromString := id
  internNamed := id
  newVector := List.flatten
  mapAssocPairs m kv := kv.foldl (fun text e => text ++ e.1 ++ e.2) (m.getD [])
  invoke f _ w := (.ok f, w)
  same f g := f = g

/-- As `parse-string` and `parse-stream` read. -/
def parseRequest : Request Bytes where
  opts := {}
  flavor := .cheshire
  trailing := .ignore
  eofOk := true
  eofValue := spellings.nil

/-- A vector of two strings over three lines; the second line starts with an escape. -/
theorem readJson_lines_escape :
    let s : Bytes := [0x5B, quote, 0x61, LF, backslash, 0x6E, quote, 0x2C, LF, quote, quote, 0x5D]
    (readJson spellings parseRequest 2 (.ofString s) ()).Same
      (EndsLine s ∨ (readJson spellings parseRequest 2 (.ofString s) ()).source.unread ≠ [])
      (readJson spellings parseRequest 2 (.ofReader (linesOf s)) ()) :=
  readJson_lines spellings parseRequest 2 _ () (.inl (by decide +kernel))

/-- The second line of the string starts with a plain byte; not even the values are the same. -/
theorem readJson_lines_plain :
    let s : Bytes := [quote, 0x61, LF, 0x62, 0x63, quote, LF]
    ¬(readJson spellings parseRequest 1 (.ofString s) ()).Same False
      (readJson spellings parseRequest 1 (.ofReader (linesOf s)) ()) := by
  intro s
  have hs : (readJson spellings parseRequest 1 (.ofString s) ()).result.toOption =
      some [0x61, LF, 0x62, 0x63] := by decide +kernel
  have hl : (readJson spellings parseRequest 1 (.ofReader (linesOf s)) ()).result.toOption =
      none := by decide +kernel
  generalize readJson spellings parseRequest 1 (.ofString s) () = a at hs
  generalize readJson spellings parseRequest 1 (.ofReader (linesOf s)) () = b at hl
  rintro ⟨-, hsame⟩
  obtain ⟨result, w, m⟩ := a
  obtain ⟨result', w', m'⟩ := b
  cases result with
  | error e => cases hs
  | ok v => cases result' with
    | error e => exact hsame
    | ok v' => cases hl

end ProtoClojure.Json
