import ProtoClojure.Text.Utf8
import ProtoClojure.Runtime.Sorting

/-! The successive matches of a pattern, and what the primitives make of them. -/

namespace ProtoClojure.Regex
open Text
open Maps (Exec Raised Result raise)

abbrev Bytes := List UInt8

/-- Byte offsets of the whole match and of its capturing groups. -/
structure Match where
  whole : Nat × Nat
  captured : List (Option (Nat × Nat))
deriving DecidableEq

namespace Match

def start (m : Match) : Nat := m.whole.1

def stop (m : Match) : Nat := m.whole.2

def length (m : Match) : Nat := m.stop - m.start

/-- Group 0 is the whole match; none for a group that took no part. -/
def group (m : Match) : Nat → Option (Nat × Nat)
  | 0 => some m.whole
  | g + 1 => (m.captured[g]?).join

end Match

def substr (s : Bytes) (start stop : Nat) : Bytes := (s.drop start).take (stop - start)

def Match.str (m : Match) (s : Bytes) (g : Nat) : Bytes :=
  match m.group g with
  | none => []
  | some (start, stop) => substr s start stop

/-- A compiled pattern: what the engine's search answers, a match at or after the start. It matches whole
characters; a pattern with `\C`, which matches one byte of a character, is left out. -/
structure Pattern where
  groups : Nat
  search : Bytes → Nat → Option Match
  range : ∀ s start m, search s start = some m →
    start ≤ m.start ∧ m.start ≤ m.stop ∧ m.stop ≤ s.length
  boundary : ∀ s start m, WellFormed s → IsBoundary s start → search s start = some m →
    IsBoundary s m.start ∧ IsBoundary s m.stop

/-- One byte for what is no sequence. -/
def nextCharacter (s : Bytes) (pos : Nat) : Nat :=
  match s.drop pos with
  | [] => pos + 1
  | lead :: rest =>
    let len := utf8Length lead
    if pos + len > s.length then pos + 1
    else if (rest.take (len - 1)).all isContinuation then pos + len
    else pos + 1

/-- Where the search goes on after a match. -/
def nextStart (s : Bytes) (m : Match) : Nat :=
  if m.length = 0 then nextCharacter s m.stop else m.stop

theorem lt_nextCharacter (s : Bytes) (pos : Nat) : pos < nextCharacter s pos := by
  unfold nextCharacter
  split
  · exact Nat.lt_succ_self pos
  · rename_i lead _ _
    have hlen : 0 < utf8Length lead := by
      unfold utf8Length
      split_ifs <;> decide
    dsimp only
    split_ifs <;> omega

section Loops
variable (p : Pattern) (s : Bytes)

def regexSearch (start : Nat) : Option Match :=
  if start > s.length then none else p.search s start

variable {p s}

theorem regexSearch_range {start : Nat} {m : Match} (h : regexSearch p s start = some m) :
    start ≤ m.start ∧ m.start ≤ m.stop ∧ m.stop ≤ s.length := by
  unfold regexSearch at h
  split at h
  · cases h
  · exact p.range s start m h

theorem start_lt_nextStart {start : Nat} {m : Match} (h : regexSearch p s start = some m) :
    m.start < nextStart s m ∧ m.stop ≤ nextStart s m := by
  obtain ⟨hstart, hstop, hsize⟩ := regexSearch_range h
  unfold nextStart
  split
  · have := lt_nextCharacter s m.stop
    omega
  · rename_i hlen
    unfold Match.length at hlen
    omega

variable (p s)

/-- `f` answers whether to go on. -/
def forEachMatch {M : Type → Type} [Monad M] {α : Type} (f : α → Match → M (Bool × α))
    (start : Nat) (acc : α) : M α :=
  if start ≤ s.length then
    match _h : regexSearch p s start with
    | none => pure acc
    | some m => do
      let (more, acc) ← f acc m
      if more then forEachMatch f (nextStart s m) acc else pure acc
  else pure acc
termination_by s.length + 1 - start
decreasing_by
  have h₁ := regexSearch_range (by assumption)
  have h₂ := start_lt_nextStart (by assumption)
  omega

/-- What a match is answered as: its text, or the texts of the groups too. -/
inductive MatchValue where
  | text (whole : Bytes)
  | vector (parts : List (Option Bytes))
deriving DecidableEq

def matchValue (m : Match) : MatchValue :=
  if p.groups = 0 then .text (m.str s 0)
  else .vector ((List.range (p.groups + 1)).map fun g => (m.group g).map fun _ => m.str s g)

/-! ### A matcher -/

structure Matcher where
  pos : Nat
  groups : Option MatchValue

def reMatcher : Matcher := ⟨0, none⟩

/-- `(re-find m)` -/
def matcherFind (m : Matcher) : Option MatchValue × Matcher :=
  if m.pos > s.length then (none, m)
  else
    match regexSearch p s m.pos with
    | none => (none, { m with pos := s.length + 1 })
    | some found =>
      let v := matchValue p s found
      (some v, ⟨nextStart s found, some v⟩)

/-- The answer of the find after `n` others. -/
def nthFind : Nat → Matcher → Option MatchValue
  | 0, m => (matcherFind p s m).1
  | n + 1, m => nthFind n (matcherFind p s m).2

/-! ### The lazy seq -/

/-- The first of the seq and where the step for its rest stands. -/
def reSeqFrom (pos : Nat) : Option (MatchValue × Nat) :=
  if pos > s.length then none
  else
    match regexSearch p s pos with
    | none => none
    | some m => some (matchValue p s m, nextStart s m)

/-- The seq from a position on, read to its end. -/
inductive Realises : Nat → List MatchValue → Prop
  | nil {pos : Nat} : reSeqFrom p s pos = none → Realises pos []
  | cons {pos next : Nat} {v : MatchValue} {vs : List MatchValue} :
      reSeqFrom p s pos = some (v, next) → Realises next vs → Realises pos (v :: vs)

end Loops

/-! ### Replacing -/

def digit? (b : UInt8) : Option Nat :=
  if 0x30 ≤ b ∧ b ≤ 0x39 then some (b.toNat - 0x30) else none

/-- The longest number that names a group. -/
def readGroup (groups g : Nat) : Bytes → Nat × Bytes
  | [] => (g, [])
  | b :: r =>
    match digit? b with
    | none => (g, b :: r)
    | some d => if g * 10 + d > groups then (g, b :: r) else readGroup groups (g * 10 + d) r

theorem readGroup_length (groups g : Nat) (r : Bytes) :
    (readGroup groups g r).2.length ≤ r.length := by
  induction r generalizing g with
  | nil => exact Nat.le_refl _
  | cons b r ih =>
    unfold readGroup
    split
    · exact Nat.le_refl _
    · split
      · exact Nat.le_refl _
      · exact (ih _).trans (Nat.le_succ _)

/-- What a replacement string stands for: `$n` is group `n`, `\x` is `x`. -/
def expand (groups : Nat) (s : Bytes) (m : Match) (whole : String) : Bytes → Result Bytes
  | [] => .ok []
  | c :: r =>
    match c == 0x5C, r with
    | true, x :: r => (x :: ·) <$> expand groups s m whole r
    | _, r =>
      if c ≠ 0x24 then (c :: ·) <$> expand groups s m whole r
      else
        match r with
        | [] => .error (.classed "IllegalArgumentException"
            ("Illegal group reference in replacement: " ++ whole))
        | b :: r =>
          match digit? b with
          | none => .error (.classed "IllegalArgumentException"
              ("Illegal group reference in replacement: " ++ whole))
          | some d =>
            let read := readGroup groups d r
            if read.1 > groups then
              .error (.classed "IndexOutOfBoundsException" ("No group " ++ toString read.1))
            else (m.str s read.1 ++ ·) <$> expand groups s m whole read.2
termination_by r => r.length
decreasing_by
  all_goals
    simp only [List.length_cons]
    try have := readGroup_length groups d r
    omega

/-- A string, or a function of the match whose answer is rendered by `str`. -/
inductive Replacement (σ : Type) where
  | string (r : String)
  | function (f : MatchValue → Exec σ Bytes)

section Replacing
variable {σ : Type} (p : Pattern) (s : Bytes)

def appendReplacement (repl : Replacement σ) (m : Match) : Exec σ Bytes :=
  match repl with
  | .function f => f (matchValue p s m)
  | .string r => raise (expand p.groups s m r r.toUTF8.data.toList)

/-- All matches, or the first only. -/
def replaceWithPattern (repl : Replacement σ) (firstOnly : Bool) : Exec σ Bytes := do
  let (out, last) ← forEachMatch p s (fun (acc : Bytes × Nat) m => do
    let text ← appendReplacement p s repl m
    pure (!firstOnly, acc.1 ++ substr s acc.2 m.start ++ text, m.stop)) 0 ([], 0)
  pure (out ++ s.drop last)

end Replacing

/-! ### The successive matches -/

section Enumeration
variable (p : Pattern) (s : Bytes)

/-- Each match after the one before, as repeated finds walk them. -/
def matchesFrom (start : Nat) : List Match :=
  if start ≤ s.length then
    match _h : regexSearch p s start with
    | none => []
    | some m => m :: matchesFrom (nextStart s m)
  else []
termination_by s.length + 1 - start
decreasing_by
  have h₁ := regexSearch_range (by assumption)
  have h₂ := start_lt_nextStart (by assumption)
  omega

def allMatches : List Match := matchesFrom p s 0

/-- A step for each match, until one says to stop. -/
def foldMatches {M : Type → Type} [Monad M] {α : Type} (f : α → Match → M (Bool × α)) :
    List Match → α → M α
  | [], acc => pure acc
  | m :: ms, acc => do
    let (more, acc) ← f acc m
    if more then foldMatches f ms acc else pure acc

variable {p s}

theorem matchesFrom_none {start : Nat} (h : start ≤ s.length → regexSearch p s start = none) :
    matchesFrom p s start = [] := by
  rw [matchesFrom]
  split
  · rename_i hle
    split
    · rfl
    · rename_i hm
      rw [h hle] at hm
      cases hm
  · rfl

theorem matchesFrom_some {start : Nat} {m : Match} (h : regexSearch p s start = some m) :
    matchesFrom p s start = m :: matchesFrom p s (nextStart s m) := by
  have hle : start ≤ s.length := by
    have := regexSearch_range h
    omega
  rw [matchesFrom, if_pos hle]
  split
  · rename_i hm
    rw [h] at hm
    cases hm
  · rename_i m' hm
    rw [h] at hm
    cases hm
    rfl

/-- Every enumeration below goes by what one search answers. -/
theorem matchesFrom_induct {motive : Nat → Prop}
    (hnone : ∀ start, matchesFrom p s start = [] →
      (start ≤ s.length → regexSearch p s start = none) → motive start)
    (hsome : ∀ start m, regexSearch p s start = some m → motive (nextStart s m) → motive start)
    (start : Nat) : motive start := by
  induction start using matchesFrom.induct p s with
  | case1 start hle hm =>
    have hn : start ≤ s.length → regexSearch p s start = none := fun _ => hm
    exact hnone start (matchesFrom_none hn) hn
  | case2 start hle m hm ih => exact hsome start m hm ih
  | case3 start hle =>
    have hn : start ≤ s.length → regexSearch p s start = none := fun h => absurd h hle
    exact hnone start (matchesFrom_none hn) hn

theorem forEachMatch_eq {M : Type → Type} [Monad M] {α : Type} (f : α → Match → M (Bool × α))
    (start : Nat) (acc : α) :
    forEachMatch p s f start acc = foldMatches f (matchesFrom p s start) acc := by
  induction start using matchesFrom_induct (p := p) (s := s) generalizing acc with
  | hnone start hnil hn =>
    rw [hnil, forEachMatch]
    split
    · rename_i hle
      split
      · rfl
      · rename_i hm
        rw [hn hle] at hm
        cases hm
    · rfl
  | hsome start m hm ih =>
    have hle : start ≤ s.length := by
      have := regexSearch_range hm
      omega
    rw [matchesFrom_some hm, forEachMatch, if_pos hle, foldMatches]
    split
    · rename_i hm'
      rw [hm] at hm'
      cases hm'
    · rename_i m' hm'
      rw [hm] at hm'
      cases hm'
      congr 1
      funext r
      obtain ⟨more, acc⟩ := r
      dsimp only
      rw [ih]

/-! ### The three agree -/

theorem reSeqFrom_none {start : Nat} (h : start ≤ s.length → regexSearch p s start = none) :
    reSeqFrom p s start = none := by
  unfold reSeqFrom
  split
  · rfl
  · rw [h (by omega)]

theorem reSeqFrom_some {start : Nat} {m : Match} (h : regexSearch p s start = some m) :
    reSeqFrom p s start = some (matchValue p s m, nextStart s m) := by
  have := regexSearch_range h
  unfold reSeqFrom
  rw [if_neg (by omega), h]

theorem realises_matches (start : Nat) :
    Realises p s start ((matchesFrom p s start).map (matchValue p s)) := by
  induction start using matchesFrom_induct (p := p) (s := s) with
  | hnone start hnil hn =>
    rw [hnil]
    exact .nil (reSeqFrom_none hn)
  | hsome start m hm ih =>
    rw [matchesFrom_some hm]
    exact .cons (reSeqFrom_some hm) ih

/-- After the last match every find answers nil. -/
theorem nthFind_matches (n start : Nat) (groups : Option MatchValue) :
    nthFind p s n ⟨start, groups⟩ = ((matchesFrom p s start)[n]?).map (matchValue p s) := by
  induction n generalizing start groups with
  | zero =>
    induction start using matchesFrom_induct (p := p) (s := s) with
    | hnone start hnil hn =>
      rw [hnil, nthFind, matcherFind]
      split
      · rfl
      · rename_i hle
        rw [hn (Nat.not_lt.mp hle)]
        rfl
    | hsome start m hm _ =>
      have := regexSearch_range hm
      rw [matchesFrom_some hm, nthFind, matcherFind, if_neg (by simp; omega), hm]
      rfl
  | succ n ih =>
    rw [nthFind]
    induction start using matchesFrom_induct (p := p) (s := s) with
    | hnone start hnil hn =>
      have hend : matchesFrom p s (s.length + 1) = [] :=
        matchesFrom_none fun h => absurd h (by omega)
      rw [hnil, matcherFind]
      split
      · rw [ih, hnil]
        rfl
      · rename_i hle
        rw [hn (Nat.not_lt.mp hle)]
        dsimp only
        rw [ih, hend]
        rfl
    | hsome start m hm _ =>
      have := regexSearch_range hm
      rw [matchesFrom_some hm, matcherFind, if_neg (by simp; omega), hm]
      exact ih (nextStart s m) _

/-! ### Where the matches lie -/

theorem nextCharacter_boundary {pos : Nat} (h : IsBoundary s pos) (hle : nextCharacter s pos ≤ s.length) :
    IsBoundary s (nextCharacter s pos) := by
  obtain ⟨before, after, rfl, rfl⟩ := h
  cases after with
  | nil =>
    have := lt_nextCharacter (encode before ++ encode []) (encode before).length
    simp only [encode_nil, List.append_nil] at this hle
    omega
  | cons c after =>
    obtain ⟨lead, more, hc, hlen, hmore⟩ := utf8EncodeChar_shape c
    have hnext : nextCharacter (encode before ++ encode (c :: after)) (encode before).length =
        (encode before).length + (String.utf8EncodeChar c).length := by
      unfold nextCharacter
      rw [List.drop_left, encode_cons, hc]
      dsimp only [List.cons_append]
      rw [hlen, if_neg (by simp; omega), if_pos ?_, List.length_cons, Nat.add_comm 1]
      rw [Nat.add_sub_cancel_left, List.take_left]
      exact hmore
    rw [hnext]
    exact IsBoundary.next c

theorem nextStart_boundary (hs : WellFormed s) {start : Nat} {m : Match}
    (hm : regexSearch p s start = some m) (hstart : IsBoundary s start)
    (hle : nextStart s m ≤ s.length) : IsBoundary s (nextStart s m) := by
  have hstop : IsBoundary s m.stop := by
    unfold regexSearch at hm
    split at hm
    · cases hm
    · exact (p.boundary s start m hs hstart hm).2
  unfold nextStart at hle ⊢
  split at hle
  · rw [if_pos (by assumption)]
    exact nextCharacter_boundary hstop hle
  · rw [if_neg (by assumption)]
    exact hstop

/-- Between characters, each after the one before. -/
structure InOrder (s : Bytes) (ms : List Match) : Prop where
  increasing : ms.Pairwise fun m m' => m.start < m'.start ∧ m.stop ≤ m'.start
  inside : ∀ m ∈ ms, m.start ≤ m.stop ∧ IsBoundary s m.start ∧ IsBoundary s m.stop

theorem matchesFrom_range (start : Nat) : ∀ m ∈ matchesFrom p s start,
    start ≤ m.start ∧ m.start ≤ m.stop ∧ m.stop ≤ s.length := by
  induction start using matchesFrom_induct (p := p) (s := s) with
  | hnone start hnil _ =>
    rw [hnil]
    exact nofun
  | hsome start m hm ih =>
    have h₁ := regexSearch_range hm
    have h₂ := start_lt_nextStart hm
    rw [matchesFrom_some hm]
    refine List.forall_mem_cons.mpr ⟨h₁, fun m' hm' => ?_⟩
    have := ih m' hm'
    omega

theorem matchesFrom_increasing (start : Nat) : (matchesFrom p s start).Pairwise fun m m' =>
    m.start < m'.start ∧ m.stop ≤ m'.start := by
  induction start using matchesFrom_induct (p := p) (s := s) with
  | hnone start hnil _ =>
    rw [hnil]
    exact .nil
  | hsome start m hm ih =>
    have h₂ := start_lt_nextStart hm
    rw [matchesFrom_some hm]
    refine List.pairwise_cons.mpr ⟨fun m' hm' => ?_, ih⟩
    have := matchesFrom_range (nextStart s m) m' hm'
    omega

theorem matchesFrom_boundary (hs : WellFormed s) (start : Nat) :
    (start ≤ s.length → IsBoundary s start) →
    ∀ m ∈ matchesFrom p s start, IsBoundary s m.start ∧ IsBoundary s m.stop := by
  induction start using matchesFrom_induct (p := p) (s := s) with
  | hnone start hnil _ =>
    intro _
    rw [hnil]
    exact nofun
  | hsome start m hm ih =>
    intro hstart
    have hb : IsBoundary s start := hstart (by have := regexSearch_range hm; omega)
    rw [matchesFrom_some hm]
    refine List.forall_mem_cons.mpr ⟨?_, ih (nextStart_boundary hs hm hb)⟩
    unfold regexSearch at hm
    split at hm
    · cases hm
    · exact p.boundary s start m hs hb hm

theorem allMatches_inOrder (hs : WellFormed s) : InOrder s (allMatches p s) where
  increasing := matchesFrom_increasing 0
  inside m hm := ⟨(matchesFrom_range 0 m hm).2.1,
    matchesFrom_boundary hs 0 (fun _ => isBoundary_zero hs) m hm⟩

/-! ### The text between -/

/-- The text from a position on, with other texts for the matches in it. -/
def weave (s : Bytes) : Nat → List (Match × Bytes) → Bytes
  | last, [] => s.drop last
  | last, (m, text) :: ms => substr s last m.start ++ text ++ weave s m.stop ms

theorem substr_append_drop {i j : Nat} (h : i ≤ j) : substr s i j ++ s.drop j = s.drop i := by
  have hj : s.drop j = (s.drop i).drop (j - i) := by
    rw [List.drop_drop, Nat.add_sub_cancel' h]
  rw [substr, hj, List.take_append_drop]

/-- The matches' own texts put the subject together again. -/
theorem weave_self (start last : Nat) : last ≤ start →
    weave s last ((matchesFrom p s start).map fun m => (m, m.str s 0)) = s.drop last := by
  induction start using matchesFrom_induct (p := p) (s := s) generalizing last with
  | hnone start hnil _ =>
    intro _
    rw [hnil]
    rfl
  | hsome start m hm ih =>
    intro hle
    have h₁ := regexSearch_range hm
    have h₂ := start_lt_nextStart hm
    rw [matchesFrom_some hm, List.map_cons, weave, ih m.stop h₂.2, List.append_assoc]
    have hstr : m.str s 0 = substr s m.start m.stop := rfl
    rw [hstr, substr_append_drop h₁.2.1, substr_append_drop (by omega)]

theorem foldMatches_append {σ : Type} (repl : Replacement σ) (ms : List Match) (out : Bytes)
    (last : Nat) :
    (do
      let (out, last) ← foldMatches (fun (acc : Bytes × Nat) m => do
        let text ← appendReplacement p s repl m
        pure (!false, acc.1 ++ substr s acc.2 m.start ++ text, m.stop)) ms (out, last)
      pure (out ++ s.drop last) : Exec σ Bytes) =
    (do
      let texts ← ms.mapM (appendReplacement p s repl)
      pure (out ++ weave s last (ms.zip texts))) := by
  induction ms generalizing out last with
  | nil => rfl
  | cons m ms ih =>
    simp only [foldMatches, List.mapM_cons, bind_assoc, pure_bind, Bool.not_false, if_true]
    congr 1
    funext text
    simp only [Bool.not_false] at ih
    rw [ih]
    simp only [List.zip_cons_cons, weave, List.append_assoc]

/-- Each match in order gives way to its text, and the rest stays. -/
theorem replaceWithPattern_eq {σ : Type} (repl : Replacement σ) :
    replaceWithPattern p s repl false = (do
      let texts ← (allMatches p s).mapM (appendReplacement p s repl)
      pure (weave s 0 ((allMatches p s).zip texts))) := by
  unfold replaceWithPattern
  rw [forEachMatch_eq]
  exact foldMatches_append repl (matchesFrom p s 0) [] 0

/-- On well-formed text the lazy seq, repeated finds and the walk of `replace` meet the same
matches, in order and between characters, and `replace` leaves the text between them. -/
theorem matches_agree (p : Pattern) {s : Bytes} (hs : WellFormed s) :
    InOrder s (allMatches p s) ∧
    Realises p s 0 ((allMatches p s).map (matchValue p s)) ∧
    (∀ n, nthFind p s n reMatcher = ((allMatches p s)[n]?).map (matchValue p s)) ∧
    (∀ {M : Type → Type} [Monad M] {α : Type} (f : α → Match → M (Bool × α)) acc,
      forEachMatch p s f 0 acc = foldMatches f (allMatches p s) acc) ∧
    weave s 0 ((allMatches p s).map fun m => (m, m.str s 0)) = s ∧
    ∀ {σ : Type} (repl : Replacement σ), replaceWithPattern p s repl false = (do
      let texts ← (allMatches p s).mapM (appendReplacement p s repl)
      pure (weave s 0 ((allMatches p s).zip texts))) :=
  ⟨allMatches_inOrder hs, realises_matches 0,
    fun n => nthFind_matches n 0 none, fun f acc => forEachMatch_eq f 0 acc,
    weave_self 0 0 (Nat.le_refl 0), fun repl => replaceWithPattern_eq repl⟩

end Enumeration

/-- The pattern that matches nothing but the empty text, everywhere. -/
def emptyPattern : Pattern where
  groups := 0
  search s start := if start ≤ s.length then some ⟨(start, start), []⟩ else none
  range s start m h := by
    split at h
    · rename_i hle
      cases h
      exact ⟨Nat.le_refl _, Nat.le_refl _, hle⟩
    · cases h
  boundary s start m _ hb h := by
    split at h
    · cases h
      exact ⟨hb, hb⟩
    · cases h

/-- The text of one character of two bytes. -/
theorem matches_agree_empty :
    InOrder (encode ['\u00e9']) (allMatches emptyPattern (encode ['\u00e9'])) ∧
    Realises emptyPattern (encode ['\u00e9']) 0 ((allMatches emptyPattern (encode ['\u00e9'])).map
      (matchValue emptyPattern (encode ['\u00e9']))) ∧
    nthFind emptyPattern (encode ['\u00e9']) 2 reMatcher =
      ((allMatches emptyPattern (encode ['\u00e9']))[2]?).map
        (matchValue emptyPattern (encode ['\u00e9'])) := by
  have h := matches_agree emptyPattern (s := encode ['\u00e9']) ⟨_, rfl⟩
  exact ⟨h.1, h.2.1, h.2.2.1 2⟩

end ProtoClojure.Regex
