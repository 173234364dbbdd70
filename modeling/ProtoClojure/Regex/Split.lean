import ProtoClojure.Regex.Matches

/-! `split` with a pattern, beside Java's. -/

namespace ProtoClojure.Regex

/-! ### The code -/

section Code
variable (s : Bytes) (limit : Int)

/-- The pieces so far and where the next one starts; whether to go on. -/
def splitStep (acc : List Bytes × Nat) (m : Match) : Bool × List Bytes × Nat :=
  if limit > 0 ∧ (acc.1.length : Int) = limit - 1 then (false, acc)
  else if m.start = 0 ∧ m.length = 0 then (true, acc)          -- no leading empty piece
  else if m.length = 0 ∧ m.start ≥ s.length then (false, acc)  -- the empty match at the end
  else (true, acc.1 ++ [substr s acc.2 m.start], m.start + m.length)

/-- From the last piece on: pops empty pieces while there are others. -/
def popEmpty : List Bytes → List Bytes
  | [] :: piece :: pieces => popEmpty (piece :: pieces)
  | pieces => pieces

def splitEnd (pieces : List Bytes) : List Bytes :=
  let pieces := if limit = 0 then (popEmpty pieces.reverse).reverse else pieces
  if limit = 0 ∧ pieces = [[]] ∧ s ≠ [] then [] else pieces

end Code

def splitWithPattern (p : Pattern) (s : Bytes) (limit : Int) : List Bytes :=
  let (pieces, start) := Id.run (forEachMatch p s (fun acc m => pure (splitStep s limit acc m)) 0
    ([], 0))
  splitEnd s limit (pieces ++ [s.drop start])

/-! ### Java's `String.split` -/

/-- A match of no width at the beginning never makes an empty first piece. -/
def separators : List Match → List Match
  | [] => []
  | m :: ms => if m.start = 0 ∧ m.length = 0 then ms else m :: ms

/-- A positive limit applies the pattern at most that many times less one. -/
def cuts (limit : Int) (ms : List Match) : List Match :=
  if limit > 0 then (separators ms).take (limit.toNat - 1) else separators ms

/-- The text between the separators, from a position on. -/
def cutAt (s : Bytes) : Nat → List Match → List Bytes
  | last, [] => [s.drop last]
  | last, m :: ms => substr s last m.start :: cutAt s m.stop ms

def dropTrailing (pieces : List Bytes) : List Bytes := (pieces.reverse.dropWhile (· = [])).reverse

/-- The whole string where nothing is cut; trailing empty pieces go only for the limit zero. -/
def javaSplit (s : Bytes) (ms : List Match) (limit : Int) : List Bytes :=
  if cuts limit ms = [] then [s]
  else if limit = 0 then dropTrailing (cutAt s 0 (cuts limit ms))
  else cutAt s 0 (cuts limit ms)

/-- Pieces and the texts between them. -/
def interleave : List Bytes → List Bytes → Bytes
  | piece :: pieces, text :: texts => piece ++ text ++ interleave pieces texts
  | pieces, _ => pieces.flatten

/-! ### What the loop cuts at -/

/-- The empty match at the end. -/
def AtEnd (s : Bytes) (m : Match) : Prop := m.length = 0 ∧ m.start ≥ s.length

instance (s : Bytes) (m : Match) : Decidable (AtEnd s m) := inferInstanceAs (Decidable (_ ∧ _))

def beforeEnd (s : Bytes) (ms : List Match) : List Match := ms.takeWhile fun m => ¬ AtEnd s m

/-- What a limit leaves of the separators after some pieces. -/
def within (limit : Int) (made : Nat) (ms : List Match) : List Match :=
  if limit > 0 then ms.take (limit.toNat - 1 - made) else ms

theorem within_full {limit : Int} {made : Nat} (hpos : limit > 0) (h : (made : Int) = limit - 1)
    (ms : List Match) : within limit made ms = [] := by
  have hzero : limit.toNat - 1 - made = 0 := by omega
  rw [within, if_pos hpos, hzero, List.take_zero]

theorem within_cons {limit : Int} {made : Nat} (h : limit > 0 → (made : Int) < limit - 1)
    (m : Match) (ms : List Match) : within limit made (m :: ms) = m :: within limit (made + 1) ms := by
  unfold within
  split
  · have := h (by assumption)
    obtain ⟨k, hk⟩ : ∃ k, limit.toNat - 1 - made = k + 1 := ⟨limit.toNat - 2 - made, by omega⟩
    rw [hk, List.take_succ_cons, show limit.toNat - 1 - (made + 1) = k by omega]
  · rfl

section Loop
variable (s : Bytes) (limit : Int)

/-- All the pieces, with what is left over as the last. -/
def allPieces (acc : List Bytes × Nat) : List Bytes := acc.1 ++ [s.drop acc.2]

def splitLoop (ms : List Match) (acc : List Bytes × Nat) : List Bytes × Nat :=
  Id.run (foldMatches (fun acc m => pure (splitStep s limit acc m)) ms acc)

theorem splitLoop_cons (m : Match) (ms : List Match) (acc : List Bytes × Nat) :
    splitLoop s limit (m :: ms) acc =
      if (splitStep s limit acc m).1 then splitLoop s limit ms (splitStep s limit acc m).2
      else (splitStep s limit acc m).2 := by
  show Id.run (if (splitStep s limit acc m).1 then _ else _) = _
  split <;> rfl

variable {s limit}

theorem splitLoop_full {acc : List Bytes × Nat}
    (h : limit > 0 ∧ (acc.1.length : Int) = limit - 1) (ms : List Match) :
    splitLoop s limit ms acc = acc := by
  cases ms with
  | nil => rfl
  | cons m ms =>
    rw [splitLoop_cons, splitStep, if_pos h]
    rfl

theorem beforeEnd_cons_of_end {m : Match} (h : AtEnd s m) (ms : List Match) :
    beforeEnd s (m :: ms) = [] := by
  simp [beforeEnd, h]

theorem beforeEnd_cons {m : Match} (h : ¬ AtEnd s m) (ms : List Match) :
    beforeEnd s (m :: ms) = m :: beforeEnd s ms := by
  simp [beforeEnd, h]

/-- The loop cuts at every match the limit allows, up to one at the end. -/
theorem allPieces_splitLoop {ms : List Match} (hfirst : ∀ m ∈ ms, ¬ (m.start = 0 ∧ m.length = 0))
    (hle : ∀ m ∈ ms, m.start ≤ m.stop) (pieces : List Bytes) (start : Nat)
    (hlimit : limit > 0 → (pieces.length : Int) ≤ limit - 1) :
    allPieces s (splitLoop s limit ms (pieces, start)) =
      pieces ++ cutAt s start (beforeEnd s (within limit pieces.length ms)) := by
  induction ms generalizing pieces start with
  | nil =>
    have hnil : within limit pieces.length [] = [] := by unfold within; split <;> simp
    rw [hnil]
    rfl
  | cons m ms ih =>
    obtain ⟨hm, hms⟩ := List.forall_mem_cons.mp hfirst
    obtain ⟨hmle, hmsle⟩ := List.forall_mem_cons.mp hle
    by_cases hfull : limit > 0 ∧ (pieces.length : Int) = limit - 1
    · rw [splitLoop_full hfull, within_full hfull.1 hfull.2]
      rfl
    rw [splitLoop_cons]
    have hroom : limit > 0 → (pieces.length : Int) < limit - 1 := by
      intro h
      have := hlimit h
      omega
    rw [splitStep, if_neg hfull, if_neg hm, within_cons hroom]
    by_cases hend : m.length = 0 ∧ m.start ≥ s.length
    · rw [if_pos hend, beforeEnd_cons_of_end hend]
      rfl
    · rw [if_neg hend, beforeEnd_cons hend, if_pos rfl]
      have hstop : m.start + m.length = m.stop := by
        unfold Match.length
        omega
      rw [ih hms hmsle, hstop, List.length_append, List.append_assoc]
      · rfl
      · intro h
        have := hroom h
        show ((pieces ++ [_]).length : Int) ≤ _
        rw [List.length_append, List.length_singleton]
        omega

theorem separators_first {ms : List Match} (hms : ms.Pairwise fun m m' => m.start < m'.start) :
    ∀ m ∈ separators ms, ¬ (m.start = 0 ∧ m.length = 0) := by
  cases ms with
  | nil => exact nofun
  | cons m ms =>
    obtain ⟨hlt, -⟩ := List.pairwise_cons.mp hms
    have hrest : ∀ m' ∈ ms, ¬ (m'.start = 0 ∧ m'.length = 0) := by
      intro m' hm' h
      have := hlt m' hm'
      omega
    rw [separators]
    split
    · exact hrest
    · rename_i hm
      exact List.forall_mem_cons.mpr ⟨hm, hrest⟩

theorem separators_subset (ms : List Match) : ∀ m ∈ separators ms, m ∈ ms := by
  cases ms with
  | nil => exact nofun
  | cons m ms =>
    rw [separators]
    split
    · exact fun _ h => List.mem_cons_of_mem _ h
    · exact fun _ h => h

theorem allPieces_matches {ms : List Match} (hms : ms.Pairwise fun m m' => m.start < m'.start)
    (hle : ∀ m ∈ ms, m.start ≤ m.stop) :
    allPieces s (splitLoop s limit ms ([], 0)) = cutAt s 0 (beforeEnd s (cuts limit ms)) := by
  have hlimit : limit > 0 → (([] : List Bytes).length : Int) ≤ limit - 1 := by
    intro h
    show (0 : Int) ≤ limit - 1
    omega
  have hloop : allPieces s (splitLoop s limit (separators ms) ([], 0)) =
      [] ++ cutAt s 0 (beforeEnd s (within limit 0 (separators ms))) :=
    allPieces_splitLoop (separators_first hms)
      (fun m hm => hle m (separators_subset ms m hm)) [] 0 hlimit
  have hcuts : cuts limit ms = within limit 0 (separators ms) := rfl
  rw [hcuts, ← List.nil_append (cutAt ..)]
  refine Eq.trans ?_ hloop
  cases ms with
  | nil => rfl
  | cons m ms =>
    rw [separators]
    split
    · rename_i hskip
      by_cases hone : limit > 0 ∧ ((([] : List Bytes), 0).1.length : Int) = limit - 1
      · rw [splitLoop_full hone, splitLoop_full hone]
      · have hstep : splitStep s limit ([], 0) m = (true, [], 0) := by
          unfold splitStep
          rw [if_neg hone, if_pos hskip]
        rw [splitLoop_cons, hstep]
        rfl
    · rfl

end Loop

/-! ### The end of the pieces -/

theorem popEmpty_dropWhile {pieces : List Bytes} (h : pieces ≠ []) :
    (if popEmpty pieces = [[]] then [] else popEmpty pieces) = pieces.dropWhile (· = []) := by
  fun_induction popEmpty pieces with
  | case1 piece pieces ih =>
    rw [ih (by simp)]
    rfl
  | case2 pieces hne =>
    cases pieces with
    | nil => exact absurd rfl h
    | cons piece pieces =>
      by_cases hpiece : piece = []
      · subst hpiece
        cases pieces with
        | nil => rfl
        | cons piece pieces => exact absurd rfl (hne piece pieces)
      · rw [if_neg (by simp [hpiece]), List.dropWhile_cons_of_neg (by simpa using hpiece)]

theorem splitEnd_zero {s : Bytes} (hs : s ≠ []) {pieces : List Bytes} (h : pieces ≠ []) :
    splitEnd s 0 pieces = dropTrailing pieces := by
  have hpop := popEmpty_dropWhile (List.reverse_ne_nil_iff.mpr h)
  have hrev : (popEmpty pieces.reverse).reverse = [[]] ↔ popEmpty pieces.reverse = [[]] := by
    rw [List.reverse_eq_iff]
    rfl
  unfold splitEnd dropTrailing
  dsimp only
  rw [if_pos rfl, ← hpop]
  by_cases hone : popEmpty pieces.reverse = [[]]
  · rw [if_pos ⟨rfl, hrev.mpr hone, hs⟩, if_pos hone]
    rfl
  · rw [if_neg fun hc => hone (hrev.mp hc.2.1), if_neg hone]

theorem splitEnd_limit {s : Bytes} {limit : Int} (h : limit ≠ 0) (pieces : List Bytes) :
    splitEnd s limit pieces = pieces := by
  simp [splitEnd, h]

theorem dropTrailing_append (pieces : List Bytes) :
    dropTrailing (pieces ++ [[]]) = dropTrailing pieces := by
  simp [dropTrailing]

/-! ### Cutting -/

section Cutting
variable {s : Bytes}

theorem cutAt_ne_nil (last : Nat) (ms : List Match) : cutAt s last ms ≠ [] := by
  cases ms <;> simp [cutAt]

theorem cutAt_length (last : Nat) (ms : List Match) : (cutAt s last ms).length = ms.length + 1 := by
  induction ms generalizing last with
  | nil => rfl
  | cons m ms ih => rw [cutAt, List.length_cons, ih, List.length_cons]

/-- An empty match at the end cuts off an empty piece. -/
theorem cutAt_end {e : Match} (hstart : e.start = s.length) (hstop : e.stop = s.length)
    (last : Nat) (ms : List Match) : cutAt s last (ms ++ [e]) = cutAt s last ms ++ [[]] := by
  induction ms generalizing last with
  | nil =>
    have hsub : substr s last s.length = s.drop last := by
      unfold substr
      rw [← List.length_drop, List.take_length]
    simp [cutAt, hstart, hstop, hsub]
  | cons m ms ih => rw [List.cons_append, cutAt, ih, cutAt, List.cons_append]

/-- The pieces and the texts they were cut at. -/
theorem interleave_cutAt {ms : List Match}
    (hms : ms.Pairwise fun m m' => m.start < m'.start ∧ m.stop ≤ m'.start)
    (hle : ∀ m ∈ ms, m.start ≤ m.stop) (last : Nat) (hlast : ∀ m ∈ ms, last ≤ m.start) :
    interleave (cutAt s last ms) (ms.map fun m => m.str s 0) = s.drop last := by
  induction ms generalizing last with
  | nil => simp [cutAt, interleave]
  | cons m ms ih =>
    obtain ⟨hnext, hms⟩ := List.pairwise_cons.mp hms
    obtain ⟨hm, hle⟩ := List.forall_mem_cons.mp hle
    have hrest := ih hms hle m.stop fun m' hm' => (hnext m' hm').2
    have hstr : m.str s 0 = substr s m.start m.stop := rfl
    rw [cutAt, List.map_cons, interleave, hrest, List.append_assoc, hstr, substr_append_drop hm,
      substr_append_drop (hlast m List.mem_cons_self)]

theorem beforeEnd_of_none {ms : List Match} (h : ∀ m ∈ ms, ¬ AtEnd s m) : beforeEnd s ms = ms := by
  induction ms with
  | nil => rfl
  | cons m ms ih =>
    obtain ⟨hm, hms⟩ := List.forall_mem_cons.mp h
    rw [beforeEnd_cons hm, ih hms]

/-- A match at the end is the last one. -/
theorem beforeEnd_of_end {ms : List Match} (hms : ms.Pairwise fun m m' => m.start < m'.start)
    (hsize : ∀ m ∈ ms, m.start ≤ s.length) {e : Match} (he : e ∈ ms) (hend : AtEnd s e) :
    ms = beforeEnd s ms ++ [e] := by
  induction ms with
  | nil => cases he
  | cons m ms ih =>
    obtain ⟨hlt, hms⟩ := List.pairwise_cons.mp hms
    obtain ⟨-, hrest⟩ := List.forall_mem_cons.mp hsize
    rcases List.mem_cons.mp he with rfl | he
    · have hnil : ms = [] := by
        rw [List.eq_nil_iff_forall_not_mem]
        intro m' hm'
        have h₁ := hlt m' hm'
        have h₂ := hrest m' hm'
        have h₃ := hend.2
        omega
      rw [hnil, beforeEnd_cons_of_end hend]
      rfl
    · have hnot : ¬ AtEnd s m := by
        intro h
        have h₁ := hlt e he
        have h₂ := hrest e he
        have h₃ := h.2
        omega
      rw [beforeEnd_cons hnot, List.cons_append, ← ih hms hrest he]

end Cutting

/-! ### The two splits -/

section Java
variable (p : Pattern) (s : Bytes) (limit : Int)

theorem splitWithPattern_eq : splitWithPattern p s limit =
    splitEnd s limit (cutAt s 0 (beforeEnd s (cuts limit (allMatches p s)))) := by
  have hms := matchesFrom_increasing (p := p) (s := s) 0
  have hpieces : allPieces s (splitLoop s limit (matchesFrom p s 0) ([], 0)) =
      cutAt s 0 (beforeEnd s (cuts limit (matchesFrom p s 0))) :=
    allPieces_matches (hms.imp fun h => h.1) fun m hm => (matchesFrom_range 0 m hm).2.1
  unfold allMatches
  rw [← hpieces]
  unfold splitWithPattern
  rw [forEachMatch_eq]
  rfl

/-- What Java's `split` answers, with the pieces at most `limit`, and all of the text in them and
the separators when there is no limit. -/
structure LikeJava (pieces : List Bytes) : Prop where
  java : pieces = javaSplit s (allMatches p s) limit
  atMost : 0 < limit → (pieces.length : Int) ≤ limit
  rebuilds : limit < 0 →
    interleave pieces ((separators (allMatches p s)).map fun m => m.str s 0) = s

variable {p s limit}

theorem cuts_sublist (ms : List Match) : (cuts limit ms).Sublist ms := by
  have hsep : (separators ms).Sublist ms := by
    cases ms with
    | nil => exact .slnil
    | cons m ms =>
      rw [separators]
      split
      · exact List.sublist_cons_self m ms
      · exact List.Sublist.refl _
  unfold cuts
  split
  · exact (List.take_sublist ..).trans hsep
  · exact hsep

/-- The empty text is never cut. -/
theorem cuts_empty : cuts limit (allMatches p []) = [] := by
  have hfirst := separators_first ((matchesFrom_increasing (p := p) (s := []) 0).imp fun h => h.1)
  have hnil : separators (allMatches p []) = [] := by
    rw [List.eq_nil_iff_forall_not_mem]
    intro m hm
    have hrange := matchesFrom_range 0 m (separators_subset _ m hm)
    refine hfirst m hm ?_
    unfold Match.length
    rw [List.length_nil] at hrange
    omega
  unfold cuts
  rw [hnil, List.take_nil, ite_self]

theorem cutAt_of_end {ms : List Match} (hms : ms.Pairwise fun m m' => m.start < m'.start)
    (hrange : ∀ m ∈ ms, m.start ≤ m.stop ∧ m.stop ≤ s.length) {e : Match} (he : e ∈ ms)
    (hend : AtEnd s e) : cutAt s 0 ms = cutAt s 0 (beforeEnd s ms) ++ [[]] := by
  have hsize : ∀ m ∈ ms, m.start ≤ s.length := fun m hm => (hrange m hm).1.trans (hrange m hm).2
  have hle := hrange e he
  obtain ⟨hlen, hstart⟩ := hend
  rw [← cutAt_end (e := e) (by omega) (by omega), ← beforeEnd_of_end hms hsize he ⟨hlen, hstart⟩]

section Pieces
variable (hcuts : (cuts limit (allMatches p s)).Pairwise fun m m' => m.start < m'.start)
  (hrange : ∀ m ∈ cuts limit (allMatches p s), m.start ≤ m.stop ∧ m.stop ≤ s.length)

include hcuts hrange in
theorem split_java (h : limit = 0 ∨ ∀ m ∈ cuts limit (allMatches p s), ¬ AtEnd s m) :
    splitWithPattern p s limit = javaSplit s (allMatches p s) limit := by
  rw [splitWithPattern_eq]
  by_cases hs : s = []
  · subst hs
    rw [javaSplit, cuts_empty, if_pos rfl]
    by_cases hzero : limit = 0
    · subst hzero
      rfl
    · exact splitEnd_limit hzero _
  by_cases hzero : limit = 0
  · subst hzero
    rw [splitEnd_zero hs (cutAt_ne_nil _ _)]
    have hsame : dropTrailing (cutAt s 0 (beforeEnd s (cuts 0 (allMatches p s)))) =
        dropTrailing (cutAt s 0 (cuts 0 (allMatches p s))) := by
      by_cases hend : ∃ e ∈ cuts 0 (allMatches p s), AtEnd s e
      · obtain ⟨e, he, hend⟩ := hend
        rw [cutAt_of_end hcuts hrange he hend, dropTrailing_append]
      · push Not at hend
        rw [beforeEnd_of_none hend]
    rw [hsame, javaSplit, if_pos rfl]
    split
    · rename_i hnil
      rw [hnil]
      simp [cutAt, dropTrailing, hs]
    · rfl
  · rw [beforeEnd_of_none (h.resolve_left hzero), splitEnd_limit hzero, javaSplit, if_neg hzero]
    split
    · rename_i hnil
      rw [hnil]
      rfl
    · rfl

theorem split_atMost (hpos : 0 < limit) : ((splitWithPattern p s limit).length : Int) ≤ limit := by
  rw [splitWithPattern_eq, splitEnd_limit (by omega), cutAt_length]
  have hbefore := (List.takeWhile_sublist (fun m => decide ¬ AtEnd s m)
    (l := cuts limit (allMatches p s))).length_le
  have hcut : (cuts limit (allMatches p s)).length ≤ limit.toNat - 1 := by
    unfold cuts
    rw [if_pos hpos]
    exact List.length_take_le ..
  unfold beforeEnd
  omega

theorem split_rebuilds (h : ∀ m ∈ cuts limit (allMatches p s), ¬ AtEnd s m) (hneg : limit < 0) :
    interleave (splitWithPattern p s limit)
      ((separators (allMatches p s)).map fun m => m.str s 0) = s := by
  have hseps : cuts limit (allMatches p s) = separators (allMatches p s) := by
    unfold cuts
    rw [if_neg (by omega)]
  rw [splitWithPattern_eq, splitEnd_limit (by omega), beforeEnd_of_none h, hseps]
  refine interleave_cutAt ?_ (fun m hm => ?_) 0 fun _ _ => Nat.zero_le _
  · rw [← hseps]
    exact (matchesFrom_increasing 0).sublist (cuts_sublist _)
  · exact (matchesFrom_range 0 m (separators_subset _ m hm)).2.1

end Pieces

/-- `split` is Java's, except that it never cuts at an empty match at the end. -/
theorem split_like_java (p : Pattern) (s : Bytes) (limit : Int) :
    LikeJava p s limit (splitWithPattern p s limit) ↔
      limit = 0 ∨ ∀ m ∈ cuts limit (allMatches p s), ¬ AtEnd s m := by
  have hall := matchesFrom_increasing (p := p) (s := s) 0
  have hcuts : (cuts limit (allMatches p s)).Pairwise fun m m' => m.start < m'.start :=
    (hall.imp fun h => h.1).sublist (cuts_sublist _)
  have hrange : ∀ m ∈ cuts limit (allMatches p s), m.start ≤ m.stop ∧ m.stop ≤ s.length :=
    fun m hm => (matchesFrom_range 0 m ((cuts_sublist _).subset hm)).2
  constructor
  · rintro ⟨hjava, -, -⟩
    by_contra hnot
    push Not at hnot
    obtain ⟨hlimit, e, he, hend⟩ := hnot
    rw [splitWithPattern_eq, splitEnd_limit hlimit, javaSplit,
      if_neg (List.ne_nil_of_mem he), if_neg hlimit, cutAt_of_end hcuts hrange he hend] at hjava
    have hlen := congrArg List.length hjava
    simp at hlen
  · intro h
    exact ⟨split_java hcuts hrange h, fun hpos => split_atMost hpos,
      fun hneg => split_rebuilds (h.resolve_left (by omega)) hneg⟩

/-- `(split "ab" #"" -1)` in the code and in Java. -/
theorem split_end_dropped :
    splitWithPattern emptyPattern [0x61, 0x62] (-1) = [[0x61], [0x62]] ∧
      javaSplit [0x61, 0x62] (allMatches emptyPattern [0x61, 0x62]) (-1) =
        [[0x61], [0x62], []] := by
  have hall : allMatches emptyPattern [0x61, 0x62] =
      [⟨(0, 0), []⟩, ⟨(1, 1), []⟩, ⟨(2, 2), []⟩] := by
    unfold allMatches
    rw [matchesFrom_some (m := ⟨(0, 0), []⟩) rfl, matchesFrom_some (m := ⟨(1, 1), []⟩) rfl,
      matchesFrom_some (m := ⟨(2, 2), []⟩) rfl, matchesFrom_none fun h => absurd h (by decide)]
  rw [splitWithPattern_eq, hall]
  decide

end Java
end ProtoClojure.Regex
