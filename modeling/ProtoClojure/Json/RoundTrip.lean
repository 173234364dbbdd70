import ProtoClojure.Json.Strings
import ProtoClojure.Collections.KeyedMap
import Mathlib.Data.List.Forall2

/-! What the writer writes is read back. -/

namespace ProtoClojure.Json
open Decimal KeyedMap

variable {D E W : Type}

/-! ### The values of a document -/

namespace Datum

mutual
def depth : Datum D → Nat
  | .sequence _ items => itemsDepth items + 1
  | .map es => entriesDepth es + 1
  | .nil | .bool _ | .integer _ | .double _ | .string _ | .named _ | .other .. => 1
def itemsDepth : List (Datum D) → Nat
  | [] => 0
  | x :: xs => max x.depth (itemsDepth xs)
def entriesDepth : List (Datum D × Datum D) → Nat
  | [] => 0
  | (_, v) :: es => max v.depth (entriesDepth es)
end

theorem depth_le_items {x : Datum D} {items : List (Datum D)} (hx : x ∈ items) :
    x.depth ≤ itemsDepth items := by
  induction items with
  | nil => cases hx
  | cons y items ih =>
    rw [itemsDepth]
    rcases List.mem_cons.mp hx with rfl | hx
    · exact Nat.le_max_left _ _
    · exact Nat.le_trans (ih hx) (Nat.le_max_right _ _)

theorem depth_le_entries {e : Datum D × Datum D} {es : List (Datum D × Datum D)} (he : e ∈ es) :
    e.2.depth ≤ entriesDepth es := by
  induction es with
  | nil => cases he
  | cons f es ih =>
    rw [entriesDepth]
    rcases List.mem_cons.mp he with rfl | he
    · exact Nat.le_max_left _ _
    · exact Nat.le_trans (ih he) (Nat.le_max_right _ _)

theorem depth_pos (v : Datum D) : 0 < v.depth := by
  cases v <;> rw [depth] <;> omega

end Datum

/-- Nil, booleans, integers, finite doubles, strings of well-formed UTF-8, vectors, and maps with
distinct string keys. -/
inductive Codable (F : Floats D) : Datum D → Prop where
  | nil : Codable F .nil
  | bool (b : Bool) : Codable F (.bool b)
  | integer (n : Int) : Codable F (.integer n)
  | double {d : D} (hd : F.finite d) : Codable F (.double d)
  | string {s : Bytes} (hs : Utf8 s) : Codable F (.string s)
  | vector {items : List (Datum D)} (hi : ∀ x ∈ items, Codable F x) :
      Codable F (.sequence .vector items)
  | map {es : List (Datum D × Datum D)} (hk : ∀ e ∈ es, ∃ s, e.1 = .string s ∧ Utf8 s)
      (hd : (es.map Prod.fst).Nodup) (hv : ∀ e ∈ es, Codable F e.2) : Codable F (.map es)

/-- Equal up to the order of the entries of a map. -/
inductive Datum.Equal : Datum D → Datum D → Prop where
  | refl (v : Datum D) : Equal v v
  | vector {xs ys : List (Datum D)} (hl : xs.length = ys.length)
      (h : ∀ p ∈ xs.zip ys, Equal p.1 p.2) : Equal (.sequence .vector xs) (.sequence .vector ys)
  | map {es fs gs : List (Datum D × Datum D)} (hk : es.map Prod.fst = fs.map Prod.fst)
      (h : ∀ p ∈ es.zip fs, Equal p.1.2 p.2.2) (hp : fs.Perm gs) : Equal (.map es) (.map gs)

/-! ### The runtime -/

structure Runtime (D E W : Type) extends Printer D E W where
  assocPairs : List (Datum D × Datum D) → List (Datum D × Datum D) → List (Datum D × Datum D)
  same : Datum D → Datum D → Bool

def entriesOf : Option (Datum D) → List (Datum D × Datum D)
  | some (.map es) => es
  | _ => []

def Runtime.host (R : Runtime D E W) : Host (Datum D) E W where
  nil := .nil
  true_ := .bool true
  false_ := .bool false
  makeUtf8String := .string
  strtod t := .double (R.floats.strtod t)
  fromLong := .integer
  fromString t := .integer (integerValue t)
  internNamed := .named
  newVector := .sequence .vector
  mapAssocPairs m kv := .map (R.assocPairs (entriesOf m) kv)
  invoke := R.invoke
  same := R.same

/-- String keys match by their text. -/
def stringKeys : KeySemantics (Datum D) where
  isIdentity _ := false
  hash _ := 0
  equals
    | .string s, .string t => s = t
    | _, _ => false

/-- The pairs are inserted one after the other; where an entry goes is not said. -/
def Runtime.InsertsPairs (R : Runtime D E W) : Prop :=
  ∀ es kv, (∀ e ∈ es ++ kv, ∃ s, e.1 = .string s) → Distinct stringKeys es →
    (R.assocPairs es kv).Perm (kv.foldl (fun m e => KeyedMap.insert stringKeys m e.1 e.2) es)

/-! ### Pairs with new keys -/

section Pairs
variable {es kv : List (Datum D × Datum D)}

theorem distinct_of_nodup (hs : ∀ e ∈ es, ∃ s, e.1 = .string s)
    (hn : (es.map Prod.fst).Nodup) : Distinct stringKeys es := by
  have hn : es.Pairwise fun e f => e.1 ≠ f.1 := List.pairwise_map.mp hn
  refine List.Pairwise.imp_of_mem (fun {e f} he hf hne => ?_) hn
  obtain ⟨s, hs'⟩ := hs e he
  obtain ⟨t, ht'⟩ := hs f hf
  rw [hs', ht'] at hne ⊢
  have hst : s ≠ t := fun h => hne (by rw [h])
  simpa [stringKeys] using hst

theorem foldl_insert_new (hs : ∀ e ∈ es ++ kv, ∃ s, e.1 = .string s)
    (hn : ((es ++ kv).map Prod.fst).Nodup) :
    kv.foldl (fun m e => KeyedMap.insert stringKeys m e.1 e.2) es = es ++ kv := by
  induction kv generalizing es with
  | nil => simp
  | cons e kv ih =>
    have hsplit : es ++ e :: kv = es ++ [e] ++ kv := by simp
    have hnew : (es.any fun f => stringKeys.equals e.1 f.1) = false := by
      rw [List.any_eq_false]
      intro f hf heq
      obtain ⟨s, hse⟩ := hs e (by simp)
      obtain ⟨t, htf⟩ := hs f (by simp [hf])
      have hst : s = t := by
        rw [hse, htf] at heq
        simpa [stringKeys] using heq
      rw [List.map_append, List.nodup_append] at hn
      refine hn.2.2 f.1 (List.mem_map_of_mem hf) e.1 (by simp) ?_
      rw [htf, hse, hst]
    rw [List.foldl_cons, KeyedMap.insert, hnew, if_neg Bool.false_ne_true]
    rw [hsplit] at hs hn ⊢
    exact ih hs hn

theorem assocPairs_new {R : Runtime D E W} (hR : R.InsertsPairs)
    (hs : ∀ e ∈ es ++ kv, ∃ s, e.1 = .string s) (hn : ((es ++ kv).map Prod.fst).Nodup) :
    (R.assocPairs es kv).Perm (es ++ kv) := by
  rw [← foldl_insert_new hs hn]
  refine hR es kv hs (distinct_of_nodup (fun e he => hs e (List.mem_append_left kv he)) ?_)
  rw [List.map_append] at hn
  exact (List.nodup_append.mp hn).1

/-- The batch holds the entries `es`. -/
def Batch.Holds (b : Batch (Datum D)) (es : List (Datum D × Datum D)) : Prop :=
  ∃ fs, b.folded = .map fs ∧ (fs ++ b.pending).Perm es

variable {R : Runtime D E W} {b : Batch (Datum D)}

theorem Batch.Holds.fold (hR : R.InsertsPairs) (h : b.Holds es)
    (hs : ∀ e ∈ es, ∃ s, e.1 = .string s) (hn : (es.map Prod.fst).Nodup) :
    (b.fold R.host).Holds es ∧ (b.fold R.host).pending = [] := by
  obtain ⟨fs, hfs, hp⟩ := h
  unfold Batch.fold
  split
  · rename_i hnil
    exact ⟨⟨fs, hfs, hp⟩, hnil⟩
  · have hperm : (R.assocPairs fs b.pending).Perm (fs ++ b.pending) :=
      assocPairs_new hR (fun e he => hs e (hp.mem_iff.mp he))
        ((hp.map Prod.fst).nodup_iff.mpr hn)
    refine ⟨⟨R.assocPairs fs b.pending, ?_, ?_⟩, rfl⟩
    · show Datum.map (R.assocPairs (entriesOf (some b.folded)) b.pending) = _
      rw [hfs]
      rfl
    · rw [List.append_nil]
      exact hperm.trans hp

theorem Batch.Holds.push (hR : R.InsertsPairs) (h : b.Holds es) {e : Datum D × Datum D}
    (hs : ∀ f ∈ es ++ [e], ∃ s, f.1 = .string s) (hn : ((es ++ [e]).map Prod.fst).Nodup) :
    (b.push R.host e).Holds (es ++ [e]) := by
  obtain ⟨fs, hfs, hp⟩ := h
  have hpend : ({ b with pending := b.pending ++ [e] } : Batch (Datum D)).Holds (es ++ [e]) :=
    ⟨fs, hfs, by
      rw [← List.append_assoc]
      exact hp.append_right [e]⟩
  unfold Batch.push
  dsimp only
  split
  · exact (hpend.fold hR hs hn).1
  · exact hpend

theorem Batch.Holds.pushes (hR : R.InsertsPairs) (h : b.Holds es)
    (hs : ∀ e ∈ es ++ kv, ∃ s, e.1 = .string s) (hn : ((es ++ kv).map Prod.fst).Nodup) :
    (kv.foldl (fun b e => b.push R.host e) b).Holds (es ++ kv) := by
  induction kv generalizing es b with
  | nil => simpa using h
  | cons e kv ih =>
    have hsplit : es ++ e :: kv = es ++ [e] ++ kv := by simp
    rw [hsplit] at hs hn ⊢
    have hn' := hn
    rw [List.map_append] at hn'
    rw [List.foldl_cons]
    exact ih (h.push hR (fun f hf => hs f (List.mem_append_left kv hf))
      (List.nodup_append.mp hn').1) hs hn

end Pairs

/-! ### Reading a text back -/

def delimiter (c : UInt8) : Bool :=
  c == 0x2C || c == 0x5D || c == 0x7D || c == 0x20 || c == LF

/-- Nothing follows, or a byte that ends any value. -/
abbrev Ends (rest : Bytes) : Prop := Stops (fun c => !delimiter c) rest

theorem Ends.cons {c : UInt8} (h : delimiter c = true) (rest : Bytes) : Ends (c :: rest) :=
  Stops.cons (by rw [h]; rfl) rest

theorem Ends.stops {rest : Bytes} (h : Ends rest) {p : UInt8 → Bool}
    (hp : ∀ c, delimiter c = true → p c = false) : Stops p rest := by
  refine Stops.mono h fun c hc => ?_
  by_contra hd
  rw [hp c (by simpa using hd)] at hc
  cases hc

theorem delimiter_cases {c : UInt8} (h : delimiter c = true) :
    c = 0x2C ∨ c = 0x5D ∨ c = 0x7D ∨ c = 0x20 ∨ c = LF := by
  simpa [delimiter, or_assoc] using h

theorem Ends.number {rest : Bytes} (h : Ends rest) : Stops inNumber rest :=
  h.stops fun c hc => by rcases delimiter_cases hc with rfl | rfl | rfl | rfl | rfl <;> decide

theorem Ends.word {rest : Bytes} (h : Ends rest) :
    Stops (fun c => isLetter c || isDigit c) rest :=
  h.stops fun c hc => by rcases delimiter_cases hc with rfl | rfl | rfl | rfl | rfl <;> decide

/-- A value's text is read as `v`, whatever whitespace it follows. -/
structure Reads (R : Runtime D E W) (stack : Nat) (text : Bytes) (v : Datum D) : Prop where
  starts : ∃ c t, text = c :: t ∧ isSpace c = false ∧ c ≠ 0x5D
  takes : ∀ ws rest, (∀ c ∈ ws, isSpace c = true) → Ends rest →
    Takes (value R.host {} stack) (ws ++ text) v rest

section Atoms
variable {R : Runtime D E W} {stack : Nat}

theorem reads_word {c : UInt8} {t : Bytes} {v : Datum D} (hc : isSpace c = false) (hb : c ≠ 0x5D)
    (h : ∀ rest, Ends rest → Takes (do
      let c ← peek
      if c = some 0x7B then do
        advance
        object R.host {} (value R.host {} stack)
      else if c = some 0x5B then do
        advance
        array R.host (value R.host {} stack)
      else if c = some quote then do
        advance
        let text ← string
        return R.host.makeUtf8String text
      else if c = some 0x74 then do
        word [0x74, 0x72, 0x75, 0x65]
        return R.host.true_
      else if c = some 0x66 then do
        word [0x66, 0x61, 0x6C, 0x73, 0x65]
        return R.host.false_
      else if c = some 0x6E then do
        word [0x6E, 0x75, 0x6C, 0x6C]
        return R.host.nil
      else if c = some 0x2D ∨ c.any isDigit then number R.host
      else noValue) (c :: t) v rest) : Reads R (stack + 1) (c :: t) v where
  starts := ⟨c, t, rfl, hc, hb⟩
  takes ws rest hws hrest := by
    unfold value
    exact .bind (takes_skipWhitespace hws (.cons hc _)) (h rest hrest)

theorem reads_nil : Reads R (stack + 1) [0x6E, 0x75, 0x6C, 0x6C] .nil := by
  refine reads_word rfl (by decide) fun rest hrest => .peek ?_
  exact (takes_word _ hrest.word).answer (.pure _)

theorem reads_true : Reads R (stack + 1) [0x74, 0x72, 0x75, 0x65] (.bool true) := by
  refine reads_word rfl (by decide) fun rest hrest => .peek ?_
  exact (takes_word _ hrest.word).answer (.pure _)

theorem reads_false : Reads R (stack + 1) [0x66, 0x61, 0x6C, 0x73, 0x65] (.bool false) := by
  refine reads_word rfl (by decide) fun rest hrest => .peek ?_
  exact (takes_word _ hrest.word).answer (.pure _)

theorem reads_string (o : WriteOptions D) {s : Bytes} (hs : Utf8 s) :
    Reads R (stack + 1) (stringText o s) (.string s) := by
  refine reads_word rfl (by decide) fun rest hrest => .peek (.advance _ ?_)
  exact (takes_stringText o hs rest).answer (.pure _)

theorem reads_number {text : Bytes} {v : Datum D}
    (hstart : ∃ c t, text = c :: t ∧ (c = 0x2D ∨ isDigit c = true))
    (h : ∀ rest, Ends rest → Takes (number R.host) text v rest) : Reads R (stack + 1) text v := by
  obtain ⟨c, t, rfl, hc⟩ := hstart
  have hne : ∀ d, ¬(d = 0x2D ∨ isDigit d = true) → c ≠ d := fun d hd h => hd (h ▸ hc)
  have hspace : isSpace c = false := by
    cases h : isSpace c with
    | false => rfl
    | true =>
      simp only [isSpace, Bool.or_eq_true, beq_iff_eq] at h
      rcases h with ((h | h) | h) | h <;> exact absurd h (hne _ (by decide))
  refine reads_word hspace (hne 0x5D (by decide)) fun rest hrest => .peek ?_
  rw [List.cons_append, List.head?_cons]
  simp only [Option.some.injEq, hne 0x7B (by decide), hne 0x5B (by decide),
    hne quote (by decide), hne 0x74 (by decide), hne 0x66 (by decide), hne 0x6E (by decide),
    if_false, Option.any_some]
  rw [if_pos hc]
  exact h rest hrest

theorem sign_or_digit {sign int t : Bytes} (hsign : sign = [] ∨ sign = [0x2D]) (hne : int ≠ [])
    (hint : ∀ c ∈ int, isDigit c = true) :
    ∃ c u, sign ++ (int ++ t) = c :: u ∧ (c = 0x2D ∨ isDigit c = true) := by
  rcases hsign with rfl | rfl
  · obtain ⟨c, u, rfl⟩ := List.exists_cons_of_ne_nil hne
    exact ⟨c, u ++ t, rfl, .inr (hint c List.mem_cons_self)⟩
  · exact ⟨_, _, rfl, .inl rfl⟩

theorem reads_integer (n : Int) : Reads R (stack + 1) (intText n) (.integer n) := by
  have htext : ∃ sign int, intText n = sign ++ int ∧ (sign = [] ∨ sign = [0x2D]) ∧
      int = natText n.natAbs := by
    unfold intText
    split
    · exact ⟨[0x2D], _, rfl, .inr rfl, rfl⟩
    · exact ⟨[], _, rfl, .inl rfl, rfl⟩
  obtain ⟨sign, int, htext, hsign, hint⟩ := htext
  have hne : int ≠ [] := hint ▸ natText_ne_nil _
  have hdig : ∀ c ∈ int, isDigit c = true := hint ▸ natText_digits _
  have hfirst : int = [0x30] ∨ int.head? ≠ some 0x30 := hint ▸ natText_head _
  have hvalue : numberValue R.host false (intText n) = .integer n := by
    have hhost : ∀ t, numberValue R.host false t = .integer (integerValue t) := by
      intro t
      unfold numberValue
      rw [if_neg Bool.false_ne_true]
      split <;> rfl
    rw [hhost, integerValue_intText]
  refine reads_number ?_ fun rest hrest => ?_
  · rw [htext, ← List.append_nil int]
    exact sign_or_digit hsign hne hdig
  · have h := takes_integer R.host hsign hne hdig hfirst hrest.number
    rw [← htext, hvalue] at h
    exact h

theorem reads_double (hF : R.floats.Lawful) {d : D} (hd : R.floats.finite d) :
    Reads R (stack + 1) (formatDouble R.floats d) (.double d) := by
  obtain ⟨t, x, htext, ht, hread, hfrac, hfirst⟩ := formatDouble_finite hF hd
  rw [htext]
  have hsign : (if R.floats.signbit d then [(0x2D : UInt8)] else []) = [] ∨
      (if R.floats.signbit d then [(0x2D : UInt8)] else []) = [0x2D] := by
    by_cases h : R.floats.signbit d = true
    · exact .inr (if_pos h)
    · exact .inl (if_neg h)
  refine reads_number ?_ fun rest hrest => ?_
  · obtain ⟨e, rfl, -⟩ := ht
    rw [List.append_assoc]
    exact sign_or_digit hsign x.int_ne x.int_digits
  · obtain ⟨t', ht', htakes⟩ := takes_decimal R.host hsign ht hfrac hfirst hrest.number
    have hread' : R.floats.strtod t' = R.floats.fabs d :=
      (hF.strtod_value ht' ht rfl).trans hread
    have hvalue : numberValue R.host true ((if R.floats.signbit d then [0x2D] else []) ++ t') =
        .double d := by
      show Datum.double (R.floats.strtod _) = _
      by_cases h : R.floats.signbit d = true
      · rw [if_pos h]
        exact congrArg Datum.double (hF.strtod_minus hd ht' hread' h)
      · rw [if_neg h]
        exact congrArg Datum.double (hread'.trans (hF.fabs hd (by simpa using h)))
    rw [hvalue] at htakes
    exact htakes

end Atoms

/-! ### Vectors -/

theorem exists_forall₂ {α β : Type} {P : α → β → Prop} {xs : List α}
    (h : ∀ x ∈ xs, ∃ y, P x y) : ∃ ys, List.Forall₂ P xs ys := by
  induction xs with
  | nil => exact ⟨[], .nil⟩
  | cons x xs ih =>
    obtain ⟨y, hy⟩ := h x List.mem_cons_self
    obtain ⟨ys, hys⟩ := ih fun z hz => h z (List.mem_cons_of_mem x hz)
    exact ⟨y :: ys, .cons hy hys⟩

theorem forall_right {α β : Type} {P : α → β → Prop} {xs : List α} {ys : List β} {Q : β → Prop}
    (h : List.Forall₂ P xs ys) (hQ : ∀ x y, P x y → Q y) : ∀ y ∈ ys, Q y := by
  induction h with
  | nil => exact List.forall_mem_nil _
  | cons hx _ ih => exact List.forall_mem_cons.mpr ⟨hQ _ _ hx, ih⟩

section Vectors
variable (o : WriteOptions D) {R : Runtime D E W} {stack : Nat}

def blank : Bytes := if o.pretty then [0x20] else []

theorem blank_spaces : ∀ c ∈ blank o, isSpace c = true := by
  intro c hc
  unfold blank at hc
  split at hc
  · rw [List.mem_singleton.mp hc]
    decide
  · exact absurd hc List.not_mem_nil

theorem blank_ends {c : UInt8} (hc : delimiter c = true) (rest : Bytes) :
    Ends (blank o ++ c :: rest) := by
  unfold blank
  split
  · exact .cons rfl _
  · exact .cons hc _

/-- The text of the elements after the first. -/
def moreElements (ps : List (Bytes × Datum D)) : Bytes :=
  ps.flatMap fun p => 0x2C :: (blank o ++ p.1)

theorem elements_more {value : Datum D → Write E W Bytes} {items : List (Datum D)}
    {ps : List (Bytes × Datum D)} (h : List.Forall₂ (fun x p => value x = pure p.1) items ps) :
    elements o value false items = pure (moreElements o ps) := by
  induction h with
  | nil => rfl
  | @cons x p items ps hx _ ih =>
    unfold elements
    simp only [Bool.false_eq_true, if_false]
    have hcons : moreElements o (p :: ps) = 0x2C :: (blank o ++ p.1) ++ moreElements o ps := rfl
    rw [hx, pure_bind, ih, pure_bind, hcons, blank]
    split <;> rfl

theorem elements_first {value : Datum D → Write E W Bytes} {x : Datum D} {items : List (Datum D)}
    {p : Bytes × Datum D} {ps : List (Bytes × Datum D)} (hx : value x = pure p.1)
    (h : List.Forall₂ (fun x p => value x = pure p.1) items ps) :
    elements o value true (x :: items) = pure (blank o ++ p.1 ++ moreElements o ps) := by
  unfold elements
  simp only [if_true]
  rw [hx, pure_bind, elements_more o h, pure_bind, blank]

theorem takes_arrayItems (ps : List (Bytes × Datum D)) (hps : ∀ p ∈ ps, Reads R stack p.1 p.2)
    {p : Bytes × Datum D} (hp : Reads R stack p.1 p.2) {ws : Bytes}
    (hws : ∀ c ∈ ws, isSpace c = true) (n : Nat) (hn : ps.length < n) (items : List (Datum D))
    (rest : Bytes) :
    Takes (arrayItems (value R.host {} stack) n items)
      (ws ++ p.1 ++ (moreElements o ps ++ (blank o ++ [0x5D])))
      (items ++ (p :: ps).map Prod.snd) rest := by
  induction ps generalizing p ws n items with
  | nil =>
    obtain ⟨n, rfl⟩ := Nat.exists_eq_succ_of_ne_zero (Nat.ne_of_gt hn)
    have hends : Ends (blank o ++ [0x5D] ++ rest) := by
      rw [List.append_assoc]
      exact blank_ends o rfl rest
    have hnone : moreElements o [] ++ (blank o ++ [0x5D]) = blank o ++ [0x5D] := rfl
    rw [hnone]
    unfold arrayItems
    refine .bind (hp.takes ws _ hws hends) ?_
    refine .bind (takes_skipWhitespace (blank_spaces o) (.cons rfl _)) (.peek ?_)
    exact .advance _ (.pure _)
  | cons q ps ih =>
    obtain ⟨n, rfl⟩ := Nat.exists_eq_succ_of_ne_zero (Nat.ne_of_gt (Nat.zero_lt_of_lt hn))
    have ih := ih (fun r hr => hps r (List.mem_cons_of_mem q hr)) (hps q List.mem_cons_self)
      (blank_spaces o) n (Nat.lt_of_succ_lt_succ hn) (items ++ [p.2])
    have htext : moreElements o (q :: ps) ++ (blank o ++ [0x5D]) =
        [] ++ 0x2C :: (blank o ++ q.1 ++ (moreElements o ps ++ (blank o ++ [0x5D]))) := by
      simp [moreElements]
    rw [htext]
    unfold arrayItems
    refine .bind (hp.takes ws _ hws (.cons rfl _)) ?_
    refine .bind (takes_skipWhitespace (List.forall_mem_nil _) (.cons rfl _)) (.peek ?_)
    refine .advance _ ?_
    have hitems : items ++ (p :: q :: ps).map Prod.snd =
        items ++ [p.2] ++ (q :: ps).map Prod.snd := by simp
    rw [hitems]
    exact ih

theorem length_moreElements (ps : List (Bytes × Datum D)) :
    ps.length ≤ (moreElements o ps).length := by
  induction ps with
  | nil => exact Nat.zero_le _
  | cons p ps ih =>
    rw [moreElements, List.flatMap_cons, List.length_append, List.length_cons, List.length_cons]
    rw [moreElements] at ih
    omega

theorem reads_empty_vector :
    Reads R (stack + 1) ([0x5B] ++ [] ++ blank o ++ [0x5D]) (.sequence .vector []) := by
  refine reads_word rfl (by decide) fun rest hrest => .peek (.advance _ ?_)
  refine .bind (takes_skipWhitespace (blank_spaces o) (.cons rfl _)) (.peek ?_)
  exact .advance _ (.pure _)

theorem reads_vector {p : Bytes × Datum D} {ps : List (Bytes × Datum D)}
    (hp : Reads R stack p.1 p.2) (hps : ∀ q ∈ ps, Reads R stack q.1 q.2) :
    Reads R (stack + 1) ([0x5B] ++ (blank o ++ p.1 ++ moreElements o ps) ++ blank o ++ [0x5D])
      (.sequence .vector ((p :: ps).map Prod.snd)) := by
  have htext : [0x5B] ++ (blank o ++ p.1 ++ moreElements o ps) ++ blank o ++ [0x5D] =
      0x5B :: (blank o ++ ([] ++ p.1 ++ (moreElements o ps ++ (blank o ++ [0x5D])))) := by simp
  rw [htext]
  refine reads_word rfl (by decide) fun rest hrest => .peek (.advance _ ?_)
  obtain ⟨c, t, hc, hspace, hclose⟩ := hp.starts
  refine .bind (takes_skipWhitespace (blank_spaces o) ?_) (.peek ?_)
  · rw [hc]
    exact .cons hspace _
  · have hhead : ([] ++ p.1 ++ (moreElements o ps ++ (blank o ++ [0x5D])) ++ rest).head? = some c := by
      rw [hc]
      rfl
    rw [hhead, if_neg (by simpa using hclose)]
    refine .fuel fun n hn => ?_
    refine (takes_arrayItems o ps hps hp (List.forall_mem_nil _) n ?_ [] rest).answer (.pure _)
    have hl := length_moreElements o ps
    simp only [List.length_append] at hn
    omega

end Vectors

/-! ### Maps -/

/-- A key, the text of its value and the value read from it. -/
structure Member (D : Type) where
  key : Bytes
  text : Bytes
  value : Datum D

def Member.entry (q : Member D) : Datum D × Datum D := (.string q.key, q.value)

section Maps
variable (o : WriteOptions D) {R : Runtime D E W} {stack : Nat}

def margin (depth : Nat) : Bytes := if o.pretty then newlineIndent depth else []

theorem margin_spaces (depth : Nat) : ∀ c ∈ margin o depth, isSpace c = true := by
  unfold margin
  split
  · intro c hc
    rcases List.mem_cons.mp hc with rfl | hc
    · rfl
    · rw [List.eq_of_mem_replicate hc]
      rfl
  · exact List.forall_mem_nil _

theorem margin_ends (depth : Nat) {c : UInt8} (hc : delimiter c = true) (rest : Bytes) :
    Ends (margin o depth ++ c :: rest) := by
  unfold margin
  split
  · exact .cons rfl _
  · exact .cons hc _

def Member.line (q : Member D) : Bytes :=
  stringText o q.key ++ (blank o ++ 0x3A :: (blank o ++ q.text))

/-- The text of the entries after the first. -/
def moreEntries (depth : Nat) (qs : List (Member D)) : Bytes :=
  qs.flatMap fun q => 0x2C :: (margin o depth ++ q.line o)

theorem keyText_string (P : Printer D E W) (ho : o.keyFn = none) (s : Bytes) :
    keyText P o (.string s) = pure s := by
  unfold keyText
  rw [ho]
  cases o.flavor <;> rfl

theorem entries_more {P : Printer D E W} (ho : o.keyFn = none) (depth : Nat)
    {value : Datum D → Write E W Bytes} {es : List (Datum D × Datum D)} {qs : List (Member D)}
    (h : List.Forall₂ (fun e (q : Member D) => e.1 = .string q.key ∧ value e.2 = pure q.text)
      es qs) : entries P o depth value false es = pure (moreEntries o depth qs) := by
  induction h with
  | nil => rfl
  | @cons e q es qs hx _ ih =>
    obtain ⟨k, v⟩ := e
    obtain ⟨rfl, hv⟩ := hx
    have hcons : moreEntries o depth (q :: qs) =
        0x2C :: (margin o depth ++ q.line o) ++ moreEntries o depth qs := rfl
    unfold entries
    simp only [Bool.false_eq_true, if_false]
    rw [keyText_string o P ho, pure_bind, hv, pure_bind, ih, pure_bind, hcons, Member.line, blank,
      margin]
    split <;> simp

theorem entries_first {P : Printer D E W} (ho : o.keyFn = none) (depth : Nat)
    {value : Datum D → Write E W Bytes} {e : Datum D × Datum D} {es : List (Datum D × Datum D)}
    {q : Member D} {qs : List (Member D)} (hk : e.1 = .string q.key) (hv : value e.2 = pure q.text)
    (h : List.Forall₂ (fun e (q : Member D) => e.1 = .string q.key ∧ value e.2 = pure q.text)
      es qs) : entries P o depth value true (e :: es) =
        pure (margin o depth ++ q.line o ++ moreEntries o depth qs) := by
  obtain ⟨k, v⟩ := e
  subst hk
  unfold entries
  simp only [if_true]
  rw [keyText_string o P ho, pure_bind, hv, pure_bind, entries_more o ho depth h, pure_bind,
    Member.line, blank, margin]
  split <;> simp

theorem takes_key {s : Bytes} (hs : Utf8 s) {ws : Bytes} (hws : ∀ c ∈ ws, isSpace c = true)
    (rest : Bytes) :
    Takes (key R.host {} : Parse E W (Datum D)) (ws ++ stringText o s) (.string s) rest := by
  refine .bind (takes_skipWhitespace hws (.cons (by decide) _)) (.peek (.advance _ ?_))
  exact (takes_stringText o hs rest).answer (.pure _)

theorem takes_objectEntry {q : Member D} (hk : Utf8 q.key) (hq : Reads R stack q.text q.value)
    {ws : Bytes} (hws : ∀ c ∈ ws, isSpace c = true) {rest : Bytes} (hrest : Ends rest) :
    Takes (objectEntry R.host {} (value R.host {} stack)) (ws ++ q.line o) (some q.entry) rest := by
  have htext : ws ++ q.line o =
      ws ++ stringText o q.key ++ (blank o ++ ([0x3A] ++ (blank o ++ q.text))) := by
    simp [Member.line]
  rw [htext]
  refine .bind (takes_key o hk hws _) ?_
  refine .bind (takes_skipWhitespace (blank_spaces o) (.cons rfl _)) ?_
  have hcolon : Takes (expect 0x3A "':' after an object key" : Parse E W Unit) [0x3A] ()
      (blank o ++ q.text ++ rest) := by
    refine .peek ?_
    rw [List.cons_append, List.head?_cons, if_pos rfl]
    intro r hr hu
    have hd : r.data = _ := (Source.unread_eq_data hr).symm.trans hu
    exact ⟨advanced r, rfl, hr, Source.unread_advance hd hu, rfl⟩
  refine .bind hcolon ?_
  exact (hq.takes (blank o) rest (blank_spaces o) hrest).answer (.pure _)

theorem takes_objectItems (outer depth : Nat) (qs : List (Member D))
    (hqs : ∀ q ∈ qs, Utf8 q.key ∧ Reads R stack q.text q.value) {q : Member D} (hk : Utf8 q.key)
    (hq : Reads R stack q.text q.value) {ws : Bytes} (hws : ∀ c ∈ ws, isSpace c = true) (n : Nat)
    (hn : qs.length < n) (batch : Batch (Datum D)) (rest : Bytes) :
    Takes (objectItems R.host {} (value R.host {} stack) n batch)
      (ws ++ q.line o ++ (moreEntries o depth qs ++ (margin o outer ++ [0x7D])))
      (((q :: qs).map Member.entry).foldl (fun b e => b.push R.host e) batch) rest := by
  induction qs generalizing q ws n batch with
  | nil =>
    obtain ⟨n, rfl⟩ := Nat.exists_eq_succ_of_ne_zero (Nat.ne_of_gt hn)
    have hends : Ends (margin o outer ++ [0x7D] ++ rest) := by
      rw [List.append_assoc]
      exact margin_ends o outer rfl rest
    have hnone : moreEntries o depth [] ++ (margin o outer ++ [0x7D]) = margin o outer ++ [0x7D] :=
      rfl
    rw [hnone]
    unfold objectItems
    refine .bind (takes_objectEntry o hk hq hws hends) ?_
    refine .bind (takes_skipWhitespace (margin_spaces o outer) (.cons rfl _)) (.peek ?_)
    exact .advance _ (.pure _)
  | cons q' qs ih =>
    obtain ⟨n, rfl⟩ := Nat.exists_eq_succ_of_ne_zero (Nat.ne_of_gt (Nat.zero_lt_of_lt hn))
    obtain ⟨hk', hq'⟩ := hqs q' List.mem_cons_self
    have ih := ih (fun r hr => hqs r (List.mem_cons_of_mem q' hr)) hk' hq'
      (margin_spaces o depth) n (Nat.lt_of_succ_lt_succ hn) (batch.push R.host q.entry)
    have htext : moreEntries o depth (q' :: qs) ++ (margin o outer ++ [0x7D]) =
        [] ++ 0x2C :: (margin o depth ++ q'.line o ++
          (moreEntries o depth qs ++ (margin o outer ++ [0x7D]))) := by
      simp [moreEntries]
    rw [htext]
    unfold objectItems
    refine .bind (takes_objectEntry o hk hq hws (.cons rfl _)) ?_
    refine .bind (takes_skipWhitespace (List.forall_mem_nil _) (.cons rfl _)) (.peek ?_)
    exact .advance _ ih

theorem length_moreEntries (depth : Nat) (qs : List (Member D)) :
    qs.length ≤ (moreEntries o depth qs).length := by
  induction qs with
  | nil => exact Nat.zero_le _
  | cons q qs ih =>
    have hcons : moreEntries o depth (q :: qs) =
        0x2C :: (margin o depth ++ q.line o) ++ moreEntries o depth qs := rfl
    rw [hcons, List.length_append, List.length_cons, List.length_cons]
    omega

theorem assocPairs_nil (hR : R.InsertsPairs) : R.assocPairs [] [] = [] :=
  (hR [] [] (List.forall_mem_nil _) List.Pairwise.nil).eq_nil

theorem reads_empty_map (hR : R.InsertsPairs) :
    Reads R (stack + 1) (if o.pretty then [0x7B, 0x20, 0x7D] else [0x7B, 0x7D]) (.map []) := by
  have htext : (if o.pretty then [0x7B, 0x20, 0x7D] else [0x7B, 0x7D]) =
      0x7B :: (blank o ++ [0x7D]) := by
    unfold blank
    split <;> rfl
  have hempty : R.host.mapAssocPairs none [] = .map [] := congrArg Datum.map (assocPairs_nil hR)
  rw [htext]
  refine reads_word rfl (by decide) fun rest hrest => .peek (.advance _ ?_)
  refine .bind (takes_skipWhitespace (blank_spaces o) (.cons rfl _)) (.peek ?_)
  rw [← hempty]
  exact .advance _ (.pure _)

/-- The members of an object are read into a map of them. -/
theorem reads_map (hR : R.InsertsPairs) (outer depth : Nat) {q : Member D} {qs : List (Member D)}
    (hq : ∀ r ∈ q :: qs, Utf8 r.key ∧ Reads R stack r.text r.value)
    (hd : ((q :: qs).map Member.key).Nodup) :
    ∃ es, ((q :: qs).map Member.entry).Perm es ∧
      Reads R (stack + 1) ([0x7B] ++ (margin o depth ++ q.line o ++ moreEntries o depth qs) ++
        margin o outer ++ [0x7D]) (.map es) := by
  have hstrings : ∀ e ∈ [] ++ (q :: qs).map Member.entry, ∃ s, e.1 = .string s := by
    intro e he
    obtain ⟨r, -, rfl⟩ := List.mem_map.mp he
    exact ⟨r.key, rfl⟩
  have hnodup : (([] ++ (q :: qs).map Member.entry).map Prod.fst).Nodup := by
    have hkeys : ([] ++ (q :: qs).map Member.entry).map Prod.fst =
        ((q :: qs).map Member.key).map Datum.string := by
      rw [List.nil_append, List.map_map, List.map_map]
      rfl
    rw [hkeys]
    exact hd.map fun _ _ h => Datum.string.inj h
  have hstart : ({ folded := R.host.mapAssocPairs none [] } : Batch (Datum D)).Holds [] :=
    ⟨[], congrArg Datum.map (assocPairs_nil hR), .nil⟩
  have hall := hstart.pushes hR hstrings hnodup
  rw [List.nil_append] at hstrings hnodup hall
  obtain ⟨⟨es, hes, hperm⟩, hpending⟩ := hall.fold hR hstrings hnodup
  rw [hpending, List.append_nil] at hperm
  refine ⟨es, hperm.symm, ?_⟩
  have htext : [0x7B] ++ (margin o depth ++ q.line o ++ moreEntries o depth qs) ++
      margin o outer ++ [0x7D] =
      0x7B :: (margin o depth ++ ([] ++ q.line o ++
        (moreEntries o depth qs ++ (margin o outer ++ [0x7D])))) := by simp
  rw [htext]
  refine reads_word rfl (by decide) fun rest hrest => .peek (.advance _ ?_)
  refine .bind (takes_skipWhitespace (margin_spaces o depth) (.cons (by decide) _)) (.peek ?_)
  refine .fuel fun n hn => ?_
  obtain ⟨hk, hv⟩ := hq q List.mem_cons_self
  refine (takes_objectItems o outer depth qs (fun r hr => hq r (List.mem_cons_of_mem q hr)) hk hv
    (List.forall_mem_nil _) n ?_ _ rest).answer ?_
  · have hl := length_moreEntries o depth qs
    simp only [List.length_append] at hn
    omega
  · rw [hes]
    exact .pure _

end Maps

/-! ### Documents -/

section Documents
variable {R : Runtime D E W} (o : WriteOptions D)

theorem Datum.stack_succ {v : Datum D} {stack : Nat} (h : v.depth ≤ stack) :
    ∃ n, stack = n + 1 :=
  Nat.exists_eq_succ_of_ne_zero (Nat.ne_of_gt (Nat.lt_of_lt_of_le v.depth_pos h))

theorem doubleText_finite (P : Printer D E W) {d : D} (hd : P.floats.finite d) :
    doubleText P o d = pure (formatDouble P.floats d) := by
  unfold doubleText
  rw [hd.1, hd.2]
  rfl

/-- What is written for the elements of a vector and read back from it. -/
theorem vector_reads {items : List (Datum D)} {value : Datum D → Write E W Bytes} {stack : Nat}
    {ps : List (Bytes × Datum D)}
    (h : List.Forall₂ (fun x p => value x = pure p.1 ∧ x.Equal p.2 ∧ Reads R stack p.1 p.2)
      items ps) :
    ∃ text v', sequence o value items = pure text ∧ (Datum.sequence .vector items).Equal v' ∧
      Reads R (stack + 1) text v' := by
  have hequal : (Datum.sequence .vector items).Equal (.sequence .vector (ps.map Prod.snd)) := by
    have hf : List.Forall₂ Datum.Equal items (ps.map Prod.snd) :=
      List.forall₂_map_right_iff.mpr (h.imp fun _ _ hx => hx.2.1)
    obtain ⟨hl, hz⟩ := List.forall₂_iff_zip.mp hf
    exact .vector hl fun p hp => hz hp
  have hwrites := h.imp fun _ _ hx => hx.1
  unfold sequence
  cases h with
  | nil => exact ⟨_, _, rfl, hequal, reads_empty_vector o⟩
  | @cons x p items ps hx hxs =>
    obtain ⟨hx, -, hp⟩ := hx
    have hps : ∀ q ∈ ps, Reads R stack q.1 q.2 := forall_right hxs fun _ _ h => h.2.2
    rw [elements_first o hx (hxs.imp fun _ _ hx => hx.1), pure_bind]
    exact ⟨_, _, rfl, hequal, reads_vector o hp hps⟩

/-- What is written for the entries of a map and read back from it. -/
theorem map_reads (hR : R.InsertsPairs) (ho : o.keyFn = none) {es : List (Datum D × Datum D)}
    {value : Datum D → Write E W Bytes} {stack : Nat} (depth : Nat) {qs : List (Member D)}
    (hd : (es.map Prod.fst).Nodup)
    (h : List.Forall₂ (fun e (q : Member D) => (e.1 = .string q.key ∧ value e.2 = pure q.text) ∧
      e.2.Equal q.value ∧ Utf8 q.key ∧ Reads R stack q.text q.value) es qs) :
    ∃ text v', map R.toPrinter o depth value es = pure text ∧ (Datum.map es).Equal v' ∧
      Reads R (stack + 1) text v' := by
  have hkeys : es.map Prod.fst = (qs.map Member.key).map Datum.string := by
    clear hd
    induction h with
    | nil => rfl
    | cons hx _ ih => rw [List.map_cons, List.map_cons, List.map_cons, ih, hx.1.1]
  have hfst : es.map Prod.fst = (qs.map Member.entry).map Prod.fst := by
    rw [hkeys, List.map_map, List.map_map]
    rfl
  have hvalues : ∀ p ∈ es.zip (qs.map Member.entry), p.1.2.Equal p.2.2 := by
    have hf : List.Forall₂ (fun e f : Datum D × Datum D => e.2.Equal f.2) es
        (qs.map Member.entry) :=
      List.forall₂_map_right_iff.mpr (h.imp fun _ _ hx => hx.2.1)
    exact fun p hp => (List.forall₂_iff_zip.mp hf).2 hp
  unfold map
  cases h with
  | nil =>
    refine ⟨_, _, rfl, .refl _, ?_⟩
    exact reads_empty_map o hR
  | @cons e q es qs hx hxs =>
    obtain ⟨⟨hk, hv⟩, -, hutf, hread⟩ := hx
    have hall : ∀ r ∈ q :: qs, Utf8 r.key ∧ Reads R stack r.text r.value :=
      List.forall_mem_cons.mpr ⟨⟨hutf, hread⟩, forall_right hxs fun _ _ h => h.2.2⟩
    have hnodup : ((q :: qs).map Member.key).Nodup := by
      rw [hkeys] at hd
      exact List.Nodup.of_map _ hd
    obtain ⟨gs, hperm, hreads⟩ := reads_map o hR depth (depth + 1) hall hnodup
    rw [if_neg (List.cons_ne_nil _ _),
      entries_first o ho (depth + 1) hk hv (hxs.imp fun _ _ hx => hx.1), pure_bind]
    exact ⟨_, _, rfl, .map hfst hvalues hperm, hreads⟩

theorem valueText_reads (hF : R.floats.Lawful) (hR : R.InsertsPairs) (ho : o.keyFn = none)
    {v : Datum D} (hv : Codable R.floats v) (stack stack' depth : Nat) (hs : v.depth ≤ stack)
    (hs' : v.depth ≤ stack') :
    ∃ text v', valueText R.toPrinter o stack depth v = pure text ∧ v.Equal v' ∧
      Reads R stack' text v' := by
  induction hv generalizing stack stack' depth with
  | nil =>
    obtain ⟨⟨stack, rfl⟩, ⟨stack', rfl⟩⟩ := And.intro (Datum.stack_succ hs) (Datum.stack_succ hs')
    exact ⟨_, _, rfl, .refl _, reads_nil⟩
  | bool b =>
    obtain ⟨⟨stack, rfl⟩, ⟨stack', rfl⟩⟩ := And.intro (Datum.stack_succ hs) (Datum.stack_succ hs')
    cases b with
    | true => exact ⟨_, _, rfl, .refl _, reads_true⟩
    | false => exact ⟨_, _, rfl, .refl _, reads_false⟩
  | integer n =>
    obtain ⟨⟨stack, rfl⟩, ⟨stack', rfl⟩⟩ := And.intro (Datum.stack_succ hs) (Datum.stack_succ hs')
    exact ⟨_, _, rfl, .refl _, reads_integer n⟩
  | double hd =>
    obtain ⟨⟨stack, rfl⟩, ⟨stack', rfl⟩⟩ := And.intro (Datum.stack_succ hs) (Datum.stack_succ hs')
    exact ⟨_, _, doubleText_finite o R.toPrinter hd, .refl _, reads_double hF hd⟩
  | string hstr =>
    obtain ⟨⟨stack, rfl⟩, ⟨stack', rfl⟩⟩ := And.intro (Datum.stack_succ hs) (Datum.stack_succ hs')
    exact ⟨_, _, rfl, .refl _, reads_string o hstr⟩
  | @vector items hi ih =>
    obtain ⟨⟨stack, rfl⟩, ⟨stack', rfl⟩⟩ := And.intro (Datum.stack_succ hs) (Datum.stack_succ hs')
    rw [Datum.depth] at hs hs'
    have hall : ∀ x ∈ items, ∃ p : Bytes × Datum D,
        valueText R.toPrinter o stack depth x = pure p.1 ∧ x.Equal p.2 ∧ Reads R stack' p.1 p.2 := by
      intro x hx
      have hle := Datum.depth_le_items hx
      obtain ⟨text, v', h⟩ := ih x hx stack stack' depth (by omega) (by omega)
      exact ⟨(text, v'), h⟩
    obtain ⟨ps, hps⟩ := exists_forall₂ hall
    exact vector_reads o hps
  | @map es hk hd hv ih =>
    obtain ⟨⟨stack, rfl⟩, ⟨stack', rfl⟩⟩ := And.intro (Datum.stack_succ hs) (Datum.stack_succ hs')
    rw [Datum.depth] at hs hs'
    have hall : ∀ e ∈ es, ∃ q : Member D,
        (e.1 = .string q.key ∧ valueText R.toPrinter o stack (depth + 1) e.2 = pure q.text) ∧
          e.2.Equal q.value ∧ Utf8 q.key ∧ Reads R stack' q.text q.value := by
      intro e he
      have hle := Datum.depth_le_entries he
      obtain ⟨s, hes, hutf⟩ := hk e he
      obtain ⟨text, v', hw, heq, hr⟩ := ih e he stack stack' (depth + 1) (by omega) (by omega)
      exact ⟨⟨s, text, v'⟩, ⟨hes, hw⟩, heq, hutf, hr⟩
    obtain ⟨qs, hqs⟩ := exists_forall₂ hall
    exact map_reads o hR ho depth hd hqs

theorem takes_firstValue {stack : Nat} {text : Bytes} {v : Datum D} (h : Reads R stack text v)
    {req : Request (Datum D)} (hreq : req.opts = {}) :
    Takes (firstValue R.host req stack) text v [] := by
  obtain ⟨c, t, htext, hspace, -⟩ := h.starts
  have hmore : Takes (more : Parse E W Bool) [] true (text ++ []) := by
    refine (takes_skipWhitespace (List.forall_mem_nil _) ?_).answer (.peek ?_)
    · rw [htext]
      exact .cons hspace _
    · rw [htext]
      exact .pure _
  have hvalue : Takes (value R.host req.opts stack) text v [] := by
    rw [hreq]
    exact h.takes [] [] (List.forall_mem_nil _) .nil
  have hend : Takes (more : Parse E W Bool) [] false [] :=
    (takes_skipWhitespace (List.forall_mem_nil _) .nil).answer (.peek (.pure _))
  unfold firstValue
  refine .bind hmore ?_
  rw [if_pos rfl]
  refine hvalue.answer ?_
  cases req.trailing with
  | ignore => exact .pure _
  | reject =>
    refine hend.answer ?_
    rw [if_neg Bool.false_ne_true]
    exact .pure _

/-- A document's value is written, and every way of reading the text answers it, to its end. -/
theorem readJson_writeJson (hF : R.floats.Lawful) (hR : R.InsertsPairs) (ho : o.keyFn = none)
    {v : Datum D} (hv : Codable R.floats v) (stack stack' : Nat) (hs : v.depth ≤ stack)
    (hs' : v.depth ≤ stack') :
    ∃ text v', (∀ w, writeJson R.toPrinter o stack v w = .ok text w) ∧ v.Equal v' ∧
      ∀ req, req.opts = {} → ∀ w,
        (readJson R.host req stack' (.ofString text) w).result = .ok v' := by
  obtain ⟨text, v', hw, heq, hr⟩ := valueText_reads o hF hR ho hv stack stack' 0 hs hs'
  refine ⟨text, v', fun w => ?_, heq, fun req hreq w => ?_⟩
  · rw [writeJson, hw]
    rfl
  · have hu : ({ Source.ofString text with world := w } : Reading W).unread = text ++ [] := by
      simp [Source.unread, Source.ofString, Source.data]
    obtain ⟨r', hf, -, -, -⟩ := takes_firstValue hr hreq _ rfl hu
    unfold readJson
    rw [hf]

end Documents

/-! ### The two zeros -/

/-- The doubles 0.0 and -0.0, by their sign bit. -/
def zeros : Floats Bool where
  isNaN _ := false
  isInf _ := false
  positive _ := false
  signbit d := d
  fabs _ := false
  isZero _ := true
  same _ _ := true
  toCharsScientific _ _ := [0x30, 0x65, 0x2B, 0x30, 0x30]
  strtod t := t.head? == some 0x2D

theorem zeros_strtod {t : Bytes} {x : Numeral} (h : x.Spells t) : zeros.strtod t = false := by
  obtain ⟨e, rfl, -⟩ := h
  obtain ⟨c, ds, hint⟩ := List.exists_cons_of_ne_nil x.int_ne
  have hc : isDigit c = true := x.int_digits c (by rw [hint]; exact List.mem_cons_self)
  rw [hint]
  show (some c == some 0x2D) = false
  rw [beq_eq_false_iff_ne]
  intro h
  rw [Option.some.inj h] at hc
  cases hc

theorem zeros_lawful : zeros.Lawful where
  strtod_value h h' _ := (zeros_strtod h).trans (zeros_strtod h').symm
  strtod_minus _ _ _ h := h.symm
  fabs _ h := h.symm
  same h := nomatch h
  zero _ _ := rfl
  shortest _ h := nomatch h
  precise _ _ h := nomatch h

def zerosRuntime : Runtime Bool Empty Unit where
  floats := zeros
  printed _ := []
  invoke f _ w := (.ok f, w)
  assocPairs es kv := kv.foldl (fun m e => KeyedMap.insert stringKeys m e.1 e.2) es
  same _ _ := false

/-- `{"é" [1 -0.0]}`, pretty and in ASCII. -/
theorem readJson_writeJson_map :
    let v : Datum Bool := .map
      [(.string [0xC3, 0xA9], .sequence .vector [.integer 1, .double true])]
    ∃ text v', (∀ w, writeJson zerosRuntime.toPrinter
        { flavor := .dataJson, pretty := true, escapeNonAscii := true } 3 v w = .ok text w) ∧
      v.Equal v' ∧ ∀ req, req.opts = {} → ∀ w,
        (readJson zerosRuntime.host req 3 (.ofString text) w).result = .ok v' :=
  readJson_writeJson _ zeros_lawful (fun _ _ _ _ => .refl _) rfl
    (.map
      (fun e he => by
        rw [List.mem_singleton.mp he]
        exact ⟨_, rfl, ['é'], by decide⟩)
      (by simp)
      fun e he => by
        rw [List.mem_singleton.mp he]
        refine .vector fun x hx => ?_
        rcases List.mem_cons.mp hx with rfl | hx
        · exact .integer 1
        · rw [List.mem_singleton.mp hx]
          exact .double ⟨rfl, rfl⟩)
    3 3 (by decide) (by decide)

def nested : Nat → Datum D
  | 0 => .sequence .vector []
  | n + 1 => .sequence .vector [nested n]

theorem codable_nested (F : Floats D) (n : Nat) : Codable F (nested n) := by
  induction n with
  | zero => exact .vector (List.forall_mem_nil _)
  | succ n ih => exact .vector (List.forall_mem_singleton.mpr ih)

theorem valueText_nested (P : Printer D E W) (o : WriteOptions D) (n depth : Nat) (w : W) :
    valueText P o n depth (nested n) w = .error .stackOverflow w := by
  induction n generalizing depth with
  | zero => rfl
  | succ n ih =>
    have hitems : elements o (valueText P o n depth) true [nested n] w =
        .error .stackOverflow w := by
      unfold elements
      show EStateM.bind _ _ w = _
      unfold EStateM.bind
      rw [ih]
    show EStateM.bind _ _ w = _
    unfold EStateM.bind
    rw [hitems]

/-- Any native stack is too small for some vector. -/
theorem writeJson_nested (stack : Nat) :
    Codable zeros (nested stack) ∧
      writeJson zerosRuntime.toPrinter {} stack (nested stack) () = .error .stackOverflow () :=
  ⟨codable_nested zeros stack, valueText_nested _ _ stack 0 ()⟩

theorem writeJson_deep :
    Codable zeros (nested 100000) ∧
      writeJson zerosRuntime.toPrinter {} 100000 (nested 100000) () = .error .stackOverflow () :=
  writeJson_nested 100000

end ProtoClojure.Json
