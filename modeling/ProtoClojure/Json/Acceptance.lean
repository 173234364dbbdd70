import ProtoClojure.Json.Answers
import ProtoClojure.Json.Denotation

/-! The texts the parser accepts, and what it reads from them. -/

namespace ProtoClojure.Json
open Decimal

variable {D E W : Type}

/-! ### What an accepted text is -/

theorem isSpace_iff {c : UInt8} :
    isSpace c = true ↔ c = 0x20 ∨ c = 0x09 ∨ c = 0x0A ∨ c = 0x0D := by
  simp only [isSpace, Bool.or_eq_true, beq_iff_eq]
  tauto

theorem answers_blank {u : Bytes} :
    Answers (skipWhitespace : Parse E W Unit) u fun _ rest => ∃ ws, u = ws ++ rest ∧ Blank ws := by
  refine answers_skipWhitespace.mono ?_
  rintro - rest ⟨ws, rfl, hws⟩
  exact ⟨ws, rfl, fun c hc => isSpace_iff.mp (hws c hc)⟩

section Sound
variable {R : Runtime D E W} {stack : Nat} {u : Bytes}

/-- Of `u`, blanks and a value nested within `stack` are taken, and `v` is what it denotes. -/
def Accepted (R : Runtime D E W) (stack : Nat) (u : Bytes) (v : Datum D) (rest : Bytes) : Prop :=
  ∃ ws text doc, u = ws ++ (text ++ rest) ∧ Blank ws ∧ IsValue text doc ∧ doc.depth ≤ stack ∧
    (doc.denote R.floats).Equal v

theorem numberValue_integer (t : Bytes) :
    numberValue R.host false t = .integer (integerValue t) := by
  unfold numberValue
  rw [if_neg Bool.false_ne_true]
  split <;> rfl

theorem decimalText_spells (x : Numeral) : x.Spells (Doc.decimalText x) :=
  ⟨_, rfl, .inr (Numeral.exponentText_intText x.exp)⟩

theorem NumberRead.denotes (hF : ReadsSpelled R.floats) {t : Bytes} {v : Datum D}
    (h : NumberRead R.host t v) :
    ∃ doc, IsValue t doc ∧ doc.depth = 1 ∧ doc.denote R.floats = v := by
  cases h with
  | integer negative hne hd hz =>
    exact ⟨_, .integer negative hne hd hz, rfl, (numberValue_integer _).symm⟩
  | @decimal t t' x negative hx hne hz hx' =>
    refine ⟨_, .decimal negative hx hne hz, rfl, ?_⟩
    exact congrArg Datum.double (hF negative x _ _ (decimalText_spells x) hx')

/-- A value that stands after the blanks `ws`. -/
theorem accepted_of_value {ws text rest : Bytes} {doc : Doc} {v : Datum D} (hws : Blank ws)
    (h : IsValue text doc) (hd : doc.depth ≤ stack) (hv : (doc.denote R.floats).Equal v) :
    Accepted R stack (ws ++ (text ++ rest)) v rest := ⟨ws, text, doc, rfl, hws, h, hd, hv⟩

theorem answers_arrayItems {value : Parse E W (Datum D)}
    (hvalue : ∀ u, Answers value u (Accepted R stack u)) (n : Nat) (hn : u.length < n)
    (items : List (Datum D)) :
    Answers (arrayItems value n items) u fun vs rest =>
      ∃ t ds us, u = t ++ 0x5D :: rest ∧ Listing IsValue t ds ∧ (∀ d ∈ ds, d.depth ≤ stack) ∧
        List.Forall₂ (fun d v => (Doc.denote R.floats d).Equal v) ds us ∧ vs = items ++ us := by
  induction n generalizing u items with
  | zero => exact absurd hn (Nat.not_lt_zero _)
  | succ n ih =>
    unfold arrayItems
    refine (hvalue u).bind ?_
    rintro v w ⟨ws, text, doc, rfl, hws, hdoc, hdepth, hv⟩
    refine answers_blank.bind ?_
    rintro - w ⟨ws', rfl, hws'⟩
    apply Answers.peek
    split
    · rename_i hc
      obtain ⟨w, rfl⟩ := eq_cons_of_head hc
      refine .advance ((ih ?_ (items ++ [v])).mono ?_)
      · simp only [List.length_append, List.length_cons] at hn
        omega
      · rintro vs rest ⟨t, ds, us, rfl, hlist, hds, hus, rfl⟩
        refine ⟨ws ++ (text ++ (ws' ++ 0x2C :: t)), doc :: ds, v :: us, by simp,
          .more hws hdoc hws' hlist, List.forall_mem_cons.mpr ⟨hdepth, hds⟩, .cons hv hus, ?_⟩
        simp
    · split
      · rename_i hc
        obtain ⟨w, rfl⟩ := eq_cons_of_head hc
        exact .advance (.pure ⟨ws ++ (text ++ ws'), [doc], [v], by simp, .last hws hdoc hws',
          List.forall_mem_singleton.mpr hdepth, .cons hv .nil, rfl⟩)
      · split
        · exact .fail _
        · exact .fail _

theorem array_denotes {ds : List Doc} {vs : List (Datum D)}
    (h : List.Forall₂ (fun d v => (Doc.denote R.floats d).Equal v) ds vs) :
    (Doc.denote R.floats (.array ds)).Equal (.sequence .vector vs) := by
  have hmap : List.Forall₂ Datum.Equal (ds.map (Doc.denote R.floats)) vs :=
    List.forall₂_map_left_iff.mpr h
  obtain ⟨hl, hz⟩ := List.forall₂_iff_zip.mp hmap
  rw [Doc.denote, Doc.denoteItems_eq]
  exact .vector hl fun p hp => hz hp

/-- The parts of what is taken, as they are read. -/
theorem accepted_brackets {o c : UInt8} {ws t rest : Bytes} {doc : Doc} {v : Datum D}
    (hws : Blank ws) (h : IsValue (o :: (t ++ [c])) doc) (hd : doc.depth ≤ stack)
    (hv : (doc.denote R.floats).Equal v) :
    Accepted R stack (ws ++ o :: (t ++ c :: rest)) v rest := by
  have hsplit : ws ++ o :: (t ++ c :: rest) = ws ++ ((o :: (t ++ [c])) ++ rest) := by simp
  rw [hsplit]
  exact accepted_of_value hws h hd hv

theorem answers_array {value : Parse E W (Datum D)}
    (hvalue : ∀ u, Answers value u (Accepted R stack u)) {ws : Bytes} (hws : Blank ws) :
    Answers (array R.host value) u fun v rest =>
      Accepted R (stack + 1) (ws ++ 0x5B :: u) v rest := by
  refine answers_blank.bind ?_
  rintro - w ⟨ws', rfl, hws'⟩
  apply Answers.peek
  split
  · rename_i hc
    obtain ⟨w, rfl⟩ := eq_cons_of_head hc
    refine .advance (.pure ?_)
    exact accepted_brackets hws (.emptyArray hws') (Nat.succ_le_succ (Nat.zero_le _))
      (array_denotes .nil)
  · refine .fuel fun n hn => (answers_arrayItems hvalue n hn []).bind ?_
    rintro vs rest ⟨t, ds, us, rfl, hlist, hds, hus, rfl⟩
    refine .pure ?_
    -- The blanks after the bracket are the first item's own.
    have hlist' : Listing IsValue (ws' ++ t) ds := hlist.blank hws'
    rw [← List.append_assoc]
    exact accepted_brackets hws (.array hlist') (Nat.succ_le_succ (Doc.itemsDepth_le.mpr hds))
      (array_denotes hus)

theorem answers_key :
    Answers (key R.host {} : Parse E W (Datum D)) u fun v rest =>
      ∃ ws t k, u = ws ++ quote :: (t ++ quote :: rest) ∧ Blank ws ∧ StringText t k ∧
        v = .string k := by
  refine answers_blank.bind ?_
  rintro - w ⟨ws, rfl, hws⟩
  apply Answers.peek
  split
  · rename_i hc
    obtain ⟨w, rfl⟩ := eq_cons_of_head hc
    refine .advance (answers_string.bind ?_)
    rintro k rest ⟨t, rfl, ht⟩
    exact .pure ⟨ws, t, k, rfl, hws, ht, rfl⟩
  · split
    · exact .fail _
    · exact .fail _

theorem answers_objectEntry {value : Parse E W (Datum D)}
    (hvalue : ∀ u, Answers value u (Accepted R stack u)) :
    Answers (objectEntry R.host {} value) u fun entry rest =>
      ∃ ws text m e, entry = some e ∧ u = ws ++ (text ++ rest) ∧ Blank ws ∧
        Pair IsValue text m ∧ m.2.depth ≤ stack ∧ ReadMember R.floats m e := by
  refine answers_key.bind ?_
  rintro _ w ⟨ws, t, k, rfl, hws, hk, rfl⟩
  refine answers_blank.bind ?_
  rintro - w ⟨before, rfl, hbefore⟩
  refine (answers_expect _ _).bind ?_
  rintro - w rfl
  refine (hvalue w).bind ?_
  rintro v rest ⟨after, text, doc, rfl, hafter, hdoc, hdepth, hv⟩
  refine .pure ⟨ws, quote :: (t ++ quote :: (before ++ 0x3A :: (after ++ text))), (k, doc),
    (.string k, v), rfl, by simp, hws, .mk hk hbefore hafter hdoc, hdepth, rfl, hv⟩

theorem answers_objectItems {value : Parse E W (Datum D)}
    (hvalue : ∀ u, Answers value u (Accepted R stack u)) (n : Nat) (hn : u.length < n)
    (batch : Batch (Datum D)) :
    Answers (objectItems R.host {} value n batch) u fun b rest =>
      ∃ t ms es, u = t ++ 0x7D :: rest ∧ Listing (Pair IsValue) t ms ∧
        (∀ m ∈ ms, m.2.depth ≤ stack) ∧ List.Forall₂ (ReadMember R.floats) ms es ∧
        b = es.foldl (fun b e => b.push R.host e) batch := by
  induction n generalizing u batch with
  | zero => exact absurd hn (Nat.not_lt_zero _)
  | succ n ih =>
    unfold objectItems
    refine (answers_objectEntry hvalue).bind ?_
    rintro _ w ⟨ws, text, m, e, rfl, rfl, hws, hm, hdepth, he⟩
    refine answers_blank.bind ?_
    rintro - w ⟨ws', rfl, hws'⟩
    apply Answers.peek
    split
    · rename_i hc
      obtain ⟨w, rfl⟩ := eq_cons_of_head hc
      refine .advance ((ih ?_ (batch.push R.host e)).mono ?_)
      · simp only [List.length_append, List.length_cons] at hn
        omega
      · rintro b rest ⟨t, ms, es, rfl, hlist, hms, hes, rfl⟩
        exact ⟨ws ++ (text ++ (ws' ++ 0x2C :: t)), m :: ms, e :: es, by simp,
          .more hws hm hws' hlist, List.forall_mem_cons.mpr ⟨hdepth, hms⟩, .cons he hes, rfl⟩
    · split
      · rename_i hc
        obtain ⟨w, rfl⟩ := eq_cons_of_head hc
        exact .advance (.pure ⟨ws ++ (text ++ ws'), [m], [e], by simp, .last hws hm hws',
          List.forall_mem_singleton.mpr hdepth, .cons he .nil, rfl⟩)
      · split
        · exact .fail _
        · exact .fail _

theorem answers_object (hR : R.InsertsPairs) {value : Parse E W (Datum D)}
    (hvalue : ∀ u, Answers value u (Accepted R stack u)) {ws : Bytes} (hws : Blank ws) :
    Answers (object R.host {} value) u fun v rest =>
      Accepted R (stack + 1) (ws ++ 0x7B :: u) v rest := by
  refine answers_blank.bind ?_
  rintro - w ⟨ws', rfl, hws'⟩
  apply Answers.peek
  split
  · rename_i hc
    obtain ⟨w, rfl⟩ := eq_cons_of_head hc
    refine .advance (.pure ?_)
    exact accepted_brackets hws (.emptyObject hws') (Nat.succ_le_succ (Nat.zero_le _))
      (object_denotes hR (collects_nil hR) .nil)
  · refine .fuel fun n hn => (answers_objectItems hvalue n hn _).bind ?_
    rintro b rest ⟨t, ms, es, rfl, hlist, hms, hes, rfl⟩
    refine .pure ?_
    have hlist' : Listing (Pair IsValue) (ws' ++ t) ms := hlist.blank hws'
    rw [← List.append_assoc]
    exact accepted_brackets hws (.object hlist') (Nat.succ_le_succ (Doc.membersDepth_le.mpr hms))
      (object_denotes hR (collects_nil hR) hes)

/-- What is read as a value is one, and its answer what it denotes. -/
theorem answers_value (hF : ReadsSpelled R.floats) (hR : R.InsertsPairs) (stack : Nat) :
    ∀ u, Answers (value R.host {} stack) u (Accepted R stack u) := by
  induction stack with
  | zero =>
    intro u r _ _ a r' hok
    cases hok
  | succ stack ih =>
    intro u
    have hpos : ∀ {doc : Doc}, doc.depth = 1 → doc.depth ≤ stack + 1 := fun h => by omega
    unfold value
    refine answers_blank.bind ?_
    rintro - w ⟨ws, rfl, hws⟩
    apply Answers.peek
    split
    · rename_i hc
      obtain ⟨w, rfl⟩ := eq_cons_of_head hc
      exact .advance (answers_object hR ih hws)
    split
    · rename_i hc
      obtain ⟨w, rfl⟩ := eq_cons_of_head hc
      exact .advance (answers_array ih hws)
    split
    · rename_i hc
      obtain ⟨w, rfl⟩ := eq_cons_of_head hc
      refine .advance (answers_string.bind ?_)
      rintro o rest ⟨t, rfl, ht⟩
      exact .pure (accepted_brackets hws (.string ht) (hpos rfl) (.refl _))
    split
    · refine (answers_word _).bind ?_
      rintro - rest rfl
      exact .pure (accepted_of_value hws .true_ (hpos rfl) (.refl _))
    split
    · refine (answers_word _).bind ?_
      rintro - rest rfl
      exact .pure (accepted_of_value hws .false_ (hpos rfl) (.refl _))
    split
    · refine (answers_word _).bind ?_
      rintro - rest rfl
      exact .pure (accepted_of_value hws .null (hpos rfl) (.refl _))
    split
    · refine (answers_number R.host).mono ?_
      rintro v rest ⟨t, rfl, ht⟩
      obtain ⟨doc, hdoc, hdepth, rfl⟩ := ht.denotes hF
      exact accepted_of_value hws hdoc (hpos hdepth) (.refl _)
    · refine Answers.peek ?_
      cases w with
      | nil => exact .fail _
      | cons c w =>
        rw [List.head?_cons]
        dsimp only
        split
        · exact (Refuses.bind fun _ => refuses_fail _).answers
        · exact .fail _

end Sound

/-! ### Strings of the grammar -/

theorem takes_hexDigits {q : Bytes} {ds : List Nat} (h : List.Forall₂ IsHex q ds) (v : Nat)
    (rest : Bytes) :
    Takes (hexDigits q.length v : Parse E W Nat) q (hexValue ds v) rest := by
  induction h generalizing v with
  | nil => exact .pure v
  | @cons c d q ds hc _ ih =>
    rw [List.length_cons]
    unfold hexDigits
    apply Takes.peek
    rw [List.cons_append, List.head?_cons, Option.bind_some, hc.hexDigit]
    exact .advance c (ih (v * 16 + d))

theorem Hex4.takes {q : Bytes} {n : Nat} (h : Hex4 q n) (rest : Bytes) :
    Takes (hex4 : Parse E W Nat) q n rest := by
  obtain ⟨ds, hds, hlen, rfl⟩ := h
  have htakes := takes_hexDigits (E := E) (W := W) hds 0 rest
  rw [hlen] at htakes
  exact htakes

theorem takes_unicode {q : Bytes} {n : Nat} (hq : Hex4 q n) (hs : n < 0xD800 ∨ 0xDFFF < n)
    (rest : Bytes) : Takes (escape 0x75 : Parse E W Bytes) q (encoded n) rest := by
  have hn := hq.lt
  have hvalid : n.isValidChar := by
    rcases hs with h | h
    · exact .inl h
    · exact .inr ⟨h, by omega⟩
  show Takes (unicodeEscape : Parse E W Bytes) _ _ _
  refine (hq.takes _).answer ?_
  rw [if_neg (by omega), if_neg (by omega), appendUtf8_encoded hvalid]
  exact .pure _

theorem takes_pair {q q' : Bytes} {hi lo : Nat} (hhi : Hex4 q hi) (hlo : Hex4 q' lo)
    (hhigh : 0xD800 ≤ hi ∧ hi ≤ 0xDBFF) (hlow : 0xDC00 ≤ lo ∧ lo ≤ 0xDFFF) (rest : Bytes) :
    Takes (escape 0x75 : Parse E W Bytes) (q ++ backslash :: 0x75 :: q')
      (encoded (0x10000 + (hi - 0xD800) * 0x400 + (lo - 0xDC00))) rest := by
  have hvalue : 0x10000 + ((hi - 0xD800) <<< 10) + (lo - 0xDC00) =
      0x10000 + (hi - 0xD800) * 0x400 + (lo - 0xDC00) := by
    rw [Nat.shiftLeft_eq]
  have hsecond : Takes (lowSurrogate : Parse E W Nat) (backslash :: 0x75 :: q') lo rest := by
    refine .peek (.advance _ (.peek (.advance _ ?_)))
    refine (hlo.takes _).answer ?_
    rw [if_neg (by omega)]
    exact .pure _
  show Takes (unicodeEscape : Parse E W Bytes) _ _ _
  refine .bind (hhi.takes _) ?_
  rw [if_pos hhigh]
  refine hsecond.answer ?_
  rw [hvalue, appendUtf8_encoded (.inr (by omega))]
  exact .pure _

theorem takes_simple {x b : UInt8} (h : (x, b) ∈ simpleEscapes) (rest : Bytes) :
    Takes (escape x : Parse E W Bytes) [] [b] rest := by
  have hpure : (escape x : Parse E W Bytes) = pure [b] := by
    simp only [simpleEscapes, List.mem_cons, Prod.mk.injEq, List.not_mem_nil, or_false] at h
    rcases h with ⟨rfl, rfl⟩ | ⟨rfl, rfl⟩ | ⟨rfl, rfl⟩ | ⟨rfl, rfl⟩ | ⟨rfl, rfl⟩ | ⟨rfl, rfl⟩ |
      ⟨rfl, rfl⟩ | ⟨rfl, rfl⟩ <;> rfl
  rw [hpure]
  exact .pure _

/-- How a string's text goes on after its first run of plain bytes. -/
theorem StringText.split {t o : Bytes} (h : StringText t o) :
    ∃ run t₁ o₁, t = run ++ t₁ ∧ o = run ++ o₁ ∧ (∀ c ∈ run, isPlain c = true) ∧
      (t₁ = [] ∧ o₁ = [] ∨
        (∃ t₂ o₂, t₁ = LF :: t₂ ∧ o₁ = LF :: o₂ ∧ StringText t₂ o₂) ∨
        ∃ x e b t₂ o₂, t₁ = backslash :: x :: (e ++ t₂) ∧ o₁ = b ++ o₂ ∧
          (∀ rest, Takes (Json.escape x : Parse E W Bytes) e b rest) ∧ StringText t₂ o₂) := by
  induction h with
  | nil => exact ⟨[], [], [], rfl, rfl, List.forall_mem_nil _, .inl ⟨rfl, rfl⟩⟩
  | @plain c t o hq hb h ih =>
    by_cases hlf : c = LF
    · subst hlf
      exact ⟨[], _, _, rfl, rfl, List.forall_mem_nil _, .inr (.inl ⟨t, o, rfl, rfl, h⟩)⟩
    · obtain ⟨run, t₁, o₁, rfl, rfl, hrun, hend⟩ := ih
      have hc : isPlain c = true := by simp [isPlain, hq, hb, hlf]
      exact ⟨c :: run, t₁, o₁, rfl, rfl, List.forall_mem_cons.mpr ⟨hc, hrun⟩, hend⟩
  | simple hx h =>
    exact ⟨[], _, _, rfl, rfl, List.forall_mem_nil _,
      .inr (.inr ⟨_, [], _, _, _, rfl, rfl, takes_simple hx, h⟩)⟩
  | unicode hn hs h =>
    exact ⟨[], _, _, rfl, rfl, List.forall_mem_nil _,
      .inr (.inr ⟨_, _, _, _, _, rfl, rfl, takes_unicode hn hs, h⟩)⟩
  | @surrogates q q' t o hi lo hhi hlo hhigh hlow h =>
    have htext : backslash :: 0x75 :: (q ++ backslash :: 0x75 :: (q' ++ t)) =
        backslash :: 0x75 :: ((q ++ backslash :: 0x75 :: q') ++ t) := by
      rw [List.append_assoc]
      rfl
    refine ⟨[], _, _, rfl, (List.nil_append _).symm, List.forall_mem_nil _, .inr (.inr ?_)⟩
    exact ⟨0x75, q ++ backslash :: 0x75 :: q', _, t, o, htext, rfl,
      takes_pair hhi hlo hhigh hlow, h⟩

theorem StringText.takes_loop (n : Nat) : ∀ {t o : Bytes}, StringText t o → t.length < n →
    ∀ out rest, Takes (stringLoop n out : Parse E W Bytes) (t ++ [quote]) (out ++ o) rest := by
  induction n with
  | zero => exact fun _ hn => absurd hn (Nat.not_lt_zero _)
  | succ n ih =>
    intro t o h hn out rest
    obtain ⟨run, t₁, o₁, rfl, rfl, hrun, hend⟩ := h.split (E := E) (W := W)
    rw [stringLoop_succ, List.append_assoc, ← List.append_assoc out]
    rcases hend with ⟨rfl, rfl⟩ | ⟨t₂, o₂, rfl, rfl, h₂⟩ | ⟨x, e, b, t₂, o₂, rfl, rfl, he, h₂⟩
    · refine .bind (takes_plainRun hrun (.cons (by decide) _)) (.peek ?_)
      rw [List.append_nil]
      exact .advance _ (.pure _)
    · refine .bind (takes_plainRun hrun (.cons (by decide) _)) (.peek ?_)
      have hlen : t₂.length < n := by
        simp only [List.length_append, List.length_cons] at hn
        omega
      refine .advance _ ?_
      rw [if_neg (by decide), if_pos rfl]
      refine .newline ?_
      have h := ih h₂ hlen (out ++ run ++ [LF]) rest
      rw [List.append_assoc _ [LF]] at h
      exact h
    · refine .bind (takes_plainRun hrun (.cons (by decide) _)) (.peek ?_)
      refine .advance _ (.peek (.advance _ ?_))
      have hlen : t₂.length < n := by
        simp only [List.length_append, List.length_cons] at hn
        omega
      have h := ih h₂ hlen (out ++ run ++ b) rest
      have htext : (e ++ t₂).append [quote] = e ++ (t₂ ++ [quote]) := List.append_assoc e t₂ [quote]
      rw [htext, ← List.append_assoc (out ++ run)]
      exact .bind (he _) h

theorem StringText.takes {t o : Bytes} (h : StringText t o) (rest : Bytes) :
    Takes (string : Parse E W Bytes) (t ++ [quote]) o rest := by
  refine .fuel fun n hn => h.takes_loop n ?_ [] rest
  simp only [List.length_append, List.length_cons] at hn
  omega

/-! ### Every text of the grammar is accepted -/

/-- What may follow a value. -/
def closes (c : UInt8) : Bool := isSpace c || c == 0x2C || c == 0x5D || c == 0x7D

abbrev Closed (rest : Bytes) : Prop := Stops (fun c => !closes c) rest

theorem closes_cases {c : UInt8} (h : closes c = true) :
    c = 0x20 ∨ c = 0x09 ∨ c = 0x0D ∨ c = LF ∨ c = 0x2C ∨ c = 0x5D ∨ c = 0x7D := by
  simpa [closes, isSpace, or_assoc] using h

theorem Closed.stops {rest : Bytes} (h : Closed rest) {p : UInt8 → Bool}
    (hp : ∀ c, closes c = true → p c = false) : Stops p rest := by
  refine Stops.mono h fun c hc => ?_
  by_contra hd
  rw [hp c (by simpa using hd)] at hc
  cases hc

theorem Closed.number {rest : Bytes} (h : Closed rest) : Stops inNumber rest :=
  h.stops fun c hc => by
    rcases closes_cases hc with rfl | rfl | rfl | rfl | rfl | rfl | rfl <;> decide

theorem Closed.word {rest : Bytes} (h : Closed rest) :
    Stops (fun c => isLetter c || isDigit c) rest :=
  h.stops fun c hc => by
    rcases closes_cases hc with rfl | rfl | rfl | rfl | rfl | rfl | rfl <;> decide

theorem Blank.spaces {ws : Bytes} (h : Blank ws) : ∀ c ∈ ws, isSpace c = true :=
  fun c hc => isSpace_iff.mpr (h c hc)

theorem Blank.closed {ws rest : Bytes} (h : Blank ws) (hrest : Closed rest) :
    Closed (ws ++ rest) := by
  cases ws with
  | nil => exact hrest
  | cons c ws =>
    refine .cons ?_ _
    rw [closes, h.spaces c List.mem_cons_self]
    rfl

theorem Blank.closed_cons {ws : Bytes} (h : Blank ws) {c : UInt8} (hc : closes c = true)
    (rest : Bytes) : Closed (ws ++ c :: rest) :=
  h.closed (.cons (by rw [hc]; rfl) rest)

/-- What the text of a value starts with. -/
def Begins (text : Bytes) : Prop :=
  ∃ c t, text = c :: t ∧ isSpace c = false ∧ c ≠ 0x5D ∧ c ≠ 0x7D

theorem signText_cases (negative : Bool) :
    signText negative = [] ∨ signText negative = [0x2D] := by
  cases negative
  · exact .inl rfl
  · exact .inr rfl

theorem begins_number {c : UInt8} {t : Bytes} (hc : c = 0x2D ∨ isDigit c = true) :
    Begins (c :: t) := by
  have hne : ∀ d, ¬(d = 0x2D ∨ isDigit d = true) → c ≠ d := fun d hd h => hd (h ▸ hc)
  refine ⟨c, t, rfl, ?_, hne _ (by decide), hne _ (by decide)⟩
  by_contra hspace
  rcases isSpace_iff.mp (by simpa using hspace) with h | h | h | h <;>
    exact absurd h (hne _ (by decide))

theorem begins_digits (negative : Bool) {int : Bytes} (t : Bytes) (hne : int ≠ [])
    (hd : ∀ c ∈ int, isDigit c = true) :
    ∃ c u, signText negative ++ (int ++ t) = c :: u ∧ (c = 0x2D ∨ isDigit c = true) :=
  sign_or_digit (signText_cases negative) hne hd

theorem IsValue.begins {text : Bytes} {doc : Doc} (h : IsValue text doc) : Begins text := by
  cases h with
  | null => exact ⟨_, _, rfl, by decide⟩
  | true_ => exact ⟨_, _, rfl, by decide⟩
  | false_ => exact ⟨_, _, rfl, by decide⟩
  | @integer int negative hne hd hz =>
    obtain ⟨c, u, htext, hc⟩ := begins_digits negative [] hne hd
    rw [List.append_nil] at htext
    rw [htext]
    exact begins_number hc
  | @decimal t x negative hx hne hz =>
    obtain ⟨e, rfl, -⟩ := hx
    rw [List.append_assoc]
    obtain ⟨c, u, htext, hc⟩ :=
      begins_digits negative (x.fractionText ++ e) x.int_ne x.int_digits
    rw [htext]
    exact begins_number hc
  | string h => exact ⟨_, _, rfl, by decide⟩
  | emptyArray h => exact ⟨_, _, rfl, by decide⟩
  | array h => exact ⟨_, _, rfl, by decide⟩
  | emptyObject h => exact ⟨_, _, rfl, by decide⟩
  | object h => exact ⟨_, _, rfl, by decide⟩

theorem Pair.begins {Value : Bytes → Doc → Prop} {text : Bytes} {m : Bytes × Doc}
    (h : Pair Value text m) : Begins text := by
  cases h with
  | mk hk hb ha h => exact ⟨_, _, rfl, by decide⟩

/-- A listing is blanks and a listing that begins with its first item. -/
theorem Listing.strip {α : Type} {Item : Bytes → α → Prop} {t : Bytes} {as : List α}
    (hitem : ∀ text a, Item text a → Begins text) (h : Listing Item t as) :
    ∃ ws t', t = ws ++ t' ∧ Blank ws ∧ Begins t' ∧ Listing Item t' as := by
  have hnone : Blank [] := List.forall_mem_nil _
  have hbegins : ∀ {text : Bytes} (rest : Bytes), Begins text → Begins (text ++ rest) := by
    rintro _ rest ⟨c, u, rfl, hc⟩
    exact ⟨c, u ++ rest, rfl, hc⟩
  cases h with
  | last hb h ha => exact ⟨_, _, rfl, hb, hbegins _ (hitem _ _ h), .last hnone h ha⟩
  | more hb h ha hrest => exact ⟨_, _, rfl, hb, hbegins _ (hitem _ _ h), .more hnone h ha hrest⟩

section Complete
variable {R : Runtime D E W} {stack : Nat}

/-- Every value nested within `stack` is taken, and answered as what it denotes. -/
def AcceptsAll (R : Runtime D E W) (stack : Nat) (value : Parse E W (Datum D)) : Prop :=
  ∀ ws text doc rest, Blank ws → IsValue text doc → doc.depth ≤ stack → Closed rest →
    ∃ v, (doc.denote R.floats).Equal v ∧ Takes value (ws ++ text) v rest

theorem takes_skipBlank {ws rest : Bytes} (hws : Blank ws) (hrest : Stops isSpace rest) :
    Takes (skipWhitespace : Parse E W Unit) ws () rest :=
  takes_skipWhitespace hws.spaces hrest

theorem AcceptsAll.items {value : Parse E W (Datum D)} (hvalue : AcceptsAll R stack value)
    {t : Bytes} {ds : List Doc} (h : Listing IsValue t ds) (hds : ∀ d ∈ ds, d.depth ≤ stack)
    (n : Nat) (hn : t.length < n) (items : List (Datum D)) (rest : Bytes) :
    ∃ vs, List.Forall₂ (fun d v => (Doc.denote R.floats d).Equal v) ds vs ∧
      Takes (arrayItems value n items) (t ++ [0x5D]) (items ++ vs) rest := by
  induction h generalizing n items with
  | @last before text after doc hb hdoc ha =>
    obtain ⟨n, rfl⟩ := Nat.exists_eq_succ_of_ne_zero (Nat.ne_of_gt (Nat.zero_lt_of_lt hn))
    obtain ⟨v, hv, htakes⟩ := hvalue before text doc (after ++ [0x5D] ++ rest) hb hdoc
      (hds doc List.mem_cons_self) (by
        rw [List.append_assoc]
        exact ha.closed_cons rfl rest)
    refine ⟨[v], .cons hv .nil, ?_⟩
    have htext : before ++ (text ++ after) ++ [0x5D] =
        before ++ text ++ (after ++ [0x5D]) := by simp
    rw [htext]
    unfold arrayItems
    refine .bind htakes (.bind (takes_skipBlank ha (.cons rfl _)) (.peek ?_))
    exact .advance _ (.pure _)
  | @more before text after t doc ds hb hdoc ha hrest ih =>
    obtain ⟨n, rfl⟩ := Nat.exists_eq_succ_of_ne_zero (Nat.ne_of_gt (Nat.zero_lt_of_lt hn))
    obtain ⟨hdepth, hds⟩ := List.forall_mem_cons.mp hds
    obtain ⟨v, hv, htakes⟩ := hvalue before text doc (after ++ 0x2C :: (t ++ [0x5D]) ++ rest)
      hb hdoc hdepth (by
        rw [List.append_assoc]
        exact ha.closed_cons rfl _)
    have hlen : t.length < n := by
      simp only [List.length_append, List.length_cons] at hn
      omega
    obtain ⟨vs, hvs, hitems⟩ := ih hds n hlen (items ++ [v])
    refine ⟨v :: vs, .cons hv hvs, ?_⟩
    have htext : before ++ (text ++ (after ++ 0x2C :: t)) ++ [0x5D] =
        before ++ text ++ (after ++ 0x2C :: (t ++ [0x5D])) := by simp
    rw [List.append_assoc, List.singleton_append] at hitems
    rw [htext]
    unfold arrayItems
    refine .bind htakes (.bind (takes_skipBlank ha (.cons rfl _)) (.peek ?_))
    exact .advance _ hitems

theorem AcceptsAll.array {value : Parse E W (Datum D)} (hvalue : AcceptsAll R stack value)
    {t : Bytes} {ds : List Doc} (h : Listing IsValue t ds) (hds : ∀ d ∈ ds, d.depth ≤ stack)
    (rest : Bytes) :
    ∃ v, (Doc.denote R.floats (.array ds)).Equal v ∧
      Takes (array R.host value) (t ++ [0x5D]) v rest := by
  obtain ⟨ws, t, rfl, hws, ⟨c, u, rfl, hspace, hc, -⟩, h⟩ := h.strip fun _ _ h => h.begins
  obtain ⟨vs, hvs, hitems⟩ := hvalue.items h hds ((c :: u ++ [0x5D] ++ rest).length + 1) (by
    simp only [List.length_append, List.length_cons]
    omega) [] rest
  refine ⟨_, array_denotes hvs, ?_⟩
  rw [List.append_assoc]
  refine .bind (takes_skipBlank hws (.cons hspace _)) (.peek ?_)
  rw [List.cons_append, List.cons_append, List.head?_cons, if_neg (by simpa using hc)]
  exact .sized (hitems.answer (.pure _))

theorem takes_keyText {ws t k : Bytes} (hws : Blank ws) (hk : StringText t k) (rest : Bytes) :
    Takes (key R.host {} : Parse E W (Datum D)) (ws ++ quote :: (t ++ [quote])) (.string k)
      rest := by
  refine .bind (takes_skipBlank hws (.cons (by decide) _)) (.peek (.advance _ ?_))
  exact (hk.takes rest).answer (.pure _)

theorem takes_advance (c : UInt8) (u : Bytes) :
    Takes (Json.advance : Parse E W _) [c] () u := by
  intro r hr hu
  have hd : r.data = c :: u := (Source.unread_eq_data hr).symm.trans hu
  exact ⟨advanced r, rfl, hr, Source.unread_advance hd hu, rfl⟩

theorem takes_expect (c : UInt8) (what : String) (rest : Bytes) :
    Takes (expect c what : Parse E W Unit) [c] () rest := by
  refine .peek ?_
  rw [List.cons_append, List.head?_cons, if_pos rfl]
  exact takes_advance c rest

theorem AcceptsAll.entry {value : Parse E W (Datum D)} (hvalue : AcceptsAll R stack value)
    {ws text : Bytes} {m : Bytes × Doc} (hws : Blank ws) (h : Pair IsValue text m)
    (hdepth : m.2.depth ≤ stack) {rest : Bytes} (hrest : Closed rest) :
    ∃ e, ReadMember R.floats m e ∧
      Takes (objectEntry R.host {} value) (ws ++ text) (some e) rest := by
  obtain ⟨hk, hb, ha, hdoc⟩ := h
  rename_i t k before after text doc
  obtain ⟨v, hv, htakes⟩ := hvalue after text doc rest ha hdoc hdepth hrest
  refine ⟨(.string k, v), ⟨rfl, hv⟩, ?_⟩
  have htext : ws ++ quote :: (t ++ quote :: (before ++ 0x3A :: (after ++ text))) =
      ws ++ quote :: (t ++ [quote]) ++ (before ++ ([0x3A] ++ (after ++ text))) := by simp
  rw [htext]
  refine .bind (takes_keyText hws hk _) (.bind (takes_skipBlank hb (.cons rfl _)) ?_)
  exact .bind (takes_expect _ _ _) (htakes.answer (.pure _))

theorem AcceptsAll.members {value : Parse E W (Datum D)} (hvalue : AcceptsAll R stack value)
    {t : Bytes} {ms : List (Bytes × Doc)} (h : Listing (Pair IsValue) t ms)
    (hms : ∀ m ∈ ms, m.2.depth ≤ stack) (n : Nat) (hn : t.length < n) (batch : Batch (Datum D))
    (rest : Bytes) :
    ∃ es, List.Forall₂ (ReadMember R.floats) ms es ∧
      Takes (objectItems R.host {} value n batch) (t ++ [0x7D])
        (es.foldl (fun b e => b.push R.host e) batch) rest := by
  induction h generalizing n batch with
  | @last before text after m hb hm ha =>
    obtain ⟨n, rfl⟩ := Nat.exists_eq_succ_of_ne_zero (Nat.ne_of_gt (Nat.zero_lt_of_lt hn))
    have hclosed : Closed (after ++ [0x7D] ++ rest) := by
      rw [List.append_assoc]
      exact ha.closed_cons rfl rest
    obtain ⟨e, he, htakes⟩ := hvalue.entry hb hm (hms m List.mem_cons_self) hclosed
    refine ⟨[e], .cons he .nil, ?_⟩
    have htext : before ++ (text ++ after) ++ [0x7D] =
        before ++ text ++ (after ++ [0x7D]) := by simp
    rw [htext]
    unfold objectItems
    refine .bind htakes (.bind (takes_skipBlank ha (.cons rfl _)) (.peek ?_))
    exact .advance _ (.pure _)
  | @more before text after t m ms hb hm ha hrest ih =>
    obtain ⟨n, rfl⟩ := Nat.exists_eq_succ_of_ne_zero (Nat.ne_of_gt (Nat.zero_lt_of_lt hn))
    obtain ⟨hdepth, hms⟩ := List.forall_mem_cons.mp hms
    have hclosed : Closed (after ++ 0x2C :: (t ++ [0x7D]) ++ rest) := by
      rw [List.append_assoc]
      exact ha.closed_cons rfl _
    obtain ⟨e, he, htakes⟩ := hvalue.entry hb hm hdepth hclosed
    have hlen : t.length < n := by
      simp only [List.length_append, List.length_cons] at hn
      omega
    obtain ⟨es, hes, hitems⟩ := ih hms n hlen (batch.push R.host e)
    refine ⟨e :: es, .cons he hes, ?_⟩
    have htext : before ++ (text ++ (after ++ 0x2C :: t)) ++ [0x7D] =
        before ++ text ++ (after ++ 0x2C :: (t ++ [0x7D])) := by simp
    rw [htext]
    unfold objectItems
    refine .bind htakes (.bind (takes_skipBlank ha (.cons rfl _)) (.peek ?_))
    exact .advance _ hitems

theorem AcceptsAll.object (hR : R.InsertsPairs) {value : Parse E W (Datum D)}
    (hvalue : AcceptsAll R stack value) {t : Bytes} {ms : List (Bytes × Doc)}
    (h : Listing (Pair IsValue) t ms) (hms : ∀ m ∈ ms, m.2.depth ≤ stack) (rest : Bytes) :
    ∃ v, (Doc.denote R.floats (.object ms)).Equal v ∧
      Takes (object R.host {} value) (t ++ [0x7D]) v rest := by
  obtain ⟨ws, t, rfl, hws, ⟨c, u, rfl, hspace, -, hc⟩, h⟩ := h.strip fun _ _ h => h.begins
  obtain ⟨es, hes, hitems⟩ := hvalue.members h hms ((c :: u ++ [0x7D] ++ rest).length + 1) (by
    simp only [List.length_append, List.length_cons]
    omega) { folded := R.host.mapAssocPairs none [] } rest
  refine ⟨_, object_denotes hR (collects_nil hR) hes, ?_⟩
  rw [List.append_assoc]
  refine .bind (takes_skipBlank hws (.cons hspace _)) (.peek ?_)
  rw [List.cons_append, List.cons_append, List.head?_cons, if_neg (by simpa using hc)]
  exact .sized (hitems.answer (.pure _))

theorem takes_value_number {ws text rest : Bytes} {v : Datum D} (hws : Blank ws)
    (hstart : ∃ c t, text = c :: t ∧ (c = 0x2D ∨ isDigit c = true))
    (h : Takes (number R.host) text v rest) :
    Takes (value R.host {} (stack + 1)) (ws ++ text) v rest := by
  obtain ⟨c, t, rfl, hc⟩ := hstart
  have hne : ∀ d, ¬(d = 0x2D ∨ isDigit d = true) → c ≠ d := fun d hd h => hd (h ▸ hc)
  obtain ⟨_, _, heq, hspace, -⟩ := begins_number (t := t) hc
  obtain ⟨rfl, rfl⟩ := List.cons.inj heq
  unfold value
  refine .bind (takes_skipBlank hws (.cons hspace _)) (.peek ?_)
  rw [List.cons_append, List.head?_cons]
  simp only [Option.some.injEq, hne 0x7B (by decide), hne 0x5B (by decide),
    hne quote (by decide), hne 0x74 (by decide), hne 0x66 (by decide), hne 0x6E (by decide),
    if_false, Option.any_some]
  rw [if_pos hc]
  exact h

theorem acceptsAll (hF : ReadsSpelled R.floats) (hR : R.InsertsPairs) (stack : Nat) :
    AcceptsAll R stack (value R.host {} stack) := by
  induction stack with
  | zero =>
    intro ws text doc rest _ _ hdepth _
    exact absurd doc.depth_pos (by omega)
  | succ stack ih =>
    intro ws text doc rest hws hdoc hdepth hrest
    -- The dispatch, once the blanks are skipped.
    have hblank : ∀ {c : UInt8} {t : Bytes}, isSpace c = false →
        Takes (skipWhitespace : Parse E W Unit) ws () (c :: t) := fun hc =>
      takes_skipBlank hws (.cons hc _)
    cases hdoc with
    | null =>
      refine ⟨_, .refl _, .bind (hblank rfl) (.peek ?_)⟩
      exact (takes_word _ hrest.word).answer (.pure _)
    | true_ =>
      refine ⟨_, .refl _, .bind (hblank rfl) (.peek ?_)⟩
      exact (takes_word _ hrest.word).answer (.pure _)
    | false_ =>
      refine ⟨_, .refl _, .bind (hblank rfl) (.peek ?_)⟩
      exact (takes_word _ hrest.word).answer (.pure _)
    | @integer int negative hne hd hz =>
      refine ⟨_, .refl _, takes_value_number hws ?_ ?_⟩
      · have h := begins_digits negative [] hne hd
        simpa using h
      · have h := takes_integer R.host (signText_cases negative) hne hd hz hrest.number
        rw [numberValue_integer] at h
        exact h
    | @decimal t x negative hx hne hz =>
      refine ⟨_, .refl _, takes_value_number hws ?_ ?_⟩
      · obtain ⟨e, rfl, -⟩ := hx
        rw [List.append_assoc]
        exact begins_digits negative _ x.int_ne x.int_digits
      · obtain ⟨t', ht', h⟩ := takes_float R.host (signText_cases negative) hx hne hz hrest.number
        have hvalue : numberValue R.host true (signText negative ++ t') =
            Doc.denote R.floats (.decimal negative x) :=
          congrArg Datum.double (hF negative x _ _ ht' (decimalText_spells x))
        rw [hvalue] at h
        exact h
    | string h =>
      refine ⟨_, .refl _, .bind (hblank rfl) (.peek (.advance _ ?_))⟩
      exact (h.takes rest).answer (.pure _)
    | @emptyArray ws' hw =>
      refine ⟨_, .refl _, .bind (hblank rfl) (.peek (.advance _ ?_))⟩
      exact .bind (takes_skipBlank hw (.cons rfl _)) (.peek (.advance _ (.pure _)))
    | @array t ds h =>
      rw [Doc.depth] at hdepth
      obtain ⟨v, hv, htakes⟩ := ih.array h (Doc.itemsDepth_le.mp (Nat.le_of_succ_le_succ hdepth)) rest
      exact ⟨v, hv, .bind (hblank rfl) (.peek (.advance _ htakes))⟩
    | @emptyObject ws' hw =>
      have hempty : R.host.mapAssocPairs none [] = .map [] :=
        congrArg Datum.map (assocPairs_nil hR)
      refine ⟨_, .refl _, .bind (hblank rfl) (.peek (.advance _ ?_))⟩
      refine .bind (takes_skipBlank hw (.cons rfl _)) (.peek ?_)
      show Takes _ _ (Datum.map []) rest
      rw [← hempty]
      exact .advance _ (.pure _)
    | @object t ms h =>
      rw [Doc.depth] at hdepth
      obtain ⟨v, hv, htakes⟩ :=
        ih.object hR h (Doc.membersDepth_le.mp (Nat.le_of_succ_le_succ hdepth)) rest
      exact ⟨v, hv, .bind (hblank rfl) (.peek (.advance _ htakes))⟩

end Complete

/-! ### Whole texts -/

def plainRequest : Request (Datum D) :=
  { opts := {}, flavor := .dataJson, trailing := .reject, eofOk := false, eofValue := .nil }

/-- `read-str` with no options. -/
def readStr (R : Runtime D E W) (stack : Nat) (s : Bytes) (w : W) : Answer (Datum D) E W :=
  readJson R.host plainRequest stack (.ofString s) w

section Texts
variable {R : Runtime D E W} {stack : Nat} {req : Request (Datum D)}

theorem answers_more {u : Bytes} :
    Answers (more : Parse E W Bool) u fun b rest =>
      ∃ ws, u = ws ++ rest ∧ Blank ws ∧ b = rest.head?.isSome := by
  refine answers_blank.bind ?_
  rintro - rest ⟨ws, rfl, hws⟩
  exact .peek (.pure ⟨ws, rfl, hws, rfl⟩)

theorem answers_firstValue (hF : ReadsSpelled R.floats) (hR : R.InsertsPairs)
    (hopts : req.opts = {}) (hend : req.trailing = .reject) (heof : req.eofOk = false)
    (s : Bytes) :
    Answers (firstValue R.host req stack) s fun v _ =>
      ∃ doc, JsonText s doc ∧ doc.depth ≤ stack ∧ (doc.denote R.floats).Equal v := by
  unfold firstValue
  rw [hopts, hend, heof]
  refine answers_more.bind ?_
  rintro _ u ⟨ws, rfl, hws, rfl⟩
  split
  · refine (answers_value hF hR stack u).bind ?_
    rintro v w ⟨before, text, doc, rfl, hbefore, hdoc, hdepth, hv⟩
    dsimp only
    refine answers_more.bind ?_
    rintro _ rest ⟨after, rfl, hafter, rfl⟩
    split
    · exact (Refuses.bind fun _ => refuses_fail _).answers
    · rename_i hnone
      have hrest : rest = [] := by
        cases rest with
        | nil => rfl
        | cons c rest => exact absurd rfl hnone
      subst hrest
      refine .pure ⟨doc, ⟨ws ++ before, text, after, by simp, hws.append hbefore, hdoc, hafter⟩,
        hdepth, hv⟩
  · rw [if_neg Bool.false_ne_true]
    exact .fail _

theorem takes_jsonText (hF : ReadsSpelled R.floats) (hR : R.InsertsPairs)
    (hopts : req.opts = {}) (hreject : req.trailing = .reject) {s : Bytes} {doc : Doc}
    (h : JsonText s doc)
    (hdepth : doc.depth ≤ stack) :
    ∃ v, (doc.denote R.floats).Equal v ∧ Takes (firstValue R.host req stack) s v [] := by
  obtain ⟨before, text, after, rfl, hbefore, hdoc, hafter⟩ := h
  have hclosed : Closed after := by
    have h := hafter.closed .nil
    rwa [List.append_nil] at h
  obtain ⟨v, hv, hvalue⟩ := acceptsAll hF hR stack [] text doc (after ++ [])
    (List.forall_mem_nil _) hdoc hdepth (by rwa [List.append_nil])
  obtain ⟨c, t, htext, hspace, -⟩ := hdoc.begins
  have hmore : Takes (more : Parse E W Bool) before true (text ++ after ++ []) := by
    refine (takes_skipBlank hbefore ?_).answer (.peek ?_)
    · rw [htext]
      exact .cons hspace _
    · rw [htext]
      exact .pure _
  have hend : Takes (more : Parse E W Bool) after false [] :=
    (takes_skipBlank hafter .nil).answer (.peek (.pure _))
  refine ⟨v, hv, ?_⟩
  unfold firstValue
  rw [hopts, hreject]
  refine .bind hmore ?_
  rw [if_pos rfl]
  refine .bind hvalue (hend.answer ?_)
  rw [if_neg Bool.false_ne_true]
  exact .pure _

theorem unread_ofString (s : Bytes) (w : W) :
    ({ Source.ofString s with world := w } : Reading W).unread = s := by
  simp [Source.unread, Source.ofString, Source.data]

/-- What is accepted, within the nesting the stack allows, is one JSON text, and every JSON text
is; the answer is what the text denotes. -/
theorem readStr_accepts (hF : ReadsSpelled R.floats) (hR : R.InsertsPairs) (stack : Nat)
    (s : Bytes) (w : W) :
    (∀ v, (readStr R stack s w).result = .ok v →
      ∃ doc, JsonText s doc ∧ doc.depth ≤ stack ∧ (doc.denote R.floats).Equal v) ∧
    ∀ doc, JsonText s doc → doc.depth ≤ stack →
      ∃ v, (readStr R stack s w).result = .ok v ∧ (doc.denote R.floats).Equal v := by
  constructor
  · intro v hok
    unfold readStr readJson at hok
    split at hok
    · rename_i v' r hr
      obtain rfl := Except.ok.inj hok
      exact (answers_firstValue hF hR rfl rfl rfl s _ rfl (unread_ofString s w) v' r hr).2
    · cases hok
  · intro doc h hdepth
    have hopts : (plainRequest : Request (Datum D)).opts = {} := rfl
    obtain ⟨v, hv, htakes⟩ := takes_jsonText hF hR hopts rfl h hdepth
    have hu : ({ Source.ofString s with world := w } : Reading W).unread = s ++ [] := by
      rw [List.append_nil, unread_ofString]
    obtain ⟨r', hr, -, -, -⟩ := htakes _ rfl hu
    refine ⟨v, ?_, hv⟩
    unfold readStr readJson
    rw [hr]

end Texts

/-- `{"a":1,"a":[true,-0.0]}`. -/
def repeatedKey : Bytes :=
  [0x7B, 0x22, 0x61, 0x22, 0x3A, 0x31, 0x2C, 0x22, 0x61, 0x22, 0x3A, 0x5B, 0x74, 0x72, 0x75, 0x65,
    0x2C, 0x2D, 0x30, 0x2E, 0x30, 0x5D, 0x7D]

theorem zeros_readsSpelled : ReadsSpelled zeros := by
  intro negative x t t' ht ht'
  cases negative with
  | false => exact (zeros_strtod ht).trans (zeros_strtod ht').symm
  | true => rfl

theorem readStr_accepts_repeatedKey :
    (∀ v, (readStr zerosRuntime 3 repeatedKey ()).result = .ok v →
      ∃ doc, JsonText repeatedKey doc ∧ doc.depth ≤ 3 ∧ (doc.denote zeros).Equal v) ∧
    ∀ doc, JsonText repeatedKey doc → doc.depth ≤ 3 →
      ∃ v, (readStr zerosRuntime 3 repeatedKey ()).result = .ok v ∧ (doc.denote zeros).Equal v :=
  readStr_accepts zeros_readsSpelled (fun _ _ _ _ => .refl _) 3 repeatedKey ()

/-! ### Nesting deeper than the stack -/

section Deep
variable {α β : Type} {f : Parse E W α} {k : α → Parse E W β} {a : α} {t u : Bytes}

/-- On a string, `f` runs out of stack. -/
def Overflows (f : Parse E W α) (u : Bytes) : Prop :=
  ∀ r : Reading W, r.reader = none → r.unread = u → ∃ r', f r = .error .stackOverflow r'

theorem Overflows.left (hf : Overflows f u) : Overflows (f >>= k) u := by
  intro r hr hu
  obtain ⟨r', hf⟩ := hf r hr hu
  exact ⟨r', by rw [bind_apply, hf]⟩

theorem Overflows.after (hk : Overflows (k a) u) (hf : Takes f t a u) :
    Overflows (f >>= k) (t ++ u) := by
  intro r hr hu
  obtain ⟨r₁, hf, hr₁, hu₁, -⟩ := hf r hr hu
  obtain ⟨r₂, hk⟩ := hk r₁ hr₁ hu₁
  refine ⟨r₂, ?_⟩
  rw [bind_apply, hf]
  exact hk

theorem Overflows.next (hf : Takes f [] a u) (hk : Overflows (k a) u) : Overflows (f >>= k) u :=
  hk.after hf

theorem takes_peek (u : Bytes) : Takes (Json.peek : Parse E W _) [] u.head? u := by
  intro r hr hu
  have hp : (Json.peek : Parse E W _) r = .ok u.head? r := by
    show EStateM.Result.ok r.toSource.peek.1 { r with toSource := r.toSource.peek.2 } = _
    rw [Source.peek_string hr, hu]
    rfl
  exact ⟨r, hp, hr, hu, rfl⟩

theorem takes_fuel (u : Bytes) : Takes (Json.fuel : Parse E W _) [] (u.length + 1) u := by
  intro r hr hu
  refine ⟨r, ?_, hr, hu, rfl⟩
  show EStateM.Result.ok (r.unread.length + 1) r = _
  rw [hu]
  rfl

/-- Arrays of one element, `n` of them around an empty one. -/
def deepText : Nat → Bytes
  | 0 => [0x5B, 0x5D]
  | n + 1 => 0x5B :: (deepText n ++ [0x5D])

def deepDoc : Nat → Doc
  | 0 => .array []
  | n + 1 => .array [deepDoc n]

theorem deepText_cons (n : Nat) : ∃ t, deepText n = 0x5B :: t := by
  cases n with
  | zero => exact ⟨_, rfl⟩
  | succ n => exact ⟨_, rfl⟩

theorem isValue_deep (n : Nat) : IsValue (deepText n) (deepDoc n) := by
  induction n with
  | zero => exact @IsValue.emptyArray [] (List.forall_mem_nil _)
  | succ n ih =>
    have hnone : Blank [] := List.forall_mem_nil _
    have hlist : Listing IsValue ([] ++ (deepText n ++ [])) [deepDoc n] := .last hnone ih hnone
    rw [List.nil_append, List.append_nil] at hlist
    exact .array hlist

theorem utf8_deep (n : Nat) : Utf8 (deepText n) := by
  induction n with
  | zero => exact ⟨['[', ']'], by decide⟩
  | succ n ih =>
    obtain ⟨cs, hcs⟩ := ih
    refine ⟨'[' :: (cs ++ [']']), ?_⟩
    rw [List.flatMap_cons, List.flatMap_append, ← hcs]
    rfl

theorem overflows_deep (H : Host V E W) (opts : ReadOptions V) (n : Nat) (rest : Bytes) :
    Overflows (value H opts n) (deepText n ++ rest) := by
  induction n generalizing rest with
  | zero => exact fun r _ _ => ⟨r, rfl⟩
  | succ n ih =>
    obtain ⟨t, ht⟩ := deepText_cons n
    have hskip : ∀ u : Bytes, Takes (skipWhitespace : Parse E W Unit) [] () (0x5B :: u) :=
      fun u => takes_skipWhitespace (List.forall_mem_nil _) (.cons rfl _)
    have hitems : ∀ m, Overflows (arrayItems (value H opts n) (m + 1) [])
        (deepText n ++ (0x5D :: rest)) := fun m => (ih _).left
    have harray : Overflows (array H (value H opts n)) (deepText n ++ (0x5D :: rest)) := by
      rw [ht] at hitems ⊢
      refine .next (hskip _) (.next (takes_peek _) ?_)
      rw [List.cons_append, List.head?_cons, if_neg (by decide)]
      exact .next (takes_fuel _) (hitems _).left
    have htext : deepText (n + 1) ++ rest = 0x5B :: (deepText n ++ 0x5D :: rest) := by
      simp [deepText]
    rw [htext]
    unfold value
    refine .next (hskip _) (.next (takes_peek _) ?_)
    rw [List.head?_cons, if_neg (by decide), if_pos rfl]
    exact Overflows.after (a := ()) (k := fun _ => array H (value H opts n)) harray
      (takes_advance _ _)

/-- Any native stack is too small for some text. -/
theorem readStr_overflow (stack : Nat) :
    Utf8 (deepText stack) ∧ JsonText (deepText stack) (deepDoc stack) ∧
      (readStr zerosRuntime stack (deepText stack) ()).result = .error .stackOverflow := by
  have hnone : Blank [] := List.forall_mem_nil _
  refine ⟨utf8_deep stack, ⟨[], deepText stack, [], by simp, hnone, isValue_deep stack, hnone⟩, ?_⟩
  obtain ⟨t, ht⟩ := deepText_cons stack
  have hmore : Takes (more : Parse Empty Unit Bool) [] true (deepText stack) := by
    rw [ht]
    refine (takes_skipWhitespace (List.forall_mem_nil _) (.cons rfl _)).answer (.peek ?_)
    exact .pure _
  have hvalue := overflows_deep zerosRuntime.host {} stack []
  rw [List.append_nil] at hvalue
  have hfirst : Overflows (firstValue zerosRuntime.host plainRequest stack) (deepText stack) :=
    .next hmore hvalue.left
  obtain ⟨r', hr⟩ := hfirst _ rfl (unread_ofString (deepText stack) ())
  unfold readStr readJson
  rw [hr]
  rfl

theorem readStr_deep :
    Utf8 (deepText 100000) ∧ JsonText (deepText 100000) (deepDoc 100000) ∧
      (readStr zerosRuntime 100000 (deepText 100000) ()).result = .error .stackOverflow :=
  readStr_overflow 100000

end Deep

end ProtoClojure.Json
