import ProtoClojure.Reader.OpenLiterals
import ProtoClojure.Reader.ReadableBodies
import ProtoClojure.Reader.Spacing
import ProtoClojure.Runtime.Arithmetic
import ProtoClojure.Sets.CollectionLiterals

/-! Literals of code: anonymous functions, maps and sets. -/
namespace ProtoClojure.Reader
open NameSupply Unwinding

/-! ### Arguments in a syntax-quote -/

theorem slash_number (n : Nat) : '/' ∉ (toString n).toList := by
  intro h
  have hdigits : '/' ∈ Nat.toDigits 10 n := by simpa using h
  have hdigit := Nat.isDigit_of_mem_toDigits (by decide) (by decide) hdigits
  cases hdigit

theorem slash_stem (a : Arg) : '/' ∉ a.stem.toList := by
  cases a with
  | rest => decide
  | param i =>
    show '/' ∉ ("p" ++ toString (i + 1)).toList
    rw [String.toList_append, List.mem_append, not_or]
    exact ⟨by decide, slash_number (i + 1)⟩

theorem argName_toList (a : Arg) (n : Nat) :
    (argName a n).toList = a.stem.toList ++ "__".toList ++ (toString n).toList ++ "#".toList := by
  simp only [argName, generated, String.toList_append]

theorem isAutoGensym_argName (a : Arg) (n : Nat) : isAutoGensym (argName a n) = true := by
  have hlast : (argName a n).toList.getLast? = some '#' := by
    rw [argName_toList]
    exact List.getLast?_concat
  have hslash : '/' ∉ (argName a n).toList := by
    rw [argName_toList]
    simp only [List.mem_append, not_or]
    exact ⟨⟨⟨slash_stem a, by decide⟩, slash_number n⟩, by decide⟩
  have hlen : 1 < (argName a n).length := by
    have hbars : "__".toList.length = 2 := by decide
    rw [← String.length_toList, argName_toList, List.length_append, List.length_append,
      List.length_append]
    omega
  simp [isAutoGensym, hlast, hslash, hlen]

theorem isKeywordName_argName (a : Arg) (n : Nat) : isKeywordName (argName a n) = false := by
  unfold isKeywordName
  rw [argName_toList]
  cases a with
  | rest => rfl
  | param i =>
    have hstem : (Arg.param i).stem.toList = 'p' :: (toString (i + 1)).toList := by
      show ("p" ++ toString (i + 1)).toList = _
      rw [String.toList_append]
      rfl
    rw [hstem]
    rfl

/-- To a syntax-quote the symbol of an argument stands for one to generate. -/
theorem readSyntaxQuote_argument (resolver : Option (String → String)) (ids : Nat → Nat) (a : Arg)
    (n : Nat) : readSyntaxQuote resolver ids (.name (argName a n)) =
      .ok (quoted (.name (autoGensym (argName a n) (ids 0))),
        ⟨[(argName a n, autoGensym (argName a n) (ids 0))], 1⟩) := by
  unfold readSyntaxQuote syntaxQuote
  rw [isKeywordName_argName, if_neg Bool.false_ne_true]
  have hsymbol : symbolFor resolver ids (argName a n) {} =
      .ok (autoGensym (argName a n) (ids 0),
        ⟨[(argName a n, autoGensym (argName a n) (ids 0))], 1⟩) := by
    unfold symbolFor
    rw [isAutoGensym_argName, if_pos rfl]
    rfl
  rw [StateExcept.run_bind hsymbol]
  rfl

theorem autoGensym_ne (s : String) (n : Nat) : autoGensym s n ≠ s := by
  intro h
  have hlen := congrArg String.length h
  have hauto : "__auto__".length = 8 := by decide
  rw [autoGensym, String.length_append, String.length_append, String.length_append,
    String.length_ofList, List.length_dropLast, String.length_toList, hauto] at hlen
  omega

/-! ### Literals -/

/-- What `#(body)` is read as, and when. -/
structure FnLiteralLaws (H : ReaderHost) : Prop where
  reads : ∀ stack σ σ' form, σ.fnLiteral = none →
    readFromToken H stack .hashLParen σ = .ok form σ' → ∃ body sym,
      σ.tokens = body ++ .rparen :: σ'.tokens ∧ .hashLParen ∉ body ∧
      FnForm H sym body σ.gensymId σ'.gensymId form
  syntaxQuoted : ∀ ids a n, readSyntaxQuote H.resolver ids (.name (argName a n)) =
    .ok (quoted (.name (autoGensym (argName a n) (ids 0))),
      ⟨[(argName a n, autoGensym (argName a n) (ids 0))], 1⟩)
  answers : ∀ body, Readable H .forms body → ∃ depth, ∀ stack, depth ≤ stack →
    ∀ (σ : ReadState) rest, σ.fnLiteral = none → σ.tokens = body ++ .rparen :: rest →
    ∃ form σ', readFromToken H stack .hashLParen σ = .ok form σ' ∧ σ'.tokens = rest
  nested : ∀ stack σ, σ.fnLiteral.isSome = true →
    readFromToken H (stack + 1) .hashLParen σ =
      .error (.other "Nested #()s are not allowed") σ
  apart : ∀ sym sym' body body' lo hi lo' hi' form form', FnForm H sym body lo hi form →
    FnForm H sym' body' lo' hi' form' → hi ≤ lo' → ∀ a a', isParam (argsOf body) a = true →
    isParam (argsOf body') a' = true → sym a ≠ sym' a'
  settles : ∀ stack tok σ, Settles σ (left (readFromToken H stack tok σ))
  calls : ∀ stack n σ, Settles σ (afterCalls H stack n σ)

/-- The reader's counts and its equality are those of the values its forms are. -/
structure OfValues (H : ReaderHost) (K : Maps.Kernel) (value : Form → Maps.Value) : Prop where
  mapCount : ∀ kv, H.mapCount kv = Maps.mapCount (some (Maps.Sets.pairsMap K (kv.map value)))
  setCount : ∀ items next v next',
    Maps.Sets.setConj K.core none ((items.map value).map some) next = .ok (v, next') →
    H.setCount items = Maps.Sets.setCount v
  keyEquals : ∀ a b, H.keyEquals a b = Maps.keyEquals K.core (value a) (value b)

/-- Which map and set literals are refused. -/
structure CollectionLiteralLaws (H : ReaderHost) (K : Maps.Kernel)
    (describeKey : Maps.Value → String) : Prop where
  map : ∀ kv, (∀ x ∈ kv, Maps.WellFormed K.core x) →
    (kv.length % 2 ≠ 0 → Maps.Sets.readMap K describeKey kv =
      .error (.error "Map literal must contain an even number of forms")) ∧
    (kv.length % 2 = 0 → (∃ x, Maps.Sets.Repeats K (Maps.Sets.keysAt kv) x) →
      ∃ x, Maps.Sets.Repeats K (Maps.Sets.keysAt kv) x ∧ Maps.Sets.readMap K describeKey kv =
        .error (.error ("Duplicate key: " ++ describeKey x))) ∧
    (kv.length % 2 = 0 → (¬ ∃ x, Maps.Sets.Repeats K (Maps.Sets.keysAt kv) x) →
      ∃ m, Maps.Sets.readMap K describeKey kv = .ok m ∧ Maps.WellFormed K.core (.map m))
  set : ∀ items, (∀ x ∈ items, Maps.WellFormed K.core x) → ∀ next,
    ((∃ x, Maps.Sets.Repeats K items x) → ∃ x, Maps.Sets.Repeats K items x ∧
      Maps.Sets.readSet K describeKey items next =
        .error (.error ("Duplicate key: " ++ describeKey x))) ∧
    ((¬ ∃ x, Maps.Sets.Repeats K items x) → ∃ v next',
      Maps.Sets.readSet K describeKey items next = .ok (v, next') ∧ Maps.WellFormed K.core v)
  forms : ∀ value, OfValues H K value →
    (∀ kv, NoRepeat H .lbrace kv ↔
      ∃ m, Maps.Sets.readMap K describeKey (kv.map value) = .ok m) ∧
    ∀ items, (∀ x ∈ items.map value, Maps.WellFormed K.core x) → ∀ next,
      NoRepeat H .hashLBrace items ↔
        ∃ r, Maps.Sets.readSet K describeKey (items.map value) next = .ok r

section
variable {H : ReaderHost} {K : Maps.Kernel} {value : Form → Maps.Value}

theorem firstRepeated_values (h : OfValues H K value) (before keys : List Form) :
    (firstRepeated H before keys).map value =
      Maps.Sets.firstDuplicate K (before.map value) (keys.map value) := by
  induction keys generalizing before with
  | nil => rfl
  | cons k keys ih =>
    have hany : (before.any fun j => H.keyEquals j k) =
        (before.map value).any fun y => Maps.keyEquals K.core y (value k) := by
      rw [List.any_map]
      exact congrArg before.any (funext fun j => h.keyEquals j k)
    rw [firstRepeated, List.map_cons, Maps.Sets.firstDuplicate, hany]
    split
    · rfl
    · rw [ih, List.map_append]
      rfl

theorem keysAt_values (kv : List Form) :
    Maps.Sets.keysAt (kv.map value) = ((pairUp kv).map Prod.fst).map value := by
  fun_induction pairUp kv with
  | case1 k v kv ih => exact congrArg (value k :: ·) ih
  | case2 kv hne =>
    cases kv with
    | nil => rfl
    | cons k kv =>
      cases kv with
      | nil => rfl
      | cons v kv => exact absurd rfl (hne k v kv)

/-- The check on forms is the one on their values. -/
theorem noRepeat_map (h : OfValues H K value) (describeKey : Maps.Value → String)
    (kv : List Form) : NoRepeat H .lbrace kv ↔
      ∃ m, Maps.Sets.readMap K describeKey (kv.map value) = .ok m := by
  have hlen : (kv.map value).length = kv.length := List.length_map _
  have hfirst := firstRepeated_values h [] ((pairUp kv).map Prod.fst)
  rw [← keysAt_values, List.map_nil] at hfirst
  show kv.length % 2 = 0 ∧ _ ↔ _
  by_cases heven : kv.length % 2 = 0
  · rw [Maps.Sets.readMap_even (by rw [hlen]; exact heven), ← Maps.Sets.mapCount_pairsMap, hlen,
      ← h.mapCount, ← hfirst, and_iff_right heven]
    split
    · rename_i hcount
      exact ⟨fun _ => ⟨_, rfl⟩, fun _ => .inl hcount⟩
    · rename_i hcount
      cases hkey : firstRepeated H [] ((pairUp kv).map Prod.fst) with
      | none => exact ⟨fun _ => ⟨_, rfl⟩, fun _ => .inr rfl⟩
      | some k =>
        refine ⟨fun hor => ?_, fun ⟨m, hm⟩ => by cases hm⟩
        rcases hor with hor | hor
        · exact absurd hor hcount
        · cases hor
  · refine ⟨fun hand => absurd hand.1 heven, fun ⟨m, hm⟩ => ?_⟩
    rw [Maps.Sets.readMap, if_pos (by rw [hlen]; exact heven)] at hm
    cases hm

theorem noRepeat_set (hP : K.core.Lawful) (h : OfValues H K value)
    (describeKey : Maps.Value → String) {items : List Form}
    (hitems : ∀ x ∈ items.map value, Maps.WellFormed K.core x) (next : Nat) :
    NoRepeat H .hashLBrace items ↔
      ∃ r, Maps.Sets.readSet K describeKey (items.map value) next = .ok r := by
  obtain ⟨v, next', hs, -⟩ := Maps.Sets.setConj_items hP Maps.Sets.IsBase.none hitems next
  have hfirst := firstRepeated_values h [] items
  rw [List.map_nil] at hfirst
  unfold Maps.Sets.readSet
  rw [StateExcept.run_bind hs, List.length_map, ← h.setCount items next v next' hs, ← hfirst]
  show _ ∨ _ ↔ _
  split
  · rename_i hcount
    exact ⟨fun _ => ⟨_, rfl⟩, fun _ => .inl hcount⟩
  · rename_i hcount
    cases hkey : firstRepeated H [] items with
    | none => exact ⟨fun _ => ⟨_, rfl⟩, fun _ => .inr rfl⟩
    | some k =>
      refine ⟨fun hor => ?_, fun ⟨r, hr⟩ => by cases hr⟩
      rcases hor with hor | hor
      · exact absurd hor hcount
      · cases hor

/-! ### Literals whose forms were read -/

theorem checked_answers {repeats : Prop} [Decidable repeats] {keys : List Form} {form : Form} {σ : ReadState} :
    (∃ f τ, (do
      if repeats then noDuplicate H keys
      return form : Read Form) σ = .ok f τ) ↔ ¬ repeats ∨ firstRepeated H [] keys = none := by
  by_cases hrepeats : repeats
  · rw [if_pos hrepeats, or_iff_right (not_not_intro hrepeats)]
    unfold noDuplicate
    cases firstRepeated H [] keys with
    | none => exact iff_of_true ⟨_, _, rfl⟩ rfl
    | some k => exact iff_of_false (fun ⟨_, _, h⟩ => by cases h) nofun
  · rw [if_neg hrepeats]
    exact iff_of_true ⟨_, _, rfl⟩ (.inl hrepeats)

/-- A map literal is refused for its forms when one is left over or a key repeated, and then only. -/
theorem readMap_accepts {form : Token → Read Form} {σ σ' : ReadState} {kv : List Form}
    (h : readList form .brace "unterminated map — missing `\x7d`" σ = .ok kv σ') :
    (∃ f τ, readMap H form σ = .ok f τ) ↔ NoRepeat H .lbrace kv := by
  unfold readMap
  rw [run_bind h]
  show _ ↔ kv.length % 2 = 0 ∧ _
  split
  · rename_i hodd
    exact iff_of_false (fun ⟨_, _, h⟩ => by cases h) fun h => hodd h.1
  · rename_i heven
    rw [checked_answers, not_not, and_iff_right (not_not.mp heven)]

/-- A set literal is refused for its forms when one is repeated. -/
theorem readSet_accepts {form : Token → Read Form} {σ σ' : ReadState} {items : List Form}
    (h : readList form .brace "unterminated set — missing `\x7d`" σ = .ok items σ') :
    (∃ f τ, readSet H form σ = .ok f τ) ↔ NoRepeat H .hashLBrace items := by
  unfold readSet
  rw [run_bind h, checked_answers, not_not]
  rfl

end

theorem hashLParen_reads {H : ReaderHost} {stack : Nat} {σ σ' : ReadState} {form : Form}
    (hnone : σ.fnLiteral = none) (h : readFromToken H stack .hashLParen σ = .ok form σ') :
    ∃ body sym, σ.tokens = body ++ .rparen :: σ'.tokens ∧ .hashLParen ∉ body ∧
      FnForm H sym body σ.gensymId σ'.gensymId form := by
  cases stack with
  | zero => cases h
  | succ stack =>
    unfold readFromToken at h
    cases hedn : ednRefuses H .hashLParen with
    | some message =>
      rw [hedn] at h
      cases h
    | none =>
      rw [hedn] at h
      obtain ⟨body, sym, htokens, -, -, hform⟩ := readFnLiteral_reads hnone h
      obtain ⟨items, hitems, -⟩ := hform.reads
      exact ⟨body, sym, htokens, hitems.flat, hform⟩

theorem hashLParen_nested {H : ReaderHost} (hcode : H.edn = false) (stack : Nat) {σ : ReadState}
    (hlit : σ.fnLiteral.isSome = true) : readFromToken H (stack + 1) .hashLParen σ =
      .error (.other "Nested #()s are not allowed") σ := by
  unfold readFromToken ednRefuses
  rw [hcode]
  show readFnLiteral (readFromToken H stack) σ = _
  unfold readFnLiteral
  rw [run_bind (show (get : Read ReadState) σ = .ok σ σ from rfl), if_pos hlit]
  rfl

/-- The symbols of two literals differ when the numbers were given one after the other. -/
theorem FnForm.ne {H : ReaderHost} {sym sym' : Arg → String} {body body' : List Token}
    {lo hi lo' hi' : Nat} {form form' : Form} (h : FnForm H sym body lo hi form)
    (h' : FnForm H sym' body' lo' hi' form') (hle : hi ≤ lo') {a a' : Arg}
    (ha : isParam (argsOf body) a = true) (ha' : isParam (argsOf body') a' = true) :
    sym a ≠ sym' a' :=
  h.drawn.ne argName_number h'.drawn hle (if_pos ha) (if_pos ha')

/-- Two literals of one run: whatever is read between them takes numbers of its own. -/
theorem hashLParen_apart {H : ReaderHost} {stack stack' : Nat} {σ σ₁ τ τ₁ : ReadState} {form form' : Form}
    (hnone : σ.fnLiteral = none) (h : readFromToken H stack .hashLParen σ = .ok form σ₁)
    (hbetween : Settles σ₁ τ) (h' : readFromToken H stack' .hashLParen τ = .ok form' τ₁) :
    ∃ body sym body' sym', FnForm H sym body σ.gensymId σ₁.gensymId form ∧
      FnForm H sym' body' τ.gensymId τ₁.gensymId form' ∧
      ∀ a a', isParam (argsOf body) a = true → isParam (argsOf body') a' = true → sym a ≠ sym' a' := by
  have hsettles := settles_fromToken H stack .hashLParen σ
  unfold Keeps at hsettles
  rw [h] at hsettles
  obtain ⟨body, sym, -, -, hform⟩ := hashLParen_reads hnone h
  obtain ⟨body', sym', -, -, hform'⟩ := hashLParen_reads (hbetween.closed (hsettles.closed hnone)) h'
  exact ⟨body, sym, body', sym', hform, hform', fun _ _ => hform.ne hform' hbetween.counted⟩

/-- The literals of code. -/
theorem literals_read {H : ReaderHost} (hcode : H.edn = false) {K : Maps.Kernel}
    (hP : K.core.Lawful) (describeKey : Maps.Value → String) :
    FnLiteralLaws H ∧ CollectionLiteralLaws H K describeKey := by
  refine ⟨⟨?_, ?_, ?_, ?_, ?_, ?_, ?_⟩, ⟨?_, ?_, ?_⟩⟩
  · exact fun stack σ σ' form => hashLParen_reads
  · exact readSyntaxQuote_argument H.resolver
  · exact fun body => fnLiteral_answers hcode
  · exact fun stack σ => hashLParen_nested hcode stack
  · exact fun sym sym' body body' lo hi lo' hi' form form' h h' hle a a' => h.ne h' hle
  · exact settles_fromToken H
  · exact afterCalls_settles H
  · exact fun kv => Maps.Sets.readMap_answers hP describeKey
  · exact fun items => Maps.Sets.readSet_answers hP describeKey
  · exact fun value h => ⟨noRepeat_map h describeKey, fun items => noRepeat_set hP h describeKey⟩

/-- `` (f %3 [% %&]) `` is read: a gap is filled. -/
theorem literals_read_gap :
    (FnLiteralLaws asciiHost ∧
      CollectionLiteralLaws asciiHost Maps.integerKernel fun _ => "") ∧
    readFromToken asciiHost 3 .hashLParen
      { tokens := [.symbol (ascii "f"), .symbol (ascii "%3"), .lbracket, .symbol (ascii "%"),
          .symbol (ascii "%&"), .rbracket, .rparen] } =
      .ok (.list [.name "fn*",
          .vector [.name (argName (.param 0) 2), .name (argName (.param 1) 4),
            .name (argName (.param 2) 1), .name "&", .name (argName .rest 3)],
          .list [.name (asciiHost.text (ascii "f")), .name (argName (.param 2) 1),
            .vector [.name (argName (.param 0) 2), .name (argName .rest 3)]]])
        { tokens := [], gensymId := 4 } :=
  ⟨literals_read rfl Maps.collidingCore_lawful fun _ => "", rfl⟩

def firstParam : FnLiteral := { params := [some (argName (.param 0) 1)] }

/-- `` `% `` as the one form of a body. -/
theorem backtick_argument : readFromToken asciiHost 8 .backtick
    { tokens := [.symbol (ascii "%"), .rparen, .endOfFile], fnLiteral := some {} } =
    .ok (quoted (.name (autoGensym (argName (.param 0) 1) 2)))
      { tokens := [.rparen, .endOfFile], fnLiteral := some firstParam, gensymId := 2 } := by
  have hitem : readNextForm (readFromToken asciiHost 7) .backtick
      { tokens := [.symbol (ascii "%"), .rparen, .endOfFile], fnLiteral := some {} } =
      .ok (.name (argName (.param 0) 1))
        { tokens := [.rparen, .endOfFile], fnLiteral := some firstParam, gensymId := 1 } := rfl
  show readBacktick asciiHost (readFromToken asciiHost 7) .backtick _ = _
  unfold readBacktick
  rw [run_bind hitem]
  dsimp only [bind, EStateM.bind, get, getThe, MonadStateOf.get, EStateM.get]
  rw [readSyntaxQuote_argument]
  rfl

/-- In a syntax-quote `%` is not the symbol of its parameter. -/
theorem quoted_argument_differs : ∃ p s, s ≠ p ∧ readAll asciiHost 9 0 (ascii "#(`%)") =
    .ok [.list [.name "fn*", .vector [.name p], .list [quoted (.name s)]]] := by
  refine ⟨argName (.param 0) 1, autoGensym (argName (.param 0) 1) 2, autoGensym_ne _ _, ?_⟩
  have htokens : tokens asciiHost.letters (ascii "#(`%)") =
      [.hashLParen, .backtick, .symbol (ascii "%"), .rparen, .endOfFile] := rfl
  have hloop : readListLoop (readFromToken asciiHost 8) .paren "unterminated list — missing `)`" 5 []
      { tokens := [.backtick, .symbol (ascii "%"), .rparen, .endOfFile], fnLiteral := some {} } =
      (readFromToken asciiHost 8 .backtick >>= fun item => readListLoop (readFromToken asciiHost 8)
        .paren "unterminated list — missing `)`" 4 ([] ++ [item]))
        { tokens := [.symbol (ascii "%"), .rparen, .endOfFile], fnLiteral := some {} } := rfl
  have hlist : readList (readFromToken asciiHost 8) .paren "unterminated list — missing `)`"
      { tokens := [.backtick, .symbol (ascii "%"), .rparen, .endOfFile], fnLiteral := some {} } =
      .ok [quoted (.name (autoGensym (argName (.param 0) 1) 2))]
        { tokens := [.endOfFile], fnLiteral := some firstParam, gensymId := 2 } := by
    refine hloop.trans ?_
    rw [run_bind backtick_argument]
    rfl
  have hform : readFromToken asciiHost 9 .hashLParen
      { tokens := [.backtick, .symbol (ascii "%"), .rparen, .endOfFile] } =
      .ok (.list [.name "fn*", .vector [.name (argName (.param 0) 1)],
        .list [quoted (.name (autoGensym (argName (.param 0) 1) 2))]])
        { tokens := [.endOfFile], gensymId := 2 } := by
    have hparams : nameParams 1 [some (argName (.param 0) 1)]
        { tokens := [.endOfFile], fnLiteral := some firstParam, gensymId := 2 } =
        .ok [.name (argName (.param 0) 1)]
          { tokens := [.endOfFile], fnLiteral := some firstParam, gensymId := 2 } := rfl
    have hnone : ReadState.fnLiteral
        { tokens := [.backtick, .symbol (ascii "%"), .rparen, .endOfFile] } = none := rfl
    exact readFnLiteral_run hnone hlist hparams
  have hall : readAllForms asciiHost 9 6 []
      { tokens := [.hashLParen, .backtick, .symbol (ascii "%"), .rparen, .endOfFile] } =
      (readFromToken asciiHost 9 .hashLParen >>= fun form =>
        readAllForms asciiHost 9 5 ([] ++ [form]))
        { tokens := [.backtick, .symbol (ascii "%"), .rparen, .endOfFile] } := rfl
  unfold readAll readTokens
  rw [htokens]
  rw [show [Token.hashLParen, .backtick, .symbol (ascii "%"), .rparen, .endOfFile].length + 1 = 6
    from rfl, hall, run_bind hform]
  rfl

end ProtoClojure.Reader
