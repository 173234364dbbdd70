import ProtoClojure.Compiler.Emission

/-! Rewriting of binding forms: it draws generated symbols and leaves the rest of the session
alone. -/
namespace ProtoClojure
open CompileM

/-- `m` looks at nothing of the session but the gensym counter, and changes nothing else; where
`d` is false it leaves the counter alone too. -/
def OnlyGensym {α : Type} (d : Bool) (m : CompileM α) : Prop :=
  ∀ (s s' : Session) (a : α), m s = .ok (a, s') →
    ∃ n, s' = { s with gensym := n } ∧ (d = false → n = s.gensym) ∧
      ∀ t : Session, (d = true → t.gensym = s.gensym) →
        m t = .ok (a, { t with gensym := if d then n else t.gensym })

namespace OnlyGensym
variable {d : Bool}

theorem pure {α : Type} (a : α) : OnlyGensym d (Pure.pure a : CompileM α) := by
  intro s s' b h
  obtain ⟨rfl, rfl⟩ := pure_ok.mp h
  refine ⟨s'.gensym, rfl, fun _ => rfl, fun t ht => pure_ok.mpr ⟨rfl, ?_⟩⟩
  cases d with
  | false => rfl
  | true => rw [← ht rfl]; rfl

theorem fail {α : Type} (message : String) : OnlyGensym d (CompileM.fail message : CompileM α) := by
  intro s s' b h
  exact (fail_ok.mp h).elim

theorem throw {α : Type} (e : CompileError) :
    OnlyGensym d (MonadExcept.throw e : CompileM α) := by
  intro s s' b h
  exact (throw_ok.mp h).elim

theorem freshSymbol (pre : String) : OnlyGensym true (CompileM.freshSymbol pre) := by
  intro s s' b h
  obtain ⟨rfl, rfl⟩ := freshSymbol_ok.mp h
  refine ⟨s.gensym + 1, rfl, nofun, fun t ht => freshSymbol_ok.mpr ?_⟩
  rw [ht rfl]
  exact ⟨rfl, rfl⟩

theorem bind {α β : Type} {m : CompileM α} {f : α → CompileM β} (hm : OnlyGensym d m)
    (hf : ∀ a, OnlyGensym d (f a)) : OnlyGensym d (m >>= f) := by
  intro s s' b h
  obtain ⟨a, s₁, h₁, h₂⟩ := bind_ok.mp h
  obtain ⟨n, rfl, hn, hm⟩ := hm _ _ _ h₁
  obtain ⟨n', rfl, hn', hf⟩ := hf a _ _ _ h₂
  refine ⟨n', rfl, fun hd => (hn' hd).trans (hn hd), fun t ht => bind_ok.mpr ⟨a, _, hm t ht, ?_⟩⟩
  have hk := hf { t with gensym := if d then n else t.gensym } fun hd => by rw [hd]; rfl
  cases d <;> exact hk

theorem ite {α : Type} {c : Prop} [Decidable c] {m m' : CompileM α} (h : OnlyGensym d m)
    (h' : OnlyGensym d m') : OnlyGensym d (if c then m else m') := by
  split_ifs
  · exact h
  · exact h'

/-- A check in front of the rest. -/
theorem guard {α : Type} {c : Prop} [Decidable c] {message : String} {k k' : CompileM α}
    (h' : OnlyGensym d k') :
    OnlyGensym d (if c then (CompileM.fail message : CompileM PUnit) >>= fun _ => k else k') := by
  intro s s' a h
  obtain ⟨hc, h⟩ := guard_ok.mp h
  obtain ⟨n, hs, hn, ht⟩ := h' _ _ _ h
  exact ⟨n, hs, hn, fun t hg => guard_ok.mpr ⟨hc, ht t hg⟩⟩

theorem mapM {α β : Type} {f : α → CompileM β} (hf : ∀ a, OnlyGensym d (f a)) :
    ∀ l : List α, OnlyGensym d (l.mapM f)
  | [] => by
    rw [List.mapM_nil]
    exact .pure _
  | a :: l => by
    rw [List.mapM_cons]
    exact .bind (hf a) fun b => .bind (mapM hf l) fun bs => .pure _

/-- One that leaves the counter alone leaves the session as it was. -/
theorem same {α : Type} {m : CompileM α} (hm : OnlyGensym false m) {s s' : Session} {a : α}
    (h : m s = .ok (a, s')) : s' = s := by
  obtain ⟨n, rfl, hn, -⟩ := hm _ _ _ h
  rw [hn rfl]

end OnlyGensym

theorem Yields.unique {α : Type} {m : CompileM α} {a b : α} (hm : OnlyGensym false m) (ha : Yields m a)
    (hb : Yields m b) : a = b := by
  obtain ⟨s, s', h⟩ := ha
  obtain ⟨t, t', h'⟩ := hb
  obtain ⟨n, -, -, ht⟩ := hm _ _ _ h
  rw [ht t nofun] at h'
  cases h'
  rfl

theorem Draws.unique {α : Type} {m : CompileM α} {a b : α} {n n₁ n₂ : Nat} (hm : OnlyGensym true m)
    (ha : Draws n m a n₁) (hb : Draws n m b n₂) : a = b ∧ n₁ = n₂ := by
  obtain ⟨s, s', rfl, rfl, h⟩ := ha
  obtain ⟨t, t', ht, rfl, h'⟩ := hb
  obtain ⟨n, rfl, -, hm⟩ := hm _ _ _ h
  rw [hm t fun _ => ht] at h'
  cases h'
  exact ⟨rfl, rfl⟩

section
variable {env : Env} {d : Bool}

theorem onlyGensym_orDefaults : ∀ entries : List (Form × Form), OnlyGensym d (orDefaults env entries)
  | [] => .pure _
  | (k, v) :: rest => by
    unfold orDefaults
    refine .ite ?_ (onlyGensym_orDefaults rest)
    split
    · refine .bind (.mapM (fun p => .ite (.pure _) (.fail _)) _) fun here => ?_
      exact .bind (onlyGensym_orDefaults rest) fun more => .pure _
    · exact .fail _

/-- An item that is neither `&` nor `:as`, in front of the others. -/
theorem onlyGensym_destructureItem {destructure : Form → Form → CompileM (List Form)}
    (hd : ∀ p v, OnlyGensym true (destructure p v)) (gvec : Form) (gseq : Option Form) (b : Form)
    (index : Nat) {m : CompileM (List Form)} (hm : OnlyGensym true m) :
    OnlyGensym true (match gseq with
      | some gseq => do
        let gfirst ← CompileM.freshSymbol "first__"
        let bound ← destructure b gfirst
        let bound ← Pure.pure
          ([gfirst, callForm "first" [gseq], gseq, callForm "next" [gseq]] ++ bound)
        let more ← m
        return bound ++ more
      | none => do
        let bound ← destructure b (callForm "nth" [gvec, .int index, .nil])
        let more ← m
        return bound ++ more) := by
  cases gseq with
  | none => exact .bind (hd _ _) fun bound => .bind hm fun more => .pure _
  | some g =>
    refine .bind (.freshSymbol _) fun gfirst => .bind (hd _ _) fun bound => ?_
    exact .bind (.pure _) fun bound => .bind hm fun more => .pure _

theorem onlyGensym_destructureItems {destructure : Form → Form → CompileM (List Form)}
    (hd : ∀ p v, OnlyGensym true (destructure p v)) (gvec : Form) (gseq : Option Form) :
    ∀ (items : List Form) (seenRest : Bool) (index : Nat),
      OnlyGensym true (destructureItems destructure gvec gseq seenRest index items)
  | [], seenRest, index => by
    unfold destructureItems
    exact .pure _
  | [b], seenRest, index => by
    have ih := onlyGensym_destructureItems hd gvec gseq [] seenRest (index + 1)
    unfold destructureItems
    refine .ite (.fail _) (.ite (.fail _) (.guard ?_))
    exact onlyGensym_destructureItem hd gvec gseq b index ih
  | b :: target :: rest, seenRest, index => by
    have ih := onlyGensym_destructureItems hd gvec gseq rest true index
    have ih' := onlyGensym_destructureItems hd gvec gseq (target :: rest) seenRest (index + 1)
    unfold destructureItems
    refine .ite (.guard (.bind (hd _ _) fun bound => .bind ih fun more => .pure _)) ?_
    refine .ite (hd _ _) (.guard ?_)
    exact onlyGensym_destructureItem hd gvec gseq b index ih'

theorem onlyGensym_destructureKey (gmap : Form) (defaults : List (String × Form))
    (kind kwNs : String) (f : Form) :
    OnlyGensym d (destructureKey env gmap defaults kind kwNs f) :=
  .guard (.pure _)

theorem onlyGensym_destructureEntry {destructure : Form → Form → CompileM (List Form)}
    (hd : ∀ p v, OnlyGensym true (destructure p v)) (gmap : Form) (defaults : List (String × Form))
    (k v : Form) : OnlyGensym true (destructureEntry env destructure gmap defaults k v) := by
  unfold destructureEntry
  refine .ite (.pure _) (.ite (.ite (.fail _) (.pure _)) (.ite ?_ (.ite (.pure _) (hd _ _))))
  refine .ite (.fail _) (.ite (.fail _) ?_)
  split
  · exact .bind (.mapM (onlyGensym_destructureKey gmap defaults _ _) _) fun bound => .pure _
  · exact .fail _

theorem onlyGensym_destructure : ∀ (fuel : Nat) (pattern value : Form),
    OnlyGensym true (destructure env fuel pattern value)
  | 0, _, _ => .throw _
  | fuel + 1, pattern, value => by
    have ih := onlyGensym_destructure fuel
    unfold destructure
    split
    · exact .ite (.fail _) (.pure _)
    · refine .bind (.freshSymbol _) fun gvec => .ite ?_ ?_
      · exact .bind (.freshSymbol _) fun gseq =>
          .bind (onlyGensym_destructureItems ih _ _ _ _ _) fun bound => .pure _
      · exact .bind (onlyGensym_destructureItems ih _ _ _ _ _) fun bound => .pure _
    · refine .bind (.freshSymbol _) fun gmap => .bind (onlyGensym_orDefaults _) fun defaults => ?_
      exact .bind (.mapM (fun p => onlyGensym_destructureEntry ih _ _ _ _) _) fun bound => .pure _
    · exact .fail _

theorem onlyGensym_destructureBindings (fuel : Nat) (bindings : List Form) :
    OnlyGensym true (destructureBindings env fuel bindings) :=
  .ite (.pure _) (.bind (.mapM (fun _ => onlyGensym_destructure fuel _ _) _) fun _ => .pure _)

theorem onlyGensym_rewriteParams : ∀ (params : List Form) (previous : Option Form),
    OnlyGensym true (rewriteParams env previous params)
  | [], _ => by
    unfold rewriteParams
    exact .pure _
  | p :: rest, previous => by
    have ih := onlyGensym_rewriteParams rest
    unfold rewriteParams
    refine .guard (.ite ?_ ?_)
    · exact .bind (.freshSymbol _) fun g => .bind (ih _) fun r => .pure _
    · exact .bind (ih _) fun r => .pure _

theorem onlyGensym_loopRewrite : ∀ bindings : List (Form × Form), OnlyGensym true (loopRewrite bindings)
  | [] => .pure _
  | (b, v) :: rest => by
    have ih := onlyGensym_loopRewrite rest
    unfold loopRewrite
    refine .ite (.bind ih fun r => .pure _) ?_
    exact .bind (.freshSymbol _) fun g => .bind ih fun r => .pure _

theorem bindingItems_even {what : String} {bindings : Form} {items : List Form} {s s' : Session}
    (h : bindingItems what bindings s = .ok (items, s')) : items.length % 2 = 0 := by
  have hlast : ∀ {m : CompileM (List Form)}, (m >>= fun items =>
      if (items.length % 2 != 0) = true then
        (CompileM.fail (what ++ ": bindings must come in name/value pairs") : CompileM PUnit) >>=
          fun _ => Pure.pure items
      else Pure.pure items) s = .ok (items, s') → items.length % 2 = 0 := by
    intro m h
    obtain ⟨items', s₁, -, h⟩ := bind_ok.mp h
    obtain ⟨he, h⟩ := guard_ok.mp h
    obtain ⟨rfl, -⟩ := pure_ok.mp h
    simpa using he
  unfold bindingItems at h
  split at h
  all_goals exact hlast h

theorem onlyGensym_bindingItems (what : String) (bindings : Form) :
    OnlyGensym d (bindingItems what bindings) := by
  unfold bindingItems
  split
  · exact .bind (.pure _) fun items => .guard (.pure _)
  · exact .bind (.pure _) fun items => .guard (.pure _)
  · exact .bind (.fail _) fun items => .guard (.pure _)

theorem onlyGensym_catchClause (rest : List Form) : OnlyGensym d (catchClause rest) := by
  unfold catchClause
  split
  · exact .pure _
  · exact .fail _

theorem onlyGensym_splitTry : ∀ (rest : List Form) (seenCatch seenFinally : Bool),
    OnlyGensym d (splitTry seenCatch seenFinally rest)
  | [], _, _ => by
    unfold splitTry
    exact .pure _
  | f :: rest, seenCatch, seenFinally => by
    have ih := onlyGensym_splitTry rest
    unfold splitTry
    refine .guard ?_
    split
    · exact .bind (onlyGensym_catchClause _) fun c => .bind (ih _ _) fun parts => .pure _
    · exact .bind (ih _ _) fun parts => .pure _
    · exact .guard (.bind (ih _ _) fun parts => .pure _)

/-! ### Parameters -/

theorem onlyGensym_kwMapEntry (m : KwMap) (k v : Form) : OnlyGensym d (kwMapEntry m k v) := by
  unfold kwMapEntry
  refine .ite (.fail _) (.ite ?_ (.ite ?_ (.ite (.ite (.pure _) (.fail _)) (.fail _))))
  · split
    · exact .ite (.pure _) (.fail _)
    · exact .fail _
  · split
    · exact .pure _
    · exact .fail _

theorem onlyGensym_kwMapEntries : ∀ (entries : List (Form × Form)) (m : KwMap),
    OnlyGensym d (entries.foldlM (fun m (k, v) => kwMapEntry m k v) m)
  | [], m => by
    rw [List.foldlM_nil]
    exact .pure _
  | (k, v) :: rest, m => by
    rw [List.foldlM_cons]
    exact .bind (onlyGensym_kwMapEntry m k v) fun m' => onlyGensym_kwMapEntries rest m'

theorem onlyGensym_attachDefaults : ∀ (entries : List (Form × Form)) (keys : List KwKeyDecl),
    OnlyGensym d (attachDefaults keys entries)
  | [], keys => .pure _
  | (k, v) :: rest, keys => by
    have ih := onlyGensym_attachDefaults rest
    unfold attachDefaults
    refine .ite (.fail _) ?_
    split
    · exact ih _
    · exact .fail _

theorem onlyGensym_parseRest (f : Form) : OnlyGensym d (parseRest f) := by
  unfold parseRest
  split
  · exact .bind (onlyGensym_kwMapEntries _ _) fun m =>
      .guard (.bind (onlyGensym_attachDefaults _ _) fun keys => .pure _)
  · exact .ite (.fail _) (.pure _)
  · exact .fail _

theorem onlyGensym_parseParams : ∀ params : List Form, OnlyGensym d (parseParams params)
  | [] => .pure _
  | p :: params => by
    have ih := onlyGensym_parseParams params
    unfold parseParams
    refine .ite ?_ (.bind ih fun spec => .pure _)
    split
    · exact .bind (onlyGensym_parseRest _) fun rest => .pure _
    · exact .fail _

theorem onlyGensym_fixedNames : ∀ params : List Form, OnlyGensym d (fixedNames params)
  | [] => .pure _
  | p :: rest => by
    have ih := onlyGensym_fixedNames rest
    unfold fixedNames
    exact .ite (.fail _) (.ite (.fail _) (.bind ih fun names => .pure _))

theorem fixedNames_length : ∀ {params : List Form} {s s' : Session} {names : List String},
    fixedNames params s = .ok (names, s') → names.length = params.length
  | [], s, s', names, h => by
    obtain ⟨rfl, -⟩ := pure_ok.mp h
    rfl
  | p :: rest, s, s', names, h => by
    unfold fixedNames at h
    split_ifs at h
    · exact (fail_ok.mp h).elim
    · exact (fail_ok.mp h).elim
    · obtain ⟨more, s₁, h₁, hk⟩ := bind_ok.mp h
      obtain ⟨rfl, -⟩ := pure_ok.mp hk
      rw [List.length_cons, List.length_cons, fixedNames_length h₁]

theorem onlyGensym_paramItems (message : String) (f : Form) : OnlyGensym d (paramItems message f) := by
  unfold paramItems
  split
  · exact .pure _
  · exact .pure _
  · exact .fail _

/-- The message of a failure does not matter to what is accepted. -/
theorem paramItems_yields {message message' : String} {f : Form} {items : List Form}
    {s s' : Session} (h : paramItems message f s = .ok (items, s')) :
    Yields (paramItems message' f) items := by
  unfold paramItems at h
  split at h
  · obtain ⟨rfl, rfl⟩ := pure_ok.mp h
    exact ⟨s', s', rfl⟩
  · obtain ⟨rfl, rfl⟩ := pure_ok.mp h
    exact ⟨s', s', rfl⟩
  · exact (fail_ok.mp h).elim

/-! ### Macros -/

theorem onlyGensym_withHidden (f : Form) : OnlyGensym d (withHidden f) := by
  unfold withHidden
  split
  · exact .pure _
  · exact .fail _

theorem onlyGensym_macroArities (rest : List Form) : OnlyGensym d (macroArities rest) := by
  fun_induction macroArities rest with
  | case1 => exact .pure _
  | case2 params body rest ih =>
    exact .bind (onlyGensym_withHidden params) fun _ => .bind ih fun _ => .pure _
  | case3 => exact .pure _
  | case4 => exact .fail _

theorem onlyGensym_macroFn (rest : List Form) : OnlyGensym d (macroFn rest) := by
  unfold macroFn
  dsimp only
  split
  · exact .fail _
  · exact .bind (onlyGensym_withHidden _) fun _ => .pure _
  · exact .bind (onlyGensym_macroArities _) fun _ => .pure _

end

end ProtoClojure
