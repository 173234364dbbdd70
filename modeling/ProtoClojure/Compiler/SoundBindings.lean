import ProtoClojure.Compiler.Generated
import ProtoClojure.Compiler.Soundness

/-! Whatever the compiler accepts stands for a core expression, and the code it emits is that
expression laid out: `let`, `loop`, `recur` and `try`. -/
namespace ProtoClojure
open CompileM

/-! ### Steps that only change what the innermost scope binds or allows -/

structure Reset (env : Env) (s s' : Session) (W W' : World) : Prop where
  tracks : Tracks env s' W'
  out : s'.out = s.out
  captured : W'.captured = W.captured
  next : W'.next = W.next
  tail : W'.tail = W.tail

theorem Final.of_reset {T : Tables} {s s' : Session} {W W' : World} (h : Reset env s s' W W')
    (hf : Final T s' W') : Final T s W := by
  obtain ⟨h₁, h₂, h₃, h₄, h₅⟩ := hf
  rw [h.out] at h₁ h₂ h₃
  rw [h.captured, h.next] at h₄
  rw [h.tail] at h₅
  exact ⟨h₁, h₂, h₃, h₄, h₅⟩

/-! ### Bindings -/

def Ghost.bind (g : Ghost) (x : String) (m : Nat) : Ghost := { g with names := (x, m) :: g.names }

theorem Ghost.slotOf_bind (g : Ghost) (x : String) (m : Nat) :
    (g.bind x m).slotOf = Function.update g.slotOf x (some m) := by
  funext y
  by_cases hy : y = x
  · rw [hy, Function.update_self]
    simp [Ghost.slotOf, Ghost.bind]
  · rw [Function.update_of_ne hy]
    have hb : (y == x) = false := beq_false_of_ne hy
    simp [Ghost.slotOf, Ghost.bind, List.lookup_cons, hb]

theorem ScopeOk.bind {g : Ghost} {W : World} {sc : Scope} (h : ScopeOk g W sc) (x : String) :
    ScopeOk (g.bind x sc.nextSlot) W (sc.bind x) where
  slots := by
    rw [Ghost.slotOf_bind, ← h.slots]
    rfl
  captures := h.captures
  names_lt := by
    intro p hp
    rcases List.mem_cons.mp hp with rfl | hp
    · exact Nat.lt_succ_self _
    · exact Nat.lt_succ_of_lt (h.names_lt p hp)
  captured_lt := fun p hp => Nat.lt_succ_of_lt (h.captured_lt p hp)
  nodup := h.nodup
  parent := h.parent
  seen := h.seen
  targets := h.targets

/-- The names `ext` were bound on top between `W` and `W'`; `saved` undoes them, whatever was
captured since. -/
structure NamesBound (W W' : World) (ext : Names) (saved : List Saved) : Prop where
  grows : Grows W W'
  names : W'.names = ext ++ W.names
  tail : W'.tail.map (·.1.names) = W.tail.map (·.1.names)
  undo : ∀ new : List (String × CaptureSpec), (∀ c ∈ new, W'.names.lookup c.1 = none) →
    saved.foldr (fun b slots => Function.update slots b.1 b.2)
        (Ghost.slotOf ⟨W'.names, W'.captured ++ new⟩) =
      Ghost.slotOf ⟨W.names, W'.captured ++ new⟩

theorem NamesBound.refl (W : World) : NamesBound W W [] [] := ⟨.refl W, rfl, rfl, fun _ _ => rfl⟩

theorem foldr_unbind (saved : List Saved) (sc : Scope) :
    saved.foldr (fun b sc => sc.unbind b) sc =
      { sc with nameToSlot :=
          saved.foldr (fun b slots => Function.update slots b.1 b.2) sc.nameToSlot } := by
  induction saved with
  | nil => rfl
  | cons b saved ih =>
    rw [List.foldr_cons, ih]
    rfl

/-- The scope after the names bound since `W` are taken back. -/
theorem restore_sound {s₃ s₄ : Session} {W W' W₃ : World} {ext : Names} {saved : List Saved}
    (hb : NamesBound W W' ext saved) (hs : SameScope W' W₃) (ht : Tracks env s₃ W₃) (hne : W ≠ [])
    (h : restore saved s₃ = .ok ((), s₄)) :
    ∃ W₄, Reset env s₃ s₄ W₃ W₄ ∧ SameScope W W₄ := by
  obtain rfl := onTopScope_ok.mp h
  obtain ⟨p, V, rfl⟩ := List.exists_cons_of_ne_nil hne
  obtain ⟨q, V', hpq, hV', rfl⟩ := List.forall₂_cons_left_iff.mp hb.grows
  obtain ⟨r, V₃, hqr, hV₃, rfl⟩ := List.forall₂_cons_left_iff.mp hs.grows
  obtain ⟨hscopes, hok, hstart, hlaid⟩ := ht
  have hnames : r.1.names = q.1.names := World.names_eq hs.names
  have hext : q.1.names = ext ++ p.1.names := hb.names
  have hpr := hpq.trans hqr
  have hslots : saved.foldr (fun b slots => Function.update slots b.1 b.2) r.2.nameToSlot =
      Ghost.slotOf ⟨p.1.names, r.1.captured⟩ := by
    obtain ⟨new, hnew, hfresh⟩ := hqr.captured
    have hslot : r.2.nameToSlot = Ghost.slotOf ⟨q.1.names, r.1.captured⟩ := by
      rw [hok.1.slots, ← hnames]
    rw [hslot, hnew]
    exact hb.undo new fun c hc => (hfresh c hc).2
  let g₄ : Ghost := ⟨p.1.names, r.1.captured⟩
  let sc₄ : Scope := { r.2 with nameToSlot := g₄.slotOf }
  have hsc : s₃.scopes.modifyHead (fun sc => saved.foldr (fun b sc => sc.unbind b) sc) =
      sc₄ :: V₃.map (·.2) := by
    rw [hscopes, List.map_cons, List.modifyHead_cons, foldr_unbind, hslots]
  have hok₄ : ScopeOk g₄ V₃ sc₄ := by
    refine ⟨rfl, hok.1.captures, fun b hb => hok.1.names_lt b ?_, hok.1.captured_lt, hok.1.nodup,
      hok.1.parent, hok.1.seen, hok.1.targets⟩
    rw [hnames, hext]
    exact List.mem_append_right _ hb
  refine ⟨(g₄, sc₄) :: V₃, ⟨⟨hsc, ⟨hok₄, hok.2⟩, ?_, hlaid⟩, rfl, rfl, rfl, rfl⟩,
    ⟨.cons ?_ (Grows.trans hV' hV₃), ?_⟩⟩
  · rw [Session.bodyStart, hsc]
    rw [Session.bodyStart, hscopes] at hstart
    exact hstart
  · exact ⟨List.suffix_rfl, hpr.captured, hpr.next, hpr.arity, hpr.recurStack, hpr.tryDepth⟩
  · have ht₃ := World.tail_names hs.names
    rw [List.map_cons, List.map_cons]
    exact congrArg _ (ht₃.trans hb.tail)

/-! ### `let` and `loop` -/

/-- The code of bindings, each with the slot it is stored in, and of what follows them. -/
def bindsCode : List (Code × Nat) → Code → Code
  | [], after => after
  | (c, m) :: parts, after => .seq c (.seq (.ins ⟨.storeLocal, m⟩) (bindsCode parts after))

theorem bindsCode_flatten (parts : List (Code × Nat)) (after : Code) (k : Nat) :
    (bindsCode parts after).flatten k =
      (bindsCode parts .nil).flatten k ++ after.flatten (k + (bindsCode parts .nil).len) := by
  induction parts generalizing k with
  | nil => simp [bindsCode, Code.flatten, Code.len]
  | cons p parts ih =>
    simp only [bindsCode, Code.flatten, Code.len, ih, List.append_assoc]
    congr 4
    omega

section
variable {env : Env} {compile : Form → CompileM Unit}

/-- A `let` is one binding after the other, around the body. -/
theorem compilesBinds_bindAll {T : Tables} {L : Option (List Nat)} {body : Exp} {cb : Code} :
    ∀ {bs : Binds} {β : Names} {lo mid hi : Nat} {parts : List (Code × Nat)},
      CompilesBinds env T β L lo mid bs (parts.map (·.2)) (bindsCode parts .nil) →
      Compiles env T ((bs.names.zip (parts.map (·.2))).reverse ++ β) L mid hi body cb →
      Compiles env T β L lo hi (bindAll bs body) (bindsCode parts cb)
  | .nil, β, lo, mid, hi, [], .nil hl, h₂ => h₂.widen hl
  | .cons x init rest, β, lo, mid, hi, (c, m) :: parts, .cons h hm hs, h₂ => by
    have h₂' : Compiles env T ((rest.names.zip (parts.map (·.2))).reverse ++ (x, m) :: β) L mid hi
        body cb := by
      simpa [Binds.names] using h₂
    exact .bind h hm (compilesBinds_bindAll hs h₂')

theorem keepsGensym_bind (x : String) : KeepsGensym (CompileM.bind x) := by
  refine .bind .get fun s => ?_
  split
  · exact .throw _
  · exact .bind (.onTopScope _) fun _ => .pure _

theorem bind_sound {x : String} {s s₁ : Session} {W : World} {slot : Nat} {saved : Saved}
    (ht : Tracks env s W) (h : CompileM.bind x s = .ok ((slot, saved), s₁)) :
    ∃ g sc V, W = (g, sc) :: V ∧ slot = sc.nextSlot ∧ saved = (x, g.slotOf x) ∧
      Extends env s s₁ W ((g.bind x sc.nextSlot, sc.bind x) :: V) [] := by
  obtain ⟨hscopes, hok, hstart, hlaid⟩ := ht
  obtain ⟨t, s', hg, hk⟩ := bind_ok.mp h
  obtain ⟨rfl, rfl⟩ := get_ok.mp hg
  match W, hscopes, hok with
  | [], hscopes, _ =>
    rw [hscopes] at hk
    exact (throw_ok.mp hk).elim
  | (g, sc) :: V, hscopes, ⟨hg, hV⟩ =>
    simp only [hscopes, List.map_cons] at hk
    obtain ⟨_, s₂, h₂, hp⟩ := bind_ok.mp hk
    obtain rfl := onTopScope_ok.mp h₂
    obtain ⟨hp', rfl⟩ := pure_ok.mp hp
    obtain ⟨rfl, rfl⟩ := Prod.mk.inj hp'
    refine ⟨g, sc, V, rfl, rfl, by rw [hg.slots], ⟨⟨?_, ⟨hg.bind x, hV⟩, ?_, hlaid⟩,
      .cons ?_ (Grows.refl V), .refl _⟩⟩
    · rw [hscopes]
      rfl
    · rw [Session.bodyStart, hscopes] at hstart ⊢
      exact hstart
    · exact ⟨List.suffix_cons _ _, ⟨[], by simp [Ghost.bind], by simp⟩, Nat.le_succ _, rfl, rfl, rfl⟩

theorem slotOf_other (β : Names) (cap new : List (String × CaptureSpec)) {x : String}
    (h : ∀ c ∈ new, c.1 ≠ x) : Ghost.slotOf ⟨β, cap ++ new⟩ x = Ghost.slotOf ⟨β, cap⟩ x := by
  have hn : new.lookup x = none := by
    cases hx : new.lookup x with
    | none => rfl
    | some spec => exact absurd rfl (h _ (mem_of_lookup hx))
  rw [Ghost.slotOf, Ghost.slotOf, List.lookup_append, hn, Option.or_none]

theorem lookup_cons_ne {β : Names} {x y : String} {m : Nat} (h : ((x, m) :: β).lookup y = none) :
    y ≠ x := by
  rintro rfl
  simp at h

/-- One more name bound in front of others. -/
theorem NamesBound.cons {s s₁ : Session} {g : Ghost} {sc : Scope} {V W W' : World} {x : String}
    {ext : Names} {saved : List Saved} (hs : SameScope W ((g, sc) :: V))
    (hx : Extends env s s₁ ((g, sc) :: V) ((g.bind x sc.nextSlot, sc.bind x) :: V) [])
    (h : NamesBound ((g.bind x sc.nextSlot, sc.bind x) :: V) W' ext saved) :
    NamesBound W W' (ext ++ [(x, sc.nextSlot)]) ((x, g.slotOf x) :: saved) := by
  have hg : g.names = W.names := World.names_eq hs.names
  have hW' : W'.names = ext ++ (x, sc.nextSlot) :: g.names := h.names
  refine ⟨hs.grows.trans (hx.grows.trans h.grows), ?_, ?_, ?_⟩
  · rw [hW', hg, List.append_assoc]
    rfl
  · have ht : V.map (·.1.names) = W.tail.map (·.1.names) := World.tail_names hs.names
    exact h.tail.trans ht
  · intro new hnew
    obtain ⟨q, V', hq, -, rfl⟩ := List.forall₂_cons_left_iff.mp h.grows
    obtain ⟨new', hcap, hfresh⟩ := hq.captured
    have hcap' : q.1.captured = g.captured ++ new' := hcap
    have hbind : Ghost.slotOf ⟨(x, sc.nextSlot) :: g.names, q.1.captured ++ new⟩ =
        Function.update (Ghost.slotOf ⟨g.names, q.1.captured ++ new⟩) x (some sc.nextSlot) :=
      Ghost.slotOf_bind ⟨g.names, q.1.captured ++ new⟩ x sc.nextSlot
    have hu : saved.foldr (fun b slots => Function.update slots b.1 b.2) _ =
        Ghost.slotOf ⟨(x, sc.nextSlot) :: g.names, q.1.captured ++ new⟩ := h.undo new hnew
    rw [List.foldr_cons, hu, hbind, Function.update_idem, ← hg]
    funext y
    by_cases hy : y = x
    · rw [hy, Function.update_self]
      change g.slotOf x = Ghost.slotOf ⟨g.names, q.1.captured ++ new⟩ x
      rw [hcap', List.append_assoc, slotOf_other]
      intro c hc
      rcases List.mem_append.mp hc with hc | hc
      · exact lookup_cons_ne (hfresh c hc).2
      · have hl := hnew c hc
        rw [hW', List.lookup_append] at hl
        exact lookup_cons_ne (Option.or_eq_none_iff.mp hl).2
    · rw [Function.update_of_ne hy]
      rfl

theorem visible_bind (g : Ghost) (sc sc' : Scope) (V : World) (x : String) (m : Nat) :
    World.visible ((g.bind x m, sc') :: V) = withName x (World.visible ((g, sc) :: V)) := by
  funext y
  by_cases hy : y = x
  · simp [World.visible, withName, Ghost.bind, hy]
  · have hb : (y == x) = false := beq_false_of_ne hy
    simp [World.visible, withName, Ghost.bind, List.lookup_cons, hb]

theorem compileBindings_sound (hc : Sound env compile) (what : String) :
    ∀ {items : List Form} {s s' : Session} {W : World} {slots : List Nat} {saved : List Saved},
      items.length % 2 = 0 → W ≠ [] → Tracks env s W →
      compileBindings compile what items s = .ok ((slots, saved), s') →
      ∃ bs parts W', ElabBinds env W.visible s.gensym items bs s'.gensym ∧
        slots = parts.map (·.2) ∧
        bs.names.length = slots.length ∧
        Extends env s s' W W' ((bindsCode parts .nil).flatten s.offset) ∧
        NamesBound W W' (bs.names.zip slots).reverse saved ∧
        ∀ T, Final T s' W' → CompilesBinds env T W.names W.recurSlots W.next W'.next bs slots
          (bindsCode parts .nil)
  | [], s, s', W, slots, saved, _, _, ht, h => by
    obtain ⟨hp, rfl⟩ := pure_ok.mp h
    obtain ⟨rfl, rfl⟩ := Prod.mk.inj hp
    exact ⟨.nil, [], W, .nil, rfl, rfl, .refl ht, .refl W, fun T _ => .nil (Nat.le_refl _)⟩
  | [_], s, s', W, slots, saved, hlen, _, _, _ => by cases hlen
  | nameForm :: valForm :: rest, s, s', W, slots, saved, hlen, hne, ht, h => by
    obtain ⟨hname, h⟩ := guard_ok.mp h
    obtain ⟨-, h⟩ := guard_ok.mp h
    obtain ⟨x, rfl⟩ : ∃ x, nameForm = .name x := by
      cases nameForm <;> simp [Form.isName] at hname ⊢
    obtain ⟨_, s₁, h₁, h⟩ := bind_ok.mp h
    obtain ⟨⟨slot, sv⟩, s₂, h₂, h⟩ := bind_ok.mp h
    have h₂ : CompileM.bind x s₁ = .ok ((slot, sv), s₂) := h₂
    obtain ⟨_, s₃, h₃, h⟩ := bind_ok.mp h
    obtain ⟨-, rfl⟩ := emit_unit_ok.mp h₃
    obtain ⟨⟨slots', saved'⟩, s₄, h₄, h⟩ := bind_ok.mp h
    obtain ⟨hp, rfl⟩ := pure_ok.mp h
    obtain ⟨rfl, rfl⟩ := Prod.mk.inj hp
    obtain ⟨e, c, W₁, he, hem⟩ := hc ht h₁
    obtain ⟨g, sc, V, rfl, rfl, rfl, hx⟩ := bind_sound hem.tracks h₂
    have ht₃ := hx.tracks.push ⟨.storeLocal, sc.nextSlot⟩
    have hlen' : rest.length % 2 = 0 := by
      simp only [List.length_cons] at hlen
      omega
    obtain ⟨bs, parts, W', hbs, rfl, hzip, hgrows, hbound, hrel⟩ :=
      compileBindings_sound hc what hlen' (by simp) ht₃ h₄
    have hg : s₂.gensym = s₁.gensym := keepsGensym_bind x _ _ _ h₂
    have hne' : W.isEmpty = false := by
      cases W with
      | nil => exact absurd rfl hne
      | cons _ _ => rfl
    rw [hne'] at he
    rw [visible_bind, World.visible_eq hem.names, Session.push_gensym, hg] at hbs
    have hstep := hem.grows.trans (hx.trans (Extends.push hx.tracks ⟨.storeLocal, sc.nextSlot⟩))
    have hoff := Extends.offset ht hstep
    simp only [List.length_append, List.length_cons, List.length_nil, Code.flatten_length] at hoff
    refine ⟨.cons x e bs, (c, sc.nextSlot) :: parts, W', .cons he hbs, rfl, by simp [Binds.names, hzip],
      ?_, ?_, fun T hf => ?_⟩
    · have hall := hstep.trans hgrows
      rw [hoff] at hall
      simpa [bindsCode, Code.flatten, Code.len, Nat.add_assoc] using hall
    · have hb := NamesBound.cons hem.same hx hbound
      simpa [Binds.names] using hb
    · have hf₂ : Final T (s₂.push ⟨.storeLocal, sc.nextSlot⟩) _ := hf.back hgrows hbound.tail
      have hf₁ := hf₂.of_push.back hx rfl
      have hm : ¬ T.Captures sc.nextSlot :=
        hf₂.not_captures (Nat.lt_succ_self sc.nextSlot) fun p hp =>
          Nat.ne_of_lt (hem.tracks.ok.1.captured_lt p hp)
      have hnames : g.names = W.names := World.names_eq hem.names
      have hslots : World.recurSlots ((g.bind x sc.nextSlot, sc.bind x) :: V) = W.recurSlots :=
        (hem.grows.grows.trans hx.grows).recurSlots
      have hrest := hrel T hf
      rw [hslots] at hrest
      refine .cons (hem.rel T hf₁) hm ?_
      rw [← hnames]
      exact hrest

theorem lookup_zip_isSome {xs : List String} {slots : List Nat} (h : xs.length = slots.length)
    (y : String) : ((xs.zip slots).reverse.lookup y).isSome = xs.contains y := by
  have hmem : ∀ l : Names, (l.lookup y).isSome = (l.map (·.1)).contains y := by
    intro l
    induction l with
    | nil => rfl
    | cons p l ih =>
      rw [List.lookup_cons, List.map_cons, List.contains_cons]
      cases hy : y == p.1 <;> simp [ih]
  rw [hmem, List.map_reverse, List.contains_reverse, List.map_fst_zip h.le]

theorem NamesBound.visible {W W' : World} {xs : List String} {slots : List Nat} {saved : List Saved}
    (h : NamesBound W W' (xs.zip slots).reverse saved) (hl : xs.length = slots.length) (hne : W ≠ []) :
    W'.visible = withNames xs W.visible := by
  obtain ⟨p, V, rfl⟩ := List.exists_cons_of_ne_nil hne
  obtain ⟨q, V', -, -, rfl⟩ := List.forall₂_cons_left_iff.mp h.grows
  have hn : q.1.names = (xs.zip slots).reverse ++ p.1.names := h.names
  have hv : World.visible V' = World.visible V := World.visible_eq h.tail
  funext y
  have hy := congrFun hv y
  simp only [World.visible] at hy
  simp only [World.visible, withNames, List.any_cons, hn, List.lookup_append, hy, Option.isSome_or,
    lookup_zip_isSome hl, Bool.or_assoc]

theorem OnlyGensym.extends {α : Type} {d : Bool} {m : CompileM α} (hm : OnlyGensym d m) {s s' : Session} {a : α}
    {W : World} (ht : Tracks env s W) (h : m s = .ok (a, s')) : Extends env s s' W W [] := by
  obtain ⟨n, rfl, -⟩ := hm _ _ _ h
  exact ⟨⟨ht.scopes, ht.ok, ht.start, ht.laid⟩, .refl W, .refl _⟩

theorem isEmpty_of_ne_nil {W : World} (h : W ≠ []) : W.isEmpty = false := by
  cases W with
  | nil => exact absurd rfl h
  | cons _ _ => rfl

/-- A rewritten form in place of the one written, compiled after generated symbols were drawn. -/
theorem rewritten_sound (hc : Sound env compile) {f : Form} {s s₁ s' : Session} {W : World}
    (ht : Tracks env s W) (hx : Extends env s s₁ W W []) (hne : W ≠ [])
    (h : compile f s₁ = .ok ((), s')) :
    ∃ e c W', Elab env W.visible false s₁.gensym f e s'.gensym ∧
      Emits env s s' W W' c fun T lo hi => Compiles env T W.names W.recurSlots lo hi e c := by
  obtain ⟨e, c, W', he, hem⟩ := hc hx.tracks h
  rw [isEmpty_of_ne_nil hne] at he
  exact ⟨e, c, W', he, Emits.widen hx rfl ht hem⟩

/-- Bindings, then code in their scope, then the names taken back. -/
theorem scoped_sound {s s₁ s₃ s' : Session} {W W₁ W₃ W₄ : World} {l : List (Code × Nat)}
    {cb : Code} {R : Tables → Nat → Nat → Prop}
    (ht : Tracks env s W) (hx : Extends env s s₁ W W₁ ((bindsCode l .nil).flatten s.offset))
    (hem : Emits env s₁ s₃ W₁ W₃ cb R) (hr : Reset env s₃ s' W₃ W₄)
    (hs : SameScope W W₄) {Q : Tables → Nat → Nat → Prop}
    (hR : ∀ T, Final T s₁ W₁ → R T W₁.next W₃.next → Q T W.next W₃.next) :
    Emits env s s' W W₄ (bindsCode l cb) Q := by
  have hall := hx.trans hem.grows
  have hoff := Extends.offset ht hx
  rw [Code.flatten_length] at hoff
  rw [hoff, ← bindsCode_flatten] at hall
  have hout := hall.out
  rw [← hr.out] at hout
  refine ⟨⟨hr.tracks, hs.grows, hout⟩, hs.names, fun T hf => ?_⟩
  have hf₃ := hf.of_reset hr
  rw [hr.next]
  exact hR T (hem.back hf₃) (hem.rel T hf₃)

/-- Only where every target is a symbol is there nothing to rewrite. -/
theorem destructureBindings_none {fuel : Nat} {items : List Form} {s s' : Session}
    (h : destructureBindings env fuel items s = .ok (none, s')) : simpleBindings items = true ∧ s' = s := by
  unfold destructureBindings at h
  split_ifs at h with hsimple
  · exact ⟨hsimple, (pure_ok.mp h).2⟩
  · obtain ⟨_, _, -, hp⟩ := bind_ok.mp h
    cases (pure_ok.mp hp).1

theorem compileLetForm_sound (hc : Sound env compile) {fuel : Nat} {head : Form} {core : Bool}
    {rest : List Form} {s s' : Session} {W : World} (ht : Tracks env s W) (hne : W ≠ [])
    (hd : HeadIs env W.visible head "let" core)
    (h : compileLetForm env compile fuel head rest s = .ok ((), s')) :
    ∃ e c W', Elab env W.visible false s.gensym (.list (head :: rest)) e s'.gensym ∧
      Emits env s s' W W' c fun T lo hi => Compiles env T W.names W.recurSlots lo hi e c := by
  cases rest with
  | nil => exact (fail_ok.mp h).elim
  | cons bindings body =>
    obtain ⟨items, s₁, h₁, hk₁⟩ := bind_ok.mp h
    obtain ⟨r, s₂, h₂, hk₂⟩ := bind_ok.mp hk₁
    obtain rfl := (onlyGensym_bindingItems "let" bindings).same h₁
    cases r with
    | some flat =>
      have hx := (onlyGensym_destructureBindings fuel items).extends ht h₂
      obtain ⟨e, c, W', he, hem⟩ := rewritten_sound hc ht hx hne hk₂
      exact ⟨e, c, W', .letPattern hd ⟨_, _, h₁⟩ ⟨_, _, rfl, rfl, h₂⟩ he, hem⟩
    | none =>
      obtain ⟨hsimple, rfl⟩ := destructureBindings_none h₂
      obtain ⟨⟨slots, saved⟩, s₃, h₃, hk₃⟩ := bind_ok.mp hk₂
      obtain ⟨_, s₄, h₄, hk₄⟩ := bind_ok.mp hk₃
      have hg : s'.gensym = s₄.gensym := KeepsGensym.onTopScope _ _ _ _ hk₄
      obtain ⟨bs, parts, W₁, hbs, rfl, hlen, hgrows, hb, hrel⟩ :=
        compileBindings_sound hc "let" (bindingItems_even h₁) hne ht h₃
      obtain ⟨e, cb, W₃, he, hem⟩ := compileDo_sound hc (.refl W₁) hgrows.tracks h₄
      obtain ⟨W₄, hr, hs⟩ := restore_sound hb hem.same hem.tracks hne hk₄
      have hne₁ : W₁ ≠ [] := by
        rintro rfl
        cases hb.grows
        exact hne rfl
      rw [hb.visible hlen hne, isEmpty_of_ne_nil hne₁, ← hg] at he
      refine ⟨bindAll bs e, bindsCode parts cb, W₄, .let hd ⟨_, _, h₁⟩ hsimple hbs he, ?_⟩
      refine scoped_sound ht hgrows hem hr hs fun T hf hR => ?_
      rw [hb.names, hb.grows.recurSlots] at hR
      exact compilesBinds_bindAll (hrel T hf) hR

/-! ### Targets of `recur` -/

/-- A change of what the innermost scope allows, with the change that takes it back. -/
structure Within (env : Env) (s s₁ : Session) (W W₁ : World) (out : Scope → Scope) : Prop where
  reset : Reset env s s₁ W W₁
  names : W₁.map (·.1.names) = W.map (·.1.names)
  ne_nil : W₁ ≠ []
  /-- leaving, at a later state of the scope -/
  leave : ∀ {s₃ : Session} {W₃ : World}, SameScope W₁ W₃ → Tracks env s₃ W₃ →
    s.out.code.length ≤ s₃.out.code.length →
    ∃ W₄, Reset env s₃ { s₃ with scopes := s₃.scopes.modifyHead out } W₃ W₄ ∧ SameScope W W₄

/-- `into` and `out` change the target stack and the `try` depth only, and `out` undoes
`into`. -/
theorem within_sound {s : Session} {W : World} (ht : Tracks env s W) (hne : W ≠ [])
    {i o : Scope → Scope} (hinto : ∀ sc : Scope, (i sc).nameToSlot = sc.nameToSlot ∧
      (i sc).nextSlot = sc.nextSlot ∧ (i sc).arity = sc.arity ∧
      (i sc).captures = sc.captures)
    (hout : ∀ sc : Scope, (o sc).nameToSlot = sc.nameToSlot ∧
      (o sc).nextSlot = sc.nextSlot ∧ (o sc).arity = sc.arity ∧
      (o sc).captures = sc.captures)
    (hback : ∀ sc sc' : Scope, sc'.recurStack = (i sc).recurStack →
      sc'.tryDepth = (i sc).tryDepth →
      (o sc').recurStack = sc.recurStack ∧ (o sc').tryDepth = sc.tryDepth)
    (htargets : ∀ sc : Scope, (∀ t ∈ sc.recurStack, t.tryDepth ≤ sc.tryDepth) →
      ∀ t ∈ (i sc).recurStack, t.tryDepth ≤ (i sc).tryDepth)
    (hstart : ({ s with scopes := s.scopes.modifyHead i } : Session).bodyStart ≤
      s.out.code.length) :
    ∃ g sc V, W = (g, sc) :: V ∧
      Within env s { s with scopes := s.scopes.modifyHead i } W ((g, i sc) :: V) o := by
  obtain ⟨⟨g, sc⟩, V, rfl⟩ := List.exists_cons_of_ne_nil hne
  obtain ⟨hscopes, ⟨hok, hV⟩, hstart₀, hlaid⟩ := ht
  obtain ⟨h₁, h₂, h₃, h₄⟩ := hinto sc
  have hsc : s.scopes.modifyHead i = i sc :: V.map (·.2) := by
    rw [hscopes]
    rfl
  have hok₁ : ScopeOk g V (i sc) :=
    ⟨h₁.trans hok.slots, h₄.trans hok.captures, h₂ ▸ hok.names_lt, h₂ ▸ hok.captured_lt, hok.nodup,
      hok.parent, hok.seen, htargets sc hok.targets⟩
  refine ⟨g, sc, V, rfl, ⟨⟨hsc, ⟨hok₁, hV⟩, hstart, hlaid⟩, rfl, rfl, h₂, rfl⟩, rfl, by simp, ?_⟩
  intro s₃ W₃ hs ht₃ hlen
  obtain ⟨r, V₃, hr, hV₃, rfl⟩ := List.forall₂_cons_left_iff.mp hs.grows
  obtain ⟨hscopes₃, ⟨hok₃, hVok⟩, -, hlaid₃⟩ := ht₃
  obtain ⟨k₁, k₂, k₃, k₄⟩ := hout r.2
  obtain ⟨b₁, b₂⟩ := hback sc r.2 hr.recurStack hr.tryDepth
  have hsc₃ : s₃.scopes.modifyHead o = o r.2 :: V₃.map (·.2) := by
    rw [hscopes₃]
    rfl
  have hok₄ : ScopeOk r.1 V₃ (o r.2) := by
    refine ⟨k₁.trans hok₃.slots, k₄.trans hok₃.captures, k₂ ▸ hok₃.names_lt, k₂ ▸ hok₃.captured_lt,
      hok₃.nodup, hok₃.parent, hok₃.seen, ?_⟩
    rw [b₁, b₂]
    exact hok.targets
  refine ⟨(r.1, o r.2) :: V₃, ⟨⟨hsc₃, ⟨hok₄, hVok⟩, ?_, hlaid₃⟩, rfl, rfl, k₂, rfl⟩, .cons ?_ hV₃,
    hs.names⟩
  · rw [Session.bodyStart, hscopes] at hstart₀
    rw [Session.bodyStart, hsc₃]
    simp only [List.map_cons] at hstart₀
    simp only [b₁]
    exact hstart₀.trans hlen
  · have hcap := hr.captured
    simp only [h₂] at hcap
    exact ⟨hr.names, hcap, k₂.ge.trans' (h₂ ▸ hr.next), k₃.trans (hr.arity.trans h₃), b₁, b₂⟩

/-- Code emitted between entering and leaving. -/
theorem Within.emits {s s₁ s₃ : Session} {W W₁ W₃ : World} {out : Scope → Scope} {c d : Code}
    {R : Tables → Nat → Nat → Prop} (hw : Within env s s₁ W W₁ out) (hem : Emits env s₁ s₃ W₁ W₃ c R)
    (hc : d.flatten s.offset = c.flatten s₁.offset) :
    ∃ W₄, Emits env s { s₃ with scopes := s₃.scopes.modifyHead out } W W₄ d R := by
  have hout := hem.grows.out
  rw [hw.reset.out, ← hc] at hout
  obtain ⟨W₄, hr, hs⟩ := hw.leave hem.same hem.tracks (by simp [hout.code])
  refine ⟨W₄, ⟨hr.tracks, hs.grows, ?_⟩, hs.names, fun T hf => ?_⟩
  · rw [← hr.out] at hout
    exact hout
  · rw [hr.next, ← hw.reset.next]
    exact hem.rel T (hf.of_reset hr)

def enterLoop (start : Nat) (slots : List Nat) (sc : Scope) : Scope :=
  { sc with recurStack := { bodyStart := start, slots, tryDepth := sc.tryDepth } :: sc.recurStack }

def leaveLoop (sc : Scope) : Scope := { sc with recurStack := sc.recurStack.tail }

theorem keepsGensym_pushRecurTarget (slots : List Nat) : KeepsGensym (pushRecurTarget slots) :=
  .bind .get fun _ => .onTopScope _

theorem pushRecurTarget_sound {slots : List Nat} {s s₁ : Session} {W : World} (ht : Tracks env s W)
    (hne : W ≠ []) (h : pushRecurTarget slots s = .ok ((), s₁)) :
    ∃ W₁, Within env s s₁ W W₁ leaveLoop ∧ s₁.offset = 0 ∧ W₁.recurSlots = some slots := by
  obtain ⟨t, s', hg, hk⟩ := bind_ok.mp h
  obtain ⟨ht', hs'⟩ := get_ok.mp hg
  rw [ht', hs'] at hk
  obtain rfl := onTopScope_ok.mp hk
  have hstart : ({ s with scopes := s.scopes.modifyHead (enterLoop s.out.pos slots) } :
      Session).bodyStart = s.out.code.length := by
    obtain ⟨p, V, rfl⟩ := List.exists_cons_of_ne_nil hne
    rw [Session.bodyStart, ht.scopes]
    rfl
  obtain ⟨g, sc, V, rfl, hw⟩ := within_sound ht hne (i := enterLoop s.out.pos slots)
    (o := leaveLoop) (fun _ => ⟨rfl, rfl, rfl, rfl⟩) (fun _ => ⟨rfl, rfl, rfl, rfl⟩)
    (fun sc sc' h₁ h₂ => ⟨by rw [leaveLoop, h₁]; rfl, h₂⟩)
    (fun sc hsc t ht => by
      rcases List.mem_cons.mp ht with rfl | ht
      · exact Nat.le_refl _
      · exact hsc t ht) hstart.le
  refine ⟨_, hw, ?_, if_pos rfl⟩
  rw [Session.offset]
  exact Nat.sub_eq_zero_of_le hstart.ge

theorem enterTry_sound {s s₁ : Session} {W : World} (ht : Tracks env s W) (hne : W ≠ [])
    (h : changeTryDepth (· + 1) s = .ok ((), s₁)) :
    ∃ W₁, Within env s s₁ W W₁ (fun sc => { sc with tryDepth := sc.tryDepth - 1 }) ∧
      s₁.offset = s.offset ∧ W₁.recurSlots = none := by
  obtain rfl := onTopScope_ok.mp h
  have hstart : ({ s with scopes := s.scopes.modifyHead fun sc =>
      { sc with tryDepth := sc.tryDepth + 1 } } : Session).bodyStart = s.bodyStart := by
    obtain ⟨p, V, rfl⟩ := List.exists_cons_of_ne_nil hne
    rw [Session.bodyStart, Session.bodyStart, ht.scopes]
    rfl
  obtain ⟨g, sc, V, rfl, hw⟩ := within_sound ht hne
    (i := fun sc => { sc with tryDepth := sc.tryDepth + 1 })
    (o := fun sc => { sc with tryDepth := sc.tryDepth - 1 })
    (fun _ => ⟨rfl, rfl, rfl, rfl⟩) (fun _ => ⟨rfl, rfl, rfl, rfl⟩)
    (fun sc sc' h₁ h₂ => ⟨h₁, by rw [h₂]; exact Nat.add_sub_cancel _ _⟩)
    (fun sc hsc t ht => (hsc t ht).trans (Nat.le_succ _)) (hstart.le.trans ht.start)
  refine ⟨_, hw, ?_, ?_⟩
  · rw [Session.offset, Session.offset, hstart]
  · change Scope.recurSlots { sc with tryDepth := sc.tryDepth + 1 } = none
    have htargets := ht.ok.1.targets
    rw [Scope.recurSlots]
    cases hr : sc.recurStack with
    | nil => rfl
    | cons tgt rest =>
      have hle := htargets tgt (by rw [hr]; exact List.mem_cons_self)
      exact if_neg (by simp only; omega)

theorem compileLoopForm_sound (hc : Sound env compile) {head : Form} {core : Bool}
    {rest : List Form} {s s' : Session} {W : World} (ht : Tracks env s W) (hne : W ≠ [])
    (hd : HeadIs env W.visible head "loop" core)
    (h : compileLoopForm compile head rest s = .ok ((), s')) :
    ∃ e c W', Elab env W.visible false s.gensym (.list (head :: rest)) e s'.gensym ∧
      Emits env s s' W W' c fun T lo hi => Compiles env T W.names W.recurSlots lo hi e c := by
  cases rest with
  | nil => exact (fail_ok.mp h).elim
  | cons bindings body =>
    obtain ⟨items, s₁, h₁, hk₁⟩ := bind_ok.mp h
    obtain rfl := (onlyGensym_bindingItems "loop" bindings).same h₁
    cases hsimple : simpleBindings items with
    | false =>
      rw [if_neg (by simp [hsimple])] at hk₁
      obtain ⟨⟨outer, loopBs, inner⟩, s₂, h₂, hk₂⟩ := bind_ok.mp hk₁
      have hx := (onlyGensym_loopRewrite (pairUp items)).extends ht h₂
      obtain ⟨e, c, W', he, hem⟩ := rewritten_sound hc ht hx hne hk₂
      exact ⟨e, c, W', .loopPattern hd ⟨_, _, h₁⟩ hsimple ⟨_, _, rfl, rfl, h₂⟩ he, hem⟩
    | true =>
      rw [if_pos hsimple] at hk₁
      obtain ⟨⟨slots, saved⟩, s₃, h₃, hk₃⟩ := bind_ok.mp hk₁
      obtain ⟨_, s₄, h₄, hk₄⟩ := bind_ok.mp hk₃
      obtain ⟨_, s₅, h₅, hk₅⟩ := bind_ok.mp hk₄
      obtain ⟨_, s₆, h₆, hk₆⟩ := bind_ok.mp hk₅
      obtain rfl := onTopScope_ok.mp h₆
      have hg : s'.gensym = s₅.gensym := (KeepsGensym.onTopScope _ _ _ _ hk₆).trans rfl
      obtain ⟨bs, parts, W₁, hbs, rfl, hlen, hgrows, hb, hrel⟩ :=
        compileBindings_sound hc "loop" (bindingItems_even h₁) hne ht h₃
      have hne₁ : W₁ ≠ [] := by
        rintro rfl
        cases hb.grows
        exact hne rfl
      obtain ⟨W₂, hw, hoff, hslots⟩ := pushRecurTarget_sound hgrows.tracks hne₁ h₄
      obtain ⟨e, cb, W₃, he, hem⟩ := compileDo_sound hc (.refl W₂) hw.reset.tracks h₅
      obtain ⟨W₄, hem₄⟩ := hw.emits (d := .loop cb) hem (by rw [hoff]; rfl)
      obtain ⟨W₅, hr, hs⟩ := restore_sound hb hem₄.same hem₄.tracks hne hk₆
      rw [World.visible_eq hw.names, hb.visible hlen hne, isEmpty_of_ne_nil hw.ne_nil, ← hg,
        keepsGensym_pushRecurTarget _ _ _ _ h₄] at he
      refine ⟨.loop bs e, .seq (bindsCode parts .nil) (.loop cb), W₅,
        .loop hd ⟨_, _, h₁⟩ hsimple hbs he, ?_⟩
      have hall := scoped_sound (W := W) (Q := fun T lo hi =>
          Compiles env T W.names W.recurSlots lo hi (.loop bs e)
            (.seq (bindsCode parts .nil) (.loop cb))) ht hgrows hem₄ hr hs fun T hf hR => by
        rw [World.names_eq hw.names, hb.names, hslots] at hR
        exact .loop (hrel T hf) hR
      refine hall.congr fun k => ?_
      rw [bindsCode_flatten]
      rfl

theorem emitStores_sound : ∀ {slots : List Nat} {s s' : Session} {W : World}, Tracks env s W →
    emitStores slots s = .ok ((), s') →
    Emits env s s' W W (.stores slots) fun _ lo hi => lo = hi
  | [], s, s', W, ht, h => by
    obtain ⟨-, rfl⟩ := pure_ok.mp h
    exact .nil ht fun _ _ => rfl
  | slot :: rest, s, s', W, ht, h => by
    obtain ⟨_, s₁, h₁, hk⟩ := bind_ok.mp h
    obtain ⟨-, rfl⟩ := emit_unit_ok.mp h₁
    have hins := Emits.ins ht ⟨.storeLocal, slot⟩ (R := fun _ lo hi => lo = hi) fun _ _ => rfl
    have hall := Emits.seq ht hins (emitStores_sound hins.tracks hk)
    refine hall.mono ?_
    rintro T lo hi - ⟨mid, rfl, rfl⟩
    rfl

theorem keepsGensym_emitStores : ∀ slots : List Nat, KeepsGensym (emitStores slots)
  | [] => .pure _
  | slot :: rest => .bind (.emit_ .storeLocal slot) fun _ => keepsGensym_emitStores rest

theorem keepsGensym_markRecur : KeepsGensym (markRecur env) :=
  .bind (.marking env) fun _ => .ite (.emit_ _ _) (.pure _)

/-- What places a line mark changes nothing else. -/
theorem markRecur_sound {s s' : Session} {W : World} (ht : Tracks env s W)
    (h : markRecur env s = .ok ((), s')) :
    ∃ k, Mark k ∧ Emits env s s' W W k fun _ lo hi => lo = hi := by
  obtain ⟨b, s₁, h₁, hk⟩ := bind_ok.mp h
  obtain rfl := marking_ok h₁
  rcases ite_ok.mp hk with ⟨-, hk⟩ | ⟨-, hk⟩
  · obtain ⟨-, rfl⟩ := emit_unit_ok.mp hk
    exact ⟨_, .line 0, .ins ht ⟨.line, 0⟩ fun _ _ => rfl⟩
  · obtain ⟨-, rfl⟩ := pure_ok.mp hk
    exact ⟨_, .none, .nil ht fun _ _ => rfl⟩

theorem compileRecur_sound (hc : Sound env compile) {head : Form} {core : Bool}
    {rest : List Form} {s s' : Session} {W : World} (ht : Tracks env s W)
    (hd : HeadIs env W.visible head "recur" core) (h : compileRecur env compile rest s = .ok ((), s')) :
    ∃ e c W', Elab env W.visible W.isEmpty s.gensym (.list (head :: rest)) e s'.gensym ∧
      Emits env s s' W W' c fun T lo hi => Compiles env T W.names W.recurSlots lo hi e c := by
  obtain ⟨t, s₁, hg, hk⟩ := bind_ok.mp h
  obtain ⟨ht', hs'⟩ := get_ok.mp hg
  rw [ht', hs'] at hk
  have hscopes := ht.scopes
  match W, hscopes with
  | [], hscopes =>
    rw [hscopes] at hk
    exact (fail_ok.mp hk).elim
  | (g, sc) :: V, hscopes =>
    simp only [hscopes, List.map_cons] at hk
    cases hr : sc.recurStack with
    | nil =>
      simp only [hr] at hk
      exact (fail_ok.mp hk).elim
    | cons tgt targets =>
      simp only [hr] at hk
      obtain ⟨htry, hk⟩ := guard_ok.mp hk
      obtain ⟨hlen, hk⟩ := guard_ok.mp hk
      obtain ⟨_, s₂, h₂, hk₂⟩ := bind_ok.mp hk
      obtain ⟨_, s₃, h₃, hk₃⟩ := bind_ok.mp hk₂
      obtain ⟨_, s₄, h₄, hk₄⟩ := bind_ok.mp hk₃
      obtain ⟨jb, s₅, h₅, hk₅⟩ := bind_ok.mp hk₄
      obtain ⟨-, rfl, rfl⟩ := emit_ok.mp h₅
      obtain rfl := patchOperand_ok hk₅
      have hslots : World.recurSlots ((g, sc) :: V) = some tgt.slots := by
        change sc.recurSlots = some tgt.slots
        rw [Scope.recurSlots, hr]
        exact if_pos (not_not.mp htry)
      obtain ⟨es, cs, W₁, hes, hl, hems⟩ := compileArgs_sound hc (.refl _) ht h₂
      have hst := emitStores_sound hems.tracks h₃
      obtain ⟨k, hmark, hmk⟩ := markRecur_sound hst.tracks h₄
      have hg : s₄.gensym = s₂.gensym :=
        (keepsGensym_markRecur _ _ _ h₄).trans (keepsGensym_emitStores _ _ _ _ h₃)
      rw [← hg] at hes
      have hstart : s₄.bodyStart = tgt.bodyStart := by
        rw [Session.bodyStart_eq ht.scopes hmk.tracks.scopes
          ((hems.same.trans hst.same).trans hmk.same).grows, Session.bodyStart, ht.scopes]
        simp [hr]
      have hn : s₄.out.code.length + 1 - tgt.bodyStart = s₄.offset + 1 := by
        have hle := hmk.tracks.start
        rw [Session.offset, ← hstart]
        omega
      rw [hn]
      have hjump : Emits env s₄ ((s₄.push ⟨.jumpBack, 0⟩).patch s₄.out.code.length (s₄.offset + 1)) W₁ W₁
          .recur fun _ lo hi => lo = hi :=
        ⟨Extends.patch (u := []) (Extends.push hmk.tracks ⟨.jumpBack, 0⟩) rfl _, rfl, fun _ _ => rfl⟩
      refine ⟨.recur es, .seq cs (.seq (.stores tgt.slots.reverse) (.seq k .recur)), W₁, .recur hd hes,
        (Emits.seq ht hems (Emits.seq hems.tracks hst (Emits.seq hst.tracks hmk hjump))).mono ?_⟩
      rintro T lo hi - ⟨mid, h₁, mid', rfl, mid'', rfl, rfl⟩
      rw [hslots] at h₁ ⊢
      exact .recur (by rw [hl]; exact not_not.mp hlen) h₁ hmark

/-! ### `try` -/

theorem keepsGensym_freshSlot : KeepsGensym freshSlot := by
  refine .bind .get fun s => ?_
  split
  · exact .throw _
  · exact .bind (.onTopScope _) fun _ => .pure _

theorem freshSlot_sound {s s₁ : Session} {W : World} {slot : Nat} (ht : Tracks env s W)
    (h : freshSlot s = .ok (slot, s₁)) :
    ∃ W₁, Extends env s s₁ W W₁ [] ∧ W₁.map (·.1.names) = W.map (·.1.names) ∧ slot = W.next ∧
      W₁.next = slot + 1 ∧ ∀ p ∈ W₁.captured, p.2.localSlot ≠ slot := by
  obtain ⟨hscopes, hok, hstart, hlaid⟩ := ht
  obtain ⟨t, s', hg, hk⟩ := bind_ok.mp h
  obtain ⟨ht', hs'⟩ := get_ok.mp hg
  rw [ht', hs'] at hk
  match W, hscopes, hok with
  | [], hscopes, _ =>
    rw [hscopes] at hk
    exact (throw_ok.mp hk).elim
  | (g, sc) :: V, hscopes, ⟨hg, hV⟩ =>
    simp only [hscopes, List.map_cons] at hk
    obtain ⟨_, s₂, h₂, hp⟩ := bind_ok.mp hk
    obtain rfl := onTopScope_ok.mp h₂
    obtain ⟨rfl, rfl⟩ := pure_ok.mp hp
    let sc₁ : Scope := { sc with nextSlot := sc.nextSlot + 1 }
    have hok₁ : ScopeOk g V sc₁ :=
      ⟨hg.slots, hg.captures, fun p hp => Nat.lt_succ_of_lt (hg.names_lt p hp),
        fun p hp => Nat.lt_succ_of_lt (hg.captured_lt p hp), hg.nodup, hg.parent, hg.seen, hg.targets⟩
    have hsc : s.scopes.modifyHead (fun scope => { scope with nextSlot := scope.nextSlot + 1 }) =
        sc₁ :: V.map (·.2) := by
      rw [hscopes]
      rfl
    refine ⟨(g, sc₁) :: V, ⟨⟨hsc, ⟨hok₁, hV⟩, ?_, hlaid⟩, .cons ?_ (Grows.refl V), .refl _⟩, rfl, rfl, rfl,
      fun p hp => Nat.ne_of_lt (hg.captured_lt p hp)⟩
    · rw [Session.bodyStart, hscopes] at hstart
      rw [Session.bodyStart, hsc]
      exact hstart
    · exact ⟨List.suffix_rfl, ⟨[], by simp, by simp⟩, Nat.le_succ _, rfl, rfl, rfl⟩

theorem keepsGensym_bindTo (x : String) (slot : Nat) : KeepsGensym (bindTo x slot) := by
  refine .bind .get fun s => ?_
  split
  · exact .throw _
  · exact .bind (.onTopScope _) fun _ => .pure _

/-- Naming the slot of the exception for a clause. -/
theorem bindTo_sound {x : String} {slot : Nat} {s s₁ : Session} {W : World} {saved : Saved}
    (ht : Tracks env s W) (hslot : slot < W.next) (h : bindTo x slot s = .ok (saved, s₁)) :
    ∃ W₁, Reset env s s₁ W W₁ ∧ NamesBound W W₁ [(x, slot)] [saved] ∧ W ≠ [] ∧ s₁.offset = s.offset ∧
      W₁.recurSlots = W.recurSlots ∧ W₁.visible = withName x W.visible := by
  obtain ⟨hscopes, hok, hstart, hlaid⟩ := ht
  obtain ⟨t, s', hg, hk⟩ := bind_ok.mp h
  obtain ⟨ht', hs'⟩ := get_ok.mp hg
  rw [ht', hs'] at hk
  match W, hscopes, hok, hslot with
  | [], hscopes, _, _ =>
    rw [hscopes] at hk
    exact (throw_ok.mp hk).elim
  | (g, sc) :: V, hscopes, ⟨hg, hV⟩, hslot =>
    simp only [hscopes, List.map_cons] at hk
    obtain ⟨_, s₂, h₂, hp⟩ := bind_ok.mp hk
    obtain rfl := onTopScope_ok.mp h₂
    obtain ⟨rfl, rfl⟩ := pure_ok.mp hp
    let sc₁ : Scope := { sc with nameToSlot := Function.update sc.nameToSlot x (some slot) }
    have hok₁ : ScopeOk (g.bind x slot) V sc₁ := by
      refine ⟨?_, hg.captures, ?_, hg.captured_lt, hg.nodup, hg.parent, hg.seen, hg.targets⟩
      · rw [Ghost.slotOf_bind, ← hg.slots]
      · intro p hp
        rcases List.mem_cons.mp hp with rfl | hp
        · exact hslot
        · exact hg.names_lt p hp
    have hsc : s.scopes.modifyHead (fun scope => { scope with
        nameToSlot := Function.update scope.nameToSlot x (some slot) }) = sc₁ :: V.map (·.2) := by
      rw [hscopes]
      rfl
    have hstart' : ({ s with scopes := s.scopes.modifyHead (fun scope => { scope with
        nameToSlot := Function.update scope.nameToSlot x (some slot) }) } : Session).bodyStart =
        s.bodyStart := by
      rw [Session.bodyStart, Session.bodyStart, hscopes]
      rfl
    refine ⟨(g.bind x slot, sc₁) :: V, ⟨⟨hsc, ⟨hok₁, hV⟩, hstart'.le.trans hstart, hlaid⟩, rfl, rfl, rfl,
      rfl⟩, ⟨.cons ?_ (Grows.refl V), rfl, rfl, ?_⟩, by simp, ?_, rfl, visible_bind g sc sc₁ V x slot⟩
    · exact ⟨List.suffix_cons _ _, ⟨[], by simp [Ghost.bind], by simp⟩, Nat.le_refl _, rfl, rfl, rfl⟩
    · intro new hnew
      have hbind : Ghost.slotOf ⟨(x, slot) :: g.names, g.captured ++ new⟩ =
          Function.update (Ghost.slotOf ⟨g.names, g.captured ++ new⟩) x (some slot) :=
        Ghost.slotOf_bind ⟨g.names, g.captured ++ new⟩ x slot
      change Function.update (Ghost.slotOf ⟨(x, slot) :: g.names, g.captured ++ new⟩) x
        (sc.nameToSlot x) = Ghost.slotOf ⟨g.names, g.captured ++ new⟩
      have hx : sc.nameToSlot x = Ghost.slotOf ⟨g.names, g.captured ++ new⟩ x := by
        rw [hg.slots, slotOf_other]
        exact fun c hc => lookup_cons_ne (hnew c hc)
      rw [hbind, Function.update_idem, hx, Function.update_eq_self]
    · rw [Session.offset, Session.offset, hstart']

theorem SameScope.ne_nil {V W : World} (hs : SameScope V W) (hne : V ≠ []) : W ≠ [] := by
  rintro rfl
  cases hs.grows
  exact hne rfl

theorem keepsGensym_compileCatchType (qualified : String) : KeepsGensym (compileCatchType qualified) := by
  refine .bind (.resolveLocal _) fun r => ?_
  cases r with
  | some slot => exact .emit_ _ _
  | none =>
    dsimp only
    split
    on_goal 1 => refine .bind (.resolveLocal _) fun r => ?_; cases r
    -- whether a local was found or not, the rest is the same
    all_goals
      refine .bind (.pure _) fun r => ?_
      rcases r with _ | ⟨slot, b⟩
      · exact .constOp _ _
      · exact .bind (.emit_ _ _) fun _ => .constOp _ _

theorem compileCatchType_sound {qualified : String} {s s₁ : Session} {W : World} (ht : Tracks env s W)
    (h : compileCatchType qualified s = .ok ((), s₁)) :
    ∃ ws W₁, Extends env s s₁ W W₁ ws ∧ W₁.map (·.1.names) = W.map (·.1.names) ∧
      ∀ T ex i, Final T s₁ W₁ → T.consts[i]? = some (.symbol qualified) →
        CompilesTest T W.names ex (catchTest W.visible ⟨none, qualified, "", []⟩)
          (.block (⟨.pushLocal, ex⟩ :: (ws ++ [⟨.excMatchType, i⟩]))) := by
  obtain ⟨r, s₂, h₂, hk⟩ := bind_ok.mp h
  rw [catchTest]
  simp only
  rcases resolveLocal_sound ht h₂ with ⟨hv, rfl, rfl⟩ | ⟨slot, W₁, rfl, hv, hx, hn, hl⟩
  · simp only [hv, Bool.false_eq_true, if_false]
    -- the class is looked up by its name when no part of the name is a local
    have hresolve : ∀ {name : String} {s₃ : Session}, Tracks env s₃ W → (do
        let i ← addSymbol name
        emit_ .resolveClass i : CompileM Unit) s₃ = .ok ((), s₁) →
        ∃ ws W₁, Extends env s₃ s₁ W W₁ ws ∧ W₁.map (·.1.names) = W.map (·.1.names) ∧
          ∀ T ex i, Final T s₁ W₁ → T.consts[i]? = some (.symbol qualified) →
            CompilesTest T W.names ex (.resolved name qualified)
              (.block (⟨.pushLocal, ex⟩ :: (ws ++ [⟨.excMatchType, i⟩]))) := by
      intro name s₃ ht₃ h₃
      obtain ⟨j, hem⟩ := constOp_sound ht₃ (addSymbol_adds name) h₃
      exact ⟨[⟨.resolveClass, j⟩], W, hem.grows, rfl, fun T ex i hf hi => .resolved (hem.rel T hf).2 hi⟩
    cases hq : qualifiedParts ((stripUserQualifier qualified).getD qualified) with
    | none =>
      simp only [hq] at hk
      obtain ⟨l, s₃, h₃, hk₃⟩ := bind_ok.mp hk
      obtain ⟨rfl, rfl⟩ := pure_ok.mp h₃
      exact hresolve ht hk₃
    | some ab =>
      simp only [hq] at hk ⊢
      obtain ⟨r, s₃, h₃, hk₃⟩ := bind_ok.mp hk
      rcases resolveLocal_sound ht h₃ with ⟨hva, rfl, rfl⟩ | ⟨slot, W₁, rfl, hva, hx, hn, hl⟩
      · obtain ⟨l, s₄, h₄, hk₄⟩ := bind_ok.mp hk₃
        obtain ⟨rfl, rfl⟩ := pure_ok.mp h₄
        simp only [hva, Bool.false_eq_true, if_false]
        exact hresolve ht hk₄
      · obtain ⟨l, s₄, h₄, hk₄⟩ := bind_ok.mp hk₃
        obtain ⟨rfl, rfl⟩ := pure_ok.mp h₄
        simp only [hva, if_true]
        obtain ⟨_, s₅, h₅, hk₅⟩ := bind_ok.mp hk₄
        obtain ⟨-, rfl⟩ := emit_unit_ok.mp h₅
        have hx' := hx.trans (.push hx.tracks ⟨.pushLocal, slot⟩)
        obtain ⟨j, hem⟩ := constOp_sound hx'.tracks (addSymbol_adds ab.2) hk₅
        refine ⟨[⟨.pushLocal, slot⟩, ⟨.getMember, j⟩], W₁, hx'.trans hem.grows, hn,
          fun T ex i hf hi => .boundMember ?_ (hem.rel T hf).2 hi⟩
        rw [← World.names_eq hn]
        exact (hem.back hf).of_push.slotOf_some hl
  · obtain ⟨-, rfl⟩ := emit_unit_ok.mp hk
    simp only [hv, if_true]
    refine ⟨[⟨.pushLocal, slot⟩], W₁, hx.trans (.push hx.tracks _), hn, fun T ex i hf hi => ?_⟩
    refine .bound ?_ hi
    rw [← World.names_eq hn]
    exact hf.of_push.slotOf_some hl

/-- The test in front of a catch clause, and what is left to run after it. -/
theorem catchTest_sound {exSlot : Nat} {c : CatchClause} {s s' : Session} {W : World}
    {doneAt : Nat} (ht : Tracks env s W) (h : compileCatch compile exSlot c s = .ok (doneAt, s')) :
    ∃ ct s₁ W₁, Emits env s s₁ W W₁ ct (fun T lo hi => lo ≤ hi ∧
        CompilesTest T W.names exSlot (catchTest W.visible c) ct) ∧ s₁.gensym = s.gensym ∧
      (do
        let nextAt ← emit .jumpIfFalse 0
        let saved ← bindTo c.binding exSlot
        compileDo compile c.body
        restore [saved]
        let doneAt ← emit .jump 0
        patchTo nextAt (← pos)
        return doneAt : CompileM Nat) s₁ = .ok (doneAt, s') := by
  obtain ⟨_, s₁, h₁, hk₁⟩ := bind_ok.mp h
  obtain ⟨-, rfl⟩ := emit_unit_ok.mp h₁
  have hx₁ := Extends.push ht ⟨.pushLocal, exSlot⟩
  cases hid : c.classId with
  | some id =>
    simp only [hid] at hk₁
    obtain ⟨_, s₂, h₂, hk₂⟩ := bind_ok.mp hk₁
    obtain ⟨-, rfl⟩ := emit_unit_ok.mp h₂
    refine ⟨.block [⟨.pushLocal, exSlot⟩, ⟨.excMatch, id⟩], (s.push ⟨.pushLocal, exSlot⟩).push ⟨.excMatch, id⟩, W,
      ⟨?_, rfl, fun T hf => ?_⟩, rfl, hk₂⟩
    · rw [Code.flatten_block]
      exact hx₁.trans (.push hx₁.tracks _)
    · rw [catchTest, hid]
      exact ⟨Nat.le_refl _, .builtin id⟩
  | none =>
    simp only [hid] at hk₁
    obtain ⟨_, s₂, h₂, hk₂⟩ := bind_ok.mp hk₁
    obtain ⟨i, s₃, h₃, hk₃⟩ := bind_ok.mp hk₂
    obtain ⟨_, s₄, h₄, hk₄⟩ := bind_ok.mp hk₃
    obtain ⟨ws, W₁, hx₂, hn, htest⟩ := compileCatchType_sound hx₁.tracks h₂
    have hg : s₄.gensym = s.gensym :=
      ((KeepsGensym.constOp _ _ _ _ _ (bind_ok.mpr ⟨i, s₃, h₃, h₄⟩)).trans
        (keepsGensym_compileCatchType _ _ _ _ h₂)).trans rfl
    obtain ⟨j, hem⟩ := constOp_sound (o := .excMatchType) hx₂.tracks (addSymbol_adds c.className)
      (bind_ok.mpr ⟨i, s₃, h₃, h₄⟩)
    refine ⟨.block (⟨.pushLocal, exSlot⟩ :: (ws ++ [⟨.excMatchType, j⟩])), _, W₁,
      ⟨?_, hn, fun T hf => ?_⟩, hg, hk₄⟩
    · rw [Code.flatten_block]
      simpa [Code.flatten] using (hx₁.trans hx₂).trans hem.grows
    · have hR := hem.rel T hf
      refine ⟨hx₂.grows.next, ?_⟩
      have hct := htest T exSlot j (hem.back hf) hR.2
      rw [catchTest, hid]
      exact hct

/-- The body of a clause, with the exception's slot named. -/
theorem clauseBody_sound (hc : Sound env compile) {c : CatchClause} {exSlot : Nat}
    {s s₁ s₂ s₃ : Session} {W : World} {saved : Saved} (ht : Tracks env s W) (hslot : exSlot < W.next)
    (hL : W.recurSlots = none) (h₁ : bindTo c.binding exSlot s = .ok (saved, s₁))
    (h₂ : compileDo compile c.body s₁ = .ok ((), s₂)) (h₃ : restore [saved] s₂ = .ok ((), s₃)) :
    ∃ e cb W', ElabDo env (withName c.binding W.visible) false s.gensym c.body e s₃.gensym ∧
      Emits env s s₃ W W' cb fun T lo hi =>
        Compiles env T ((c.binding, exSlot) :: W.names) none lo hi e cb := by
  obtain ⟨W₁, hr, hb, hne, hoff, hslots, hvis⟩ := bindTo_sound ht hslot h₁
  obtain ⟨e, cb, W₂, he, hem⟩ := compileDo_sound hc (.refl W₁) hr.tracks h₂
  obtain ⟨W₃, hr₃, hs⟩ := restore_sound hb hem.same hem.tracks hne h₃
  have hne₁ : W₁ ≠ [] := by
    rintro rfl
    cases hb.grows
    exact hne rfl
  have hg : s₃.gensym = s₂.gensym := KeepsGensym.onTopScope _ _ _ _ h₃
  rw [hvis, isEmpty_of_ne_nil hne₁, ← hg, keepsGensym_bindTo _ _ _ _ _ h₁] at he
  have hx : Extends env s s₁ W W₁ [] := ⟨hr.tracks, hb.grows, hr.out ▸ .refl s.out⟩
  refine ⟨e, cb, W₃, he, scoped_sound (l := []) ht hx hem hr₃ hs fun T hf hR => ?_⟩
  rw [hb.names, hslots, hL, hr.next] at hR
  exact hR

/-- The clauses of a handler with the `RETHROW` after them, once the jumps to the end are
patched. -/
theorem compileCatches_sound (hc : Sound env compile) {exSlot : Nat} :
    ∀ {clauses : List CatchClause} {s s' : Session} {W : World} {dones : List Nat},
      Tracks env s W → W ≠ [] → exSlot < W.next → W.recurSlots = none →
      compileCatches compile exSlot clauses s = .ok (dones, s') →
      ∃ cls c W', ElabClauses env W.visible s.gensym clauses cls s'.gensym ∧
        Emits env s ((s'.push ⟨.rethrow, exSlot⟩).patchAll (s'.out.code.length + 1) dones) W W' c
          fun T lo hi => CompilesClauses env T W.names exSlot lo hi cls c
  | [], s, s', W, dones, ht, _, _, _, h => by
    obtain ⟨rfl, rfl⟩ := pure_ok.mp h
    exact ⟨.nil, .ins ⟨.rethrow, exSlot⟩, W, .nil,
      .ins ht ⟨.rethrow, exSlot⟩ fun T _ => .nil (Nat.le_refl _)⟩
  | cl :: rest, s, s', W, dones, ht, hne, hslot, hL, h => by
    obtain ⟨doneAt, s₁, h₁, hk₁⟩ := bind_ok.mp h
    obtain ⟨dones', s₂, h₂, hk₂⟩ := bind_ok.mp hk₁
    obtain ⟨rfl, rfl⟩ := pure_ok.mp hk₂
    obtain ⟨ct, t₁, W₁, hemt, hgt, hk⟩ := catchTest_sound ht h₁
    obtain ⟨nextAt, t₂, g₂, hk⟩ := bind_ok.mp hk
    obtain ⟨-, rfl, rfl⟩ := emit_ok.mp g₂
    obtain ⟨saved, t₃, g₃, hk⟩ := bind_ok.mp hk
    obtain ⟨_, t₄, g₄, hk⟩ := bind_ok.mp hk
    obtain ⟨_, t₅, g₅, hk⟩ := bind_ok.mp hk
    obtain ⟨dn, t₆, g₆, hk⟩ := bind_ok.mp hk
    obtain ⟨-, rfl, rfl⟩ := emit_ok.mp g₆
    obtain ⟨p, t₇, g₇, hk⟩ := bind_ok.mp hk
    obtain ⟨rfl, rfl⟩ := pos_ok.mp g₇
    obtain ⟨_, t₈, g₈, hk⟩ := bind_ok.mp hk
    obtain rfl := patchTo_ok g₈
    obtain ⟨rfl, rfl⟩ := pure_ok.mp hk
    have hslot₁ : exSlot < W₁.next := hslot.trans_le hemt.grows.grows.next
    have hL₁ : W₁.recurSlots = none := hemt.grows.grows.recurSlots.trans hL
    obtain ⟨e, cb, W₂, he, hemb⟩ := clauseBody_sound hc (hemt.tracks.push ⟨.jumpIfFalse, 0⟩)
      hslot₁ hL₁ g₃ g₄ g₅
    rw [World.visible_eq hemt.names, Session.push_gensym, hgt] at he
    rw [World.names_eq hemt.names] at hemb
    have hlen₁ : t₅.out.code.length = t₁.out.code.length + cb.len + 1 := by
      rw [hemb.length, Session.push_code, List.length_append]
      simp only [List.length_cons, List.length_nil]
      omega
    have hn : (t₅.push ⟨.jump, 0⟩).out.code.length - (t₁.out.code.length + 1) = cb.len + 1 := by
      rw [Session.push_code, List.length_append, hlen₁]
      simp only [List.length_cons, List.length_nil]
      omega
    rw [hn] at h₂
    have hs₂ : SameScope W W₂ := hemt.same.trans hemb.same
    obtain ⟨cls, cc, W₃, hcls, hemc⟩ := compileCatches_sound hc
      ((hemb.tracks.push ⟨.jump, 0⟩).patch _ _) (hs₂.ne_nil hne)
      (hslot₁.trans_le hemb.grows.grows.next) (hs₂.grows.recurSlots.trans hL) h₂
    rw [World.visible_eq hs₂.names] at hcls
    have hlen₂ : s'.out.code.length + 1 - (t₅.out.code.length + 1) = cc.len := by
      have hl := hemc.length
      rw [Session.patchAll_length] at hl
      simp only [Session.patch, List.length_modify, Session.push_code, List.length_append,
        List.length_cons, List.length_nil] at hl
      omega
    have hbranch := Emits.branch hemt.tracks hemb hemc hlen₁
    refine ⟨.cons (catchTest W.visible cl) cl.binding e cls, .seq ct (.branch cb cc), W₃,
      .cons he hcls, ?_⟩
    change Emits env s (((s'.push ⟨.rethrow, exSlot⟩).patch t₅.out.code.length
      (s'.out.code.length + 1 - (t₅.out.code.length + 1))).patchAll _ dones') W W₃ _ _
    rw [Session.patchAll_patch, hlen₂]
    refine (Emits.seq ht hemt hbranch).mono ?_
    rintro T lo hi - ⟨mid, ⟨hlo, htest⟩, mid', hb, hcl⟩
    rw [World.names_eq hs₂.names] at hcl
    exact .cons hlo htest hb hcl

theorem compileFinally_sound (hc : Sound env compile) {V : World} (hL : V.recurSlots = none) :
    ∀ {forms : List Form} {s s' : Session} {W : World}, SameScope V W → Tracks env s W →
      compileFinally compile forms s = .ok ((), s') →
      ∃ es c W', ElabList env V.visible V.isEmpty s.gensym forms es s'.gensym ∧
        Emits env s s' W W' c fun T lo hi => CompilesEffects env T V.names lo hi es c
  | [], s, s', W, _, ht, h => by
    obtain ⟨-, rfl⟩ := pure_ok.mp h
    exact ⟨.nil, .nil, W, .nil, .nil ht fun T _ => .nil (Nat.le_refl _)⟩
  | f :: rest, s, s', W, hs, ht, h => by
    obtain ⟨_, s₁, h₁, hk₁⟩ := bind_ok.mp h
    obtain ⟨_, s₂, h₂, hk₂⟩ := bind_ok.mp hk₁
    obtain ⟨-, rfl⟩ := emit_unit_ok.mp h₂
    obtain ⟨e, c, W₁, he, hem⟩ := hc.at hs ht h₁
    have hpop := Emits.ins hem.tracks ⟨.pop, 0⟩ (R := fun _ lo hi => lo = hi) fun _ _ => rfl
    obtain ⟨es, cs, W₂, hes, hems⟩ :=
      compileFinally_sound hc hL (hs.trans hem.same) hpop.tracks hk₂
    refine ⟨.cons e es, .seq c (.seq (.ins ⟨.pop, 0⟩) cs), W₂, .cons he hes, ?_⟩
    refine (Emits.seq ht hem (Emits.seq hem.tracks hpop hems)).mono ?_
    rintro T lo hi - ⟨mid, h₁, mid', rfl, h₂⟩
    rw [hL] at h₁
    exact .cons h₁ h₂

/-- The expression of the protected part of a `try`. -/
def protectedExp (e : Exp) : Clauses → Exp
  | .nil => e
  | clauses => .tryCatch e clauses

theorem compileProtected_sound (hc : Sound env compile) {parts : TryParts} {s s' : Session}
    {W : World} (ht : Tracks env s W) (hne : W ≠ []) (hL : W.recurSlots = none)
    (h : compileProtected compile parts s = .ok ((), s')) :
    ∃ e cls n c W', ElabDo env W.visible false s.gensym parts.body e n ∧
      ElabClauses env W.visible n parts.catches cls s'.gensym ∧
      Emits env s s' W W' c fun T lo hi => Compiles env T W.names none lo hi (protectedExp e cls) c := by
  rw [compileProtected] at h
  cases hcs : parts.catches with
  | nil =>
    rw [hcs, if_pos List.isEmpty_nil] at h
    obtain ⟨e, c, W', he, hem⟩ := compileDo_sound hc (.refl W) ht h
    rw [isEmpty_of_ne_nil hne] at he
    rw [hL] at hem
    exact ⟨e, .nil, _, c, W', he, .nil, hem⟩
  | cons cl cls' =>
    rw [hcs, if_neg (by simp)] at h
    obtain ⟨beginAt, s₁, h₁, hk₁⟩ := bind_ok.mp h
    obtain ⟨-, rfl, rfl⟩ := emit_ok.mp h₁
    obtain ⟨_, s₂, h₂, hk₂⟩ := bind_ok.mp hk₁
    obtain ⟨_, s₃, h₃, hk₃⟩ := bind_ok.mp hk₂
    obtain ⟨-, rfl⟩ := emit_unit_ok.mp h₃
    obtain ⟨doneAt, s₄, h₄, hk₄⟩ := bind_ok.mp hk₃
    obtain ⟨-, rfl, rfl⟩ := emit_ok.mp h₄
    obtain ⟨p, s₅, h₅, hk₅⟩ := bind_ok.mp hk₄
    obtain ⟨rfl, rfl⟩ := pos_ok.mp h₅
    obtain ⟨_, s₆, h₆, hk₆⟩ := bind_ok.mp hk₅
    obtain rfl := patchTo_ok h₆
    obtain ⟨exSlot, s₇, h₇, hk₇⟩ := bind_ok.mp hk₆
    obtain ⟨_, s₈, h₈, hk₈⟩ := bind_ok.mp hk₇
    obtain ⟨-, rfl⟩ := emit_unit_ok.mp h₈
    obtain ⟨dones, s₉, h₉, hk₉⟩ := bind_ok.mp hk₈
    obtain ⟨_, s₁₀, h₁₀, hk₁₀⟩ := bind_ok.mp hk₉
    obtain ⟨-, rfl⟩ := emit_unit_ok.mp h₁₀
    obtain ⟨q, s₁₁, h₁₁, hk₁₁⟩ := bind_ok.mp hk₁₀
    obtain ⟨rfl, rfl⟩ := pos_ok.mp h₁₁
    obtain rfl := patchAll_ok hk₁₁
    obtain ⟨e, cb, W₁, he, hemb⟩ := compileDo_sound hc (.refl W) (ht.push ⟨.tryBegin, 0⟩) h₂
    have hend := Emits.nil (hemb.tracks.push ⟨.tryEnd, 0⟩) (R := fun _ lo hi => lo = hi)
      fun _ _ => rfl
    have hl₂ : s₂.out.code.length = s.out.code.length + 1 + cb.len := by
      rw [hemb.length, Session.push_code, List.length_append]
      rfl
    have hn : ((s₂.push ⟨.tryEnd, 0⟩).push ⟨.jump, 0⟩).out.code.length -
        (s.out.code.length + 1) = cb.len + Code.nil.len + 2 := by
      simp only [Session.push_code, List.length_append, List.length_cons, List.length_nil, hl₂,
        Code.len]
      omega
    rw [hn] at h₇
    have hs₁ : SameScope W W₁ := hemb.same
    have ht₆ := (((hemb.tracks.push ⟨.tryEnd, 0⟩).push ⟨.jump, 0⟩).patch s.out.code.length
      (cb.len + Code.nil.len + 2))
    obtain ⟨W₂, hx₇, hn₇, rfl, hnext, hfresh⟩ := freshSlot_sound ht₆ h₇
    have hs₂ : SameScope W W₂ := hs₁.trans ⟨hx₇.grows, hn₇⟩
    have hst := Emits.ins hx₇.tracks ⟨.storeCaught, W₁.next⟩ (R := fun T lo hi =>
      lo = W₂.next ∧ hi = W₂.next ∧ ¬ T.Captures W₁.next) fun T hf =>
        ⟨rfl, rfl, hf.not_captures (by rw [hnext]; exact Nat.lt_succ_self _) hfresh⟩
    obtain ⟨cls, cc, W₃, hcls, hemc⟩ := compileCatches_sound hc hst.tracks (hs₂.ne_nil hne)
      (by rw [hnext]; exact Nat.lt_succ_self _) (hs₂.grows.recurSlots.trans hL) h₉
    rw [World.visible_eq hs₂.names] at hcls
    have hhandler := Emits.after hx₇ hn₇ ht₆ (Emits.seq hx₇.tracks hst hemc)
    have hprotect := Emits.protect ht hemb.atEnd hend hhandler
      (i := (s₂.push ⟨.tryEnd, 0⟩).out.code.length) (by
        rw [Session.push_code, List.length_append, hl₂]
        simp only [List.length_cons, List.length_nil, Code.len]
        omega)
    have hdone : (s₉.push ⟨.rethrow, W₁.next⟩).out.code.length -
        ((s₂.push ⟨.tryEnd, 0⟩).out.code.length + 1) =
          (Code.seq (.ins ⟨.storeCaught, W₁.next⟩) cc).len := by
      have hl := hhandler.length
      rw [Session.patchAll_length] at hl
      simp only [Session.patch, List.length_modify, Session.push_code, List.length_append,
        List.length_cons, List.length_nil] at hl ⊢
      omega
    obtain ⟨test, x, body, more, rfl⟩ : ∃ test x body more, cls = .cons test x body more := by
      cases hcls
      exact ⟨_, _, _, _, rfl⟩
    rw [isEmpty_of_ne_nil hne] at he
    rw [Session.push_gensym, keepsGensym_freshSlot _ _ _ h₇] at hcls
    refine ⟨e, .cons test x body more, _, .protect cb .nil (.seq (.ins ⟨.storeCaught, W₁.next⟩) cc), W₃,
      he, ?_, ?_⟩
    · rw [Session.patchAll_gensym]
      exact hcls
    have hend₉ : (s₉.push ⟨.rethrow, W₁.next⟩).out.code.length = s₉.out.code.length + 1 := by
      rw [Session.push_code, List.length_append]
      rfl
    change Emits env s (((s₉.push ⟨.rethrow, W₁.next⟩).patch _ ((s₉.push ⟨.rethrow, W₁.next⟩).out.code.length -
      ((s₂.push ⟨.tryEnd, 0⟩).out.code.length + 1))).patchAll
        (s₉.push ⟨.rethrow, W₁.next⟩).out.code.length dones) W W₃ _ _
    rw [Session.patchAll_patch, hdone, hend₉]
    refine hprotect.mono ?_
    rintro T lo hi - ⟨mid, mid', ⟨rfl, hbody⟩, rfl, mid'', -, mid₃, ⟨-, rfl, hcap⟩, hcl⟩
    rw [hL] at hbody
    rw [World.names_eq hs₂.names, hnext] at hcl
    exact .tryCatch hbody hcap hcl

theorem compileTry_sound (hc : Sound env compile) {head : Form} {core : Bool} {rest : List Form}
    {s s' : Session} {W : World} (ht : Tracks env s W) (hne : W ≠ [])
    (hd : HeadIs env W.visible head "try" core) (h : compileTry compile rest s = .ok ((), s')) :
    ∃ e c W', Elab env W.visible false s.gensym (.list (head :: rest)) e s'.gensym ∧
      Emits env s s' W W' c fun T lo hi => Compiles env T W.names W.recurSlots lo hi e c := by
  obtain ⟨parts, s₁, h₁, hk₁⟩ := bind_ok.mp h
  obtain rfl := (onlyGensym_splitTry rest false false).same h₁
  obtain ⟨_, s₂, h₂, hk₂⟩ := bind_ok.mp hk₁
  obtain ⟨W₁, hw, hoff, hL⟩ := enterTry_sound ht hne h₂
  have ht₂ := hw.reset.tracks
  have hvis := World.visible_eq hw.names
  have hnames := World.names_eq hw.names
  cases hfin : parts.finallyForms with
  | none =>
    simp only [hfin] at hk₂
    obtain ⟨_, s₃, h₃, hk₃⟩ := bind_ok.mp hk₂
    obtain rfl := onTopScope_ok.mp hk₃
    obtain ⟨e, cls, n, c, W₃, he, hcls, hem⟩ := compileProtected_sound hc ht₂ hw.ne_nil hL h₃
    obtain ⟨W₄, hem₄⟩ := hw.emits (d := c) hem (by rw [hoff])
    have hg₂ : s₂.gensym = s₁.gensym := KeepsGensym.onTopScope _ _ _ _ h₂
    rw [hvis, hg₂] at he
    rw [hvis] at hcls
    refine ⟨tryExp e cls none, c, W₄, .try hd ⟨_, _, h₁⟩ he hcls (hfin ▸ .none), ?_⟩
    refine hem₄.mono fun T lo hi _ hR => ?_
    rw [hnames] at hR
    cases cls with
    | nil => exact .tryPlain hR
    | cons test x body more => exact hR.tryCatch_target
  | some forms =>
    simp only [hfin] at hk₂
    obtain ⟨beginAt, s₃, h₃, hk₃⟩ := bind_ok.mp hk₂
    obtain ⟨-, rfl, rfl⟩ := emit_ok.mp h₃
    obtain ⟨_, s₄, h₄, hk₄⟩ := bind_ok.mp hk₃
    obtain ⟨_, s₅, h₅, hk₅⟩ := bind_ok.mp hk₄
    obtain ⟨-, rfl⟩ := emit_unit_ok.mp h₅
    obtain ⟨_, s₆, h₆, hk₆⟩ := bind_ok.mp hk₅
    obtain ⟨endAt, s₇, h₇, hk₇⟩ := bind_ok.mp hk₆
    obtain ⟨-, rfl, rfl⟩ := emit_ok.mp h₇
    obtain ⟨p, s₈, h₈, hk₈⟩ := bind_ok.mp hk₇
    obtain ⟨rfl, rfl⟩ := pos_ok.mp h₈
    obtain ⟨_, s₉, h₉, hk₉⟩ := bind_ok.mp hk₈
    obtain rfl := patchTo_ok h₉
    obtain ⟨fxSlot, t₁, g₁, hk⟩ := bind_ok.mp hk₉
    obtain ⟨_, t₂, g₂, hk⟩ := bind_ok.mp hk
    obtain ⟨-, rfl⟩ := emit_unit_ok.mp g₂
    obtain ⟨_, t₃, g₃, hk⟩ := bind_ok.mp hk
    obtain ⟨_, t₄, g₄, hk⟩ := bind_ok.mp hk
    obtain ⟨-, rfl⟩ := emit_unit_ok.mp g₄
    obtain ⟨q, t₅, g₅, hk⟩ := bind_ok.mp hk
    obtain ⟨rfl, rfl⟩ := pos_ok.mp g₅
    obtain ⟨_, t₆, g₆, hk⟩ := bind_ok.mp hk
    obtain rfl := patchTo_ok g₆
    obtain rfl := onTopScope_ok.mp hk
    obtain ⟨e, cls, n, cb, W₂, he, hcls, hemb⟩ :=
      compileProtected_sound hc (ht₂.push ⟨.tryBegin, 0⟩) hw.ne_nil hL h₄
    obtain ⟨es, cf, W₃, hes, hemf⟩ :=
      compileFinally_sound hc hL hemb.same (hemb.tracks.push ⟨.tryEnd, 0⟩) h₆
    have hs₃ : SameScope W₁ W₃ := hemb.same.trans hemf.same
    have hl₄ : s₄.out.code.length = s₂.out.code.length + 1 + cb.len := by
      rw [hemb.length, Session.push_code, List.length_append]
      rfl
    have hl₆ : s₆.out.code.length = s₂.out.code.length + cb.len + cf.len + 2 := by
      rw [hemf.length, Session.push_code, List.length_append, hl₄]
      simp only [List.length_cons, List.length_nil]
      omega
    have hn : (s₆.push ⟨.jump, 0⟩).out.code.length - (s₂.out.code.length + 1) =
        cb.len + cf.len + 2 := by
      rw [Session.push_code, List.length_append, hl₆]
      simp only [List.length_cons, List.length_nil]
      omega
    rw [hn] at g₁
    have ht₉ := (hemf.tracks.push ⟨.jump, 0⟩).patch s₂.out.code.length (cb.len + cf.len + 2)
    obtain ⟨W₄, hx₄, hn₄, rfl, hnext, hfresh⟩ := freshSlot_sound ht₉ g₁
    have hst := Emits.ins hx₄.tracks ⟨.storeCaught, W₃.next⟩ (R := fun T lo hi =>
      lo = W₄.next ∧ hi = W₄.next ∧ ¬ T.Captures W₃.next) fun T hf =>
        ⟨rfl, rfl, hf.not_captures (by rw [hnext]; exact Nat.lt_succ_self _) hfresh⟩
    obtain ⟨es', cf', W₅, hes', hemf'⟩ :=
      compileFinally_sound hc hL (hs₃.trans ⟨hx₄.grows, hn₄⟩) hst.tracks g₃
    have hre := Emits.ins hemf'.tracks ⟨.rethrow, W₃.next⟩ (R := fun _ lo hi => lo = hi)
      fun _ _ => rfl
    have hhandler := Emits.after hx₄ hn₄ ht₉
      (Emits.seq hx₄.tracks hst (Emits.seq hst.tracks hemf' hre))
    have hprotect := Emits.protect ht₂ hemb hemf.atEnd hhandler hl₆
    have hdone : (t₃.push ⟨.rethrow, W₃.next⟩).out.code.length - (s₆.out.code.length + 1) =
        (Code.seq (.ins ⟨.storeCaught, W₃.next⟩) (.seq cf' (.ins ⟨.rethrow, W₃.next⟩))).len := by
      have hl := hhandler.length
      simp only [Session.patch, List.length_modify, Session.push_code, List.length_append,
        List.length_cons, List.length_nil] at hl ⊢
      omega
    rw [hdone]
    have htry := hprotect.mono (Q := fun T lo hi =>
        Compiles env T W₁.names none lo hi (.tryFinally (protectedExp e cls) es es')
          (.protect cb cf (.seq (.ins ⟨.storeCaught, W₃.next⟩)
            (.seq cf' (.ins ⟨.rethrow, W₃.next⟩))))) (by
        rintro T lo hi - ⟨mid, mid', hbody, ⟨rfl, hfin₁⟩, mid'', -, mid₃, ⟨-, rfl, hcap⟩, mid₄, hfin₂, rfl⟩
        rw [hnext] at hfin₂
        exact .tryFinally hbody hfin₁ hcap hfin₂)
    obtain ⟨W₆, hem₆⟩ := hw.emits (d := .protect cb cf _) htry (by rw [hoff])
    have hg₂ : s₂.gensym = s₁.gensym := KeepsGensym.onTopScope _ _ _ _ h₂
    rw [isEmpty_of_ne_nil hw.ne_nil, hvis] at hes hes'
    rw [hvis, Session.push_gensym, hg₂] at he
    rw [hvis] at hcls
    rw [Session.push_gensym, keepsGensym_freshSlot _ _ _ g₁] at hes'
    refine ⟨tryExp e cls (some (es, es')), _, W₆, .try hd ⟨_, _, h₁⟩ he hcls (hfin ▸ .some hes hes'),
      hem₆.mono fun T lo hi _ hR => ?_⟩
    rw [hnames] at hR
    cases cls <;> exact hR.tryFinally_target

end

end ProtoClojure
