import ProtoClojure.Compiler.Emission
import Mathlib.Data.List.Forall2
import Mathlib.Order.Nat

/-! What the compiler's scopes stand for, and how a stretch of compiling extends them and the
module. -/
namespace ProtoClojure

/-- The bindings a scope stands for, and its captures with their names. -/
structure Ghost where
  names : Names
  captured : List (String × CaptureSpec) := []

def Ghost.slotOf (g : Ghost) (x : String) : Option Nat :=
  (g.names.lookup x).or ((g.captured.lookup x).map (·.localSlot))

/-- The slots of the `recur` target, where there is one that is not across a `try`. -/
def Scope.recurSlots (sc : Scope) : Option (List Nat) :=
  match sc.recurStack with
  | [] => none
  | tgt :: _ => if tgt.tryDepth = sc.tryDepth then some tgt.slots else none

/-- The scopes with what they stand for, innermost first. -/
abbrev World := List (Ghost × Scope)

namespace World

def visible (W : World) (x : String) : Bool := W.any fun p => (p.1.names.lookup x).isSome

def names : World → Names
  | [] => []
  | (g, _) :: _ => g.names

def captured : World → List (String × CaptureSpec)
  | [] => []
  | (g, _) :: _ => g.captured

def next : World → Nat
  | [] => 0
  | (_, sc) :: _ => sc.nextSlot

def recurSlots : World → Option (List Nat)
  | [] => none
  | (_, sc) :: _ => sc.recurSlots

def slotOf : World → String → Option Nat
  | [], _ => none
  | (g, _) :: _, x => g.slotOf x

end World

structure ScopeOk (g : Ghost) (outer : World) (sc : Scope) : Prop where
  slots : sc.nameToSlot = g.slotOf
  captures : sc.captures = g.captured.map (·.2)
  names_lt : ∀ p ∈ g.names, p.2 < sc.nextSlot
  captured_lt : ∀ p ∈ g.captured, p.2.localSlot < sc.nextSlot
  nodup : (g.captured.map (·.2.localSlot)).Nodup
  parent : ∀ p ∈ g.captured, outer.slotOf p.1 = some p.2.parentSlot
  seen : ∀ p ∈ g.captured, outer.visible p.1 = true
  targets : ∀ t ∈ sc.recurStack, t.tryDepth ≤ sc.tryDepth

def WorldOk : World → Prop
  | [] => True
  | (g, sc) :: W => ScopeOk g W sc ∧ WorldOk W

/-- A scope after more compiling: names may be bound on top, and captures added of names it
does not bind. -/
structure ScopeGrows (p q : Ghost × Scope) : Prop where
  names : p.1.names <:+ q.1.names
  captured : ∃ new, q.1.captured = p.1.captured ++ new ∧
    ∀ c ∈ new, p.2.nextSlot ≤ c.2.localSlot ∧ p.1.names.lookup c.1 = none
  next : p.2.nextSlot ≤ q.2.nextSlot
  arity : q.2.arity = p.2.arity
  recurStack : q.2.recurStack = p.2.recurStack
  tryDepth : q.2.tryDepth = p.2.tryDepth

def Grows (W W' : World) : Prop := List.Forall₂ ScopeGrows W W'

theorem ScopeGrows.refl (p : Ghost × Scope) : ScopeGrows p p :=
  ⟨List.suffix_rfl, ⟨[], by simp, by simp⟩, Nat.le_refl _, rfl, rfl, rfl⟩

theorem lookup_none_of_suffix {x : String} {β β' : Names} (h : β <:+ β')
    (hx : β'.lookup x = none) : β.lookup x = none := by
  obtain ⟨ext, rfl⟩ := h
  rw [List.lookup_append] at hx
  exact (Option.or_eq_none_iff.mp hx).2

theorem ScopeGrows.trans {p q r : Ghost × Scope} (h : ScopeGrows p q) (h' : ScopeGrows q r) :
    ScopeGrows p r := by
  obtain ⟨new, hn, hf⟩ := h.captured
  obtain ⟨new', hn', hf'⟩ := h'.captured
  refine ⟨h.names.trans h'.names, ⟨new ++ new', by rw [hn', hn, List.append_assoc], ?_⟩,
    Nat.le_trans h.next h'.next, h'.arity.trans h.arity, h'.recurStack.trans h.recurStack,
    h'.tryDepth.trans h.tryDepth⟩
  intro c hc
  rcases List.mem_append.mp hc with hc | hc
  · exact hf c hc
  · exact ⟨Nat.le_trans h.next (hf' c hc).1, lookup_none_of_suffix h.names (hf' c hc).2⟩

theorem Grows.refl (W : World) : Grows W W := by
  induction W with
  | nil => exact .nil
  | cons p W ih => exact .cons (.refl p) ih

theorem Grows.trans {W W' W'' : World} (h : Grows W W') (h' : Grows W' W'') : Grows W W'' := by
  induction h generalizing W'' with
  | nil => exact h'
  | cons hp _ ih =>
    cases h' with
    | cons hq hs => exact .cons (hp.trans hq) (ih hs)

/-! ### Names in scope -/

namespace World

theorem names_eq {W W' : World} (h : W'.map (·.1.names) = W.map (·.1.names)) :
    W'.names = W.names := by
  cases W with
  | nil => rw [List.map_eq_nil_iff.mp h]
  | cons p W =>
    obtain ⟨q, W'', rfl, hq, -⟩ := List.map_eq_cons_iff.mp h
    exact hq

theorem visible_eq {W W' : World} (h : W'.map (·.1.names) = W.map (·.1.names)) :
    W'.visible = W.visible := by
  funext x
  have he : ∀ V : World, V.visible x = (V.map (·.1.names)).any fun β => (β.lookup x).isSome := by
    intro V
    simp only [visible, List.any_map, Function.comp_def]
  rw [he, he, h]

theorem tail_names {W W' : World} (h : W'.map (·.1.names) = W.map (·.1.names)) :
    W'.tail.map (·.1.names) = W.tail.map (·.1.names) := by
  rw [List.map_tail, List.map_tail, h]

end World

theorem Grows.next {W W' : World} (h : Grows W W') : W.next ≤ W'.next := by
  cases h with
  | nil => exact Nat.le_refl _
  | cons hp _ => exact hp.next

theorem Grows.recurSlots {W W' : World} (h : Grows W W') : W'.recurSlots = W.recurSlots := by
  cases h with
  | nil => rfl
  | @cons p q _ _ hp _ =>
    change q.2.recurSlots = p.2.recurSlots
    rw [Scope.recurSlots, Scope.recurSlots, hp.recurStack, hp.tryDepth]

theorem Grows.isEmpty {W W' : World} (h : Grows W W') : W'.isEmpty = W.isEmpty := by
  cases h <;> rfl

/-! ### The session -/

def Session.bodyStart (s : Session) : Nat :=
  match s.scopes with
  | [] => 0
  | sc :: _ => (sc.recurStack.head?.map (·.bodyStart)).getD 0

/-- How far the code is past the target of a `recur`. -/
def Session.offset (s : Session) : Nat := s.out.code.length - s.bodyStart

/-- What the scopes stand for, and that the functions compiled so far are laid out. -/
structure Tracks (env : Env) (s : Session) (W : World) : Prop where
  scopes : s.scopes = W.map (·.2)
  ok : WorldOk W
  start : s.bodyStart ≤ s.out.code.length
  laid : ∀ b ∈ s.out.blocks, LaidOut env b

/-- The fields of a module that compiling its body leaves alone. -/
def SameHeader (m m' : BytecodeModule) : Prop :=
  m'.captureSpecs = m.captureSpecs ∧ m'.arity = m.arity ∧ m'.localCount = m.localCount ∧
    m'.isVariadic = m.isVariadic ∧ m'.isKwBased = m.isKwBased ∧ m'.asSlot = m.asSlot ∧
      m'.kwKeys = m.kwKeys

/-- The module after more compiling: `ws` appended to the code, entries to the tables. -/
structure OutGrows (m m' : BytecodeModule) (ws : List Instr) : Prop where
  code : m'.code = m.code ++ ws
  consts : m.consts <+: m'.consts
  blocks : m.blocks <+: m'.blocks
  groups : m.arityGroups <+: m'.arityGroups
  header : SameHeader m m'
  handlers : m'.hasHandlers = (m.hasHandlers || ws.any Instr.isTryBegin)

structure Extends (env : Env) (s s' : Session) (W W' : World) (ws : List Instr) : Prop where
  tracks : Tracks env s' W'
  grows : Grows W W'
  out : OutGrows s.out s'.out ws

section
variable {env : Env}

theorem SameHeader.refl (m : BytecodeModule) : SameHeader m m :=
  ⟨rfl, rfl, rfl, rfl, rfl, rfl, rfl⟩

theorem SameHeader.trans {m m' m'' : BytecodeModule} (h : SameHeader m m')
    (h' : SameHeader m' m'') : SameHeader m m'' := by
  obtain ⟨h₁, h₂, h₃, h₄, h₅, h₆, h₇⟩ := h
  obtain ⟨k₁, k₂, k₃, k₄, k₅, k₆, k₇⟩ := h'
  exact ⟨k₁.trans h₁, k₂.trans h₂, k₃.trans h₃, k₄.trans h₄, k₅.trans h₅, k₆.trans h₆, k₇.trans h₇⟩

theorem OutGrows.refl (m : BytecodeModule) : OutGrows m m [] :=
  ⟨by simp, List.prefix_rfl, List.prefix_rfl, List.prefix_rfl, .refl m, by simp⟩

theorem OutGrows.trans {m m' m'' : BytecodeModule} {ws ws' : List Instr} (h : OutGrows m m' ws)
    (h' : OutGrows m' m'' ws') : OutGrows m m'' (ws ++ ws') :=
  ⟨by rw [h'.code, h.code, List.append_assoc], h.consts.trans h'.consts, h.blocks.trans h'.blocks,
    h.groups.trans h'.groups, h.header.trans h'.header, by
      rw [h'.handlers, h.handlers, List.any_append, Bool.or_assoc]⟩

theorem OutGrows.append (m : BytecodeModule) (w : Instr) : OutGrows m (m.append w) [w] :=
  ⟨rfl, List.prefix_rfl, List.prefix_rfl, List.prefix_rfl, .refl m, by
    simp [BytecodeModule.append, Instr.isTryBegin]⟩

theorem Session.bodyStart_eq {s t : Session} {W W' : World} (hs : s.scopes = W.map (·.2))
    (ht : t.scopes = W'.map (·.2)) (h : Grows W W') : t.bodyStart = s.bodyStart := by
  rw [bodyStart, bodyStart, hs, ht]
  cases h with
  | nil => rfl
  | cons hp _ => simp only [List.map_cons, hp.recurStack]

theorem Extends.refl {s : Session} {W : World} (h : Tracks env s W) : Extends env s s W W [] :=
  ⟨h, .refl W, .refl s.out⟩

theorem Extends.trans {s s' s'' : Session} {W W' W'' : World} {ws ws' : List Instr}
    (h : Extends env s s' W W' ws) (h' : Extends env s' s'' W' W'' ws') :
    Extends env s s'' W W'' (ws ++ ws') :=
  ⟨h'.tracks, h.grows.trans h'.grows, h.out.trans h'.out⟩

theorem Extends.offset {s s' : Session} {W W' : World} {ws : List Instr} (ht : Tracks env s W)
    (h : Extends env s s' W W' ws) : s'.offset = s.offset + ws.length := by
  have hb := Session.bodyStart_eq ht.scopes h.tracks.scopes h.grows
  have hs := ht.start
  rw [Session.offset, Session.offset, hb, h.out.code, List.length_append]
  omega

theorem Extends.push {s : Session} {W : World} (h : Tracks env s W) (w : Instr) :
    Extends env s (s.push w) W W [w] := by
  refine ⟨⟨h.scopes, h.ok, ?_, h.laid⟩, .refl W, .append s.out w⟩
  have hs := h.start
  rw [Session.push_code, List.length_append]
  exact Nat.le_trans hs (Nat.le_add_right _ _)

theorem modify_length_append {α : Type} (f : α → α) (pre post : List α) (a : α) :
    (pre ++ a :: post).modify pre.length f = pre ++ f a :: post := by
  induction pre with
  | nil => rfl
  | cons b pre ih =>
    rw [List.cons_append, List.length_cons, List.modify_succ_cons, ih]
    rfl

/-- A forward jump emitted since `s`, patched. -/
theorem Extends.patch {s s' : Session} {W W' : World} {u v : List Instr} {w : Instr} {i : Nat}
    (h : Extends env s s' W W' (u ++ w :: v)) (hi : i = s.out.code.length + u.length) (n : Nat) :
    Extends env s (s'.patch i n) W W' (u ++ { w with operand := n } :: v) := by
  have hc : (s'.patch i n).out.code = s.out.code ++ (u ++ { w with operand := n } :: v) := by
    change s'.out.code.modify i _ = _
    rw [h.out.code, hi, ← List.append_assoc, ← List.append_assoc, ← List.length_append]
    exact modify_length_append _ _ _ _
  have hl := h.tracks.start
  refine ⟨⟨h.tracks.scopes, h.tracks.ok, ?_, h.tracks.laid⟩, h.grows, ⟨hc, h.out.consts, h.out.blocks,
    h.out.groups, h.out.header, ?_⟩⟩
  · change s'.bodyStart ≤ _
    rw [h.out.code] at hl
    rw [hc]
    simpa using hl
  · have ha := h.out.handlers
    simp only [List.any_append, List.any_cons, Instr.isTryBegin] at ha ⊢
    exact ha

/-! ### Finished tables -/

/-- `T` are tables the module and the scopes may still grow to. -/
structure Final (T : Tables) (s : Session) (W : World) : Prop where
  consts : s.out.consts <+: T.consts
  blocks : s.out.blocks <+: T.blocks
  groups : s.out.arityGroups <+: T.groups
  captures : ∃ later, T.captures = W.captured ++ later ∧
    ∀ p ∈ later, W.next ≤ p.2.localSlot ∧ T.outer p.1 = true
  outer : T.outer = World.visible W.tail

/-- The tables as they stand. -/
theorem Final.self (s : Session) (W : World) :
    Final (s.out.tables W.captured (World.visible W.tail)) s W :=
  ⟨List.prefix_rfl, List.prefix_rfl, List.prefix_rfl,
    ⟨[], by simp [BytecodeModule.tables], by simp⟩, rfl⟩

theorem Final.back {T : Tables} {s s' : Session} {W W' : World} {ws : List Instr}
    (h : Extends env s s' W W' ws) (hn : W'.tail.map (·.1.names) = W.tail.map (·.1.names))
    (hf : Final T s' W') : Final T s W := by
  have ho : T.outer = World.visible W.tail := hf.outer.trans (World.visible_eq hn)
  refine ⟨h.out.consts.trans hf.consts, h.out.blocks.trans hf.blocks, h.out.groups.trans hf.groups,
    ?_, ho⟩
  obtain ⟨later, hl, hlater⟩ := hf.captures
  have hok := h.tracks.ok
  cases h.grows with
  | nil => exact ⟨later, hl, hlater⟩
  | @cons p q V V' hp hV =>
    obtain ⟨new, hc, hnew⟩ := hp.captured
    refine ⟨new ++ later, ?_, ?_⟩
    · rw [hl, ← List.append_assoc]
      exact congrArg (· ++ later) hc
    · intro c hm
      rcases List.mem_append.mp hm with hm | hm
      · refine ⟨(hnew c hm).1, ?_⟩
        have hmem : c ∈ q.1.captured := by
          rw [hc]
          exact List.mem_append_right _ hm
        rw [hf.outer]
        exact hok.1.seen c hmem
      · exact ⟨Nat.le_trans hp.next (hlater c hm).1, (hlater c hm).2⟩

/-- A slot that is not a capture yet, and is taken, never becomes one. -/
theorem Final.not_captures {T : Tables} {s : Session} {W : World} (hf : Final T s W) {m : Nat}
    (hm : m < W.next) (hc : ∀ p ∈ W.captured, p.2.localSlot ≠ m) : ¬ T.Captures m := by
  obtain ⟨later, hl, hlater⟩ := hf.captures
  rintro ⟨p, hp, rfl⟩
  rw [hl, List.mem_append] at hp
  rcases hp with hp | hp
  · exact hc p hp rfl
  · exact absurd (hlater p hp).1 (Nat.not_le_of_lt hm)

theorem lookup_append_some {α : Type} {x : String} {l l' : List (String × α)} {a : α}
    (h : l.lookup x = some a) : (l ++ l').lookup x = some a := by
  rw [List.lookup_append, h, Option.some_or]

/-- A name that has a slot keeps it. -/
theorem Final.slotOf_some {T : Tables} {s : Session} {W : World} (hf : Final T s W) {x : String}
    {slot : Nat} (h : W.slotOf x = some slot) : T.slotOf W.names x = some slot := by
  obtain ⟨later, hl, -⟩ := hf.captures
  cases W with
  | nil => cases h
  | cons p W =>
    change (p.1.names.lookup x).or ((p.1.captured.lookup x).map (·.localSlot)) = some slot at h
    change (p.1.names.lookup x).or ((T.captures.lookup x).map (·.localSlot)) = some slot
    cases hx : p.1.names.lookup x with
    | some i => simpa [hx] using h
    | none =>
      rw [hx, Option.none_or] at h
      obtain ⟨spec, hs, rfl⟩ := Option.map_eq_some_iff.mp h
      have ht : T.captures.lookup x = some spec := hl ▸ lookup_append_some hs
      rw [ht]
      rfl

theorem mem_of_lookup {α : Type} {x : String} {l : List (String × α)} {a : α}
    (h : l.lookup x = some a) : (x, a) ∈ l := by
  induction l with
  | nil => cases h
  | cons p l ih =>
    rw [List.lookup_cons] at h
    split at h
    · rename_i he
      cases h
      rw [eq_of_beq he]
      exact List.mem_cons_self
    · exact List.mem_cons_of_mem _ (ih h)

/-- A name no scope binds is a global. -/
theorem Final.slotOf_none {T : Tables} {s : Session} {W : World} (hf : Final T s W)
    (hok : WorldOk W) {x : String} (h : W.visible x = false) :
    T.slotOf W.names x = none ∧ T.outer x = false := by
  have hn : W.names.lookup x = none ∧ World.visible W.tail x = false := by
    cases W with
    | nil => exact ⟨rfl, rfl⟩
    | cons p W => simpa [World.visible, World.names] using h
  have ho : T.outer x = false := by
    rw [hf.outer]
    exact hn.2
  obtain ⟨later, hl, hlater⟩ := hf.captures
  have hc : T.captures.lookup x = none := by
    cases hx : T.captures.lookup x with
    | none => rfl
    | some spec =>
      have hmem := mem_of_lookup hx
      rw [hl, List.mem_append] at hmem
      rcases hmem with hmem | hmem
      · cases W with
        | nil => cases hmem
        | cons p W =>
          have hv : World.visible W x = false := hn.2
          have hs : World.visible W x = true := hok.1.seen _ hmem
          rw [hv] at hs
          cases hs
      · have hs := (hlater _ hmem).2
        rw [ho] at hs
        cases hs
  exact ⟨by rw [Tables.slotOf, hn.1, hc]; rfl, ho⟩

/-! ### `resolveLocal` -/

theorem World.slotOf_visible {W : World} (hok : WorldOk W) {x : String} {slot : Nat}
    (h : W.slotOf x = some slot) : W.visible x = true := by
  cases W with
  | nil => cases h
  | cons p W =>
    change (p.1.names.lookup x).or ((p.1.captured.lookup x).map (·.localSlot)) = some slot at h
    cases hx : p.1.names.lookup x with
    | some i => simp [World.visible, hx]
    | none =>
      rw [hx, Option.none_or] at h
      obtain ⟨spec, hs, -⟩ := Option.map_eq_some_iff.mp h
      have hv : World.visible W x = true := hok.1.seen _ (mem_of_lookup hs)
      rw [World.visible] at hv
      simp [World.visible, hv]

/-- A slot stays the slot of its name while the bindings are the same. -/
theorem Grows.slotOf_some {W W' : World} (h : Grows W W')
    (hn : W'.map (·.1.names) = W.map (·.1.names)) {x : String} {slot : Nat}
    (hs : W.slotOf x = some slot) : W'.slotOf x = some slot := by
  cases h with
  | nil => exact hs
  | @cons p q V V' hp hV =>
    obtain ⟨new, hc, -⟩ := hp.captured
    have he : q.1.names = p.1.names := by
      rw [List.map_cons, List.map_cons] at hn
      exact (List.cons.inj hn).1
    change (p.1.names.lookup x).or ((p.1.captured.lookup x).map (·.localSlot)) = some slot at hs
    change (q.1.names.lookup x).or ((q.1.captured.lookup x).map (·.localSlot)) = some slot
    rw [he, hc]
    cases hx : p.1.names.lookup x with
    | some i => simpa [hx] using hs
    | none =>
      rw [hx, Option.none_or] at hs
      obtain ⟨spec, hl, rfl⟩ := Option.map_eq_some_iff.mp hs
      rw [Option.none_or, lookup_append_some hl]
      rfl

def Ghost.capture (g : Ghost) (c : String × CaptureSpec) : Ghost :=
  { g with captured := g.captured ++ [c] }

def Scope.capture (sc : Scope) (x : String) (slot : Nat) : Scope :=
  { sc with
    nextSlot := sc.nextSlot + 1
    nameToSlot := Function.update sc.nameToSlot x (some sc.nextSlot)
    captures := sc.captures ++ [⟨slot, sc.nextSlot⟩] }

theorem Ghost.slotOf_capture (g : Ghost) {x : String} (hx : g.slotOf x = none) (spec : CaptureSpec) :
    (g.capture (x, spec)).slotOf = Function.update g.slotOf x (some spec.localSlot) := by
  obtain ⟨hn, hc⟩ := Option.or_eq_none_iff.mp hx
  funext y
  change (g.names.lookup y).or (((g.captured ++ [(x, spec)]).lookup y).map (·.localSlot)) = _
  rw [List.lookup_append]
  by_cases hy : y = x
  · rw [hy, Function.update_self, hn, Option.map_eq_none_iff.mp hc]
    simp
  · rw [Function.update_of_ne hy, Ghost.slotOf]
    have hb : (y == x) = false := beq_false_of_ne hy
    simp [List.lookup_cons, hb]

theorem ScopeOk.capture {g : Ghost} {W W' : World} {sc : Scope} (h : ScopeOk g W sc)
    (hok : WorldOk W') (hg : Grows W W') (hn : W'.map (·.1.names) = W.map (·.1.names))
    {x : String} {slot : Nat} (hx : g.slotOf x = none) (hs : W'.slotOf x = some slot) :
    ScopeOk (g.capture (x, ⟨slot, sc.nextSlot⟩)) W' (sc.capture x slot) where
  slots := by
    rw [Ghost.slotOf_capture g hx, ← h.slots]
    rfl
  captures := by simp [Scope.capture, Ghost.capture, h.captures]
  names_lt := fun p hp => Nat.lt_succ_of_lt (h.names_lt p hp)
  captured_lt := by
    intro p hp
    rcases List.mem_append.mp hp with hp | hp
    · exact Nat.lt_succ_of_lt (h.captured_lt p hp)
    · rw [List.mem_singleton.mp hp]
      exact Nat.lt_succ_self _
  nodup := by
    rw [Ghost.capture, List.map_append]
    refine List.nodup_append.mpr ⟨h.nodup, by simp, ?_⟩
    intro s hs s' hs'
    obtain ⟨p, hp, rfl⟩ := List.mem_map.mp hs
    rw [List.mem_singleton.mp hs']
    exact Nat.ne_of_lt (h.captured_lt p hp)
  parent := by
    intro p hp
    rcases List.mem_append.mp hp with hp | hp
    · exact hg.slotOf_some hn (h.parent p hp)
    · rw [List.mem_singleton.mp hp]
      exact hs
  seen := by
    intro p hp
    rcases List.mem_append.mp hp with hp | hp
    · rw [World.visible_eq hn]
      exact h.seen p hp
    · rw [List.mem_singleton.mp hp]
      exact World.slotOf_visible hok hs
  targets := h.targets

/-- A name some scope binds resolves to a slot of the innermost scope, through a capture in
every scope between. -/
theorem resolveIn_spec (x : String) : ∀ W : World, WorldOk W →
    (resolveIn x (W.map (·.2)) = none ∧ W.visible x = false) ∨
      ∃ slot W', resolveIn x (W.map (·.2)) = some (slot, W'.map (·.2)) ∧ WorldOk W' ∧
        Grows W W' ∧ W'.map (·.1.names) = W.map (·.1.names) ∧ W'.slotOf x = some slot
  | [], _ => .inl ⟨rfl, rfl⟩
  | (g, sc) :: W, ⟨hg, hW⟩ => by
    cases hx : sc.nameToSlot x with
    | some slot =>
      refine .inr ⟨slot, (g, sc) :: W, ?_, ⟨hg, hW⟩, .refl _, rfl, ?_⟩
      · simp [resolveIn, hx]
      · change g.slotOf x = some slot
        rw [← hg.slots, hx]
    | none =>
      have hgx : g.slotOf x = none := by rw [← hg.slots, hx]
      have hn : g.names.lookup x = none := (Option.or_eq_none_iff.mp hgx).1
      rcases resolveIn_spec x W hW with ⟨hr, hv⟩ | ⟨slot, W', hr, hok, hgr, hnames, hs⟩
      · refine .inl ⟨by simp [resolveIn, hx, hr], ?_⟩
        rw [World.visible] at hv
        simp [World.visible, hn, hv]
      · let c : String × CaptureSpec := (x, ⟨slot, sc.nextSlot⟩)
        refine .inr ⟨sc.nextSlot, (g.capture c, sc.capture x slot) :: W', ?_,
          ⟨hg.capture hok hgr hnames hgx hs, hok⟩, .cons ?_ hgr, ?_, ?_⟩
        · simp [resolveIn, hx, hr, Scope.capture]
        · refine ⟨List.suffix_rfl, ⟨[c], rfl, ?_⟩, Nat.le_succ _, rfl, rfl, rfl⟩
          intro d hd
          rw [List.mem_singleton.mp hd]
          exact ⟨Nat.le_refl _, hn⟩
        · simp [Ghost.capture, hnames]
        · change (g.capture c).slotOf x = some sc.nextSlot
          rw [Ghost.slotOf_capture g hgx, Function.update_self]

end

end ProtoClojure
