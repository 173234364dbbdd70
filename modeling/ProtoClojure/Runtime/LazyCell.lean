import Mathlib.Logic.Function.Basic
import Mathlib.Logic.Relation
import Mathlib.Data.List.Nodup
import Mathlib.Data.List.Basic

/-! Readers of lazy cells: `realizeLazy` as the steps of any number of threads, a claim, a
publication and a release each one atomic step. -/

namespace ProtoClojure.LazyCell
variable {T C V E S : Type}

/-- What a native step does next: answer one of some values (equal but for the objects it
made), raise, or read a lazy cell. -/
inductive Act (C V E S : Type) where
  | ret (answers : V → Prop)
  | raise (e : E)
  | read (c : C) (k : V → S)

/-- The cells, by their producers. A step marked pure runs no Clojure code: `code` is all it
does. Of any other thunk nothing is said. -/
structure Lazies (C V E S : Type) where
  thunkIsPure : C → Bool
  entry : C → S
  code : S → Act C V E S
  stackLimit : Nat          -- `checkNativeStack`
  stackOverflow : E
  selfRead : E              -- read while its own body was computing it

/-- `getLazyState`; protoCore publishes in one step. -/
inductive Slot (V : Type) where
  | unrealized
  | claimed
  | realized (v : V)

def Slot.isRealized : Slot V → Bool
  | .realized _ => true
  | _ => false

/-- Where an activation of `realizeLazy` stands. -/
inductive Frame (C V E S : Type) where
  | look (c : C)                  -- the top of the loop
  | wait (c : C)                  -- waitABit
  | producer (c : C)              -- before getLazyProducer
  | step (c : C) (st : S)         -- runThunk of a pure step
  | publishPure (c : C) (v : V)
  | fail (c : C) (e : E)          -- a pure step raised
  | claim (c : C)                 -- before claimLazy
  | run (c : C)                   -- runThunk under the claim
  | publish (c : C) (v : V)
  | unclaim (c : C) (e : E)
  | readValue (c : C)             -- published by someone else meanwhile

@[simp] def Frame.cell : Frame C V E S → C
  | .look c | .wait c | .producer c | .step c _ | .publishPure c _ | .fail c _ | .claim c
  | .run c | .publish c _ | .unclaim c _ | .readValue c => c

/-- The cell whose thunk runs here under its claim. -/
@[simp] def Frame.running : Frame C V E S → Option C
  | .run c => some c
  | _ => none

/-- The cell whose claim this activation holds. -/
@[simp] def Frame.holds : Frame C V E S → Option C
  | .run c | .publish c _ | .unclaim c _ => some c
  | _ => none

inductive Event (T C V E : Type) where
  | started (t : T) (c : C)
  | completed (t : T) (c : C)
  | threw (t : T) (c : C) (e : E)
  | returned (t : T) (c : C) (v : V)
  | raised (t : T) (c : C) (e : E)

/-- Innermost activation first. -/
structure State (T C V E S : Type) where
  slot : C → Slot V
  stack : T → List (Frame C V E S)
  realizing : T → List C          -- tl_realizing

def State.start : State T C V E S := ⟨fun _ => .unrealized, fun _ => [], fun _ => []⟩

/-! ### The steps -/

section Steps
variable [DecidableEq T] [DecidableEq C] (P : Lazies C V E S)

/-- Code that may call `realizeLazy` on `c` now: a thread outside any, a thunk, a native step
at a read of `c`. -/
inductive Lazies.Calls : List (Frame C V E S) → C → Prop where
  | outside (c) : Calls [] c
  | thunk (d fs c) : Calls (.run d :: fs) c
  | native (d st fs c k) : P.code st = .read c k → Calls (.step d st :: fs) c

/-- The caller goes on with a value. -/
def Lazies.resume (v : V) : List (Frame C V E S) → List (Frame C V E S)
  | .step c st :: fs =>
    match P.code st with
    | .read _ k => .step c (k v) :: fs
    | _ => .step c st :: fs
  | fs => fs

/-- An exception goes through a native step; a thunk may catch it. -/
def unwind (e : E) : List (Frame C V E S) → List (Frame C V E S)
  | .step c _ :: fs => .fail c e :: fs
  | fs => fs

/-- One step of a thread `t` on the slots, with its stack and its `tl_realizing`. -/
inductive Turn (t : T) : (C → Slot V) → List (Frame C V E S) → List C →
    Option (Event T C V E) → (C → Slot V) → List (Frame C V E S) → List C → Prop where
  | call (σ fs r c) : P.Calls fs c → fs.length < P.stackLimit →
      Turn t σ fs r none σ (.look c :: fs) r
  | overflow (σ fs r c) : P.Calls fs c → P.stackLimit ≤ fs.length →
      Turn t σ fs r (some (.raised t c P.stackOverflow)) σ (unwind P.stackOverflow fs) r
  | realized (σ fs r c v) : σ c = .realized v →
      Turn t σ (.look c :: fs) r (some (.returned t c v)) σ (P.resume v fs) r
  | selfRead (σ fs r c) : σ c = .claimed → c ∈ r →
      Turn t σ (.look c :: fs) r (some (.raised t c P.selfRead)) σ (unwind P.selfRead fs) r
  | claimed (σ fs r c) : σ c = .claimed → c ∉ r →
      Turn t σ (.look c :: fs) r none σ (.wait c :: fs) r
  | again (σ fs r c) : Turn t σ (.wait c :: fs) r none σ (.look c :: fs) r
  | unrealized (σ fs r c) : σ c = .unrealized →
      Turn t σ (.look c :: fs) r none σ (.producer c :: fs) r
  | noProducer (σ fs r c) : (σ c).isRealized →
      Turn t σ (.producer c :: fs) r none σ (.look c :: fs) r
  | runPure (σ fs r c) : ¬ (σ c).isRealized → P.thunkIsPure c = true →
      Turn t σ (.producer c :: fs) r none σ (.step c (P.entry c) :: fs) r
  | impure (σ fs r c) : ¬ (σ c).isRealized → P.thunkIsPure c = false →
      Turn t σ (.producer c :: fs) r none σ (.claim c :: fs) r
  | ret (σ fs r c st answers v) : P.code st = .ret answers → answers v →
      Turn t σ (.step c st :: fs) r none σ (.publishPure c v :: fs) r
  | raise (σ fs r c st e) : P.code st = .raise e →
      Turn t σ (.step c st :: fs) r none σ (.fail c e :: fs) r
  | fail (σ fs r c e) :
      Turn t σ (.fail c e :: fs) r (some (.raised t c e)) σ (unwind e fs) r
  | publishPure (σ fs r c v) : ¬ (σ c).isRealized →
      Turn t σ (.publishPure c v :: fs) r (some (.returned t c v))
        (Function.update σ c (.realized v)) (P.resume v fs) r
  | publishLost (σ fs r c v) : (σ c).isRealized →
      Turn t σ (.publishPure c v :: fs) r none σ (.look c :: fs) r
  | claim (σ fs r c) : σ c = .unrealized →
      Turn t σ (.claim c :: fs) r (some (.started t c))
        (Function.update σ c .claimed) (.run c :: fs) (c :: r)
  | claimLost (σ fs r c) : σ c ≠ .unrealized →
      Turn t σ (.claim c :: fs) r none σ (.look c :: fs) r
  | complete (σ fs r c v) :
      Turn t σ (.run c :: fs) r (some (.completed t c)) σ (.publish c v :: fs) r.tail
  | throw (σ fs r c e) :
      Turn t σ (.run c :: fs) r (some (.threw t c e)) σ (.unclaim c e :: fs) r.tail
  /-- releases a claim, and touches no other slot -/
  | unclaim (σ fs r c e) : σ c = .claimed →
      Turn t σ (.unclaim c e :: fs) r (some (.raised t c e))
        (Function.update σ c .unrealized) (unwind e fs) r
  | unclaimLate (σ fs r c e) : σ c ≠ .claimed →
      Turn t σ (.unclaim c e :: fs) r (some (.raised t c e)) σ (unwind e fs) r
  | publish (σ fs r c v) : ¬ (σ c).isRealized →
      Turn t σ (.publish c v :: fs) r (some (.returned t c v))
        (Function.update σ c (.realized v)) (P.resume v fs) r
  | publishLate (σ fs r c v) : (σ c).isRealized →
      Turn t σ (.publish c v :: fs) r none σ (.readValue c :: fs) r
  | readValue (σ fs r c v) : σ c = .realized v →
      Turn t σ (.readValue c :: fs) r (some (.returned t c v)) σ (P.resume v fs) r

/-- Any thread moves. -/
inductive Step : State T C V E S → Option (Event T C V E) → State T C V E S → Prop where
  | turn (s : State T C V E S) (t : T) (ev σ fs r) :
      Turn P t s.slot (s.stack t) (s.realizing t) ev σ fs r →
      Step s ev ⟨σ, Function.update s.stack t fs, Function.update s.realizing t r⟩

/-- Reached from the unrealized cells, with the events on the way, latest first. -/
inductive Reachable : State T C V E S → List (Event T C V E) → Prop where
  | start : Reachable .start []
  | step {s ev s' evs} : Reachable s evs → Step P s ev s' → Reachable s' (ev.toList ++ evs)

end Steps

/-! ### Native steps read the same cells in every activation -/

section Paths
variable (P : Lazies C V E S)

def Lazies.Reads (known : C → V → Prop) (st st' : S) : Prop :=
  ∃ c k v, P.code st = .read c k ∧ known c v ∧ st' = k v

/-- The states a pure step of `c` goes through when cells answer what is known of them. -/
def Lazies.Path (known : C → V → Prop) (c : C) : S → Prop :=
  Relation.ReflTransGen (P.Reads known) (P.entry c)

def Lazies.Finished (known : C → V → Prop) (c : C) : Prop :=
  ∃ st answers, P.Path known c st ∧ P.code st = .ret answers

variable {P} {known known' : C → V → Prop}

theorem Lazies.Reads.mono (h : ∀ c v, known c v → known' c v) {st st' : S} (hr : P.Reads known st st') :
    P.Reads known' st st' := by
  obtain ⟨c, k, v, hc, hv, he⟩ := hr
  exact ⟨c, k, v, hc, h c v hv, he⟩

theorem Lazies.Path.mono (h : ∀ c v, known c v → known' c v) {c : C} {st : S}
    (hp : P.Path known c st) : P.Path known' c st :=
  Relation.ReflTransGen.mono (fun _ _ hr => hr.mono h) _ _ hp

theorem Lazies.Finished.mono (h : ∀ c v, known c v → known' c v) {c : C}
    (hf : P.Finished known c) : P.Finished known' c := by
  obtain ⟨st, answers, hp, hc⟩ := hf
  exact ⟨st, answers, hp.mono h, hc⟩

theorem Lazies.Path.read {c d : C} {st : S} {k : V → S} {v : V} (hp : P.Path known c st)
    (hc : P.code st = .read d k) (hv : known d v) : P.Path known c (k v) :=
  hp.tail ⟨d, k, v, hc, hv, rfl⟩

/-- A step that finished has read every cell that any activation of it reads. -/
theorem Lazies.Finished.knows (hK : ∀ c v, known' c v → known c v)
    (hfun : ∀ c v w, known c v → known c w → v = w) {c d : C} {st : S} {k : V → S}
    (hf : P.Finished known' c) (hp : P.Path known c st) (hc : P.code st = .read d k) :
    ∃ v, known' d v := by
  obtain ⟨last, answers, hpath, hret⟩ := hf
  unfold Lazies.Path at hp hpath
  generalize P.entry c = first at hp hpath
  induction hpath using Relation.ReflTransGen.head_induction_on with
  | refl =>
    rcases Relation.ReflTransGen.cases_head hp with rfl | ⟨next, ⟨c', k', v', hcode, -⟩, -⟩
    · rw [hret] at hc
      cases hc
    · rw [hret] at hcode
      cases hcode
  | head hstep _ ih =>
    obtain ⟨c', k', v', hcode, hv', rfl⟩ := hstep
    rcases Relation.ReflTransGen.cases_head hp with rfl | ⟨next, ⟨c'', k'', v'', hcode', hv'', rfl⟩, hrest⟩
    · rw [hcode] at hc
      cases hc
      exact ⟨v', hv'⟩
    · rw [hcode] at hcode'
      cases hcode'
      rw [hfun _ _ _ hv'' (hK _ _ hv')] at hrest
      exact ih hrest

end Paths

/-! ### What holds of the slots and of one thread's stack -/

section Invariants
variable {P : Lazies C V E S}

def Known (σ : C → Slot V) (c : C) (v : V) : Prop := σ c = .realized v

/-- Known, and published before the cells of age `m`. -/
def Before (σ : C → Slot V) (age : C → Nat) (m : Nat) (c : C) (v : V) : Prop :=
  σ c = .realized v ∧ age c < m

theorem Known.unique {σ : C → Slot V} (c : C) (v w : V) (hv : Known σ c v) (hw : Known σ c w) :
    v = w := by
  have h : Slot.realized v = .realized w := hv.symm.trans hw
  cases h
  rfl

/-- Cells are published one after the other, a pure one after those its step read. -/
structure SlotsOk (P : Lazies C V E S) (σ : C → Slot V) : Prop where
  unclaimed : ∀ c, P.thunkIsPure c = true → σ c ≠ .claimed
  ordered : ∃ (age : C → Nat) (bound : Nat), ∀ c v, σ c = .realized v →
    age c < bound ∧ (P.thunkIsPure c = true → P.Finished (Before σ age (age c)) c)

def FrameOk (P : Lazies C V E S) (σ : C → Slot V) : Frame C V E S → Prop
  | .look _ | .producer _ | .fail _ _ | .readValue _ => True
  | .wait c | .claim c => P.thunkIsPure c = false
  | .step c st => P.thunkIsPure c = true ∧ P.Path (Known σ) c st
  | .publishPure c _ => P.thunkIsPure c = true ∧ P.Finished (Known σ) c
  | .run c | .publish c _ | .unclaim c _ => P.thunkIsPure c = false ∧ σ c = .claimed

/-- Every activation was called by the one under it. -/
def Linked (P : Lazies C V E S) : List (Frame C V E S) → Prop
  | [] => True
  | f :: fs => P.Calls fs f.cell ∧ Linked P fs

/-- The claims a stack holds. -/
def held (fs : List (Frame C V E S)) : List C := fs.filterMap Frame.holds

structure StackOk (P : Lazies C V E S) (σ : C → Slot V) (fs : List (Frame C V E S))
    (r : List C) : Prop where
  realizing : r = fs.filterMap Frame.running
  linked : Linked P fs
  frames : ∀ f ∈ fs, FrameOk P σ f
  nodup : (held fs).Nodup
  waiting : ∀ c rest, fs = .wait c :: rest → c ∉ r

structure Inv (P : Lazies C V E S) (s : State T C V E S) : Prop where
  slots : SlotsOk P s.slot
  perThread : ∀ t, StackOk P s.slot (s.stack t) (s.realizing t)
  disjoint : ∀ t t' c, c ∈ held (s.stack t) → c ∈ held (s.stack t') → t = t'
  owned : ∀ c, s.slot c = .claimed → ∃ t, c ∈ held (s.stack t)

theorem held_cons (f : Frame C V E S) (fs : List (Frame C V E S)) :
    held (f :: fs) = f.holds.toList ++ held fs := by
  unfold held
  rw [List.filterMap_cons]
  cases f.holds <;> rfl

theorem isRealized_iff {x : Slot V} : x.isRealized = true ↔ ∃ v, x = .realized v := by
  cases x <;> simp [Slot.isRealized]

theorem FrameOk.mono {σ σ' : C → Slot V} {f : Frame C V E S} (h : FrameOk P σ f)
    (hr : ∀ c v, σ c = .realized v → σ' c = .realized v)
    (hc : ∀ c, f.holds = some c → σ c = .claimed → σ' c = .claimed) : FrameOk P σ' f := by
  cases f with
  | look | producer | fail | readValue => trivial
  | wait | claim => exact h
  | step => exact ⟨h.1, h.2.mono hr⟩
  | publishPure => exact ⟨h.1, h.2.mono hr⟩
  | run c => exact ⟨h.1, hc c rfl h.2⟩
  | publish c => exact ⟨h.1, hc c rfl h.2⟩
  | unclaim c => exact ⟨h.1, hc c rfl h.2⟩

theorem FrameOk.claimed {σ : C → Slot V} {f : Frame C V E S} {c : C} (h : FrameOk P σ f)
    (hf : f.holds = some c) : P.thunkIsPure c = false ∧ σ c = .claimed := by
  cases f with
  | run | publish | unclaim =>
    cases hf
    exact h
  | look | producer | fail | readValue | wait | claim | step | publishPure => cases hf

theorem StackOk.claimed {σ : C → Slot V} {fs : List (Frame C V E S)} {r : List C}
    (h : StackOk P σ fs r) {c : C} (hc : c ∈ held fs) :
    P.thunkIsPure c = false ∧ σ c = .claimed := by
  obtain ⟨f, hf, hfc⟩ := List.mem_filterMap.mp hc
  exact (h.frames f hf).claimed hfc

theorem mem_held_of_running {fs : List (Frame C V E S)} {c : C}
    (h : c ∈ fs.filterMap Frame.running) : c ∈ held fs := by
  obtain ⟨f, hf, hfc⟩ := List.mem_filterMap.mp h
  refine List.mem_filterMap.mpr ⟨f, hf, ?_⟩
  cases f with
  | run => exact hfc
  | look | producer | fail | readValue | wait | claim | step | publishPure | publish | unclaim =>
    cases hfc

/-! #### The stack after an answer or an error -/

@[simp] theorem running_resume (v : V) (fs : List (Frame C V E S)) :
    (P.resume v fs).filterMap Frame.running = fs.filterMap Frame.running := by
  unfold Lazies.resume
  split
  · split <;> rfl
  · rfl

@[simp] theorem held_resume (v : V) (fs : List (Frame C V E S)) :
    held (P.resume v fs) = held fs := by
  unfold Lazies.resume
  split
  · split <;> rfl
  · rfl

@[simp] theorem running_unwind (e : E) (fs : List (Frame C V E S)) :
    (unwind e fs).filterMap Frame.running = fs.filterMap Frame.running := by
  unfold unwind
  split <;> rfl

@[simp] theorem held_unwind (e : E) (fs : List (Frame C V E S)) :
    held (unwind e fs) = held fs := by
  unfold unwind
  split <;> rfl

theorem Linked.resume {fs : List (Frame C V E S)} (h : Linked P fs) (v : V) :
    Linked P (P.resume v fs) := by
  unfold Lazies.resume
  split
  · split
    · exact h
    · exact h
  · exact h

theorem Linked.unwind {fs : List (Frame C V E S)} (h : Linked P fs) (e : E) :
    Linked P (unwind e fs) := by
  unfold LazyCell.unwind
  split
  · exact h
  · exact h

theorem Linked.replace {f g : Frame C V E S} {fs : List (Frame C V E S)}
    (h : Linked P (f :: fs)) (hc : g.cell = f.cell) : Linked P (g :: fs) :=
  ⟨hc ▸ h.1, h.2⟩

/-- The caller that reads `c` goes on with what `c` is known to be. -/
theorem frames_resume {σ : C → Slot V} {fs : List (Frame C V E S)} {c : C} {v : V}
    (hf : ∀ f ∈ fs, FrameOk P σ f) (hc : P.Calls fs c) (hv : σ c = .realized v) :
    ∀ f ∈ P.resume v fs, FrameOk P σ f := by
  cases hc with
  | outside => exact hf
  | thunk => exact hf
  | native d st fs _ k hcode =>
    have hst := hf _ List.mem_cons_self
    intro f hmem
    rw [Lazies.resume, hcode] at hmem
    rcases List.mem_cons.mp hmem with rfl | hrest
    · exact ⟨hst.1, hst.2.read hcode hv⟩
    · exact hf f (List.mem_cons_of_mem _ hrest)

theorem frames_unwind {σ : C → Slot V} {fs : List (Frame C V E S)} {e : E}
    (hf : ∀ f ∈ fs, FrameOk P σ f) : ∀ f ∈ unwind e fs, FrameOk P σ f := by
  unfold LazyCell.unwind
  split
  · intro f hmem
    rcases List.mem_cons.mp hmem with rfl | hrest
    · trivial
    · exact hf f (List.mem_cons_of_mem _ hrest)
  · exact hf

theorem resume_ne_wait {fs rest : List (Frame C V E S)} {c d : C} {v : V} (hc : P.Calls fs c) :
    P.resume v fs ≠ .wait d :: rest := by
  cases hc with
  | outside => exact nofun
  | thunk => exact nofun
  | native _ st fs _ k hcode =>
    rw [Lazies.resume, hcode]
    exact nofun

theorem unwind_ne_wait {fs rest : List (Frame C V E S)} {c d : C} {e : E} (hc : P.Calls fs c) :
    unwind e fs ≠ .wait d :: rest := by
  cases hc with
  | outside => exact nofun
  | thunk => exact nofun
  | native => exact nofun

/-! #### What a step does to the slots -/

variable [DecidableEq C]

theorem update_realized {σ : C → Slot V} {c d : C} {v : V} {x : Slot V}
    (hd : ¬ (σ d).isRealized = true) (h : σ c = .realized v) :
    Function.update σ d x c = .realized v := by
  by_cases hcd : c = d
  · subst hcd
    exact absurd (isRealized_iff.mpr ⟨v, h⟩) hd
  · rw [Function.update_of_ne hcd]
    exact h

theorem Turn.realized_mono {t : T} {σ σ' : C → Slot V} {fs fs' : List (Frame C V E S)}
    {r r' : List C} {ev : Option (Event T C V E)} (h : Turn P t σ fs r ev σ' fs' r') {c : C} {v : V}
    (hc : σ c = .realized v) : σ' c = .realized v := by
  cases h with
  | publishPure fs _ d w hd => exact update_realized hd hc
  | publish fs _ d w hd => exact update_realized hd hc
  | claim fs _ d hd => exact update_realized (by simp [hd, Slot.isRealized]) hc
  | unclaim fs _ d e hd => exact update_realized (by simp [hd, Slot.isRealized]) hc
  | _ => exact hc

/-- Only the holder of a claim ends it. -/
theorem Turn.claimed_of_not_held {t : T} {σ σ' : C → Slot V} {fs fs' : List (Frame C V E S)}
    {r r' : List C} {ev : Option (Event T C V E)} (h : Turn P t σ fs r ev σ' fs' r')
    (hσ : SlotsOk P σ) (hfs : StackOk P σ fs r) {c : C} (hc : σ c = .claimed)
    (hheld : c ∉ held fs) : σ' c = .claimed := by
  cases h with
  | publishPure fs _ d w hd =>
    have hpure := (hfs.frames _ List.mem_cons_self).1
    have hcd : c ≠ d := fun he => hσ.unclaimed d hpure (he ▸ hc)
    rw [Function.update_of_ne hcd]
    exact hc
  | publish fs _ d w hd =>
    have hcd : c ≠ d := fun he => hheld (by simp [held_cons, he])
    rw [Function.update_of_ne hcd]
    exact hc
  | claim fs _ d hd =>
    have hcd : c ≠ d := fun he => by simp [← he, hc] at hd
    rw [Function.update_of_ne hcd]
    exact hc
  | unclaim fs _ d e hd =>
    have hcd : c ≠ d := fun he => hheld (by simp [held_cons, he])
    rw [Function.update_of_ne hcd]
    exact hc
  | _ => exact hc

/-- A claim is taken on an unrealized cell. -/
theorem Turn.held_of {t : T} {σ σ' : C → Slot V} {fs fs' : List (Frame C V E S)}
    {r r' : List C} {ev : Option (Event T C V E)} (h : Turn P t σ fs r ev σ' fs' r') {c : C}
    (hc : c ∈ held fs') : c ∈ held fs ∨ σ c = .unrealized := by
  cases h with
  | claim fs _ d hd =>
    rw [held_cons] at hc
    rcases List.mem_append.mp hc with hcd | hcs
    · have he : c = d := by simpa using hcd
      exact .inr (he ▸ hd)
    · exact .inl (by simp [held_cons, hcs])
  | realized | publishPure | publish | readValue =>
    rw [held_resume] at hc
    exact .inl (by simp [held_cons, hc])
  | overflow =>
    rw [held_unwind] at hc
    exact .inl hc
  | selfRead | fail | unclaim | unclaimLate =>
    rw [held_unwind] at hc
    exact .inl (by simp [held_cons, hc])
  | publishLate => exact .inl (by simpa [held_cons] using .inr hc)
  | _ => exact .inl (by simpa [held_cons] using hc)

/-- A claim that goes on is held by the same thread; a new one by the thread that took it. -/
theorem Turn.owned {t : T} {σ σ' : C → Slot V} {fs fs' : List (Frame C V E S)}
    {r r' : List C} {ev : Option (Event T C V E)} (h : Turn P t σ fs r ev σ' fs' r')
    (hfs : StackOk P σ fs r) {c : C} (hc : σ' c = .claimed) :
    (σ c = .claimed ∧ c ∉ held fs) ∨ c ∈ held fs' := by
  cases h with
  | claim fs _ d hd =>
    by_cases hcd : c = d
    · exact .inr (by simp [held_cons, hcd])
    · rw [Function.update_of_ne hcd] at hc
      by_cases hm : c ∈ held fs
      · exact .inr (by simp [held_cons, hm])
      · exact .inl ⟨hc, by simpa [held_cons] using hm⟩
  | publishPure fs _ d w hd =>
    by_cases hcd : c = d
    · simp [hcd] at hc
    · rw [Function.update_of_ne hcd] at hc
      by_cases hm : c ∈ held fs
      · exact .inr (by simpa using hm)
      · exact .inl ⟨hc, by simpa [held_cons] using hm⟩
  | publish fs _ d w hd =>
    by_cases hcd : c = d
    · simp [hcd] at hc
    · rw [Function.update_of_ne hcd] at hc
      by_cases hm : c ∈ held fs
      · exact .inr (by simpa using hm)
      · exact .inl ⟨hc, by simpa [held_cons, hcd] using hm⟩
  | unclaim fs _ d e hd =>
    by_cases hcd : c = d
    · simp [hcd] at hc
    · rw [Function.update_of_ne hcd] at hc
      by_cases hm : c ∈ held fs
      · exact .inr (by simpa using hm)
      · exact .inl ⟨hc, by simpa [held_cons, hcd] using hm⟩
  | unclaimLate fs _ d e hd =>
    by_cases hm : c ∈ held fs
    · exact .inr (by simpa using hm)
    · have hcd : c ≠ d := fun he => hd (he ▸ hc)
      exact .inl ⟨hc, by simpa [held_cons, hcd] using hm⟩
  | publishLate fs _ d w hd =>
    by_cases hm : c ∈ held fs
    · exact .inr (by simpa [held_cons] using hm)
    · have hcd : c ≠ d := fun he => by simp [← he, hc, Slot.isRealized] at hd
      exact .inl ⟨hc, by simpa [held_cons, hcd] using hm⟩
  | overflow fs =>
    by_cases hm : c ∈ held fs
    · exact .inr (by simpa using hm)
    · exact .inl ⟨hc, hm⟩
  | call fs | realized fs | selfRead fs | claimed fs | again fs | unrealized fs
  | noProducer fs | runPure fs | impure fs | ret fs | raise fs | fail fs
  | publishLost fs | claimLost fs | readValue fs =>
    by_cases hm : c ∈ held fs
    · exact .inr (by simpa [held_cons] using hm)
    · exact .inl ⟨hc, by simpa [held_cons] using hm⟩
  | complete fs _ d | throw fs _ d =>
    by_cases hm : c ∈ held (.run d :: fs)
    · exact .inr (by simpa [held_cons] using hm)
    · exact .inl ⟨hc, hm⟩

/-! #### What a step does to its own stack -/

omit [DecidableEq C] in
theorem StackOk.mono {σ σ' : C → Slot V} {fs : List (Frame C V E S)} {r : List C}
    (h : StackOk P σ fs r) (hr : ∀ c v, σ c = .realized v → σ' c = .realized v)
    (hc : ∀ c ∈ held fs, σ c = .claimed → σ' c = .claimed) : StackOk P σ' fs r where
  realizing := h.realizing
  linked := h.linked
  frames f hf := (h.frames f hf).mono hr fun c hfc =>
    hc c (List.mem_filterMap.mpr ⟨f, hf, hfc⟩)
  nodup := h.nodup
  waiting := h.waiting

omit [DecidableEq C] in
/-- The top activation goes on, with the claim it had. -/
theorem StackOk.replace {σ : C → Slot V} {f g : Frame C V E S} {fs : List (Frame C V E S)}
    {r : List C} (h : StackOk P σ (f :: fs) r) (hcell : g.cell = f.cell)
    (hrun : g.running = f.running) (hholds : g.holds = f.holds) (hok : FrameOk P σ g)
    (hwait : ∀ c, g = .wait c → c ∉ r) : StackOk P σ (g :: fs) r where
  realizing := by
    rw [h.realizing, List.filterMap_cons, List.filterMap_cons, hrun]
  linked := h.linked.replace hcell
  frames := List.forall_mem_cons.mpr ⟨hok, fun f' hf => h.frames f' (List.mem_cons_of_mem _ hf)⟩
  nodup := by
    rw [held_cons, hholds, ← held_cons]
    exact h.nodup
  waiting c rest he := hwait c (List.cons.inj he).1

omit [DecidableEq C] in
theorem StackOk.tail {σ : C → Slot V} {f : Frame C V E S} {fs : List (Frame C V E S)} {r : List C}
    (h : StackOk P σ (f :: fs) r) (hrun : f.running = none) :
    r = fs.filterMap Frame.running ∧ Linked P fs ∧ (∀ g ∈ fs, FrameOk P σ g) ∧ (held fs).Nodup ∧
      P.Calls fs f.cell := by
  refine ⟨?_, h.linked.2, fun g hg => h.frames g (List.mem_cons_of_mem _ hg), ?_, h.linked.1⟩
  · rw [h.realizing, List.filterMap_cons, hrun]
  · have hn := h.nodup
    rw [held_cons] at hn
    exact hn.of_append_right

omit [DecidableEq C] in
theorem StackOk.resume {σ : C → Slot V} {f : Frame C V E S} {fs : List (Frame C V E S)}
    {r : List C} {v : V} (h : StackOk P σ (f :: fs) r) (hrun : f.running = none)
    (hv : σ f.cell = .realized v) : StackOk P σ (P.resume v fs) r := by
  obtain ⟨hr, hl, hf, hn, hcalls⟩ := h.tail hrun
  exact ⟨by rw [hr, running_resume], hl.resume v, frames_resume hf hcalls hv,
    by rw [held_resume]; exact hn, fun c rest he => absurd he (resume_ne_wait hcalls)⟩

omit [DecidableEq C] in
theorem StackOk.unwind {σ : C → Slot V} {fs : List (Frame C V E S)} {r : List C} {c : C} {e : E}
    (hr : r = fs.filterMap Frame.running) (hl : Linked P fs) (hf : ∀ g ∈ fs, FrameOk P σ g)
    (hn : (held fs).Nodup) (hcalls : P.Calls fs c) : StackOk P σ (unwind e fs) r :=
  ⟨by rw [hr, running_unwind], hl.unwind e, frames_unwind hf, by rw [held_unwind]; exact hn,
    fun _ _ he => absurd he (unwind_ne_wait hcalls)⟩

omit [DecidableEq C] in
theorem StackOk.unwind_tail {σ : C → Slot V} {f : Frame C V E S} {fs : List (Frame C V E S)}
    {r : List C} {e : E} (h : StackOk P σ (f :: fs) r) (hrun : f.running = none) :
    StackOk P σ (LazyCell.unwind e fs) r := by
  obtain ⟨hr, hl, hf, hn, hcalls⟩ := h.tail hrun
  exact .unwind hr hl hf hn hcalls

/-- The top activation holds no claim, and its cell changes. -/
theorem StackOk.update {σ : C → Slot V} {f : Frame C V E S} {fs : List (Frame C V E S)}
    {r : List C} (h : StackOk P σ (f :: fs) r) {x : Slot V} {g : Frame C V E S}
    (hcell : g.cell = f.cell) (hrun : g.running = f.running) (hg : FrameOk P
      (Function.update σ f.cell x) g) (hholds : g.holds = none) (hw : ∀ c, g ≠ .wait c)
    (hx : ¬ (σ f.cell).isRealized = true) (hc : f.cell ∉ held fs) :
    StackOk P (Function.update σ f.cell x) (g :: fs) r where
  realizing := by
    rw [h.realizing, List.filterMap_cons, List.filterMap_cons, hrun]
  linked := h.linked.replace hcell
  frames := by
    refine List.forall_mem_cons.mpr ⟨hg, fun f' hf => ?_⟩
    refine (h.frames f' (List.mem_cons_of_mem _ hf)).mono (fun c v => update_realized hx) ?_
    intro c hfc hcl
    have hne : c ≠ f.cell := fun he =>
      hc (he ▸ List.mem_filterMap.mpr ⟨f', hf, hfc⟩)
    rw [Function.update_of_ne hne]
    exact hcl
  nodup := by
    have hn := h.nodup
    rw [held_cons] at hn ⊢
    rw [hholds]
    exact hn.of_append_right
  waiting c rest he := absurd (List.cons.inj he).1 (hw c)

omit [DecidableEq C] in
theorem StackOk.not_held_tail {σ : C → Slot V} {f : Frame C V E S} {fs : List (Frame C V E S)}
    {r : List C} (h : StackOk P σ (f :: fs) r) (hf : f.holds = some f.cell) :
    f.cell ∉ held fs := by
  have hn := h.nodup
  rw [held_cons, hf] at hn
  exact (List.nodup_cons.mp hn).1

theorem Turn.stackOk {t : T} {σ σ' : C → Slot V} {fs fs' : List (Frame C V E S)}
    {r r' : List C} {ev : Option (Event T C V E)} (h : Turn P t σ fs r ev σ' fs' r')
    (hσ : SlotsOk P σ) (hfs : StackOk P σ fs r) : StackOk P σ' fs' r' := by
  cases h with
  | call _ _ c hcalls =>
    exact ⟨hfs.realizing, ⟨hcalls, hfs.linked⟩,
      List.forall_mem_cons.mpr ⟨trivial, hfs.frames⟩, by simpa [held_cons] using hfs.nodup, nofun⟩
  | overflow _ _ c hcalls => exact .unwind hfs.realizing hfs.linked hfs.frames hfs.nodup hcalls
  | realized _ _ c v hv => exact hfs.resume rfl hv
  | selfRead => exact hfs.unwind_tail rfl
  | claimed fs _ c hcl hr =>
    refine hfs.replace rfl rfl rfl ?_ fun d he => ?_
    · cases hp : P.thunkIsPure c with
      | false => exact hp
      | true => exact absurd hcl (hσ.unclaimed c hp)
    · cases he
      exact hr
  | again => exact hfs.replace rfl rfl rfl trivial nofun
  | unrealized => exact hfs.replace rfl rfl rfl trivial nofun
  | noProducer => exact hfs.replace rfl rfl rfl trivial nofun
  | runPure _ _ c _ hp => exact hfs.replace rfl rfl rfl ⟨hp, .refl⟩ nofun
  | impure _ _ c _ hp => exact hfs.replace rfl rfl rfl hp nofun
  | ret _ _ c st answers v hcode =>
    have hst := hfs.frames _ List.mem_cons_self
    exact hfs.replace rfl rfl rfl ⟨hst.1, st, answers, hst.2, hcode⟩ nofun
  | raise => exact hfs.replace rfl rfl rfl trivial nofun
  | fail => exact hfs.unwind_tail rfl
  | publishPure fs _ c v hc =>
    have hpure := (hfs.frames _ List.mem_cons_self).1
    have hup := hfs.update (x := .realized v) (g := .readValue c) rfl rfl trivial rfl nofun hc
      fun hm => by
        have hcl := hfs.claimed (c := c) (by simpa [held_cons] using hm)
        rw [hpure] at hcl
        cases hcl.1
    exact hup.resume rfl (by simp)
  | publishLost => exact hfs.replace rfl rfl rfl trivial nofun
  | claim fs r c hc =>
    have himpure : P.thunkIsPure c = false := hfs.frames _ List.mem_cons_self
    obtain ⟨hr, hl, hf, hn, hcalls⟩ := hfs.tail rfl
    have hheld : c ∉ held fs := fun hm => by
      have hcl := hfs.claimed (c := c) (by simpa [held_cons] using hm)
      simp [hc] at hcl
    have hframes : ∀ f ∈ fs, FrameOk P (Function.update σ c .claimed) f := by
      intro f hmem
      refine (hf f hmem).mono
        (fun d v => update_realized (by simp [hc, Slot.isRealized])) fun d hd hcl => ?_
      have hne : d ≠ c := fun he => by simp [he, hc] at hcl
      rw [Function.update_of_ne hne]
      exact hcl
    refine ⟨?_, ⟨hcalls, hl⟩,
      List.forall_mem_cons.mpr ⟨⟨himpure, by simp⟩, hframes⟩, ?_, nofun⟩
    · rw [hr]
      rfl
    · simpa [held_cons] using ⟨hheld, hn⟩
  | claimLost => exact hfs.replace rfl rfl rfl trivial nofun
  | complete fs _ c v =>
    have hok : FrameOk P σ (.run c) := hfs.frames _ List.mem_cons_self
    refine ⟨by rw [hfs.realizing]; rfl, ⟨hfs.linked.1, hfs.linked.2⟩,
      List.forall_mem_cons.mpr ⟨hok, fun f hf => hfs.frames f (List.mem_cons_of_mem _ hf)⟩, ?_, nofun⟩
    simpa [held_cons] using hfs.nodup
  | throw fs _ c e =>
    have hok : FrameOk P σ (.run c) := hfs.frames _ List.mem_cons_self
    refine ⟨by rw [hfs.realizing]; rfl, ⟨hfs.linked.1, hfs.linked.2⟩,
      List.forall_mem_cons.mpr ⟨hok, fun f hf => hfs.frames f (List.mem_cons_of_mem _ hf)⟩, ?_, nofun⟩
    simpa [held_cons] using hfs.nodup
  | unclaim fs _ c e hc =>
    have hup := hfs.update (x := .unrealized) (g := .fail c e) rfl rfl trivial rfl nofun
      (by simp [hc, Slot.isRealized]) (hfs.not_held_tail rfl)
    exact hup.unwind_tail rfl
  | unclaimLate => exact hfs.unwind_tail rfl
  | publish fs _ c v hc =>
    have hup := hfs.update (x := .realized v) (g := .readValue c) rfl rfl trivial rfl nofun hc
      (hfs.not_held_tail rfl)
    exact hup.resume rfl (by simp)
  | publishLate fs _ c v hc =>
    have hcl := (hfs.frames _ List.mem_cons_self).2
    simp [hcl, Slot.isRealized] at hc
  | readValue _ _ c v hv => exact hfs.resume rfl hv

/-! #### The order of publication -/

omit [DecidableEq C] in
theorem Before.known {σ : C → Slot V} {age : C → Nat} {m : Nat} (c : C) (v : V)
    (h : Before σ age m c v) : Known σ c v := h.1

/-- A step that changes no realized slot and claims no pure cell. -/
theorem SlotsOk.update {σ : C → Slot V} (h : SlotsOk P σ) {c : C} {x : Slot V}
    (hc : ¬ (σ c).isRealized = true) (hx : ¬ x.isRealized = true)
    (hp : P.thunkIsPure c = true → x ≠ .claimed) : SlotsOk P (Function.update σ c x) where
  unclaimed d hd := by
    by_cases hdc : d = c
    · subst hdc
      simpa using hp hd
    · rw [Function.update_of_ne hdc]
      exact h.unclaimed d hd
  ordered := by
    obtain ⟨age, bound, ho⟩ := h.ordered
    refine ⟨age, bound, fun d v hd => ?_⟩
    have hdc : d ≠ c := by
      rintro rfl
      exact hx (isRealized_iff.mpr ⟨v, by simpa using hd⟩)
    rw [Function.update_of_ne hdc] at hd
    obtain ⟨hlt, hfin⟩ := ho d v hd
    exact ⟨hlt, fun hpure => (hfin hpure).mono fun c' w hw =>
      ⟨update_realized hc hw.1, hw.2⟩⟩

/-- A publication: the youngest cell. -/
theorem SlotsOk.publish {σ : C → Slot V} (h : SlotsOk P σ) {c : C} {v : V}
    (hc : ¬ (σ c).isRealized = true) (hfin : P.thunkIsPure c = true → P.Finished (Known σ) c) :
    SlotsOk P (Function.update σ c (.realized v)) where
  unclaimed d hd := by
    by_cases hdc : d = c
    · simp [hdc]
    · rw [Function.update_of_ne hdc]
      exact h.unclaimed d hd
  ordered := by
    obtain ⟨age, bound, ho⟩ := h.ordered
    have hold : ∀ d w m, σ d = .realized w → age d < m →
        Before (Function.update σ c (.realized v)) (Function.update age c bound) m d w := by
      intro d w m hd hm
      have hdc : d ≠ c := by
        rintro rfl
        exact hc (isRealized_iff.mpr ⟨w, hd⟩)
      exact ⟨update_realized hc hd, by rwa [Function.update_of_ne hdc]⟩
    refine ⟨Function.update age c bound, bound + 1, fun d w hd => ?_⟩
    by_cases hdc : d = c
    · subst hdc
      rw [Function.update_self]
      exact ⟨Nat.lt_succ_self _, fun hp => (hfin hp).mono fun c' w' hw' =>
        hold c' w' _ hw' (ho c' w' hw').1⟩
    · rw [Function.update_of_ne hdc] at hd ⊢
      obtain ⟨hlt, hf⟩ := ho d w hd
      exact ⟨Nat.lt_succ_of_lt hlt, fun hp => (hf hp).mono fun c' w' hw' =>
        hold c' w' _ hw'.1 hw'.2⟩

theorem Turn.slotsOk {t : T} {σ σ' : C → Slot V} {fs fs' : List (Frame C V E S)}
    {r r' : List C} {ev : Option (Event T C V E)} (h : Turn P t σ fs r ev σ' fs' r')
    (hσ : SlotsOk P σ) (hfs : StackOk P σ fs r) : SlotsOk P σ' := by
  cases h with
  | publishPure fs _ c v hc =>
    have hok := hfs.frames _ List.mem_cons_self
    exact hσ.publish hc fun _ => hok.2
  | publish fs _ c v hc =>
    have hok := (hfs.frames _ List.mem_cons_self).1
    refine hσ.publish hc fun hp => ?_
    rw [hok] at hp
    cases hp
  | claim fs _ c hc =>
    have hok : P.thunkIsPure c = false := hfs.frames _ List.mem_cons_self
    refine hσ.update (by simp [hc, Slot.isRealized]) nofun fun hp => ?_
    rw [hok] at hp
    cases hp
  | unclaim fs _ c e hc => exact hσ.update (by simp [hc, Slot.isRealized]) nofun nofun
  | _ => exact hσ

/-! #### Every reachable state -/

omit [DecidableEq C] in
theorem Inv.start : Inv P (State.start : State T C V E S) where
  slots := ⟨nofun, fun _ => 0, 0, nofun⟩
  perThread _ := ⟨rfl, trivial, nofun, List.nodup_nil, nofun⟩
  disjoint _ _ _ hc := nomatch hc
  owned _ hc := nomatch hc

variable [DecidableEq T]

theorem Inv.step {s s' : State T C V E S} {ev : Option (Event T C V E)} (h : Inv P s)
    (hs : Step P s ev s') : Inv P s' := by
  obtain ⟨t, _, σ, fs, r, hturn⟩ := hs
  have hheld : ∀ t' c, c ∈ held (Function.update s.stack t fs t') →
      c ∈ held (s.stack t') ∨ (t' = t ∧ s.slot c = .unrealized) := by
    intro t' c hc
    by_cases ht : t' = t
    · subst ht
      rw [Function.update_self] at hc
      rcases hturn.held_of hc with hold | hnew
      · exact .inl hold
      · exact .inr ⟨rfl, hnew⟩
    · rw [Function.update_of_ne ht] at hc
      exact .inl hc
  have hclaimed : ∀ t' c, c ∈ held (s.stack t') → s.slot c ≠ .unrealized := by
    intro t' c hc he
    have hcl := ((h.perThread t').claimed hc).2
    rw [he] at hcl
    cases hcl
  refine ⟨hturn.slotsOk h.slots (h.perThread t), fun t' => ?_, fun t₁ t₂ c h₁ h₂ => ?_, fun c hc => ?_⟩
  · by_cases ht : t' = t
    · subst ht
      simpa using hturn.stackOk h.slots (h.perThread t')
    · simp only [Function.update_of_ne ht]
      refine (h.perThread t').mono (fun c v => hturn.realized_mono) fun c hc hcl => ?_
      exact hturn.claimed_of_not_held h.slots (h.perThread t) hcl
        fun hm => ht (h.disjoint t' t c hc hm)
  · rcases hheld t₁ c h₁ with hold₁ | ⟨ht₁, hu₁⟩
    · rcases hheld t₂ c h₂ with hold₂ | ⟨-, hu₂⟩
      · exact h.disjoint t₁ t₂ c hold₁ hold₂
      · exact absurd hu₂ (hclaimed t₁ c hold₁)
    · rcases hheld t₂ c h₂ with hold₂ | ⟨ht₂, -⟩
      · exact absurd hu₁ (hclaimed t₂ c hold₂)
      · exact ht₁.trans ht₂.symm
  · rcases hturn.owned (h.perThread t) hc with ⟨hcl, hnot⟩ | hmine
    · obtain ⟨t', ht'⟩ := h.owned c hcl
      have hne : t' ≠ t := fun he => hnot (he ▸ ht')
      exact ⟨t', by simpa [Function.update_of_ne hne] using ht'⟩
    · exact ⟨t, by simpa using hmine⟩

theorem Reachable.inv {s : State T C V E S} {evs : List (Event T C V E)} (h : Reachable P s evs) :
    Inv P s := by
  induction h with
  | start => exact .start
  | step _ hs ih => exact ih.step hs

/-! ### A thunk that reads its own cell -/

omit [DecidableEq C] in
/-- The activation below `f` that called it knows the cell of `f` before it is done. -/
theorem link_realized {σ : C → Slot V} {f g : Frame C V E S} {fs : List (Frame C V E S)}
    {age : C → Nat} {m : Nat} (hl : Linked P (f :: g :: fs)) (hok : FrameOk P σ g)
    (hclaimed : σ g.cell ≠ .claimed)
    (hfin : P.thunkIsPure g.cell = true → P.Finished (Before σ age m) g.cell) :
    ∃ v, Before σ age m f.cell v := by
  have hcalls := hl.1
  generalize f.cell = c at hcalls ⊢
  cases hcalls with
  | thunk => exact absurd hok.2 hclaimed
  | native d st _ _ k hcode =>
    exact (hfin hok.1).knows Before.known Known.unique hok.2 hcode

omit [DecidableEq C] in
/-- When a cell read further down is published, so is the cell on top, and earlier. -/
theorem descends {σ : C → Slot V} {age : C → Nat} {bound : Nat}
    (hord : ∀ c v, σ c = .realized v →
      age c < bound ∧ (P.thunkIsPure c = true → P.Finished (Before σ age (age c)) c)) :
    ∀ (fs : List (Frame C V E S)) (f g : Frame C V E S) (m : Nat), Linked P (f :: fs) →
      (∀ h ∈ fs, FrameOk P σ h) → g ∈ fs → σ g.cell ≠ .claimed →
      (P.thunkIsPure g.cell = true → P.Finished (Before σ age m) g.cell) →
      ∃ v, Before σ age m f.cell v := by
  intro fs
  induction fs with
  | nil => exact nofun
  | cons h fs ih =>
    intro f g m hl hok hg hclaimed hfin
    have hokh := hok h List.mem_cons_self
    rcases List.mem_cons.mp hg with rfl | hg
    · exact link_realized hl hokh hclaimed hfin
    · obtain ⟨v, hv, hlt⟩ := ih h g m hl.2 (fun g hg => hok g (List.mem_cons_of_mem _ hg)) hg
        hclaimed hfin
      have hnot : σ h.cell ≠ .claimed := by rw [hv]; nofun
      obtain ⟨w, hw, hwlt⟩ := link_realized hl hokh hnot (hord _ _ hv).2
      exact ⟨w, hw, Nat.lt_trans hwlt hlt⟩

omit [DecidableEq T] [DecidableEq C] in
theorem Inv.not_finished_of_reenters {s : State T C V E S} (h : Inv P s) {t : T}
    {f : Frame C V E S} {rest : List (Frame C V E S)} (hs : s.stack t = f :: rest)
    (hre : f.cell ∈ rest.map Frame.cell) (hclaimed : s.slot f.cell ≠ .claimed)
    (hfin : P.thunkIsPure f.cell = true → P.Finished (Known s.slot) f.cell) : False := by
  obtain ⟨g, hg, hcell⟩ := List.mem_map.mp hre
  obtain ⟨age, bound, hord⟩ := h.slots.ordered
  have hst := h.perThread t
  rw [hs] at hst
  have hrest : ∀ g ∈ rest, FrameOk P s.slot g := fun g hg =>
    hst.frames g (List.mem_cons_of_mem _ hg)
  have hbefore : ∀ c v, Known s.slot c v → Before s.slot age bound c v := fun c v hv =>
    ⟨hv, (hord c v hv).1⟩
  obtain ⟨v, hv, -⟩ := descends hord rest f g bound hst.linked hrest hg (hcell ▸ hclaimed)
    (hcell ▸ fun hp => (hfin hp).mono hbefore)
  have hage := (hord _ _ hv).2
  obtain ⟨w, -, hlt⟩ := descends hord rest f g (age f.cell) hst.linked hrest hg (hcell ▸ hclaimed)
    (hcell ▸ hage)
  exact Nat.lt_irrefl _ hlt

omit [DecidableEq T] [DecidableEq C] in
theorem Inv.not_realized_of_reenters {s : State T C V E S} (h : Inv P s) {t : T}
    {f : Frame C V E S} {rest : List (Frame C V E S)} (hs : s.stack t = f :: rest)
    (hre : f.cell ∈ rest.map Frame.cell) (v : V) : s.slot f.cell ≠ .realized v := by
  intro hv
  obtain ⟨age, bound, hord⟩ := h.slots.ordered
  exact h.not_finished_of_reenters hs hre (by rw [hv]; nofun)
    fun hp => ((hord _ _ hv).2 hp).mono fun c w hw => hw.1

omit [DecidableEq C] in
/-- Below the top of a stack stand the thunks and the native steps that read. -/
theorem Linked.below {f g : Frame C V E S} {fs : List (Frame C V E S)} (h : Linked P (f :: fs))
    (hg : g ∈ fs) : (∃ c, g = .run c) ∨ ∃ c st, g = .step c st := by
  induction fs generalizing f with
  | nil => cases hg
  | cons x fs ih =>
    rcases List.mem_cons.mp hg with rfl | hg
    · have hcalls := h.1
      generalize f.cell = c at hcalls
      cases hcalls with
      | thunk d => exact .inl ⟨d, rfl⟩
      | native d st => exact .inr ⟨d, st, rfl⟩
    · exact ih h.2 hg

omit [DecidableEq T] [DecidableEq C] in
/-- A thunk that is read again while it runs: its claim is this thread's. -/
theorem Inv.running_of_reenters {s : State T C V E S} (h : Inv P s) {t : T}
    {f : Frame C V E S} {rest : List (Frame C V E S)} (hs : s.stack t = f :: rest)
    (hre : f.cell ∈ rest.map Frame.cell) (hp : P.thunkIsPure f.cell = false) :
    f.cell ∈ rest.filterMap Frame.running := by
  obtain ⟨g, hg, hcell⟩ := List.mem_map.mp hre
  have hst := h.perThread t
  rw [hs] at hst
  rcases hst.linked.below hg with ⟨c, rfl⟩ | ⟨c, st, rfl⟩
  · exact List.mem_filterMap.mpr ⟨_, hg, congrArg some hcell⟩
  · have hok : P.thunkIsPure c = true := (hst.frames _ (List.mem_cons_of_mem _ hg)).1
    rw [← hcell] at hp
    exact absurd (hok.symm.trans hp) nofun

/-! ### What the events say of the slots -/

/-- A thunk that completed is being published or is. -/
def Settled (s : State T C V E S) (c : C) : Prop :=
  (∃ v, s.slot c = .realized v) ∨ ∃ t v rest, s.stack t = .publish c v :: rest

structure History (s : State T C V E S) (evs : List (Event T C V E)) : Prop where
  returned : ∀ t c v, .returned t c v ∈ evs → s.slot c = .realized v
  completed : ∀ t c, .completed t c ∈ evs → Settled s c

omit [DecidableEq T] in
theorem Turn.returned {t t' : T} {σ σ' : C → Slot V} {fs fs' : List (Frame C V E S)}
    {r r' : List C} {c : C} {v : V} (h : Turn P t σ fs r (some (.returned t' c v)) σ' fs' r') :
    t' = t ∧ σ' c = .realized v ∧ ∃ f rest, fs = f :: rest ∧
      (σ c = .realized v ∨ f = .publishPure c v ∨ f = .publish c v) := by
  cases h with
  | realized fs _ _ _ hv => exact ⟨rfl, hv, _, fs, rfl, .inl hv⟩
  | readValue fs _ _ _ hv => exact ⟨rfl, hv, _, fs, rfl, .inl hv⟩
  | publishPure fs => exact ⟨rfl, Function.update_self .., _, fs, rfl, .inr (.inl rfl)⟩
  | publish fs => exact ⟨rfl, Function.update_self .., _, fs, rfl, .inr (.inr rfl)⟩

omit [DecidableEq T] in
theorem Turn.completed {t t' : T} {σ σ' : C → Slot V} {fs fs' : List (Frame C V E S)}
    {r r' : List C} {c : C} (h : Turn P t σ fs r (some (.completed t' c)) σ' fs' r') :
    ∃ v rest, fs' = .publish c v :: rest := by
  cases h with
  | complete fs _ _ v => exact ⟨v, fs, rfl⟩

omit [DecidableEq T] in
/-- A completed thunk's value stays with its thread until it is published. -/
theorem Turn.publishing {t : T} {σ σ' : C → Slot V} {fs fs' : List (Frame C V E S)}
    {r r' : List C} {ev : Option (Event T C V E)} (h : Turn P t σ fs r ev σ' fs' r') {c : C}
    {v : V} {rest : List (Frame C V E S)} (hfs : fs = .publish c v :: rest) :
    ∃ w, σ' c = .realized w := by
  subst hfs
  cases h with
  | call _ _ _ hcalls => cases hcalls
  | overflow _ _ _ hcalls => cases hcalls
  | publish => exact ⟨v, Function.update_self ..⟩
  | publishLate _ _ _ _ hc => exact isRealized_iff.mp hc

theorem Settled.step {s s' : State T C V E S} {ev : Option (Event T C V E)} {c : C}
    (h : Settled s c) (hs : Step P s ev s') : Settled s' c := by
  obtain ⟨t, _, σ, fs, r, hturn⟩ := hs
  rcases h with ⟨v, hv⟩ | ⟨t', v, rest, ht'⟩
  · exact .inl ⟨v, hturn.realized_mono hv⟩
  · by_cases ht : t' = t
    · subst ht
      exact .inl (hturn.publishing ht')
    · exact .inr ⟨t', v, rest, by simpa [Function.update_of_ne ht] using ht'⟩

theorem Reachable.history {s : State T C V E S} {evs : List (Event T C V E)}
    (h : Reachable P s evs) : History s evs := by
  induction h with
  | start => exact ⟨nofun, nofun⟩
  | @step s ev s' evs hr hs ih =>
    refine ⟨fun t c v hmem => ?_, fun t c hmem => ?_⟩
    · rcases List.mem_append.mp hmem with hnew | hold
      · obtain ⟨t', _, σ, fs, r, hturn⟩ := hs
        rw [Option.mem_toList.mp hnew] at hturn
        exact hturn.returned.2.1
      · obtain ⟨t', _, σ, fs, r, hturn⟩ := hs
        exact hturn.realized_mono (ih.returned t c v hold)
    · rcases List.mem_append.mp hmem with hnew | hold
      · obtain ⟨t', _, σ, fs, r, hturn⟩ := hs
        rw [Option.mem_toList.mp hnew] at hturn
        obtain ⟨v, rest, he⟩ := hturn.completed
        exact .inr ⟨t', v, rest, by simpa using he⟩
      · exact (ih.completed t c hold).step hs

omit [DecidableEq T] [DecidableEq C] in
/-- A settled cell is not unrealized, and nobody runs its thunk. -/
theorem Inv.settled {s : State T C V E S} (h : Inv P s) {c : C} (hc : Settled s c) :
    s.slot c ≠ .unrealized ∧ ∀ t, Frame.run c ∉ s.stack t := by
  have hrun : ∀ t, Frame.run c ∈ s.stack t → c ∈ held (s.stack t) := fun t hm =>
    List.mem_filterMap.mpr ⟨_, hm, rfl⟩
  rcases hc with ⟨v, hv⟩ | ⟨t', v, rest, ht'⟩
  · refine ⟨by rw [hv]; nofun, fun t hm => ?_⟩
    have hcl := ((h.perThread t).claimed (hrun t hm)).2
    rw [hv] at hcl
    cases hcl
  · have hst := h.perThread t'
    rw [ht'] at hst
    have hmine : c ∈ held (s.stack t') := by simp [ht', held_cons]
    refine ⟨by rw [(hst.frames _ List.mem_cons_self).2]; nofun, fun t hm => ?_⟩
    obtain rfl := h.disjoint t t' c (hrun t hm) hmine
    have hnot : c ∉ held rest := hst.not_held_tail rfl
    rw [ht'] at hm
    rcases List.mem_cons.mp hm with he | hrest
    · cases he
    · exact hnot (List.mem_filterMap.mpr ⟨_, hrest, rfl⟩)

/-! ### Lazy cells are realised once -/

/-- The thunks that run in a stack. -/
def running (fs : List (Frame C V E S)) : List C := fs.filterMap Frame.running

structure RealizedOnce (P : Lazies C V E S) (s : State T C V E S) (evs : List (Event T C V E)) :
    Prop where
  /-- A thunk under a claim runs in one thread, once. -/
  alone : ∀ c t t', c ∈ running (s.stack t) → c ∈ running (s.stack t') → t = t'
  nodup : ∀ t, (running (s.stack t)).Nodup
  notAgain : ∀ t t' c s', Step P s (some (.started t c)) s' → .completed t' c ∉ evs
  returned : ∀ t t' c v w, .returned t c v ∈ evs → .returned t' c w ∈ evs →
    v = w ∧ s.slot c = .realized v
  /-- A reader that re-enters its cell neither waits for it nor gets a value. -/
  reentered : ∀ t f rest, s.stack t = f :: rest → f.cell ∈ rest.map Frame.cell →
    (∀ c, f ≠ .wait c) ∧ ∀ v s', ¬ Step P s (some (.returned t f.cell v)) s'
  /-- When the thunk runs under a claim, it gets its error at once. -/
  selfRead : ∀ t c rest, s.stack t = .look c :: rest → c ∈ rest.map Frame.cell →
    P.thunkIsPure c = false → (∃ s', Step P s (some (.raised t c P.selfRead)) s') ∧
      ∀ ev s', Step P s ev s' → s'.stack t ≠ s.stack t → ev = some (.raised t c P.selfRead)
  threw : ∀ t c e s', Step P s (some (.threw t c e)) s' → ∃ rest, s'.stack t = .unclaim c e :: rest
  released : ∀ t c e rest, s.stack t = .unclaim c e :: rest →
    ∀ ev s', Step P s ev s' → s'.stack t ≠ s.stack t →
      ev = some (.raised t c e) ∧ s'.slot c = .unrealized
  /-- A later reader of an unrealised cell runs the thunk. -/
  claimable : ∀ t c rest, s.slot c = .unrealized → P.thunkIsPure c = false →
    s.stack t = .look c :: rest → ∃ s₁ s₂ s₃, Step P s none s₁ ∧ Step P s₁ none s₂ ∧
      Step P s₂ (some (.started t c)) s₃ ∧ s₃.stack t = .run c :: rest
  owned : ∀ c, s.slot c = .claimed → ∃ t f, f ∈ s.stack t ∧ f.holds = some c

theorem Inv.reentered {s : State T C V E S} (h : Inv P s) {t : T} {f : Frame C V E S}
    {rest : List (Frame C V E S)} (hs : s.stack t = f :: rest)
    (hre : f.cell ∈ rest.map Frame.cell) : (∀ c, f ≠ .wait c) ∧
      ∀ v s', ¬ Step P s (some (.returned t f.cell v)) s' := by
  have hst := h.perThread t
  rw [hs] at hst
  constructor
  · rintro c rfl
    have himpure : P.thunkIsPure c = false := hst.frames _ List.mem_cons_self
    have hr : s.realizing t = rest.filterMap Frame.running := hst.realizing
    exact hst.waiting c rest rfl (hr ▸ h.running_of_reenters hs hre himpure)
  · intro v s' hstep
    generalize hev : some (Event.returned t f.cell v) = ev at hstep
    obtain ⟨t', _, σ, fs, r, hturn⟩ := hstep
    subst hev
    obtain ⟨rfl, -, g, rest', hg, hcase⟩ := hturn.returned
    obtain ⟨rfl, rfl⟩ := List.cons.inj (hs.symm.trans hg)
    have hok := hst.frames f List.mem_cons_self
    rcases hcase with hv | he | he
    · exact h.not_realized_of_reenters hs hre v hv
    · rw [he] at hok
      exact h.not_finished_of_reenters hs hre (h.slots.unclaimed _ hok.1) fun _ => hok.2
    · rw [he] at hok
      have hrun := h.running_of_reenters hs hre hok.1
      have hholds : f.holds = some f.cell := by
        rw [he]
        rfl
      exact hst.not_held_tail hholds (mem_held_of_running hrun)

omit [DecidableEq T] [DecidableEq C] in
theorem Inv.selfRead {s : State T C V E S} (h : Inv P s) {t : T} {c : C}
    {rest : List (Frame C V E S)} (hs : s.stack t = .look c :: rest)
    (hre : c ∈ rest.map Frame.cell) (hp : P.thunkIsPure c = false) :
    s.slot c = .claimed ∧ c ∈ s.realizing t := by
  have hst := h.perThread t
  rw [hs] at hst
  have hrun : c ∈ rest.filterMap Frame.running :=
    h.running_of_reenters (f := .look c) hs hre hp
  have hr : s.realizing t = rest.filterMap Frame.running := hst.realizing
  exact ⟨(hst.claimed (mem_held_of_running hrun)).2, hr ▸ hrun⟩

theorem Step.of_turn {s : State T C V E S} {ev : Option (Event T C V E)} {t : T}
    {fs fs' : List (Frame C V E S)} {σ : C → Slot V} {r : List C} (hs : s.stack t = fs)
    (h : Turn P t s.slot fs (s.realizing t) ev σ fs' r) :
    Step P s ev ⟨σ, Function.update s.stack t fs', Function.update s.realizing t r⟩ :=
  .turn s t ev σ fs' r (hs ▸ h)

/-- A step that moves the stack of `t` is a turn of `t`. -/
theorem Step.of_moved {s s' : State T C V E S} {ev : Option (Event T C V E)} {t : T}
    (hs : Step P s ev s') (hmoved : s'.stack t ≠ s.stack t) :
    Turn P t s.slot (s.stack t) (s.realizing t) ev s'.slot (s'.stack t) (s'.realizing t) := by
  obtain ⟨t', _, σ, fs, r, hturn⟩ := hs
  by_cases ht : t = t'
  · subst ht
    simpa using hturn
  · exact absurd (Function.update_of_ne ht ..) hmoved

theorem realizeLazy_once {s : State T C V E S} {evs : List (Event T C V E)}
    (h : Reachable P s evs) : RealizedOnce P s evs where
  alone c t t' ht ht' := h.inv.disjoint t t' c (mem_held_of_running ht) (mem_held_of_running ht')
  nodup t := by
    have hn := (h.inv.perThread t).nodup
    have hsub : (running (s.stack t)).Sublist (held (s.stack t)) := by
      unfold running held
      induction s.stack t with
      | nil => exact .slnil
      | cons f fs ih =>
        cases f with
        | run c => exact ih.cons_cons c
        | publish c | unclaim c => exact ih.cons c
        | look | wait | producer | step | publishPure | fail | claim | readValue => exact ih
    exact hsub.nodup hn
  notAgain t t' c s' hs hmem := by
    have hset := h.inv.settled (h.history.completed t' c hmem)
    generalize hev : some (Event.started t c) = ev at hs
    obtain ⟨t₁, _, σ, fs, r, hturn⟩ := hs
    subst hev
    generalize s.stack t₁ = fs₁, s.realizing t₁ = r₁ at hturn
    cases hturn with
    | claim _ _ _ hc => exact hset.1 hc
  returned t t' c v w hv hw := by
    have hv := h.history.returned t c v hv
    exact ⟨Known.unique c v w hv (h.history.returned t' c w hw), hv⟩
  reentered t f rest hs hre := h.inv.reentered hs hre
  selfRead t c rest hs hre hp := by
    obtain ⟨hcl, hr⟩ := h.inv.selfRead hs hre hp
    refine ⟨⟨_, .of_turn hs (.selfRead _ _ _ c hcl hr)⟩, fun ev s' hstep hmoved => ?_⟩
    have hturn := hstep.of_moved hmoved
    rw [hs] at hturn
    generalize s.slot = σ, s.realizing t = r, s'.slot = σ', s'.stack t = fs', s'.realizing t = r'
      at hturn hcl hr
    cases hturn with
    | call _ _ _ hcalls => cases hcalls
    | overflow _ _ _ hcalls => cases hcalls
    | realized _ _ _ _ hv => exact absurd (hcl.symm.trans hv) nofun
    | selfRead => rfl
    | claimed _ _ _ _ hnot => exact absurd hr hnot
    | unrealized _ _ _ hu => exact absurd (hcl.symm.trans hu) nofun
  threw t c e s' hs := by
    generalize hev : some (Event.threw t c e) = ev at hs
    obtain ⟨t', _, σ, fs, r, hturn⟩ := hs
    subst hev
    generalize s.stack t' = fs₁, s.realizing t' = r₁ at hturn
    cases hturn with
    | throw fs => exact ⟨fs, Function.update_self ..⟩
  released t c e rest hs ev s' hstep hmoved := by
    have hst := h.inv.perThread t
    rw [hs] at hst
    have hcl : s.slot c = .claimed := (hst.frames _ List.mem_cons_self).2
    have hturn := hstep.of_moved hmoved
    rw [hs] at hturn
    generalize s.slot = σ, s.realizing t = r, s'.slot = σ', s'.stack t = fs', s'.realizing t = r'
      at hturn hcl
    cases hturn with
    | call _ _ _ hcalls => cases hcalls
    | overflow _ _ _ hcalls => cases hcalls
    | unclaim => exact ⟨rfl, Function.update_self ..⟩
    | unclaimLate _ _ _ _ hnot => exact absurd hcl hnot
  claimable t c rest hc hp hs := by
    have hc' : ¬ (s.slot c).isRealized = true := by simp [hc, Slot.isRealized]
    refine ⟨_, _, _, .of_turn hs (.unrealized _ _ _ c hc),
      .of_turn (Function.update_self ..) (.impure _ _ _ c hc' hp),
      .of_turn (Function.update_self ..) (.claim _ _ _ c hc), Function.update_self ..⟩
  owned c hc := by
    obtain ⟨t, ht⟩ := h.inv.owned c hc
    obtain ⟨f, hf, hfc⟩ := List.mem_filterMap.mp ht
    exact ⟨t, f, hf, hfc⟩

/-- One cell over a thunk of which nothing is known. -/
def oneThunk : Lazies Unit Nat Bool Unit where
  thunkIsPure _ := false
  entry _ := ()
  code _ := .raise false
  stackLimit := 8
  stackOverflow := true
  selfRead := true

/-- A thunk throws in one thread and runs again in another. -/
theorem realizeLazy_once_rerun : ∃ s : State Bool Unit Nat Bool Unit, ∃ evs,
    Reachable oneThunk s (.started true () :: evs) ∧ .threw false () false ∈ evs ∧
      RealizedOnce oneThunk s (.started true () :: evs) := by
  have h₁ := Reachable.start.step (P := oneThunk) (.of_turn (t := false) rfl
    (.call _ _ _ () (.outside ()) (by decide)))
  have h₂ := h₁.step (.of_turn (t := false) rfl (.unrealized _ _ _ _ rfl))
  have h₃ := h₂.step (.of_turn (t := false) rfl (.impure _ _ _ _ nofun rfl))
  have h₄ := h₃.step (.of_turn (t := false) rfl (.claim _ _ _ _ rfl))
  have h₅ := h₄.step (.of_turn (t := false) rfl (.throw _ _ _ _ false))
  have h₆ := h₅.step (.of_turn (t := true) rfl (.call _ _ _ () (.outside ()) (by decide)))
  have h₇ := h₆.step (.of_turn (t := false) rfl (.unclaim _ _ _ _ _ rfl))
  have h₈ := h₇.step (.of_turn (t := true) rfl (.unrealized _ _ _ _ rfl))
  have h₉ := h₈.step (.of_turn (t := true) rfl (.impure _ _ _ _ nofun rfl))
  have h := h₉.step (.of_turn (t := true) rfl (.claim _ _ _ _ rfl))
  exact ⟨_, _, h, by simp, realizeLazy_once h⟩

end Invariants
end ProtoClojure.LazyCell
