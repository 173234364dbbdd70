import ProtoClojure.Runtime.MapFunctions
import Mathlib.Logic.Function.Basic
import Mathlib.Logic.Relation

/-! One atom under any number of threads: each read and each compare-and-set of its value and of
its watches one atomic step, and user code that may come back to the atom. -/
namespace ProtoClojure.Maps.Atoms
open KeyedMap

inductive Op where
  | reset (nv : Value)
  | swap (f : Value) (args : List Value)
  | compareAndSet (expected nv : Value)
  | addWatch (k f : Value)
  | removeWatch (k : Value)

/-- No map is an atom without watches. -/
abbrev WatchMap := Option (HashedMap Value Value)

inductive Pc where
  | loop                                               -- the top of the loop
  | apply (old : Value)                                -- the function of swap! runs
  | store (old neu : Value)
  | storeWatches (old new : WatchMap)
  | fire (old neu : Value)                             -- fireWatches reads the watches next
  | notify (old neu : Value) (watches : List (Value × Value))
  | watch (old neu : Value) (watches : List (Value × Value))   -- a watch runs, these are left
  | returned (v : Value)
  | threw

/-- The arguments of a watch, the atom apart. -/
structure Call where
  watch : Value
  key : Value
  old : Value
  new : Value

/-- A call of an operation, with what it has done so far. -/
structure Activation where
  op : Op
  pc : Pc
  applied : Option (List Value × Value) := none    -- swap!: its function's last call, and answer
  update : Option (Value × Value) := none          -- the value replaced and the value installed
  updatedAt : Nat := 0                             -- the changes of the watches before the update
  readAt : Nat := 0                                -- and before fireWatches read them
  snapshot : List (Value × Value) := []            -- what it read
  calls : List Call := []

/-- The operation's change of the watches. -/
def Op.mapOp : Op → Option MapOp
  | .addWatch k f => some (.assocPairs [some k, some f])
  | .removeWatch k => some (.dissoc (some k))
  | _ => none

/-- What an operation that has installed `neu` answers. -/
def Op.answer (neu : Value) : Op → Value
  | .compareAndSet _ _ => .embedded (.bool true)
  | _ => neu

/-- Extra arguments a call of `swap!` has room for. -/
def maxExtras : Nat := 15

def Op.begin : Op → Activation
  | .swap f args => { op := .swap f args, pc := if args.length > maxExtras then .threw else .loop }
  | op => { op := op, pc := .loop }

/-- User code runs here: it may call operations on the atom. -/
def Pc.userCode : Pc → Bool
  | .apply _ | .watch _ _ _ => true
  | _ => false

def Pc.ended : Pc → Bool
  | .returned _ | .threw => true
  | _ => false

structure State (T : Type) where
  value : Value
  watches : WatchMap
  acts : Nat → Option Activation           -- the calls, by number
  next : Nat
  stack : T → List Nat                     -- innermost first
  updates : List (Nat × Value × Value)     -- the updates of the value, in order
  watchOps : List (Nat × MapOp)            -- the updates of the watches, in order

variable {T : Type}

def State.start (init : Value) : State T := ⟨init, none, fun _ => none, 0, fun _ => [], [], []⟩

/-- A thread outside of every operation, or in user code that one of them runs. -/
def State.MayCall (s : State T) (t : T) : Prop :=
  s.stack t = [] ∨ ∃ i rest a, s.stack t = i :: rest ∧ s.acts i = some a ∧ a.pc.userCode = true

def State.setAct (s : State T) (i : Nat) (a : Activation) : State T :=
  { s with acts := Function.update s.acts i (some a) }

/-- What an activation does without a compare-and-set, before the value and the watches, which
have changed `n` times. -/
inductive Act (P : ProtoCore) (atom : Value) (value : Value) (watches : WatchMap) (n : Nat)
    (a : Activation) : Activation → Prop where
  | readForReset (nv) : a.op = .reset nv → a.pc = .loop →
      Act P atom value watches n a { a with pc := .store value nv }
  | readForSwap (f args) : a.op = .swap f args → a.pc = .loop →
      Act P atom value watches n a { a with pc := .apply value }
  | answered (f args old neu) : a.op = .swap f args → a.pc = .apply old →
      Act P atom value watches n a
        { a with pc := .store old neu, applied := some (old :: args, neu) }
  | raised (old) : a.pc = .apply old → Act P atom value watches n a { a with pc := .threw }
  | expect (expected nv) : a.op = .compareAndSet expected nv → a.pc = .loop →
      Act P atom value watches n a { a with pc := .store expected nv }
  | retry (old neu) : a.pc = .store old neu → value ≠ old →
      (∀ expected nv, a.op ≠ .compareAndSet expected nv) →
      Act P atom value watches n a { a with pc := .loop }
  | refused (old neu expected nv) : a.op = .compareAndSet expected nv → a.pc = .store old neu →
      value ≠ old →
      Act P atom value watches n a { a with pc := .returned (.embedded (.bool false)) }
  -- add-watch and remove-watch
  | readForAdd (k f new) : a.op = .addWatch k f → a.pc = .loop →
      mapAssocPairs P watches [some k, some f] = .ok new →
      Act P atom value watches n a { a with pc := .storeWatches watches (some new) }
  | nothingToRemove (k) : a.op = .removeWatch k → a.pc = .loop →
      (watches = none ∨ mapDissoc P watches (some k) = watches) →
      Act P atom value watches n a { a with pc := .returned atom }
  | readForRemove (k) : a.op = .removeWatch k → a.pc = .loop → watches ≠ none →
      mapDissoc P watches (some k) ≠ watches →
      Act P atom value watches n a
        { a with pc := .storeWatches watches (mapDissoc P watches (some k)) }
  | retryWatches (old new) : a.pc = .storeWatches old new → watches ≠ old →
      Act P atom value watches n a { a with pc := .loop }
  -- fireWatches
  | readWatches (old neu) : a.pc = .fire old neu →
      Act P atom value watches n a { a with
        pc := .notify old neu (visited watches), readAt := n, snapshot := visited watches }
  | call (old neu k f rest) : a.pc = .notify old neu ((k, f) :: rest) →
      Act P atom value watches n a { a with
        pc := .watch old neu rest, calls := a.calls ++ [⟨f, k, old, neu⟩] }
  | called (old neu rest) : a.pc = .watch old neu rest →     -- what it raises is swallowed
      Act P atom value watches n a { a with pc := .notify old neu rest }
  | fired (old neu) : a.pc = .notify old neu [] →
      Act P atom value watches n a { a with pc := .returned (a.op.answer neu) }

section Steps
variable [DecidableEq T] (P : ProtoCore) (atom : Value)

inductive Step : State T → State T → Prop where
  | begin (s t) (op : Op) : s.MayCall t →
      Step s { s.setAct s.next op.begin with
        next := s.next + 1, stack := Function.update s.stack t (s.next :: s.stack t) }
  | act (s t i rest a a') : s.stack t = i :: rest → s.acts i = some a →
      Act P atom s.value s.watches s.watchOps.length a a' → Step s (s.setAct i a')
  -- setAttributeIfEqual
  | store (s t i rest a old neu) : s.stack t = i :: rest → s.acts i = some a →
      a.pc = .store old neu → s.value = old →
      Step s { s.setAct i { a with
          pc := .fire old neu, update := some (old, neu), updatedAt := s.watchOps.length } with
        value := neu, updates := s.updates ++ [(i, old, neu)] }
  | storeWatches (s t i rest a old new m) : s.stack t = i :: rest → s.acts i = some a →
      a.pc = .storeWatches old new → s.watches = old → a.op.mapOp = some m →
      Step s { s.setAct i { a with pc := .returned atom } with
        watches := new, watchOps := s.watchOps ++ [(i, m)] }
  | leave (s t i rest a) : s.stack t = i :: rest → s.acts i = some a → a.pc.ended = true →
      Step s { s with stack := Function.update s.stack t rest }

def Reachable (init : Value) (s : State T) : Prop :=
  Relation.ReflTransGen (Step P atom) (State.start init) s

end Steps

/-! ### What an activation has done -/

/-- The value installed is what the operation asks for. -/
def Activation.Stores (a : Activation) (old neu : Value) : Prop :=
  match a.op with
  | .reset nv => neu = nv
  | .swap _ args => a.applied = some (old :: args, neu)
  | .compareAndSet expected nv => old = expected ∧ neu = nv
  | .addWatch _ _ | .removeWatch _ => False

/-- One call of each watch read, with the pair of the update. -/
def callsOf (old neu : Value) (watches : List (Value × Value)) : List Call :=
  watches.map fun e => ⟨e.2, e.1, old, neu⟩

/-- The watches as they were after `n` changes. -/
def WatchesAt (P : ProtoCore) (ops : List MapOp) (n : Nat) (m : WatchMap) : Prop :=
  (ops.take n).foldlM (MapOp.run P) none = .ok m

/-- The watches were read at some moment after the update. -/
def Activation.ReadsWatches (P : ProtoCore) (ops : List MapOp) (a : Activation) : Prop :=
  a.updatedAt ≤ a.readAt ∧ a.readAt ≤ ops.length ∧
    ∃ m, WatchesAt P ops a.readAt m ∧ a.snapshot = visited m

/-- What an activation has done by the time it is at its program counter. -/
def Activation.Ok (P : ProtoCore) (ops : List MapOp) (a : Activation) : Prop :=
  match a.pc with
  | .loop | .apply _ | .threw => a.update = none ∧ a.calls = []
  | .store old neu => a.update = none ∧ a.calls = [] ∧ a.Stores old neu
  | .storeWatches old new => a.update = none ∧ a.calls = [] ∧
      ∃ m, a.op.mapOp = some m ∧ m.run P old = .ok new
  | .fire old neu => a.update = some (old, neu) ∧ a.calls = [] ∧ a.Stores old neu ∧
      a.updatedAt ≤ ops.length
  | .notify old neu rest | .watch old neu rest => a.update = some (old, neu) ∧
      a.Stores old neu ∧ a.ReadsWatches P ops ∧
      a.calls ++ callsOf old neu rest = callsOf old neu a.snapshot
  | .returned v =>
      (∃ old neu, a.update = some (old, neu) ∧ a.Stores old neu ∧ a.ReadsWatches P ops ∧
        a.calls = callsOf old neu a.snapshot ∧ v = a.op.answer neu) ∨
      a.update = none ∧ a.calls = [] ∧
        ((∃ expected nv, a.op = .compareAndSet expected nv ∧ v = .embedded (.bool false)) ∨
          a.op.mapOp.isSome = true)

/-- Each pair takes up the value the one before it left. -/
inductive Chain : Value → List (Value × Value) → Value → Prop where
  | start (v) : Chain v [] v
  | step {v us old} (neu) : Chain v us old → Chain v (us ++ [(old, neu)]) neu

/-! ### One activation -/

section Activations
variable {P : ProtoCore} {atom value : Value} {watches : WatchMap} {ops : List MapOp}
  {a a' : Activation}

theorem callsOf_cons (old neu k f : Value) (rest : List (Value × Value)) :
    callsOf old neu ((k, f) :: rest) = ⟨f, k, old, neu⟩ :: callsOf old neu rest := rfl

theorem Act.op (h : Act P atom value watches ops.length a a') : a'.op = a.op := by
  cases h <;> rfl

theorem Act.update (h : Act P atom value watches ops.length a a') : a'.update = a.update := by
  cases h <;> rfl

/-- An operation that has ended does nothing more. -/
theorem Act.not_ended (h : Act P atom value watches ops.length a a') : a.pc.ended = false := by
  cases h with
  | readForReset _ _ hpc | readForSwap _ _ _ hpc | answered _ _ _ _ _ hpc | raised _ hpc
  | expect _ _ _ hpc | retry _ _ hpc | refused _ _ _ _ _ hpc | readForAdd _ _ _ _ hpc
  | nothingToRemove _ _ hpc | readForRemove _ _ hpc | retryWatches _ _ hpc | readWatches _ _ hpc
  | call _ _ _ _ _ hpc | called _ _ _ hpc | fired _ _ hpc => rw [hpc]; rfl

theorem Act.ok (h : Act P atom value watches ops.length a a')
    (hw : WatchesAt P ops ops.length watches) (hok : a.Ok P ops) : a'.Ok P ops := by
  cases h with
  | readForReset nv hop hpc =>
    rw [Activation.Ok, hpc] at hok
    exact ⟨hok.1, hok.2, by rw [Activation.Stores, hop]⟩
  | readForSwap f args hop hpc =>
    rw [Activation.Ok, hpc] at hok
    exact hok
  | answered f args old neu hop hpc =>
    rw [Activation.Ok, hpc] at hok
    exact ⟨hok.1, hok.2, by rw [Activation.Stores, hop]⟩
  | raised old hpc =>
    rw [Activation.Ok, hpc] at hok
    exact hok
  | expect expected nv hop hpc =>
    rw [Activation.Ok, hpc] at hok
    refine ⟨hok.1, hok.2, ?_⟩
    rw [Activation.Stores, hop]
    exact ⟨rfl, rfl⟩
  | retry old neu hpc =>
    rw [Activation.Ok, hpc] at hok
    exact ⟨hok.1, hok.2.1⟩
  | refused old neu expected nv hop hpc =>
    rw [Activation.Ok, hpc] at hok
    exact .inr ⟨hok.1, hok.2.1, .inl ⟨expected, nv, hop, rfl⟩⟩
  | readForAdd k f new hop hpc hnew =>
    rw [Activation.Ok, hpc] at hok
    refine ⟨hok.1, hok.2, .assocPairs [some k, some f], by rw [hop]; rfl, ?_⟩
    rw [MapOp.run, hnew]
    rfl
  | nothingToRemove k hop hpc =>
    rw [Activation.Ok, hpc] at hok
    exact .inr ⟨hok.1, hok.2, .inr (by rw [hop]; rfl)⟩
  | readForRemove k hop hpc =>
    rw [Activation.Ok, hpc] at hok
    exact ⟨hok.1, hok.2, .dissoc (some k), by rw [hop]; rfl, rfl⟩
  | retryWatches old new hpc =>
    rw [Activation.Ok, hpc] at hok
    exact ⟨hok.1, hok.2.1⟩
  | readWatches old neu hpc =>
    rw [Activation.Ok, hpc] at hok
    obtain ⟨hupdate, hcalls, hstores, hle⟩ := hok
    refine ⟨hupdate, hstores, ⟨hle, le_rfl, watches, hw, rfl⟩, ?_⟩
    rw [hcalls]
    rfl
  | call old neu k f rest hpc =>
    rw [Activation.Ok, hpc] at hok
    obtain ⟨hupdate, hstores, hreads, hcalls⟩ := hok
    refine ⟨hupdate, hstores, hreads, ?_⟩
    rw [← hcalls, callsOf_cons]
    simp
  | called old neu rest hpc =>
    rw [Activation.Ok, hpc] at hok
    exact hok
  | fired old neu hpc =>
    rw [Activation.Ok, hpc] at hok
    obtain ⟨hupdate, hstores, hreads, hcalls⟩ := hok
    rw [callsOf, List.map_nil, List.append_nil] at hcalls
    exact .inl ⟨old, neu, hupdate, hstores, hreads, hcalls, rfl⟩

theorem WatchesAt.append {n : Nat} {m : WatchMap} (h : WatchesAt P ops n m) (hn : n ≤ ops.length)
    (op : MapOp) : WatchesAt P (ops ++ [op]) n m := by
  rw [WatchesAt, List.take_append_of_le_length hn]
  exact h

theorem Activation.ReadsWatches.append (h : a.ReadsWatches P ops) (op : MapOp) :
    a.ReadsWatches P (ops ++ [op]) := by
  obtain ⟨hle, hlen, m, hm, hsnapshot⟩ := h
  refine ⟨hle, ?_, m, hm.append hlen op, hsnapshot⟩
  rw [List.length_append]
  omega

/-- An update is always what the operation asks for. -/
theorem Activation.Ok.stores (h : a.Ok P ops) {old neu : Value}
    (hupdate : a.update = some (old, neu)) : a.Stores old neu := by
  have hpair {old' neu' : Value} (h' : a.update = some (old', neu')) (hs : a.Stores old' neu') :
      a.Stores old neu := by
    obtain ⟨rfl, rfl⟩ := Prod.mk.inj (Option.some.inj (hupdate.symm.trans h'))
    exact hs
  cases hpc : a.pc with
  | loop | apply | threw | store | storeWatches =>
    rw [Activation.Ok, hpc] at h
    rw [h.1] at hupdate
    cases hupdate
  | fire old' neu' =>
    rw [Activation.Ok, hpc] at h
    exact hpair h.1 h.2.2.1
  | notify old' neu' rest | watch old' neu' rest =>
    rw [Activation.Ok, hpc] at h
    exact hpair h.1 h.2.1
  | returned v =>
    rw [Activation.Ok, hpc] at h
    rcases h with ⟨old', neu', hupdate', hstores, -⟩ | ⟨hnone, -⟩
    · exact hpair hupdate' hstores
    · rw [hnone] at hupdate
      cases hupdate

theorem Activation.Ok.notifying (h : a.Ok P ops) : a.calls = [] ∨
    ∃ old neu rest, a.update = some (old, neu) ∧
      a.calls ++ callsOf old neu rest = callsOf old neu a.snapshot := by
  cases hpc : a.pc with
  | loop | apply | threw =>
    rw [Activation.Ok, hpc] at h
    exact .inl h.2
  | store | storeWatches | fire =>
    rw [Activation.Ok, hpc] at h
    exact .inl h.2.1
  | notify old neu rest | watch old neu rest =>
    rw [Activation.Ok, hpc] at h
    exact .inr ⟨old, neu, rest, h.1, h.2.2.2⟩
  | returned v =>
    rw [Activation.Ok, hpc] at h
    rcases h with ⟨old, neu, hupdate, -, -, hcalls, -⟩ | ⟨-, hcalls, -⟩
    · exact .inr ⟨old, neu, [], hupdate, hcalls ▸ List.append_nil _⟩
    · exact .inl hcalls

/-- Later changes of the watches say nothing of what was read. -/
theorem Activation.Ok.append (h : a.Ok P ops) (op : MapOp) : a.Ok P (ops ++ [op]) := by
  cases hpc : a.pc with
  | loop | apply | threw | store | storeWatches =>
    rw [Activation.Ok, hpc] at h ⊢
    exact h
  | fire old neu =>
    rw [Activation.Ok, hpc] at h ⊢
    refine ⟨h.1, h.2.1, h.2.2.1, ?_⟩
    rw [List.length_append]
    exact Nat.le_add_right_of_le h.2.2.2
  | notify old neu rest | watch old neu rest =>
    rw [Activation.Ok, hpc] at h ⊢
    exact ⟨h.1, h.2.1, h.2.2.1.append op, h.2.2.2⟩
  | returned v =>
    rw [Activation.Ok, hpc] at h ⊢
    rcases h with ⟨old, neu, hupdate, hstores, hreads, hcalls⟩ | h
    · exact .inl ⟨old, neu, hupdate, hstores, hreads.append op, hcalls⟩
    · exact .inr h

theorem Op.begin_ok (op : Op) : op.begin.Ok P ops := by
  cases op with
  | swap f args =>
    unfold Op.begin Activation.Ok
    dsimp only
    by_cases h : args.length > maxExtras
    · rw [if_pos h]
      exact ⟨rfl, rfl⟩
    · rw [if_neg h]
      exact ⟨rfl, rfl⟩
  | _ => exact ⟨rfl, rfl⟩

end Activations

/-! ### Every activation together -/

section Invariant
variable [DecidableEq T] {P : ProtoCore} {atom init : Value} {s s' : State T}

/-- The changes of the watches, in order. -/
def State.ops (s : State T) : List MapOp := s.watchOps.map Prod.snd

structure Inv (P : ProtoCore) (init : Value) (s : State T) : Prop where
  chain : Chain init (s.updates.map Prod.snd) s.value
  once : (s.updates.map Prod.fst).Nodup
  update (i : Nat) (p : Value × Value) : (i, p) ∈ s.updates ↔
    ∃ a, s.acts i = some a ∧ a.update = some p
  fresh (i : Nat) : s.next ≤ i → s.acts i = none
  ok (i : Nat) (a : Activation) : s.acts i = some a → a.Ok P s.ops
  watches : WatchesAt P s.ops s.ops.length s.watches
  watchOnce : (s.watchOps.map Prod.fst).Nodup
  watchOp (i : Nat) (m : MapOp) : (i, m) ∈ s.watchOps →
    ∃ a v, s.acts i = some a ∧ a.op.mapOp = some m ∧ a.pc = .returned v
  added (i : Nat) (a : Activation) (k f v : Value) : s.acts i = some a → a.op = .addWatch k f →
    a.pc = .returned v → (i, .assocPairs [some k, some f]) ∈ s.watchOps

omit [DecidableEq T] in
theorem Inv.start (init : Value) : Inv P init (State.start init : State T) where
  chain := .start init
  once := List.nodup_nil
  update i p := by simp [State.start]
  fresh _ _ := rfl
  ok i a h := by cases h
  watches := rfl
  watchOnce := List.nodup_nil
  watchOp i m h := by cases h
  added i a k f v h := by cases h

omit [DecidableEq T] in
theorem setAct_self (i : Nat) (a : Activation) : (s.setAct i a).acts i = some a :=
  Function.update_self ..

omit [DecidableEq T] in
theorem setAct_other {i j : Nat} (a : Activation) (h : j ≠ i) :
    (s.setAct i a).acts j = s.acts j :=
  Function.update_of_ne h ..

omit [DecidableEq T] in
/-- An activation begins, or goes on without a compare-and-set. -/
theorem Inv.setAct (h : Inv P init s) {i n : Nat} {a : Activation} (stack : T → List Nat)
    (hok : a.Ok P s.ops) (hn : s.next ≤ n) (hi : i < n)
    (hupdate : ∀ p, (i, p) ∈ s.updates ↔ a.update = some p)
    (hwatch : ∀ m, (i, m) ∉ s.watchOps)
    (hadded : ∀ k f v, a.op = .addWatch k f → a.pc ≠ .returned v) :
    Inv P init { s.setAct i a with next := n, stack := stack } where
  chain := h.chain
  once := h.once
  update j p := by
    show _ ↔ ∃ b, (s.setAct i a).acts j = some b ∧ b.update = some p
    by_cases hj : j = i
    · subst hj
      rw [setAct_self]
      exact (hupdate p).trans ⟨fun hp => ⟨a, rfl, hp⟩, fun ⟨_, ha, hp⟩ => Option.some.inj ha ▸ hp⟩
    · rw [setAct_other a hj]
      exact h.update j p
  fresh j hj := by
    refine (setAct_other a ?_).trans (h.fresh j (hn.trans hj))
    rintro rfl
    exact absurd hj (Nat.not_le.mpr hi)
  ok j b hb := by
    by_cases hj : j = i
    · subst hj
      obtain rfl := Option.some.inj ((setAct_self j a).symm.trans hb)
      exact hok
    · exact h.ok j b ((setAct_other a hj).symm.trans hb)
  watches := h.watches
  watchOnce := h.watchOnce
  watchOp j m hm := by
    obtain ⟨b, v, hb, hop⟩ := h.watchOp j m hm
    refine ⟨b, v, (setAct_other a ?_).trans hb, hop⟩
    rintro rfl
    exact hwatch m hm
  added j b k f v hb hop hpc := by
    by_cases hj : j = i
    · subst hj
      obtain rfl := Option.some.inj ((setAct_self j a).symm.trans hb)
      exact absurd hpc (hadded k f v hop)
    · exact h.added j b k f v ((setAct_other a hj).symm.trans hb) hop hpc

omit [DecidableEq T] in
theorem Inv.lt_next (h : Inv P init s) {i : Nat} {a : Activation} (ha : s.acts i = some a) :
    i < s.next := by
  by_contra hle
  rw [h.fresh i (Nat.le_of_not_lt hle)] at ha
  cases ha

omit [DecidableEq T] in
theorem Inv.not_updated (h : Inv P init s) {i : Nat} {a : Activation} (ha : s.acts i = some a)
    (hnone : a.update = none) (p : Value × Value) : (i, p) ∉ s.updates := by
  intro hp
  obtain ⟨b, hb, hbp⟩ := (h.update i p).mp hp
  obtain rfl := Option.some.inj (ha.symm.trans hb)
  rw [hnone] at hbp
  cases hbp

omit [DecidableEq T] in
/-- An operation changes the watches last. -/
theorem Inv.no_watchOp (h : Inv P init s) {i : Nat} {a : Activation} (ha : s.acts i = some a)
    (hpc : ∀ v, a.pc ≠ .returned v) (m : MapOp) : (i, m) ∉ s.watchOps := by
  intro hm
  obtain ⟨b, v, hb, -, hv⟩ := h.watchOp i m hm
  obtain rfl := Option.some.inj (ha.symm.trans hb)
  exact hpc v hv

omit [DecidableEq T] in
theorem Inv.fresh_setAct (h : Inv P init s) {i j : Nat} {a : Activation} (ha : s.acts i = some a)
    (hj : s.next ≤ j) (b : Activation) : (s.setAct i b).acts j = none := by
  refine (setAct_other _ ?_).trans (h.fresh j hj)
  rintro rfl
  exact absurd (h.lt_next ha) (Nat.not_lt.mpr hj)

/-- The watches only change by a compare-and-set. -/
theorem Act.not_added {value : Value} {watches : WatchMap} {ops : List MapOp} {a a' : Activation}
    (h : Act P atom value watches ops.length a a') (hok : a.Ok P ops) {k f v : Value}
    (hop : a.op = .addWatch k f) : a'.pc ≠ .returned v := by
  cases h with
  | refused _ _ _ _ hcas =>
    rw [hop] at hcas
    cases hcas
  | nothingToRemove _ hremove =>
    rw [hop] at hremove
    cases hremove
  | fired old neu hpc =>
    rw [Activation.Ok, hpc] at hok
    have hstores := hok.2.1
    rw [Activation.Stores, hop] at hstores
    exact hstores.elim
  | _ => nofun

omit [DecidableEq T] in
theorem Inv.act (h : Inv P init s) {i : Nat} {a a' : Activation} (ha : s.acts i = some a)
    (hact : Act P atom s.value s.watches s.watchOps.length a a') : Inv P init (s.setAct i a') := by
  have hlength : s.watchOps.length = s.ops.length := (List.length_map ..).symm
  rw [hlength] at hact
  refine h.setAct s.stack (hact.ok h.watches (h.ok i a ha)) le_rfl (h.lt_next ha) (fun p => ?_)
    (fun m hm => ?_) fun k f v hop => hact.not_added (h.ok i a ha) (hact.op ▸ hop)
  · rw [h.update i p, ha, hact.update]
    exact ⟨fun ⟨_, hb, hp⟩ => Option.some.inj hb ▸ hp, fun hp => ⟨a, rfl, hp⟩⟩
  · refine absurd hm (h.no_watchOp ha (fun v hv => ?_) m)
    have hended := hact.not_ended
    rw [hv] at hended
    cases hended

omit [DecidableEq T] in
theorem Inv.begin (h : Inv P init s) (op : Op) (stack : T → List Nat) :
    Inv P init { s.setAct s.next op.begin with next := s.next + 1, stack := stack } := by
  have hnone := h.fresh s.next le_rfl
  refine h.setAct stack op.begin_ok (Nat.le_succ _) (Nat.lt_succ_self _) (fun p => ?_)
    (fun m hm => ?_) fun k f v hop hpc => ?_
  · rw [h.update s.next p, hnone]
    have hbegin : op.begin.update = none := by cases op <;> rfl
    rw [hbegin]
    exact iff_of_false (fun ⟨_, hb, _⟩ => nomatch hb) nofun
  · obtain ⟨b, v, hb, -⟩ := h.watchOp s.next m hm
    rw [hnone] at hb
    cases hb
  · cases op with
    | swap => cases hop
    | _ => cases hpc

omit [DecidableEq T] in
/-- The compare-and-set of the value. -/
theorem Inv.store (h : Inv P init s) {i : Nat} {a : Activation} {old neu : Value}
    (ha : s.acts i = some a) (hpc : a.pc = .store old neu) (hvalue : s.value = old) :
    Inv P init { s.setAct i { a with
        pc := .fire old neu, update := some (old, neu), updatedAt := s.watchOps.length } with
      value := neu, updates := s.updates ++ [(i, old, neu)] } := by
  have hok := h.ok i a ha
  rw [Activation.Ok, hpc] at hok
  obtain ⟨hnone, hcalls, hstores⟩ := hok
  have hnew := h.not_updated ha hnone
  have hwatch := h.no_watchOp ha (by simp [hpc])
  constructor
  case chain =>
    rw [List.map_append]
    exact .step neu (hvalue ▸ h.chain)
  case once =>
    rw [List.map_append]
    refine List.nodup_append.mpr ⟨h.once, List.nodup_singleton i, fun j hj k hk => ?_⟩
    obtain rfl := List.mem_singleton.mp hk
    rintro rfl
    obtain ⟨⟨_, p⟩, hp, rfl⟩ := List.mem_map.mp hj
    exact hnew p hp
  case update =>
    intro j p
    show (j, p) ∈ s.updates ++ [(i, old, neu)] ↔
      ∃ b, (s.setAct i _).acts j = some b ∧ b.update = some p
    rw [List.mem_append, List.mem_singleton, Prod.mk.injEq]
    by_cases hj : j = i
    · subst hj
      rw [setAct_self]
      refine ⟨?_, ?_⟩
      · rintro (hp | ⟨-, rfl⟩)
        · exact absurd hp (hnew p)
        · exact ⟨_, rfl, rfl⟩
      · rintro ⟨b, hb, hp⟩
        obtain rfl := Option.some.inj hb
        exact .inr ⟨rfl, (Option.some.inj hp).symm⟩
    · rw [setAct_other _ hj, ← h.update j p]
      exact or_iff_left fun hp => hj hp.1
  case fresh => exact fun j hj => h.fresh_setAct ha hj _
  case ok =>
    intro j b hb
    by_cases hj : j = i
    · subst hj
      obtain rfl := Option.some.inj ((setAct_self j _).symm.trans hb)
      refine ⟨rfl, hcalls, hstores, ?_⟩
      exact (List.length_map ..).ge
    · exact h.ok j b ((setAct_other _ hj).symm.trans hb)
  case watches => exact h.watches
  case watchOnce => exact h.watchOnce
  case watchOp =>
    intro j m hm
    obtain ⟨b, v, hb, hop⟩ := h.watchOp j m hm
    refine ⟨b, v, (setAct_other _ ?_).trans hb, hop⟩
    rintro rfl
    exact hwatch m hm
  case added =>
    intro j b k f v hb hop hret
    by_cases hj : j = i
    · subst hj
      obtain rfl := Option.some.inj ((setAct_self j _).symm.trans hb)
      cases hret
    · exact h.added j b k f v ((setAct_other _ hj).symm.trans hb) hop hret

omit [DecidableEq T] in
theorem State.ops_append (i : Nat) (m : MapOp) (s : State T) :
    (s.watchOps ++ [(i, m)]).map Prod.snd = s.ops ++ [m] := List.map_append

omit [DecidableEq T] in
/-- The compare-and-set of the watches. -/
theorem Inv.storeWatches (h : Inv P init s) {i : Nat} {a : Activation} {old new : WatchMap}
    {m : MapOp} (ha : s.acts i = some a) (hpc : a.pc = .storeWatches old new)
    (hcurrent : s.watches = old) (hm : a.op.mapOp = some m) :
    Inv P init { s.setAct i { a with pc := .returned atom } with
      watches := new, watchOps := s.watchOps ++ [(i, m)] } := by
  have hok := h.ok i a ha
  rw [Activation.Ok, hpc] at hok
  obtain ⟨hnone, hcalls, m', hm', hrun⟩ := hok
  obtain rfl := Option.some.inj (hm.symm.trans hm')
  have hwatch := h.no_watchOp ha (by simp [hpc])
  constructor
  case chain => exact h.chain
  case once => exact h.once
  case update =>
    intro j p
    show (j, p) ∈ s.updates ↔ ∃ b, (s.setAct i _).acts j = some b ∧ b.update = some p
    rw [h.update j p]
    by_cases hj : j = i
    · subst hj
      rw [setAct_self, ha]
      simp
    · rw [setAct_other _ hj]
  case fresh => exact fun j hj => h.fresh_setAct ha hj _
  case ok =>
    intro j b hb
    show b.Ok P ((s.watchOps ++ [(i, m)]).map Prod.snd)
    rw [s.ops_append]
    by_cases hj : j = i
    · subst hj
      obtain rfl := Option.some.inj ((setAct_self j _).symm.trans hb)
      exact .inr ⟨hnone, hcalls, .inr (Option.isSome_of_mem hm)⟩
    · exact (h.ok j b ((setAct_other _ hj).symm.trans hb)).append m
  case watches =>
    show WatchesAt P ((s.watchOps ++ [(i, m)]).map Prod.snd)
      ((s.watchOps ++ [(i, m)]).map Prod.snd).length new
    have hw := h.watches
    rw [WatchesAt, List.take_length] at hw
    rw [s.ops_append, WatchesAt, List.take_length, List.foldlM_append, hw, hcurrent]
    show ([m].foldlM (MapOp.run P) old : Except String WatchMap) = .ok new
    rw [List.foldlM_cons, hrun]
    rfl
  case watchOnce =>
    show ((s.watchOps ++ [(i, m)]).map Prod.fst).Nodup
    rw [List.map_append]
    refine List.nodup_append.mpr ⟨h.watchOnce, List.nodup_singleton i, fun j hj k hk => ?_⟩
    obtain rfl := List.mem_singleton.mp hk
    rintro rfl
    obtain ⟨⟨_, m'⟩, hm', rfl⟩ := List.mem_map.mp hj
    exact hwatch m' hm'
  case watchOp =>
    intro j m' hj
    rcases List.mem_append.mp hj with hold | hj
    · obtain ⟨b, v, hb, hop⟩ := h.watchOp j m' hold
      refine ⟨b, v, (setAct_other _ ?_).trans hb, hop⟩
      rintro rfl
      exact hwatch m' hold
    · obtain ⟨rfl, rfl⟩ := Prod.mk.inj (List.mem_singleton.mp hj)
      exact ⟨_, _, setAct_self .., hm, rfl⟩
  case added =>
    intro j b k f v hb hop hret
    by_cases hj : j = i
    · subst hj
      obtain rfl := Option.some.inj ((setAct_self j _).symm.trans hb)
      have hadd : a.op.mapOp = some (.assocPairs [some k, some f]) := congrArg Op.mapOp hop
      obtain rfl := Option.some.inj (hm.symm.trans hadd)
      exact List.mem_append_right _ (List.mem_singleton.mpr rfl)
    · exact List.mem_append_left _ (h.added j b k f v ((setAct_other _ hj).symm.trans hb) hop hret)

theorem Inv.step (h : Inv P init s) (hs : Step P atom s s') : Inv P init s' := by
  cases hs with
  | begin t op => exact h.begin op _
  | act t i rest a a' _ ha hact => exact h.act ha hact
  | store t i rest a old neu _ ha hpc hvalue => exact h.store ha hpc hvalue
  | storeWatches t i rest a old new m _ ha hpc hold hm => exact h.storeWatches ha hpc hold hm
  | leave t i rest a =>
    exact ⟨h.chain, h.once, h.update, h.fresh, h.ok, h.watches, h.watchOnce, h.watchOp, h.added⟩

theorem Reachable.inv (h : Reachable P atom init s) : Inv P init s := by
  induction h with
  | refl => exact .start init
  | tail _ hs ih => exact ih.step hs

end Invariant

/-! ### The watches as a map -/

section Watches
variable {P : ProtoCore}

def keyOf : MapOp → Value
  | .assocPairs (k :: _) => orNil k
  | .assocPairs [] => .nil
  | .dissoc k => orNil k

/-- A change for another key leaves a key alone. -/
theorem apply_other {op : Op} {m : MapOp} (hm : op.mapOp = some m) {k : Value}
    (hk : keyEquals P (keyOf m) k = false) (g : Mapping) : g.apply P m k = g k := by
  cases op with
  | addWatch k' f' =>
    obtain rfl := Option.some.inj hm
    show (if keyEquals P k' k then _ else g k) = g k
    exact if_neg (Bool.eq_false_iff.mp hk)
  | removeWatch k' =>
    obtain rfl := Option.some.inj hm
    show (if keyEquals P k' k then none else g k) = g k
    exact if_neg (Bool.eq_false_iff.mp hk)
  | _ => cases hm

theorem foldl_apply_other {ms : List MapOp} {k : Value}
    (hms : ∀ m ∈ ms, (∃ op : Op, op.mapOp = some m) ∧ keyEquals P (keyOf m) k = false)
    (g : Mapping) : ms.foldl (Mapping.apply P) g k = g k := by
  induction ms generalizing g with
  | nil => rfl
  | cons m ms ih =>
    obtain ⟨⟨⟨op, hop⟩, hk⟩, hms⟩ := List.forall_mem_cons.mp hms
    rw [List.foldl_cons, ih hms, apply_other hop hk]

theorem apply_added {k f : Value} (hk : keyEquals P k k = true) (g : Mapping) :
    (g.apply P (.assocPairs [some k, some f]) k).map Prod.snd = some f := by
  show ((if keyEquals P k k then some (((g k).map Prod.fst).getD k, f) else g k).map Prod.snd) = _
  rw [if_pos hk]
  rfl

end Watches

/-! ### Linearizability -/

/-- What an atom promises, in any state that its operations reach. -/
structure Linearizable {T : Type} (P : ProtoCore) (init : Value) (s : State T) : Prop where
  /-- every update replaces what the one before it installed -/
  chain : Chain init (s.updates.map Prod.snd) s.value
  once : (s.updates.map Prod.fst).Nodup
  /-- what a `swap!` installs its function answered for the value replaced; a compare-and-set
  replaces the expected object -/
  update : ∀ i old neu, (i, old, neu) ∈ s.updates →
    ∃ a, s.acts i = some a ∧ a.update = some (old, neu) ∧ a.Stores old neu
  /-- no update is lost, and none is reported that was not made -/
  answered : ∀ i a v, s.acts i = some a → a.op.mapOp = none → a.pc = .returned v →
    (∃ old neu, (i, old, neu) ∈ s.updates ∧ v = a.op.answer neu) ∨
    (∃ expected nv, a.op = .compareAndSet expected nv ∧ v = .embedded (.bool false) ∧
      ∀ p, (i, p) ∉ s.updates)
  /-- a function that raises changes nothing -/
  raised : ∀ i a, s.acts i = some a → a.pc = .threw →
    (∀ p, (i, p) ∉ s.updates) ∧ ∀ m, (i, m) ∉ s.watchOps
  /-- the watches are what the additions and removals, each made once, make of none -/
  watches : Behaves P s.watches (s.ops.foldl (Mapping.apply P) fun _ => none)
  changes : (s.watchOps.map Prod.fst).Nodup ∧
    ∀ i a k f v, s.acts i = some a → a.op = .addWatch k f → a.pc = .returned v →
      (i, .assocPairs [some k, some f]) ∈ s.watchOps
  /-- an added watch stays until a change for its own key -/
  kept : ∀ i k f before later,
    s.watchOps = before ++ (i, .assocPairs [some k, some f]) :: later →
    (∀ e ∈ later, keyEquals P (keyOf e.2) k = false) → mapGet P s.watches (some k) = some f
  /-- what an update notifies are the watches at one moment after it, each once, with its pair -/
  notified : ∀ i a old neu v, s.acts i = some a → a.update = some (old, neu) →
    a.pc = .returned v → a.updatedAt ≤ a.readAt ∧ a.readAt ≤ s.watchOps.length ∧
      ∃ m, Behaves P m ((s.ops.take a.readAt).foldl (Mapping.apply P) fun _ => none) ∧
        a.calls = callsOf old neu (visited m)
  /-- none of them more than once at any time, and none without an update -/
  notifying : ∀ i a, s.acts i = some a → a.calls = [] ∨
    ∃ old neu rest, a.update = some (old, neu) ∧
      a.calls ++ callsOf old neu rest = callsOf old neu a.snapshot

section Results
variable [DecidableEq T] {P : ProtoCore} {atom init : Value} {s : State T}

theorem WatchesAt.denotes (hP : P.Lawful) {ops : List MapOp} (hkeys : ∀ m ∈ ops, m.WellFormed P)
    {n : Nat} {m : WatchMap} (h : WatchesAt P ops n m) :
    Denotes P m ((ops.take n).foldl (Mapping.apply P) fun _ => none) :=
  Denotes.null.runAll hP (fun op hop => hkeys op (List.mem_of_mem_take hop)) h

omit [DecidableEq T] in
theorem State.ops_wellFormed (hkeys : ∀ e ∈ s.watchOps, e.2.WellFormed P) :
    ∀ m ∈ s.ops, m.WellFormed P := by
  intro m hm
  obtain ⟨e, he, rfl⟩ := List.mem_map.mp hm
  exact hkeys e he

omit [DecidableEq T] in
theorem Inv.denotes (h : Inv P init s) (hP : P.Lawful)
    (hkeys : ∀ e ∈ s.watchOps, e.2.WellFormed P) :
    Denotes P s.watches (s.ops.foldl (Mapping.apply P) fun _ => none) := by
  have hd := h.watches.denotes hP (State.ops_wellFormed hkeys)
  rwa [List.take_length] at hd

omit [DecidableEq T] in
theorem Inv.kept (h : Inv P init s) (hP : P.Lawful)
    (hkeys : ∀ e ∈ s.watchOps, e.2.WellFormed P) {i : Nat} {k f : Value}
    {before later : List (Nat × MapOp)}
    (hops : s.watchOps = before ++ (i, .assocPairs [some k, some f]) :: later)
    (hlater : ∀ e ∈ later, keyEquals P (keyOf e.2) k = false) :
    mapGet P s.watches (some k) = some f := by
  have hk : WellFormed P k := by
    have hadded := hkeys (i, .assocPairs [some k, some f]) (by rw [hops]; simp)
    exact hadded (some k) (by simp)
  have hself : keyEquals P k k = true := (semantics_lawful hP).refl k hk
  rw [((h.denotes hP hkeys).behaves hP).get (some k) hk, State.ops, hops, List.map_append,
    List.foldl_append, List.map_cons, List.foldl_cons]
  rw [show orNil (some k) = k from rfl, foldl_apply_other]
  · exact apply_added hself _
  · intro m hm
    obtain ⟨e, he, rfl⟩ := List.mem_map.mp hm
    obtain ⟨a, v, -, hop, -⟩ := h.watchOp e.1 e.2 (by rw [hops]; simp [he])
    exact ⟨⟨a.op, hop⟩, hlater e he⟩

/-- Atoms are linearizable, for every interleaving of their operations. -/
theorem atom_linearizable (hP : P.Lawful) (h : Reachable P atom init s)
    (hkeys : ∀ e ∈ s.watchOps, e.2.WellFormed P) : Linearizable P init s := by
  have hinv := h.inv
  constructor
  case chain => exact hinv.chain
  case once => exact hinv.once
  case update =>
    intro i old neu hi
    obtain ⟨a, ha, hupdate⟩ := (hinv.update i (old, neu)).mp hi
    exact ⟨a, ha, hupdate, (hinv.ok i a ha).stores hupdate⟩
  case answered =>
    intro i a v ha hop hpc
    have hok := hinv.ok i a ha
    rw [Activation.Ok, hpc] at hok
    rcases hok with ⟨old, neu, hupdate, -, -, -, hv⟩ | ⟨hnone, -, hcas | hwatch⟩
    · exact .inl ⟨old, neu, (hinv.update i (old, neu)).mpr ⟨a, ha, hupdate⟩, hv⟩
    · obtain ⟨expected, nv, hcas, hv⟩ := hcas
      exact .inr ⟨expected, nv, hcas, hv, hinv.not_updated ha hnone⟩
    · rw [hop] at hwatch
      cases hwatch
  case raised =>
    intro i a ha hpc
    have hok := hinv.ok i a ha
    rw [Activation.Ok, hpc] at hok
    exact ⟨hinv.not_updated ha hok.1, hinv.no_watchOp ha (by simp [hpc])⟩
  case watches => exact (hinv.denotes hP hkeys).behaves hP
  case changes => exact ⟨hinv.watchOnce, hinv.added⟩
  case kept => exact fun i k f before later => hinv.kept hP hkeys
  case notified =>
    intro i a old neu v ha hupdate hpc
    have hok := hinv.ok i a ha
    rw [Activation.Ok, hpc] at hok
    rcases hok with ⟨old', neu', hupdate', -, hreads, hcalls, -⟩ | ⟨hnone, -⟩
    · obtain ⟨rfl, rfl⟩ := Prod.mk.inj (Option.some.inj (hupdate.symm.trans hupdate'))
      obtain ⟨hle, hlen, m, hm, hsnapshot⟩ := hreads
      have hbehaves := (hm.denotes hP (State.ops_wellFormed hkeys)).behaves hP
      exact ⟨hle, (List.length_map ..).le.trans' hlen, m, hbehaves, hsnapshot ▸ hcalls⟩
    · rw [hnone] at hupdate
      cases hupdate
  case notifying => exact fun i a ha => (hinv.ok i a ha).notifying

end Results

/-- A run: one thread adds a watch and installs a value, and another removes the watch before the
first reads the watches. -/
theorem removed_run : ∃ s : State Bool, Reachable collidingCore .nil .nil s ∧
    (∀ e ∈ s.watchOps, e.2.WellFormed collidingCore) ∧
    ∃ a v m, s.acts 1 = some a ∧ a.update = some (.nil, .embedded (.bool true)) ∧
      a.pc = .returned v ∧ a.calls = [] ∧
      WatchesAt collidingCore s.ops a.updatedAt m ∧
      visited m = [(.nil, .embedded (.bool false))] := by
  let k : Value := .nil
  let f : Value := .embedded (.bool false)
  let w : HashedMap Value Value := ⟨1, [(k, f)]⟩
  have hadd : mapAssocPairs collidingCore none [some k, some f] = .ok w := by decide +kernel
  have hremove : mapDissoc collidingCore (some w) (some k) = some ⟨2, []⟩ := by decide +kernel
  have hnew : mapDissoc collidingCore (some w) (some k) ≠ some w := by decide +kernel
  have hk : WellFormed collidingCore k := .embedded _
  have hf : WellFormed collidingCore f := .embedded _
  have added := Relation.ReflTransGen.refl (r := Step (T := Bool) collidingCore .nil)
    (a := State.start .nil)
    |>.tail (.begin _ true (.addWatch k f) (.inl rfl))
    |>.tail (.act _ true 0 [] _ _ rfl rfl (.readForAdd k f w rfl rfl hadd))
    |>.tail (.storeWatches _ true 0 [] _ none (some w) _ rfl rfl rfl rfl rfl)
    |>.tail (.leave _ true 0 [] _ rfl rfl rfl)
  have updated := added
    |>.tail (.begin _ true (.reset (.embedded (.bool true))) (.inl rfl))
    |>.tail (.act _ true 1 [] _ _ rfl rfl (.readForReset _ rfl rfl))
    |>.tail (.store _ true 1 [] _ _ _ rfl rfl rfl rfl)
  have removed := updated
    |>.tail (.begin _ false (.removeWatch k) (.inl rfl))
    |>.tail (.act _ false 2 [] _ _ rfl rfl (.readForRemove k rfl rfl nofun hnew))
    |>.tail (.storeWatches _ false 2 [] _ (some w) _ _ rfl rfl rfl rfl rfl)
  have notified := removed
    |>.tail (.act _ true 1 [] _ _ rfl rfl (.readWatches _ _ rfl))
    |>.tail (.act _ true 1 [] _ _ rfl rfl
      (.fired _ _ (congrArg (Pc.notify _ _ ∘ visited) hremove)))
  refine ⟨_, notified, ?_, _, _, some w, rfl, rfl, rfl, rfl, ?_, ?_⟩
  · intro e he
    rcases List.mem_cons.mp he with rfl | he
    · simp [MapOp.WellFormed, hk, hf, orNil]
    · obtain rfl := List.mem_singleton.mp he
      exact hk
  · show ([MapOp.assocPairs [some k, some f]].foldlM (MapOp.run collidingCore) none) = _
    rw [List.foldlM_cons, MapOp.run, hadd]
    rfl
  · rfl

theorem atom_linearizable_removed : ∃ s : State Bool, s.updates ≠ [] ∧ s.watchOps ≠ [] ∧
    Linearizable collidingCore .nil s := by
  obtain ⟨s, h, hkeys, a, v, m, ha, hupdate, -, -, hm, hvisited⟩ := removed_run
  refine ⟨s, fun hnil => ?_, fun hnil => ?_, atom_linearizable collidingCore_lawful h hkeys⟩
  · have hi := (h.inv.update 1 _).mpr ⟨a, ha, hupdate⟩
    rw [hnil] at hi
    cases hi
  · rw [State.ops, hnil, WatchesAt, List.map_nil, List.take_nil] at hm
    obtain rfl : none = m := Except.ok.inj hm
    cases hvisited

/-- A watch registered when an update is made and removed right after it hears nothing. -/
theorem removed_watch_missed : ¬ ∀ s : State Bool, Reachable collidingCore .nil .nil s →
    ∀ i a old neu v m k f, s.acts i = some a → a.update = some (old, neu) → a.pc = .returned v →
      WatchesAt collidingCore s.ops a.updatedAt m → (k, f) ∈ visited m →
      ⟨f, k, old, neu⟩ ∈ a.calls := by
  intro hall
  obtain ⟨s, h, -, a, v, m, ha, hupdate, hpc, hcalls, hm, hvisited⟩ := removed_run
  have hmem := hall s h 1 a _ _ v m .nil (.embedded (.bool false)) ha hupdate hpc hm
    (hvisited ▸ List.mem_singleton_self _)
  rw [hcalls] at hmem
  cases hmem
end ProtoClojure.Maps.Atoms
