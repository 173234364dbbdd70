import ProtoClojure.Runtime.ActorDelivery
import Mathlib.Data.List.Range

/-! What the turns of the workers compute: an actor's value is a fold over its messages, and a
promise gets the value its own message made. -/
namespace ProtoClojure.ActorScheduler

/-- What a message carries. Its promise is the send's own, known by the message's stamp. -/
structure Call (F V : Type) where
  fn : F
  args : List V

/-- A worker's buffer has room for the value and this many arguments. -/
def kMaxExtras : Nat := 15

def messageArgs {V : Type} (value : V) (args : List V) : List V := value :: args.take kMaxExtras

/-- The scheduler with the values the workers handle. -/
structure Turns (C A F V : Type) (n : Nat) where
  sched : State C A (Call F V) n
  value : A → V
  buf : Fin (n + 1) → List V               -- what the worker calls its handler with
  taken : A → List V                       -- the values the actor has taken, in order
  delivered : List (Nat × V)               -- the deliveries that won, in order

variable {C A F V : Type} {n : Nat}

/-- A compare-and-set from no value: the first delivery wins. -/
def deliverPromise (delivered : List (Nat × V)) (promise : Nat) (v : V) : List (Nat × V) :=
  if promise ∈ delivered.map Prod.fst then delivered else delivered ++ [(promise, v)]

def Turns.start (todo : C → List (Send A (Call F V))) (init : A → V) : Turns C A F V n where
  sched := .start todo
  value := init
  buf _ := []
  taken _ := []
  delivered := []

/-- The function a worker is running, for its actor. -/
def Phase.running {P : Type} : Phase C A P n → Option (A × Message C A P n)
  | .handler a m _ => some (a, m)
  | _ => none

section Steps
variable [DecidableEq C] [DecidableEq A] (apply : F → List V → V)

/-- The handler starts on the actor's value. -/
def Turns.run (t : Turns C A F V n) (w : Fin (n + 1)) (a : A)
    (m : Message C A (Call F V) n) (turn : List (Message C A (Call F V) n))
    (sends : List (Send A (Call F V))) : Turns C A F V n where
  sched := { t.sched with todo := Function.update t.sched.todo (.inr w) sends }.setPhase w
    (.handler a m turn)
  value := t.value
  buf := Function.update t.buf w (messageArgs (t.value a) m.payload.args)
  taken := t.taken
  delivered := t.delivered

/-- It returns: the actor takes the result, and then the promise gets it. -/
def Turns.finish (t : Turns C A F V n) (w : Fin (n + 1)) (a : A)
    (m : Message C A (Call F V) n) (turn : List (Message C A (Call F V) n)) : Turns C A F V n :=
  let result := apply m.payload.fn (t.buf w)
  { sched := { t.sched with processed := t.sched.processed ++ [m] }.setPhase w (.batch a turn)
    value := Function.update t.value a result
    buf := t.buf
    taken := Function.update t.taken a (t.taken a ++ [result])
    delivered := deliverPromise t.delivered m.stamp result }

inductive TurnStep : Turns C A F V n → Turns C A F V n → Prop where
  | run (t w a m turn sends) : t.sched.phase w = .batch a (m :: turn) →
      TurnStep t (t.run w a m turn sends)
  | finish (t w a m turn) : t.sched.phase w = .handler a m turn → t.sched.todo (.inr w) = [] →
      t.sched.sendPc (.inr w) = .idle → TurnStep t (t.finish apply w a m turn)
  -- every other step of the scheduler handles no value
  | other (t s) : Step t.sched s → s.processed = t.sched.processed →
      (∀ w, (s.phase w).running = (t.sched.phase w).running) → TurnStep t { t with sched := s }

def TurnsReachable (todo : C → List (Send A (Call F V))) (init : A → V) (t : Turns C A F V n) :
    Prop :=
  Relation.ReflTransGen (TurnStep apply) (Turns.start todo init) t

variable {apply}

theorem TurnStep.step {t t' : Turns C A F V n} (h : TurnStep apply t t') :
    Step t.sched t'.sched := by
  cases h with
  | run w a m turn sends hph => exact .run _ w a m turn sends hph
  | finish w a m turn hph htodo hpc => exact .finish _ w a m turn hph htodo hpc
  | other s hs => exact hs

omit [DecidableEq C] [DecidableEq A] in
theorem running_setPhase {P : Type} {s : State C A P n} {w : Fin (n + 1)} {ph : Phase C A P n}
    (h : ph.running = (s.phase w).running) (w' : Fin (n + 1)) :
    ((s.setPhase w ph).phase w').running = (s.phase w').running := by
  by_cases hw : w' = w
  · subst hw
    simpa using h
  · simp [hw]

/-- No interleaving of the scheduler is left out. -/
theorem Step.turn {t : Turns C A F V n} {s : State C A (Call F V) n} (h : Step t.sched s) :
    ∃ t', TurnStep apply t t' ∧ t'.sched = s := by
  have other (hp : s.processed = t.sched.processed)
      (hr : ∀ w, (s.phase w).running = (t.sched.phase w).running) :
      ∃ t', TurnStep apply t t' ∧ t'.sched = s := ⟨_, .other t s h hp hr, rfl⟩
  cases h with
  | run w a m turn sends hph => exact ⟨_, .run t w a m turn sends hph, rfl⟩
  | finish w a m turn hph htodo hpc => exact ⟨_, .finish t w a m turn hph htodo hpc, rfl⟩
  | push | claimLost | claimWon | enqueue => exact other rfl fun _ => rfl
  | takeAll w a band turn hph =>
    refine other rfl fun w' => running_setPhase ?_ w'
    cases band <;> simp [afterTake, hph, Phase.running]
  | recheckEmpty w a band hph =>
    refine other rfl fun w' => running_setPhase ?_ w'
    cases band <;> simp [afterEmpty, hph, Phase.running]
  | chooseEmpty w a band hph =>
    refine other rfl fun w' => running_setPhase ?_ w'
    cases band <;> simp [afterChoose, hph, Phase.running]
  | popReady w band a rest hph =>
    exact other rfl fun w' => running_setPhase (by simp [hph, Phase.running]) w'
  | release w a hph | reclaimLost w a hph | reclaimWon w a hph | requeue w a band hph
  | recheckPending w a band hph | choosePending w a band hph =>
    exact other rfl fun w' => running_setPhase (by simp [hph, Phase.running]) w'

end Steps

/-! ### The fold -/

section Fold
variable [DecidableEq A] (step : V → Call F V → V) (init : A → V)

def ofActor (a : A) (ms : List (Message C A (Call F V) n)) : List (Call F V) :=
  (ms.filter fun m => m.actor = a).map Message.payload

/-- The actor's value after these messages. -/
def folded (ms : List (Message C A (Call F V) n)) (a : A) : V := (ofActor a ms).foldl step (init a)

/-- The values it takes on the way. -/
def folds (ms : List (Message C A (Call F V) n)) (a : A) : List V :=
  ((ofActor a ms).scanl step (init a)).tail

/-- Each message's promise, with the value its actor has after it. -/
def deliveries (ms : List (Message C A (Call F V) n)) : List (Nat × V) :=
  ms.mapIdx fun i m => (m.stamp, folded step init (ms.take (i + 1)) m.actor)

variable {step init} {ms : List (Message C A (Call F V) n)} {m : Message C A (Call F V) n} {a : A}

theorem ofActor_append : ofActor a (ms ++ [m]) =
    if m.actor = a then ofActor a ms ++ [m.payload] else ofActor a ms := by
  unfold ofActor
  rw [List.filter_append, List.map_append]
  by_cases h : m.actor = a <;> simp [h]

theorem folded_append : folded step init (ms ++ [m]) a =
    if m.actor = a then step (folded step init ms a) m.payload else folded step init ms a := by
  unfold folded
  rw [ofActor_append]
  split
  · rw [List.foldl_append]
    rfl
  · rfl

theorem scanl_append_one {α β : Type} (f : β → α → β) (b : β) (l : List α) (x : α) :
    (l ++ [x]).scanl f b = l.scanl f b ++ [f (l.foldl f b) x] := by
  induction l generalizing b with
  | nil => rfl
  | cons y l ih => simp [ih]

theorem folds_append : folds step init (ms ++ [m]) a =
    if m.actor = a then folds step init ms a ++ [step (folded step init ms a) m.payload]
    else folds step init ms a := by
  unfold folds folded
  rw [ofActor_append]
  split
  · rw [scanl_append_one, List.tail_append_of_ne_nil (by simp)]
  · rfl

theorem deliveries_append : deliveries step init (ms ++ [m]) =
    deliveries step init ms ++ [(m.stamp, folded step init (ms ++ [m]) m.actor)] := by
  unfold deliveries
  rw [List.mapIdx_append]
  congr 1
  · refine List.ext_getElem (by simp) fun i h₁ h₂ => ?_
    simp only [List.length_mapIdx] at h₁
    rw [List.getElem_mapIdx, List.getElem_mapIdx, List.take_append_of_le_length (by omega)]
  · have htake : (ms ++ [m]).take (ms.length + 1) = ms ++ [m] := by
      rw [List.take_of_length_le (by simp)]
    simp [htake]

theorem deliveries_stamps : (deliveries step init ms).map Prod.fst = ms.map Message.stamp := by
  refine List.ext_getElem (by simp [deliveries]) fun i h₁ h₂ => ?_
  simp [deliveries]

end Fold

/-! ### The batch of a turn -/

section Batch

/-- An earlier band, or the same band and sent earlier. -/
def Before (m m' : Message C A (Call F V) n) : Prop :=
  m.band.index < m'.band.index ∨ m.band = m'.band ∧ m.stamp < m'.stamp

variable [DecidableEq C] [DecidableEq A] {todo : C → List (Send A (Call F V))}
  {s s' : State C A (Call F V) n}

theorem Invariant.sent_ordered (h : Invariant todo s) :
    s.sent.Pairwise fun m m' => m.stamp < m'.stamp := by
  have hrange : (s.sent.map Message.stamp).Pairwise (· < ·) := by
    rw [h.stamps]
    exact List.pairwise_lt_range
  exact List.pairwise_map.mp hrange

/-- A mailbox is the end of what was sent to it. -/
theorem Invariant.mailbox_ordered (h : Invariant todo s) (a : A) (b : ActorPriority) :
    (s.mailbox a b).Pairwise Before := by
  obtain ⟨l, hl⟩ := exists_turn s a
  have hsub : (s.mailbox a b).Sublist s.sent := by
    refine List.Sublist.trans ?_ (List.filter_sublist (p := fun m => m.actor = a ∧ m.band = b))
    have hin := h.inOrder a b l hl
    unfold onBand at hin
    rw [← hin]
    exact List.sublist_append_right _ _
  have hband := (h.inOrder a b).mailbox_wf
  refine (h.sent_ordered.sublist hsub).imp_of_mem fun hm hm' hlt => ?_
  exact .inr ⟨(hband _ hm).2.trans (hband _ hm').2.symm, hlt⟩

/-- The batches of a turn hold every high message before the medium ones, these before the low
ones, and each band in its sending order. -/
theorem Step.batchOrdered (h : Step s s') (hinv : Invariant todo s)
    (ho : ∀ w, (s.phase w).pending.Pairwise Before) (w' : Fin (n + 1)) :
    (s'.phase w').pending.Pairwise Before := by
  have update {w : Fin (n + 1)} {ph : Phase C A (Call F V) n} (hph : ph.pending.Pairwise Before) :
      (Function.update s.phase w ph w').pending.Pairwise Before := by
    by_cases he : w' = w
    · subst he
      simpa using hph
    · simpa [he] using ho w'
  cases h with
  | takeAll w a band turn hph =>
    have hturn := ho w
    have hok := hinv.turnOk w
    rw [hph] at hturn hok
    have hbox := (hinv.inOrder a band).mailbox_wf
    have hall : (turn ++ s.mailbox a band).Pairwise Before := by
      refine List.pairwise_append.mpr ⟨hturn, hinv.mailbox_ordered a band, fun m hm m' hm' => ?_⟩
      rw [← (hbox m' hm').2] at hok
      exact .inl (hok m hm).2
    apply update
    cases band <;> exact hall
  | run w a m turn sends hph =>
    have hturn := ho w
    rw [hph] at hturn
    exact update hturn
  | finish w a m turn hph =>
    have hturn := ho w
    rw [hph] at hturn
    exact update (List.pairwise_cons.mp hturn).2
  | push | claimLost | claimWon | enqueue => exact ho w'
  | popReady | release | recheckPending | reclaimLost | reclaimWon | choosePending | requeue =>
    exact update .nil
  | recheckEmpty w a band => exact update (by cases band <;> exact .nil)
  | chooseEmpty w a band => exact update (by cases band <;> exact .nil)

end Batch

/-! ### What a run has computed -/

/-- The turn's own step: the message's arguments as the worker's buffer holds them. -/
def turnStep {F V : Type} (apply : F → List V → V) (v : V) (c : Call F V) : V :=
  apply c.fn (messageArgs v c.args)

/-- `(f value arg1 ... argn)`. -/
def sendStep {F V : Type} (apply : F → List V → V) (v : V) (c : Call F V) : V :=
  apply c.fn (v :: c.args)

/-- The actors' values are the folds of their messages, each message's promise has had the value
its own message made, once, and the batches are in order. -/
structure FoldsMessages [DecidableEq C] [DecidableEq A] (step : V → Call F V → V) (init : A → V)
    (t : Turns C A F V n) : Prop where
  value (a : A) : t.value a = folded step init t.sched.processed a
  taken (a : A) : t.taken a = folds step init t.sched.processed a
  delivered : t.delivered = deliveries step init t.sched.processed
  once : (t.delivered.map Prod.fst).Nodup
  batch (w : Fin (n + 1)) : (t.sched.phase w).pending.Pairwise Before
  processed : Quiescent t.sched → t.sched.processed.Perm t.sched.sent

section Runs
variable [DecidableEq C] [DecidableEq A] {apply : F → List V → V}
  {todo : C → List (Send A (Call F V))} {init : A → V} {t t' : Turns C A F V n}

theorem Invariant.processed_stamps {s : State C A (Call F V) n} (h : Invariant todo s) :
    (s.processed.map Message.stamp).Nodup := by
  have hsent : (s.sent.map Message.stamp).Nodup := by
    rw [h.stamps]
    exact List.nodup_range
  refine h.processed_nodup.map_on fun m hm m' hm' he => ?_
  exact List.inj_on_of_nodup_map hsent (h.processed_sent hm) (h.processed_sent hm') he

/-- What every reachable state satisfies. -/
structure TurnsInvariant (apply : F → List V → V) (todo : C → List (Send A (Call F V)))
    (init : A → V) (t : Turns C A F V n) : Prop where
  sched : Invariant todo t.sched
  folds : FoldsMessages (turnStep apply) init t
  /-- a handler's arguments begin with the value its actor still has -/
  running (w : Fin (n + 1)) (a : A) (m : Message C A (Call F V) n) :
    (t.sched.phase w).running = some (a, m) → t.buf w = messageArgs (t.value a) m.payload.args

theorem TurnsInvariant.start (todo : C → List (Send A (Call F V))) (init : A → V) :
    TurnsInvariant apply todo init (Turns.start todo init : Turns C A F V n) where
  sched := .start todo
  folds :=
    { value _ := rfl
      taken _ := rfl
      delivered := rfl
      once := .nil
      batch _ := .nil
      processed hq := (Invariant.start todo).quiescent_processed hq }
  running _ _ _ h := nomatch h

omit [DecidableEq C] [DecidableEq A] in
/-- A worker that runs a handler holds the actor. -/
theorem holds_of_running {P : Type} {ph : Phase C A P n} {a : A} {m : Message C A P n}
    (h : ph.running = some (a, m)) : ph.holds = some a ∧ m ∈ ph.pending := by
  cases ph with
  | handler a' m' turn =>
    cases h
    exact ⟨rfl, List.mem_cons_self⟩
  | _ => cases h

omit [DecidableEq C] in
theorem deliverPromise_new {ms : List (Message C A (Call F V) n)}
    {m : Message C A (Call F V) n} {step : V → Call F V → V} (v : V)
    (h : ((ms ++ [m]).map Message.stamp).Nodup) :
    deliverPromise (deliveries step init ms) m.stamp v =
      deliveries step init ms ++ [(m.stamp, v)] := by
  rw [List.map_append] at h
  have hnew := List.disjoint_of_nodup_append h
  refine if_neg fun hm => ?_
  rw [deliveries_stamps] at hm
  exact hnew hm (by simp)

theorem TurnsInvariant.step (h : TurnsInvariant apply todo init t) (hs : TurnStep apply t t') :
    TurnsInvariant apply todo init t' := by
  have hsched := h.sched.step hs.step
  have hbatch := hs.step.batchOrdered h.sched h.folds.batch
  cases hs with
  | run w a m turn sends hph =>
    refine ⟨hsched, ⟨h.folds.value, h.folds.taken, h.folds.delivered, h.folds.once, hbatch,
      hsched.quiescent_processed⟩, fun w' a' m' hr => ?_⟩
    by_cases hw : w' = w
    · subst hw
      have hhandler : (Phase.handler a m turn).running = some (a', m') := by
        simpa [Turns.run] using hr
      cases hhandler
      exact Function.update_self _ _ _
    · have hother : (t.sched.phase w').running = some (a', m') := by
        simpa [Turns.run, hw] using hr
      exact (Function.update_of_ne hw _ _).trans (h.running w' a' m' hother)
  | finish w a m turn hph htodo hpc =>
    have hrun : (t.sched.phase w).running = some (a, m) := by
      rw [hph]
      rfl
    obtain ⟨hholds, hmem⟩ := holds_of_running hrun
    obtain rfl := h.sched.pending_actor hholds m hmem
    have hbuf := h.running w m.actor m hrun
    have hresult : apply m.payload.fn (t.buf w) =
        turnStep apply (folded (turnStep apply) init t.sched.processed m.actor) m.payload := by
      rw [hbuf, h.folds.value]
      rfl
    have hstamps := hsched.processed_stamps
    have hdelivered : (t.finish apply w m.actor m turn).delivered =
        deliveries (turnStep apply) init (t.sched.processed ++ [m]) := by
      rw [deliveries_append, folded_append, if_pos rfl, ← hresult, ← deliverPromise_new _ hstamps,
        ← h.folds.delivered]
      rfl
    refine ⟨hsched, ⟨fun a' => ?_, fun a' => ?_, hdelivered, ?_, hbatch,
      hsched.quiescent_processed⟩, fun w' a' m' hr => ?_⟩
    · change Function.update t.value m.actor _ a' = folded _ _ (t.sched.processed ++ [m]) a'
      rw [folded_append]
      by_cases ha : m.actor = a'
      · subst ha
        rw [if_pos rfl, Function.update_self, hresult]
      · rw [if_neg ha, Function.update_of_ne (Ne.symm ha), h.folds.value]
    · change Function.update t.taken m.actor _ a' =
        ActorScheduler.folds _ _ (t.sched.processed ++ [m]) a'
      rw [folds_append]
      by_cases ha : m.actor = a'
      · subst ha
        rw [if_pos rfl, Function.update_self, hresult, h.folds.taken]
      · rw [if_neg ha, Function.update_of_ne (Ne.symm ha), h.folds.taken]
    · rw [hdelivered, deliveries_stamps]
      exact hstamps
    · by_cases hw : w' = w
      · subst hw
        have hbatchPhase : (Phase.batch m.actor turn).running = some (a', m') := by
          simpa [Turns.finish] using hr
        cases hbatchPhase
      · have hother : (t.sched.phase w').running = some (a', m') := by
          simpa [Turns.finish, hw] using hr
        -- the other worker runs a handler of another actor
        have ha : a' ≠ m.actor := fun ha => by
          subst ha
          exact hw ((h.sched.token _).holds_unique (holds_of_running hother).1 hholds)
        have hvalue : (t.finish apply w m.actor m turn).value a' = t.value a' :=
          Function.update_of_ne ha _ _
        rw [hvalue]
        exact h.running w' a' m' hother
  | other s hstep hp hr =>
    refine ⟨hsched, ⟨fun a => ?_, fun a => ?_, ?_, h.folds.once, hbatch,
      hsched.quiescent_processed⟩, fun w a m hrun => h.running w a m ((hr w).symm.trans hrun)⟩
    · exact (h.folds.value a).trans (by rw [hp])
    · exact (h.folds.taken a).trans (by rw [hp])
    · exact h.folds.delivered.trans (by rw [hp])

theorem TurnsReachable.invariant (h : TurnsReachable apply todo init t) :
    TurnsInvariant apply todo init t := by
  induction h with
  | refl => exact .start todo init
  | tail _ hs ih => exact ih.step hs

/-- The arguments of every message fit the worker's buffer. -/
def Short (ms : List (Message C A (Call F V) n)) : Prop :=
  ∀ m ∈ ms, m.payload.args.length ≤ kMaxExtras

omit [DecidableEq C] [DecidableEq A] in
theorem turnStep_eq {c : Call F V} (h : c.args.length ≤ kMaxExtras) (v : V) :
    turnStep apply v c = sendStep apply v c := by
  unfold turnStep sendStep messageArgs
  rw [List.take_of_length_le h]

omit [DecidableEq C] in
theorem folded_turnStep {ms : List (Message C A (Call F V) n)} (h : Short ms) (a : A) :
    folded (turnStep apply) init ms a = folded (sendStep apply) init ms a := by
  refine List.foldl_ext _ _ _ fun v c hc => turnStep_eq ?_ v
  obtain ⟨m, hm, rfl⟩ := List.mem_map.mp hc
  exact h m (List.mem_filter.mp hm).1

omit [DecidableEq C] in
theorem folds_turnStep {ms : List (Message C A (Call F V) n)} (h : Short ms) (a : A) :
    folds (turnStep apply) init ms a = folds (sendStep apply) init ms a := by
  induction ms using List.reverseRecOn with
  | nil => rfl
  | append_singleton ms m ih =>
    have hms : Short ms := fun m' hm' => h m' (List.mem_append_left _ hm')
    have hm := h m (by simp)
    rw [folds_append, folds_append, ih hms, folded_turnStep hms, turnStep_eq hm]

omit [DecidableEq C] in
theorem deliveries_turnStep {ms : List (Message C A (Call F V) n)} (h : Short ms) :
    deliveries (turnStep apply) init ms = deliveries (sendStep apply) init ms := by
  induction ms using List.reverseRecOn with
  | nil => rfl
  | append_singleton ms m ih =>
    have hms : Short ms := fun m' hm' => h m' (List.mem_append_left _ hm')
    rw [deliveries_append, deliveries_append, ih hms, folded_turnStep h]

/-- As long as no send has more arguments than the buffer takes, every actor's turns are the
fold over its messages. -/
theorem turns_fold (h : TurnsReachable apply todo init t) (hshort : Short t.sched.sent) :
    FoldsMessages (sendStep apply) init t := by
  obtain ⟨hsched, hfolds, _⟩ := h.invariant
  have hdone : Short t.sched.processed := fun m hm => hshort m (hsched.processed_sent hm)
  exact
    { value a := (hfolds.value a).trans (folded_turnStep hdone a)
      taken a := (hfolds.taken a).trans (folds_turnStep hdone a)
      delivered := hfolds.delivered.trans (deliveries_turnStep hdone)
      once := hfolds.once
      batch := hfolds.batch
      processed := hfolds.processed }

end Runs

/-! ### One message -/

/-- The function counts its arguments. -/
def countArgs (_ : Unit) (args : List Nat) : Nat := args.length

def oneSend (args : List Nat) : Unit → List (Send Unit (Call Unit Nat)) :=
  fun _ => [⟨(), .high, ⟨(), args⟩⟩]

/-- The whole turn of a message, when there is no other. -/
theorem oneSend_turn (args : List Nat) : ∃ t : Turns Unit Unit Unit Nat 0,
    TurnsReachable countArgs (oneSend args) (fun _ => 0) t ∧
      t.sched.sent = [⟨.inl (), 0, (), .high, ⟨(), args⟩⟩] ∧ t.sched.processed = t.sched.sent ∧
      t.value () = (messageArgs 0 args).length := by
  have other {t : Turns Unit Unit Unit Nat 0} {s : State Unit Unit (Call Unit Nat) 0}
      (ht : TurnsReachable countArgs (oneSend args) (fun _ => 0) t) (hs : Step t.sched s)
      (hp : s.processed = t.sched.processed)
      (hr : (s.phase 0).running = (t.sched.phase 0).running) :
      TurnsReachable countArgs (oneSend args) (fun _ => 0) { t with sched := s } :=
    ht.tail (.other t s hs hp (Fin.forall_fin_one.mpr hr))
  have h₁ := other .refl (.push _ (.inl ()) ⟨(), .high, ⟨(), args⟩⟩ [] rfl rfl) rfl rfl
  have h₂ := other h₁ (.claimWon _ (.inl ()) () .high rfl rfl) rfl rfl
  have h₃ := other h₂ (.enqueue _ (.inl ()) () .high rfl) rfl rfl
  have h₄ := other h₃ (.popReady _ 0 .high () [] rfl rfl rfl) rfl rfl
  have h₅ := other h₄ (.takeAll _ 0 () .high [] rfl) rfl rfl
  have h₆ := other h₅ (.takeAll _ 0 () .medium _ rfl) rfl rfl
  have h₇ := other h₆ (.takeAll _ 0 () .low _ rfl) rfl rfl
  have h₈ := h₇.tail (.run _ 0 () _ [] [] rfl)
  have h₉ := h₈.tail (.finish _ 0 () _ [] rfl rfl rfl)
  exact ⟨_, h₉, rfl, rfl, rfl⟩

/-- Fifteen arguments reach the function. -/
theorem turns_fold_fifteen : ∃ t : Turns Unit Unit Unit Nat 0,
    t.sched.processed ≠ [] ∧ FoldsMessages (sendStep countArgs) (fun _ => 0) t := by
  obtain ⟨t, ht, hsent, hp, _⟩ := oneSend_turn (List.range 15)
  refine ⟨t, ?_, turns_fold ht ?_⟩
  · simp [hp, hsent]
  · rw [hsent]
    simp [Short, kMaxExtras]

/-- Of sixteen the worker drops the last, and the function sees sixteen values where the send
had given it seventeen. -/
theorem turns_fold_drops :
    ¬ ∀ (todo : Unit → List (Send Unit (Call Unit Nat))) (t : Turns Unit Unit Unit Nat 0),
      TurnsReachable countArgs todo (fun _ => 0) t →
        FoldsMessages (sendStep countArgs) (fun _ => 0) t := by
  intro h
  obtain ⟨t, ht, hsent, hp, hv⟩ := oneSend_turn (List.range 16)
  have hfold := (h _ t ht).value ()
  rw [hv, hp, hsent] at hfold
  revert hfold
  decide

end ProtoClojure.ActorScheduler
