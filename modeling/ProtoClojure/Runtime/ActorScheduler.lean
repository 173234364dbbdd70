import Mathlib.Logic.Relation
import Mathlib.Logic.Function.Basic
import Mathlib.Data.List.Basic

/-! The actor scheduler as a step relation: senders, workers, mailboxes and the
ready queues, one constructor for each atomic access to shared memory. -/
namespace ProtoClojure.ActorScheduler

inductive ActorPriority where
  | high
  | medium
  | low
  deriving DecidableEq, Repr

/-- The value of the C++ enumerator: the order in which bands are served. -/
def ActorPriority.index : ActorPriority → Nat
  | .high => 0
  | .medium => 1
  | .low => 2

/-- Threads that send: clients, and the workers themselves while they run a handler.
`configuredWorkerCount` is never zero, so the workers are `Fin (n + 1)`. -/
abbrev Thread (C : Type) (n : Nat) := C ⊕ Fin (n + 1)

/-- One call of `send` a thread has still to make. The payload stands for the
function, its extra arguments and its promise, which scheduling never reads. -/
structure Send (A P : Type) where
  actor : A
  band : ActorPriority
  payload : P

/-- A message in a mailbox. Its sender and the global push count identify it. -/
structure Message (C A P : Type) (n : Nat) where
  sender : Thread C n
  stamp : Nat
  actor : A
  band : ActorPriority
  payload : P

/-- Where a thread is inside `ActorScheduler::send`. -/
inductive SendPc (A : Type) where
  | idle
  | pushed (a : A) (band : ActorPriority)   -- the compare-and-set is next
  | claimed (a : A) (band : ActorPriority)  -- it won: `enqueueReady_` is next

/-- Where a worker is inside `workerLoop`. `turn` holds the messages taken and not
yet run; the three batches are walked in band order, so they stand concatenated. -/
inductive Phase (C A P : Type) (n : Nat) where
  | popReady
  | takeAll (a : A) (band : ActorPriority) (turn : List (Message C A P n))
  | batch (a : A) (turn : List (Message C A P n))
  | handler (a : A) (m : Message C A P n) (turn : List (Message C A P n))
  | recheck (a : A) (band : ActorPriority)  -- `anyMailboxPending` reads `band` next
  | reclaim (a : A)                         -- the worker's own compare-and-set
  | choose (a : A) (band : ActorPriority)   -- `highestPendingBand` reads `band` next
  | requeue (a : A) (band : ActorPriority)

structure State (C A P : Type) (n : Nat) where
  mailbox : A → ActorPriority → List (Message C A P n)
  claimed : A → Bool
  ready : ActorPriority → List A
  todo : Thread C n → List (Send A P)
  sendPc : Thread C n → SendPc A
  phase : Fin (n + 1) → Phase C A P n
  sent : List (Message C A P n)             -- every push, in the order of the pushes
  processed : List (Message C A P n)        -- every completed handler call, in order

variable {C A P : Type} {n : Nat}

def SendPc.owner : SendPc A → Option A
  | .claimed a _ => some a
  | _ => none

/-- The actor whose claim the worker is answerable for. -/
def Phase.owner : Phase C A P n → Option A
  | .takeAll a _ _ | .batch a _ | .handler a _ _ | .choose a _ | .requeue a _ => some a
  | .popReady | .recheck _ _ | .reclaim _ => none

/-- The actor whose turn the worker runs: from `popReady_` to the release. -/
def Phase.holds : Phase C A P n → Option A
  | .takeAll a _ _ | .batch a _ | .handler a _ _ => some a
  | _ => none

/-- The messages the worker has taken and not finished. -/
def Phase.pending : Phase C A P n → List (Message C A P n)
  | .takeAll _ _ turn | .batch _ turn => turn
  | .handler _ m turn => m :: turn
  | _ => []

/-- The ready queues in the order `popReady_` looks at them. -/
def State.readyList (s : State C A P n) : List A :=
  s.ready .high ++ s.ready .medium ++ s.ready .low

/-- The queue `popReady_` takes from: the first non-empty one. -/
def State.readyBand (s : State C A P n) : Option ActorPriority :=
  if s.ready .high ≠ [] then some .high
  else if s.ready .medium ≠ [] then some .medium
  else if s.ready .low ≠ [] then some .low
  else none

def State.start (todo : C → List (Send A P)) : State C A P n where
  mailbox _ _ := []
  claimed _ := false
  ready _ := []
  todo := Sum.elim todo (fun _ => [])
  sendPc _ := .idle
  phase _ := .popReady
  sent := []
  processed := []

section Steps
variable [DecidableEq C] [DecidableEq A]

/-- `enqueueReady_`: one step under the queue mutex. -/
def State.enqueueReady (s : State C A P n) (a : A) (band : ActorPriority) : State C A P n :=
  { s with ready := Function.update s.ready band (s.ready band ++ [a]) }

def State.setMailbox (s : State C A P n) (a : A) (band : ActorPriority)
    (queue : List (Message C A P n)) : State C A P n :=
  { s with mailbox := Function.update s.mailbox a (Function.update (s.mailbox a) band queue) }

/-- The mailbox push, protoCore's linearizable enqueue. -/
def State.push (s : State C A P n) (t : Thread C n) (m : Send A P) (rest : List (Send A P)) :
    State C A P n :=
  let msg : Message C A P n := ⟨t, s.sent.length, m.actor, m.band, m.payload⟩
  { s.setMailbox m.actor m.band (s.mailbox m.actor m.band ++ [msg]) with
    todo := Function.update s.todo t rest
    sendPc := Function.update s.sendPc t (.pushed m.actor m.band)
    sent := s.sent ++ [msg] }

def State.setPhase (s : State C A P n) (w : Fin (n + 1)) (ph : Phase C A P n) : State C A P n :=
  { s with phase := Function.update s.phase w ph }

def State.setPc (s : State C A P n) (t : Thread C n) (pc : SendPc A) : State C A P n :=
  { s with sendPc := Function.update s.sendPc t pc }

def State.setClaimed (s : State C A P n) (a : A) (b : Bool) : State C A P n :=
  { s with claimed := Function.update s.claimed a b }

/-- What follows the `takeAll` of a band: the next band's, then the batches. -/
def afterTake (a : A) (band : ActorPriority) (turn : List (Message C A P n)) : Phase C A P n :=
  match band with
  | .high => .takeAll a .medium turn
  | .medium => .takeAll a .low turn
  | .low => .batch a turn

/-- What follows an `isEmpty` of `anyMailboxPending` that answered true. -/
def afterEmpty (a : A) (band : ActorPriority) : Phase C A P n :=
  match band with
  | .high => .recheck a .medium
  | .medium => .recheck a .low
  | .low => .popReady

/-- What follows an `isEmpty` of `highestPendingBand` that answered true: the low
band is answered without a third read. -/
def afterChoose (a : A) (band : ActorPriority) : Phase C A P n :=
  match band with
  | .high => .choose a .medium
  | _ => .requeue a .low

inductive Step : State C A P n → State C A P n → Prop where
  -- ActorScheduler::send, by any thread
  | push (s t m rest) : s.sendPc t = .idle → s.todo t = m :: rest → Step s (s.push t m rest)
  | claimLost (s t a band) : s.sendPc t = .pushed a band → s.claimed a = true →
      Step s (s.setPc t .idle)
  | claimWon (s t a band) : s.sendPc t = .pushed a band → s.claimed a = false →
      Step s ((s.setClaimed a true).setPc t (.claimed a band))
  | enqueue (s t a band) : s.sendPc t = .claimed a band →
      Step s ((s.enqueueReady a band).setPc t .idle)
  -- ActorScheduler::workerLoop
  | popReady (s w band a rest) : s.phase w = .popReady → s.readyBand = some band →
      s.ready band = a :: rest →
      Step s ({ s with ready := Function.update s.ready band rest }.setPhase w (.takeAll a .high []))
  | takeAll (s w a band turn) : s.phase w = .takeAll a band turn →
      Step s ((s.setMailbox a band []).setPhase w (afterTake a band (turn ++ s.mailbox a band)))
  | run (s w a m turn sends) : s.phase w = .batch a (m :: turn) →
      -- the function may be any Clojure code: it sends what it likes
      Step s ({ s with todo := Function.update s.todo (.inr w) sends }.setPhase w
        (.handler a m turn))
  | finish (s w a m turn) : s.phase w = .handler a m turn → s.todo (.inr w) = [] →
      s.sendPc (.inr w) = .idle →
      Step s ({ s with processed := s.processed ++ [m] }.setPhase w (.batch a turn))
  | release (s w a) : s.phase w = .batch a [] →
      Step s ((s.setClaimed a false).setPhase w (.recheck a .high))
  | recheckEmpty (s w a band) : s.phase w = .recheck a band → s.mailbox a band = [] →
      Step s (s.setPhase w (afterEmpty a band))
  | recheckPending (s w a band) : s.phase w = .recheck a band → s.mailbox a band ≠ [] →
      Step s (s.setPhase w (.reclaim a))
  | reclaimLost (s w a) : s.phase w = .reclaim a → s.claimed a = true →
      Step s (s.setPhase w .popReady)
  | reclaimWon (s w a) : s.phase w = .reclaim a → s.claimed a = false →
      Step s ((s.setClaimed a true).setPhase w (.choose a .high))
  | chooseEmpty (s w a band) : s.phase w = .choose a band → s.mailbox a band = [] →
      Step s (s.setPhase w (afterChoose a band))
  | choosePending (s w a band) : s.phase w = .choose a band → s.mailbox a band ≠ [] →
      Step s (s.setPhase w (.requeue a band))
  | requeue (s w a band) : s.phase w = .requeue a band →
      Step s ((s.enqueueReady a band).setPhase w .popReady)

/-- The states some interleaving reaches from an idle scheduler whose clients have
the given sends to make. -/
def Reachable (todo : C → List (Send A P)) (s : State C A P n) : Prop :=
  Relation.ReflTransGen Step (State.start todo) s

/-- No sender and no worker has a step left. -/
def Quiescent (s : State C A P n) : Prop := ∀ s', ¬ Step s s'

end Steps

end ProtoClojure.ActorScheduler
