import Mathlib.Data.List.Basic
import Mathlib.Logic.Function.Basic
import ProtoClojure.Control.FairRuns

/-! One HTTP server on Linux as a step relation: its accept thread, its connection threads and the
callers of `stopServer`. A block under a connection's mutex is one step; so is one under the
server's, but for the block of `requestStop`, which takes the connections' mutexes in turn. -/
namespace ProtoClojure.Io

inductive Descriptor where
  | listener
  | connection (c : Nat)
  | other                                   -- not the server's
deriving DecidableEq

inductive Call where
  | close
  | shutdown
deriving DecidableEq

/-- A call on a descriptor's number, with what the number stood for in the kernel. -/
structure KernelCall where
  call : Call
  descriptor : Descriptor
  hit : Option Descriptor
deriving DecidableEq

/-- What reading the request came to. -/
inductive Outcome where
  | refusal
  | nothing
  | request
deriving DecidableEq

/-- Where a connection's thread is. -/
inductive Phase where
  | unstarted
  | reading
  | past (outcome : Outcome)                -- clears `reading` next
  | refusing
  | handling
  | writing
  | closing                                 -- in `closeConnection`
  | finishing                               -- sets `done` next
  | returning
  | ended
deriving DecidableEq

def Outcome.next : Outcome → Phase
  | .refusal => .refusing
  | .nothing => .closing
  | .request => .handling

structure Connection where
  fd : Nat := 0
  closed : Bool := false
  reading : Bool := true
  done : Bool := false
  phase : Phase := .unstarted
  -- ghosts: what `requestStop` did or found
  shut : Bool := false
  found : Bool := false                     -- no longer reading, or closed

def Connection.isPast (x : Connection) : Bool := x.closed || !x.reading

/-- The steps of a connection's thread but for `closeConnection`. An exception that is not one of
those `serveConnection` catches is caught in `connectionMain`, which closes. -/
inductive Connection.Move (x : Connection) (calling : Bool) : Connection → Prop where
  | read (outcome) : x.phase = .reading → Move x calling { x with phase := .past outcome }
  | readThrows : x.phase = .reading → Move x calling { x with phase := .closing }
  | past (outcome) : x.phase = .past outcome →
      Move x calling { x with reading := false, phase := outcome.next }
  | refused : x.phase = .refusing → Move x calling { x with phase := .closing }
  | handled : x.phase = .handling → calling = false → Move x calling { x with phase := .writing }
  | handlerThrows : x.phase = .handling → calling = false →
      Move x calling { x with phase := .closing }
  | written : x.phase = .writing → Move x calling { x with phase := .closing }
  | finish : x.phase = .finishing → Move x calling { x with done := true, phase := .returning }
  | ends : x.phase = .returning → Move x calling { x with phase := .ended }

/-- Where the accept thread is. -/
inductive AcceptPc where
  | looking                                 -- at the loop's test
  | collecting                              -- in `joinConnections` of the finished
  | joining (rest : List Nat) (all : Bool)
  | accepting
  | failed
  | pushing (c : Nat)
  | checking (c : Nat)                      -- at the test after the push
  | starting (c : Nat)
  | refusing (c : Nat)
  | marking (c : Nat)
  | leaving                                 -- in `joinConnections` of all
  | closing
  | ended
deriving DecidableEq

inductive Caller (K : Type) where
  | outside (k : K)
  | handler (c : Nat)                       -- the handler that serves connection `c`
deriving DecidableEq

/-- Where a call of `stopServer` is. -/
inductive CallPc where
  | idle
  | flagged                                 -- was first to set `stopping`
  | sweeping (rest : List Nat)              -- in the block of `requestStop`
  | asked                                   -- `requestStop` returned
  | joining
deriving DecidableEq

structure State (K : Type) where
  stopping : Bool := false
  joined : Bool := false
  mutex : Option (Caller K) := none         -- who is in the block of `requestStop`
  listenFd : Nat
  listenClosed : Bool := false
  connections : List Nat := []
  accepted : Nat := 0                       -- the connections accepted so far
  conn : Nat → Connection := fun _ => {}
  accept : AcceptPc := .looking
  call : Caller K → CallPc := fun _ => .idle
  kernel : Nat → Option Descriptor          -- the open numbers
  -- ghosts
  swept : Bool := false                     -- the block of `requestStop` is over
  kernelCalls : List KernelCall := []
  returns : List Bool := []                 -- of outside calls: had the threads ended

variable {K : Type}

/-- A server that `run-server` has just started; the rest of the process has numbers of its own. -/
def State.start (listenFd : Nat) (others : Nat → Bool) : State K where
  listenFd := listenFd
  kernel := fun n =>
    if n = listenFd then some .listener else if others n then some .other else none

def State.setConn (s : State K) (c : Nat) (x : Connection) : State K :=
  { s with conn := Function.update s.conn c x }

def State.close (s : State K) (d : Descriptor) (fd : Nat) : State K :=
  { s with
    kernel := Function.update s.kernel fd none
    kernelCalls := s.kernelCalls ++ [⟨.close, d, s.kernel fd⟩] }

def State.shutdown (s : State K) (d : Descriptor) (fd : Nat) : State K :=
  { s with kernelCalls := s.kernelCalls ++ [⟨.shutdown, d, s.kernel fd⟩] }

def State.closeConnection (s : State K) (c : Nat) : State K :=
  if (s.conn c).closed then s
  else (s.setConn c { s.conn c with closed := true }).close (.connection c) (s.conn c).fd

def State.closeListener (s : State K) : State K :=
  if s.listenClosed then s else { s with listenClosed := true }.close .listener s.listenFd

def State.shutListener (s : State K) : State K :=
  if s.listenClosed then s else s.shutdown .listener s.listenFd

/-- What `requestStop` does to one connection. -/
def State.shutConnection (s : State K) (c : Nat) : State K :=
  if (s.conn c).isPast then s.setConn c { s.conn c with found := true }
  else (s.setConn c { s.conn c with shut := true }).shutdown (.connection c) (s.conn c).fd

def Connection.threadEnded (x : Connection) : Bool := x.phase = .unstarted || x.phase = .ended

def State.threadsEnded (s : State K) : Bool :=
  s.accept = .ended && (List.range s.accepted).all fun c => (s.conn c).threadEnded

/-- The steps that stopping in good order depends on. -/
inductive Label (K : Type) where
  | takesOver                               -- the accept thread takes all connections
  | joinedAlready (k : K)                   -- an outside call finds `joined` set
  | step

section
variable [DecidableEq K]

def State.setCall (s : State K) (k : Caller K) (pc : CallPc) : State K :=
  { s with call := Function.update s.call k pc }

inductive Step : Label K → State K → State K → Prop where
  -- the accept thread
  | look {s : State K} : s.accept = .looking →
      Step .step s { s with accept := if s.stopping then .leaving else .collecting }
  | collect {s : State K} : s.accept = .collecting → s.mutex = none →
      Step .step s { s with
        accept := .joining (s.connections.filter fun c => (s.conn c).done) false
        connections := s.connections.filter fun c => !(s.conn c).done }
  | join {s : State K} (c rest all) : s.accept = .joining (c :: rest) all → (s.conn c).threadEnded = true →
      Step .step s { s with accept := .joining rest all }
  | joinedThem {s : State K} (all) : s.accept = .joining [] all →
      Step .step s { s with accept := if all then .closing else .accepting }
  | acceptFails {s : State K} : s.accept = .accepting → Step .step s { s with accept := .failed }
  | acceptsNothing {s : State K} : s.accept = .accepting →
      Step .step s { s with accept := .looking }
  | accepts {s : State K} (fd) : s.accept = .accepting → s.kernel fd = none →
      Step .step s { s.setConn s.accepted { fd := fd } with
        accept := .pushing s.accepted
        accepted := s.accepted + 1
        kernel := Function.update s.kernel fd (some (.connection s.accepted)) }
  | failed {s : State K} : s.accept = .failed →
      Step .step s { s with accept := if s.stopping then .leaving else .looking }
  | push {s : State K} (c) : s.accept = .pushing c → s.mutex = none →
      Step .step s { s with accept := .checking c, connections := s.connections ++ [c] }
  | check {s : State K} (c) : s.accept = .checking c →
      Step .step s { s with accept := if s.stopping then .refusing c else .starting c }
  | start {s : State K} (c) : s.accept = .starting c →
      Step .step s { s.setConn c { s.conn c with phase := .reading } with accept := .looking }
  | refuse {s : State K} (c) : s.accept = .refusing c →
      Step .step s { s.closeConnection c with accept := .marking c }
  | mark {s : State K} (c) : s.accept = .marking c →
      Step .step s { s.setConn c { s.conn c with done := true } with accept := .leaving }
  | takeAll {s : State K} : s.accept = .leaving → s.mutex = none →
      Step .takesOver s { s with accept := .joining s.connections true, connections := [] }
  | close {s : State K} : s.accept = .closing → s.mutex = none →
      Step .step s { s.closeListener with accept := .ended }
  -- a connection's thread
  | serve {s : State K} (c x) :
      (s.conn c).Move (s.call (.handler c) ≠ .idle) x → Step .step s (s.setConn c x)
  | closes {s : State K} (c) : (s.conn c).phase = .closing →
      Step .step s ((s.closeConnection c).setConn c
        { (s.closeConnection c).conn c with phase := .finishing })
  -- a call of `stopServer`
  | begin_ {s : State K} (k) : s.call k = .idle →
      (∀ c, k = .handler c → (s.conn c).phase = .handling) →
      Step .step s { s.setCall k (if s.stopping then .asked else .flagged) with stopping := true }
  | lock {s : State K} (k) : s.call k = .flagged → s.mutex = none →
      Step .step s { s.shutListener.setCall k (.sweeping s.connections) with
        mutex := some k
        conn := fun c => { s.conn c with found := (s.conn c).found || (s.conn c).isPast } }
  | sweep {s : State K} (k c rest) : s.call k = .sweeping (c :: rest) →
      Step .step s ((s.shutConnection c).setCall k (.sweeping rest))
  | unlock {s : State K} (k) : s.call k = .sweeping [] →
      Step .step s { s.setCall k .asked with mutex := none, swept := true }
  | handlerReturns {s : State K} (c) : s.call (.handler c) = .asked →
      Step .step s (s.setCall (.handler c) .idle)
  | joinedAlready {s : State K} (k) : s.call (.outside k) = .asked → s.joined = true →
      Step (.joinedAlready k) s { s.setCall (.outside k) .idle with
        returns := s.returns ++ [s.threadsEnded] }
  | joinAccept {s : State K} (k) : s.call (.outside k) = .asked → s.joined = false →
      Step .step s { s.setCall (.outside k) .joining with joined := true }
  | joinReturns {s : State K} (k) : s.call (.outside k) = .joining → s.accept = .ended →
      Step .step s { s.setCall (.outside k) .idle with
        returns := s.returns ++ [s.threadsEnded] }
  -- the rest of the process
  | otherOpens {s : State K} (fd) : s.kernel fd = none →
      Step .step s { s with kernel := Function.update s.kernel fd (some .other) }
  | otherCloses {s : State K} (fd) : s.kernel fd = some .other →
      Step .step s { s with kernel := Function.update s.kernel fd none }

/-- The accept thread takes no connection over that a call about to enter the block of `requestStop`
would find reading, and no outside call finds another one at its join while the accept thread runs. -/
def Label.orderly (s : State K) : Label K → Prop
  | .takesOver => (∃ k, s.call k = .flagged) → ∀ c ∈ s.connections, (s.conn c).isPast = true
  | .joinedAlready _ => (∃ k, s.call (.outside k) = .joining) → s.accept = .ended
  | .step => True

abbrev Reachable (listenFd : Nat) (others : Nat → Bool) (s : State K) : Prop :=
  FairRuns.Reachable Step (State.start listenFd others) s

/-- Reached by orderly steps alone. -/
abbrev Orderly (listenFd : Nat) (others : Nat → Bool) (s : State K) : Prop :=
  FairRuns.Reachable (fun a s s' => Step a s s' ∧ a.orderly s) (State.start listenFd others) s

end
end ProtoClojure.Io
