import Mathlib.Data.List.Basic
import Mathlib.Logic.Function.Basic
import ProtoClojure.Control.FairRuns

/-! The debug server's stopped threads and its protocol thread as a step relation. A block under
`mu_` is one step; so is what is sent outside it, and the `notify_all` after it. -/
namespace ProtoClojure.Dap.Stops

inductive StepKind where
  | none
  | into
  | over_
  | out
deriving DecidableEq

inductive Resume where
  | continue_
  | stepIn
  | stepOver
  | stepOut
deriving DecidableEq

def Resume.stepKind : Resume → StepKind
  | .continue_ => .none
  | .stepIn => .into
  | .stepOver => .over_
  | .stepOut => .out

/-- A thread of the program registers once, and may exit. -/
inductive Life where
  | unborn
  | live
  | gone
deriving DecidableEq

/-- Where a thread is in `stop`. An inspection request is known by its number. -/
inductive Pc where
  | running                                 -- in no stop
  | announcing                              -- sends the `stopped` event next
  | waiting                                 -- tests the predicate of `cv_.wait` next
  | asleep                                  -- in `cv_.wait`
  | answering (request : Nat)
  | leaving                                 -- out of the loop
  | refusing (late : List Nat)              -- refuses the late ones
deriving DecidableEq

structure ThreadState where
  life : Life := .unborn
  stepKind : StepKind := .none
  stopped : Bool := false
  resumeReady : Bool := false
  resume : Resume := .continue_
  requests : List Nat := []
  pc : Pc := .running
  stops : Nat := 0                          -- ghost: the stops entered so far

inductive Protocol where
  | reading
  | refusing (request : Nat)                -- `queueFor` answered false
  | notifying
  | done
deriving DecidableEq

variable {T : Type}

/-- Who answered: a thread in one of its stops, or nobody, by a refusal. -/
structure Answer (T : Type) where
  request : Nat
  stop : Option (T × Nat)

/-- How a thread left a stop. -/
structure Release (T : Type) where
  thread : T
  stop : Nat
  disconnected : Bool
  stepKind : StepKind

structure State (T : Type) where
  threads : T → ThreadState := fun _ => {}
  protocol : Protocol := .reading
  disconnected : Bool := false
  -- ghosts: how many inspection requests came, and what became of them
  issued : Nat := 0
  queued : List (Nat × T × Nat) := []       -- a request, for a thread and its stop
  orders : List (T × Nat × Resume) := []
  answers : List (Answer T) := []
  releases : List (Release T) := []

/-- The predicate of `cv_.wait`. -/
def ThreadState.awaited (ts : ThreadState) (disconnected : Bool) : Bool :=
  ts.resumeReady || !ts.requests.isEmpty || disconnected

/-- What `queueFor` and the resuming requests ask for. -/
def ThreadState.inspectable (ts : ThreadState) : Prop :=
  ts.life = .live ∧ ts.stopped = true ∧ ts.resumeReady = false

/-- What a step of a thread lets the others see. -/
inductive Output where
  | silent
  | answered (request : Nat)
  | refused (request : Nat)
  | released (disconnected : Bool) (stepKind : StepKind)

/-- What a thread runs on: the program, a wait that ends of itself, or the rest of `stop`. -/
inductive Role where
  | program
  | waking
  | serving

inductive Move (disconnected : Bool) (ts : ThreadState) : Role → ThreadState → Output → Prop where
  | register : ts.life = .unborn →
      Move disconnected ts .program { ts with life := .live } .silent
  | exit : ts.life = .live → ts.pc = .running →
      Move disconnected ts .program { ts with life := .gone } .silent
  | enter : ts.life = .live → ts.pc = .running → disconnected = false →
      Move disconnected ts .program { ts with
        stopped := true, resumeReady := false, stepKind := .none, pc := .announcing
        stops := ts.stops + 1 } .silent
  -- `stop` returns at once
  | pass : ts.life = .live → ts.pc = .running → disconnected = true →
      Move disconnected ts .program ts .silent
  | announce : ts.pc = .announcing →
      Move disconnected ts .serving { ts with pc := .waiting } .silent
  | sleep : ts.pc = .waiting → ts.awaited disconnected = false →
      Move disconnected ts .serving { ts with pc := .asleep } .silent
  | wake : ts.pc = .asleep → Move disconnected ts .waking { ts with pc := .waiting } .silent
  | take (request rest) : ts.pc = .waiting → ts.requests = request :: rest →
      Move disconnected ts .serving { ts with pc := .answering request, requests := rest } .silent
  | resume : ts.pc = .waiting → ts.awaited disconnected = true → ts.requests = [] →
      Move disconnected ts .serving { ts with pc := .leaving } .silent
  | answer (request) : ts.pc = .answering request →
      Move disconnected ts .serving { ts with pc := .waiting } (.answered request)
  | leave : ts.pc = .leaving →
      Move disconnected ts .serving { ts with
        stopped := false, pc := .refusing ts.requests, requests := []
        stepKind := (if disconnected then Resume.continue_ else ts.resume).stepKind }
        (.released disconnected (if disconnected then Resume.continue_ else ts.resume).stepKind)
  | refuse (request late) : ts.pc = .refusing (request :: late) →
      Move disconnected ts .serving { ts with pc := .refusing late } (.refused request)
  | left : ts.pc = .refusing [] →
      Move disconnected ts .serving { ts with pc := .running } .silent

inductive Actor (T : Type) where
  | thread (t : T) (role : Role)
  | client
  | protocol

/-- The program may run on between its stops, and the client may ask for nothing. -/
def Actor.fair : Actor T → Prop
  | .thread _ .serving => True
  | .protocol => True
  | _ => False

section
variable [DecidableEq T]

def State.record (s : State T) (t : T) : Output → State T
  | .silent => s
  | .answered request =>
    { s with answers := s.answers ++ [⟨request, some (t, (s.threads t).stops)⟩] }
  | .refused request => { s with answers := s.answers ++ [⟨request, none⟩] }
  | .released disconnected stepKind =>
    { s with releases := s.releases ++ [⟨t, (s.threads t).stops, disconnected, stepKind⟩] }

def State.setThread (s : State T) (t : T) (ts : ThreadState) : State T :=
  { s with threads := Function.update s.threads t ts }

def ThreadState.notified (ts : ThreadState) : ThreadState :=
  if ts.pc = .asleep then { ts with pc := .waiting } else ts

/-- `protocol` finishes what the `client` asked for. -/
inductive Step : Actor T → State T → State T → Prop where
  | thread {s : State T} (t role ts out) : Move s.disconnected (s.threads t) role ts out →
      Step (.thread t role) s ((s.record t out).setThread t ts)
  | queue {s : State T} (t) : s.protocol = .reading → (s.threads t).inspectable →
      Step .client s { s.setThread t { s.threads t with
          requests := (s.threads t).requests ++ [s.issued] } with
        protocol := .notifying
        issued := s.issued + 1
        queued := s.queued ++ [(s.issued, t, (s.threads t).stops)] }
  | refuse {s : State T} (t) : s.protocol = .reading → ¬ (s.threads t).inspectable →
      Step .client s { s with protocol := .refusing s.issued, issued := s.issued + 1 }
  | refused {s : State T} (request) : s.protocol = .refusing request →
      Step .protocol s { s with protocol := .reading, answers := s.answers ++ [⟨request, none⟩] }
  | order {s : State T} (t r) : s.protocol = .reading → (s.threads t).inspectable →
      Step .client s { s.setThread t { s.threads t with resume := r, resumeReady := true } with
        protocol := .notifying
        orders := s.orders ++ [(t, (s.threads t).stops, r)] }
  | orderIgnored {s : State T} (t) : s.protocol = .reading → ¬ (s.threads t).inspectable →
      Step .client s { s with protocol := .notifying }
  | disconnect {s : State T} : s.protocol = .reading →
      Step .client s { s with disconnected := true, protocol := .notifying }
  | notify {s : State T} : s.protocol = .notifying →
      Step .protocol s { s with
        threads := fun t => (s.threads t).notified
        protocol := if s.disconnected then .done else .reading }

/-- The runs of the server, from before its program's first thread. -/
abbrev Run (T : Type) [DecidableEq T] := FairRuns.Run (Step (T := T)) Actor.fair {}

abbrev Reachable (s : State T) : Prop := FairRuns.Reachable Step {} s

end

end ProtoClojure.Dap.Stops
