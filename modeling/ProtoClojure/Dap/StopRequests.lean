import ProtoClojure.Dap.Stops

/-! Where an inspection request is: with the protocol thread, with the thread it was queued for, or
among the answered ones. -/
namespace ProtoClojure.Dap.Stops

variable {T : Type}

def Pc.inStop : Pc → Bool
  | .running | .refusing _ => false
  | _ => true

def Pc.held : Pc → List Nat
  | .answering request => [request]
  | .refusing late => late
  | _ => []

def ThreadState.held (ts : ThreadState) : List Nat := ts.pc.held ++ ts.requests

def Protocol.held : Protocol → List Nat
  | .refusing request => [request]
  | _ => []

def Output.sent : Output → List Nat
  | .answered request | .refused request => [request]
  | _ => []

inductive Place (T : Type) where
  | answered
  | protocol
  | thread (t : T)
deriving DecidableEq

def State.at_ (s : State T) : Place T → List Nat
  | .answered => s.answers.map Answer.request
  | .protocol => s.protocol.held
  | .thread t => (s.threads t).held

@[simp] theorem record_threads (s : State T) (t : T) (out : Output) :
    (s.record t out).threads = s.threads := by
  cases out <;> rfl

@[simp] theorem record_protocol (s : State T) (t : T) (out : Output) :
    (s.record t out).protocol = s.protocol := by
  cases out <;> rfl

@[simp] theorem record_issued (s : State T) (t : T) (out : Output) :
    (s.record t out).issued = s.issued := by
  cases out <;> rfl

theorem record_answers (s : State T) (t : T) (out : Output) :
    (s.record t out).answers.map Answer.request = s.answers.map Answer.request ++ out.sent := by
  cases out <;> simp [State.record, Output.sent]

section
variable [DecidableEq T]

/-- A request is in one place, once; one that has not come is nowhere. -/
def Once (s : State T) : Prop :=
  ∀ id, (id < s.issued → ∃ place, ∀ q, (s.at_ q).count id = if q = place then 1 else 0) ∧
    (s.issued ≤ id → ∀ q, (s.at_ q).count id = 0)

theorem Move.held_eq {disconnected : Bool} {ts ts' : ThreadState} {role : Role} {out : Output}
    (move : Move disconnected ts role ts' out) : ts.held = out.sent ++ ts'.held := by
  cases move <;> simp_all [ThreadState.held, Pc.held, Output.sent]

theorem notified_held (ts : ThreadState) : ts.notified.held = ts.held := by
  unfold ThreadState.notified
  split
  · simp_all [ThreadState.held, Pc.held]
  · rfl

@[simp] theorem setThread_threads_self (s : State T) (t : T) (ts : ThreadState) :
    (s.setThread t ts).threads t = ts := by
  simp [State.setThread]

@[simp] theorem setThread_threads_ne (s : State T) {t u : T} (ts : ThreadState) (h : u ≠ t) :
    (s.setThread t ts).threads u = s.threads u := by
  simp [State.setThread, h]

/-- What a step does to the requests: it takes a new one, or takes some from one place to another. -/
inductive Moved (s s' : State T) : Prop where
  | came (place) : s'.issued = s.issued + 1 →
      (∀ q, s'.at_ q = s.at_ q ++ if q = place then [s.issued] else []) → Moved s s'
  | sent (place requests) : place ≠ .answered → s'.issued = s.issued →
      s.at_ place = requests ++ s'.at_ place → s'.at_ .answered = s.at_ .answered ++ requests →
      (∀ q, q ≠ place → q ≠ .answered → s'.at_ q = s.at_ q) → Moved s s'

theorem Moved.still {s s' : State T} (issued : s'.issued = s.issued)
    (same : ∀ q, s'.at_ q = s.at_ q) : Moved s s' :=
  .sent .protocol [] (by simp) issued (by simp [same]) (by simp [same]) (fun q _ _ => same q)

theorem thread_moved {s : State T} {t : T} {role : Role} {ts : ThreadState} {out : Output}
    (move : Move s.disconnected (s.threads t) role ts out) :
    Moved s ((s.record t out).setThread t ts) := by
  refine .sent (.thread t) out.sent (by simp) ?_ ?_ ?_ ?_
  · exact record_issued s t out
  · simpa [State.at_] using move.held_eq
  · exact record_answers s t out
  · intro q other notAnswered
    cases q with
    | answered => exact absurd rfl notAnswered
    | protocol => exact congrArg Protocol.held (record_protocol s t out)
    | thread u =>
      have ne : u ≠ t := fun h => other (by rw [h])
      simp [State.at_, ne]

theorem queue_moved {s : State T} {t : T} (reading : s.protocol = .reading) :
    Moved s { s.setThread t { s.threads t with
          requests := (s.threads t).requests ++ [s.issued] } with
        protocol := .notifying
        issued := s.issued + 1
        queued := s.queued ++ [(s.issued, t, (s.threads t).stops)] } := by
  refine .came (.thread t) rfl ?_
  intro q
  cases q with
  | answered => simp [State.at_, State.setThread]
  | protocol => simp [State.at_, reading, Protocol.held]
  | thread u =>
    by_cases h : u = t
    · subst h
      simp [State.at_, State.setThread, ThreadState.held]
    · simp [State.at_, State.setThread, h]

theorem order_moved {s : State T} {t : T} {r : Resume} (reading : s.protocol = .reading) :
    Moved s { s.setThread t { s.threads t with resume := r, resumeReady := true } with
        protocol := .notifying
        orders := s.orders ++ [(t, (s.threads t).stops, r)] } := by
  refine .still rfl ?_
  intro q
  cases q with
  | answered => rfl
  | protocol => simp [State.at_, reading, Protocol.held]
  | thread u =>
    by_cases h : u = t
    · subst h
      simp [State.at_, State.setThread, ThreadState.held]
    · simp [State.at_, State.setThread, h]

theorem Step.moved {a : Actor T} {s s' : State T} (step : Step a s s') : Moved s s' := by
  cases step with
  | thread t role ts out move => exact thread_moved move
  | queue t reading _ => exact queue_moved reading
  | refuse t reading _ =>
    refine .came .protocol rfl ?_
    intro q
    cases q <;> simp [State.at_, reading, Protocol.held]
  | refused request refusing =>
    refine .sent .protocol [request] (by simp) rfl ?_ ?_ ?_
    · simp [State.at_, refusing, Protocol.held]
    · simp [State.at_]
    · intro q other notAnswered
      cases q <;> simp_all [State.at_]
  | order t r reading _ => exact order_moved reading
  | orderIgnored t reading _ =>
    refine .still rfl ?_
    intro q
    cases q <;> simp [State.at_, reading, Protocol.held]
  | disconnect reading =>
    refine .still rfl ?_
    intro q
    cases q <;> simp [State.at_, reading, Protocol.held]
  | notify notifying =>
    refine .still rfl ?_
    intro q
    cases q with
    | answered => rfl
    | protocol => cases s.disconnected <;> simp [State.at_, notifying, Protocol.held]
    | thread u => exact notified_held (s.threads u)

theorem Moved.once {s s' : State T} (moved : Moved s s') (once : Once s) : Once s' := by
  intro id
  obtain ⟨issued, fresh⟩ := once id
  cases moved with
  | came place count places =>
    rw [count]
    refine ⟨fun less => ?_, fun later q => ?_⟩
    · by_cases new : id = s.issued
      · refine ⟨place, fun q => ?_⟩
        rw [places, List.count_append, fresh (by omega)]
        split <;> simp [new]
      · obtain ⟨p, at_p⟩ := issued (by omega)
        refine ⟨p, fun q => ?_⟩
        rw [places, List.count_append, at_p]
        split <;> split <;> simp [Ne.symm new]
    · rw [places, List.count_append, fresh (by omega)]
      have other : s.issued ≠ id := by omega
      split <;> simp [other]
  | sent place requests notAnswered same lost gained others =>
    rw [same]
    have lostCount := congrArg (List.count id) lost
    have gainedCount := congrArg (List.count id) gained
    rw [List.count_append] at lostCount gainedCount
    refine ⟨fun less => ?_, fun later q => ?_⟩
    · obtain ⟨p, at_p⟩ := issued less
      rw [at_p] at lostCount gainedCount
      by_cases moves : requests.count id = 0
      · refine ⟨p, fun q => ?_⟩
        by_cases h : q = place
        · subst h
          omega
        · by_cases h' : q = .answered
          · subst h'
            omega
          · rw [others q h h', at_p]
      · -- the place it leaves is the one it was in
        have home : place = p := by
          by_contra ne
          rw [if_neg ne] at lostCount
          omega
        subst home
        rw [if_pos rfl] at lostCount
        rw [if_neg (Ne.symm notAnswered)] at gainedCount
        refine ⟨.answered, fun q => ?_⟩
        by_cases h : q = place
        · subst h
          rw [if_neg notAnswered]
          omega
        · by_cases h' : q = .answered
          · subst h'
            rw [if_pos rfl]
            omega
          · rw [others q h h', at_p, if_neg h, if_neg h']
    · have absent := fresh later
      rw [absent] at lostCount gainedCount
      by_cases h : q = place
      · subst h
        omega
      · by_cases h' : q = .answered
        · subst h'
          omega
        · rw [others q h h', absent]

theorem once_of_reachable {s : State T} (reach : Reachable s) : Once s := by
  refine FairRuns.Reachable.rec_on reach ?_ ?_
  · intro id
    refine ⟨fun less => absurd less (by simp), fun _ q => ?_⟩
    cases q <;> rfl
  · intro a s s' _ once step
    exact step.moved.once once

end
end ProtoClojure.Dap.Stops
