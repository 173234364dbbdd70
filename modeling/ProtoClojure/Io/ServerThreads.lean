import ProtoClojure.Io.Descriptors

/-! The accept thread keeps every connection in hand until its thread has ended. -/
namespace ProtoClojure.Io

variable {K : Type}

@[simp, grind =] theorem setConn_conn (s : State K) (c c' : Nat) (x : Connection) :
    (s.setConn c x).conn c' = if c' = c then x else s.conn c' := by
  simp [State.setConn, Function.update_apply]

theorem closeConnection_conn (s : State K) (c c' : Nat) :
    (s.closeConnection c).conn c' =
      if c' = c then { s.conn c with closed := true } else s.conn c' := by
  unfold State.closeConnection
  split
  · rename_i closed
    split
    · rename_i same
      subst same
      rw [← closed]
    · rfl
  · exact setConn_conn s c c' _

theorem closeConnection_eq (s : State K) (c : Nat) : s.closeConnection c = { s with
    conn := (s.closeConnection c).conn
    kernel := (s.closeConnection c).kernel
    kernelCalls := (s.closeConnection c).kernelCalls } := by
  unfold State.closeConnection
  split <;> rfl

theorem closeListener_eq (s : State K) : s.closeListener = { s with
    listenClosed := true
    kernel := s.closeListener.kernel
    kernelCalls := s.closeListener.kernelCalls } := by
  unfold State.closeListener
  split
  · rename_i closed
    rw [← closed]
  · rfl

theorem shutListener_eq (s : State K) :
    s.shutListener = { s with kernelCalls := s.shutListener.kernelCalls } := by
  unfold State.shutListener
  split <;> rfl

theorem shutConnection_eq (s : State K) (c : Nat) : s.shutConnection c = { s with
    conn := (s.shutConnection c).conn
    kernelCalls := (s.shutConnection c).kernelCalls } := by
  unfold State.shutConnection
  split <;> rfl

theorem shutConnection_conn (s : State K) (c c' : Nat) :
    (s.shutConnection c).conn c' =
      if c' = c then
        { s.conn c with
          found := (s.conn c).found || (s.conn c).isPast
          shut := (s.conn c).shut || !(s.conn c).isPast }
      else s.conn c' := by
  unfold State.shutConnection
  split
  · rename_i past
    simp [past]
  · rename_i notPast
    rw [Bool.not_eq_true] at notPast
    show (s.setConn c _).conn c' = _
    simp [notPast]

/-- The connections whose thread the accept thread has yet to start or to refuse. -/
@[simp, grind =] def AcceptPc.holds : AcceptPc → List Nat
  | .pushing c | .checking c | .starting c | .refusing c => [c]
  | _ => []

/-- The connections it is joining. -/
@[simp, grind =] def AcceptPc.joins : AcceptPc → List Nat
  | .joining rest _ => rest
  | _ => []

/-- It has taken all connections. -/
@[simp, grind =] def AcceptPc.tookAll : AcceptPc → Bool
  | .joining _ all => all
  | .closing | .ended => true
  | _ => false

@[simp, grind =] def AcceptPc.admits : AcceptPc → List Nat
  | .checking c | .starting c => [c]
  | _ => []

@[simp, grind =] def AcceptPc.marks : AcceptPc → List Nat
  | .marking c => [c]
  | _ => []

@[simp, grind =] def Phase.closed : Phase → Bool
  | .finishing | .returning | .ended => true
  | _ => false

structure Threads (s : State K) : Prop where
  started : ∀ c, (s.conn c).phase ≠ .unstarted → c < s.accepted
  listed : ∀ c ∈ s.connections, c < s.accepted
  held : ∀ c ∈ s.accept.holds, c < s.accepted ∧ (s.conn c).phase = .unstarted
  unstarted : ∀ c, c < s.accepted → (s.conn c).phase = .unstarted →
    (s.conn c).closed = true ∨ c ∈ s.accept.holds
  admitted : ∀ c ∈ s.accept.admits, c ∈ s.connections
  tracked : ∀ c, (s.conn c).phase = .unstarted ∨ (s.conn c).phase = .ended ∨
    c ∈ s.connections ∨ c ∈ s.accept.joins
  closed : ∀ c, (s.conn c).phase.closed = true ∨ (s.conn c).done = true ∨ c ∈ s.accept.marks →
    (s.conn c).closed = true
  emptied : s.accept.tookAll = true → s.connections = []
  listener : s.listenClosed = true ↔ s.accept = .ended

/-- What only some steps change. -/
theorem Threads.same {s s' : State K} (t : Threads s) (accepted : s'.accepted = s.accepted)
    (connections : s'.connections = s.connections) (accept : s'.accept = s.accept)
    (listenClosed : s'.listenClosed = s.listenClosed)
    (phase : ∀ c, (s'.conn c).phase = (s.conn c).phase)
    (closed : ∀ c, (s'.conn c).closed = (s.conn c).closed)
    (done : ∀ c, (s'.conn c).done = (s.conn c).done) : Threads s' := by
  obtain ⟨started, listed, held, unstarted, admitted, tracked, closed_, emptied, listener⟩ := t
  refine ⟨?_, ?_, ?_, ?_, ?_, ?_, ?_, ?_, ?_⟩ <;>
    simpa only [accepted, connections, accept, listenClosed, phase, closed, done]

theorem move_phase {x x' : Connection} {calling : Bool} (move : x.Move calling x') :
    x.phase ≠ .unstarted ∧ x.phase ≠ .ended ∧ x.phase ≠ .closing ∧ x'.phase ≠ .unstarted := by
  cases move with
  | past outcome there => cases outcome <;> simp [there, Outcome.next]
  | read _ there | readThrows there | refused there | handled there _ | handlerThrows there _
    | written there | finish there | ends there => simp [there]

theorem move_kept {x x' : Connection} {calling : Bool} (move : x.Move calling x') :
    x'.fd = x.fd ∧ x'.closed = x.closed := by
  cases move <;> exact ⟨rfl, rfl⟩

theorem move_closed {x x' : Connection} {calling : Bool} (move : x.Move calling x')
    (marked : x'.phase.closed = true ∨ x'.done = true) :
    x.phase.closed = true ∨ x.done = true := by
  cases move with
  | past outcome there => cases outcome <;> simpa [Outcome.next, Phase.closed, there] using marked
  | finish there | ends there => simp [Phase.closed, there]
  | read _ there | readThrows there | refused there | handled there _ | handlerThrows there _
    | written there => simpa [Phase.closed, there] using marked

theorem serve_threads {s : State K} {c : Nat} {x : Connection} {calling : Bool} (t : Threads s)
    (move : (s.conn c).Move calling x) : Threads (s.setConn c x) := by
  obtain ⟨started, listed, held, unstarted, admitted, tracked, closed, emptied, listener⟩ := t
  have phase := move_phase move
  have kept := move_kept move
  have marked := move_closed move
  refine ⟨?_, listed, ?_, ?_, admitted, ?_, ?_, emptied, listener⟩ <;> intro c' <;>
    grind [State.setConn]

/-- The accept thread goes on by itself. -/
theorem Threads.goes {s : State K} (t : Threads s) {pc : AcceptPc} (holds : pc.holds = s.accept.holds)
    (admits : pc.admits ⊆ s.accept.admits) (marks : pc.marks = [])
    (joins : ∀ c ∈ s.accept.joins, c ∈ pc.joins ∨ (s.conn c).threadEnded = true)
    (tookAll : pc.tookAll = s.accept.tookAll) (going : s.accept ≠ .ended) (going' : pc ≠ .ended) :
    Threads { s with accept := pc } := by
  obtain ⟨started, listed, held, unstarted, admitted, tracked, closed, emptied, listener⟩ := t
  refine ⟨started, listed, ?_, ?_, ?_, ?_, ?_, ?_, ?_⟩
  · simpa only [holds] using held
  · simpa only [holds] using unstarted
  · exact fun c there => admitted c (admits there)
  · intro c
    obtain un | ended_ | listed' | joined := tracked c
    · exact .inl un
    · exact .inr (.inl ended_)
    · exact .inr (.inr (.inl listed'))
    · obtain still | ended_ := joins c joined
      · exact .inr (.inr (.inr still))
      · simp only [Connection.threadEnded, Bool.or_eq_true, decide_eq_true_eq] at ended_
        exact ended_.imp_right .inl
  · intro c marked
    simp only [marks, List.not_mem_nil, or_false] at marked
    exact closed c (by rw [← or_assoc]; exact .inl marked)
  · simpa only [tookAll] using emptied
  · simpa only [listener, going', iff_false] using going

theorem collect_threads {s : State K} (t : Threads s) (at_ : s.accept = .collecting) :
    Threads { s with
      accept := .joining (s.connections.filter fun c => (s.conn c).done) false
      connections := s.connections.filter fun c => !(s.conn c).done } := by
  obtain ⟨started, listed, held, unstarted, admitted, tracked, closed, emptied, listener⟩ := t
  refine ⟨?_, ?_, ?_, ?_, ?_, ?_, ?_, ?_, ?_⟩ <;> grind

theorem accepts_threads {s : State K} (t : Threads s) (at_ : s.accept = .accepting) (fd : Nat)
    (kernel : Nat → Option Descriptor) :
    Threads { s.setConn s.accepted { fd := fd } with
      accept := .pushing s.accepted, accepted := s.accepted + 1, kernel := kernel } := by
  obtain ⟨started, listed, held, unstarted, admitted, tracked, closed, emptied, listener⟩ := t
  refine ⟨?_, ?_, ?_, ?_, ?_, ?_, ?_, ?_, ?_⟩ <;> grind [State.setConn]

theorem push_threads {s : State K} (t : Threads s) {c : Nat} (at_ : s.accept = .pushing c) :
    Threads { s with accept := .checking c, connections := s.connections ++ [c] } := by
  obtain ⟨started, listed, held, unstarted, admitted, tracked, closed, emptied, listener⟩ := t
  refine ⟨?_, ?_, ?_, ?_, ?_, ?_, ?_, ?_, ?_⟩ <;> grind

theorem start_threads {s : State K} (t : Threads s) {c : Nat} (at_ : s.accept = .starting c) :
    Threads { s.setConn c { s.conn c with phase := .reading } with accept := .looking } := by
  obtain ⟨started, listed, held, unstarted, admitted, tracked, closed, emptied, listener⟩ := t
  refine ⟨?_, ?_, ?_, ?_, ?_, ?_, ?_, ?_, ?_⟩ <;> grind [State.setConn]

theorem refuse_threads {s : State K} (t : Threads s) {c : Nat} (at_ : s.accept = .refusing c) :
    Threads { s.closeConnection c with accept := .marking c } := by
  have conn := closeConnection_conn s c
  rw [closeConnection_eq]
  obtain ⟨started, listed, held, unstarted, admitted, tracked, closed, emptied, listener⟩ := t
  refine ⟨?_, ?_, ?_, ?_, ?_, ?_, ?_, ?_, ?_⟩ <;> grind

theorem mark_threads {s : State K} (t : Threads s) {c : Nat} (at_ : s.accept = .marking c) :
    Threads { s.setConn c { s.conn c with done := true } with accept := .leaving } := by
  obtain ⟨started, listed, held, unstarted, admitted, tracked, closed, emptied, listener⟩ := t
  refine ⟨?_, ?_, ?_, ?_, ?_, ?_, ?_, ?_, ?_⟩ <;> grind [State.setConn]

theorem takeAll_threads {s : State K} (t : Threads s) (at_ : s.accept = .leaving) :
    Threads { s with accept := .joining s.connections true, connections := [] } := by
  obtain ⟨started, listed, held, unstarted, admitted, tracked, closed, emptied, listener⟩ := t
  refine ⟨?_, ?_, ?_, ?_, ?_, ?_, ?_, ?_, ?_⟩ <;> grind

theorem close_threads {s : State K} (t : Threads s) (at_ : s.accept = .closing) :
    Threads { s.closeListener with accept := .ended } := by
  rw [closeListener_eq]
  obtain ⟨started, listed, held, unstarted, admitted, tracked, closed, emptied, listener⟩ := t
  refine ⟨?_, ?_, ?_, ?_, ?_, ?_, ?_, ?_, ?_⟩ <;> grind

theorem closes_threads {s : State K} (t : Threads s) {c : Nat}
    (at_ : (s.conn c).phase = .closing) :
    Threads ((s.closeConnection c).setConn c
      { (s.closeConnection c).conn c with phase := .finishing }) := by
  have conn := closeConnection_conn s c
  rw [closeConnection_eq]
  obtain ⟨started, listed, held, unstarted, admitted, tracked, closed, emptied, listener⟩ := t
  refine ⟨?_, ?_, ?_, ?_, ?_, ?_, ?_, ?_, ?_⟩ <;> grind [State.setConn]

section
variable [DecidableEq K]

theorem Step.threads {a : Label K} {s s' : State K} (step : Step a s s') (t : Threads s) :
    Threads s' := by
  cases step with
  | look at_ | failed at_ | check c at_ =>
    refine t.goes ?_ ?_ ?_ ?_ ?_ ?_ ?_ <;> cases s.stopping <;> simp [at_]
  | joinedThem all at_ => refine t.goes ?_ ?_ ?_ ?_ ?_ ?_ ?_ <;> cases all <;> simp [at_]
  | acceptFails at_ | acceptsNothing at_ => refine t.goes ?_ ?_ ?_ ?_ ?_ ?_ ?_ <;> simp [at_]
  | join c rest all at_ ended_ =>
    refine t.goes ?_ ?_ ?_ ?_ ?_ ?_ ?_ <;> simp [at_, ended_]
    exact fun c there => .inl there
  | collect at_ free => exact collect_threads t at_
  | accepts fd at_ free => exact accepts_threads t at_ fd _
  | push c at_ free => exact push_threads t at_
  | start c at_ => exact start_threads t at_
  | refuse c at_ => exact refuse_threads t at_
  | mark c at_ => exact mark_threads t at_
  | takeAll at_ free => exact takeAll_threads t at_
  | close at_ free => exact close_threads t at_
  | serve c x move => exact serve_threads t move
  | closes c at_ => exact closes_threads t at_
  | lock k flagged free =>
    rw [shutListener_eq]
    exact t.same rfl rfl rfl rfl (fun _ => rfl) (fun _ => rfl) (fun _ => rfl)
  | sweep k c rest at_ =>
    have conn := shutConnection_conn s c
    rw [shutConnection_eq]
    refine t.same rfl rfl rfl rfl ?_ ?_ ?_ <;> intro c' <;>
      simp only [State.setCall, conn] <;> split <;> simp_all
  | begin_ _ _ _ | unlock _ _ | handlerReturns _ _ | joinedAlready _ _ _ | joinAccept _ _ _
    | joinReturns _ _ _ | otherOpens _ _ | otherCloses _ _ =>
    exact t.same rfl rfl rfl rfl (fun _ => rfl) (fun _ => rfl) (fun _ => rfl)

end

end ProtoClojure.Io
