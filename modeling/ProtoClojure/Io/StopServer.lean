import ProtoClojure.Io.ServerThreads

/-! Stopping the server: who asks the connections to stop, and who waits for their threads. -/
namespace ProtoClojure.Io

variable {K : Type}

theorem fd_same {s s' : State K} (accepted : s'.accepted = s.accepted)
    (listenFd : s'.listenFd = s.listenFd) (conn : ∀ c, (s'.conn c).fd = (s.conn c).fd)
    (d : Descriptor) (n : Nat) : s'.fd d n ↔ s.fd d n := by
  cases d <;> simp only [State.fd, accepted, listenFd, conn]

theorem isClosed_same {s s' : State K} (accepted : s'.accepted = s.accepted)
    (listenClosed : s'.listenClosed = s.listenClosed)
    (conn : ∀ c, (s'.conn c).closed = (s.conn c).closed) (d : Descriptor) :
    s'.isClosed d = s.isClosed d := by
  cases d <;> simp only [State.isClosed, accepted, listenClosed, conn]

theorem Descriptors.still {s s' : State K} (d : Descriptors s) (kernel : s'.kernel = s.kernel)
    (calls : s'.kernelCalls = s.kernelCalls) (accepted : s'.accepted = s.accepted)
    (listenFd : s'.listenFd = s.listenFd) (listenClosed : s'.listenClosed = s.listenClosed)
    (conn : ∀ c, (s'.conn c).fd = (s.conn c).fd ∧ (s'.conn c).closed = (s.conn c).closed) :
    Descriptors s' :=
  d.same kernel calls (fd_same accepted listenFd fun c => (conn c).1)
    (isClosed_same accepted listenClosed fun c => (conn c).2)

theorem Descriptors.setConn {s : State K} (d : Descriptors s) {c : Nat} {x : Connection}
    (fd : x.fd = (s.conn c).fd) (closed : x.closed = (s.conn c).closed) :
    Descriptors (s.setConn c x) := by
  refine d.still rfl rfl rfl rfl rfl (fun c' => ?_)
  rw [setConn_conn]
  split
  · rename_i same
    subst same
    exact ⟨fd, closed⟩
  · exact ⟨rfl, rfl⟩

theorem Descriptors.closeConnection {s : State K} (d : Descriptors s) {c : Nat}
    (came : c < s.accepted) : Descriptors (s.closeConnection c) := by
  have conn := closeConnection_conn s c
  unfold State.closeConnection at conn ⊢
  split
  · exact d
  · rename_i opened
    rw [if_neg opened] at conn
    have mine : s.fd (.connection c) (s.conn c).fd := ⟨came, rfl⟩
    have opened' : s.isClosed (.connection c) = false := by simp [State.isClosed, opened]
    refine d.close mine opened' rfl rfl (fd_same rfl rfl ?_) ?_
    · intro c'
      rw [conn]
      split <;> simp_all
    · intro x
      cases x with
      | listener => rfl
      | other => rfl
      | connection c' =>
        simp only [State.isClosed, conn, Descriptor.connection.injEq]
        by_cases same : c' = c
        · rw [if_pos same, if_pos same, Bool.and_true]
          exact decide_eq_true (same ▸ came)
        · rw [if_neg same, if_neg same]
          rfl

theorem Descriptors.closeListener {s : State K} (d : Descriptors s) :
    Descriptors s.closeListener := by
  unfold State.closeListener
  split
  · exact d
  · rename_i opened
    rw [Bool.not_eq_true] at opened
    have mine : s.fd .listener s.listenFd := rfl
    refine d.close mine opened rfl rfl (fd_same rfl rfl fun _ => rfl) ?_
    intro x
    cases x <;> rfl

theorem Descriptors.shutListener {s : State K} (d : Descriptors s) :
    Descriptors s.shutListener := by
  unfold State.shutListener
  split
  · exact d
  · rename_i opened
    rw [Bool.not_eq_true] at opened
    have mine : s.fd .listener s.listenFd := rfl
    exact d.shutdown mine opened rfl rfl (fd_same rfl rfl fun _ => rfl) (fun _ => rfl)

theorem Descriptors.shutConnection {s : State K} (d : Descriptors s) {c : Nat}
    (came : c < s.accepted) : Descriptors (s.shutConnection c) := by
  have conn := shutConnection_conn s c
  have fd (c' : Nat) : ((s.shutConnection c).conn c').fd = (s.conn c').fd := by
    rw [conn]
    split <;> simp_all
  have closed (c' : Nat) : ((s.shutConnection c).conn c').closed = (s.conn c').closed := by
    rw [conn]
    split <;> simp_all
  unfold State.shutConnection at fd closed ⊢
  split
  · rename_i past
    rw [if_pos past] at fd closed
    exact d.same rfl rfl (fd_same rfl rfl fd) (isClosed_same rfl rfl closed)
  · rename_i notPast
    rw [if_neg notPast] at fd closed
    have mine : s.fd (.connection c) (s.conn c).fd := ⟨came, rfl⟩
    have opened : s.isClosed (.connection c) = false := by
      rw [Connection.isPast, Bool.not_eq_true, Bool.or_eq_false_iff] at notPast
      simp [State.isClosed, notPast.1]
    exact d.shutdown mine opened rfl rfl (fd_same rfl rfl fd) (isClosed_same rfl rfl closed)

@[simp, grind =] def CallPc.stops : CallPc → Bool
  | .flagged | .sweeping _ => true
  | _ => false

@[simp, grind =] def CallPc.sweeps : CallPc → Bool
  | .sweeping _ => true
  | _ => false

@[simp, grind =] def CallPc.rest : CallPc → List Nat
  | .sweeping rest => rest
  | _ => []

/-- Where the accept thread is only once it has seen `stopping`. -/
@[simp, grind =] def AcceptPc.stops : AcceptPc → Bool
  | .leaving | .refusing _ | .marking _ | .closing | .ended => true
  | .joining _ all => all
  | _ => false

/-- One caller alone asks the connections to stop. -/
structure Calls (s : State K) : Prop where
  listed : ∀ k, ∀ c ∈ (s.call k).rest, c < s.accepted
  mutex : ∀ k, (s.call k).sweeps = true ↔ s.mutex = some k
  one : ∀ k k', (s.call k).stops = true → (s.call k').stops = true → k = k'
  unswept : ∀ k, (s.call k).stops = true → s.stopping = true ∧ s.swept = false
  sweptLast : s.swept = true → s.stopping = true
  who : s.stopping = true → s.swept = true ∨ ∃ k, (s.call k).stops = true
  accept : s.accept.stops = true → s.stopping = true

theorem Calls.same {s s' : State K} (h : Calls s) (call : s'.call = s.call)
    (accepted : s.accepted ≤ s'.accepted) (mutex : s'.mutex = s.mutex)
    (stopping : s'.stopping = s.stopping) (swept : s'.swept = s.swept)
    (accept : s'.accept.stops = true → s.stopping = true) : Calls s' := by
  obtain ⟨listed, mutex', one, unswept, sweptLast, who, _⟩ := h
  refine ⟨?_, ?_, ?_, ?_, ?_, ?_, ?_⟩ <;> simp only [call, mutex, stopping, swept] <;> try assumption
  exact fun k c there => Nat.lt_of_lt_of_le (listed k c there) accepted

section
variable [DecidableEq K]

theorem Step.descriptors {a : Label K} {s s' : State K} (step : Step a s s') (t : Threads s)
    (listed : ∀ k c rest, s.call k = .sweeping (c :: rest) → c < s.accepted) (d : Descriptors s) :
    Descriptors s' := by
  cases step with
  | look _ | collect _ _ | join _ _ _ _ _ | joinedThem _ _ | acceptFails _ | acceptsNothing _
    | failed _ | push _ _ _ | check _ _ | takeAll _ _ | begin_ _ _ _ | unlock _ _
    | handlerReturns _ _ | joinedAlready _ _ _ | joinAccept _ _ _ | joinReturns _ _ _ =>
    exact d.still rfl rfl rfl rfl rfl (fun _ => ⟨rfl, rfl⟩)
  | accepts fd at_ free =>
    refine d.accepts free rfl rfl ?_ ?_
    · intro x m
      cases x with
      | listener => simp [State.fd, State.setConn]
      | other => simp [State.fd]
      | connection c =>
        by_cases new : c = s.accepted
        · simp [State.fd, new]
        · have older : c < s.accepted + 1 ↔ c < s.accepted := by omega
          simp [State.fd, new, older]
    · intro x
      cases x with
      | listener => rfl
      | other => rfl
      | connection c =>
        by_cases new : c = s.accepted
        · simp [State.isClosed, new]
        · have older : c < s.accepted + 1 ↔ c < s.accepted := by omega
          simp [State.isClosed, new, older]
  | start c at_ =>
    have set : Descriptors (s.setConn c { s.conn c with phase := .reading }) := d.setConn rfl rfl
    exact set.still rfl rfl rfl rfl rfl (fun _ => ⟨rfl, rfl⟩)
  | mark c at_ =>
    have set : Descriptors (s.setConn c { s.conn c with done := true }) := d.setConn rfl rfl
    exact set.still rfl rfl rfl rfl rfl (fun _ => ⟨rfl, rfl⟩)
  | serve c x move => exact d.setConn (move_kept move).1 (move_kept move).2
  | refuse c at_ =>
    have came := (t.held c (by simp [at_])).1
    exact (d.closeConnection came).still rfl rfl rfl rfl rfl (fun _ => ⟨rfl, rfl⟩)
  | closes c at_ =>
    have came := t.started c (by simp [at_])
    exact (d.closeConnection came).setConn rfl rfl
  | close at_ free => exact d.closeListener.still rfl rfl rfl rfl rfl (fun _ => ⟨rfl, rfl⟩)
  | lock k flagged free =>
    rw [shutListener_eq]
    have shut := d.shutListener
    rw [shutListener_eq] at shut
    exact shut.still rfl rfl rfl rfl rfl (fun _ => ⟨rfl, rfl⟩)
  | sweep k c rest at_ =>
    have came := listed k c rest at_
    exact (d.shutConnection came).still rfl rfl rfl rfl rfl (fun _ => ⟨rfl, rfl⟩)
  | otherOpens fd free => exact d.elsewhere (.inl free) (.inr rfl)
  | otherCloses fd other => exact d.elsewhere (.inr other) (.inl rfl)

@[simp, grind =] theorem setCall_call (s : State K) (k k' : Caller K) (pc : CallPc) :
    (s.setCall k pc).call k' = if k' = k then pc else s.call k' := by
  simp [State.setCall, Function.update_apply]

theorem CallPc.quiet {pc : CallPc} (quiet : pc.stops = false) :
    pc.sweeps = false ∧ pc.rest = [] := by
  cases pc <;> simp_all

/-- A call goes on outside `requestStop`. -/
theorem Calls.goes {s s' : State K} (h : Calls s) {k : Caller K} {pc : CallPc}
    (before : (s.call k).stops = false) (after : pc.stops = false)
    (call : ∀ k', s'.call k' = if k' = k then pc else s.call k')
    (accepted : s'.accepted = s.accepted) (mutex : s'.mutex = s.mutex)
    (stopping : s'.stopping = s.stopping) (swept : s'.swept = s.swept)
    (accept : s'.accept = s.accept) : Calls s' := by
  obtain ⟨listed, mutex', one, unswept, sweptLast, who, acceptStops⟩ := h
  have stops (k' : Caller K) : (s'.call k').stops = (s.call k').stops := by
    rw [call]
    split
    · rename_i same
      rw [same, before, after]
    · rfl
  have sweeps (k' : Caller K) : (s'.call k').sweeps = (s.call k').sweeps := by
    rw [call]
    split
    · rename_i same
      rw [same, (CallPc.quiet before).1, (CallPc.quiet after).1]
    · rfl
  have rest (k' : Caller K) : (s'.call k').rest = (s.call k').rest := by
    rw [call]
    split
    · rename_i same
      rw [same, (CallPc.quiet before).2, (CallPc.quiet after).2]
    · rfl
  refine ⟨?_, ?_, ?_, ?_, ?_, ?_, ?_⟩ <;>
    simpa only [stops, sweeps, rest, accepted, mutex, stopping, swept, accept]

/-- The first call is alone in having set `stopping`. -/
theorem Calls.flags {s : State K} (h : Calls s) {k : Caller K} (stopping : s.stopping = false)
    (before : (s.call k).stops = false) :
    Calls { s.setCall k .flagged with stopping := true } := by
  have none (k' : Caller K) : (s.call k').stops = false := by
    by_contra stops
    rw [Bool.not_eq_false] at stops
    exact absurd ((h.unswept k' stops).1.symm.trans stopping) (by simp)
  have call (k' : Caller K) : (s.setCall k .flagged).call k' = if k' = k then .flagged else s.call k' :=
    setCall_call s k k' _
  have stops (k' : Caller K) : ((s.setCall k .flagged).call k').stops = true ↔ k' = k := by
    rw [call]
    split <;> simp_all
  have sweeps (k' : Caller K) :
      ((s.setCall k .flagged).call k').sweeps = (s.call k').sweeps := by
    rw [call]
    split
    · rename_i same
      rw [same, (CallPc.quiet before).1]
      rfl
    · rfl
  have rest (k' : Caller K) : ((s.setCall k .flagged).call k').rest = (s.call k').rest := by
    rw [call]
    split
    · rename_i same
      rw [same, (CallPc.quiet before).2]
      rfl
    · rfl
  have unswept : s.swept = false := by
    by_contra swept
    rw [Bool.not_eq_false] at swept
    exact absurd ((h.sweptLast swept).symm.trans stopping) (by simp)
  refine ⟨?_, ?_, ?_, ?_, fun _ => rfl, fun _ => .inr ⟨k, (stops k).2 rfl⟩, fun _ => rfl⟩
  · intro k'
    rw [rest]
    exact h.listed k'
  · intro k'
    rw [sweeps]
    exact h.mutex k'
  · intro k' k'' stops' stops''
    exact ((stops k').1 stops').trans ((stops k'').1 stops'').symm
  · exact fun _ _ => ⟨rfl, unswept⟩

/-- A call is in the block of `requestStop`. -/
theorem Calls.sweeping {s s' : State K} (h : Calls s) {k : Caller K} {rest : List Nat}
    (before : (s.call k).stops = true) (free : s.mutex = none ∨ s.mutex = some k)
    (listed : ∀ c ∈ rest, c < s.accepted)
    (call : ∀ k', s'.call k' = if k' = k then .sweeping rest else s.call k')
    (mutex : s'.mutex = some k) (accepted : s'.accepted = s.accepted)
    (stopping : s'.stopping = s.stopping) (swept : s'.swept = s.swept)
    (accept : s'.accept = s.accept) : Calls s' := by
  have stops (k' : Caller K) : (s'.call k').stops = (s.call k').stops := by
    rw [call]
    split
    · rename_i same
      rw [same, before]
      rfl
    · rfl
  obtain ⟨listed', mutex', one, unswept, sweptLast, who, acceptStops⟩ := h
  refine ⟨?_, ?_, ?_, ?_, ?_, ?_, ?_⟩
  · intro k' c there
    rw [call] at there
    rw [accepted]
    by_cases same : k' = k
    · rw [if_pos same] at there
      exact listed c there
    · rw [if_neg same] at there
      exact listed' k' c there
  · intro k'
    rw [mutex, call]
    by_cases same : k' = k
    · simp [same]
    · rw [if_neg same, mutex']
      rcases free with free | free <;> simp [free, Ne.symm same]
  · simpa only [stops] using one
  · simpa only [stops, stopping, swept] using unswept
  · simpa only [stopping, swept] using sweptLast
  · simpa only [stops, stopping, swept] using who
  · simpa only [stopping, accept] using acceptStops

theorem Step.calls {a : Label K} {s s' : State K} (step : Step a s s') (t : Threads s)
    (h : Calls s) : Calls s' := by
  cases step with
  | look at_ | failed at_ | check c at_ =>
    refine h.same rfl (Nat.le_refl _) rfl rfl rfl ?_
    cases s.stopping <;> simp
  | collect at_ _ | acceptFails at_ | acceptsNothing at_ | start c at_ | push c at_ free =>
    exact h.same rfl (Nat.le_refl _) rfl rfl rfl (by simp)
  | join c rest all at_ ended_ =>
    exact h.same rfl (Nat.le_refl _) rfl rfl rfl (fun all' => h.accept (by rw [at_]; exact all'))
  | joinedThem all at_ =>
    refine h.same rfl (Nat.le_refl _) rfl rfl rfl (fun all' => h.accept ?_)
    cases all <;> simp_all
  | accepts fd at_ free => exact h.same rfl (Nat.le_succ _) rfl rfl rfl (by simp)
  | mark c at_ | takeAll at_ free =>
    exact h.same rfl (Nat.le_refl _) rfl rfl rfl (fun _ => h.accept (by rw [at_]; rfl))
  | refuse c at_ =>
    rw [closeConnection_eq]
    exact h.same rfl (Nat.le_refl _) rfl rfl rfl (fun _ => h.accept (by rw [at_]; rfl))
  | close at_ free =>
    rw [closeListener_eq]
    exact h.same rfl (Nat.le_refl _) rfl rfl rfl (fun _ => h.accept (by rw [at_]; rfl))
  | closes c at_ =>
    rw [closeConnection_eq]
    exact h.same rfl (Nat.le_refl _) rfl rfl rfl h.accept
  | serve _ _ _ | otherOpens _ _ | otherCloses _ _ =>
    exact h.same rfl (Nat.le_refl _) rfl rfl rfl h.accept
  | begin_ k idle handling =>
    have before : (s.call k).stops = false := by rw [idle]; rfl
    cases stopping : s.stopping with
    | true => exact h.goes before rfl (fun k' => setCall_call s k k' _) rfl rfl stopping.symm rfl rfl
    | false => exact h.flags stopping before
  | lock k flagged free =>
    rw [shutListener_eq]
    exact h.sweeping (by rw [flagged]; rfl) (.inl free) t.listed (fun k' => setCall_call s k k' _)
      rfl rfl rfl rfl rfl
  | sweep k c rest at_ =>
    rw [shutConnection_eq]
    have mine : s.mutex = some k := (h.mutex k).1 (by rw [at_]; rfl)
    have listed (c' : Nat) (there : c' ∈ rest) : c' < s.accepted :=
      h.listed k c' (by rw [at_]; exact List.mem_cons_of_mem _ there)
    exact h.sweeping (by rw [at_]; rfl) (.inr mine) listed (fun k' => setCall_call s k k' _)
      mine rfl rfl rfl rfl
  | unlock k at_ =>
    obtain ⟨listed, mutex', one, unswept, sweptLast, who, accept⟩ := h
    refine ⟨?_, ?_, ?_, ?_, ?_, ?_, ?_⟩ <;> grind [State.setCall]
  | handlerReturns c at_ =>
    exact h.goes (by rw [at_]; rfl) rfl (fun k' => setCall_call s _ k' .idle) rfl rfl rfl rfl rfl
  | joinedAlready k at_ joined | joinReturns k at_ ended =>
    exact h.goes (by rw [at_]; rfl) rfl (fun k' => setCall_call s _ k' .idle) rfl rfl rfl rfl rfl
  | joinAccept k at_ notJoined =>
    exact h.goes (by rw [at_]; rfl) rfl (fun k' => setCall_call s _ k' .joining) rfl rfl rfl rfl rfl

end
end ProtoClojure.Io
