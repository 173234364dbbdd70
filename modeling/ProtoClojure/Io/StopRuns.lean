import ProtoClojure.Io.StopServer

/-! Runs of the server up to its stop: which of its connections `requestStop` meets, and what a call
of `stopServer` may return to. -/
namespace ProtoClojure.Io

variable {K : Type}

def Connection.met (x : Connection) : Bool := x.shut || x.found

/-- Its thread runs, or the accept thread is about to start it. -/
def State.served (s : State K) (c : Nat) : Prop :=
  (s.conn c).phase ≠ .unstarted ∨ s.accept = .starting c

structure Meets (s : State K) : Prop where
  before : s.swept = false → s.mutex = none →
    ∀ c, s.served c → c ∈ s.connections ∨ (s.conn c).isPast = true
  during : ∀ k, (s.call k).sweeps = true →
    ∀ c, s.served c → (s.conn c).met = true ∨ c ∈ (s.call k).rest
  after : s.swept = true → ∀ c, s.served c → (s.conn c).met = true

theorem Meets.same {s s' : State K} (m : Meets s) (swept : s'.swept = s.swept)
    (mutex : s'.mutex = s.mutex) (call : ∀ k, (s'.call k).sweeps = (s.call k).sweeps)
    (rest : ∀ k, (s'.call k).rest = (s.call k).rest)
    (served : ∀ c, s'.served c → s.served c)
    (listed : ∀ c, c ∈ s.connections → c ∈ s'.connections ∨ (s.conn c).isPast = true)
    (past : ∀ c, s.served c → (s.conn c).isPast = true → (s'.conn c).isPast = true)
    (met : ∀ c, s.served c → (s.conn c).met = true → (s'.conn c).met = true) : Meets s' where
  before := by
    intro unswept free c serves
    have serves' := served c serves
    rw [swept] at unswept
    rw [mutex] at free
    obtain there | gone := m.before unswept free c serves'
    · exact (listed c there).imp_right (past c serves')
    · exact .inr (past c serves' gone)
  during := by
    intro k sweeps c serves
    rw [call] at sweeps
    rw [rest]
    exact (m.during k sweeps c (served c serves)).imp_left (met c (served c serves))
  after := by
    intro past c serves
    rw [swept] at past
    exact met c (served c serves) (m.after past c (served c serves))

theorem move_past {x x' : Connection} {calling : Bool} (move : x.Move calling x') :
    (x.isPast = true → x'.isPast = true) ∧ x'.met = x.met := by
  cases move <;> simp_all [Connection.isPast, Connection.met]

/-- A connection changes and goes on being past reading or met. -/
theorem Meets.sets {s s' : State K} (m : Meets s) (swept : s'.swept = s.swept)
    (mutex : s'.mutex = s.mutex) (call : s'.call = s.call)
    (connections : s'.connections = s.connections) (served : ∀ c, s'.served c → s.served c)
    (conn : ∀ c, s.served c →
      ((s.conn c).isPast = true → (s'.conn c).isPast = true) ∧ (s'.conn c).met = (s.conn c).met) :
    Meets s' := by
  refine m.same swept mutex (fun k => by rw [call]) (fun k => by rw [call]) served
    (fun c there => .inl (by rwa [connections])) (fun c serves => (conn c serves).1) ?_
  intro c serves met
  rw [(conn c serves).2]
  exact met

theorem Meets.still {s s' : State K} (m : Meets s) (swept : s'.swept = s.swept)
    (mutex : s'.mutex = s.mutex) (call : s'.call = s.call) (conn : s'.conn = s.conn)
    (connections : s'.connections = s.connections)
    (accept : ∀ c, s'.accept = .starting c → s.accept = .starting c) : Meets s' := by
  refine m.sets swept mutex call connections ?_ (fun c _ => by rw [conn]; exact ⟨id, rfl⟩)
  intro c
  simp only [State.served, conn]
  exact Or.imp_right (accept c)

theorem Meets.setConn {s s' : State K} (m : Meets s) {c : Nat} {x : Connection}
    (conn : ∀ c', s'.conn c' = if c' = c then x else s.conn c')
    (phase : x.phase ≠ .unstarted → s.served c)
    (past : (s.conn c).isPast = true → x.isPast = true) (met : x.met = (s.conn c).met)
    (swept : s'.swept = s.swept) (mutex : s'.mutex = s.mutex) (call : s'.call = s.call)
    (connections : s'.connections = s.connections)
    (accept : ∀ c, s'.accept = .starting c → s.accept = .starting c) : Meets s' := by
  refine m.sets swept mutex call connections ?_ ?_
  · intro c' serves
    obtain started | starting := serves
    · rw [conn] at started
      split at started
      · rename_i same
        rw [same]
        exact phase started
      · exact .inl started
    · exact .inr (accept c' starting)
  · intro c' _
    rw [conn]
    split
    · rename_i same
      rw [same]
      exact ⟨past, met⟩
    · exact ⟨id, rfl⟩

/-- The connection is in the list when its thread is to be started. -/
theorem check_meets {s : State K} (t : Threads s) (h : Calls s) (m : Meets s) {c : Nat}
    (at_ : s.accept = .checking c) (stopping : s.stopping = false) :
    Meets { s with accept := .starting c } := by
  have unswept : s.swept = false := by
    by_contra swept
    rw [Bool.not_eq_false] at swept
    exact absurd ((h.sweptLast swept).symm.trans stopping) (by simp)
  have none (k : Caller K) : (s.call k).stops = false := by
    by_contra stops
    rw [Bool.not_eq_false] at stops
    exact absurd ((h.unswept k stops).1.symm.trans stopping) (by simp)
  refine ⟨?_, ?_, fun swept => absurd (unswept.symm.trans swept) (by simp)⟩
  · intro _ free c' serves
    obtain started | starting := serves
    · exact m.before unswept free c' (.inl started)
    · left
      apply t.admitted
      rw [at_]
      simpa using (AcceptPc.starting.inj starting).symm
  · exact fun k sweeps => absurd ((CallPc.quiet (none k)).1.symm.trans sweeps) (by simp)

theorem start_descriptors (listenFd : Nat) (others : Nat → Bool) :
    Descriptors (State.start listenFd others : State K) := by
  refine ⟨?_, ?_, by simp [State.start], ?_⟩
  · intro d n mine opened
    cases d with
    | listener => exact if_pos mine
    | connection c => exact absurd mine.1 (by simp [State.start])
    | other => exact mine.elim
  · intro d n notOther stands
    simp only [State.start] at stands
    split at stands
    · rename_i same
      cases stands
      exact ⟨same, rfl⟩
    · split at stands
      · exact absurd (Option.some.inj stands).symm notOther
      · exact absurd stands (by simp)
  · intro d
    cases d <;> rfl

theorem ended_threads {s : State K} (t : Threads s) (ended : s.accept = .ended) :
    s.threadsEnded = true := by
  have none := t.emptied (by rw [ended]; rfl)
  simp only [State.threadsEnded, ended, decide_true, Bool.true_and, List.all_eq_true]
  intro c _
  obtain unstarted | ended_ | listed | joined := t.tracked c
  · simp [Connection.threadEnded, unstarted]
  · simp [Connection.threadEnded, ended_]
  · simp [none] at listed
  · simp [ended] at joined

/-- What is done with is closed, once. -/
def ClosedByTheEnd (s : State K) : Prop :=
  (∀ c, (s.conn c).phase.closed = true → s.closes (.connection c) = 1) ∧
    (s.accept = .ended →
      s.closes .listener = 1 ∧ ∀ c, c < s.accepted → s.closes (.connection c) = 1)

theorem closed_by_the_end {s : State K} (t : Threads s) (d : Descriptors s) : ClosedByTheEnd s := by
  have closes (c : Nat) (came : c < s.accepted) (closed : (s.conn c).closed = true) :
      s.closes (.connection c) = 1 := by
    rw [d.closedOnce]
    simp [State.isClosed, came, closed]
  refine ⟨fun c ended_ => ?_, fun ended => ⟨?_, fun c came => ?_⟩⟩
  · have started : (s.conn c).phase ≠ .unstarted := by
      intro unstarted
      simp [unstarted] at ended_
    exact closes c (t.started c started) (t.closed c (.inl ended_))
  · rw [d.closedOnce]
    simp [State.isClosed, t.listener.2 ended]
  · have none := t.emptied (by rw [ended]; rfl)
    refine closes c came ?_
    obtain unstarted | ended_ | listed | joined := t.tracked c
    · exact (t.unstarted c came unstarted).resolve_right (by simp [ended])
    · exact t.closed c (.inl (by simp [ended_]))
    · simp [none] at listed
    · simp [ended] at joined

/-- Once `requestStop` is through, it has shut each served connection down or found it past
reading. -/
def StopMet (s : State K) : Prop :=
  s.swept = true → ∀ c, (s.conn c).phase ≠ .unstarted → (s.conn c).met = true

/-- No outside call has returned before the threads ended. -/
def ReturnsLate (s : State K) : Prop := ∀ ended ∈ s.returns, ended = true

section
variable [DecidableEq K]

/-- A call goes on outside the block of `requestStop`. -/
theorem Meets.goes {s s' : State K} (m : Meets s) {k : Caller K} {pc : CallPc}
    (before : (s.call k).stops = false) (after : pc.sweeps = false ∧ pc.rest = [])
    (call : ∀ k', s'.call k' = if k' = k then pc else s.call k')
    (swept : s'.swept = s.swept) (mutex : s'.mutex = s.mutex) (conn : s'.conn = s.conn)
    (connections : s'.connections = s.connections) (accept : s'.accept = s.accept) : Meets s' := by
  have quiet := CallPc.quiet before
  refine m.same swept mutex ?_ ?_ ?_ (fun c there => .inl (by rwa [connections]))
    (fun c _ => by rw [conn]; exact id) (fun c _ => by rw [conn]; exact id)
  · intro k'
    rw [call]
    split
    · rename_i same
      rw [same, after.1, quiet.1]
    · rfl
  · intro k'
    rw [call]
    split
    · rename_i same
      rw [same, after.2, quiet.2]
    · rfl
  · intro c
    simp only [State.served, conn, accept]
    exact id

theorem lock_meets {s : State K} (h : Calls s) (m : Meets s) {k : Caller K}
    (flagged : s.call k = .flagged) (free : s.mutex = none) :
    Meets { s.shutListener.setCall k (.sweeping s.connections) with
        mutex := some k
        conn := fun c => { s.conn c with found := (s.conn c).found || (s.conn c).isPast } } := by
  have unswept := (h.unswept k (by rw [flagged]; rfl)).2
  have none (k' : Caller K) : (s.call k').sweeps = false := by
    by_contra sweeps
    rw [Bool.not_eq_false, h.mutex, free] at sweeps
    exact absurd sweeps (by simp)
  rw [shutListener_eq]
  refine ⟨fun _ locked => absurd locked (by simp), ?_, fun swept => ?_⟩
  · intro k' sweeps c serves
    have call := setCall_call s k k' (.sweeping s.connections)
    have mine : k' = k := by
      by_contra other
      rw [if_neg other] at call
      exact absurd (sweeps.symm.trans ((congrArg CallPc.sweeps call).trans (none k'))) (by simp)
    subst mine
    obtain there | past := m.before unswept free c serves
    · right
      rw [if_pos rfl] at call
      exact (congrArg (c ∈ ·.rest) call).mpr there
    · left
      simp [Connection.met, past]
  · exact absurd (unswept.symm.trans swept) (by simp)

theorem sweep_meets {s : State K} (h : Calls s) (m : Meets s) {k : Caller K} {c : Nat}
    {rest : List Nat} (at_ : s.call k = .sweeping (c :: rest)) :
    Meets ((s.shutConnection c).setCall k (.sweeping rest)) := by
  have conn := shutConnection_conn s c
  have mine : s.mutex = some k := (h.mutex k).1 (by rw [at_]; rfl)
  have unswept := (h.unswept k (by rw [at_]; rfl)).2
  rw [shutConnection_eq]
  refine ⟨fun _ free => ?_, ?_, fun swept => ?_⟩
  · exact absurd (mine.symm.trans free) (by simp)
  · intro k' sweeps c' serves
    have call := setCall_call s k k' (.sweeping rest)
    have same : k' = k := by
      by_contra other
      rw [if_neg other] at call
      have sweeps' : (s.call k').sweeps = true := (congrArg CallPc.sweeps call).symm.trans sweeps
      rw [h.mutex, mine] at sweeps'
      exact other (Option.some.inj sweeps').symm
    subst same
    rw [if_pos rfl] at call
    have serves' : s.served c' := by
      refine serves.imp_left fun started => ?_
      have phase : ((s.shutConnection c).conn c').phase = (s.conn c').phase := by
        rw [conn]
        split <;> simp_all
      exact phase ▸ started
    suffices known : ((s.shutConnection c).conn c').met = true ∨ c' ∈ rest from
      known.imp_right (congrArg (c' ∈ CallPc.rest ·) call).mpr
    rw [conn]
    have asked := m.during k' (by rw [at_]; rfl) c' serves'
    rw [at_] at asked
    split
    · left
      simp only [Connection.met]
      cases (s.conn c).isPast <;> simp
    · rename_i other
      exact asked.imp_right fun there => (List.mem_cons.mp there).resolve_left other
  · exact absurd (unswept.symm.trans swept) (by simp)

theorem unlock_meets {s : State K} (h : Calls s) (m : Meets s) {k : Caller K}
    (at_ : s.call k = .sweeping []) :
    Meets { s.setCall k .asked with mutex := none, swept := true } := by
  have mine : s.mutex = some k := (h.mutex k).1 (by rw [at_]; rfl)
  refine ⟨fun unswept => absurd unswept (by simp), ?_, ?_⟩
  · intro k' sweeps
    have call := setCall_call s k k' .asked
    have sweeps' : (if k' = k then CallPc.asked else s.call k').sweeps = true :=
      (congrArg CallPc.sweeps call).symm.trans sweeps
    split at sweeps'
    · exact absurd sweeps' (by simp)
    · rename_i other
      rw [h.mutex, mine] at sweeps'
      exact absurd (Option.some.inj sweeps').symm other
  · intro _ c serves
    have met := m.during k (by rw [at_]; rfl) c serves
    rw [at_] at met
    exact met.resolve_right (by simp)

theorem Step.meets {a : Label K} {s s' : State K} (step : Step a s s') (orderly : a.orderly s)
    (t : Threads s) (h : Calls s) (m : Meets s) : Meets s' := by
  cases step with
  | look at_ | failed at_ =>
    refine m.still rfl rfl rfl rfl rfl (fun c => ?_)
    cases s.stopping <;> simp
  | join _ _ _ _ _ | acceptFails _ | acceptsNothing _ => exact m.still rfl rfl rfl rfl rfl (by simp)
  | joinedThem all at_ =>
    refine m.still rfl rfl rfl rfl rfl (fun c => ?_)
    cases all <;> simp
  | otherOpens _ _ | otherCloses _ _ => exact m.still rfl rfl rfl rfl rfl (fun _ => id)
  | close at_ free =>
    rw [closeListener_eq]
    exact m.still rfl rfl rfl rfl rfl (by simp)
  | collect at_ free =>
    refine m.same rfl rfl (fun _ => rfl) (fun _ => rfl) ?_ ?_ (fun _ _ => id) (fun _ _ => id)
    · intro c serves
      exact serves.imp_right fun starting => absurd starting (by simp)
    · intro c there
      cases done : (s.conn c).done with
      | true =>
        have closed := t.closed c (.inr (.inl done))
        exact .inr (by simp [Connection.isPast, closed])
      | false => exact .inl (by simp [there, done])
  | push c at_ free =>
    refine m.same rfl rfl (fun _ => rfl) (fun _ => rfl) ?_ ?_ (fun _ _ => id) (fun _ _ => id)
    · intro c' serves
      exact serves.imp_right fun starting => absurd starting (by simp)
    · exact fun c' there => .inl (List.mem_append_left _ there)
  | check c at_ =>
    by_cases stopping : s.stopping = true
    · rw [if_pos stopping]
      exact m.still rfl rfl rfl rfl rfl (by simp)
    · rw [if_neg stopping]
      exact check_meets t h m at_ (by simpa using stopping)
  | takeAll at_ free =>
    have stopping := h.accept (by rw [at_]; rfl)
    have none (k : Caller K) : (s.call k).sweeps = false := by
      by_contra sweeps
      rw [Bool.not_eq_false, h.mutex, free] at sweeps
      exact absurd sweeps (by simp)
    refine ⟨fun unswept _ c serves => ?_, ?_, ?_⟩
    · -- a call is about to ask, and would find nobody reading
      obtain swept | ⟨k, stops⟩ := h.who stopping
      · exact absurd (unswept.symm.trans swept) (by simp)
      · have flagged : s.call k = .flagged := by
          have quiet := none k
          cases pc : s.call k <;> simp_all
        have serves' : s.served c := serves.imp_right fun starting => absurd starting (by simp)
        exact .inr ((m.before unswept free c serves').elim (orderly ⟨k, flagged⟩ c) id)
    · exact fun k sweeps => absurd ((none k).symm.trans sweeps) (by simp)
    · intro swept c serves
      exact m.after swept c (serves.imp_right fun starting => absurd starting (by simp))
  | accepts fd at_ free =>
    have fresh (c : Nat) (serves : s.served c) : c ≠ s.accepted := by
      rintro rfl
      obtain started | starting := serves
      · exact absurd (t.started _ started) (by simp)
      · exact absurd (at_.symm.trans starting) (by simp)
    refine m.sets rfl rfl rfl rfl ?_ ?_
    · intro c serves
      obtain started | starting := serves
      · simp only [setConn_conn] at started
        split at started
        · exact absurd rfl started
        · exact .inl started
      · exact absurd starting (by simp)
    · intro c serves
      simp [fresh c serves]
  | start c at_ =>
    exact m.setConn (fun c' => setConn_conn s c c' _) (fun _ => .inr at_) id rfl rfl rfl rfl rfl (by simp)
  | mark c at_ =>
    exact m.setConn (fun c' => setConn_conn s c c' _) .inl id rfl rfl rfl rfl rfl (by simp)
  | refuse c at_ =>
    have conn := closeConnection_conn s c
    rw [closeConnection_eq]
    exact m.setConn conn .inl (fun _ => by simp [Connection.isPast]) rfl rfl rfl rfl rfl (by simp)
  | serve c x move =>
    exact m.setConn (fun c' => setConn_conn s c c' _) (fun _ => .inl (move_phase move).1)
      (move_past move).1 (move_past move).2 rfl rfl rfl rfl (fun _ => id)
  | closes c at_ =>
    have closed := closeConnection_conn s c
    have conn (c' : Nat) : ((s.closeConnection c).setConn c
        { (s.closeConnection c).conn c with phase := .finishing }).conn c' =
          if c' = c then { s.conn c with closed := true, phase := .finishing } else s.conn c' := by
      rw [setConn_conn, closed, if_pos rfl, closed]
      split <;> rfl
    rw [closeConnection_eq] at conn ⊢
    refine m.setConn conn (fun _ => .inl ?_) (fun _ => by simp [Connection.isPast]) rfl rfl rfl rfl
      rfl (fun _ => id)
    simp [at_]
  | begin_ k idle _ =>
    refine m.goes (by rw [idle]; rfl) ?_ (fun k' => setCall_call s k k' _) rfl rfl rfl rfl rfl
    split <;> exact ⟨rfl, rfl⟩
  | handlerReturns c at_ =>
    exact m.goes (by rw [at_]; rfl) ⟨rfl, rfl⟩ (fun k' => setCall_call s _ k' .idle) rfl rfl rfl rfl rfl
  | joinedAlready k at_ _ | joinReturns k at_ _ =>
    exact m.goes (by rw [at_]; rfl) ⟨rfl, rfl⟩ (fun k' => setCall_call s _ k' .idle) rfl rfl rfl rfl rfl
  | joinAccept k at_ _ =>
    exact m.goes (by rw [at_]; rfl) ⟨rfl, rfl⟩ (fun k' => setCall_call s _ k' .joining) rfl rfl rfl
      rfl rfl
  | lock k flagged free => exact lock_meets h m flagged free
  | sweep k c rest at_ => exact sweep_meets h m at_
  | unlock k at_ => exact unlock_meets h m at_

theorem threads_of_reachable {listenFd : Nat} {others : Nat → Bool} {s : State K}
    (reach : Reachable listenFd others s) : Threads s := by
  refine FairRuns.Reachable.rec_on reach ?_ (fun a s s' _ t step => step.threads t)
  refine ⟨?_, ?_, ?_, ?_, ?_, ?_, ?_, ?_, ?_⟩ <;> simp [State.start]

theorem calls_of_reachable {listenFd : Nat} {others : Nat → Bool} {s : State K}
    (reach : Reachable listenFd others s) : Calls s := by
  refine FairRuns.Reachable.rec_on reach ?_
    (fun a s s' reach h step => step.calls (threads_of_reachable reach) h)
  refine ⟨?_, ?_, ?_, ?_, ?_, ?_, ?_⟩ <;> simp [State.start]

theorem descriptors_of_reachable {listenFd : Nat} {others : Nat → Bool} {s : State K}
    (reach : Reachable listenFd others s) : Descriptors s := by
  refine FairRuns.Reachable.rec_on reach (start_descriptors listenFd others) ?_
  intro a s s' reach d step
  refine step.descriptors (threads_of_reachable reach) ?_ d
  intro k c rest at_
  exact (calls_of_reachable reach).listed k c (by rw [at_]; simp)

/-- The accept thread has ended, or the call that was first to join it is at its join. -/
def JoinHeld (s : State K) : Prop :=
  s.joined = true → s.accept = .ended ∨ ∃ k, s.call (.outside k) = .joining

omit [DecidableEq K] in
theorem JoinHeld.still {s s' : State K} (h : JoinHeld s) (joined : s'.joined = s.joined)
    (ended : s.accept = .ended → s'.accept = .ended)
    (call : ∀ k, s.call (.outside k) = .joining → s'.call (.outside k) = .joining) : JoinHeld s' := by
  intro set
  rw [joined] at set
  exact (h set).imp ended fun ⟨k, at_⟩ => ⟨k, call k at_⟩

/-- A call that is not at its join goes on. -/
theorem JoinHeld.goes {s s' : State K} (h : JoinHeld s) {k : Caller K} {pc : CallPc}
    (before : s.call k ≠ .joining) (call : ∀ k', s'.call k' = if k' = k then pc else s.call k')
    (joined : s'.joined = s.joined) (accept : s'.accept = s.accept) : JoinHeld s' := by
  refine h.still joined (fun ended => accept.trans ended) fun k' at_ => ?_
  rw [call, if_neg]
  · exact at_
  · rintro rfl
    exact before at_

theorem Step.joinHeld {a : Label K} {s s' : State K} (step : Step a s s') (h : JoinHeld s) : JoinHeld s' := by
  cases step with
  | look at_ | collect at_ _ | join _ _ _ at_ _ | joinedThem _ at_ | acceptFails at_ | acceptsNothing at_
  | accepts _ at_ _ | failed at_ | push _ at_ _ | check _ at_ | start _ at_ | mark _ at_ | takeAll at_ _ =>
    exact h.still rfl (fun ended => absurd (at_.symm.trans ended) (by simp)) fun _ => id
  | refuse c at_ =>
    rw [closeConnection_eq]
    exact h.still rfl (fun ended => absurd (at_.symm.trans ended) (by simp)) fun _ => id
  | close _ _ => exact fun _ => .inl rfl
  | serve c x _ => exact h.still rfl id fun _ => id
  | closes c _ =>
    rw [closeConnection_eq]
    exact h.still rfl id fun _ => id
  | begin_ k at_ _ => exact h.goes (by rw [at_]; simp) (fun k' => setCall_call s k k' _) rfl rfl
  | lock k at_ _ =>
    rw [shutListener_eq]
    exact h.goes (by rw [at_]; simp) (fun k' => setCall_call s k k' _) rfl rfl
  | sweep k c rest at_ =>
    rw [shutConnection_eq]
    exact h.goes (by rw [at_]; simp) (fun k' => setCall_call s k k' _) rfl rfl
  | unlock k at_ => exact h.goes (by rw [at_]; simp) (fun k' => setCall_call s k k' _) rfl rfl
  | handlerReturns c at_ => exact h.goes (by rw [at_]; simp) (fun k' => setCall_call s _ k' _) rfl rfl
  | joinedAlready k at_ _ => exact h.goes (by rw [at_]; simp) (fun k' => setCall_call s _ k' _) rfl rfl
  | joinAccept k _ _ =>
    refine fun _ => .inr ⟨k, ?_⟩
    exact (setCall_call s _ _ _).trans (if_pos rfl)
  | joinReturns k _ ended => exact fun _ => .inl ended
  | otherOpens _ _ | otherCloses _ _ => exact h.still rfl id fun _ => id

theorem joinHeld_of_reachable {listenFd : Nat} {others : Nat → Bool} {s : State K}
    (reach : Reachable listenFd others s) : JoinHeld s :=
  FairRuns.Reachable.rec_on reach (by simp [JoinHeld, State.start]) fun _ _ _ _ h step => step.joinHeld h

theorem Step.returnsLate {a : Label K} {s s' : State K} (step : Step a s s') (orderly : a.orderly s)
    (t : Threads s) (held : JoinHeld s) (late : ReturnsLate s) : ReturnsLate s' := by
  have returns (ended : s.accept = .ended) :
      ∀ r ∈ s.returns ++ [s.threadsEnded], r = true := by
    intro r there
    rcases List.mem_append.mp there with old | new
    · exact late r old
    · rw [List.mem_singleton.mp new]
      exact ended_threads t ended
  cases step with
  | joinedAlready k _ joined => exact returns ((held joined).elim id orderly)
  | joinReturns k _ ended => exact returns ended
  | refuse c _ | closes c _ =>
    rw [closeConnection_eq]
    exact late
  | close _ _ =>
    rw [closeListener_eq]
    exact late
  | lock k _ _ =>
    rw [shutListener_eq]
    exact late
  | sweep k c rest _ =>
    rw [shutConnection_eq]
    exact late
  | _ => exact late

theorem reachable_of_orderly {listenFd : Nat} {others : Nat → Bool} {s : State K}
    (orderly : Orderly listenFd others s) : Reachable listenFd others s := by
  refine FairRuns.Reachable.rec_on orderly .refl ?_
  intro a s s' _ reach step
  exact FairRuns.Reachable.next reach step.1

theorem meets_of_orderly {listenFd : Nat} {others : Nat → Bool} {s : State K}
    (orderly : Orderly listenFd others s) : Meets s := by
  refine FairRuns.Reachable.rec_on orderly ?_ ?_
  · refine ⟨?_, ?_, ?_⟩ <;> simp [State.start, State.served]
  · intro a s s' orderly m step
    have reach := reachable_of_orderly orderly
    exact step.1.meets step.2 (threads_of_reachable reach) (calls_of_reachable reach) m

/-- Every number the server closes or shuts down is its own, and closed once. If it stops in order,
`requestStop` meets every connection that is served and no call returns early. -/
theorem stopServer_in_order (listenFd : Nat) (others : Nat → Bool) :
    (∀ s : State K, Reachable listenFd others s → Descriptors s ∧ ClosedByTheEnd s) ∧
      ∀ s : State K, Orderly listenFd others s → StopMet s ∧ ReturnsLate s := by
  refine ⟨fun s reach => ?_, fun s orderly => ⟨?_, ?_⟩⟩
  · have d := descriptors_of_reachable reach
    exact ⟨d, closed_by_the_end (threads_of_reachable reach) d⟩
  · intro swept c started
    exact (meets_of_orderly orderly).after swept c (.inl started)
  · refine FairRuns.Reachable.rec_on orderly (by simp [ReturnsLate, State.start]) ?_
    intro a s s' orderly late step
    have reach := reachable_of_orderly orderly
    exact step.1.returnsLate step.2 (threads_of_reachable reach) (joinHeld_of_reachable reach) late

/-- A connection is accepted before the server is stopped, and shut down. -/
theorem stopServer_in_order_connection : ∃ s : State Unit,
    s.swept = true ∧ (s.conn 0).phase = .reading ∧ StopMet s ∧ ReturnsLate s := by
  have run : Orderly 3 (fun _ => false) (State.start 3 (fun _ => false) : State Unit) := .refl
  have run := run.next ⟨.look rfl, trivial⟩
  have run := run.next ⟨.collect rfl rfl, trivial⟩
  have run := run.next ⟨.joinedThem false rfl, trivial⟩
  have run := run.next ⟨.accepts 4 rfl rfl, trivial⟩
  have run := run.next ⟨.push 0 rfl rfl, trivial⟩
  have run := run.next ⟨.check 0 rfl, trivial⟩
  have run := run.next ⟨.start 0 rfl, trivial⟩
  have run := run.next ⟨.begin_ (.outside ()) rfl (by simp), trivial⟩
  have run := run.next ⟨.lock (.outside ()) rfl rfl, trivial⟩
  have run := run.next ⟨.sweep (.outside ()) 0 [] rfl, trivial⟩
  have run := run.next ⟨.unlock (.outside ()) rfl, trivial⟩
  have order := (stopServer_in_order 3 fun _ => false).2 _ run
  exact ⟨_, rfl, rfl, order⟩

/-- The accept thread takes the connections between the flag and the block of `requestStop`, so that
nobody shuts the reading one down; a second call returns while the first is at its join. -/
theorem stopServer_out_of_order : ∃ s : State Bool,
    Reachable 3 (fun _ => false) s ∧ ¬ StopMet s ∧ ¬ ReturnsLate s := by
  have run : Reachable 3 (fun _ => false) (State.start 3 (fun _ => false) : State Bool) := .refl
  have run := run.next (.look rfl)
  have run := run.next (.collect rfl rfl)
  have run := run.next (.joinedThem false rfl)
  have run := run.next (.accepts 4 rfl rfl)
  have run := run.next (.push 0 rfl rfl)
  have run := run.next (.check 0 rfl)
  have run := run.next (.start 0 rfl)
  have run := run.next (.begin_ (.outside true) rfl (by simp))
  have run := run.next (.look rfl)
  have run := run.next (.takeAll rfl rfl)
  have run := run.next (.lock (.outside true) rfl rfl)
  have run := run.next (.unlock (.outside true) rfl)
  have run := run.next (.begin_ (.outside false) rfl (by simp))
  have run := run.next (.joinAccept true rfl rfl)
  have run := run.next (.joinedAlready false rfl rfl)
  refine ⟨_, run, fun met => ?_, fun late => ?_⟩
  · exact absurd (met rfl 0 (by decide)) (by decide)
  · exact absurd (late false (by decide)) (by decide)

end
end ProtoClojure.Io
