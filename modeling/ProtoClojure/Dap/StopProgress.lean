import ProtoClojure.Dap.StopHistory

/-! What a stopped thread comes to: it answers what it holds, and once the client is gone it leaves
its stop. -/
namespace ProtoClojure.Dap.Stops

variable {T : Type}

theorem Move.exists_serving {disconnected : Bool} {ts : ThreadState} (inside : ts.pc ≠ .running)
    (awake : ts.pc ≠ .asleep) : ∃ ts' out, Move disconnected ts .serving ts' out := by
  cases at_ : ts.pc with
  | running => exact absurd at_ inside
  | asleep => exact absurd at_ awake
  | announcing => exact ⟨_, _, .announce at_⟩
  | answering request => exact ⟨_, _, .answer request at_⟩
  | leaving => exact ⟨_, _, .leave at_⟩
  | refusing late =>
    cases late with
    | nil => exact ⟨_, _, .left at_⟩
    | cons request late => exact ⟨_, _, .refuse request late at_⟩
  | waiting =>
    cases requests : ts.requests with
    | cons request rest => exact ⟨_, _, .take request rest at_ requests⟩
    | nil =>
      cases awaited : ts.awaited disconnected with
      | true => exact ⟨_, _, .resume at_ awaited requests⟩
      | false => exact ⟨_, _, .sleep at_ awaited⟩

/-- The steps from here to the answer to a request the thread holds. -/
def ThreadState.delay (id : Nat) (ts : ThreadState) : Nat :=
  match ts.pc with
  | .answering request => if request = id then 1 else 2 * ts.requests.idxOf id + 3
  | .refusing late => late.idxOf id + 1
  | .leaving => ts.requests.idxOf id + 2
  | .waiting => 2 * ts.requests.idxOf id + 2
  | .announcing | .asleep => 2 * ts.requests.idxOf id + 3
  | .running => 0

def ThreadState.pending (id : Nat) (ts : ThreadState) : Nat :=
  if id ∈ ts.held then ts.delay id else 0

/-- The steps from here out of the stop, once no more requests come. -/
def ThreadState.rank (ts : ThreadState) : Nat :=
  match ts.pc with
  | .running => 0
  | .refusing late => late.length + 1
  | .leaving => ts.requests.length + 2
  | .waiting => 2 * ts.requests.length + 3
  | .announcing | .asleep | .answering _ => 2 * ts.requests.length + 4

theorem pending_held {ts : ThreadState} {id : Nat} (held : id ∈ ts.held) :
    ts.pending id = ts.delay id :=
  if_pos held

theorem pending_absent {ts : ThreadState} {id : Nat} (absent : id ∉ ts.held) :
    ts.pending id = 0 :=
  if_neg absent

theorem pending_pos {ts : ThreadState} {id : Nat} (pos : 0 < ts.pending id) : id ∈ ts.held := by
  by_contra absent
  rw [pending_absent absent] at pos
  exact absurd pos (by simp)

theorem pending_of_held {ts : ThreadState} {id : Nat}
    (empty : ts.pc.inStop = false → ts.requests = []) (held : id ∈ ts.held) :
    0 < ts.pending id := by
  rw [pending_held held]
  cases at_ : ts.pc with
  | running => simp [ThreadState.held, at_, Pc.held, empty (by rw [at_]; rfl)] at held
  | answering request =>
    simp only [ThreadState.delay, at_]
    split <;> omega
  | _ => simp [ThreadState.delay, at_]

theorem not_awaited {ts : ThreadState} {disconnected : Bool}
    (h : ts.awaited disconnected = false) : ts.requests = [] ∧ disconnected = false := by
  simp only [ThreadState.awaited, Bool.or_eq_false_iff, Bool.not_eq_false', List.isEmpty_iff] at h
  exact ⟨h.1.2, h.2⟩

/-- Every step of `stop` brings the thread nearer to a request it goes on holding. -/
theorem delay_move {disconnected : Bool} {ts ts' : ThreadState} {role : Role} {out : Output}
    {id : Nat} (empty : ts.pc.inStop = false → ts.requests = []) (nodup : ts.held.Nodup)
    (held : id ∈ ts'.held) (move : Move disconnected ts role ts' out) :
    ts'.delay id < ts.delay id ∨
      role = .program ∧ ts'.delay id = ts.delay id ∧ ts'.pc = ts.pc := by
  cases move with
  | register unborn => exact .inr ⟨rfl, rfl, rfl⟩
  | exit live running => exact .inr ⟨rfl, rfl, rfl⟩
  | pass live running gone => exact .inr ⟨rfl, rfl, rfl⟩
  | enter live running there =>
    simp [ThreadState.held, Pc.held, empty (by rw [running]; rfl)] at held
  | announce at_ => exact .inl (by simp [ThreadState.delay, at_])
  | sleep at_ awaited => simp [ThreadState.held, Pc.held, (not_awaited awaited).1] at held
  | wake at_ => exact .inl (by simp [ThreadState.delay, at_])
  | take request rest at_ requests =>
    left
    simp only [ThreadState.delay, at_, requests]
    by_cases mine : request = id
    · rw [if_pos mine]
      omega
    · rw [if_neg mine, List.idxOf_cons_ne _ mine]
      omega
  | resume at_ awaited none => simp [ThreadState.held, Pc.held, none] at held
  | answer request at_ =>
    left
    simp only [ThreadState.held, at_, Pc.held, List.nil_append, List.singleton_append] at held nodup
    have other : request ≠ id := fun same => (List.nodup_cons.mp nodup).1 (same ▸ held)
    simp only [ThreadState.delay, at_, if_neg other]
    omega
  | leave at_ => exact .inl (by simp [ThreadState.delay, at_])
  | refuse request late at_ =>
    left
    have none := empty (by rw [at_]; rfl)
    simp only [ThreadState.held, at_, none, Pc.held, List.append_nil] at held nodup
    have other : request ≠ id := fun same => (List.nodup_cons.mp nodup).1 (same ▸ held)
    simp only [ThreadState.delay, at_, List.idxOf_cons_ne _ other]
    omega
  | left at_ => simp [ThreadState.held, Pc.held, empty (by rw [at_]; rfl)] at held

theorem pending_move {disconnected : Bool} {ts ts' : ThreadState} {role : Role} {out : Output}
    {id : Nat} (empty : ts.pc.inStop = false → ts.requests = []) (nodup : ts.held.Nodup)
    (pos : 0 < ts.pending id) (move : Move disconnected ts role ts' out) :
    ts'.pending id < ts.pending id ∨
      role = .program ∧ ts'.pending id = ts.pending id ∧ ts'.pc = ts.pc := by
  by_cases held' : id ∈ ts'.held
  · have held : id ∈ ts.held := by
      rw [move.held_eq]
      exact List.mem_append_right _ held'
    rw [pending_held held, pending_held held']
    exact delay_move empty nodup held' move
  · rw [pending_absent held']
    exact .inl pos

theorem delay_queued {ts : ThreadState} {id : Nat} (held : id ∈ ts.held) (new : Nat) :
    ({ ts with requests := ts.requests ++ [new] } : ThreadState).delay id = ts.delay id := by
  have kept (mem : id ∈ ts.requests) :
      (ts.requests ++ [new]).idxOf id = ts.requests.idxOf id := List.idxOf_append_of_mem mem
  cases at_ : ts.pc with
  | running | refusing late => simp only [ThreadState.delay, at_]
  | answering request =>
    simp only [ThreadState.delay, at_]
    by_cases mine : request = id
    · rw [if_pos mine, if_pos mine]
    · simp only [ThreadState.held, at_, Pc.held, List.singleton_append] at held
      rw [kept ((List.mem_cons.mp held).resolve_left (Ne.symm mine))]
  | announcing | waiting | asleep | leaving =>
    simp only [ThreadState.held, at_, Pc.held, List.nil_append] at held
    simp only [ThreadState.delay, at_, kept held]

theorem pending_queued {ts : ThreadState} {id : Nat} (pos : 0 < ts.pending id) (new : Nat) :
    ({ ts with requests := ts.requests ++ [new] } : ThreadState).pending id = ts.pending id := by
  have held := pending_pos pos
  have held' : id ∈ ({ ts with requests := ts.requests ++ [new] } : ThreadState).held := by
    simp only [ThreadState.held, ← List.append_assoc]
    exact List.mem_append_left _ held
  rw [pending_held held, pending_held held', delay_queued held]

theorem rank_move {ts ts' : ThreadState} {role : Role} {out : Output}
    (move : Move true ts role ts' out) :
    ts'.rank < ts.rank ∨ role = .program ∧ ts'.rank = ts.rank ∧ ts'.pc = ts.pc := by
  cases move with
  | register unborn => exact .inr ⟨rfl, rfl, rfl⟩
  | exit live running => exact .inr ⟨rfl, rfl, rfl⟩
  | pass live running gone => exact .inr ⟨rfl, rfl, rfl⟩
  | enter live running there => exact absurd there (by simp)
  | sleep at_ awaited => exact absurd (not_awaited awaited).2 (by simp)
  | announce at_ => exact .inl (by simp [ThreadState.rank, at_])
  | wake at_ => exact .inl (by simp [ThreadState.rank, at_])
  | take request rest at_ requests =>
    exact .inl (by simp [ThreadState.rank, at_, requests, Nat.mul_add])
  | resume at_ awaited none => exact .inl (by simp [ThreadState.rank, at_, none])
  | answer request at_ => exact .inl (by simp [ThreadState.rank, at_])
  | leave at_ => exact .inl (by simp [ThreadState.rank, at_])
  | refuse request late at_ => exact .inl (by simp [ThreadState.rank, at_])
  | left at_ => exact .inl (by simp [ThreadState.rank, at_])

theorem notified_move {disconnected : Bool} {ts : ThreadState} (asleep : ts.pc = .asleep) :
    Move disconnected ts .waking ts.notified .silent := by
  rw [ThreadState.notified, if_pos asleep]
  exact .wake asleep

/-- Who brings a thread on: a sleeping one waits for the protocol thread. -/
def helper (t : T) (s : State T) : Actor T :=
  if (s.threads t).pc = .asleep then .protocol else .thread t .serving

theorem helper_eq {t : T} {s s' : State T} (same : (s'.threads t).pc = (s.threads t).pc) :
    helper t s' = helper t s := by
  simp only [helper, same]

section
variable [DecidableEq T]

/-- What `stop` lowers and the others leave alone. -/
structure Waning (t : T) (inv : State T → Prop) (measure : ThreadState → Nat) : Prop where
  kept : ∀ a s s', inv s → Step a s s' → inv s'
  reach : ∀ s, inv s → Reachable s
  inside : ∀ s, inv s → 0 < measure (s.threads t) → (s.threads t).pc ≠ .running
  awaited : ∀ s, inv s → 0 < measure (s.threads t) → (s.threads t).pc = .asleep →
    (s.threads t).awaited s.disconnected = true
  moves : ∀ s role ts out, inv s → 0 < measure (s.threads t) →
    Move s.disconnected (s.threads t) role ts out →
    measure ts < measure (s.threads t) ∨
      role = .program ∧ measure ts = measure (s.threads t) ∧ ts.pc = (s.threads t).pc
  queue : ∀ s id, inv s → 0 < measure (s.threads t) → s.protocol = .reading →
    measure { s.threads t with requests := (s.threads t).requests ++ [id] } =
      measure (s.threads t)
  order : ∀ s r, inv s →
    measure { s.threads t with resume := r, resumeReady := true } = measure (s.threads t)

namespace Waning

variable {t : T} {inv : State T → Prop} {measure : ThreadState → Nat}

theorem notifying (w : Waning t inv measure) {s : State T} (h : inv s)
    (pos : 0 < measure (s.threads t)) (asleep : (s.threads t).pc = .asleep) :
    s.protocol = .notifying :=
  (fits_of_reachable (w.reach s h) t).woken asleep (w.awaited s h pos asleep)

theorem notified (w : Waning t inv measure) {s : State T} (h : inv s)
    (pos : 0 < measure (s.threads t)) (asleep : (s.threads t).pc = .asleep) :
    measure (s.threads t).notified < measure (s.threads t) := by
  obtain lower | ⟨program, _⟩ := w.moves s _ _ _ h pos (notified_move asleep)
  · exact lower
  · exact absurd program (by simp)

theorem able (w : Waning t inv measure) {s : State T} (h : inv s)
    (pos : 0 < measure (s.threads t)) :
    (helper t s).fair ∧ FairRuns.Enabled Step (helper t s) s := by
  by_cases asleep : (s.threads t).pc = .asleep
  · rw [helper, if_pos asleep]
    exact ⟨trivial, _, .notify (w.notifying h pos asleep)⟩
  · rw [helper, if_neg asleep]
    obtain ⟨ts, out, move⟩ : ∃ ts out, Move s.disconnected (s.threads t) .serving ts out :=
      Move.exists_serving (w.inside s h pos) asleep
    exact ⟨trivial, _, .thread t .serving ts out move⟩

theorem lower (w : Waning t inv measure) {s s' : State T} (h : inv s)
    (pos : 0 < measure (s.threads t)) (step : Step (helper t s) s s') :
    measure (s'.threads t) < measure (s.threads t) := by
  by_cases asleep : (s.threads t).pc = .asleep
  · rw [helper, if_pos asleep] at step
    have notifying := w.notifying h pos asleep
    cases step with
    | refused request refusing => exact absurd (refusing.symm.trans notifying) (by simp)
    | notify _ => exact w.notified h pos asleep
  · rw [helper, if_neg asleep] at step
    cases step with
    | thread t role ts out move =>
      rw [setThread_threads_self]
      obtain lower | ⟨program, _⟩ := w.moves s _ _ _ h pos move
      · exact lower
      · exact absurd program (by simp)

theorem level (w : Waning t inv measure) {a : Actor T} {s s' : State T} (h : inv s)
    (pos : 0 < measure (s.threads t)) (step : Step a s s') :
    measure (s'.threads t) < measure (s.threads t) ∨
      measure (s'.threads t) = measure (s.threads t) ∧ helper t s' = helper t s := by
  cases step with
  | thread u role ts out move =>
    by_cases same : t = u
    · subst same
      rw [setThread_threads_self]
      obtain lower | ⟨_, level, pc⟩ := w.moves s _ _ _ h pos move
      · exact .inl lower
      · exact .inr ⟨level, helper_eq (by rw [setThread_threads_self, pc])⟩
    · have threads : ((s.record u out).setThread u ts).threads t = s.threads t := by
        rw [setThread_threads_ne _ _ same, record_threads]
      exact .inr ⟨congrArg measure threads, helper_eq (by rw [threads])⟩
  | queue u reading _ =>
    by_cases same : t = u
    · subst same
      simp only [setThread_threads_self]
      exact .inr ⟨w.queue s _ h pos reading, helper_eq (by simp)⟩
    · simp only [setThread_threads_ne _ _ same]
      exact .inr ⟨trivial, helper_eq (by simp [same])⟩
  | order u r reading _ =>
    by_cases same : t = u
    · subst same
      simp only [setThread_threads_self]
      exact .inr ⟨w.order s _ h, helper_eq (by simp)⟩
    · simp only [setThread_threads_ne _ _ same]
      exact .inr ⟨trivial, helper_eq (by simp [same])⟩
  | refuse _ _ _ | refused _ _ | orderIgnored _ _ _ | disconnect _ => exact .inr ⟨rfl, rfl⟩
  | notify _ =>
    by_cases asleep : (s.threads t).pc = .asleep
    · exact .inl (w.notified h pos asleep)
    · have same : (s.threads t).notified = s.threads t := if_neg asleep
      refine .inr ⟨congrArg measure same, helper_eq ?_⟩
      show (s.threads t).notified.pc = _
      rw [same]

theorem descent (w : Waning t inv measure) :
    FairRuns.Descent Step Actor.fair inv (fun s : State T => measure (s.threads t)) (helper t) where
  kept := w.kept
  able := fun _ h pos => w.able h pos
  lower := fun _ _ h pos step => w.lower h pos step
  level := fun _ _ _ h pos step => w.level h pos step

end Waning

theorem Moved.sends {s s' : State T} (moved : Moved s s') {place : Place T} {id : Nat}
    (there : id ∈ s.at_ place) : id ∈ s'.at_ .answered ∨ id ∈ s'.at_ place := by
  cases moved with
  | came new count places =>
    rw [places place]
    exact .inr (List.mem_append_left _ there)
  | sent left requests notAnswered same lost gained others =>
    by_cases home : place = left
    · subst home
      rw [lost] at there
      rw [gained]
      exact (List.mem_append.mp there).imp_left fun sent => List.mem_append_right _ sent
    · by_cases answered : place = .answered
      · subst answered
        rw [gained]
        exact .inl (List.mem_append_left _ there)
      · rw [others place home answered]
        exact .inr there

/-- A request in a place stays there until it is answered. -/
def Kept (id : Nat) (place : Place T) (s : State T) : Prop :=
  Reachable s ∧ (id ∈ s.at_ .answered ∨ id ∈ s.at_ place)

theorem Kept.next {id : Nat} {place : Place T} (a : Actor T) (s s' : State T)
    (kept : Kept id place s) (step : Step a s s') : Kept id place s' := by
  refine ⟨kept.1.next step, ?_⟩
  rcases kept.2 with answered | there
  · exact .inl (or_self_iff.mp (step.moved.sends answered))
  · exact step.moved.sends there

theorem held_nodup {s : State T} (reach : Reachable s) (t : T) : (s.threads t).held.Nodup := by
  rw [List.nodup_iff_count]
  intro id
  obtain ⟨issued, fresh⟩ := once_of_reachable reach id
  rcases Nat.lt_or_ge id s.issued with came | later
  · obtain ⟨place, count⟩ := issued came
    have here := count (.thread t)
    simp only [State.at_] at here
    rw [here]
    split <;> omega
  · have none := fresh later (.thread t)
    simp only [State.at_] at none
    omega

theorem pending_waning (id : Nat) (t : T) :
    Waning t (Kept id (.thread t)) (ThreadState.pending id) where
  kept := Kept.next
  reach := fun _ kept => kept.1
  inside := by
    intro s kept pos running
    have held := pending_pos pos
    have none := (fits_of_reachable kept.1 t).empty (by rw [running]; rfl)
    simp [ThreadState.held, running, Pc.held, none] at held
  awaited := by
    intro s kept pos asleep
    have held := pending_pos pos
    simp only [ThreadState.held, asleep, Pc.held, List.nil_append] at held
    have some : (s.threads t).requests ≠ [] := List.ne_nil_of_mem held
    simp [ThreadState.awaited, some]
  moves := by
    intro s role ts out kept pos move
    exact pending_move (fits_of_reachable kept.1 t).empty (held_nodup kept.1 t) pos move
  queue := by
    intro s new kept pos _
    exact pending_queued pos new
  order := fun _ _ _ => rfl

/-- The client is gone. -/
def Gone (s : State T) : Prop := Reachable s ∧ s.disconnected = true

theorem Gone.not_reading {s : State T} (gone : Gone s) : s.protocol ≠ .reading := by
  intro reading
  have atEnd := (history_of_reachable gone.1).atEnd gone.2
  rw [reading] at atEnd
  simp at atEnd

theorem Gone.next (a : Actor T) (s s' : State T) (gone : Gone s) (step : Step a s s') : Gone s' := by
  refine ⟨gone.1.next step, ?_⟩
  cases step with
  | thread t role ts out move => cases out <;> exact gone.2
  | disconnect _ => rfl
  | _ => exact gone.2

theorem rank_pos {ts : ThreadState} : 0 < ts.rank ↔ ts.pc ≠ .running := by
  unfold ThreadState.rank
  split <;> simp_all

theorem rank_waning (t : T) : Waning t Gone ThreadState.rank where
  kept := Gone.next
  reach := fun _ gone => gone.1
  inside := fun _ _ pos => rank_pos.mp pos
  awaited := by
    intro s gone _ _
    simp [ThreadState.awaited, gone.2]
  moves := by
    intro s role ts out gone _ move
    rw [gone.2] at move
    exact rank_move move
  queue := fun _ _ gone _ reading => absurd reading gone.not_reading
  order := fun _ _ _ => rfl

/-- The protocol thread's own refusal. -/
theorem refusal_descent (id : Nat) :
    FairRuns.Descent Step Actor.fair (Kept id .protocol)
      (fun s : State T => s.protocol.held.length) (fun _ => .protocol) where
  kept := Kept.next
  able := by
    intro s _ pos
    cases protocol : s.protocol with
    | refusing request => exact ⟨trivial, _, .refused request protocol⟩
    | _ => simp [protocol, Protocol.held] at pos
  lower := by
    intro s s' _ pos step
    cases step with
    | refused request refusing => simp [refusing, Protocol.held]
    | notify notifying => simp [notifying, Protocol.held] at pos
  level := by
    intro a s s' _ pos step
    refine (Nat.lt_or_ge _ _).imp_right fun more => ⟨?_, rfl⟩
    cases step with
    | thread t role ts out move => exact congrArg _ (congrArg _ (record_protocol s t out))
    | refused request refusing => simp [refusing, Protocol.held] at more
    | notify protocol | queue _ protocol _ | refuse _ protocol _ | order _ _ protocol _
      | orderIgnored _ protocol _ | disconnect protocol => simp [protocol, Protocol.held] at pos

theorem eventually_answered (run : Run T) {n id : Nat} (came : id < (run.state n).issued) :
    ∃ m, n ≤ m ∧ id ∈ (run.state m).at_ .answered := by
  have reach := run.reachable n
  obtain ⟨place, count⟩ := (once_of_reachable reach id).1 came
  have there : id ∈ (run.state n).at_ place := by
    rw [← List.count_pos_iff, count, if_pos rfl]
    exact Nat.one_pos
  cases place with
  | answered => exact ⟨n, Nat.le_refl n, there⟩
  | protocol =>
    have kept : Kept id .protocol (run.state n) := ⟨reach, .inr there⟩
    obtain ⟨m, later, zero⟩ := (refusal_descent id).reaches_zero run n kept
    obtain ⟨_, answered | held⟩ := run.kept Kept.next kept later
    · exact ⟨m, later, answered⟩
    · exact absurd (List.length_pos_of_mem held) (by rw [State.at_, zero]; simp)
  | thread t =>
    have kept : Kept id (.thread t) (run.state n) := ⟨reach, .inr there⟩
    obtain ⟨m, later, zero⟩ := (pending_waning id t).descent.reaches_zero run n kept
    obtain ⟨reach', answered | held⟩ := run.kept Kept.next kept later
    · exact ⟨m, later, answered⟩
    · exact absurd (pending_of_held (fits_of_reachable reach' t).empty held) (by rw [zero]; simp)

theorem answered_once {s : State T} (reach : Reachable s) {id : Nat}
    (answered : id ∈ s.at_ .answered) : (s.answers.map Answer.request).count id = 1 := by
  obtain ⟨place, count⟩ :=
    (once_of_reachable reach id).1 (request_issued (once_of_reachable reach) answered)
  have here := count .answered
  rw [← List.count_pos_iff, here] at answered
  by_cases h : Place.answered = place
  · rwa [if_pos h] at here
  · rw [if_neg h] at answered
    exact absurd answered (by simp)

def Out (t : T) (s : State T) : Prop := s.disconnected = true ∧ (s.threads t).pc = .running

theorem Out.next {t : T} (a : Actor T) (s s' : State T) (out : Out t s) (step : Step a s s') :
    Out t s' := by
  obtain ⟨gone, running⟩ := out
  cases step with
  | thread u role ts out move =>
    have gone' : ((s.record u out).setThread u ts).disconnected = true := by
      cases out <;> exact gone
    refine ⟨gone', ?_⟩
    by_cases same : t = u
    · subst same
      rw [setThread_threads_self]
      cases move with
      | enter _ _ there => exact absurd (gone.symm.trans there) (by simp)
      | register _ | exit _ _ | pass _ _ _ => exact running
      | _ => simp_all
    · rw [setThread_threads_ne _ _ same, record_threads]
      exact running
  | queue u _ _ | order u _ _ _ =>
    refine ⟨gone, ?_⟩
    by_cases same : t = u
    · subst same
      simpa using running
    · simpa [same] using running
  | refuse _ _ _ | refused _ _ | orderIgnored _ _ _ => exact ⟨gone, running⟩
  | disconnect _ => exact ⟨rfl, running⟩
  | notify _ =>
    have same : (s.threads t).notified = s.threads t := if_neg (by simp [running])
    refine ⟨gone, ?_⟩
    show (s.threads t).notified.pc = _
    rw [same, running]

end

private def inspected (ts : ThreadState) (s : State Unit) : State Unit :=
  { s with threads := fun _ => { ts with life := .live }, issued := 1, queued := [(0, (), 1)] }

/-- One thread stops, is asked for its stack and is let go by the client's end. -/
private def inspecting : Nat → State Unit
  | 0 => {}
  | 1 => { threads := fun _ => { life := .live } }
  | 2 => { threads := fun _ =>
      { life := .live, stopped := true, pc := .announcing, stops := 1 } }
  | 3 => inspected { stopped := true, pc := .announcing, stops := 1, requests := [0] }
      { protocol := .notifying }
  | 4 => inspected { stopped := true, pc := .announcing, stops := 1, requests := [0] } {}
  | 5 => inspected { stopped := true, pc := .announcing, stops := 1, requests := [0] }
      { disconnected := true, protocol := .notifying }
  | 6 => inspected { stopped := true, pc := .announcing, stops := 1, requests := [0] }
      { disconnected := true, protocol := .done }
  | 7 => inspected { stopped := true, pc := .waiting, stops := 1, requests := [0] }
      { disconnected := true, protocol := .done }
  | 8 => inspected { stopped := true, pc := .answering 0, stops := 1 }
      { disconnected := true, protocol := .done }
  | 9 => inspected { stopped := true, pc := .waiting, stops := 1 }
      { disconnected := true, protocol := .done, answers := [⟨0, some ((), 1)⟩] }
  | 10 => inspected { stopped := true, pc := .leaving, stops := 1 }
      { disconnected := true, protocol := .done, answers := [⟨0, some ((), 1)⟩] }
  | 11 => inspected { pc := .refusing [], stops := 1 }
      { disconnected := true, protocol := .done, answers := [⟨0, some ((), 1)⟩]
        releases := [⟨(), 1, true, .none⟩] }
  | _ => inspected { stops := 1 }
      { disconnected := true, protocol := .done, answers := [⟨0, some ((), 1)⟩]
        releases := [⟨(), 1, true, .none⟩] }

private theorem inspecting_steps (n : Nat) : inspecting (n + 1) = inspecting n ∨
    ∃ a, Step a (inspecting n) (inspecting (n + 1)) := by
  have thread {s : State Unit} {role : Role} {ts : ThreadState} {out : Output}
      (move : Move s.disconnected (s.threads ()) role ts out) :
      ∃ a, Step a s ((s.record () out).setThread () ts) := ⟨_, .thread () role ts out move⟩
  rcases n with _ | _ | _ | _ | _ | _ | _ | _ | _ | _ | _ | _ | n
  · exact .inr (thread (.register rfl))
  · exact .inr (thread (.enter rfl rfl rfl))
  · exact .inr ⟨_, .queue () rfl ⟨rfl, rfl, rfl⟩⟩
  · exact .inr ⟨_, .notify rfl⟩
  · exact .inr ⟨_, .disconnect rfl⟩
  · exact .inr ⟨_, .notify rfl⟩
  · exact .inr (thread (.announce rfl))
  · exact .inr (thread (.take 0 [] rfl rfl))
  · exact .inr (thread (.answer 0 rfl))
  · exact .inr (thread (.resume rfl rfl rfl))
  · exact .inr (thread (.leave rfl))
  · exact .inr (thread (.left rfl))
  · exact .inl rfl

private theorem inspecting_ends (n : Nat) {a : Actor Unit} (fair : a.fair) :
    ¬ FairRuns.Enabled Step a (inspecting (n + 12)) := by
  rintro ⟨s', step⟩
  cases step with
  | thread t role ts out move => cases move <;> simp_all [inspecting, inspected, Actor.fair]
  | _ => simp_all [inspecting, inspected, Actor.fair]

private def inspectingRun : Run Unit where
  state := inspecting
  start := rfl
  stepped := inspecting_steps
  just := fun _ fair n =>
    ⟨n + 12, Nat.le_add_right n 12, fun enabled => absurd enabled (inspecting_ends n fair)⟩

end ProtoClojure.Dap.Stops
