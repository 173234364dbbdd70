import ProtoClojure.Dap.StopInvariant

/-! What the server's history says of the requests, the orders and the releases. -/
namespace ProtoClojure.Dap.Stops

variable {T : Type}

def Release.ordered (s : State T) (release : Release T) : Prop :=
  release.disconnected = true ∧ release.stepKind = .none ∨
    release.disconnected = false ∧
      ∃ r, (release.thread, release.stop, r) ∈ s.orders ∧ release.stepKind = r.stepKind

/-- Between its stops a thread steps as its last stop's release says. -/
def State.steps (s : State T) (t : T) (ts : ThreadState) : Prop :=
  if ts.pc.inStop then ts.stepKind = .none
  else ts.pc = .running ∧ ts.stops = 0 ∧ ts.stepKind = .none ∨
    ∃ release ∈ s.releases,
      release.thread = t ∧ release.stop = ts.stops ∧ release.stepKind = ts.stepKind

structure History (s : State T) : Prop where
  came : ∀ id t n, (id, t, n) ∈ s.queued → id < s.issued
  queuedOnce : ∀ id t n t' n', (id, t, n) ∈ s.queued → (id, t', n') ∈ s.queued → t = t' ∧ n = n'
  unqueued : ∀ id ∈ s.protocol.held, id < s.issued ∧ ∀ t n, (id, t, n) ∉ s.queued
  answered : ∀ a ∈ s.answers, ∀ t n, a.stop = some (t, n) → (a.request, t, n) ∈ s.queued
  refused : ∀ a ∈ s.answers, a.stop = none → ∀ t n, (a.request, t, n) ∈ s.queued →
    ∃ release ∈ s.releases, release.thread = t ∧ release.stop = n
  orderedOnce : ∀ t n r r', (t, n, r) ∈ s.orders → (t, n, r') ∈ s.orders → r = r'
  released : ∀ release ∈ s.releases, release.ordered s
  stepping : ∀ t, s.steps t (s.threads t)
  atEnd : s.disconnected = true → s.protocol = .notifying ∨ s.protocol = .done

/-- The thread answers the request in the stop it was queued for, or refuses it once that is over. -/
theorem thread_answers {s : State T} {t : T} {role : Role} {ts : ThreadState} {out : Output}
    (history : History s) (fits : Fits s.around t (s.threads t))
    (move : Move s.disconnected (s.threads t) role ts out) {a : Answer T}
    (mem : a ∈ (s.record t out).answers) :
    (∀ u n, a.stop = some (u, n) → (a.request, u, n) ∈ s.queued) ∧
      (a.stop = none → ∀ u n, (a.request, u, n) ∈ s.queued →
        ∃ release ∈ s.releases, release.thread = u ∧ release.stop = n) := by
  have old (there : a ∈ s.answers) := And.intro (history.answered a there) (history.refused a there)
  cases move with
  | answer request answering =>
    rcases List.mem_append.mp mem with there | new
    · exact old there
    · rw [List.mem_singleton] at new
      subst new
      refine ⟨?_, by simp⟩
      intro u n stop
      cases stop
      exact fits.current request (by simp [ThreadState.held, answering, Pc.held])
  | refuse request late refusing =>
    rcases List.mem_append.mp mem with there | new
    · exact old there
    · rw [List.mem_singleton] at new
      subst new
      refine ⟨by simp, ?_⟩
      intro _ u n queued
      have mine := fits.current request (by simp [ThreadState.held, refusing, Pc.held])
      obtain ⟨rfl, rfl⟩ := history.queuedOnce request _ _ _ _ mine queued
      have steps := history.stepping t
      simp only [State.steps, refusing, Pc.inStop] at steps
      obtain ⟨running, _⟩ | ⟨release, there, thread, stop, _⟩ := steps
      · exact absurd running (by simp)
      · exact ⟨release, there, thread, stop⟩
  | _ => exact old mem

theorem thread_releases {s : State T} {t : T} {role : Role} {ts : ThreadState} {out : Output}
    (history : History s) (fits : Fits s.around t (s.threads t))
    (move : Move s.disconnected (s.threads t) role ts out) {release : Release T}
    (mem : release ∈ (s.record t out).releases) : release.ordered s := by
  cases move with
  | leave leaving =>
    rcases List.mem_append.mp mem with there | new
    · exact history.released release there
    · rw [List.mem_singleton] at new
      subst new
      cases gone : s.disconnected with
      | true => exact .inl ⟨rfl, rfl⟩
      | false =>
        obtain ready | gone' := fits.leaving leaving
        · have inStop : (s.threads t).pc.inStop = true := by rw [leaving]; rfl
          exact .inr ⟨rfl, _, fits.ordered inStop ready, rfl⟩
        · exact absurd (gone.symm.trans gone') (by simp)
  | _ => exact history.released release mem

theorem releases_kept {s : State T} {t : T} {out : Output} {release : Release T}
    (mem : release ∈ s.releases) : release ∈ (s.record t out).releases := by
  cases out with
  | released gone kind => exact List.mem_append_left _ mem
  | _ => exact mem

theorem steps_kept {s s' : State T} {t : T} {ts : ThreadState} (steps : s.steps t ts)
    (kept : ∀ release ∈ s.releases, release ∈ s'.releases) : s'.steps t ts := by
  simp only [State.steps] at steps ⊢
  split
  · rwa [if_pos (by assumption)] at steps
  · rw [if_neg (by assumption)] at steps
    obtain idle | ⟨release, mem, rest⟩ := steps
    · exact .inl idle
    · exact .inr ⟨release, kept release mem, rest⟩

/-- A thread steps on as before unless it enters or leaves a stop. -/
theorem thread_steps {s : State T} {t : T} {role : Role} {ts : ThreadState} {out : Output}
    (steps : s.steps t (s.threads t)) (move : Move s.disconnected (s.threads t) role ts out) :
    (s.record t out).steps t ts := by
  cases move with
  | register unborn => exact steps
  | exit live running => exact steps
  | pass live running gone => exact steps
  | enter live running there => rfl
  | leave leaving =>
    exact .inr ⟨_, List.mem_append_right _ (List.mem_singleton_self _), rfl, rfl, rfl⟩
  | refuse request late refusing =>
    simp only [State.steps, refusing, Pc.inStop] at steps
    obtain ⟨running, _⟩ | released := steps
    · exact absurd running (by simp)
    · exact .inr released
  | left refusing =>
    simp only [State.steps, refusing, Pc.inStop] at steps
    obtain ⟨running, _⟩ | released := steps
    · exact absurd running (by simp)
    · exact .inr released
  | announce at_ | sleep at_ _ | wake at_ | take _ _ at_ _ | resume at_ _ _ | answer _ at_ =>
    simp only [State.steps, at_, Pc.inStop] at steps
    exact steps

theorem notified_steps {s s' : State T} {t : T} {ts : ThreadState} (steps : s.steps t ts)
    (releases : s'.releases = s.releases) : s'.steps t ts.notified := by
  have kept : ∀ release ∈ s.releases, release ∈ s'.releases := by
    rw [releases]
    exact fun _ mem => mem
  unfold ThreadState.notified
  split
  · rename_i asleep
    simp only [State.steps, asleep, Pc.inStop] at steps
    exact steps
  · exact steps_kept steps kept

section
variable [DecidableEq T]

theorem request_issued {s : State T} (once : Once s) {place : Place T} {id : Nat}
    (there : id ∈ s.at_ place) : id < s.issued := by
  by_contra later
  have absent := (once id).2 (by omega) place
  rw [List.count_eq_zero] at absent
  exact absent there

theorem answer_issued {s : State T} (once : Once s) {a : Answer T} (mem : a ∈ s.answers) :
    a.request < s.issued :=
  request_issued once (show a.request ∈ s.at_ .answered from List.mem_map_of_mem mem)

theorem thread_history {s : State T} {t : T} {role : Role} {ts : ThreadState} {out : Output}
    (history : History s) (fits : Fits s.around t (s.threads t))
    (move : Move s.disconnected (s.threads t) role ts out) :
    History ((s.record t out).setThread t ts) where
  came := by cases out <;> exact history.came
  queuedOnce := by cases out <;> exact history.queuedOnce
  unqueued := by cases out <;> exact history.unqueued
  answered := by
    intro a mem u n stop
    have queued := (thread_answers history fits move mem).1 u n stop
    cases out <;> exact queued
  refused := by
    intro a mem refused u n queued
    have queued' : (a.request, u, n) ∈ s.queued := by cases out <;> exact queued
    obtain ⟨release, there, same⟩ := (thread_answers history fits move mem).2 refused u n queued'
    exact ⟨release, releases_kept there, same⟩
  orderedOnce := by cases out <;> exact history.orderedOnce
  released := by
    intro release mem
    have ordered := thread_releases history fits move mem
    cases out <;> exact ordered
  stepping := by
    intro u
    by_cases h : u = t
    · subst h
      rw [setThread_threads_self]
      exact steps_kept (thread_steps (history.stepping u) move) (fun _ mem => mem)
    · rw [setThread_threads_ne _ _ h, record_threads]
      exact steps_kept (history.stepping u) (fun _ mem => releases_kept mem)
  atEnd := by cases out <;> exact history.atEnd

theorem setThread_steps {s s' : State T} {t : T} {ts : ThreadState} (history : History s)
    (steps : s.steps t ts) (threads : s'.threads = Function.update s.threads t ts)
    (releases : s'.releases = s.releases) (u : T) : s'.steps u (s'.threads u) := by
  have kept : ∀ release ∈ s.releases, release ∈ s'.releases := by
    rw [releases]
    exact fun _ mem => mem
  rw [threads]
  by_cases h : u = t
  · subst h
    rw [Function.update_self]
    exact steps_kept steps kept
  · rw [Function.update_of_ne h]
    exact steps_kept (history.stepping u) kept

theorem queue_history {s : State T} {t : T} (history : History s) (once : Once s) :
    History { s.setThread t { s.threads t with
          requests := (s.threads t).requests ++ [s.issued] } with
        protocol := .notifying
        issued := s.issued + 1
        queued := s.queued ++ [(s.issued, t, (s.threads t).stops)] } where
  came := by
    intro id u n queued
    rcases List.mem_append.mp queued with old | new
    · exact Nat.lt_succ_of_lt (history.came id u n old)
    · simp only [List.mem_singleton, Prod.mk.injEq] at new
      simp [new.1]
  queuedOnce := by
    intro id u n u' n' queued queued'
    rw [List.mem_append, List.mem_singleton, Prod.mk.injEq] at queued queued'
    rcases queued with old | ⟨rfl, new⟩ <;> rcases queued' with old' | ⟨new', new''⟩
    · exact history.queuedOnce id u n u' n' old old'
    · exact absurd (history.came id u n old) (by omega)
    · exact absurd (history.came _ u' n' old') (by omega)
    · exact ⟨by simp_all, by simp_all⟩
  unqueued := by simp [Protocol.held]
  answered := by
    intro a mem u n stop
    exact List.mem_append_left _ (history.answered a mem u n stop)
  refused := by
    intro a mem refused u n queued
    rcases List.mem_append.mp queued with old | new
    · exact history.refused a mem refused u n old
    · simp only [List.mem_singleton, Prod.mk.injEq] at new
      exact absurd (answer_issued once mem) (by omega)
  orderedOnce := history.orderedOnce
  released := history.released
  stepping := by
    have steps : s.steps t { s.threads t with
        requests := (s.threads t).requests ++ [s.issued] } := history.stepping t
    exact setThread_steps history steps rfl rfl
  atEnd := fun _ => .inl rfl

theorem order_history {s : State T} {t : T} {r : Resume} (history : History s)
    (fits : Fits s.around t (s.threads t)) (inspectable : (s.threads t).inspectable) :
    History { s.setThread t { s.threads t with resume := r, resumeReady := true } with
        protocol := .notifying
        orders := s.orders ++ [(t, (s.threads t).stops, r)] } where
  came := history.came
  queuedOnce := history.queuedOnce
  unqueued := by simp [Protocol.held]
  answered := history.answered
  refused := history.refused
  orderedOnce := by
    -- the thread had no order for this stop
    have none := fits.unordered (fits.inStop_of_inspectable inspectable) inspectable.2.2
    intro u n r' r'' given given'
    rw [List.mem_append, List.mem_singleton, Prod.mk.injEq, Prod.mk.injEq] at given given'
    rcases given with old | ⟨rfl, rfl, rfl⟩ <;> rcases given' with old' | ⟨same, same', rfl⟩
    · exact history.orderedOnce u n r' r'' old old'
    · subst same same'
      exact absurd old (none r')
    · exact absurd old' (none r'')
    · rfl
  released := by
    intro release mem
    obtain gone | ⟨there, r', given, kind⟩ := history.released release mem
    · exact .inl gone
    · exact .inr ⟨there, r', List.mem_append_left _ given, kind⟩
  stepping := by
    have steps : s.steps t { s.threads t with resume := r, resumeReady := true } :=
      history.stepping t
    exact setThread_steps history steps rfl rfl
  atEnd := fun _ => .inl rfl

theorem Step.history {a : Actor T} {s s' : State T} (step : Step a s s') (history : History s)
    (once : Once s) (fits : ∀ t, Fits s.around t (s.threads t)) : History s' := by
  cases step with
  | thread t role ts out move => exact thread_history history (fits t) move
  | queue t reading _ => exact queue_history history once
  | order t r reading inspectable => exact order_history history (fits t) inspectable
  | refuse t reading _ =>
    obtain ⟨came, queuedOnce, unqueued, answered, refused, orderedOnce, released, stepping, atEnd⟩ :=
      history
    refine ⟨?_, queuedOnce, ?_, answered, refused, orderedOnce, released, stepping, ?_⟩
    · exact fun id t n queued => Nat.lt_succ_of_lt (came id t n queued)
    · intro id held
      simp only [Protocol.held, List.mem_singleton] at held
      subst held
      exact ⟨by simp, fun t n queued => absurd (came _ t n queued) (by simp)⟩
    · intro gone
      exact absurd (atEnd gone) (by simp [reading])
  | refused request refusing =>
    obtain ⟨came, queuedOnce, unqueued, answered, refused, orderedOnce, released, stepping, atEnd⟩ :=
      history
    refine ⟨came, queuedOnce, by simp [Protocol.held], ?_, ?_, orderedOnce, released, stepping, ?_⟩
    · intro a mem t n stop
      rcases List.mem_append.mp mem with old | new
      · exact answered a old t n stop
      · rw [List.mem_singleton] at new
        subst new
        exact absurd stop (by simp)
    · intro a mem stop t n queued
      rcases List.mem_append.mp mem with old | new
      · exact refused a old stop t n queued
      · rw [List.mem_singleton] at new
        subst new
        exact absurd queued ((unqueued request (by simp [refusing, Protocol.held])).2 t n)
    · intro gone
      exact absurd (atEnd gone) (by simp [refusing])
  | orderIgnored t reading _ | disconnect reading =>
    obtain ⟨came, queuedOnce, unqueued, answered, refused, orderedOnce, released, stepping, atEnd⟩ :=
      history
    exact ⟨came, queuedOnce, by simp [Protocol.held], answered, refused, orderedOnce, released,
      stepping, fun _ => .inl rfl⟩
  | notify notifying =>
    obtain ⟨came, queuedOnce, unqueued, answered, refused, orderedOnce, released, stepping, atEnd⟩ :=
      history
    refine ⟨came, queuedOnce, ?_, answered, refused, orderedOnce, released, ?_, ?_⟩
    · cases s.disconnected <;> simp [Protocol.held]
    · exact fun t => notified_steps (stepping t) rfl
    · intro gone
      exact .inr (if_pos gone)

theorem history_of_reachable {s : State T} (reach : Reachable s) : History s := by
  refine FairRuns.Reachable.rec_on reach ?_ ?_
  · exact ⟨by simp, by simp, by simp [Protocol.held], by simp, by simp, by simp, by simp,
      fun t => .inl ⟨rfl, rfl, rfl⟩, by simp⟩
  · intro a s s' reach history step
    exact step.history history (once_of_reachable reach) (fits_of_reachable reach)

end
end ProtoClojure.Dap.Stops
