import ProtoClojure.Dap.StopRequests

/-! What holds of every thread of the debugged program, in a stop and out of it. -/
namespace ProtoClojure.Dap.Stops

variable {T : Type}

/-- What a thread's state is held against. -/
structure Surroundings (T : Type) where
  disconnected : Bool
  protocol : Protocol
  queued : List (Nat × T × Nat)
  orders : List (T × Nat × Resume)

def State.around (s : State T) : Surroundings T :=
  ⟨s.disconnected, s.protocol, s.queued, s.orders⟩

structure Fits (e : Surroundings T) (t : T) (ts : ThreadState) : Prop where
  stopped : ts.stopped = ts.pc.inStop
  empty : ts.pc.inStop = false → ts.requests = []
  current : ∀ request ∈ ts.held, (request, t, ts.stops) ∈ e.queued
  past : ∀ n r, (t, n, r) ∈ e.orders → n ≤ ts.stops
  ordered : ts.pc.inStop = true → ts.resumeReady = true → (t, ts.stops, ts.resume) ∈ e.orders
  unordered : ts.pc.inStop = true → ts.resumeReady = false → ∀ r, (t, ts.stops, r) ∉ e.orders
  leaving : ts.pc = .leaving → ts.resumeReady = true ∨ e.disconnected = true
  woken : ts.pc = .asleep → ts.awaited e.disconnected = true → e.protocol = .notifying

theorem Fits.move {e : Surroundings T} {t : T} {ts ts' : ThreadState} {role : Role} {out : Output}
    (fits : Fits e t ts) (move : Move e.disconnected ts role ts' out) : Fits e t ts' := by
  obtain ⟨stopped, empty, current, past, ordered, unordered, leaving, woken⟩ := fits
  have current' : ∀ request ∈ ts'.held, (request, t, ts.stops) ∈ e.queued := by
    intro request held
    apply current
    rw [move.held_eq]
    exact List.mem_append_right _ held
  cases move with
  | register unborn => exact ⟨stopped, empty, current, past, ordered, unordered, leaving, woken⟩
  | exit live running => exact ⟨stopped, empty, current, past, ordered, unordered, leaving, woken⟩
  | pass live running gone => exact ⟨stopped, empty, current, past, ordered, unordered, leaving, woken⟩
  | enter live running there =>
    have none := empty (by rw [running]; rfl)
    refine ⟨rfl, by simp [Pc.inStop], ?_, ?_, by simp, ?_, by simp, by simp⟩
    · simp [ThreadState.held, Pc.held, none]
    · intro n r given
      exact Nat.le_succ_of_le (past n r given)
    · -- the orders so far are for earlier stops
      intro _ _ r given
      exact absurd (past _ r given) (by simp)
  | announce announcing =>
    simp only [announcing, Pc.inStop] at *
    exact ⟨stopped, by simp [Pc.inStop], current', past, fun _ => ordered trivial,
      fun _ => unordered trivial, by simp, by simp⟩
  | sleep waiting notAwaited =>
    simp only [waiting, Pc.inStop] at *
    refine ⟨stopped, by simp [Pc.inStop], current', past, fun _ => ordered trivial,
      fun _ => unordered trivial, by simp, ?_⟩
    intro _ awaited
    exact absurd (notAwaited.symm.trans awaited) (by simp)
  | wake asleep =>
    simp only [asleep, Pc.inStop] at *
    exact ⟨stopped, by simp [Pc.inStop], current', past, fun _ => ordered trivial,
      fun _ => unordered trivial, by simp, by simp⟩
  | take request rest waiting requests =>
    simp only [waiting, Pc.inStop] at *
    exact ⟨stopped, by simp [Pc.inStop], current', past, fun _ => ordered trivial,
      fun _ => unordered trivial, by simp, by simp⟩
  | resume waiting awaited none =>
    simp only [waiting, Pc.inStop] at *
    refine ⟨stopped, by simp [Pc.inStop], current', past, fun _ => ordered trivial,
      fun _ => unordered trivial, ?_, by simp⟩
    intro _
    simpa [ThreadState.awaited, none] using awaited
  | answer request answering =>
    simp only [answering, Pc.inStop] at *
    exact ⟨stopped, by simp [Pc.inStop], current', past, fun _ => ordered trivial,
      fun _ => unordered trivial, by simp, by simp⟩
  | leave leave =>
    exact ⟨rfl, by simp, current', past, by simp [Pc.inStop], by simp [Pc.inStop], by simp, by simp⟩
  | refuse request late refusing =>
    simp only [refusing, Pc.inStop] at *
    exact ⟨stopped, fun _ => empty trivial, current', past, by simp [Pc.inStop],
      by simp [Pc.inStop], by simp, by simp⟩
  | left refusing =>
    simp only [refusing, Pc.inStop] at *
    exact ⟨stopped, fun _ => empty trivial, current', past, by simp [Pc.inStop],
      by simp [Pc.inStop], by simp, by simp⟩

theorem Fits.notified {e e' : Surroundings T} {t : T} {ts : ThreadState} (fits : Fits e t ts)
    (disconnected : e'.disconnected = e.disconnected) (queued : e'.queued = e.queued)
    (orders : e'.orders = e.orders) : Fits e' t ts.notified := by
  have held := notified_held ts
  obtain ⟨stopped, empty, current, past, ordered, unordered, leaving, woken⟩ := fits
  rw [← queued, ← held] at current
  rw [← orders] at past ordered unordered
  rw [← disconnected] at leaving
  by_cases asleep : ts.pc = .asleep
  · simp only [ThreadState.notified, if_pos asleep] at current ⊢
    simp only [asleep, Pc.inStop] at *
    exact ⟨stopped, by simp [Pc.inStop], current, past, fun _ => ordered trivial,
      fun _ => unordered trivial, by simp, by simp⟩
  · simp only [ThreadState.notified, if_neg asleep] at current ⊢
    exact ⟨stopped, empty, current, past, ordered, unordered, leaving, fun h => absurd h asleep⟩

/-- A thread nobody touched fits as before, once the protocol thread is about to notify. -/
theorem Fits.mono {e e' : Surroundings T} {t : T} {ts : ThreadState} (fits : Fits e t ts)
    (notifying : e'.protocol = .notifying) (queued : e.queued ⊆ e'.queued)
    (orders : ∀ n r, (t, n, r) ∈ e'.orders ↔ (t, n, r) ∈ e.orders)
    (disconnected : e.disconnected = true → e'.disconnected = true) : Fits e' t ts := by
  obtain ⟨stopped, empty, current, past, ordered, unordered, leaving, woken⟩ := fits
  refine ⟨stopped, empty, ?_, ?_, ?_, ?_, ?_, fun _ _ => notifying⟩
  · exact fun request held => queued (current request held)
  · exact fun n r given => past n r ((orders n r).1 given)
  · exact fun inStop ready => (orders _ _).2 (ordered inStop ready)
  · exact fun inStop notReady r given => unordered inStop notReady r ((orders _ r).1 given)
  · exact fun leave => (leaving leave).imp_right disconnected

theorem Fits.inStop_of_inspectable {e : Surroundings T} {t : T} {ts : ThreadState}
    (fits : Fits e t ts) (inspectable : ts.inspectable) : ts.pc.inStop = true :=
  fits.stopped.symm.trans inspectable.2.1

theorem Fits.queue {e e' : Surroundings T} {t : T} {ts : ThreadState} {request : Nat}
    (fits : Fits e t ts) (inspectable : ts.inspectable) (notifying : e'.protocol = .notifying)
    (queued : e'.queued = e.queued ++ [(request, t, ts.stops)]) (orders : e'.orders = e.orders)
    (disconnected : e'.disconnected = e.disconnected) :
    Fits e' t { ts with requests := ts.requests ++ [request] } := by
  have inStop := fits.inStop_of_inspectable inspectable
  obtain ⟨stopped, empty, current, past, ordered, unordered, leaving, woken⟩ := fits
  refine ⟨stopped, ?_, ?_, by rwa [orders], by rwa [orders], by rwa [orders],
    by rwa [disconnected], fun _ _ => notifying⟩
  · exact fun out => absurd (inStop.symm.trans out) (by simp)
  · intro other held
    rw [queued]
    simp only [ThreadState.held, ← List.append_assoc] at held current
    rcases List.mem_append.mp held with old | new
    · exact List.mem_append_left _ (current other old)
    · rw [List.mem_singleton] at new
      subst new
      simp

theorem Fits.order {e e' : Surroundings T} {t : T} {ts : ThreadState} {r : Resume}
    (fits : Fits e t ts) (notifying : e'.protocol = .notifying)
    (queued : e'.queued = e.queued) (orders : e'.orders = e.orders ++ [(t, ts.stops, r)]) :
    Fits e' t { ts with resume := r, resumeReady := true } := by
  obtain ⟨stopped, empty, current, past, ordered, unordered, leaving, woken⟩ := fits
  refine ⟨stopped, empty, by rwa [queued], ?_, ?_, by simp, by simp, fun _ _ => notifying⟩
  · intro n r' given
    rw [orders, List.mem_append, List.mem_singleton] at given
    rcases given with old | new
    · exact past n r' old
    · simp only [Prod.mk.injEq] at new
      exact new.2.1.le
  · intro _ _
    rw [orders]
    simp

theorem record_around (s : State T) (t : T) (out : Output) : (s.record t out).around = s.around := by
  cases out <;> rfl

section
variable [DecidableEq T]

/-- One step keeps every thread as it should be. -/
theorem Step.fits {a : Actor T} {s s' : State T} (step : Step a s s')
    (fits : ∀ t, Fits s.around t (s.threads t)) (u : T) : Fits s'.around u (s'.threads u) := by
  cases step with
  | thread t role ts out move =>
    have around : ((s.record t out).setThread t ts).around = s.around := record_around s t out
    rw [around]
    by_cases h : u = t
    · subst h
      rw [setThread_threads_self]
      exact (fits u).move move
    · rw [setThread_threads_ne _ _ h, record_threads]
      exact fits u
  | queue t reading inspectable =>
    by_cases h : u = t
    · subst h
      simp only [setThread_threads_self]
      exact (fits u).queue inspectable rfl rfl rfl rfl
    · simp only [setThread_threads_ne _ _ h]
      exact (fits u).mono rfl (List.subset_append_left _ _) (fun _ _ => Iff.rfl) id
  | refuse t reading _ =>
    obtain ⟨stopped, empty, current, past, ordered, unordered, leaving, woken⟩ := fits u
    refine ⟨stopped, empty, current, past, ordered, unordered, leaving, ?_⟩
    intro asleep awaited
    exact absurd (reading.symm.trans (woken asleep awaited)) (by simp)
  | refused request refusing =>
    obtain ⟨stopped, empty, current, past, ordered, unordered, leaving, woken⟩ := fits u
    refine ⟨stopped, empty, current, past, ordered, unordered, leaving, ?_⟩
    intro asleep awaited
    exact absurd (refusing.symm.trans (woken asleep awaited)) (by simp)
  | order t r reading inspectable =>
    by_cases h : u = t
    · subst h
      simp only [setThread_threads_self]
      exact (fits u).order rfl rfl rfl
    · simp only [setThread_threads_ne _ _ h]
      refine (fits u).mono rfl (List.Subset.refl _) (fun n r' => ?_) id
      simp [State.around, State.setThread, h]
  | orderIgnored t reading _ =>
    exact (fits u).mono rfl (List.Subset.refl _) (fun _ _ => Iff.rfl) id
  | disconnect reading =>
    exact (fits u).mono rfl (List.Subset.refl _) (fun _ _ => Iff.rfl) (fun _ => rfl)
  | notify notifying => exact (fits u).notified rfl rfl rfl

theorem fits_of_reachable {s : State T} (reach : Reachable s) (t : T) :
    Fits s.around t (s.threads t) := by
  refine FairRuns.Reachable.rec_on (motive := fun s => ∀ t, Fits s.around t (s.threads t))
    reach ?_ ?_ t
  · intro t
    exact ⟨rfl, fun _ => rfl, by simp [ThreadState.held, Pc.held], by simp [State.around], by simp [Pc.inStop],
      by simp [Pc.inStop], by simp, by simp⟩
  · intro a s s' _ fits step
    exact step.fits fits

end
end ProtoClojure.Dap.Stops
