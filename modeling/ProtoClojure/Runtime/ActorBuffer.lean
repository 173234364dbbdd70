import ProtoClojure.Runtime.ActorDelivery

/-! The scheduler on a machine with store buffers: a worker's `claimed = false` may reach
memory after the mailbox reads that follow it. -/

namespace ProtoClojure.ActorScheduler
variable {C A P : Type} {n : Nat}

/-- `memory.claimed` is what memory holds of the flags. -/
structure Buffered (C A P : Type) (n : Nat) where
  memory : State C A P n
  buffer : Fin (n + 1) → Option A          -- a store `claimed = false` still on its way

def Buffered.start (todo : C → List (Send A P)) : Buffered C A P n :=
  ⟨State.start todo, fun _ => none⟩

/-- The next access is a compare-and-set or takes the queue mutex. -/
def Phase.fences : Phase C A P n → Bool
  | .popReady | .reclaim _ | .requeue _ _ => true
  | _ => false

section Steps
variable [DecidableEq C] [DecidableEq A]

inductive BufferedStep : Buffered C A P n → Buffered C A P n → Prop where
  /-- the release store, `memory_order_release`, into the worker's buffer -/
  | release (m w a) : m.memory.phase w = .batch a [] → m.buffer w = none →
      BufferedStep m ⟨m.memory.setPhase w (.recheck a .high), Function.update m.buffer w (some a)⟩
  | drain (m w a) : m.buffer w = some a →
      BufferedStep m ⟨m.memory.setClaimed a false, Function.update m.buffer w none⟩
  /-- any other access acts on memory; one that fences waits for the buffer to drain -/
  | access (m s') : Step m.memory s' →
      (∀ w a, m.memory.phase w = .batch a [] → s'.phase w = m.memory.phase w) →
      (∀ w, (m.memory.phase w).fences = true → m.buffer w ≠ none → s'.phase w = m.memory.phase w) →
      BufferedStep m ⟨s', m.buffer⟩

def BufferedReachable (todo : C → List (Send A P)) (m : Buffered C A P n) : Prop :=
  Relation.ReflTransGen BufferedStep (Buffered.start todo) m

/-- No sender and no worker has a step left, and every store has reached memory. -/
def BufferedQuiescent (m : Buffered C A P n) : Prop := ∀ m', ¬ BufferedStep m m'

/-- A message waits in a mailbox and nobody will look: the actor is unclaimed and in no
ready queue. -/
def Lost (s : State C A P n) (a : A) : Prop :=
  s.claimed a = false ∧ a ∉ s.readyList ∧ ∃ b, s.mailbox a b ≠ []

/-- A step in which no worker finds a mailbox empty while its release is in the buffer. -/
def TimelyStep (m m' : Buffered C A P n) : Prop :=
  BufferedStep m m' ∧ ∀ w a band, m.memory.phase w = .recheck a band →
    m.memory.mailbox a band = [] → m.buffer w ≠ none → m'.memory.phase w = m.memory.phase w

/-! ### The same run without buffers -/

/-- The release happens when it reaches memory: until then the worker has its batch done. -/
def Buffered.unbuffered (m : Buffered C A P n) : State C A P n :=
  { m.memory with phase := fun w =>
      match m.buffer w with
      | some a => .batch a []
      | none => m.memory.phase w }

/-- Where a worker can be while its release is in the buffer. -/
def Held (m : Buffered C A P n) : Prop :=
  ∀ w a, m.buffer w = some a → m.memory.phase w = .recheck a .high ∨
    (m.memory.phase w = .reclaim a ∧ m.memory.mailbox a .high ≠ [])

omit [DecidableEq C] [DecidableEq A] in
theorem unbuffered_phase {m : Buffered C A P n} {w : Fin (n + 1)} (h : m.buffer w = none) :
    m.unbuffered.phase w = m.memory.phase w := by
  simp [Buffered.unbuffered, h]

omit [DecidableEq C] [DecidableEq A] in
theorem unbuffered_phase_some {m : Buffered C A P n} {w : Fin (n + 1)} {a : A}
    (h : m.buffer w = some a) : m.unbuffered.phase w = .batch a [] := by
  simp [Buffered.unbuffered, h]

omit [DecidableEq C] [DecidableEq A] in
theorem unbuffered_setPhase {s : State C A P n} {buffer : Fin (n + 1) → Option A}
    {w : Fin (n + 1)} (h : buffer w = none) (ph : Phase C A P n) :
    Buffered.unbuffered ⟨s.setPhase w ph, buffer⟩ =
      (Buffered.unbuffered ⟨s, buffer⟩).setPhase w ph := by
  simp only [Buffered.unbuffered, State.setPhase]
  congr 1
  funext w'
  by_cases hw : w' = w
  · rw [hw, Function.update_self]
    simp [h]
  · rw [Function.update_of_ne hw]
    simp [Function.update_of_ne hw]

omit [DecidableEq C] [DecidableEq A] in
/-- A worker that only goes on while its release is in the buffer has not moved yet. -/
theorem unbuffered_setPhase_some {s : State C A P n} {buffer : Fin (n + 1) → Option A}
    {w : Fin (n + 1)} {a : A} (h : buffer w = some a) (ph : Phase C A P n) :
    Buffered.unbuffered ⟨s.setPhase w ph, buffer⟩ = Buffered.unbuffered ⟨s, buffer⟩ := by
  simp only [Buffered.unbuffered, State.setPhase]
  congr 1
  funext w'
  by_cases hw : w' = w
  · rw [hw]
    simp [h]
  · simp [Function.update_of_ne hw]

omit [DecidableEq C] [DecidableEq A] in
theorem Held.drained {m : Buffered C A P n} (h : Held m) {w : Fin (n + 1)}
    (h₁ : ∀ a, m.memory.phase w ≠ .recheck a .high) (h₂ : ∀ a, m.memory.phase w ≠ .reclaim a) :
    m.buffer w = none := by
  cases hb : m.buffer w with
  | none => rfl
  | some a =>
    rcases h w a hb with hp | ⟨hp, -⟩
    · exact absurd hp (h₁ a)
    · exact absurd hp (h₂ a)

omit [DecidableEq C] [DecidableEq A] in
/-- A step that leaves a buffered worker where it is, and fills no less of the mailboxes. -/
theorem Held.frame {m : Buffered C A P n} {s' : State C A P n} (h : Held m)
    (hp : ∀ w, m.buffer w ≠ none → s'.phase w = m.memory.phase w)
    (hm : ∀ a w, m.buffer w = some a → m.memory.mailbox a .high ≠ [] → s'.mailbox a .high ≠ []) :
    Held (⟨s', m.buffer⟩ : Buffered C A P n) := by
  intro w a hb
  have hpw := hp w (by simp [show m.buffer w = some a from hb])
  rcases h w a hb with hph | ⟨hph, hne⟩
  · exact .inl (hpw.trans hph)
  · exact .inr ⟨hpw.trans hph, hm a w hb hne⟩

omit [DecidableEq C] [DecidableEq A] in
theorem Held.setPhase {m : Buffered C A P n} (h : Held m) {w : Fin (n + 1)}
    (hw : m.buffer w = none) (ph : Phase C A P n) :
    Held (⟨m.memory.setPhase w ph, m.buffer⟩ : Buffered C A P n) := by
  refine h.frame (fun w' hw' => ?_) fun _ _ _ hne => hne
  rw [setPhase_phase, Function.update_of_ne]
  rintro rfl
  exact hw' hw

/-- The states of the run without buffers that a timely run stands for. -/
structure Tracked (todo : C → List (Send A P)) (m : Buffered C A P n) : Prop where
  reachable : Reachable todo m.unbuffered
  held : Held m

theorem Tracked.start (todo : C → List (Send A P)) :
    Tracked todo (Buffered.start todo : Buffered C A P n) :=
  ⟨.refl, fun _ _ h => nomatch h⟩

/-- An access by a worker whose buffer is empty, or by a client, is one step of the run
without buffers. -/
theorem Tracked.setPhase {todo : C → List (Send A P)} {m : Buffered C A P n} {s : State C A P n}
    (h : Tracked todo m) {w : Fin (n + 1)} {ph : Phase C A P n} (hw : m.buffer w = none)
    (hheld : Held (⟨s, m.buffer⟩ : Buffered C A P n))
    (hs : Step m.unbuffered ((Buffered.unbuffered ⟨s, m.buffer⟩).setPhase w ph)) :
    Tracked todo (⟨s.setPhase w ph, m.buffer⟩ : Buffered C A P n) := by
  refine ⟨?_, Held.setPhase (m := ⟨s, m.buffer⟩) hheld hw ph⟩
  rw [unbuffered_setPhase hw]
  exact h.reachable.tail hs

/-- Only the worker that holds an actor takes from its mailboxes. -/
theorem Tracked.takeAll_ne {todo : C → List (Send A P)} {m : Buffered C A P n}
    (h : Tracked todo m) {w w' : Fin (n + 1)} {a a' : A} {band : ActorPriority}
    {turn : List (Message C A P n)} (hph : m.memory.phase w = .takeAll a band turn)
    (hw : m.buffer w = none) (hw' : m.buffer w' = some a') : a' ≠ a := by
  rintro rfl
  have hold : (m.unbuffered.phase w).holds = some a' := by
    rw [unbuffered_phase hw, hph]
    rfl
  have hold' : (m.unbuffered.phase w').holds = some a' := by
    rw [unbuffered_phase_some hw']
    rfl
  have heq := (h.reachable.invariant.token a').holds_unique hold hold'
  rw [heq, hw'] at hw
  cases hw

/-- A step by a client, or by a worker inside `send`: no worker moves. -/
theorem Tracked.sender {todo : C → List (Send A P)} {m : Buffered C A P n} {s' : State C A P n}
    (h : Tracked todo m) (hp : s'.phase = m.memory.phase)
    (hm : ∀ a, m.memory.mailbox a .high ≠ [] → s'.mailbox a .high ≠ [])
    (hs : Step m.unbuffered (Buffered.unbuffered ⟨s', m.buffer⟩)) :
    Tracked todo (⟨s', m.buffer⟩ : Buffered C A P n) :=
  ⟨h.reachable.tail hs, h.held.frame (fun w _ => congrFun hp w) fun a _ _ hne => hm a hne⟩

omit [DecidableEq C] [DecidableEq A] in
theorem unbuffered_release {m : Buffered C A P n} {w : Fin (n + 1)} {a : A}
    (hph : m.memory.phase w = .batch a []) (hw : m.buffer w = none) (ph : Phase C A P n) :
    Buffered.unbuffered ⟨m.memory.setPhase w ph, Function.update m.buffer w (some a)⟩ =
      m.unbuffered := by
  simp only [Buffered.unbuffered, State.setPhase]
  congr 1
  funext w'
  by_cases hww : w' = w
  · rw [hww]
    simp [hw, hph]
  · simp [Function.update_of_ne hww]

omit [DecidableEq C] in
theorem unbuffered_drain (m : Buffered C A P n) (w : Fin (n + 1)) (a : A) :
    Buffered.unbuffered ⟨m.memory.setClaimed a false, Function.update m.buffer w none⟩ =
      (m.unbuffered.setClaimed a false).setPhase w (m.memory.phase w) := by
  simp only [Buffered.unbuffered, State.setPhase, State.setClaimed]
  congr 1
  funext w'
  by_cases hww : w' = w
  · rw [hww]
    simp
  · simp [Function.update_of_ne hww]

omit [DecidableEq C] [DecidableEq A] in
theorem setPhase_setPhase (s : State C A P n) (w : Fin (n + 1)) (ph ph' : Phase C A P n) :
    (s.setPhase w ph).setPhase w ph' = s.setPhase w ph' := by
  simp [State.setPhase]

/-- The store reaches memory: the release of the run without buffers, and the read that
found a message when the worker has made it already. -/
theorem Tracked.drain {todo : C → List (Send A P)} {m : Buffered C A P n} {w : Fin (n + 1)}
    {a : A} (h : Tracked todo m) (hw : m.buffer w = some a) :
    Tracked todo (⟨m.memory.setClaimed a false, Function.update m.buffer w none⟩ :
      Buffered C A P n) := by
  have hrel := Step.release m.unbuffered w a (unbuffered_phase_some hw)
  refine ⟨?_, fun w' a' hb => ?_⟩
  · rw [unbuffered_drain]
    rcases h.held w a hw with hph | ⟨hph, hne⟩
    · rw [hph]
      exact h.reachable.tail hrel
    · have hread := Step.recheckPending
        ((m.unbuffered.setClaimed a false).setPhase w (.recheck a .high)) w a .high (by simp) hne
      rw [setPhase_setPhase] at hread
      rw [hph]
      exact (h.reachable.tail hrel).tail hread
  · by_cases hww : w' = w
    · rw [hww] at hb
      simp at hb
    · simp only [Function.update_of_ne hww] at hb
      exact h.held w' a' hb

theorem Tracked.step {todo : C → List (Send A P)} {m m' : Buffered C A P n}
    (h : Tracked todo m) (hs : TimelyStep m m') : Tracked todo m' := by
  obtain ⟨hstep, htimely⟩ := hs
  have free {w : Fin (n + 1)} (hw : m.buffer w = none) : m.unbuffered.phase w = m.memory.phase w :=
    unbuffered_phase hw
  cases hstep with
  | release w a hph hw =>
    refine ⟨?_, fun w' a' hb => ?_⟩
    · rw [unbuffered_release hph hw]
      exact h.reachable
    · by_cases hww : w' = w
      · rw [hww] at hb ⊢
        simp only [Function.update_self, Option.some.injEq] at hb
        exact .inl (by simp [hb])
      · simp only [Function.update_of_ne hww] at hb
        simpa [Function.update_of_ne hww] using h.held w' a' hb
  | drain w a hw => exact h.drain hw
  | access s' hs hrel hfence =>
    cases hs with
    | push t msg rest hpc htodo =>
      refine h.sender rfl (fun a hne => ?_) (.push _ t msg rest hpc htodo)
      simp only [State.push, setMailbox_mailbox]
      split_ifs
      · simp
      · exact hne
    | claimLost t a band hpc hc => exact h.sender rfl (fun _ hne => hne) (.claimLost _ t a band hpc hc)
    | claimWon t a band hpc hc => exact h.sender rfl (fun _ hne => hne) (.claimWon _ t a band hpc hc)
    | enqueue t a band hpc => exact h.sender rfl (fun _ hne => hne) (.enqueue _ t a band hpc)
    | popReady w band a rest hph hband hr =>
      have hw := h.held.drained (w := w) (by simp [hph]) (by simp [hph])
      exact h.setPhase hw (h.held.frame (fun _ _ => rfl) fun _ _ _ hne => hne)
        (.popReady _ w band a rest ((free hw).trans hph) hband hr)
    | takeAll w a band turn hph =>
      have hw := h.held.drained (w := w) (by simp [hph]) (by simp [hph])
      refine h.setPhase hw (h.held.frame (fun _ _ => rfl) fun a' w' hb hne => ?_)
        (.takeAll _ w a band turn ((free hw).trans hph))
      rw [setMailbox_mailbox, if_neg fun he => h.takeAll_ne hph hw hb he.1]
      exact hne
    | run w a msg turn sends hph =>
      have hw := h.held.drained (w := w) (by simp [hph]) (by simp [hph])
      exact h.setPhase hw (h.held.frame (fun _ _ => rfl) fun _ _ _ hne => hne)
        (.run _ w a msg turn sends ((free hw).trans hph))
    | finish w a msg turn hph htodo hpc =>
      have hw := h.held.drained (w := w) (by simp [hph]) (by simp [hph])
      exact h.setPhase hw (h.held.frame (fun _ _ => rfl) fun _ _ _ hne => hne)
        (.finish _ w a msg turn ((free hw).trans hph) htodo hpc)
    | release w a hph =>
      have hstay := hrel w a hph
      rw [hph] at hstay
      simp at hstay
    | recheckEmpty w a band hph he =>
      have hw : m.buffer w = none := by
        by_contra hne
        have hstay := htimely w a band hph he hne
        rw [hph] at hstay
        cases band <;> simp [afterEmpty] at hstay
      exact h.setPhase hw h.held (.recheckEmpty _ w a band ((free hw).trans hph) he)
    | recheckPending w a band hph hne =>
      cases hw : m.buffer w with
      | none => exact h.setPhase hw h.held (.recheckPending _ w a band ((free hw).trans hph) hne)
      | some a' =>
        -- only the first read can have been made
        have hfirst : a' = a ∧ band = .high := by
          rcases h.held w a' hw with hp | ⟨hp, -⟩
          · rw [hph] at hp
            cases hp
            exact ⟨rfl, rfl⟩
          · rw [hph] at hp
            cases hp
        obtain ⟨rfl, rfl⟩ := hfirst
        refine ⟨?_, fun w' a'' hb => ?_⟩
        · rw [unbuffered_setPhase_some hw]
          exact h.reachable
        · by_cases hww : w' = w
          · rw [hww] at hb ⊢
            rw [hw] at hb
            cases hb
            exact .inr ⟨by simp, hne⟩
          · simpa [Function.update_of_ne hww] using h.held w' a'' hb
    | reclaimLost w a hph hc =>
      have hw : m.buffer w = none := by
        by_contra hne
        have hstay := hfence w (by rw [hph]; rfl) hne
        rw [hph] at hstay
        simp at hstay
      exact h.setPhase hw h.held (.reclaimLost _ w a ((free hw).trans hph) hc)
    | reclaimWon w a hph hc =>
      have hw : m.buffer w = none := by
        by_contra hne
        have hstay := hfence w (by rw [hph]; rfl) hne
        rw [hph] at hstay
        simp at hstay
      exact h.setPhase hw (h.held.frame (fun _ _ => rfl) fun _ _ _ hne => hne)
        (.reclaimWon _ w a ((free hw).trans hph) hc)
    | chooseEmpty w a band hph he =>
      have hw := h.held.drained (w := w) (by simp [hph]) (by simp [hph])
      exact h.setPhase hw h.held (.chooseEmpty _ w a band ((free hw).trans hph) he)
    | choosePending w a band hph hne =>
      have hw := h.held.drained (w := w) (by simp [hph]) (by simp [hph])
      exact h.setPhase hw h.held (.choosePending _ w a band ((free hw).trans hph) hne)
    | requeue w a band hph =>
      have hw := h.held.drained (w := w) (by simp [hph]) (by simp [hph])
      exact h.setPhase hw (h.held.frame (fun _ _ => rfl) fun _ _ _ hne => hne)
        (.requeue _ w a band ((free hw).trans hph))

/-- At rest every store has reached memory, and the run without buffers rests too. -/
theorem BufferedQuiescent.unbuffered {m : Buffered C A P n} (h : BufferedQuiescent m) :
    m.unbuffered = m.memory ∧ Quiescent m.memory := by
  have hbuf : ∀ w, m.buffer w = none := by
    intro w
    cases hw : m.buffer w with
    | none => rfl
    | some a => exact absurd (.drain m w a hw) (h _)
  have heq : m.unbuffered = m.memory := by
    have hph : m.unbuffered.phase = m.memory.phase := funext fun w => unbuffered_phase (hbuf w)
    change { m.memory with phase := m.unbuffered.phase } = m.memory
    rw [hph]
  refine ⟨heq, fun s' hs => ?_⟩
  by_cases hrel : ∃ w a, m.memory.phase w = .batch a []
  · obtain ⟨w, a, hph⟩ := hrel
    exact h _ (.release m w a hph (hbuf w))
  · refine h _ (.access m s' hs (fun w a hph => ?_) fun w _ hne => ?_)
    · exact absurd ⟨w, a, hph⟩ hrel
    · exact absurd (hbuf w) hne

/-- In a run in which every worker's release reaches memory before the worker finds a mailbox
empty, no message is lost. -/
theorem handoff_of_timely {todo : C → List (Send A P)} {m : Buffered C A P n}
    (h : Relation.ReflTransGen TimelyStep (Buffered.start todo) m) (hq : BufferedQuiescent m)
    (a : A) : ¬ Lost m.memory a := by
  have htracked : Tracked todo m := by
    clear hq
    induction h with
    | refl => exact .start todo
    | tail _ hs ih => exact ih.step hs
  obtain ⟨heq, hrest⟩ := hq.unbuffered
  have hreach := htracked.reachable
  rw [heq] at hreach
  rintro ⟨-, -, b, hne⟩
  exact hne (hreach.invariant.quiescent_empty hrest a b)

theorem quiescent_of_idle {m : Buffered C A P n} (hbuf : ∀ w, m.buffer w = none)
    (hpc : ∀ t, m.memory.sendPc t = .idle) (htodo : ∀ t, m.memory.todo t = [])
    (hph : ∀ w, m.memory.phase w = .popReady) (hready : m.memory.readyBand = none) :
    BufferedQuiescent m := by
  intro m' h
  cases h with
  | release w a h _ => simp [hph] at h
  | drain w a h => simp [hbuf] at h
  | access s' hs _ _ =>
    cases hs with
    | push t m rest _ h => exact absurd ((htodo t).symm.trans h) nofun
    | claimLost t a band h _ => exact absurd ((hpc t).symm.trans h) nofun
    | claimWon t a band h _ => exact absurd ((hpc t).symm.trans h) nofun
    | enqueue t a band h => exact absurd ((hpc t).symm.trans h) nofun
    | popReady w band a rest _ h _ => exact absurd (hready.symm.trans h) nofun
    | takeAll w a band turn h => exact absurd ((hph w).symm.trans h) nofun
    | run w a m turn sends h => exact absurd ((hph w).symm.trans h) nofun
    | finish w a m turn h _ _ => exact absurd ((hph w).symm.trans h) nofun
    | release w a h => exact absurd ((hph w).symm.trans h) nofun
    | recheckEmpty w a band h _ => exact absurd ((hph w).symm.trans h) nofun
    | recheckPending w a band h _ => exact absurd ((hph w).symm.trans h) nofun
    | reclaimLost w a h _ => exact absurd ((hph w).symm.trans h) nofun
    | reclaimWon w a h _ => exact absurd ((hph w).symm.trans h) nofun
    | chooseEmpty w a band h _ => exact absurd ((hph w).symm.trans h) nofun
    | choosePending w a band h _ => exact absurd ((hph w).symm.trans h) nofun
    | requeue w a band h => exact absurd ((hph w).symm.trans h) nofun

end Steps

/-- A worker whose release reaches memory before it looks at the mailboxes. -/
theorem handoff_of_timely_turn :
    ∃ m : Buffered Unit Unit Nat 0,
      Relation.ReflTransGen TimelyStep (Buffered.start fun _ => [⟨(), .high, 0⟩]) m ∧
        BufferedQuiescent m ∧ m.memory.processed ≠ [] ∧ ∀ a, ¬ Lost m.memory a := by
  have close (m : Buffered Unit Unit Nat 0)
      (hm : Relation.ReflTransGen TimelyStep (Buffered.start fun _ => [⟨(), .high, 0⟩]) m)
      (hq : BufferedQuiescent m) (hp : m.memory.processed ≠ []) :
      ∃ m : Buffered Unit Unit Nat 0,
        Relation.ReflTransGen TimelyStep (Buffered.start fun _ => [⟨(), .high, 0⟩]) m ∧
          BufferedQuiescent m ∧ m.memory.processed ≠ [] ∧ ∀ a, ¬ Lost m.memory a :=
    ⟨m, hm, hq, hp, handoff_of_timely hm hq⟩
  have only : ∀ w : Fin (0 + 1), w = 0 := by decide
  have access {m : Buffered Unit Unit Nat 0} {s' : State Unit Unit Nat 0}
      (hm : Relation.ReflTransGen TimelyStep (Buffered.start fun _ => [⟨(), .high, 0⟩]) m)
      (hs : Step m.memory s') (hrel : ∀ a, m.memory.phase 0 ≠ .batch a [])
      (hbuf : m.buffer 0 = none) :
      Relation.ReflTransGen TimelyStep (Buffered.start fun _ => [⟨(), .high, 0⟩]) ⟨s', m.buffer⟩ := by
    refine hm.tail ⟨.access m s' hs (fun w a hw => ?_) fun w _ hb => ?_, fun w a band _ _ hb => ?_⟩ <;>
      obtain rfl := only w
    · exact absurd hw (hrel a)
    · exact absurd hbuf hb
    · exact absurd hbuf hb
  have h₁ := access .refl (.push _ (.inl ()) ⟨(), .high, 0⟩ [] rfl rfl) nofun rfl
  have h₂ := access h₁ (.claimWon _ (.inl ()) () .high rfl rfl) nofun rfl
  have h₃ := access h₂ (.enqueue _ (.inl ()) () .high rfl) nofun rfl
  have h₄ := access h₃ (.popReady _ 0 .high () [] rfl rfl rfl) nofun rfl
  have h₅ := access h₄ (.takeAll _ 0 () .high [] rfl) nofun rfl
  have h₆ := access h₅ (.takeAll _ 0 () .medium _ rfl) nofun rfl
  have h₇ := access h₆ (.takeAll _ 0 () .low _ rfl) nofun rfl
  have h₈ := access h₇ (.run _ 0 () _ [] [] rfl) nofun rfl
  have h₉ := access h₈ (.finish _ 0 () _ [] rfl rfl rfl) nofun rfl
  have h₁₀ := h₉.tail ⟨.release _ 0 () rfl rfl, fun _ _ _ _ _ hb => absurd rfl hb⟩
  have h₁₁ := h₁₀.tail ⟨.drain _ 0 () rfl, fun _ _ _ _ _ _ => rfl⟩
  have h₁₂ := access h₁₁ (.recheckEmpty _ 0 () .high rfl rfl) nofun rfl
  have h₁₃ := access h₁₂ (.recheckEmpty _ 0 () .medium rfl rfl) nofun rfl
  have h₁₄ := access h₁₃ (.recheckEmpty _ 0 () .low rfl rfl) nofun rfl
  refine close _ h₁₄ (quiescent_of_idle (Fin.forall_fin_one.mpr rfl)
    (Sum.forall.mpr ⟨fun _ => rfl, Fin.forall_fin_one.mpr rfl⟩)
    (Sum.forall.mpr ⟨fun _ => rfl, Fin.forall_fin_one.mpr rfl⟩) (Fin.forall_fin_one.mpr rfl) rfl) ?_
  exact List.cons_ne_nil _ _

/-- One client has two messages for one actor. The worker runs the first, its release stays in
the buffer while it finds the three bands empty, and the client finds the actor claimed. -/
theorem handoff_loses :
    ¬ ∀ (todo : Unit → List (Send Unit Nat)) (m : Buffered Unit Unit Nat 0),
      BufferedReachable todo m → BufferedQuiescent m → ∀ a, ¬ Lost m.memory a := by
  intro h
  let sends : Unit → List (Send Unit Nat) := fun _ => [⟨(), .high, 0⟩, ⟨(), .high, 1⟩]
  have only : ∀ w : Fin (0 + 1), w = 0 := by decide
  have access {m : Buffered Unit Unit Nat 0} {s' : State Unit Unit Nat 0}
      (hm : BufferedReachable sends m) (hs : Step m.memory s')
      (hrel : ∀ a, m.memory.phase 0 ≠ .batch a [])
      (hf : (m.memory.phase 0).fences = true → m.buffer 0 = none) :
      BufferedReachable sends ⟨s', m.buffer⟩ := by
    refine hm.tail (.access m s' hs (fun w a hw => ?_) fun w hw hb => ?_) <;>
      obtain rfl := only w
    · exact absurd hw (hrel a)
    · exact absurd (hf hw) hb
  have h₁ := access .refl (.push _ (.inl ()) ⟨(), .high, 0⟩ [⟨(), .high, 1⟩] rfl rfl) nofun (fun _ => rfl)
  have h₂ := access h₁ (.claimWon _ (.inl ()) () .high rfl rfl) nofun (fun _ => rfl)
  have h₃ := access h₂ (.enqueue _ (.inl ()) () .high rfl) nofun (fun _ => rfl)
  have h₄ := access h₃ (.popReady _ 0 .high () [] rfl rfl rfl) nofun (fun _ => rfl)
  have h₅ := access h₄ (.takeAll _ 0 () .high [] rfl) nofun nofun
  have h₆ := access h₅ (.takeAll _ 0 () .medium _ rfl) nofun nofun
  have h₇ := access h₆ (.takeAll _ 0 () .low _ rfl) nofun nofun
  have h₈ := access h₇ (.run _ 0 () _ [] [] rfl) nofun nofun
  have h₉ := access h₈ (.finish _ 0 () _ [] rfl rfl rfl) nofun nofun
  have h₁₀ := h₉.tail (.release _ 0 () rfl rfl)
  have h₁₁ := access h₁₀ (.recheckEmpty _ 0 () .high rfl rfl) nofun nofun
  have h₁₂ := access h₁₁ (.recheckEmpty _ 0 () .medium rfl rfl) nofun nofun
  have h₁₃ := access h₁₂ (.recheckEmpty _ 0 () .low rfl rfl) nofun nofun
  -- the second message: its sender sees the claim of the turn that is over
  have h₁₄ := h₁₃.tail (.access _ _ (.push _ (.inl ()) ⟨(), .high, 1⟩ [] rfl rfl)
    (fun _ _ _ => rfl) fun _ _ _ => rfl)
  have h₁₅ := h₁₄.tail (.access _ _ (.claimLost _ (.inl ()) () .high rfl rfl)
    (fun _ _ _ => rfl) fun _ _ _ => rfl)
  have h₁₆ := h₁₅.tail (.drain _ 0 () rfl)
  exact h sends _ h₁₆ (quiescent_of_idle (Fin.forall_fin_one.mpr rfl)
    (Sum.forall.mpr ⟨fun _ => rfl, Fin.forall_fin_one.mpr rfl⟩)
    (Sum.forall.mpr ⟨fun _ => rfl, Fin.forall_fin_one.mpr rfl⟩) (Fin.forall_fin_one.mpr rfl) rfl) ()
    ⟨rfl, List.not_mem_nil, .high, List.cons_ne_nil _ _⟩

end ProtoClojure.ActorScheduler
