import ProtoClojure.Runtime.ActorDelivery

/-! Shutting the scheduler down: the queue mutex, the condition variable and the joins. -/
namespace ProtoClojure.ActorScheduler

/-- Where a worker is inside `popReady_`. -/
inductive PopPc where
  | scan       -- looks at the ready queues next, or has left with an actor
  | wait       -- tests the predicate next, for the first time or after a wakeup
  | tested     -- the predicate was false: it holds the mutex and blocks next
  | blocked
  | returned
deriving DecidableEq

/-- Where the main thread is inside `shutdown`. -/
inductive ShutdownPc where
  | before
  | flagged              -- `notify_all` is next
  | joining (k : Nat)    -- worker `k` is joined next
deriving DecidableEq

structure Shutdown (C A P : Type) (n : Nat) where
  sched : State C A P n
  pc : Fin (n + 1) → PopPc
  shuttingDown : Bool
  main : ShutdownPc

variable {C A P : Type} {n : Nat}

namespace Shutdown

def start (todo : C → List (Send A P)) : Shutdown C A P n where
  sched := .start todo
  pc _ := .scan
  shuttingDown := false
  main := .before

/-- What holds the queue mutex from one step to another is a worker about to block. -/
def MutexFree (s : Shutdown C A P n) : Prop := ∀ w, s.pc w ≠ .tested

def setPc (s : Shutdown C A P n) (w : Fin (n + 1)) (pc : PopPc) : Shutdown C A P n :=
  { s with pc := Function.update s.pc w pc }

/-- `notify_all` wakes who is blocked at that moment. -/
def notifyAll (pc : Fin (n + 1) → PopPc) (w : Fin (n + 1)) : PopPc :=
  if pc w = .blocked then .wait else pc w

/-- `notify_one` wakes one blocked worker, if there is one. -/
inductive NotifyOne (pc : Fin (n + 1) → PopPc) : (Fin (n + 1) → PopPc) → Prop where
  | wake (w) : pc w = .blocked → NotifyOne pc (Function.update pc w .wait)
  | nobody : (∀ w, pc w ≠ .blocked) → NotifyOne pc pc

/-- The clients send no more. -/
def ClientsDone (s : State C A P n) : Prop :=
  ∀ c, s.todo (.inl c) = [] ∧ s.sendPc (.inl c) = .idle

end Shutdown

section Steps
variable [DecidableEq C] [DecidableEq A]
open Shutdown

inductive ShutdownStep : Shutdown C A P n → Shutdown C A P n → Prop where
  -- what senders and workers do without the ready queues and their mutex
  | act (s b) : Step s.sched b → b.ready = s.sched.ready → ShutdownStep s { s with sched := b }
  -- enqueueReady_, by a sender and at the end of a batch
  | enqueue (s t a band pc) : s.sched.sendPc t = .claimed a band → s.MutexFree →
      NotifyOne s.pc pc →
      ShutdownStep s { s with sched := (s.sched.enqueueReady a band).setPc t .idle, pc := pc }
  | requeue (s w a band pc) : s.sched.phase w = .requeue a band → s.MutexFree →
      NotifyOne s.pc pc →
      ShutdownStep s { s with
        sched := (s.sched.enqueueReady a band).setPhase w .popReady, pc := pc }
  -- popReady_: the scan under the mutex
  | pop (s w band a rest) : s.pc w = .scan → s.sched.phase w = .popReady → s.MutexFree →
      s.sched.readyBand = some band → s.sched.ready band = a :: rest →
      ShutdownStep s { s with
        sched := { s.sched with ready := Function.update s.sched.ready band rest }.setPhase w
          (.takeAll a .high []) }
  | leave (s w) : s.pc w = .scan → s.sched.phase w = .popReady → s.MutexFree →
      s.sched.readyBand = none → s.shuttingDown = false → ShutdownStep s (s.setPc w .wait)
  | giveUp (s w) : s.pc w = .scan → s.sched.phase w = .popReady → s.MutexFree →
      s.sched.readyBand = none → s.shuttingDown = true → ShutdownStep s (s.setPc w .returned)
  -- popReady_: the wait
  | testTrue (s w) : s.pc w = .wait → s.MutexFree →
      s.shuttingDown = true ∨ s.sched.readyBand ≠ none → ShutdownStep s (s.setPc w .scan)
  | testFalse (s w) : s.pc w = .wait → s.MutexFree → s.shuttingDown = false →
      s.sched.readyBand = none → ShutdownStep s (s.setPc w .tested)
  | block (s w) : s.pc w = .tested → ShutdownStep s (s.setPc w .blocked)
  -- shutdown, when the clients have stopped sending: the mutex is not taken
  | flag (s) : s.main = .before → ClientsDone s.sched →
      ShutdownStep s { s with shuttingDown := true, main := .flagged }
  | notify (s) : s.main = .flagged →
      ShutdownStep s { s with pc := notifyAll s.pc, main := .joining 0 }
  | join (s k) (hk : k < n + 1) : s.main = .joining k → s.pc ⟨k, hk⟩ = .returned →
      ShutdownStep s { s with main := .joining (k + 1) }

/-- A condition variable may wake a thread by itself. -/
def Spurious (s s' : Shutdown C A P n) : Prop := ∃ w, s.pc w = .blocked ∧ s' = s.setPc w .wait

def ShutdownReachable (todo : C → List (Send A P)) (s : Shutdown C A P n) : Prop :=
  Relation.ReflTransGen (fun s s' => ShutdownStep s s' ∨ Spurious s s') (start todo) s

/-- When `notify_all` runs, no worker is between its test of the predicate and its block. -/
def Timely (s s' : Shutdown C A P n) : Prop :=
  s.main = .flagged → s'.main ≠ .flagged → s.MutexFree

def TimelyReachable (todo : C → List (Send A P)) (s : Shutdown C A P n) : Prop :=
  Relation.ReflTransGen (fun s s' => (ShutdownStep s s' ∨ Spurious s s') ∧ Timely s s')
    (start todo) s

/-- No party has a step to take. -/
def Stuck (s : Shutdown C A P n) : Prop := ∀ s', ¬ ShutdownStep s s'

/-- Every worker has returned and is joined, every message was taken. -/
structure Complete (s : Shutdown C A P n) : Prop where
  returned : ∀ w, s.pc w = .returned
  joined : s.main = .joining (n + 1)
  mailboxes : ∀ a b, s.sched.mailbox a b = []

end Steps

/-! ### What the scheduler's steps keep -/

section Base
variable [DecidableEq C] [DecidableEq A] {s s' : State C A P n}

omit [DecidableEq C] [DecidableEq A] in
@[simp] theorem setPhase_todo (w : Fin (n + 1)) (ph : Phase C A P n) :
    (s.setPhase w ph).todo = s.todo := rfl

omit [DecidableEq C] [DecidableEq A] in
@[simp] theorem setPhase_ready (w : Fin (n + 1)) (ph : Phase C A P n) :
    (s.setPhase w ph).ready = s.ready := rfl

def Phase.InHandler : Phase C A P n → Prop
  | .handler _ _ _ => True
  | _ => False

/-- Outside of a handler a worker sends nothing. -/
def HandlersSend (s : State C A P n) : Prop :=
  ∀ w, (s.phase w).InHandler ∨ s.todo (.inr w) = [] ∧ s.sendPc (.inr w) = .idle

omit [DecidableEq C] [DecidableEq A] in
/-- A worker whose phase changes to one outside of a handler has stopped sending. -/
theorem HandlersSend.setPhase {w : Fin (n + 1)} {ph : Phase C A P n} (hs : HandlersSend s)
    (h : s.todo (.inr w) = [] ∧ s.sendPc (.inr w) = .idle) : HandlersSend (s.setPhase w ph) := by
  intro w'
  by_cases hw : w' = w
  · subst hw
    exact .inr h
  · simpa [hw] using hs w'

omit [DecidableEq C] [DecidableEq A] in
theorem HandlersSend.outside {w : Fin (n + 1)} (hs : HandlersSend s)
    (h : ¬ (s.phase w).InHandler) : s.todo (.inr w) = [] ∧ s.sendPc (.inr w) = .idle :=
  (hs w).resolve_left h

omit [DecidableEq C] [DecidableEq A] in
/-- What a thread that is sending does keeps it in its handler. -/
theorem HandlersSend.sending {t : Thread C n} (hs : HandlersSend s)
    (h : s.todo t ≠ [] ∨ s.sendPc t ≠ .idle) {w : Fin (n + 1)} (hw : t = .inr w) :
    (s.phase w).InHandler := by
  subst hw
  rcases hs w with hin | ⟨htodo, hpc⟩
  · exact hin
  · rcases h with h | h
    · exact absurd htodo h
    · exact absurd hpc h

theorem Step.handlersSend (h : Step s s') (hs : HandlersSend s) : HandlersSend s' := by
  have bySender {t : Thread C n} {todo : Thread C n → List (Send A P)}
      {sendPc : Thread C n → SendPc A} (ht : s.todo t ≠ [] ∨ s.sendPc t ≠ .idle)
      (htodo : ∀ t', t' ≠ t → todo t' = s.todo t')
      (hpc : ∀ t', t' ≠ t → sendPc t' = s.sendPc t') (w : Fin (n + 1)) :
      (s.phase w).InHandler ∨ todo (.inr w) = [] ∧ sendPc (.inr w) = .idle := by
    by_cases hw : t = .inr w
    · exact .inl (hs.sending ht hw)
    · rw [htodo _ (Ne.symm hw), hpc _ (Ne.symm hw)]
      exact hs w
  cases h with
  | push t m rest hpc htodo =>
    exact bySender (.inl (by rw [htodo]; exact List.cons_ne_nil _ _))
      (fun t' h => Function.update_of_ne h ..) fun t' h => Function.update_of_ne h ..
  | claimLost t a band hpc hc | claimWon t a band hpc hc | enqueue t a band hpc =>
    exact bySender (.inr (by rw [hpc]; nofun)) (fun _ _ => rfl) fun t' h => Function.update_of_ne h ..
  | run w a m turn sends hph =>
    intro w'
    by_cases hw : w' = w
    · subst hw
      exact .inl (by simp [Phase.InHandler])
    · simpa [hw] using hs w'
  | finish w a m turn hph htodo hpc => exact HandlersSend.setPhase (s := { s with processed := _ }) hs ⟨htodo, hpc⟩
  | popReady w band a rest hph =>
    exact HandlersSend.setPhase (s := { s with ready := _ }) hs (hs.outside (by rw [hph]; nofun))
  | takeAll w a band turn hph =>
    exact HandlersSend.setPhase (s := s.setMailbox a band []) hs (hs.outside (by rw [hph]; nofun))
  | release w a hph =>
    exact HandlersSend.setPhase (s := s.setClaimed a false) hs (hs.outside (by rw [hph]; nofun))
  | reclaimWon w a hph =>
    exact HandlersSend.setPhase (s := s.setClaimed a true) hs (hs.outside (by rw [hph]; nofun))
  | requeue w a band hph =>
    exact HandlersSend.setPhase (s := s.enqueueReady a band) hs (hs.outside (by rw [hph]; nofun))
  | recheckEmpty w a band hph | recheckPending w a band hph | reclaimLost w a hph
  | chooseEmpty w a band hph | choosePending w a band hph =>
    exact hs.setPhase (hs.outside (by rw [hph]; nofun))

/-- Clients that are done stay done. -/
theorem Step.clientsDone (h : Step s s') (hs : Shutdown.ClientsDone s) :
    Shutdown.ClientsDone s' := by
  have bySender {t : Thread C n} {todo : Thread C n → List (Send A P)}
      {sendPc : Thread C n → SendPc A} (ht : s.todo t ≠ [] ∨ s.sendPc t ≠ .idle)
      (htodo : ∀ t', t' ≠ t → todo t' = s.todo t')
      (hpc : ∀ t', t' ≠ t → sendPc t' = s.sendPc t') (c : C) :
      todo (.inl c) = [] ∧ sendPc (.inl c) = .idle := by
    have hne : (.inl c : Thread C n) ≠ t := by
      rintro rfl
      rcases ht with h | h
      · exact h (hs c).1
      · exact h (hs c).2
    rw [htodo _ hne, hpc _ hne]
    exact hs c
  cases h with
  | push t m rest hpc htodo =>
    exact bySender (.inl (by rw [htodo]; exact List.cons_ne_nil _ _))
      (fun t' h => Function.update_of_ne h ..) fun t' h => Function.update_of_ne h ..
  | claimLost t a band hpc hc | claimWon t a band hpc hc | enqueue t a band hpc =>
    exact bySender (.inr (by rw [hpc]; nofun)) (fun _ _ => rfl) fun t' h => Function.update_of_ne h ..
  | run w a m turn sends hph => exact fun c => ⟨by simpa using (hs c).1, (hs c).2⟩
  | _ => exact hs

/-- Only `popReady_` itself takes a worker out of it. -/
theorem Step.stays_popReady (h : Step s s') (hready : s'.ready = s.ready) {w : Fin (n + 1)}
    (hw : s.phase w = .popReady) : s'.phase w = .popReady := by
  have other {w' : Fin (n + 1)} {ph : Phase C A P n} (hph : s.phase w' ≠ .popReady) :
      Function.update s.phase w' ph w = .popReady := by
    rw [Function.update_of_ne]
    · exact hw
    · rintro rfl
      exact hph hw
  cases h with
  | push | claimLost | claimWon | enqueue => exact hw
  | popReady w' band a rest hph hb hrest =>
    -- the queue has got shorter
    have hshort : Function.update s.ready band rest band = s.ready band := congrFun hready band
    rw [Function.update_self, hrest] at hshort
    exact absurd hshort (by simp)
  | takeAll w' a band turn hph => exact other (by rw [hph]; nofun)
  | run w' a m turn sends hph => exact other (by rw [hph]; nofun)
  | finish w' a m turn hph => exact other (by rw [hph]; nofun)
  | release w' a hph | reclaimWon w' a hph | reclaimLost w' a hph => exact other (by rw [hph]; nofun)
  | recheckEmpty w' a band hph | recheckPending w' a band hph | chooseEmpty w' a band hph
  | choosePending w' a band hph | requeue w' a band hph => exact other (by rw [hph]; nofun)

end Base

/-! ### What shutting down keeps -/

/-- A wakeup lets a blocked worker test its predicate again. -/
def Woken (pc pc' : Fin (n + 1) → PopPc) : Prop :=
  ∀ w, pc' w = pc w ∨ pc w = .blocked ∧ pc' w = .wait

theorem Woken.update {pc : Fin (n + 1) → PopPc} {w : Fin (n + 1)} (h : pc w = .blocked) :
    Woken pc (Function.update pc w .wait) := by
  intro w'
  by_cases hw : w' = w
  · subst hw
    exact .inr ⟨h, Function.update_self ..⟩
  · exact .inl (Function.update_of_ne hw ..)

theorem Shutdown.NotifyOne.woken {pc pc' : Fin (n + 1) → PopPc} (h : Shutdown.NotifyOne pc pc') :
    Woken pc pc' := by
  cases h with
  | wake w h => exact .update h
  | nobody => exact fun _ => .inl rfl

theorem woken_notifyAll (pc : Fin (n + 1) → PopPc) : Woken pc (Shutdown.notifyAll pc) := by
  intro w
  by_cases h : pc w = .blocked
  · exact .inr ⟨h, if_pos h⟩
  · exact .inl (if_neg h)

theorem Woken.eq_iff {pc pc' : Fin (n + 1) → PopPc} (h : Woken pc pc') {x : PopPc}
    (hb : x ≠ .blocked) (hx : x ≠ .wait) (w : Fin (n + 1)) : pc' w = x ↔ pc w = x := by
  rcases h w with heq | ⟨hold, hnew⟩
  · rw [heq]
  · rw [hold, hnew]
    exact iff_of_false (Ne.symm hx) (Ne.symm hb)

theorem Woken.scan_iff {pc pc' : Fin (n + 1) → PopPc} (h : Woken pc pc') (w : Fin (n + 1)) :
    pc' w = .scan ↔ pc w = .scan :=
  h.eq_iff (by nofun) (by nofun) w

theorem Woken.returned_iff {pc pc' : Fin (n + 1) → PopPc} (h : Woken pc pc') (w : Fin (n + 1)) :
    pc' w = .returned ↔ pc w = .returned :=
  h.eq_iff (by nofun) (by nofun) w

section Invariant
variable [DecidableEq C] [DecidableEq A] {todo : C → List (Send A P)} {s s' : Shutdown C A P n}
open Shutdown

/-- What every reachable state satisfies. -/
structure ShutdownInvariant (todo : C → List (Send A P)) (s : Shutdown C A P n) : Prop where
  sched : Reachable todo s.sched
  handlers : HandlersSend s.sched
  inside (w : Fin (n + 1)) : s.pc w ≠ .scan → s.sched.phase w = .popReady
  before : s.main = .before → s.shuttingDown = false
  flagged : s.main ≠ .before → s.shuttingDown = true
  clients : s.shuttingDown = true → ClientsDone s.sched
  returned (w : Fin (n + 1)) : s.pc w = .returned → s.shuttingDown = true
  drained : (∀ w, s.pc w = .returned) → s.sched.readyBand = none
  joined (k : Nat) : s.main = .joining k → k ≤ n + 1

theorem ShutdownInvariant.start (todo : C → List (Send A P)) :
    ShutdownInvariant todo (Shutdown.start todo : Shutdown C A P n) where
  sched := .refl
  handlers _ := .inr ⟨rfl, rfl⟩
  inside _ h := absurd rfl h
  before _ := rfl
  flagged h := absurd rfl h
  clients h := nomatch h
  returned _ h := nomatch h
  drained _ := rfl
  joined _ h := nomatch h

/-- The scheduler takes its own steps. -/
theorem ShutdownStep.sched (h : ShutdownStep s s') :
    s'.sched = s.sched ∨ Step s.sched s'.sched := by
  cases h with
  | act b hb => exact .inr hb
  | enqueue t a band pc hpc => exact .inr (.enqueue _ t a band hpc)
  | requeue w a band pc hph => exact .inr (.requeue _ w a band hph)
  | pop w band a rest _ hph _ hb hrest => exact .inr (.popReady _ w band a rest hph hb hrest)
  | _ => exact .inl rfl

/-- The worker's own moves inside `popReady_` leave the rest of the state alone. -/
theorem ShutdownInvariant.setPc (h : ShutdownInvariant todo s) {w : Fin (n + 1)} {pc : PopPc}
    (hw : s.sched.phase w = .popReady)
    (hpc : pc = .returned → s.shuttingDown = true ∧ s.sched.readyBand = none) :
    ShutdownInvariant todo (s.setPc w pc) where
  sched := h.sched
  handlers := h.handlers
  inside w' hw' := by
    by_cases hne : w' = w
    · exact hne ▸ hw
    · exact h.inside w' (by simpa [Shutdown.setPc, hne] using hw')
  before := h.before
  flagged := h.flagged
  clients := h.clients
  returned w' hw' := by
    by_cases hne : w' = w
    · subst hne
      exact (hpc (by simpa [Shutdown.setPc] using hw')).1
    · exact h.returned w' (by simpa [Shutdown.setPc, hne] using hw')
  drained hall := (hpc (by simpa [Shutdown.setPc] using hall w)).2
  joined := h.joined

theorem ShutdownInvariant.woken (h : ShutdownInvariant todo s) {pc : Fin (n + 1) → PopPc}
    (hpc : Woken s.pc pc) : ShutdownInvariant todo { s with pc := pc } where
  sched := h.sched
  handlers := h.handlers
  inside w hw := h.inside w ((hpc.scan_iff w).not.mp hw)
  before := h.before
  flagged := h.flagged
  clients := h.clients
  returned w hw := h.returned w ((hpc.returned_iff w).mp hw)
  drained hall := h.drained fun w => (hpc.returned_iff w).mp (hall w)
  joined := h.joined

theorem ShutdownInvariant.sched_step (h : ShutdownInvariant todo s) {b : State C A P n}
    (hb : Step s.sched b) (hinside : ∀ w, s.pc w ≠ .scan → b.phase w = .popReady)
    (hdrained : (∀ w, s.pc w = .returned) → b.readyBand = none) :
    ShutdownInvariant todo { s with sched := b } where
  sched := h.sched.tail hb
  handlers := hb.handlersSend h.handlers
  inside := hinside
  before := h.before
  flagged := h.flagged
  clients hflag := hb.clientsDone (h.clients hflag)
  returned := h.returned
  drained := hdrained
  joined := h.joined

/-- Once every worker has returned nobody sends. -/
theorem ShutdownInvariant.silent (h : ShutdownInvariant todo s) (hall : ∀ w, s.pc w = .returned)
    (t : Thread C n) : s.sched.sendPc t = .idle := by
  cases t with
  | inl c => exact (h.clients (h.returned 0 (hall 0)) c).2
  | inr w =>
    have hphase := h.inside w (by rw [hall w]; nofun)
    exact (h.handlers.outside (by rw [hphase]; nofun)).2

theorem ShutdownInvariant.step (h : ShutdownInvariant todo s) (hs : ShutdownStep s s') :
    ShutdownInvariant todo s' := by
  cases hs with
  | act b hb hready =>
    refine h.sched_step hb (fun w hw => hb.stays_popReady hready (h.inside w hw)) fun hall => ?_
    have hnone := h.drained hall
    simpa only [State.readyBand, hready] using hnone
  | enqueue t a band pc hpc _ hnotify =>
    refine (h.sched_step (.enqueue _ t a band hpc) h.inside fun hall => ?_).woken hnotify.woken
    rw [h.silent hall t] at hpc
    cases hpc
  | requeue w a band pc hph _ hnotify =>
    refine (h.sched_step (.requeue _ w a band hph) (fun w' hw' => ?_) fun hall => ?_).woken
      hnotify.woken
    · by_cases hne : w' = w
      · simp [hne]
      · simpa [hne] using h.inside w' hw'
    · rw [h.inside w (by simp [hall w])] at hph
      cases hph
  | pop w band a rest hpc hph _ hb hrest =>
    refine h.sched_step (.popReady _ w band a rest hph hb hrest) (fun w' hw' => ?_) fun hall => ?_
    · have hne : w' ≠ w := by
        rintro rfl
        exact hw' hpc
      simpa [hne] using h.inside w' hw'
    · rw [hall w] at hpc
      cases hpc
  | leave w hpc hph => exact h.setPc hph (by simp)
  | giveUp w hpc hph _ hnone hflag => exact h.setPc hph fun _ => ⟨hflag, hnone⟩
  | testTrue w hpc => exact h.setPc (h.inside w (by simp [hpc])) (by simp)
  | testFalse w hpc => exact h.setPc (h.inside w (by simp [hpc])) (by simp)
  | block w hpc => exact h.setPc (h.inside w (by simp [hpc])) (by simp)
  | flag hmain hclients =>
    exact { h with
      before := by simp
      flagged := fun _ => rfl
      clients := fun _ => hclients
      returned := fun _ _ => rfl
      joined := by simp }
  | notify hmain =>
    exact { h.woken (woken_notifyAll s.pc) with
      before := by simp
      flagged := fun _ => h.flagged (by simp [hmain])
      joined := fun k hk => by cases hk; omega }
  | join k hk hmain =>
    exact { h with
      before := by simp
      flagged := fun _ => h.flagged (by simp [hmain])
      joined := fun j hj => by cases hj; omega }

theorem ShutdownInvariant.spurious (h : ShutdownInvariant todo s) (hs : Spurious s s') :
    ShutdownInvariant todo s' := by
  obtain ⟨w, hw, rfl⟩ := hs
  exact h.woken (.update hw)

/-! ### When the notification is timely -/

/-- Nobody is blocked, or about to block, once the notification is sent. -/
def Notified (s : Shutdown C A P n) : Prop :=
  ∀ k, s.main = .joining k → ∀ w, s.pc w ≠ .tested ∧ s.pc w ≠ .blocked

omit [DecidableEq C] [DecidableEq A] in
theorem Notified.woken (h : Notified s) {pc : Fin (n + 1) → PopPc} (hpc : Woken s.pc pc)
    (b : State C A P n) : Notified { s with sched := b, pc := pc } := by
  intro k hk w
  show pc w ≠ .tested ∧ pc w ≠ .blocked
  rcases hpc w with heq | ⟨_, hnew⟩
  · exact heq ▸ h k hk w
  · exact ⟨by rw [hnew]; nofun, by rw [hnew]; nofun⟩

omit [DecidableEq C] [DecidableEq A] in
theorem Notified.setPc (h : Notified s) {w : Fin (n + 1)} {pc : PopPc}
    (hpc : ∀ k, s.main = .joining k → pc ≠ .tested ∧ pc ≠ .blocked) : Notified (s.setPc w pc) := by
  intro k hk w'
  by_cases hne : w' = w
  · simpa [Shutdown.setPc, hne] using hpc k hk
  · simpa [Shutdown.setPc, hne] using h k hk w'

theorem ShutdownStep.notified (h : ShutdownStep s s') (ht : Timely s s')
    (hinv : ShutdownInvariant todo s) (hs : Notified s) : Notified s' := by
  cases h with
  | act => exact hs
  | pop => exact hs
  | enqueue t a band pc _ _ hnotify => exact hs.woken hnotify.woken _
  | requeue w a band pc _ _ hnotify => exact hs.woken hnotify.woken _
  | leave | giveUp | testTrue => exact hs.setPc fun _ _ => ⟨nofun, nofun⟩
  | testFalse w _ _ hflag =>
    -- after the notification the flag is set
    refine hs.setPc fun k hk => ?_
    rw [hinv.flagged (by rw [hk]; nofun)] at hflag
    cases hflag
  | block w hpc => exact hs.setPc fun k hk => absurd hpc (hs k hk w).1
  | flag => nofun
  | notify hmain =>
    intro k _ w
    have hfree := ht hmain nofun w
    show notifyAll s.pc w ≠ .tested ∧ notifyAll s.pc w ≠ .blocked
    unfold notifyAll
    split
    · exact ⟨nofun, nofun⟩
    · exact ⟨hfree, by assumption⟩
  | join k hk hmain => exact fun _ _ => hs k hmain

theorem TimelyReachable.invariant (h : TimelyReachable todo s) :
    ShutdownInvariant todo s ∧ Notified s := by
  induction h with
  | refl => exact ⟨.start todo, nofun⟩
  | tail _ hs ih =>
    obtain ⟨hinv, hnotified⟩ := ih
    obtain ⟨hs | hs, htimely⟩ := hs
    · exact ⟨hinv.step hs, hs.notified htimely hinv hnotified⟩
    · refine ⟨hinv.spurious hs, ?_⟩
      obtain ⟨w, hw, rfl⟩ := hs
      exact hnotified.setPc fun _ _ => ⟨nofun, nofun⟩

/-! ### Stuck states -/

omit [DecidableEq C] [DecidableEq A] in
theorem exists_notifyOne (pc : Fin (n + 1) → PopPc) : ∃ pc', NotifyOne pc pc' := by
  by_cases h : ∃ w, pc w = .blocked
  · obtain ⟨w, hw⟩ := h
    exact ⟨_, .wake w hw⟩
  · exact ⟨pc, .nobody fun w hw => h ⟨w, hw⟩⟩

theorem Stuck.mutexFree (h : Stuck s) : s.MutexFree :=
  fun w hw => h _ (.block s w hw)

theorem Stuck.sendPc (h : Stuck s) (t : Thread C n) : s.sched.sendPc t = .idle := by
  cases hp : s.sched.sendPc t with
  | idle => rfl
  | pushed a band =>
    cases hc : s.sched.claimed a with
    | true => exact absurd (.act s _ (.claimLost _ t a band hp hc) rfl) (h _)
    | false => exact absurd (.act s _ (.claimWon _ t a band hp hc) rfl) (h _)
  | claimed a band =>
    obtain ⟨pc, hpc⟩ := exists_notifyOne s.pc
    exact absurd (.enqueue s t a band pc hp h.mutexFree hpc) (h _)

theorem Stuck.todo_nil (h : Stuck s) (t : Thread C n) : s.sched.todo t = [] := by
  cases ht : s.sched.todo t with
  | nil => rfl
  | cons m rest => exact absurd (.act s _ (.push _ t m rest (h.sendPc t) ht) rfl) (h _)

theorem Stuck.phase (h : Stuck s) (w : Fin (n + 1)) : s.sched.phase w = .popReady := by
  have act {b : State C A P n} (hb : Step s.sched b) (hready : b.ready = s.sched.ready) : False :=
    h _ (.act s b hb hready)
  cases hw : s.sched.phase w with
  | popReady => rfl
  | takeAll a band turn => exact (act (.takeAll _ w a band turn hw) rfl).elim
  | batch a turn =>
    cases turn with
    | nil => exact (act (.release _ w a hw) rfl).elim
    | cons m turn => exact (act (.run _ w a m turn [] hw) rfl).elim
  | handler a m turn => exact (act (.finish _ w a m turn hw (h.todo_nil _) (h.sendPc _)) rfl).elim
  | recheck a band =>
    by_cases he : s.sched.mailbox a band = []
    · exact (act (.recheckEmpty _ w a band hw he) rfl).elim
    · exact (act (.recheckPending _ w a band hw he) rfl).elim
  | reclaim a =>
    cases hc : s.sched.claimed a with
    | true => exact (act (.reclaimLost _ w a hw hc) rfl).elim
    | false => exact (act (.reclaimWon _ w a hw hc) rfl).elim
  | choose a band =>
    by_cases he : s.sched.mailbox a band = []
    · exact (act (.chooseEmpty _ w a band hw he) rfl).elim
    · exact (act (.choosePending _ w a band hw he) rfl).elim
  | requeue a band =>
    obtain ⟨pc, hpc⟩ := exists_notifyOne s.pc
    exact absurd (.requeue s w a band pc hw h.mutexFree hpc) (h _)

theorem Stuck.joining (h : Stuck s) : ∃ k, s.main = .joining k := by
  cases hmain : s.main with
  | before => exact absurd (.flag s hmain fun c => ⟨h.todo_nil _, h.sendPc _⟩) (h _)
  | flagged => exact absurd (.notify s hmain) (h _)
  | joining k => exact ⟨k, rfl⟩

omit [DecidableEq C] [DecidableEq A] in
theorem readyBand_cons {s : State C A P n} {band : ActorPriority} (h : s.readyBand = some band) :
    ∃ a rest, s.ready band = a :: rest := by
  refine List.exists_cons_of_ne_nil ?_
  unfold State.readyBand at h
  grind

/-- A worker that is not blocked has something to do until it returns. -/
theorem Stuck.returned (h : Stuck s) (hinv : ShutdownInvariant todo s) {w : Fin (n + 1)}
    (hw : s.pc w ≠ .blocked) : s.pc w = .returned := by
  obtain ⟨k, hmain⟩ := h.joining
  have hflag := hinv.flagged (by rw [hmain]; nofun)
  cases hpc : s.pc w with
  | returned => rfl
  | blocked => exact absurd hpc hw
  | tested => exact absurd hpc (h.mutexFree w)
  | wait => exact absurd (.testTrue s w hpc h.mutexFree (.inl hflag)) (h _)
  | scan =>
    cases hb : s.sched.readyBand with
    | none => exact absurd (.giveUp s w hpc (h.phase w) h.mutexFree hb hflag) (h _)
    | some band =>
      obtain ⟨a, rest, hrest⟩ := readyBand_cons hb
      exact absurd (.pop s w band a rest hpc (h.phase w) h.mutexFree hb hrest) (h _)

theorem Stuck.quiescent (h : Stuck s) (hnone : s.sched.readyBand = none) :
    Quiescent s.sched := by
  intro b hb
  have idle {t : Thread C n} {pc : SendPc A} (ht : s.sched.sendPc t = pc) (hne : pc ≠ .idle) :
      False := hne (ht ▸ h.sendPc t)
  have popping {w : Fin (n + 1)} {ph : Phase C A P n} (hw : s.sched.phase w = ph)
      (hne : ph ≠ .popReady) : False := hne (hw ▸ h.phase w)
  cases hb with
  | push t m rest _ htodo => exact absurd (htodo.symm.trans (h.todo_nil t)) (List.cons_ne_nil _ _)
  | claimLost t a band ht | claimWon t a band ht | enqueue t a band ht => exact idle ht nofun
  | popReady w band a rest _ hband =>
    rw [hnone] at hband
    cases hband
  | takeAll w a band turn hw => exact popping hw nofun
  | run w a m turn sends hw | finish w a m turn hw => exact popping hw nofun
  | release w a hw | reclaimLost w a hw | reclaimWon w a hw => exact popping hw nofun
  | recheckEmpty w a band hw | recheckPending w a band hw | chooseEmpty w a band hw
  | choosePending w a band hw | requeue w a band hw => exact popping hw nofun

theorem Stuck.complete (h : Stuck s) (hinv : ShutdownInvariant todo s) (hn : Notified s) :
    Complete s := by
  obtain ⟨k, hmain⟩ := h.joining
  have hreturned : ∀ w, s.pc w = .returned := fun w => h.returned hinv (hn k hmain w).2
  refine ⟨hreturned, ?_, hinv.sched.invariant.quiescent_empty (h.quiescent (hinv.drained hreturned))⟩
  by_contra hne
  have hle := hinv.joined k hmain
  have hk : k < n + 1 := by
    refine Nat.lt_of_le_of_ne hle ?_
    rintro rfl
    exact hne hmain
  exact h _ (.join s k hk hmain (hreturned _))

/-- Shutting down loses no wakeup in a run whose notification is timely: nobody is blocked once it
is sent, and such a run only stops when every worker is joined and every mailbox empty. -/
theorem shutdown_completes (h : TimelyReachable todo s) :
    ((∃ k, s.main = .joining k) → ∀ w, s.pc w ≠ .blocked) ∧ (Stuck s → Complete s) := by
  obtain ⟨hinv, hn⟩ := h.invariant
  refine ⟨?_, fun hstuck => hstuck.complete hinv hn⟩
  rintro ⟨k, hmain⟩ w
  exact (hn k hmain w).2

end Invariant

/-! ### One idle worker -/

/-- Nobody sends. -/
def noSends : Unit → List (Send Unit Unit) := fun _ => []

theorem idle_quiescent : Quiescent (State.start noSends : State Unit Unit Unit 0) := by
  intro b hb
  cases hb with
  | push t m rest _ htodo => cases t <;> cases htodo
  | claimLost t a band ht | claimWon t a band ht | enqueue t a band ht => cases ht
  | popReady w band a rest _ hband => cases hband
  | takeAll w a band turn hw => cases hw
  | run w a m turn sends hw | finish w a m turn hw => cases hw
  | release w a hw | reclaimLost w a hw | reclaimWon w a hw => cases hw
  | recheckEmpty w a band hw | recheckPending w a band hw | chooseEmpty w a band hw
  | choosePending w a band hw | requeue w a band hw => cases hw

/-- The worker in `pc`, the main thread joining. -/
def idleJoining (pc : PopPc) (k : Nat) : Shutdown Unit Unit Unit 0 where
  sched := .start noSends
  pc _ := pc
  shuttingDown := true
  main := .joining k

theorem eq_idleJoining {s : Shutdown Unit Unit Unit 0} {k : Nat}
    (hsched : s.sched = .start noSends) (hflag : s.shuttingDown = true)
    (hmain : s.main = .joining k) : s = idleJoining (s.pc 0) k := by
  obtain ⟨sched, pc, shuttingDown, main⟩ := s
  obtain rfl : sched = .start noSends := hsched
  obtain rfl : shuttingDown = true := hflag
  obtain rfl : main = .joining k := hmain
  have hpc : pc = fun _ => pc 0 := by
    funext w
    rw [Fin.fin_one_eq_zero w]
  rw [hpc]
  rfl

theorem idleJoining_stuck {pc : PopPc} {k : Nat}
    (h : pc = .blocked ∧ k = 0 ∨ pc = .returned ∧ k = 1) : Stuck (idleJoining pc k) := by
  have hpc {x : PopPc} (hx : pc = x) (hb : x ≠ .blocked) (hr : x ≠ .returned) : False := by
    rcases h with ⟨rfl, -⟩ | ⟨rfl, -⟩
    · exact hb hx.symm
    · exact hr hx.symm
  intro s hs
  cases hs with
  | act b hb => exact idle_quiescent b hb
  | enqueue t a band pc ht => cases ht
  | requeue w a band pc hph => cases hph
  | pop w band a rest _ _ _ hband => cases hband
  | leave w _ _ _ _ hflag => cases hflag
  | giveUp w hw => exact hpc hw nofun nofun
  | testTrue w hw => exact hpc hw nofun nofun
  | testFalse w hw => exact hpc hw nofun nofun
  | block w hw => exact hpc hw nofun nofun
  | flag hmain => cases hmain
  | notify hmain => cases hmain
  | join j hj hmain hw =>
    obtain rfl := ShutdownPc.joining.inj hmain
    rcases h with ⟨rfl, -⟩ | ⟨-, rfl⟩
    · cases hw
    · omega

/-- The worker has blocked, and the notification wakes it. -/
theorem shutdown_completes_idle :
    ∃ s : Shutdown Unit Unit Unit 0, TimelyReachable noSends s ∧ Stuck s ∧ Complete s := by
  let s₀ : Shutdown Unit Unit Unit 0 := .start noSends
  let s₁ := s₀.setPc 0 .wait
  let s₂ := s₁.setPc 0 .tested
  let s₃ := s₂.setPc 0 .blocked
  let s₄ := { s₃ with shuttingDown := true, main := .flagged }
  let s₅ := { s₄ with pc := Shutdown.notifyAll s₄.pc, main := .joining 0 }
  let s₆ := s₅.setPc 0 .scan
  let s₇ := s₆.setPc 0 .returned
  let s₈ := { s₇ with main := .joining 1 }
  have hfree {s : Shutdown Unit Unit Unit 0} (h : s.pc 0 ≠ .tested) : s.MutexFree := by
    intro w
    rwa [Fin.fin_one_eq_zero w]
  have h₁ : ShutdownStep s₀ s₁ := .leave _ 0 rfl rfl nofun rfl rfl
  have h₂ : ShutdownStep s₁ s₂ := .testFalse _ 0 rfl (hfree nofun) rfl rfl
  have h₃ : ShutdownStep s₂ s₃ := .block _ 0 rfl
  have h₄ : ShutdownStep s₃ s₄ := .flag _ rfl fun _ => ⟨rfl, rfl⟩
  have h₅ : ShutdownStep s₄ s₅ := .notify _ rfl
  have h₆ : ShutdownStep s₅ s₆ := .testTrue _ 0 rfl (hfree nofun) (.inl rfl)
  have h₇ : ShutdownStep s₆ s₇ := .giveUp _ 0 rfl rfl (hfree nofun) rfl rfl
  have h₈ : ShutdownStep s₇ s₈ := .join _ 0 (by omega) rfl rfl
  have hblocked : TimelyReachable noSends s₄ :=
    (((Relation.ReflTransGen.refl.tail ⟨.inl h₁, nofun⟩).tail ⟨.inl h₂, nofun⟩).tail ⟨.inl h₃, nofun⟩).tail
      ⟨.inl h₄, nofun⟩
  have hrun : TimelyReachable noSends s₈ :=
    (((hblocked.tail ⟨.inl h₅, fun _ _ => hfree nofun⟩).tail ⟨.inl h₆, nofun⟩).tail ⟨.inl h₇, nofun⟩).tail
      ⟨.inl h₈, nofun⟩
  have hstuck : Stuck s₈ := by
    rw [eq_idleJoining (s := s₈) rfl rfl rfl]
    exact idleJoining_stuck (.inr ⟨rfl, rfl⟩)
  exact ⟨s₈, hrun, hstuck, (shutdown_completes hrun).2 hstuck⟩

/-- The flag is set and the notification sent between the worker's test and its block. -/
theorem shutdown_loses_wakeup :
    ∃ s : Shutdown Unit Unit Unit 0, ShutdownReachable noSends s ∧ Stuck s ∧ ¬ Complete s ∧
      s.shuttingDown = true ∧ s.main = .joining 0 ∧ s.pc 0 = .blocked := by
  let s₀ : Shutdown Unit Unit Unit 0 := .start noSends
  let s₁ := s₀.setPc 0 .wait
  let s₂ := s₁.setPc 0 .tested
  let s₃ := { s₂ with shuttingDown := true, main := .flagged }
  let s₄ := { s₃ with pc := Shutdown.notifyAll s₃.pc, main := .joining 0 }
  let s₅ := s₄.setPc 0 .blocked
  have h₁ : ShutdownStep s₀ s₁ := .leave _ 0 rfl rfl nofun rfl rfl
  have hfree : s₁.MutexFree := by
    intro w
    rw [Fin.fin_one_eq_zero w]
    nofun
  have h₂ : ShutdownStep s₁ s₂ := .testFalse _ 0 rfl hfree rfl rfl
  have h₃ : ShutdownStep s₂ s₃ := .flag _ rfl fun _ => ⟨rfl, rfl⟩
  have h₄ : ShutdownStep s₃ s₄ := .notify _ rfl
  have h₅ : ShutdownStep s₄ s₅ := .block _ 0 rfl
  have hrun : ShutdownReachable noSends s₅ :=
    ((((Relation.ReflTransGen.refl.tail (.inl h₁)).tail (.inl h₂)).tail (.inl h₃)).tail
      (.inl h₄)).tail (.inl h₅)
  have hstuck : Stuck s₅ := by
    rw [eq_idleJoining (s := s₅) rfl rfl rfl]
    exact idleJoining_stuck (.inl ⟨rfl, rfl⟩)
  have hopen : ¬ Complete s₅ := by
    intro hc
    cases hc.joined
  exact ⟨s₅, hrun, hstuck, hopen, rfl, rfl, rfl⟩

end ProtoClojure.ActorScheduler
