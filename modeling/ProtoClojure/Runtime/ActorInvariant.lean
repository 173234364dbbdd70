import ProtoClojure.Runtime.ActorScheduler
import Mathlib.Tactic.Common

/-! Ownership of an actor: one place answers for its claim while it is set, and none
while it is clear. Every step hands the claim over, creates it or gives it up. -/
namespace ProtoClojure.ActorScheduler
variable {C A P : Type} {n : Nat}

/-- The three places that can answer for a claimed actor. -/
inductive Place (C : Type) (n : Nat) where
  | sender (t : Thread C n)
  | queue
  | worker (w : Fin (n + 1))

def Owns (s : State C A P n) (a : A) : Place C n → Prop
  | .sender t => (s.sendPc t).owner = some a
  | .queue => a ∈ s.readyList
  | .worker w => (s.phase w).owner = some a

/-- `claimed` is true exactly when one place answers for the actor. -/
def Token (s : State C A P n) (a : A) : Prop :=
  (s.claimed a = true ∧ ∃ p, ∀ q, Owns s a q ↔ q = p) ∨ (s.claimed a = false ∧ ∀ q, ¬ Owns s a q)

theorem Token.claimed {s : State C A P n} {a : A} {p : Place C n} (h : Token s a)
    (hp : Owns s a p) : s.claimed a = true ∧ ∀ q, Owns s a q ↔ q = p := by
  rcases h with ⟨hc, r, hr⟩ | ⟨_, hn⟩
  · have he := (hr p).mp hp
    subst he
    exact ⟨hc, hr⟩
  · exact absurd hp (hn p)

theorem Token.unclaimed {s : State C A P n} {a : A} (h : Token s a) (hc : s.claimed a = false) :
    ∀ q, ¬ Owns s a q := by
  rcases h with ⟨hc', _⟩ | ⟨_, hn⟩
  · rw [hc] at hc'
    cases hc'
  · exact hn

theorem Phase.owner_of_holds {ph : Phase C A P n} {a : A} (h : ph.holds = some a) :
    ph.owner = some a := by
  cases ph <;> simp_all [holds, owner]

theorem Token.holds_unique {s : State C A P n} {a : A} (ht : Token s a) {w w' : Fin (n + 1)}
    (hw : (s.phase w).holds = some a) (hw' : (s.phase w').holds = some a) : w = w' := by
  have h : Owns s a (.worker w) := Phase.owner_of_holds hw
  have h' : Owns s a (.worker w') := Phase.owner_of_holds hw'
  have := ((ht.claimed h').2 _).mp h
  simpa using this

section Setters
variable (s : State C A P n)

@[simp] theorem setPhase_phase (w : Fin (n + 1)) (ph : Phase C A P n) :
    (s.setPhase w ph).phase = Function.update s.phase w ph := rfl
@[simp] theorem setPhase_sendPc (w : Fin (n + 1)) (ph : Phase C A P n) :
    (s.setPhase w ph).sendPc = s.sendPc := rfl
@[simp] theorem setPhase_claimed (w : Fin (n + 1)) (ph : Phase C A P n) :
    (s.setPhase w ph).claimed = s.claimed := rfl
@[simp] theorem setPhase_mailbox (w : Fin (n + 1)) (ph : Phase C A P n) :
    (s.setPhase w ph).mailbox = s.mailbox := rfl
@[simp] theorem setPhase_readyList (w : Fin (n + 1)) (ph : Phase C A P n) :
    (s.setPhase w ph).readyList = s.readyList := rfl
@[simp] theorem setPhase_sent (w : Fin (n + 1)) (ph : Phase C A P n) :
    (s.setPhase w ph).sent = s.sent := rfl
@[simp] theorem setPhase_processed (w : Fin (n + 1)) (ph : Phase C A P n) :
    (s.setPhase w ph).processed = s.processed := rfl

section
variable [DecidableEq C]

@[simp] theorem setPc_sendPc (t : Thread C n) (pc : SendPc A) :
    (s.setPc t pc).sendPc = Function.update s.sendPc t pc := rfl
@[simp] theorem setPc_phase (t : Thread C n) (pc : SendPc A) : (s.setPc t pc).phase = s.phase := rfl
@[simp] theorem setPc_claimed (t : Thread C n) (pc : SendPc A) :
    (s.setPc t pc).claimed = s.claimed := rfl
@[simp] theorem setPc_mailbox (t : Thread C n) (pc : SendPc A) :
    (s.setPc t pc).mailbox = s.mailbox := rfl
@[simp] theorem setPc_readyList (t : Thread C n) (pc : SendPc A) :
    (s.setPc t pc).readyList = s.readyList := rfl
@[simp] theorem setPc_sent (t : Thread C n) (pc : SendPc A) : (s.setPc t pc).sent = s.sent := rfl
@[simp] theorem setPc_processed (t : Thread C n) (pc : SendPc A) :
    (s.setPc t pc).processed = s.processed := rfl

end

section
variable [DecidableEq A]

@[simp] theorem setClaimed_claimed (a : A) (b : Bool) :
    (s.setClaimed a b).claimed = Function.update s.claimed a b := rfl
@[simp] theorem setClaimed_phase (a : A) (b : Bool) : (s.setClaimed a b).phase = s.phase := rfl
@[simp] theorem setClaimed_sendPc (a : A) (b : Bool) : (s.setClaimed a b).sendPc = s.sendPc := rfl
@[simp] theorem setClaimed_mailbox (a : A) (b : Bool) :
    (s.setClaimed a b).mailbox = s.mailbox := rfl
@[simp] theorem setClaimed_readyList (a : A) (b : Bool) :
    (s.setClaimed a b).readyList = s.readyList := rfl
@[simp] theorem setClaimed_sent (a : A) (b : Bool) : (s.setClaimed a b).sent = s.sent := rfl
@[simp] theorem setClaimed_processed (a : A) (b : Bool) :
    (s.setClaimed a b).processed = s.processed := rfl

theorem setMailbox_mailbox (a a' : A) (b b' : ActorPriority) (q : List (Message C A P n)) :
    (s.setMailbox a b q).mailbox a' b' = if a' = a ∧ b' = b then q else s.mailbox a' b' := by
  by_cases ha : a' = a
  · subst ha
    simp [State.setMailbox, Function.update_apply]
  · simp [State.setMailbox, ha]

@[simp] theorem setMailbox_phase (a : A) (b : ActorPriority) (q : List (Message C A P n)) :
    (s.setMailbox a b q).phase = s.phase := rfl
@[simp] theorem setMailbox_sendPc (a : A) (b : ActorPriority) (q : List (Message C A P n)) :
    (s.setMailbox a b q).sendPc = s.sendPc := rfl
@[simp] theorem setMailbox_claimed (a : A) (b : ActorPriority) (q : List (Message C A P n)) :
    (s.setMailbox a b q).claimed = s.claimed := rfl
@[simp] theorem setMailbox_readyList (a : A) (b : ActorPriority) (q : List (Message C A P n)) :
    (s.setMailbox a b q).readyList = s.readyList := rfl
@[simp] theorem setMailbox_sent (a : A) (b : ActorPriority) (q : List (Message C A P n)) :
    (s.setMailbox a b q).sent = s.sent := rfl
@[simp] theorem setMailbox_processed (a : A) (b : ActorPriority) (q : List (Message C A P n)) :
    (s.setMailbox a b q).processed = s.processed := rfl

end

@[simp] theorem enqueueReady_phase (a : A) (b : ActorPriority) :
    (s.enqueueReady a b).phase = s.phase := rfl
@[simp] theorem enqueueReady_sendPc (a : A) (b : ActorPriority) :
    (s.enqueueReady a b).sendPc = s.sendPc := rfl
@[simp] theorem enqueueReady_claimed (a : A) (b : ActorPriority) :
    (s.enqueueReady a b).claimed = s.claimed := rfl
@[simp] theorem enqueueReady_mailbox (a : A) (b : ActorPriority) :
    (s.enqueueReady a b).mailbox = s.mailbox := rfl
@[simp] theorem enqueueReady_sent (a : A) (b : ActorPriority) :
    (s.enqueueReady a b).sent = s.sent := rfl
@[simp] theorem enqueueReady_processed (a : A) (b : ActorPriority) :
    (s.enqueueReady a b).processed = s.processed := rfl

/-- `enqueueReady_` adds one occurrence, whichever band it appends to. -/
theorem enqueueReady_perm (a : A) (b : ActorPriority) :
    (s.enqueueReady a b).readyList.Perm (a :: s.readyList) := by
  cases b <;> simp [State.enqueueReady, State.readyList]
  · exact (List.perm_middle.append_left _).trans List.perm_middle
  · rw [← List.append_assoc, ← List.append_assoc, List.append_assoc (s.ready .high)]
    exact List.perm_append_singleton _ _

@[simp] theorem mem_enqueueReady (a a' : A) (b : ActorPriority) :
    a' ∈ (s.enqueueReady a b).readyList ↔ a' = a ∨ a' ∈ s.readyList := by
  rw [(enqueueReady_perm s a b).mem_iff, List.mem_cons]

/-- Taking the head of the queue `popReady_` chose removes one occurrence. -/
theorem popReady_perm {band : ActorPriority} {a : A} {rest : List A}
    (hr : s.ready band = a :: rest) :
    s.readyList.Perm (a ::
      ({ s with ready := Function.update s.ready band rest } : State C A P n).readyList) := by
  cases band <;> simp [State.readyList, hr]
  exact (List.perm_middle.append_left _).trans List.perm_middle

end Setters

/-- What one step may do to the claim of one actor: leave it where it is, hand it from
one place to another, create it at a place or give it up. -/
inductive Transfer (s s' : State C A P n) (a : A) : Prop
  | keep (hc : s'.claimed a = s.claimed a) (ho : ∀ q, Owns s' a q ↔ Owns s a q)
  | move (p p' : Place C n) (hp : Owns s a p) (hc : s'.claimed a = s.claimed a)
      (ho : ∀ q, Owns s' a q ↔ q = p' ∨ (Owns s a q ∧ q ≠ p))
  | claim (p : Place C n) (hf : s.claimed a = false) (hc : s'.claimed a = true)
      (ho : ∀ q, Owns s' a q ↔ q = p ∨ Owns s a q)
  | release (p : Place C n) (hp : Owns s a p) (hc : s'.claimed a = false)
      (ho : ∀ q, Owns s' a q ↔ Owns s a q ∧ q ≠ p)

theorem Transfer.token {s s' : State C A P n} {a : A} (h : Transfer s s' a) (ht : Token s a) :
    Token s' a := by
  cases h with
  | keep hc ho => simpa [Token, hc, ho] using ht
  | move p p' hp hc ho =>
    obtain ⟨htrue, huniq⟩ := ht.claimed hp
    refine .inl ⟨hc.trans htrue, p', fun q => ?_⟩
    rw [ho, huniq]
    exact or_iff_left fun h => h.2 h.1
  | claim p hf hc ho =>
    have hnone := ht.unclaimed hf
    exact .inl ⟨hc, p, fun q => by simp [ho, hnone]⟩
  | release p hp hc ho =>
    obtain ⟨_, huniq⟩ := ht.claimed hp
    exact .inr ⟨hc, fun q => by simp [ho, huniq]⟩

section Ownership
variable (s : State C A P n) (a : A) (q : Place C n)

@[simp] theorem owns_setPhase (w : Fin (n + 1)) (ph : Phase C A P n) :
    Owns (s.setPhase w ph) a q ↔
      (q = .worker w ∧ ph.owner = some a) ∨ (q ≠ .worker w ∧ Owns s a q) := by
  cases q with
  | worker w' =>
    by_cases hw : w' = w
    · subst hw
      simp [Owns]
    · simp [Owns, hw]
  | _ => simp [Owns]

@[simp] theorem owns_setPc [DecidableEq C] (t : Thread C n) (pc : SendPc A) :
    Owns (s.setPc t pc) a q ↔
      (q = .sender t ∧ pc.owner = some a) ∨ (q ≠ .sender t ∧ Owns s a q) := by
  cases q with
  | sender t' =>
    by_cases ht : t' = t
    · subst ht
      simp [Owns]
    · simp [Owns, ht]
  | _ => simp [Owns]

@[simp] theorem owns_setClaimed [DecidableEq A] (a' : A) (b : Bool) :
    Owns (s.setClaimed a' b) a q ↔ Owns s a q := by
  cases q <;> rfl

@[simp] theorem owns_setMailbox [DecidableEq A] (a' : A) (b : ActorPriority)
    (l : List (Message C A P n)) : Owns (s.setMailbox a' b l) a q ↔ Owns s a q := by
  cases q <;> rfl

@[simp] theorem owns_enqueueReady (a' : A) (b : ActorPriority) :
    Owns (s.enqueueReady a' b) a q ↔ (q = .queue ∧ a = a') ∨ Owns s a q := by
  cases q <;> simp [Owns]

/-- With no actor twice in the ready queues, the one `popReady_` takes leaves them. -/
theorem owns_popReady (hnd : s.readyList.Nodup) {band : ActorPriority} {a' : A} {rest : List A}
    (hr : s.ready band = a' :: rest) :
    Owns ({ s with ready := Function.update s.ready band rest } : State C A P n) a q ↔
      Owns s a q ∧ (q = .queue → a ≠ a') := by
  have hperm := popReady_perm s hr
  have hnot := (List.nodup_cons.mp (hperm.nodup_iff.mp hnd)).1
  cases q with
  | queue =>
    simp only [Owns, hperm.mem_iff, List.mem_cons, true_implies]
    refine ⟨fun h => ⟨.inr h, ?_⟩, fun ⟨h, hne⟩ => h.resolve_left hne⟩
    rintro rfl
    exact hnot h
  | _ => simp [Owns]

variable {s a q}

theorem owns_setPhase_of {w : Fin (n + 1)} {ph : Phase C A P n}
    (h : ph.owner = some a ↔ (s.phase w).owner = some a) :
    Owns (s.setPhase w ph) a q ↔ Owns s a q := by
  rw [owns_setPhase]
  by_cases hq : q = .worker w
  · subst hq
    simpa [Owns] using h
  · simp [hq]

theorem owns_setPc_of [DecidableEq C] {t : Thread C n} {pc : SendPc A}
    (h : pc.owner = some a ↔ (s.sendPc t).owner = some a) :
    Owns (s.setPc t pc) a q ↔ Owns s a q := by
  rw [owns_setPc]
  by_cases hq : q = .sender t
  · subst hq
    simpa [Owns] using h
  · simp [hq]

end Ownership

section StepTransfer
variable [DecidableEq C] [DecidableEq A] {s s' : State C A P n}

/-- Each step touches the claim of one actor at most, in one of the four ways. -/
theorem Step.transfer (h : Step s s') (hnd : s.readyList.Nodup) (a : A) : Transfer s s' a := by
  cases h with
  | push t m rest hpc htodo =>
    exact .keep rfl fun q => (owns_setPc_of (t := t) (s := s) (by simp [hpc, SendPc.owner]))
  | claimLost t a' band hpc hc =>
    exact .keep rfl fun q => owns_setPc_of (by simp [hpc, SendPc.owner])
  | claimWon t a' band hpc hc =>
    by_cases ha : a = a'
    · subst ha
      refine .claim (.sender t) hc (by simp) fun q => ?_
      by_cases hq : q = .sender t <;> simp [hq, SendPc.owner]
    · refine .keep (by simp [ha]) fun q => ?_
      rw [owns_setPc_of (by simp [hpc, SendPc.owner, Ne.symm ha]), owns_setClaimed]
  | enqueue t a' band hpc =>
    by_cases ha : a = a'
    · subst ha
      refine .move (.sender t) .queue (by simp [Owns, hpc, SendPc.owner]) rfl fun q => ?_
      by_cases hq : q = .sender t <;> simp [hq, SendPc.owner]
    · refine .keep rfl fun q => ?_
      rw [owns_setPc_of (by simp [hpc, SendPc.owner, Ne.symm ha]), owns_enqueueReady]
      simp [ha]
  | popReady w band a' rest hph hband hr =>
    by_cases ha : a = a'
    · subst ha
      have hq : Owns s a .queue := (popReady_perm s hr).mem_iff.mpr List.mem_cons_self
      refine .move .queue (.worker w) hq rfl fun q => ?_
      rw [owns_setPhase, owns_popReady s a q hnd hr]
      by_cases hq : q = .worker w <;> simp [hq, Phase.owner]
    · refine .keep rfl fun q => ?_
      rw [owns_setPhase_of (by simp [hph, Phase.owner, Ne.symm ha]), owns_popReady s a q hnd hr]
      simp [ha]
  | takeAll w a' band turn hph =>
    refine .keep rfl fun q => ?_
    rw [owns_setPhase_of (by cases band <;> simp [hph, afterTake, Phase.owner]), owns_setMailbox]
  | run w a' m turn sends hph =>
    exact .keep rfl fun q => owns_setPhase_of (w := w) (s := s) (by simp [hph, Phase.owner])
  | finish w a' m turn hph htodo hpc =>
    exact .keep rfl fun q => owns_setPhase_of (w := w) (s := s) (by simp [hph, Phase.owner])
  | release w a' hph =>
    by_cases ha : a = a'
    · subst ha
      refine .release (.worker w) (by simp [Owns, hph, Phase.owner]) (by simp) fun q => ?_
      simp [Phase.owner, and_comm]
    · refine .keep (by simp [ha]) fun q => ?_
      rw [owns_setPhase_of (by simp [hph, Phase.owner, Ne.symm ha]), owns_setClaimed]
  | recheckEmpty w a' band hph he =>
    exact .keep rfl fun q =>
      owns_setPhase_of (by cases band <;> simp [hph, afterEmpty, Phase.owner])
  | recheckPending w a' band hph he =>
    exact .keep rfl fun q => owns_setPhase_of (by simp [hph, Phase.owner])
  | reclaimLost w a' hph hc =>
    exact .keep rfl fun q => owns_setPhase_of (by simp [hph, Phase.owner])
  | reclaimWon w a' hph hc =>
    by_cases ha : a = a'
    · subst ha
      refine .claim (.worker w) hc (by simp) fun q => ?_
      by_cases hq : q = .worker w <;> simp [hq, Phase.owner]
    · refine .keep (by simp [ha]) fun q => ?_
      rw [owns_setPhase_of (by simp [hph, Phase.owner, Ne.symm ha]), owns_setClaimed]
  | chooseEmpty w a' band hph he =>
    exact .keep rfl fun q =>
      owns_setPhase_of (by cases band <;> simp [hph, afterChoose, Phase.owner])
  | choosePending w a' band hph he =>
    exact .keep rfl fun q => owns_setPhase_of (by simp [hph, Phase.owner])
  | requeue w a' band hph =>
    by_cases ha : a = a'
    · subst ha
      refine .move (.worker w) .queue (by simp [Owns, hph, Phase.owner]) rfl fun q => ?_
      by_cases hq : q = .worker w <;> simp [hq, Phase.owner]
    · refine .keep rfl fun q => ?_
      rw [owns_setPhase_of (by simp [hph, Phase.owner, Ne.symm ha]), owns_enqueueReady]
      simp [ha]

/-- An actor enters the ready queues only from a place that was answering for it. -/
theorem Step.ready_nodup (h : Step s s') (hnd : s.readyList.Nodup) (ht : ∀ a, Token s a) :
    s'.readyList.Nodup := by
  have enqueue {a : A} {p : Place C n} (hp : Owns s a p) (hne : p ≠ .queue)
      (band : ActorPriority) : (s.enqueueReady a band).readyList.Nodup := by
    refine (enqueueReady_perm s a band).nodup_iff.mpr (List.nodup_cons.mpr ⟨fun hmem => ?_, hnd⟩)
    exact hne (((ht a).claimed hp).2 .queue |>.mp hmem).symm
  cases h with
  | enqueue t a band hpc =>
    exact enqueue (p := .sender t) (by simp [Owns, hpc, SendPc.owner]) nofun band
  | requeue w a band hph =>
    exact enqueue (p := .worker w) (by simp [Owns, hph, Phase.owner]) nofun band
  | popReady w band a rest hph hband hr =>
    exact (List.nodup_cons.mp ((popReady_perm s hr).nodup_iff.mp hnd)).2
  | _ => exact hnd

end StepTransfer

end ProtoClojure.ActorScheduler
