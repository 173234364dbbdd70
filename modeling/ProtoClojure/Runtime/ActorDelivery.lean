import ProtoClojure.Runtime.ActorInvariant
import Mathlib.Data.List.Nodup
import Mathlib.Data.List.Perm.Basic

/-! Delivery: what was processed, taken and left waiting is together what was sent, in
order, and a waiting message has somebody who will look at it. -/

namespace ProtoClojure.ActorScheduler
variable {C A P : Type} {n : Nat}

/-- The messages taken from `a`'s mailbox and not finished: those of the worker that
holds it, if one does. -/
def Turn (s : State C A P n) (a : A) (l : List (Message C A P n)) : Prop :=
  (∃ w, (s.phase w).holds = some a ∧ (s.phase w).pending = l) ∨
    ((∀ w, (s.phase w).holds ≠ some a) ∧ l = [])

/-- A turn has messages of its own actor only; while bands are still being taken, of
the bands before. -/
def Phase.TurnOk : Phase C A P n → Prop
  | .takeAll a band turn => ∀ m ∈ turn, m.actor = a ∧ m.band.index < band.index
  | .batch a turn => ∀ m ∈ turn, m.actor = a
  | .handler a m turn => m.actor = a ∧ ∀ m' ∈ turn, m'.actor = a
  | _ => True

/-- Someone will still look at the band: the owner of the claim, a sender on its way to
the compare-and-set, or a worker that has yet to re-check the band or to re-claim. -/
inductive Awake (s : State C A P n) (a : A) (b : ActorPriority) : Prop
  | claimed (h : s.claimed a = true)
  | sender (t band) (h : s.sendPc t = .pushed a band)
  | recheck (w band) (h : s.phase w = .recheck a band) (hb : band.index ≤ b.index)
  | reclaim (w) (h : s.phase w = .reclaim a)

section Turns
variable {s : State C A P n} {a : A} {l : List (Message C A P n)} {w : Fin (n + 1)}
  {ph : Phase C A P n}

theorem exists_turn (s : State C A P n) (a : A) : ∃ l, Turn s a l := by
  by_cases h : ∃ w, (s.phase w).holds = some a
  · obtain ⟨w, hw⟩ := h
    exact ⟨_, .inl ⟨w, hw, rfl⟩⟩
  · exact ⟨[], .inr ⟨fun w hw => h ⟨w, hw⟩, rfl⟩⟩

theorem turn_setPhase_of (hw : (s.phase w).holds ≠ some a) (hph : ph.holds ≠ some a) :
    Turn (s.setPhase w ph) a l ↔ Turn s a l := by
  have hsame (w') : (Function.update s.phase w ph w').holds = some a ↔
      (s.phase w').holds = some a := by
    by_cases he : w' = w
    · subst he
      simp [hw, hph]
    · simp [he]
  have hpend {w'} (h : (s.phase w').holds = some a) :
      Function.update s.phase w ph w' = s.phase w' := by
    refine Function.update_of_ne ?_ ..
    rintro rfl
    exact hw h
  simp only [Turn, setPhase_phase, ne_eq, hsame]
  refine or_congr (exists_congr fun w' => and_congr_right fun h => ?_) Iff.rfl
  rw [hpend h]

/-- After a worker that held `a`, or starts to, has moved, the turn is what it has. -/
theorem turn_setPhase_eq (ht : Token s a)
    (hw : (s.phase w).holds = some a ∨ ∀ w', (s.phase w').holds ≠ some a)
    (hl : Turn (s.setPhase w ph) a l) :
    (ph.holds = some a ∧ l = ph.pending) ∨ (ph.holds ≠ some a ∧ l = []) := by
  rcases hl with ⟨w', hw', rfl⟩ | ⟨hn, rfl⟩
  · by_cases he : w' = w
    · subst he
      simp_all
    · simp only [setPhase_phase, ne_eq, he, not_false_eq_true, Function.update_of_ne] at hw'
      rcases hw with hw | hw
      · exact absurd (ht.holds_unique hw' hw) he
      · exact absurd hw' (hw w')
  · have := hn w
    simp_all

end Turns

section Order
variable [DecidableEq A]

/-- The messages of one actor and band. -/
def onBand (a : A) (b : ActorPriority) (l : List (Message C A P n)) : List (Message C A P n) :=
  l.filter fun m => m.actor = a ∧ m.band = b

@[simp] theorem onBand_nil (a : A) (b : ActorPriority) :
    onBand a b ([] : List (Message C A P n)) = [] := rfl

@[simp] theorem onBand_append (a : A) (b : ActorPriority) (l l' : List (Message C A P n)) :
    onBand a b (l ++ l') = onBand a b l ++ onBand a b l' := List.filter_append ..

theorem onBand_cons (a : A) (b : ActorPriority) (m : Message C A P n)
    (l : List (Message C A P n)) : onBand a b (m :: l) = onBand a b [m] ++ onBand a b l :=
  onBand_append a b [m] l

theorem onBand_self {a : A} {b : ActorPriority} {l : List (Message C A P n)}
    (h : ∀ m ∈ l, m.actor = a ∧ m.band = b) : onBand a b l = l := by
  simpa [onBand] using h

theorem onBand_none {a : A} {b : ActorPriority} {l : List (Message C A P n)}
    (h : ∀ m ∈ l, m.actor = a → m.band ≠ b) : onBand a b l = [] := by
  simpa [onBand] using h

/-- Done, then taken, then waiting: together the messages in the order they were sent. -/
def InOrder (s : State C A P n) (a : A) (b : ActorPriority) : Prop :=
  ∀ l, Turn s a l → onBand a b s.processed ++ onBand a b l ++ s.mailbox a b = onBand a b s.sent

theorem InOrder.mailbox_wf {s : State C A P n} {a : A} {b : ActorPriority} (h : InOrder s a b) :
    ∀ m ∈ s.mailbox a b, m.actor = a ∧ m.band = b := by
  intro m hm
  obtain ⟨l, hl⟩ := exists_turn s a
  have hmem : m ∈ onBand a b s.sent := by
    rw [← h l hl]
    exact List.mem_append_right _ hm
  simpa [onBand] using (List.mem_filter.mp hmem).2

theorem InOrder.frame {s s' : State C A P n} {a : A} {b : ActorPriority} (h : InOrder s a b)
    (hturn : ∀ l, Turn s' a l → Turn s a l) (hp : s'.processed = s.processed)
    (hm : s'.mailbox a b = s.mailbox a b) (hs : s'.sent = s.sent) : InOrder s' a b := by
  intro l hl
  rw [hp, hm, hs]
  exact h l (hturn l hl)

end Order

section Steps
variable [DecidableEq C] [DecidableEq A] {s s' : State C A P n}

theorem Step.turnOk (h : Step s s') (hok : ∀ w, (s.phase w).TurnOk)
    (hord : ∀ a b, InOrder s a b) (w' : Fin (n + 1)) : (s'.phase w').TurnOk := by
  have update {w : Fin (n + 1)} {ph : Phase C A P n} (hph : ph.TurnOk) :
      (Function.update s.phase w ph w').TurnOk := by
    by_cases he : w' = w
    · subst he
      simpa using hph
    · simpa [he] using hok w'
  cases h with
  | takeAll w a band turn hph =>
    have hturn := hok w
    simp only [hph, Phase.TurnOk] at hturn
    have hbox := (hord a band).mailbox_wf
    apply update
    cases band <;> simp_all [afterTake, Phase.TurnOk, ActorPriority.index] <;> grind
  | run w a m turn sends hph =>
    have hturn := hok w
    simp_all [Phase.TurnOk]
  | finish w a m turn hph =>
    have hturn := hok w
    simp_all [Phase.TurnOk]
  | push | claimLost | claimWon | enqueue => exact hok w'
  | recheckEmpty w a band => exact update (by cases band <;> simp [afterEmpty, Phase.TurnOk])
  | chooseEmpty w a band => exact update (by cases band <;> simp [afterChoose, Phase.TurnOk])
  | _ => exact update (by simp [Phase.TurnOk])

omit [DecidableEq C] in
/-- A worker that holds nobody before and after its move leaves every turn alone. -/
private theorem inOrder_setPhase {w : Fin (n + 1)} {ph : Phase C A P n} {a : A}
    {b : ActorPriority} (h : InOrder s a b) (hw : (s.phase w).holds = none)
    (hph : ph.holds = none) : InOrder (s.setPhase w ph) a b :=
  h.frame (fun _ => (turn_setPhase_of (by simp [hw]) (by simp [hph])).mp) rfl rfl rfl

theorem Step.inOrder (h : Step s s') (ht : ∀ a, Token s a)
    (hok : ∀ w, (s.phase w).TurnOk) (hord : ∀ a b, InOrder s a b) (a : A) (b : ActorPriority) :
    InOrder s' a b := by
  have hab := hord a b
  cases h with
  | push t m rest hpc htodo =>
    intro l hl
    have heq := hab l hl
    by_cases hm : a = m.actor ∧ b = m.band
    · obtain ⟨rfl, rfl⟩ := hm
      simp [State.push, ← heq, onBand_self, setMailbox_mailbox]
    · rw [State.push, onBand_append, ← heq, onBand_none (l := [_]) (by simpa using by grind)]
      simp [setMailbox_mailbox, hm]
  | claimLost | claimWon | enqueue => exact hab
  | popReady w band a' rest hph hband hr =>
    refine hab.frame (fun l hl => ?_) rfl rfl rfl
    by_cases ha : a = a'
    · subst ha
      have hq : Owns s a .queue := (popReady_perm s hr).mem_iff.mpr List.mem_cons_self
      have hfree (w') : (s.phase w').holds ≠ some a := fun hw =>
        nomatch (((ht a).claimed hq).2 (.worker w')).mp (Phase.owner_of_holds hw)
      refine .inr ⟨hfree, ?_⟩
      rcases turn_setPhase_eq (s := s) (ht a) (.inr hfree) hl with ⟨_, rfl⟩ | ⟨_, rfl⟩ <;> rfl
    · exact (turn_setPhase_of (s := s) (by simp [hph, Phase.holds])
        (by simp [Phase.holds, Ne.symm ha])).mp hl
  | takeAll w a' band turn hph =>
    have hholds (a'') (t : List (Message C A P n)) :
        (afterTake a' band t).holds = some a'' ↔ a' = a'' := by
      cases band <;> simp [afterTake, Phase.holds]
    by_cases ha : a = a'
    · subst ha
      have hw : (s.phase w).holds = some a := by simp [hph, Phase.holds]
      intro l hl
      have heq := hab _ (.inl ⟨w, hw, rfl⟩)
      rcases turn_setPhase_eq (s := s.setMailbox a band []) (ht a) (.inl hw) hl
        with ⟨_, rfl⟩ | ⟨hne, _⟩
      · have hpend : (afterTake a band (turn ++ s.mailbox a band)).pending =
            turn ++ s.mailbox a band := by
          cases band <;> rfl
        have hturn := hok w
        have hbox := (hord a band).mailbox_wf
        simp only [hph, Phase.TurnOk, Phase.pending] at hturn heq
        rw [hpend, onBand_append, setPhase_mailbox, setMailbox_mailbox]
        by_cases hb : b = band
        · subst hb
          have hearlier : onBand a b turn = [] :=
            onBand_none fun m hm _ hmb => by
              have := (hturn m hm).2
              rw [hmb] at this
              exact Nat.lt_irrefl _ this
          simpa [onBand_self hbox, hearlier] using heq
        · have hother : onBand a b (s.mailbox a band) = [] :=
            onBand_none fun m hm _ hmb => hb (hmb.symm.trans (hbox m hm).2)
          simpa [hother, hb] using heq
      · exact absurd ((hholds _ _).mpr rfl) hne
    · refine hab.frame (fun l hl => ?_) rfl (by simp [setMailbox_mailbox, ha]) rfl
      exact (turn_setPhase_of (s := s) (by simp [hph, Phase.holds, Ne.symm ha])
        (by simp [hholds, Ne.symm ha])).mp hl
  | run w a' m turn sends hph =>
    refine hab.frame (fun l hl => ?_) rfl rfl rfl
    by_cases ha : a = a'
    · subst ha
      have hw : (s.phase w).holds = some a := by simp [hph, Phase.holds]
      rcases turn_setPhase_eq (s := s) (ht a) (.inl hw) hl with ⟨_, rfl⟩ | ⟨hne, _⟩
      · exact .inl ⟨w, hw, by simp [hph, Phase.pending]⟩
      · exact absurd rfl hne
    · exact (turn_setPhase_of (s := s) (by simp [hph, Phase.holds, Ne.symm ha])
        (by simp [Phase.holds, Ne.symm ha])).mp hl
  | finish w a' m turn hph htodo hpc =>
    have hturn := hok w
    simp only [hph, Phase.TurnOk] at hturn
    intro l hl
    by_cases ha : a = a'
    · subst ha
      have hw : (s.phase w).holds = some a := by simp [hph, Phase.holds]
      have heq := hab _ (.inl ⟨w, hw, rfl⟩)
      simp only [hph, Phase.pending] at heq
      rcases turn_setPhase_eq (s := s) (ht a) (.inl hw) hl with ⟨_, rfl⟩ | ⟨hne, _⟩
      · rw [onBand_cons] at heq
        simpa [Phase.pending] using heq
      · exact absurd rfl hne
    · have hne : onBand a b [m] = [] := onBand_none (by simp [hturn.1, Ne.symm ha])
      have hl' := (turn_setPhase_of (s := s) (by simp [hph, Phase.holds, Ne.symm ha])
        (by simp [Phase.holds, Ne.symm ha])).mp hl
      simpa [hne] using hab l hl'
  | release w a' hph =>
    refine hab.frame (fun l hl => ?_) rfl rfl rfl
    by_cases ha : a = a'
    · subst ha
      have hw : (s.phase w).holds = some a := by simp [hph, Phase.holds]
      rcases turn_setPhase_eq (s := s) (ht a) (.inl hw) hl with ⟨hne, _⟩ | ⟨_, rfl⟩
      · exact absurd hne (by simp [Phase.holds])
      · exact .inl ⟨w, hw, by simp [hph, Phase.pending]⟩
    · exact (turn_setPhase_of (s := s) (by simp [hph, Phase.holds, Ne.symm ha])
        (by simp [Phase.holds])).mp hl
  | recheckEmpty w a' band hph he =>
    exact inOrder_setPhase hab (by simp [hph, Phase.holds])
      (by cases band <;> rfl)
  | chooseEmpty w a' band hph he =>
    exact inOrder_setPhase hab (by simp [hph, Phase.holds])
      (by cases band <;> rfl)
  | recheckPending w a' band hph | reclaimLost w a' hph | reclaimWon w a' hph
  | choosePending w a' band hph | requeue w a' band hph =>
    exact inOrder_setPhase hab (by simp [hph, Phase.holds]) rfl

/-- The clients' sends so far are what they had to send, in their own order. -/
def ProgramOrder (todo : C → List (Send A P)) (s : State C A P n) : Prop :=
  ∀ c, ((s.sent.filter fun m => m.sender = .inl c).map fun m => ⟨m.actor, m.band, m.payload⟩) ++
    s.todo (.inl c) = todo c

theorem Step.programOrder {todo : C → List (Send A P)} (h : Step s s') (hp : ProgramOrder todo s) :
    ProgramOrder todo s' := by
  intro c
  have hc := hp c
  cases h with
  | push t m rest hpc htodo =>
    by_cases ht : t = .inl c
    · subst ht
      rw [htodo] at hc
      simpa [State.push] using hc
    · simpa [State.push, ht, Function.update_of_ne (Ne.symm ht)] using hc
  | _ => exact hc

theorem Step.stamps (h : Step s s') (hs : s.sent.map Message.stamp = List.range s.sent.length) :
    s'.sent.map Message.stamp = List.range s'.sent.length := by
  cases h with
  | push t m rest => simp [State.push, hs, List.range_succ]
  | _ => exact hs

omit [DecidableEq C] [DecidableEq A] in
/-- A worker that was not looking at `a` after a release takes no onlooker away. -/
private theorem awake_setPhase {w : Fin (n + 1)} {ph : Phase C A P n} {a : A} {b : ActorPriority}
    (h : Awake s a b) (hr : ∀ band, s.phase w ≠ .recheck a band) (hc : s.phase w ≠ .reclaim a) :
    Awake (s.setPhase w ph) a b := by
  have stays {w'} (hne : s.phase w' ≠ s.phase w) : (s.setPhase w ph).phase w' = s.phase w' := by
    refine Function.update_of_ne ?_ ..
    rintro rfl
    exact hne rfl
  cases h with
  | claimed h => exact .claimed h
  | sender t band h => exact .sender t band h
  | recheck w' band h hb =>
    exact .recheck w' band ((stays (h.symm ▸ (hr band).symm)).trans h) hb
  | reclaim w' h => exact .reclaim w' ((stays (h.symm ▸ hc.symm)).trans h)

omit [DecidableEq A] in
private theorem awake_setPc {t : Thread C n} {pc : SendPc A} {a : A} {b : ActorPriority}
    (h : Awake s a b) (hp : ∀ band, s.sendPc t ≠ .pushed a band) : Awake (s.setPc t pc) a b := by
  cases h with
  | claimed h => exact .claimed h
  | sender t' band h =>
    refine .sender t' band ((Function.update_of_ne ?_ ..).trans h)
    rintro rfl
    exact hp band h
  | recheck w band h hb => exact .recheck w band h hb
  | reclaim w h => exact .reclaim w h

omit [DecidableEq C] [DecidableEq A] in
/-- The onlooker does not care about the fields it does not read. -/
private theorem Awake.congr {a : A} {b : ActorPriority} (h : Awake s a b)
    (hc : s'.claimed a = s.claimed a) (hp : s'.sendPc = s.sendPc) (hph : s'.phase = s.phase) :
    Awake s' a b := by
  cases h with
  | claimed h => exact .claimed (hc.trans h)
  | sender t band h => exact .sender t band (hp ▸ h)
  | recheck w band h hb => exact .recheck w band (hph ▸ h) hb
  | reclaim w h => exact .reclaim w (hph ▸ h)

omit [DecidableEq C] in
private theorem awake_setClaimed {a a' : A} {b : ActorPriority} (h : Awake s a b) :
    Awake (s.setClaimed a' true) a b := by
  by_cases ha : a = a'
  · exact .claimed (by simp [ha])
  · exact h.congr (by simp [ha]) rfl rfl

/-- The lost-wakeup argument: no step makes the last onlooker of a waiting message go. -/
theorem Step.awake (h : Step s s') (hw : ∀ a b, s.mailbox a b ≠ [] → Awake s a b) (a : A)
    (b : ActorPriority) (hne : s'.mailbox a b ≠ []) : Awake s' a b := by
  cases h with
  | push t m rest hpc htodo =>
    by_cases hm : a = m.actor ∧ b = m.band
    · obtain ⟨rfl, rfl⟩ := hm
      exact .sender t m.band (by simp [State.push])
    · have hold : s.mailbox a b ≠ [] := by
        simpa [State.push, setMailbox_mailbox, hm] using hne
      exact (awake_setPc (hw a b hold) (by simp [hpc])).congr rfl rfl rfl
  | claimLost t a' band hpc hc =>
    by_cases ha : a = a'
    · exact .claimed (ha ▸ hc)
    · exact awake_setPc (hw a b hne) (by simp [hpc, Ne.symm ha])
  | claimWon t a' band hpc hc =>
    by_cases ha : a = a'
    · exact .claimed (by simp [ha])
    · exact awake_setPc (awake_setClaimed (hw a b hne)) (by simp [hpc, Ne.symm ha])
  | enqueue t a' band hpc =>
    exact awake_setPc ((hw a b hne).congr rfl rfl rfl) (by simp [hpc])
  | popReady w band a' rest hph =>
    exact awake_setPhase (s := { s with ready := _ }) ((hw a b hne).congr rfl rfl rfl)
      (by simp [hph]) (by simp [hph])
  | takeAll w a' band turn hph =>
    have hold : s.mailbox a b ≠ [] := by
      simp only [setPhase_mailbox, setMailbox_mailbox] at hne
      grind
    exact awake_setPhase (s := s.setMailbox a' band []) ((hw a b hold).congr rfl rfl rfl)
      (by simp [hph]) (by simp [hph])
  | run w a' m turn sends hph =>
    exact awake_setPhase (s := { s with todo := _ }) ((hw a b hne).congr rfl rfl rfl)
      (by simp [hph]) (by simp [hph])
  | finish w a' m turn hph htodo hpc =>
    exact awake_setPhase (s := { s with processed := _ }) ((hw a b hne).congr rfl rfl rfl)
      (by simp [hph]) (by simp [hph])
  | release w a' hph =>
    by_cases ha : a = a'
    · exact .recheck w .high (by simp [ha]) (Nat.zero_le _)
    · exact awake_setPhase (s := s.setClaimed a' false)
        ((hw a b hne).congr (by simp [ha]) rfl rfl) (by simp [hph]) (by simp [hph])
  | recheckEmpty w a' band hph he =>
    by_cases hold : a = a' ∧ band.index ≤ b.index
    · obtain ⟨rfl, hle⟩ := hold
      have hband : b ≠ band := by
        rintro rfl
        exact hne he
      -- the band just read was empty, so the message is in one the worker reads later
      cases band with
      | high => exact .recheck w .medium (by simp [afterEmpty]) (by cases b <;> simp_all [ActorPriority.index])
      | medium => exact .recheck w .low (by simp [afterEmpty]) (by cases b <;> simp_all [ActorPriority.index])
      | low => cases b <;> simp_all [ActorPriority.index]
    · cases hw a b hne with
      | recheck w' band' h hb =>
        refine .recheck w' band' ((Function.update_of_ne ?_ ..).trans h) hb
        rintro rfl
        rw [hph, Phase.recheck.injEq] at h
        exact hold ⟨h.1.symm, h.2 ▸ hb⟩
      | claimed h => exact .claimed h
      | sender t band h => exact .sender t band h
      | reclaim w' h =>
        refine .reclaim w' ((Function.update_of_ne ?_ ..).trans h)
        rintro rfl
        rw [hph] at h
        cases h
  | recheckPending w a' band hph he =>
    by_cases ha : a = a'
    · exact .reclaim w (by simp [ha])
    · exact awake_setPhase (hw a b hne) (by simp [hph, Ne.symm ha]) (by simp [hph])
  | reclaimLost w a' hph hc =>
    by_cases ha : a = a'
    · exact .claimed (ha ▸ hc)
    · exact awake_setPhase (hw a b hne) (by simp [hph]) (by simp [hph, Ne.symm ha])
  | reclaimWon w a' hph hc =>
    by_cases ha : a = a'
    · exact .claimed (by simp [ha])
    · exact awake_setPhase (awake_setClaimed (hw a b hne)) (by simp [hph])
        (by simp [hph, Ne.symm ha])
  | chooseEmpty w a' band hph | choosePending w a' band hph =>
    exact awake_setPhase (hw a b hne) (by simp [hph]) (by simp [hph])
  | requeue w a' band hph =>
    exact awake_setPhase (s := s.enqueueReady a' band) ((hw a b hne).congr rfl rfl rfl)
      (by simp [hph]) (by simp [hph])

end Steps

section Reach
variable [DecidableEq C] [DecidableEq A] {todo : C → List (Send A P)} {s s' : State C A P n}

/-- What every reachable state satisfies. -/
structure Invariant (todo : C → List (Send A P)) (s : State C A P n) : Prop where
  token (a : A) : Token s a
  readyNodup : s.readyList.Nodup
  turnOk (w : Fin (n + 1)) : (s.phase w).TurnOk
  inOrder (a : A) (b : ActorPriority) : InOrder s a b
  stamps : s.sent.map Message.stamp = List.range s.sent.length
  awake (a : A) (b : ActorPriority) : s.mailbox a b ≠ [] → Awake s a b
  programOrder : ProgramOrder todo s

theorem Invariant.start (todo : C → List (Send A P)) :
    Invariant todo (State.start todo : State C A P n) where
  token a := .inr ⟨rfl, fun q => by
    cases q <;> simp [Owns, State.start, SendPc.owner, Phase.owner, State.readyList]⟩
  readyNodup := List.nodup_nil
  turnOk w := trivial
  inOrder a b l hl := by
    rcases hl with ⟨w, hw, _⟩ | ⟨_, rfl⟩
    · cases hw
    · rfl
  stamps := rfl
  awake a b h := absurd rfl h
  programOrder c := rfl

theorem Invariant.step (h : Invariant todo s) (hs : Step s s') : Invariant todo s' where
  token a := (hs.transfer h.readyNodup a).token (h.token a)
  readyNodup := hs.ready_nodup h.readyNodup h.token
  turnOk := hs.turnOk h.turnOk h.inOrder
  inOrder := hs.inOrder h.token h.turnOk h.inOrder
  stamps := hs.stamps h.stamps
  awake := hs.awake h.awake
  programOrder := hs.programOrder h.programOrder

theorem Reachable.invariant (h : Reachable todo s) : Invariant todo s := by
  induction h with
  | refl => exact .start todo
  | tail _ hs ih => exact ih.step hs

theorem Invariant.sent_nodup (h : Invariant todo s) : s.sent.Nodup := by
  refine List.Nodup.of_map Message.stamp ?_
  rw [h.stamps]
  exact List.nodup_range

/-- Within one actor and band, the order of completion is the order of the pushes. -/
theorem Invariant.processed_prefix (h : Invariant todo s) (a : A) (b : ActorPriority) :
    onBand a b s.processed <+: onBand a b s.sent := by
  obtain ⟨l, hl⟩ := exists_turn s a
  rw [← h.inOrder a b l hl, List.append_assoc]
  exact List.prefix_append _ _

omit [DecidableEq C] in
theorem mem_onBand {m : Message C A P n} {l : List (Message C A P n)} :
    m ∈ onBand m.actor m.band l ↔ m ∈ l := by
  simp [onBand]

/-- The three parts of one actor and band's history share no message. -/
theorem Invariant.parts_nodup (h : Invariant todo s) {a : A} {l : List (Message C A P n)}
    (hl : Turn s a l) (b : ActorPriority) :
    (onBand a b s.processed ++ onBand a b l ++ s.mailbox a b).Nodup := by
  rw [h.inOrder a b l hl]
  exact h.sent_nodup.filter _

theorem Invariant.processed_nodup (h : Invariant todo s) : s.processed.Nodup := by
  classical
  refine List.nodup_iff_count_le_one.mpr fun m => ?_
  obtain ⟨l, hl⟩ := exists_turn s m.actor
  have hparts := ((h.parts_nodup hl m.band).of_append_left).of_append_left
  have hcount := List.nodup_iff_count_le_one.mp hparts m
  rwa [onBand, List.count_filter (by simp)] at hcount

theorem Invariant.pending_actor (h : Invariant todo s) {w : Fin (n + 1)} {a : A}
    (hw : (s.phase w).holds = some a) : ∀ m ∈ (s.phase w).pending, m.actor = a := by
  have hok := h.turnOk w
  intro m hm
  cases hph : s.phase w <;>
    simp_all [Phase.holds, Phase.pending, Phase.TurnOk]
  exact hm.elim (fun he => he ▸ hok.1) (hok.2 m)

/-- A quiescent scheduler has nobody inside `send` and every worker in `popReady_`
before empty queues. -/
theorem Quiescent.idle (h : Quiescent s) :
    (∀ t, s.sendPc t = .idle) ∧ (∀ w, s.phase w = .popReady) ∧ s.readyList = [] := by
  have hpc (t) : s.sendPc t = .idle := by
    cases hp : s.sendPc t with
    | idle => rfl
    | pushed a band =>
      cases hc : s.claimed a with
      | true => exact absurd (.claimLost s t a band hp hc) (h _)
      | false => exact absurd (.claimWon s t a band hp hc) (h _)
    | claimed a band => exact absurd (.enqueue s t a band hp) (h _)
  have htodo (t) : s.todo t = [] := by
    cases ht : s.todo t with
    | nil => rfl
    | cons m rest => exact absurd (.push s t m rest (hpc t) ht) (h _)
  have hphase (w) : s.phase w = .popReady := by
    cases hw : s.phase w with
    | popReady => rfl
    | takeAll a band turn => exact absurd (.takeAll s w a band turn hw) (h _)
    | batch a turn =>
      cases turn with
      | nil => exact absurd (.release s w a hw) (h _)
      | cons m turn => exact absurd (.run s w a m turn [] hw) (h _)
    | handler a m turn => exact absurd (.finish s w a m turn hw (htodo _) (hpc _)) (h _)
    | recheck a band =>
      by_cases he : s.mailbox a band = []
      · exact absurd (.recheckEmpty s w a band hw he) (h _)
      · exact absurd (.recheckPending s w a band hw he) (h _)
    | reclaim a =>
      cases hc : s.claimed a with
      | true => exact absurd (.reclaimLost s w a hw hc) (h _)
      | false => exact absurd (.reclaimWon s w a hw hc) (h _)
    | choose a band =>
      by_cases he : s.mailbox a band = []
      · exact absurd (.chooseEmpty s w a band hw he) (h _)
      · exact absurd (.choosePending s w a band hw he) (h _)
    | requeue a band => exact absurd (.requeue s w a band hw) (h _)
  -- worker 0 exists, so an actor in a ready queue would be taken
  have hready : s.readyBand = none := by
    cases hb : s.readyBand with
    | none => rfl
    | some band =>
      have hne : s.ready band ≠ [] := by
        unfold State.readyBand at hb
        grind
      obtain ⟨a, rest, hr⟩ := List.exists_cons_of_ne_nil hne
      exact absurd (.popReady s 0 band a rest (hphase 0) hb hr) (h _)
  refine ⟨hpc, hphase, ?_⟩
  simp only [State.readyBand] at hready
  simp only [State.readyList]
  grind

theorem Invariant.quiescent_empty (h : Invariant todo s) (hq : Quiescent s) (a : A)
    (b : ActorPriority) : s.mailbox a b = [] := by
  obtain ⟨hpc, hphase, hready⟩ := hq.idle
  by_contra hne
  cases h.awake a b hne with
  | sender t band ht => simp [hpc] at ht
  | recheck w band hw => simp [hphase] at hw
  | reclaim w hw => simp [hphase] at hw
  | claimed hc =>
    rcases h.token a with ⟨_, p, hp⟩ | ⟨hf, _⟩
    · have := (hp p).mpr rfl
      cases p <;> simp [Owns, hpc, hphase, hready, SendPc.owner, Phase.owner] at this
    · simp [hc] at hf

/-- What the scheduler promises of a state. -/
structure MailboxSafety (todo : C → List (Send A P)) (s : State C A P n) : Prop where
  /-- no two workers hold one actor -/
  exclusive (w w' : Fin (n + 1)) (a : A) :
    (s.phase w).owner = some a → (s.phase w').owner = some a → w = w'
  readyOnce (a : A) : s.readyList.count a ≤ 1
  /-- no two pushes make the same message, and no message is processed twice -/
  sentOnce : s.sent.Nodup
  processedOnce : s.processed.Nodup
  processedSent : ∀ m ∈ s.processed, m ∈ s.sent
  /-- a message that left its mailbox is in the hands of the actor's worker or processed -/
  kept : ∀ m ∈ s.sent, m ∈ s.mailbox m.actor m.band ∨ m ∈ s.processed ∨
    ∃ w, (s.phase w).holds = some m.actor ∧ m ∈ (s.phase w).pending
  /-- a message in a mailbox has not been processed and is in nobody's hands -/
  waiting : ∀ a b, ∀ m ∈ s.mailbox a b, m ∈ s.sent ∧ m ∉ s.processed ∧
    ∀ w, m ∉ (s.phase w).pending
  /-- the pushes of a client are its sends, in its order -/
  sendingOrder : ProgramOrder todo s
  /-- the messages of one sender, actor and band are processed in the order of its pushes -/
  fifo (t : Thread C n) (a : A) (b : ActorPriority) :
    ((s.processed.filter fun m => m.sender = t ∧ m.actor = a ∧ m.band = b) <+:
      s.sent.filter fun m => m.sender = t ∧ m.actor = a ∧ m.band = b)
  quiescent : Quiescent s → (∀ a b, s.mailbox a b = []) ∧ s.processed.Perm s.sent

theorem Invariant.kept (h : Invariant todo s) {m : Message C A P n} (hm : m ∈ s.sent) :
    m ∈ s.mailbox m.actor m.band ∨ m ∈ s.processed ∨
      ∃ w, (s.phase w).holds = some m.actor ∧ m ∈ (s.phase w).pending := by
  obtain ⟨l, hl⟩ := exists_turn s m.actor
  rw [← mem_onBand, ← h.inOrder _ _ l hl, List.mem_append, List.mem_append, mem_onBand,
    mem_onBand] at hm
  rcases hm with (hm | hm) | hm
  · exact .inr (.inl hm)
  · rcases hl with ⟨w, hw, rfl⟩ | ⟨_, rfl⟩
    · exact .inr (.inr ⟨w, hw, hm⟩)
    · cases hm
  · exact .inl hm

theorem Invariant.waiting (h : Invariant todo s) {a : A} {b : ActorPriority}
    {m : Message C A P n} (hm : m ∈ s.mailbox a b) :
    m ∈ s.sent ∧ m ∉ s.processed ∧ ∀ w, m ∉ (s.phase w).pending := by
  obtain ⟨rfl, rfl⟩ := (h.inOrder a b).mailbox_wf m hm
  have apart {l} (hl : Turn s m.actor l) : m ∉ s.processed ∧ m ∉ l := by
    have hdisj := List.disjoint_of_nodup_append (h.parts_nodup hl m.band)
    refine ⟨fun hp => hdisj ?_ hm, fun hp => hdisj ?_ hm⟩
    · exact List.mem_append_left _ (mem_onBand.mpr hp)
    · exact List.mem_append_right _ (mem_onBand.mpr hp)
  obtain ⟨l, hl⟩ := exists_turn s m.actor
  refine ⟨?_, (apart hl).1, fun w hw => ?_⟩
  · rw [← mem_onBand, ← h.inOrder _ _ l hl]
    exact List.mem_append_right _ hm
  · cases hh : (s.phase w).holds with
    | none => cases hph : s.phase w <;> simp_all [Phase.holds, Phase.pending]
    | some a =>
      obtain rfl := h.pending_actor hh m hw
      exact (apart (.inl ⟨w, hh, rfl⟩)).2 hw

theorem Invariant.processed_sent (h : Invariant todo s) {m : Message C A P n}
    (hm : m ∈ s.processed) : m ∈ s.sent :=
  mem_onBand.mp ((h.processed_prefix m.actor m.band).subset (mem_onBand.mpr hm))

theorem Invariant.fifo (h : Invariant todo s) (t : Thread C n) (a : A) (b : ActorPriority) :
    ((s.processed.filter fun m => m.sender = t ∧ m.actor = a ∧ m.band = b) <+:
      s.sent.filter fun m => m.sender = t ∧ m.actor = a ∧ m.band = b) := by
  have hpre := (h.processed_prefix a b).filter (fun m => m.sender = t)
  simpa [onBand, List.filter_filter] using hpre

theorem Invariant.quiescent_processed (h : Invariant todo s) (hq : Quiescent s) :
    s.processed.Perm s.sent := by
  refine (List.perm_ext_iff_of_nodup h.processed_nodup h.sent_nodup).mpr fun m => ?_
  refine ⟨h.processed_sent, fun hm => ?_⟩
  rcases h.kept hm with hbox | hdone | ⟨w, hw, _⟩
  · simp [h.quiescent_empty hq] at hbox
  · exact hdone
  · simp [hq.idle.2.1, Phase.holds] at hw

/-- Mailbox safety over every interleaving of senders and workers. -/
theorem mailbox_safety (h : Reachable todo s) : MailboxSafety todo s where
  exclusive w w' a hw hw' := by
    have := (((h.invariant.token a).claimed (p := .worker w') hw').2 (.worker w)).mp hw
    simpa using this
  readyOnce := List.nodup_iff_count_le_one.mp h.invariant.readyNodup
  sentOnce := h.invariant.sent_nodup
  processedOnce := h.invariant.processed_nodup
  processedSent _ := h.invariant.processed_sent
  kept _ := h.invariant.kept
  waiting _ _ _ := h.invariant.waiting
  sendingOrder := h.invariant.programOrder
  fifo := h.invariant.fifo
  quiescent hq := ⟨h.invariant.quiescent_empty hq, h.invariant.quiescent_processed hq⟩

end Reach

/-- Two clients race for one actor: the second pushes before the first has claimed. -/
theorem mailbox_safety_race :
    let s : State Bool Unit Nat 0 := State.start fun c => [⟨(), .high, c.toNat⟩]
    let s₁ := s.push (.inl false) ⟨(), .high, 0⟩ []
    let s₂ := s₁.push (.inl true) ⟨(), .high, 1⟩ []
    let s₃ := (s₂.setClaimed () true).setPc (.inl false) (.claimed () .high)
    MailboxSafety (fun c => [⟨(), .high, c.toNat⟩]) s₃ := by
  refine mailbox_safety (.tail (.tail (.tail .refl (.push _ _ _ _ rfl rfl)) (.push _ _ _ _ ?_ ?_))
    (.claimWon _ _ _ _ ?_ ?_)) <;> rfl

end ProtoClojure.ActorScheduler
