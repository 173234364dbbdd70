import ProtoClojure.Io.HttpServer

/-! The server's descriptors in the kernel: each number it closes or shuts down is still its own. -/
namespace ProtoClojure.Io

variable {K : Type}

def State.closes (s : State K) (d : Descriptor) : Nat :=
  s.kernelCalls.countP fun e => e.call = .close && e.descriptor = d

def State.isClosed (s : State K) : Descriptor → Bool
  | .listener => s.listenClosed
  | .connection c => decide (c < s.accepted) && (s.conn c).closed
  | .other => false

/-- The number of a descriptor the server has. -/
def State.fd (s : State K) : Descriptor → Nat → Prop
  | .listener, fd => fd = s.listenFd
  | .connection c, fd => c < s.accepted ∧ fd = (s.conn c).fd
  | .other, _ => False

theorem fd_unique {s : State K} {d : Descriptor} {m n : Nat} (hm : s.fd d m) (hn : s.fd d n) :
    m = n := by
  cases d with
  | listener => exact Eq.trans hm (Eq.symm hn)
  | connection c => exact hm.2.trans hn.2.symm
  | other => exact hm.elim

structure Descriptors (s : State K) : Prop where
  /-- What the server has open is open, under a number of its own. -/
  owned : ∀ d fd, s.fd d fd → s.isClosed d = false → s.kernel fd = some d
  named : ∀ d fd, d ≠ .other → s.kernel fd = some d → s.fd d fd ∧ s.isClosed d = false
  hits : ∀ e ∈ s.kernelCalls, e.hit = some e.descriptor
  closedOnce : ∀ d, s.closes d = if s.isClosed d then 1 else 0

theorem Descriptors.same {s s' : State K} (d : Descriptors s) (kernel : s'.kernel = s.kernel)
    (calls : s'.kernelCalls = s.kernelCalls) (fd : ∀ d n, s'.fd d n ↔ s.fd d n)
    (closed : ∀ d, s'.isClosed d = s.isClosed d) : Descriptors s' where
  owned := by
    intro x n mine opened
    rw [kernel]
    exact d.owned x n ((fd x n).1 mine) ((closed x).symm.trans opened)
  named := by
    intro x n notOther stands
    rw [kernel] at stands
    rw [fd, closed]
    exact d.named x n notOther stands
  hits := by
    rw [calls]
    exact d.hits
  closedOnce := by
    intro x
    rw [closed, State.closes, calls]
    exact d.closedOnce x

/-- Closing what is open under its own number. -/
theorem Descriptors.close {s s' : State K} (d : Descriptors s) {x : Descriptor} {n : Nat}
    (mine : s.fd x n) (opened : s.isClosed x = false)
    (kernel : s'.kernel = Function.update s.kernel n none)
    (calls : s'.kernelCalls = s.kernelCalls ++ [⟨.close, x, s.kernel n⟩])
    (fd : ∀ d n, s'.fd d n ↔ s.fd d n)
    (closed : ∀ d, s'.isClosed d = if d = x then true else s.isClosed d) : Descriptors s' := by
  have stands := d.owned x n mine opened
  refine ⟨?_, ?_, ?_, ?_⟩
  · intro y m mine' opened'
    rw [closed] at opened'
    by_cases same : y = x
    · rw [if_pos same] at opened'
      exact absurd opened' (by simp)
    · rw [if_neg same] at opened'
      have stands' := d.owned y m ((fd y m).1 mine') opened'
      have apart : m ≠ n := by
        rintro rfl
        exact same (Option.some.inj (stands'.symm.trans stands))
      rw [kernel, Function.update_of_ne apart, stands']
  · intro y m notOther stands'
    rw [kernel] at stands'
    by_cases same : m = n
    · subst same
      simp at stands'
    · rw [Function.update_of_ne same] at stands'
      obtain ⟨mine', opened'⟩ := d.named y m notOther stands'
      have other : y ≠ x := by
        rintro rfl
        exact same (fd_unique mine' mine)
      rw [fd, closed, if_neg other]
      exact ⟨mine', opened'⟩
  · intro e mem
    rw [calls] at mem
    rcases List.mem_append.mp mem with old | new
    · exact d.hits e old
    · rw [List.mem_singleton] at new
      rw [new]
      exact stands
  · intro y
    rw [closed, State.closes, calls, List.countP_append]
    have count := d.closedOnce y
    rw [State.closes] at count
    rw [count]
    by_cases same : y = x
    · subst same
      simp [opened]
    · simp [same, Ne.symm same]

/-- Shutting down what is open under its own number. -/
theorem Descriptors.shutdown {s s' : State K} (d : Descriptors s) {x : Descriptor} {n : Nat}
    (mine : s.fd x n) (opened : s.isClosed x = false) (kernel : s'.kernel = s.kernel)
    (calls : s'.kernelCalls = s.kernelCalls ++ [⟨.shutdown, x, s.kernel n⟩])
    (fd : ∀ d n, s'.fd d n ↔ s.fd d n) (closed : ∀ d, s'.isClosed d = s.isClosed d) :
    Descriptors s' := by
  refine ⟨?_, ?_, ?_, ?_⟩
  · intro y m mine' opened'
    rw [kernel]
    exact d.owned y m ((fd y m).1 mine') ((closed y).symm.trans opened')
  · intro y m notOther stands
    rw [kernel] at stands
    rw [fd, closed]
    exact d.named y m notOther stands
  · intro e mem
    rw [calls] at mem
    rcases List.mem_append.mp mem with old | new
    · exact d.hits e old
    · rw [List.mem_singleton] at new
      rw [new]
      exact d.owned x n mine opened
  · intro y
    rw [closed, State.closes, calls, List.countP_append]
    exact d.closedOnce y

/-- The kernel gives a free number to a new connection. -/
theorem Descriptors.accepts {s s' : State K} (d : Descriptors s) {n : Nat}
    (free : s.kernel n = none)
    (kernel : s'.kernel = Function.update s.kernel n (some (.connection s.accepted)))
    (calls : s'.kernelCalls = s.kernelCalls)
    (fd : ∀ x m, s'.fd x m ↔ if x = .connection s.accepted then m = n else s.fd x m)
    (closed : ∀ x, s'.isClosed x = s.isClosed x) : Descriptors s' := by
  have fresh : s.isClosed (.connection s.accepted) = false := by simp [State.isClosed]
  refine ⟨?_, ?_, ?_, ?_⟩
  · intro y m mine opened
    rw [fd] at mine
    rw [closed] at opened
    by_cases new : y = .connection s.accepted
    · rw [if_pos new] at mine
      rw [kernel, mine, new, Function.update_self]
    · rw [if_neg new] at mine
      have stands := d.owned y m mine opened
      have apart : m ≠ n := by
        rintro rfl
        exact absurd (free.symm.trans stands) (by simp)
      rw [kernel, Function.update_of_ne apart, stands]
  · intro y m notOther stands
    rw [kernel] at stands
    rw [fd, closed]
    by_cases same : m = n
    · subst same
      rw [Function.update_self, Option.some.injEq] at stands
      subst stands
      rw [if_pos rfl]
      exact ⟨rfl, fresh⟩
    · rw [Function.update_of_ne same] at stands
      obtain ⟨mine, opened⟩ := d.named y m notOther stands
      have old : y ≠ .connection s.accepted := by
        rintro rfl
        exact absurd mine.1 (by simp)
      rw [if_neg old]
      exact ⟨mine, opened⟩
  · rw [calls]
    exact d.hits
  · intro y
    rw [closed, State.closes, calls]
    exact d.closedOnce y

/-- Another part of the process opens or closes a number that is not the server's. -/
theorem Descriptors.elsewhere {s : State K} (d : Descriptors s) {n : Nat} {o : Option Descriptor}
    (free : s.kernel n = none ∨ s.kernel n = some .other) (others : o = none ∨ o = some .other) :
    Descriptors { s with kernel := Function.update s.kernel n o } := by
  refine ⟨?_, ?_, d.hits, d.closedOnce⟩
  · intro y m mine opened
    have stands := d.owned y m mine opened
    have notOther : y ≠ .other := by
      rintro rfl
      exact mine
    have apart : m ≠ n := by
      rintro rfl
      rw [stands] at free
      simp [notOther] at free
    exact (Function.update_of_ne apart _ _).trans stands
  · intro y m notOther stands
    by_cases same : m = n
    · subst same
      rw [show ({ s with kernel := Function.update s.kernel m o } : State K).kernel m = o from
        Function.update_self _ _ _] at stands
      rcases others with rfl | rfl
      · exact absurd stands (by simp)
      · exact absurd (Option.some.inj stands) (Ne.symm notOther)
    · have stands' : s.kernel m = some y := (Function.update_of_ne same _ _).symm.trans stands
      exact d.named y m notOther stands'

end ProtoClojure.Io
