import Mathlib.Logic.Relation
import Mathlib.Logic.Function.Basic
import Mathlib.Data.List.Basic

/-! Interning: the caches of each thread and the table every thread publishes named values in,
one constructor for each access to memory that threads share. -/
namespace ProtoClojure.Interning

/-- The bytes of a C++ string. -/
abbrev Text := List UInt8

/-- What a callee reads of a string's `c_str`. -/
def cString (text : Text) : Text := text.takeWhile (· ≠ 0)

theorem cString_eq {text : Text} (h : 0 ∉ text) : cString text = text := by
  induction text with
  | nil => rfl
  | cons c text ih =>
    have hc : c ≠ 0 := fun hc => h (hc ▸ List.mem_cons_self)
    have htail := ih fun hm => h (List.mem_cons_of_mem c hm)
    unfold cString at htail ⊢
    rw [List.takeWhile_cons_of_pos (by simpa using hc), htail]

theorem not_mem_cString (text : Text) : 0 ∉ cString text := by
  induction text with
  | nil => exact List.not_mem_nil
  | cons c text ih =>
    unfold cString at ih ⊢
    by_cases hc : c = 0
    · rw [List.takeWhile_cons_of_neg (by simp [hc])]
      exact List.not_mem_nil
    · rw [List.takeWhile_cons_of_pos (by simpa using hc)]
      exact fun h => (List.mem_cons.mp h).elim (fun h0 => hc h0.symm) ih

theorem cString_eq_iff {text : Text} : cString text = text ↔ 0 ∉ text :=
  ⟨fun h => h ▸ not_mem_cString text, cString_eq⟩

/-- protoCore's symbols: in each space one pointer for a C string. -/
structure Symbols (Sym : Type) where
  createSymbol : Nat → Text → Sym
  injective : ∀ epoch, Function.Injective (createSymbol epoch)

/-- An object of its space, with the text of the symbol under the spelling key. -/
structure NamedValue where
  address : Nat
  spelling : Text

structure NamedCaches (Sym : Type) where
  epoch : Nat := 0
  symbols : List (Text × Sym) := []
  named : List (Text × NamedValue) := []
  spellings : List (Nat × Text) := []      -- by address

def kMaxEntries : Nat := 65536

/-- A full cache is emptied before an entry is added. -/
def bound {α : Type} (m : List α) : List α := if kMaxEntries ≤ m.length then [] else m

theorem mem_of_mem_bound {α : Type} {m : List α} {x : α} (h : x ∈ bound m) : x ∈ m := by
  unfold bound at h
  split at h
  · cases h
  · exact h

def cachesFor {Sym : Type} (c : NamedCaches Sym) (epoch : Nat) : NamedCaches Sym :=
  if c.epoch ≠ epoch then { epoch } else c

/-- Where a thread is inside `internNamed`, for the layout of that epoch. -/
inductive Pc where
  | idle
  | reading (epoch : Nat) (text : Text)                         -- the table's attribute is next
  | publishing (epoch : Nat) (text : Text) (fresh : NamedValue) -- the compare-and-set is next
  | adopting (epoch : Nat) (text : Text) (fresh : NamedValue)   -- it lost: the attribute is next

/-- The value a thread has built and not published. -/
def Pc.fresh : Pc → Option (Nat × Text × NamedValue)
  | .publishing epoch text fresh | .adopting epoch text fresh => some (epoch, text, fresh)
  | _ => none

/-- The run a thread is serving, in mid-call. -/
def Pc.epoch : Pc → Option Nat
  | .idle => none
  | .reading epoch _ | .publishing epoch _ _ | .adopting epoch _ _ => some epoch

/-- A call of `internNamed` that has returned, with the text its caller held. -/
structure NamedCall (T : Type) where
  thread : T
  epoch : Nat
  text : Text
  value : NamedValue

structure SymbolCall (Sym : Type) where
  epoch : Nat
  text : Text
  symbol : Sym

structure State (T Sym : Type) where
  table : Nat → Sym → Option NamedValue
  allocated : Nat → List Nat               -- addresses taken in the space of each run
  caches : T → NamedCaches Sym
  pc : T → Pc
  named : List (NamedCall T)
  symbols : List (SymbolCall Sym)

variable {T Sym : Type}

def State.start : State T Sym where
  table _ _ := none
  allocated _ := []
  caches _ := {}
  pc _ := .idle
  named := []
  symbols := []

section Steps
variable [DecidableEq T] [DecidableEq Sym] (P : Symbols Sym)

def State.setCaches (s : State T Sym) (t : T) (c : NamedCaches Sym) : State T Sym :=
  { s with caches := Function.update s.caches t c }

def State.setPc (s : State T Sym) (t : T) (pc : Pc) : State T Sym :=
  { s with pc := Function.update s.pc t pc }

def State.answer (s : State T Sym) (t : T) (epoch : Nat) (text : Text) (v : NamedValue) :
    State T Sym :=
  { s with named := s.named ++ [⟨t, epoch, text, v⟩] }

/-- A value built with an address of its own. -/
def State.allocate (s : State T Sym) (epoch address : Nat) : State T Sym :=
  { s with allocated := Function.update s.allocated epoch (address :: s.allocated epoch) }

def State.publish (s : State T Sym) (epoch : Nat) (key : Sym) (v : NamedValue) : State T Sym :=
  let values := Function.update (s.table epoch) key (some v)
  { s with table := Function.update s.table epoch values }

/-- `internNamed` with the table's value: cached under the text the callee read. -/
def State.finish (s : State T Sym) (t : T) (epoch : Nat) (text : Text) (v : NamedValue) :
    State T Sym :=
  let c := s.caches t
  ((s.setCaches t { c with named := (cString text, v) :: bound c.named }).setPc t .idle).answer
    t epoch text v

/-- `internSymbol`; only the caches are shared with nothing. -/
def State.internSymbol (s : State T Sym) (t : T) (epoch : Nat) (text : Text) : State T Sym :=
  let c := cachesFor (s.caches t) epoch
  match c.symbols.lookup text with
  | some sym => { s.setCaches t c with symbols := s.symbols ++ [⟨epoch, text, sym⟩] }
  | none =>
    let sym := P.createSymbol epoch (cString text)
    { s.setCaches t { c with symbols := (text, sym) :: bound c.symbols } with
      symbols := s.symbols ++ [⟨epoch, text, sym⟩] }

/-- What `namedSpellingText` answers. -/
def namedSpellingText (c : NamedCaches Sym) (epoch : Nat) (v : NamedValue) : Text :=
  match (cachesFor c epoch).spellings.lookup v.address with
  | some text => text
  | none => v.spelling

def State.spell (s : State T Sym) (t : T) (epoch : Nat) (v : NamedValue) : State T Sym :=
  let c := cachesFor (s.caches t) epoch
  match c.spellings.lookup v.address with
  | some _ => s.setCaches t c
  | none => s.setCaches t { c with spellings := (v.address, v.spelling) :: bound c.spellings }

inductive Step : State T Sym → State T Sym → Prop where
  | internSymbol (s t epoch text) : s.pc t = .idle → Step s (s.internSymbol P t epoch text)
  | spell (s t epoch key v) : s.pc t = .idle → s.table epoch key = some v →
      Step s (s.spell t epoch v)
  -- internNamed
  | hit (s t epoch text v) : s.pc t = .idle →
      (cachesFor (s.caches t) epoch).named.lookup (cString text) = some v →
      Step s ((s.setCaches t (cachesFor (s.caches t) epoch)).answer t epoch text v)
  | miss (s t epoch text) : s.pc t = .idle →
      (cachesFor (s.caches t) epoch).named.lookup (cString text) = none →
      Step s ((s.setCaches t (cachesFor (s.caches t) epoch)).setPc t (.reading epoch text))
  -- internNamedUncached
  | found (s t epoch text v) : s.pc t = .reading epoch text →
      s.table epoch (P.createSymbol epoch (cString text)) = some v →
      Step s (s.finish t epoch text v)
  | absent (s t epoch text address) : s.pc t = .reading epoch text →
      s.table epoch (P.createSymbol epoch (cString text)) = none → address ∉ s.allocated epoch →
      Step s ((s.allocate epoch address).setPc t
        (.publishing epoch text ⟨address, cString text⟩))
  | publishWon (s t epoch text fresh) : s.pc t = .publishing epoch text fresh →
      s.table epoch (P.createSymbol epoch (cString text)) = none →
      Step s ((s.publish epoch (P.createSymbol epoch (cString text)) fresh).finish t epoch text
        fresh)
  | publishLost (s t epoch text fresh v) : s.pc t = .publishing epoch text fresh →
      s.table epoch (P.createSymbol epoch (cString text)) = some v →
      Step s (s.setPc t (.adopting epoch text fresh))
  | adopted (s t epoch text fresh v) : s.pc t = .adopting epoch text fresh →
      s.table epoch (P.createSymbol epoch (cString text)) = some v →
      Step s (s.finish t epoch text v)
  | retry (s t epoch text fresh) : s.pc t = .adopting epoch text fresh →
      s.table epoch (P.createSymbol epoch (cString text)) = none →
      Step s (s.setPc t (.publishing epoch text fresh))

def Reachable (s : State T Sym) : Prop := Relation.ReflTransGen (Step P) State.start s

end Steps

/-! ### The invariant -/

section
variable (P : Symbols Sym)

/-- What the caches of one thread hold is what the table holds. -/
structure CacheOk (table : Nat → Sym → Option NamedValue) (c : NamedCaches Sym) : Prop where
  named : ∀ x v, (x, v) ∈ c.named → table c.epoch (P.createSymbol c.epoch x) = some v
  symbols : ∀ x sym, (x, sym) ∈ c.symbols → sym = P.createSymbol c.epoch (cString x)
  spellings : ∀ a x, (a, x) ∈ c.spellings →
    ∃ key v, table c.epoch key = some v ∧ v.address = a ∧ v.spelling = x

/-- Each value is under the symbol of its spelling, at an address of its own. -/
structure TableOk (s : State T Sym) : Prop where
  key : ∀ {e key v}, s.table e key = some v → key = P.createSymbol e v.spelling
  taken : ∀ {e key v}, s.table e key = some v → v.address ∈ s.allocated e
  apart : ∀ {e key key' v v'}, s.table e key = some v → s.table e key' = some v' →
    v.address = v'.address → key = key'

/-- A value that no thread sees but the one that built it. -/
structure FreshOk (s : State T Sym) (e : Nat) (text : Text) (v : NamedValue) : Prop where
  spelling : v.spelling = cString text
  taken : v.address ∈ s.allocated e
  unseen : ∀ {key v'}, s.table e key = some v' → v'.address ≠ v.address

structure Invariant (s : State T Sym) : Prop where
  table : TableOk P s
  fresh : ∀ {t e text v}, (s.pc t).fresh = some (e, text, v) → FreshOk s e text v
  apart : ∀ {t t' e text text' v v'}, (s.pc t).fresh = some (e, text, v) →
    (s.pc t').fresh = some (e, text', v') → v.address = v'.address → t = t'
  caches : ∀ t, CacheOk P s.table (s.caches t)
  serving : ∀ {t e}, (s.pc t).epoch = some e → (s.caches t).epoch = e
  named : ∀ c ∈ s.named, s.table c.epoch (P.createSymbol c.epoch (cString c.text)) = some c.value
  symbols : ∀ c ∈ s.symbols, c.symbol = P.createSymbol c.epoch (cString c.text)

end

section
variable {P : Symbols Sym} {table : Nat → Sym → Option NamedValue} {c : NamedCaches Sym}

theorem cachesFor_epoch (c : NamedCaches Sym) (epoch : Nat) : (cachesFor c epoch).epoch = epoch := by
  unfold cachesFor
  split
  · rfl
  · rename_i h
    exact not_not.mp h

theorem CacheOk.empty (epoch : Nat) : CacheOk P table { epoch } := ⟨nofun, nofun, nofun⟩

theorem CacheOk.cachesFor (h : CacheOk P table c) (epoch : Nat) :
    CacheOk P table (cachesFor c epoch) := by
  unfold Interning.cachesFor
  split
  · exact .empty epoch
  · exact h

theorem CacheOk.mono {table' : Nat → Sym → Option NamedValue} (h : CacheOk P table c)
    (ht : ∀ e key v, table e key = some v → table' e key = some v) : CacheOk P table' c where
  named x v hx := ht _ _ _ (h.named x v hx)
  symbols := h.symbols
  spellings a x hx := by
    obtain ⟨key, v, hv, hax⟩ := h.spellings a x hx
    exact ⟨key, v, ht _ _ _ hv, hax⟩

theorem CacheOk.addNamed {x : Text} {v : NamedValue} (h : CacheOk P table c)
    (hv : table c.epoch (P.createSymbol c.epoch x) = some v) :
    CacheOk P table { c with named := (x, v) :: bound c.named } where
  named y w hy := by
    rcases List.mem_cons.mp hy with hy | hy
    · obtain ⟨rfl, rfl⟩ := Prod.mk.inj hy
      exact hv
    · exact h.named y w (mem_of_mem_bound hy)
  symbols := h.symbols
  spellings := h.spellings

theorem CacheOk.addSymbol {epoch : Nat} (h : CacheOk P table c) (he : c.epoch = epoch)
    (x : Text) : CacheOk P table { c with
      symbols := (x, P.createSymbol epoch (cString x)) :: bound c.symbols } where
  named := h.named
  symbols y sym hy := by
    rcases List.mem_cons.mp hy with hy | hy
    · obtain ⟨rfl, rfl⟩ := Prod.mk.inj hy
      rw [← he]
    · exact h.symbols y sym (mem_of_mem_bound hy)
  spellings := h.spellings

theorem CacheOk.addSpelling {key : Sym} {v : NamedValue} (h : CacheOk P table c)
    (hv : table c.epoch key = some v) :
    CacheOk P table { c with spellings := (v.address, v.spelling) :: bound c.spellings } where
  named := h.named
  symbols := h.symbols
  spellings a x hx := by
    rcases List.mem_cons.mp hx with hx | hx
    · obtain ⟨rfl, rfl⟩ := Prod.mk.inj hx
      exact ⟨key, v, hv, rfl, rfl⟩
    · exact h.spellings a x (mem_of_mem_bound hx)

theorem mem_of_lookup {α β : Type} [BEq α] [LawfulBEq α] {m : List (α × β)} {x : α} {y : β}
    (h : m.lookup x = some y) : (x, y) ∈ m := by
  obtain ⟨l₁, l₂, rfl, -⟩ := List.lookup_eq_some_iff.mp h
  exact List.mem_append_right l₁ List.mem_cons_self

end

namespace Invariant
variable [DecidableEq T] {P : Symbols Sym} {s : State T Sym} {t : T}

omit [DecidableEq T] in
theorem start : Invariant P (State.start : State T Sym) where
  table := ⟨nofun, nofun, nofun⟩
  fresh := nofun
  apart := nofun
  caches _ := .empty 0
  serving := nofun
  named := nofun
  symbols := nofun

theorem setCaches (h : Invariant P s) {c : NamedCaches Sym} (hc : CacheOk P s.table c)
    (he : ∀ e, (s.pc t).epoch = some e → c.epoch = e) : Invariant P (s.setCaches t c) where
  table := ⟨h.table.key, h.table.taken, h.table.apart⟩
  fresh hv := ⟨(h.fresh hv).spelling, (h.fresh hv).taken, (h.fresh hv).unseen⟩
  apart := h.apart
  caches t' := by
    by_cases ht : t' = t
    · simpa [State.setCaches, ht] using hc
    · simpa [State.setCaches, ht] using h.caches t'
  serving := fun {t' e} hp => by
    by_cases ht : t' = t
    · subst ht
      simpa [State.setCaches] using he e hp
    · simpa [State.setCaches, ht] using h.serving hp
  named := h.named
  symbols := h.symbols

/-- The thread's next place, with the value it had built or with none. -/
theorem setPc (h : Invariant P s) {pc : Pc} (hf : pc.fresh = none ∨ pc.fresh = (s.pc t).fresh)
    (he : ∀ e, pc.epoch = some e → (s.caches t).epoch = e) : Invariant P (s.setPc t pc) := by
  have hfresh : ∀ t' x, ((s.setPc t pc).pc t').fresh = some x → (s.pc t').fresh = some x := by
    intro t' x hx
    by_cases ht : t' = t
    · subst ht
      simp only [State.setPc, Function.update_self] at hx
      rcases hf with hf | hf
      · rw [hf] at hx
        cases hx
      · rwa [← hf]
    · simpa [State.setPc, ht] using hx
  refine ⟨⟨h.table.key, h.table.taken, h.table.apart⟩, fun hv => ?_, fun hv hv' => ?_, h.caches,
    fun {t' e} hp => ?_, h.named, h.symbols⟩
  · have hok := h.fresh (hfresh _ _ hv)
    exact ⟨hok.spelling, hok.taken, hok.unseen⟩
  · exact h.apart (hfresh _ _ hv) (hfresh _ _ hv')
  · by_cases ht : t' = t
    · subst ht
      simp only [State.setPc, Function.update_self] at hp
      exact he e hp
    · exact h.serving (t := t') (by simpa [State.setPc, ht] using hp)

omit [DecidableEq T] in
theorem answer (h : Invariant P s) {epoch : Nat} {text : Text} {v : NamedValue}
    (hv : s.table epoch (P.createSymbol epoch (cString text)) = some v) :
    Invariant P (s.answer t epoch text v) where
  table := ⟨h.table.key, h.table.taken, h.table.apart⟩
  fresh hv := ⟨(h.fresh hv).spelling, (h.fresh hv).taken, (h.fresh hv).unseen⟩
  apart := h.apart
  caches := h.caches
  serving := h.serving
  named c hc := by
    rcases List.mem_append.mp hc with hc | hc
    · exact h.named c hc
    · obtain rfl := List.mem_singleton.mp hc
      exact hv
  symbols := h.symbols

omit [DecidableEq T] in
theorem addSymbol (h : Invariant P s) (epoch : Nat) (text : Text) :
    Invariant P { s with
      symbols := s.symbols ++ [⟨epoch, text, P.createSymbol epoch (cString text)⟩] } where
  table := ⟨h.table.key, h.table.taken, h.table.apart⟩
  fresh hv := ⟨(h.fresh hv).spelling, (h.fresh hv).taken, (h.fresh hv).unseen⟩
  apart := h.apart
  caches := h.caches
  serving := h.serving
  named := h.named
  symbols c hc := by
    rcases List.mem_append.mp hc with hc | hc
    · exact h.symbols c hc
    · obtain rfl := List.mem_singleton.mp hc
      rfl

/-- A new address: no value the thread or another knows is there. -/
theorem allocate (h : Invariant P s) {epoch address : Nat} {text : Text}
    (ha : address ∉ s.allocated epoch) (he : (s.caches t).epoch = epoch)
    (ht : (s.pc t).fresh = none) :
    Invariant P ((s.allocate epoch address).setPc t
      (.publishing epoch text ⟨address, cString text⟩)) := by
  let s' := (s.allocate epoch address).setPc t (.publishing epoch text ⟨address, cString text⟩)
  have hmono : ∀ {e a}, a ∈ s.allocated e → a ∈ s'.allocated e := by
    intro e a hm
    show a ∈ Function.update s.allocated epoch (address :: s.allocated epoch) e
    by_cases hep : e = epoch
    · subst hep
      simpa using .inr hm
    · simpa [hep] using hm
  have hne : ∀ {e a}, e = epoch → a ∈ s.allocated e → a ≠ address := by
    rintro e a rfl hm rfl
    exact ha hm
  -- the thread's own value, or one that was there before
  have hfresh : ∀ {t' e x v}, (s'.pc t').fresh = some (e, x, v) →
      (t' = t ∧ e = epoch ∧ x = text ∧ v = ⟨address, cString text⟩) ∨
        t' ≠ t ∧ (s.pc t').fresh = some (e, x, v) := by
    intro t' e x v hv
    by_cases htt : t' = t
    · subst htt
      have hv : some (epoch, text, (⟨address, cString text⟩ : NamedValue)) = some (e, x, v) := by
        simpa [s', State.setPc, Pc.fresh] using hv
      cases hv
      exact .inl ⟨rfl, rfl, rfl, rfl⟩
    · exact .inr ⟨htt, by simpa [s', State.setPc, State.allocate, htt] using hv⟩
  refine ⟨⟨h.table.key, fun hv => hmono (h.table.taken hv), h.table.apart⟩, fun hv => ?_,
    fun hv hv' hav => ?_, h.caches, fun {t' e} hp => ?_, h.named, h.symbols⟩
  · rcases hfresh hv with ⟨-, he₁, rfl, rfl⟩ | ⟨-, hv⟩
    · rw [he₁]
      refine ⟨rfl, ?_, fun hk => hne rfl (h.table.taken hk)⟩
      show address ∈ Function.update s.allocated epoch (address :: s.allocated epoch) epoch
      simp
    · exact ⟨(h.fresh hv).spelling, hmono (h.fresh hv).taken, (h.fresh hv).unseen⟩
  · rcases hfresh hv with ⟨ht₁, he₁, -, rfl⟩ | ⟨-, hv₁⟩ <;>
      rcases hfresh hv' with ⟨ht₂, he₂, -, rfl⟩ | ⟨-, hv₂⟩
    · exact ht₁.trans ht₂.symm
    · exact absurd hav.symm (hne he₁ (h.fresh hv₂).taken)
    · exact absurd hav (hne he₂ (h.fresh hv₁).taken)
    · exact h.apart hv₁ hv₂ hav
  · by_cases htt : t' = t
    · subst htt
      have hp : some epoch = some e := by simpa [State.setPc, Pc.epoch] using hp
      exact he.trans (Option.some.inj hp)
    · exact h.serving (t := t') (by simpa [State.setPc, State.allocate, htt] using hp)

omit [DecidableEq T] in
/-- A value no thread holds as its own becomes the table's. -/
theorem publish [DecidableEq Sym] (h : Invariant P s) {epoch : Nat} {v : NamedValue}
    (hv : v.address ∈ s.allocated epoch)
    (hunseen : ∀ {key v'}, s.table epoch key = some v' → v'.address ≠ v.address)
    (hapart : ∀ {t text v'}, (s.pc t).fresh = some (epoch, text, v') → v'.address ≠ v.address)
    (hnone : s.table epoch (P.createSymbol epoch v.spelling) = none) :
    Invariant P (s.publish epoch (P.createSymbol epoch v.spelling) v) := by
  let key := P.createSymbol epoch v.spelling
  let s' := s.publish epoch key v
  -- an entry is the new one or one that was there
  have hcases : ∀ {e k w}, s'.table e k = some w →
      (e = epoch ∧ k = key ∧ w = v) ∨ s.table e k = some w := by
    intro e k w hw
    have hw : Function.update s.table epoch (Function.update (s.table epoch) key (some v)) e k =
        some w := hw
    by_cases hep : e = epoch
    · subst hep
      by_cases hk : k = key
      · subst hk
        exact .inl ⟨rfl, rfl, by simpa using hw.symm⟩
      · exact .inr (by simpa [hk] using hw)
    · exact .inr (by simpa [hep] using hw)
  have hmono : ∀ e k w, s.table e k = some w → s'.table e k = some w := by
    intro e k w hw
    show Function.update s.table epoch (Function.update (s.table epoch) key (some v)) e k = some w
    by_cases hep : e = epoch
    · subst hep
      by_cases hk : k = key
      · subst hk
        cases hnone.symm.trans hw
      · simpa [hk] using hw
    · simpa [hep] using hw
  refine ⟨⟨fun hw => ?_, fun hw => ?_, fun hw hw' haw => ?_⟩, fun hf => ?_, h.apart,
    fun t => (h.caches t).mono hmono, h.serving, fun c hc => hmono _ _ _ (h.named c hc), h.symbols⟩
  · rcases hcases hw with ⟨rfl, rfl, rfl⟩ | hw
    · rfl
    · exact h.table.key hw
  · rcases hcases hw with ⟨rfl, rfl, rfl⟩ | hw
    · exact hv
    · exact h.table.taken hw
  · rcases hcases hw with ⟨rfl, rfl, rfl⟩ | hw₀ <;> rcases hcases hw' with ⟨he, rfl, rfl⟩ | hw'₀
    · rfl
    · exact absurd haw.symm (hunseen hw'₀)
    · subst he
      exact absurd haw (hunseen hw₀)
    · exact h.table.apart hw₀ hw'₀ haw
  · refine ⟨(h.fresh hf).spelling, (h.fresh hf).taken, fun hw => ?_⟩
    rcases hcases hw with ⟨rfl, rfl, rfl⟩ | hw
    · exact (hapart hf).symm
    · exact (h.fresh hf).unseen hw

theorem finish (h : Invariant P s) {epoch : Nat} {text : Text} {v : NamedValue}
    (he : (s.caches t).epoch = epoch)
    (hv : s.table epoch (P.createSymbol epoch (cString text)) = some v) :
    Invariant P (s.finish t epoch text v) := by
  subst he
  have hc := (h.caches t).addNamed hv
  have hset := h.setCaches hc fun e hp => h.serving hp
  have hidle : Invariant P (State.setPc _ t .idle) := hset.setPc (.inl rfl) nofun
  exact hidle.answer hv

theorem step (h : Invariant P s) [DecidableEq Sym] {s' : State T Sym} (hs : Step P s s') :
    Invariant P s' := by
  cases hs with
  | internSymbol t epoch text hp =>
    have hc := (h.caches t).cachesFor epoch
    have hadd := h.addSymbol epoch text
    have hidle : ∀ c : NamedCaches Sym, ∀ e, (s.pc t).epoch = some e → c.epoch = e := by
      intro c e he
      rw [hp] at he
      cases he
    unfold State.internSymbol
    cases hl : (cachesFor (s.caches t) epoch).symbols.lookup text with
    | some sym =>
      have hsym := hc.symbols _ _ (mem_of_lookup hl)
      rw [cachesFor_epoch] at hsym
      subst hsym
      simp only [hl]
      exact hadd.setCaches hc (hidle _)
    | none =>
      have hnew := hc.addSymbol (cachesFor_epoch _ _) text
      simp only [hl]
      exact hadd.setCaches hnew (hidle _)
  | spell t epoch key v hp hv =>
    have hc := (h.caches t).cachesFor epoch
    have hidle : ∀ c : NamedCaches Sym, ∀ e, (s.pc t).epoch = some e → c.epoch = e := by
      intro c e he
      rw [hp] at he
      cases he
    unfold State.spell
    cases hl : (cachesFor (s.caches t) epoch).spellings.lookup v.address with
    | some text =>
      simp only [hl]
      exact h.setCaches hc (hidle _)
    | none =>
      simp only [hl]
      refine h.setCaches (hc.addSpelling (show s.table _ key = some v from ?_)) (hidle _)
      rwa [cachesFor_epoch]
  | hit t epoch text v hp hl =>
    have hc := (h.caches t).cachesFor epoch
    have hv := hc.named _ _ (mem_of_lookup hl)
    rw [cachesFor_epoch] at hv
    refine (h.setCaches hc fun e he => ?_).answer hv
    rw [hp] at he
    cases he
  | miss t epoch text hp hl =>
    have hc := (h.caches t).cachesFor epoch
    have hset := h.setCaches (t := t) hc fun e he => by
      rw [hp] at he
      cases he
    refine hset.setPc (.inl rfl) fun e he => ?_
    obtain rfl := Option.some.inj he
    simp only [State.setCaches, Function.update_self]
    exact cachesFor_epoch _ _
  | found t epoch text v hp hv =>
    exact h.finish (h.serving (by rw [hp]; rfl)) hv
  | absent t epoch text address hp hnone ha =>
    exact h.allocate ha (h.serving (by rw [hp]; rfl)) (by rw [hp]; rfl)
  | publishWon t epoch text fresh hp hnone =>
    have hf : (s.pc t).fresh = some (epoch, text, fresh) := by
      rw [hp]
      rfl
    have hok := h.fresh hf
    have hserving : (s.caches t).epoch = epoch := h.serving (by rw [hp]; rfl)
    -- the thread lets go of its value before the table has it
    have hidle : Invariant P (s.setPc t .idle) := h.setPc (.inl rfl) nofun
    have hpub : Invariant P (State.publish _ epoch _ fresh) := hidle.publish hok.taken hok.unseen
      (fun {t' text' v'} hv' hav => ?_) (by rwa [hok.spelling])
    · have hfin : Invariant P (State.finish _ t epoch text fresh) := hpub.finish hserving (by
        rw [hok.spelling]
        simp [State.publish])
      have hsame : ∀ k, ((s.setPc t .idle).publish epoch k fresh).finish t epoch text fresh =
          (s.publish epoch k fresh).finish t epoch text fresh := fun k => by
        simp [State.finish, State.setPc, State.publish, State.setCaches, State.answer]
      rwa [hsame, hok.spelling] at hfin
    · by_cases htt : t' = t
      · subst htt
        simp [State.setPc, Pc.fresh] at hv'
      · have hv' : (s.pc t').fresh = some (epoch, text', v') := by
          simpa [State.setPc, htt] using hv'
        exact htt (h.apart hv' hf hav)
  | publishLost t epoch text fresh v hp hv =>
    refine h.setPc (.inr ?_) fun e he => h.serving ?_
    · rw [hp]
      rfl
    · rw [hp]
      exact he
  | adopted t epoch text fresh v hp hv =>
    exact h.finish (h.serving (by rw [hp]; rfl)) hv
  | retry t epoch text fresh hp hnone =>
    refine h.setPc (.inr ?_) fun e he => h.serving ?_
    · rw [hp]
      rfl
    · rw [hp]
      exact he

end Invariant

theorem Reachable.invariant [DecidableEq T] [DecidableEq Sym] {P : Symbols Sym} {s : State T Sym}
    (h : Reachable P s) : Invariant P s := by
  induction h with
  | refl => exact .start
  | tail _ hs ih => exact ih.step hs

/-! ### Identity -/

/-- In one run two calls answer the identical value exactly when their spellings are equal, and
every thread reads the spelling back from the value. -/
def Interned (s : State T Sym) : Prop :=
  (∀ a ∈ s.named, ∀ b ∈ s.named, a.epoch = b.epoch →
    (a.value.address = b.value.address ↔ a.text = b.text)) ∧
  (∀ a ∈ s.named, ∀ t, namedSpellingText (s.caches t) a.epoch a.value = a.text) ∧
  ∀ a ∈ s.symbols, ∀ b ∈ s.symbols, a.epoch = b.epoch → (a.symbol = b.symbol ↔ a.text = b.text)

namespace Invariant
variable {P : Symbols Sym} {s : State T Sym}

theorem spellingText (h : Invariant P s) {a : NamedCall T} (ha : a ∈ s.named) (t : T) :
    namedSpellingText (s.caches t) a.epoch a.value = cString a.text := by
  have hv := h.named a ha
  have hspelling : a.value.spelling = cString a.text := (P.injective _ (h.table.key hv)).symm
  unfold namedSpellingText
  cases hl : (cachesFor (s.caches t) a.epoch).spellings.lookup a.value.address with
  | none => exact hspelling
  | some text =>
    obtain ⟨key, v, hk, hav, rfl⟩ := ((h.caches t).cachesFor a.epoch).spellings _ _ (mem_of_lookup hl)
    rw [cachesFor_epoch] at hk
    obtain rfl := h.table.apart hk hv hav
    rw [hv] at hk
    obtain rfl := Option.some.inj hk
    exact hspelling

/-- Values are identical when the C strings are equal. -/
theorem address_iff (h : Invariant P s) {a b : NamedCall T} (ha : a ∈ s.named) (hb : b ∈ s.named)
    (he : a.epoch = b.epoch) :
    a.value.address = b.value.address ↔ cString a.text = cString b.text := by
  have hva := h.named a ha
  have hvb := h.named b hb
  rw [← he] at hvb
  constructor
  · intro hab
    exact P.injective _ (h.table.apart hva hvb hab)
  · intro hab
    rw [hab, hvb] at hva
    rw [Option.some.inj hva]

theorem symbol_iff (h : Invariant P s) {a b : SymbolCall Sym} (ha : a ∈ s.symbols)
    (hb : b ∈ s.symbols) (he : a.epoch = b.epoch) :
    a.symbol = b.symbol ↔ cString a.text = cString b.text := by
  rw [h.symbols a ha, h.symbols b hb, ← he]
  exact (P.injective _).eq_iff

end Invariant

/-- Interning is right exactly where no keyword's or symbol's spelling has a NUL and no two
protoCore symbols are asked for that differ only after one. -/
theorem interned_iff [DecidableEq T] [DecidableEq Sym] (P : Symbols Sym) (s : State T Sym)
    (h : Reachable P s) : Interned s ↔ (∀ a ∈ s.named, 0 ∉ a.text) ∧
      ∀ a ∈ s.symbols, ∀ b ∈ s.symbols, a.epoch = b.epoch →
        cString a.text = cString b.text → a.text = b.text := by
  have hinv := h.invariant
  constructor
  · rintro ⟨-, hspell, hsym⟩
    refine ⟨fun a ha => ?_, fun a ha b hb he hab => ?_⟩
    · have ht := hspell a ha a.thread
      rw [hinv.spellingText ha] at ht
      exact cString_eq_iff.mp ht
    · exact (hsym a ha b hb he).mp ((hinv.symbol_iff ha hb he).mpr hab)
  · rintro ⟨hnul, hsym⟩
    refine ⟨fun a ha b hb he => ?_, fun a ha t => ?_, fun a ha b hb he => ?_⟩
    · rw [hinv.address_iff ha hb he, cString_eq (hnul a ha), cString_eq (hnul b hb)]
    · rw [hinv.spellingText ha, cString_eq (hnul a ha)]
    · rw [hinv.symbol_iff ha hb he]
      exact ⟨hsym a ha b hb he, fun hab => by rw [hab]⟩

/-! ### Two runs of one thread -/

/-- protoCore's symbols told apart by their text. -/
def byText : Symbols Text where
  createSymbol _ text := text
  injective _ := Function.injective_id

/-- The first call of a run publishes its value and caches it. -/
theorem reaches_first (text : Text) : ∃ s : State Unit Text, Reachable byText s ∧
    s.pc () = .idle ∧ s.symbols = [] ∧ s.named = [⟨(), 1, text, ⟨0, cString text⟩⟩] ∧
    (cachesFor (s.caches ()) 1).named = [(cString text, ⟨0, cString text⟩)] := by
  let v : NamedValue := ⟨0, cString text⟩
  let s₁ : State Unit Text :=
    (State.start.setCaches () (cachesFor {} 1)).setPc () (.reading 1 text)
  let s₂ := (s₁.allocate 1 0).setPc () (.publishing 1 text v)
  let s₃ := (s₂.publish 1 (cString text) v).finish () 1 text v
  have hmiss : Step byText State.start s₁ := .miss _ () 1 text rfl rfl
  have habsent : Step byText s₁ s₂ := .absent _ () 1 text 0 rfl rfl List.not_mem_nil
  have hwon : Step byText s₂ s₃ := .publishWon _ () 1 text v rfl rfl
  exact ⟨s₃, ((Relation.ReflTransGen.single hmiss).tail habsent).tail hwon, rfl, rfl, rfl, rfl⟩

theorem State.internSymbol_spec [DecidableEq T] (P : Symbols Sym) (s : State T Sym) (t : T) (epoch : Nat)
    (text : Text) : (s.internSymbol P t epoch text).pc = s.pc ∧
      (s.internSymbol P t epoch text).named = s.named ∧
      ∃ sym, (s.internSymbol P t epoch text).symbols = s.symbols ++ [⟨epoch, text, sym⟩] := by
  unfold State.internSymbol
  dsimp only
  split <;> exact ⟨rfl, rfl, _, rfl⟩

/-- A keyword interned twice, the second time from the cache, and two protoCore symbols. -/
theorem interned_iff_first : ∃ s : State Unit Text, s.named.length = 2 ∧ s.symbols.length = 2 ∧
    Reachable byText s ∧ Interned s := by
  obtain ⟨s, hs, hpc, hsym, hnamed, hcache⟩ := reaches_first [58, 97]
  have hl : (cachesFor (s.caches ()) 1).named.lookup (cString [58, 97]) = some ⟨0, [58, 97]⟩ := by
    rw [hcache]
    rfl
  have hhit := Step.hit (P := byText) s () 1 [58, 97] _ hpc hl
  set s₁ := (s.setCaches () (cachesFor (s.caches ()) 1)).answer () 1 [58, 97] ⟨0, [58, 97]⟩
  have hnamed₁ : s₁.named = [⟨(), 1, [58, 97], ⟨0, [58, 97]⟩⟩, ⟨(), 1, [58, 97], ⟨0, [58, 97]⟩⟩] :=
    congrArg (· ++ _) hnamed
  obtain ⟨hpc₂, hnamed₂, sym₂, hsym₂⟩ := s₁.internSymbol_spec byText () 1 [120]
  set s₂ := s₁.internSymbol byText () 1 [120]
  obtain ⟨hpc₃, hnamed₃, sym₃, hsym₃⟩ := s₂.internSymbol_spec byText () 1 [121]
  set s₃ := s₂.internSymbol byText () 1 [121]
  have hx : Step byText s₁ s₂ := .internSymbol s₁ () 1 [120] hpc
  have hy : Step byText s₂ s₃ := .internSymbol s₂ () 1 [121] ((congrFun hpc₂ ()).trans hpc)
  have hrun : Reachable byText s₃ := ((hs.tail hhit).tail hx).tail hy
  have hnames : s₃.named = _ := (hnamed₃.trans hnamed₂).trans hnamed₁
  have hsymbols : s₃.symbols = [⟨1, [120], sym₂⟩, ⟨1, [121], sym₃⟩] := by
    rw [hsym₃, hsym₂]
    exact congrArg (· ++ _ ++ _) hsym
  refine ⟨s₃, by rw [hnames]; rfl, by rw [hsymbols]; rfl, hrun, (interned_iff byText s₃ hrun).mpr ⟨?_, ?_⟩⟩
  · simp [hnames]
  · rw [hsymbols]
    simp [cString]

/-- The keys `"a"` and `"a\u0000b"` of a JSON text, as keywords. -/
theorem interned_nul : ∃ (s : State Unit Text) (a b : NamedCall Unit), Reachable byText s ∧
    a ∈ s.named ∧ b ∈ s.named ∧ a.epoch = b.epoch ∧ a.text = [58, 97] ∧
    b.text = [58, 97, 0, 98] ∧ a.value.address = b.value.address ∧ ¬ Interned s := by
  obtain ⟨s, hs, hpc, -, hnamed, hcache⟩ := reaches_first [58, 97]
  have hl : (cachesFor (s.caches ()) 1).named.lookup (cString [58, 97, 0, 98]) =
      some ⟨0, [58, 97]⟩ := by
    rw [hcache]
    rfl
  have hhit := Step.hit (P := byText) s () 1 [58, 97, 0, 98] _ hpc hl
  refine ⟨_, ⟨(), 1, [58, 97], ⟨0, [58, 97]⟩⟩, ⟨(), 1, [58, 97, 0, 98], ⟨0, [58, 97]⟩⟩,
    hs.tail hhit, ?_, ?_, rfl, rfl, rfl, rfl, fun h => ?_⟩
  · exact List.mem_append_left _ (hnamed ▸ List.mem_singleton.mpr rfl)
  · exact List.mem_append_right _ (List.mem_singleton.mpr rfl)
  · have ha : (⟨(), 1, [58, 97], ⟨0, [58, 97]⟩⟩ : NamedCall Unit) ∈ s.named ++
        [⟨(), 1, [58, 97, 0, 98], ⟨0, [58, 97]⟩⟩] :=
      List.mem_append_left _ (hnamed ▸ List.mem_singleton.mpr rfl)
    have hb : (⟨(), 1, [58, 97, 0, 98], ⟨0, [58, 97]⟩⟩ : NamedCall Unit) ∈ s.named ++
        [⟨(), 1, [58, 97, 0, 98], ⟨0, [58, 97]⟩⟩] :=
      List.mem_append_right _ (List.mem_singleton.mpr rfl)
    exact absurd ((h.1 _ ha _ hb rfl).mp rfl) (by decide)

end ProtoClojure.Interning
