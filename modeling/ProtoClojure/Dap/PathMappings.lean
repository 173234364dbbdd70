import Mathlib.Data.List.Chain
import Mathlib.Data.List.Induction
import ProtoClojure.Text.Components

/-! The debug adapter's path mappings: the client's paths and the adapter's. -/
namespace ProtoClojure.Dap

/-- The bytes of a C++ string. -/
abbrev Text := List UInt8

def slash : UInt8 := 0x2F

def backslash : UInt8 := 0x5C

def colon : UInt8 := 0x3A

/-- `launch` takes no empty root. -/
structure PathMapping where
  localRoot : Text
  remoteRoot : Text
  localRoot_ne : localRoot ≠ []
  remoteRoot_ne : remoteRoot ≠ []

/-- The mappings of a `launch` request; a root that is missing or no string reads as empty. -/
def launchMappings (pm : List (Text × Text)) (i : Nat := 0) : Except String (List PathMapping) :=
  match pm with
  | [] => .ok []
  | (lr, rr) :: pm =>
    if h : lr ≠ [] ∧ rr ≠ [] then do
      let maps ← launchMappings pm (i + 1)
      .ok (⟨lr, rr, h.1, h.2⟩ :: maps)
    else .error ("launch: pathMappings[" ++ toString i ++
      "] needs both localRoot and remoteRoot (non-empty strings)")

def isSeparator (c : UInt8) : Bool := c == slash || c == backslash

def isUpper (c : UInt8) : Bool := 0x41 ≤ c && c ≤ 0x5A

def isAlpha (c : UInt8) : Bool := isUpper c || (0x61 ≤ c && c ≤ 0x7A)

/-- A drive letter, a backslash, or a UNC prefix. -/
def windowsLike (p : Text) : Bool :=
  (p[1]? == some colon && p.head?.any isAlpha) || p.contains backslash

def toLower (c : UInt8) : UInt8 := if isUpper c then c + 0x20 else c

def normalizedPath (p : Text) (fold : Bool) : Text :=
  p.map fun c => if c = backslash then slash else if fold then toLower c else c

/-- `rootForm` from the end of the root. -/
def rootFormBack : Text → Text
  | [] => []
  | c :: r =>
    if r ≠ [] ∧ isSeparator c then
      if r.length = 2 ∧ r.head? = some colon then c :: r else rootFormBack r
    else c :: r

/-- A root without its trailing separators (but "/" and "c:/" keep theirs). -/
def rootForm (r : Text) : Text := (rootFormBack r.reverse).reverse

/-- Whether `p` is the root or under it: what follows the root. -/
def underRoot (p rootIn : Text) (fold : Bool) : Option Text :=
  let root := rootForm rootIn
  let np := normalizedPath p fold
  let nr := normalizedPath root fold
  if nr = [] ∨ np.length < nr.length ∨ np.take nr.length ≠ nr then none
  else if np.length = nr.length then some []
  else if nr.getLast? ≠ some slash ∧ np[nr.length]? ≠ some slash then none
  else some ((p.drop nr.length).dropWhile isSeparator)

/-- The separator of a root's own style. -/
def separator (root : Text) : UInt8 := if windowsLike root then backslash else slash

def styled (sep : UInt8) (rest : Text) : Text := rest.map fun c => if isSeparator c then sep else c

def joinUnder (rootIn rest : Text) : Text :=
  let root := rootForm rootIn
  let sep := separator root
  let rest := styled sep rest
  if rest = [] then root
  else if root.getLast?.any isSeparator then root ++ rest
  else root ++ sep :: rest

namespace PathMapping

def source (m : PathMapping) (toRemote : Bool) : Text := if toRemote then m.localRoot else m.remoteRoot

def target (m : PathMapping) (toRemote : Bool) : Text := if toRemote then m.remoteRoot else m.localRoot

end PathMapping

/-- One mapping of the loop: the length of the best root so far, and the translation by it. -/
def translateStep (p : Text) (toRemote : Bool) (acc : Nat × Option Text) (m : PathMapping) :
    Nat × Option Text :=
  let source := m.source toRemote
  match underRoot p source (windowsLike source) with
  | none => acc
  | some rest =>
    let len := (rootForm source).length
    if acc.2.isSome ∧ len ≤ acc.1 then acc else (len, some (joinUnder (m.target toRemote) rest))

def translatePath (maps : List PathMapping) (p : Text) (toRemote : Bool) : Option Text :=
  (maps.foldl (translateStep p toRemote) (0, none)).2

def toAdapterPath (mappings : List PathMapping) (clientPath : Text) : Text :=
  (translatePath mappings clientPath true).getD clientPath

/-! ### Sources -/

/-- `sourceRefs` and `refSources`: the adapter-side sources that have a reference. -/
structure SourceRefs where
  sourceRefs : List (Text × Nat) := []
  refSources : List Text := []

def referenceFor (s : SourceRefs) (adapter : Text) : Nat × SourceRefs :=
  match s.sourceRefs.lookup adapter with
  | some ref => (ref, s)
  | none =>
    let refSources := s.refSources ++ [adapter]
    (refSources.length, { sourceRefs := (adapter, refSources.length) :: s.sourceRefs, refSources })

/-- The body of a `Source`. -/
structure Source where
  name : Text
  path : Option Text := none
  sourceReference : Option Nat := none
  origin : Option Text := none
  presentationHint : Option String := none

/-- Of ASCII. -/
def textOf (s : String) : Text := s.toList.map fun c => UInt8.ofNat c.toNat

def embeddedCoreSourceName : Text := textOf "protoclj:/clojure/core.clj"

def baseName (path : Text) : Text :=
  (path.reverse.takeWhile fun c => !isSeparator c).reverse

def sourceFor (mappings : List PathMapping) (s : SourceRefs) (adapter : Text) :
    Source × SourceRefs :=
  if adapter = embeddedCoreSourceName then
    let (ref, s) := referenceFor s adapter
    ({ name := textOf "core.clj"
       sourceReference := some ref
       origin := some (textOf "clojure.core (embedded in protoclj)")
       presentationHint := some "deemphasize" }, s)
  else
    let name := baseName adapter
    if mappings.isEmpty then ({ name, path := some adapter }, s)
    else
      match translatePath mappings adapter false with
      | some path => ({ name, path := some path }, s)
      | none =>
        let (ref, s) := referenceFor s adapter
        ({ name, sourceReference := some ref, origin := some adapter }, s)

/-! ### Roots -/

section Roots
variable {p q root rest : Text} {fold : Bool}

theorem isSeparator_iff {c : UInt8} : isSeparator c = true ↔ c = slash ∨ c = backslash := by
  simp [isSeparator]

theorem rootFormBack_append (r : Text) :
    ∃ t, r = t ++ rootFormBack r ∧ ∀ c ∈ t, isSeparator c = true := by
  induction r with
  | nil => exact ⟨[], rfl, List.forall_mem_nil _⟩
  | cons c r ih =>
    unfold rootFormBack
    split
    · rename_i h
      split
      · exact ⟨[], rfl, List.forall_mem_nil _⟩
      · obtain ⟨t, ht, hseps⟩ := ih
        exact ⟨c :: t, congrArg (c :: ·) ht, List.forall_mem_cons.mpr ⟨h.2, hseps⟩⟩
    · exact ⟨[], rfl, List.forall_mem_nil _⟩

theorem rootFormBack_ne {r : Text} (h : r ≠ []) : rootFormBack r ≠ [] := by
  induction r with
  | nil => exact absurd rfl h
  | cons c r ih =>
    unfold rootFormBack
    split
    · rename_i h
      split
      · exact List.cons_ne_nil c r
      · exact ih h.1
    · exact List.cons_ne_nil c r

/-- A root is its form and trailing separators. -/
theorem rootForm_append (r : Text) :
    ∃ t, r = rootForm r ++ t ∧ ∀ c ∈ t, isSeparator c = true := by
  obtain ⟨t, ht, hseps⟩ := rootFormBack_append r.reverse
  refine ⟨t.reverse, ?_, fun c hc => hseps c (List.mem_reverse.mp hc)⟩
  rw [rootForm, ← List.reverse_append, ← ht, List.reverse_reverse]

theorem rootForm_ne {r : Text} (h : r ≠ []) : rootForm r ≠ [] := by
  unfold rootForm
  rw [ne_eq, List.reverse_eq_nil_iff]
  exact rootFormBack_ne fun hr => h (List.reverse_eq_nil_iff.mp hr)

theorem normalizedPath_append (s t : Text) (fold : Bool) :
    normalizedPath (s ++ t) fold = normalizedPath s fold ++ normalizedPath t fold :=
  List.map_append

@[simp] theorem length_normalizedPath : (normalizedPath p fold).length = p.length := List.length_map _

theorem normalizedPath_eq_nil : normalizedPath p fold = [] ↔ p = [] := List.map_eq_nil_iff

/-- The path is the root and what `t` normalizes, cut at a separator. -/
def Under (p root : Text) (fold : Bool) (t : Text) : Prop :=
  normalizedPath p fold = normalizedPath (rootForm root) fold ++ t ∧ rootForm root ≠ [] ∧
    (t = [] ∨ (normalizedPath (rootForm root) fold).getLast? = some slash ∨ t.head? = some slash)

theorem underRoot_eq_some : underRoot p root fold = some rest ↔
    ∃ t, Under p root fold t ∧ rest = (p.drop (rootForm root).length).dropWhile isSeparator := by
  unfold underRoot
  dsimp only
  constructor
  · intro h
    split at h
    · cases h
    rename_i hprefix
    simp only [not_or, not_not, normalizedPath_eq_nil] at hprefix
    obtain ⟨hne, -, htake⟩ := hprefix
    have hsplit := List.take_append_drop (normalizedPath (rootForm root) fold).length
      (normalizedPath p fold)
    rw [htake] at hsplit
    refine ⟨_, ⟨hsplit.symm, hne, ?_⟩, ?_⟩
    · split at h
      · rename_i hlen
        exact .inl (List.drop_eq_nil_of_le (Nat.le_of_eq hlen))
      split at h
      · cases h
      rename_i hcut
      rw [List.head?_drop]
      exact .inr (Classical.not_and_iff_not_or_not.mp hcut |>.imp not_not.mp not_not.mp)
    · split at h
      · rename_i hlen
        obtain rfl := Option.some.inj h
        rw [length_normalizedPath, length_normalizedPath] at hlen
        rw [List.drop_eq_nil_of_le (Nat.le_of_eq hlen)]
        rfl
      split at h
      · cases h
      · rw [length_normalizedPath] at h
        exact (Option.some.inj h).symm
  · rintro ⟨t, ⟨hsplit, hne, hcut⟩, rfl⟩
    have hlen : p.length = (rootForm root).length + t.length := by
      simpa using congrArg List.length hsplit
    rw [if_neg (by simp [hsplit, normalizedPath_eq_nil, hne])]
    split
    · rename_i heq
      rw [length_normalizedPath, length_normalizedPath] at heq
      rw [List.drop_eq_nil_of_le (Nat.le_of_eq heq)]
      rfl
    · rename_i hmore
      rw [if_neg, length_normalizedPath]
      rintro ⟨hlast, hnext⟩
      rw [hsplit, List.getElem?_append_right (Nat.le_refl _), Nat.sub_self, ← List.head?_eq_getElem?]
        at hnext
      rcases hcut with rfl | h | h
      · simp [hlen] at hmore
      · exact hlast h
      · exact hnext h

/-! ### What a root maps -/

/-- At a root or below it: the components of the root begin those of the path. -/
def AtOrBelow (root p : Text) (fold : Bool) : Prop :=
  ((normalizedPath root fold).head? = some slash ↔ (normalizedPath p fold).head? = some slash) ∧
    components slash (normalizedPath root fold) <+: components slash (normalizedPath p fold)

instance : Decidable (AtOrBelow root p fold) := inferInstanceAs (Decidable (_ ∧ _))

theorem normalized_seps {t : Text} (h : ∀ c ∈ t, isSeparator c = true) :
    ∀ c ∈ normalizedPath t fold, c = slash := by
  intro c hc
  obtain ⟨d, hd, rfl⟩ := List.mem_map.mp hc
  rcases isSeparator_iff.mp (h d hd) with rfl | rfl <;> cases fold <;> rfl

theorem components_rootForm (root : Text) (fold : Bool) :
    components slash (normalizedPath (rootForm root) fold) =
      components slash (normalizedPath root fold) := by
  obtain ⟨t, ht, hseps⟩ := rootForm_append root
  conv_rhs => rw [ht, normalizedPath_append]
  exact (components_append_seps _ (normalized_seps hseps)).symm

theorem head?_rootForm (root : Text) (fold : Bool) :
    (normalizedPath (rootForm root) fold).head? = (normalizedPath root fold).head? := by
  obtain ⟨t, ht, hseps⟩ := rootForm_append root
  by_cases hne : root = []
  · rw [hne]
    rfl
  · conv_rhs => rw [ht, normalizedPath_append]
    exact (List.head?_append_of_ne_nil _ (mt normalizedPath_eq_nil.mp (rootForm_ne hne))).symm

theorem Under.atOrBelow {t : Text} (h : Under p root fold t) : AtOrBelow root p fold := by
  obtain ⟨hsplit, hne, hcut⟩ := h
  constructor
  · rw [hsplit, List.head?_append_of_ne_nil _ (mt normalizedPath_eq_nil.mp hne), head?_rootForm]
  · rw [hsplit, components_append hcut, components_rootForm]
    exact List.prefix_append _ _

theorem atOrBelow_rootForm {root' : Text} (h : AtOrBelow root (rootForm root') fold) :
    AtOrBelow root root' fold := by
  unfold AtOrBelow at h ⊢
  rwa [components_rootForm, head?_rootForm] at h

/-- Two roots over one path lie one over the other. -/
theorem Under.comparable {root' t t' : Text} (h : Under p root fold t)
    (h' : Under p root' fold t') : AtOrBelow root root' fold ∨ AtOrBelow root' root fold := by
  obtain ⟨hsplit, hne, hcut⟩ := h
  obtain ⟨hsplit', hne', hcut'⟩ := h'
  rcases List.append_eq_append_iff.mp (hsplit.symm.trans hsplit') with
    ⟨a, hroot, rfl⟩ | ⟨a, hroot, rfl⟩
  · refine .inl (atOrBelow_rootForm (Under.atOrBelow ⟨hroot, hne, ?_⟩))
    cases a with
    | nil => exact .inl rfl
    | cons c a => exact hcut.imp (fun h => absurd h (List.cons_ne_nil _ _)) id
  · refine .inr (atOrBelow_rootForm (Under.atOrBelow ⟨hroot, hne', ?_⟩))
    cases a with
    | nil => exact .inl rfl
    | cons c a => exact hcut'.imp (fun h => absurd h (List.cons_ne_nil _ _)) id

theorem normalizedPath_fold (p : Text) :
    normalizedPath p true = (normalizedPath p false).map toLower := by
  unfold normalizedPath
  rw [List.map_map]
  refine List.map_congr_left fun c _ => ?_
  by_cases hc : c = backslash
  · rw [if_pos hc, Function.comp_apply, if_pos hc]
    rfl
  · rw [if_neg hc, Function.comp_apply, if_neg hc]
    rfl

/-- What is under a root still is when case is ignored. -/
theorem Under.folded {t : Text} (h : Under p root fold t) (fold' : Bool) :
    ∃ t, Under p root (fold || fold') t := by
  cases fold with
  | true => exact ⟨t, h⟩
  | false =>
    cases fold' with
    | false => exact ⟨t, h⟩
    | true =>
      obtain ⟨hsplit, hne, hcut⟩ := h
      refine ⟨t.map toLower, ?_, hne, ?_⟩
      · show normalizedPath p true = normalizedPath (rootForm root) true ++ _
        rw [normalizedPath_fold, normalizedPath_fold, hsplit, List.map_append]
      · show _ ∨ (normalizedPath (rootForm root) true).getLast? = _ ∨ _
        rw [normalizedPath_fold, List.getLast?_map, List.head?_map]
        refine hcut.imp (fun h => ?_) (Or.imp (fun h => ?_) (fun h => ?_))
        · rw [h]
          rfl
        · rw [h]
          rfl
        · rw [h]
          rfl

/-! ### Joining -/

/-- What follows a root starts with no separator. -/
def Started (rest : Text) : Prop := ∀ c ∈ rest.head?, isSeparator c = false

theorem isSeparator_separator (root : Text) : isSeparator (separator root) = true := by
  unfold separator
  split <;> rfl

theorem styled_styled {sep sep' : UInt8} (h : isSeparator sep' = true) (rest : Text) :
    styled sep (styled sep' rest) = styled sep rest := by
  unfold styled
  rw [List.map_map]
  refine List.map_congr_left fun c _ => ?_
  by_cases hc : isSeparator c = true
  · rw [Function.comp_apply, if_pos hc, if_pos h, if_pos hc]
  · rw [Function.comp_apply, if_neg hc, if_neg hc]

theorem styled_slash (h : backslash ∉ rest) : styled slash rest = rest := by
  unfold styled
  refine (List.map_congr_left fun c hc => ?_).trans (List.map_id rest)
  split
  · rename_i hsep
    rcases isSeparator_iff.mp hsep with rfl | rfl
    · rfl
    · exact absurd hc h
  · rfl

theorem joinUnder_styled {sep : UInt8} (h : isSeparator sep = true) (root rest : Text) :
    joinUnder root (styled sep rest) = joinUnder root rest := by
  unfold joinUnder
  dsimp only
  rw [styled_styled h]

theorem Started.dropWhile (h : Started rest) (sep : UInt8) :
    (styled sep rest).dropWhile isSeparator = styled sep rest := by
  cases rest with
  | nil => rfl
  | cons c rest =>
    have hc : isSeparator c = false := h c rfl
    have hstyled : styled sep (c :: rest) = c :: styled sep rest := by
      simp [styled, hc]
    rw [hstyled, List.dropWhile_cons_of_neg (by simp [hc])]

/-- What is joined to a root is under it. -/
theorem underRoot_joinUnder (hroot : root ≠ []) (h : Started rest) (fold : Bool) :
    underRoot (joinUnder root rest) root fold =
      some (styled (separator (rootForm root)) rest) := by
  have hne := rootForm_ne hroot
  rw [underRoot_eq_some]
  unfold joinUnder
  dsimp only
  by_cases hnil : styled (separator (rootForm root)) rest = []
  · rw [if_pos hnil, hnil]
    refine ⟨[], ⟨(List.append_nil _).symm, hne, .inl rfl⟩, ?_⟩
    rw [List.drop_length]
    rfl
  rw [if_neg hnil]
  by_cases hlast : (rootForm root).getLast?.any isSeparator = true
  · rw [if_pos hlast]
    refine ⟨_, ⟨normalizedPath_append _ _ fold, hne, .inr (.inl ?_)⟩, ?_⟩
    · obtain ⟨c, hc, hsep⟩ := (Option.any_eq_true _ _).mp hlast
      rw [normalizedPath, List.getLast?_map, hc]
      exact congrArg some (normalized_seps (t := [c]) (by simpa using hsep) _ List.mem_cons_self)
    · rw [List.drop_left, h.dropWhile]
  · rw [if_neg hlast]
    refine ⟨_, ⟨normalizedPath_append _ _ fold, hne, .inr (.inr ?_)⟩, ?_⟩
    · refine congrArg some (normalized_seps (t := [separator (rootForm root)]) ?_ _
        List.mem_cons_self)
      simpa using isSeparator_separator _
    · rw [List.drop_left, List.dropWhile_cons_of_pos (isSeparator_separator _), h.dropWhile]

/-- A root with no drive letter and no backslash. -/
def Posix (root : Text) : Prop := windowsLike root = false

instance : Decidable (Posix root) := inferInstanceAs (Decidable (_ = _))

/-- Single separators, none trailing, and no backslash. -/
structure Plain (p : Text) : Prop where
  backslash : backslash ∉ p
  trailing : p.getLast? ≠ some slash
  single : p.IsChain fun c d => c = slash → d ≠ slash

theorem Posix.backslash_notMem (h : Posix root) : backslash ∉ root := by
  intro hmem
  unfold Posix windowsLike at h
  rw [List.contains_iff_mem.mpr hmem, Bool.or_true] at h
  cases h

theorem Posix.rootForm (h : Posix root) : Posix (rootForm root) := by
  obtain ⟨t, ht, -⟩ := rootForm_append root
  cases hroot : Dap.rootForm root with
  | nil => rfl
  | cons c r =>
    rw [hroot] at ht
    have hback := h.backslash_notMem
    cases r with
    | nil =>
      rw [ht] at hback
      simp_all [Posix, windowsLike]
    | cons d r =>
      rw [ht] at h hback
      simp_all [Posix, windowsLike]

theorem normalizedPath_of_notMem (h : backslash ∉ p) : normalizedPath p false = p := by
  unfold normalizedPath
  refine (List.map_congr_left fun c hc => ?_).trans (List.map_id p)
  have hne : c ≠ backslash := by
    rintro rfl
    exact h hc
  rw [if_neg hne]
  rfl

theorem joinUnder_posix (hroot : Posix root) (hrest : backslash ∉ rest) :
    joinUnder root rest =
      if rest = [] then rootForm root
      else if (rootForm root).getLast? = some slash then rootForm root ++ rest
      else rootForm root ++ slash :: rest := by
  have hsep : separator (rootForm root) = slash := if_neg (by simp [show windowsLike _ = _ from hroot.rootForm])
  have hlast : (rootForm root).getLast?.any isSeparator = true ↔
      (rootForm root).getLast? = some slash := by
    constructor
    · intro h
      obtain ⟨c, hc, hsep⟩ := (Option.any_eq_true _ _).mp h
      rcases isSeparator_iff.mp hsep with rfl | rfl
      · exact hc
      · exact absurd (List.mem_of_getLast? hc) hroot.rootForm.backslash_notMem
    · intro h
      rw [h]
      rfl
  unfold joinUnder
  dsimp only
  rw [hsep, styled_slash hrest]
  simp only [hlast]

/-- What follows a separator of a plain path. -/
theorem Plain.next {u v : Text} (h : Plain (u ++ slash :: v)) : v ≠ [] ∧ Started v := by
  cases v with
  | nil => exact absurd List.getLast?_concat h.trailing
  | cons c v =>
    refine ⟨List.cons_ne_nil c v, fun d hd => ?_⟩
    obtain rfl := Option.some.inj hd
    by_contra hsep
    rcases isSeparator_iff.mp (Bool.not_eq_false _ ▸ hsep) with rfl | rfl
    · exact (List.isChain_append_cons_cons.mp h.single).2.1 rfl rfl
    · exact h.backslash (by simp)

/-- A plain path under a root of its own style is the root joined with the rest. -/
theorem joinUnder_rest (hroot : Posix root) (hp : Plain p)
    (h : underRoot p root false = some rest) : joinUnder root rest = p ∧ Started rest := by
  obtain ⟨t, ⟨hsplit, hne, hcut⟩, rfl⟩ := underRoot_eq_some.mp h
  rw [normalizedPath_of_notMem hp.backslash,
    normalizedPath_of_notMem hroot.rootForm.backslash_notMem] at hsplit
  rw [normalizedPath_of_notMem hroot.rootForm.backslash_notMem] at hcut
  have hback : backslash ∉ t := fun hmem =>
    hp.backslash (hsplit ▸ List.mem_append_right _ hmem)
  rw [hsplit, List.drop_left]
  cases t with
  | nil =>
    refine ⟨?_, fun c hc => absurd hc (Option.not_mem_none c)⟩
    rw [List.append_nil]
    exact joinUnder_posix hroot hback
  | cons c t =>
    by_cases hlast : (rootForm root).getLast? = some slash
    · obtain ⟨r, hr⟩ := List.getLast?_eq_some_iff.mp hlast
      have hstart : Started (c :: t) := by
        rw [hsplit, hr, List.append_assoc, List.singleton_append] at hp
        exact hp.next.2
      rw [List.dropWhile_cons_of_neg (by simp [hstart c rfl]), joinUnder_posix hroot hback,
        if_neg (List.cons_ne_nil c t), if_pos hlast]
      exact ⟨rfl, hstart⟩
    · obtain rfl : c = slash := by simpa [hlast] using hcut
      rw [hsplit] at hp
      obtain ⟨hmore, hstart⟩ := hp.next
      have hdrop : (slash :: t).dropWhile isSeparator = t := by
        rw [List.dropWhile_cons_of_pos rfl]
        cases t with
        | nil => rfl
        | cons d t => exact List.dropWhile_cons_of_neg (by simp [hstart d rfl])
      rw [hdrop, joinUnder_posix hroot (List.not_mem_of_not_mem_cons hback), if_neg hmore,
        if_neg hlast]
      exact ⟨rfl, hstart⟩

theorem Plain.tight (hp : Plain p) (h : p.head? ≠ some slash) : Tight slash p := ⟨h, hp.trailing, hp.single⟩

theorem Plain.below {u : Text} (hp : Plain (slash :: u)) : Tight slash u := by
  obtain ⟨hne, hstart⟩ := Plain.next (u := []) hp
  obtain ⟨c, u, rfl⟩ := List.exists_cons_of_ne_nil hne
  refine ⟨fun hc => ?_, fun hlast => hp.trailing ?_, hp.single.tail⟩
  · rw [Option.some.inj hc] at hstart
    exact absurd (hstart slash rfl) (by decide)
  · rw [List.getLast?_cons_cons, hlast]

/-- A plain path at or below a plain root, or below "/", is covered. -/
theorem underRoot_of_atOrBelow (hne : root ≠ [])
    (hroot : Plain (rootForm root) ∨ rootForm root = [slash]) (hp : Plain p)
    (h : AtOrBelow root p false) : ∃ rest, underRoot p root false = some rest := by
  have hback : backslash ∉ rootForm root := by
    rcases hroot with hroot | hroot
    · exact hroot.backslash
    · rw [hroot]
      decide
  obtain ⟨hhead, hcomponents⟩ := h
  rw [← components_rootForm, normalizedPath_of_notMem hback, normalizedPath_of_notMem hp.backslash]
    at hcomponents
  rw [← head?_rootForm, normalizedPath_of_notMem hback, normalizedPath_of_notMem hp.backslash] at hhead
  have hformne := rootForm_ne hne
  suffices hcut : ∃ t, p = rootForm root ++ t ∧
      (t = [] ∨ (rootForm root).getLast? = some slash ∨ t.head? = some slash) by
    obtain ⟨t, hsplit, hcut⟩ := hcut
    refine ⟨_, underRoot_eq_some.mpr ⟨t, ⟨?_, hformne, ?_⟩, rfl⟩⟩
    · rw [normalizedPath_of_notMem hp.backslash, normalizedPath_of_notMem hback, hsplit]
    · rwa [normalizedPath_of_notMem hback]
  by_cases hslash : (rootForm root).head? = some slash
  · obtain ⟨r, hr⟩ := List.head?_eq_some_iff.mp hslash
    obtain ⟨q, rfl⟩ := List.head?_eq_some_iff.mp (hhead.mp hslash)
    rw [hr] at hroot hcomponents ⊢
    cases r with
    | nil => exact ⟨q, rfl, .inr (.inl rfl)⟩
    | cons c r =>
      have hplain : Plain (slash :: c :: r) := hroot.resolve_right (by simp)
      rw [components_cons, components_cons] at hcomponents
      obtain ⟨t, rfl, ht⟩ := hplain.below.begins_of_components hp.below (List.cons_ne_nil c r) hcomponents
      exact ⟨t, rfl, ht.imp_right .inr⟩
  · have hplain : Plain (rootForm root) := hroot.resolve_right fun h => hslash (by rw [h]; rfl)
    have htight := hp.tight (mt hhead.mpr hslash)
    obtain ⟨t, rfl, ht⟩ := (hplain.tight hslash).begins_of_components htight hformne hcomponents
    exact ⟨t, rfl, ht.imp_right .inr⟩

/-! ### The root that decides -/

/-- A mapping covers a path: what follows its root. -/
def Covers (m : PathMapping) (toRemote : Bool) (p rest : Text) : Prop :=
  underRoot p (m.source toRemote) (windowsLike (m.source toRemote)) = some rest

instance {m : PathMapping} {toRemote : Bool} {p rest : Text} :
    Decidable (Covers m toRemote p rest) := inferInstanceAs (Decidable (_ = _))

/-- The length the roots are compared by. -/
def PathMapping.reach (m : PathMapping) (toRemote : Bool) : Nat :=
  (rootForm (m.source toRemote)).length

/-- The mapping at `i` covers the path, and its root is the longest of those that do, the first
of these where several are as long. -/
structure Decides (maps : List PathMapping) (p : Text) (toRemote : Bool) (i : Nat)
    (m : PathMapping) (rest : Text) : Prop where
  at_index : maps[i]? = some m
  covers : Covers m toRemote p rest
  longest : ∀ (j : Nat) (m' : PathMapping) (rest' : Text), maps[j]? = some m' →
    Covers m' toRemote p rest' → m'.reach toRemote ≤ m.reach toRemote ∧
      (j < i → m'.reach toRemote < m.reach toRemote)

/-- What the loop keeps of the mappings it has seen. -/
def Kept (maps : List PathMapping) (p : Text) (toRemote : Bool) (acc : Nat × Option Text) : Prop :=
  match acc.2 with
  | none => ∀ m ∈ maps, ∀ rest, ¬ Covers m toRemote p rest
  | some out => ∃ i m rest, Decides maps p toRemote i m rest ∧ acc.1 = m.reach toRemote ∧
      out = joinUnder (m.target toRemote) rest

section Longest
variable {maps : List PathMapping} {m : PathMapping} {p rest : Text} {toRemote : Bool} {i : Nat}

/-- One more mapping that covers nothing more, or whose root is no longer. -/
theorem Decides.append (h : Decides maps p toRemote i m rest) {m' : PathMapping}
    (hle : ∀ rest', Covers m' toRemote p rest' → m'.reach toRemote ≤ m.reach toRemote) :
    Decides (maps ++ [m']) p toRemote i m rest where
  at_index := by
    have hlt := (List.getElem?_eq_some_iff.mp h.at_index).1
    rw [List.getElem?_append_left hlt, h.at_index]
  covers := h.covers
  longest j m₂ rest₂ hj hcovers := by
    have hlt := (List.getElem?_eq_some_iff.mp h.at_index).1
    rw [List.getElem?_append] at hj
    split at hj
    · exact h.longest j m₂ rest₂ hj hcovers
    · obtain rfl := List.mem_singleton.mp (List.mem_of_getElem? hj)
      exact ⟨hle rest₂ hcovers, fun hji => by omega⟩

/-- One more mapping whose root is longer than every one before. -/
theorem Decides.last (hcovers : Covers m toRemote p rest)
    (hlt : ∀ m' ∈ maps, ∀ rest', Covers m' toRemote p rest' → m'.reach toRemote < m.reach toRemote) :
    Decides (maps ++ [m]) p toRemote maps.length m rest where
  at_index := List.getElem?_concat_length
  covers := hcovers
  longest j m' rest' hj hcovers' := by
    rw [List.getElem?_append] at hj
    split at hj
    · have := hlt m' (List.mem_of_getElem? hj) rest' hcovers'
      exact ⟨Nat.le_of_lt this, fun _ => this⟩
    · rename_i hge
      obtain rfl := List.mem_singleton.mp (List.mem_of_getElem? hj)
      exact ⟨Nat.le_refl _, fun h => absurd h hge⟩

theorem Kept.step {acc : Nat × Option Text} (h : Kept maps p toRemote acc) (m : PathMapping) :
    Kept (maps ++ [m]) p toRemote (translateStep p toRemote acc m) := by
  obtain ⟨best, out⟩ := acc
  unfold translateStep
  dsimp only
  cases hunder : underRoot p (m.source toRemote) (windowsLike (m.source toRemote)) with
  | none =>
    have huncovered : ∀ rest, ¬ Covers m toRemote p rest := fun rest hrest => by
      rw [Covers, hunder] at hrest
      cases hrest
    cases out with
    | none => exact List.forall_mem_append.mpr ⟨h, List.forall_mem_singleton.mpr huncovered⟩
    | some out =>
      obtain ⟨i, m₀, rest, hdecides, hbest, hout⟩ := h
      exact ⟨i, m₀, rest, hdecides.append fun rest' hrest' => absurd hrest' (huncovered rest'),
        hbest, hout⟩
  | some rest =>
    dsimp only
    cases out with
    | none =>
      rw [if_neg fun h => Bool.noConfusion h.1]
      exact ⟨_, m, rest, Decides.last hunder fun m' hm' rest' hrest' =>
        absurd hrest' (h m' hm' rest'), rfl, rfl⟩
    | some out =>
      obtain ⟨i, m₀, rest₀, hdecides, hbest, hout⟩ := h
      dsimp only at hbest
      split
      · rename_i hle
        exact ⟨i, m₀, rest₀, hdecides.append fun _ _ => hbest ▸ hle.2, hbest, hout⟩
      · rename_i hgt
        refine ⟨_, m, rest, Decides.last hunder fun m' hm' rest' hrest' => ?_, rfl, rfl⟩
        obtain ⟨j, hj⟩ := List.getElem?_of_mem hm'
        have hle := (hdecides.longest j m' rest' hj hrest').1
        have hlonger : best < m.reach toRemote := by
          by_contra hno
          exact hgt ⟨rfl, Nat.le_of_not_lt hno⟩
        omega

theorem translatePath_kept : Kept maps p toRemote
    (maps.foldl (translateStep p toRemote) (0, none)) := by
  induction maps using List.reverseRecOn with
  | nil => exact fun m hm => absurd hm List.not_mem_nil
  | append_singleton maps m ih =>
    rw [List.foldl_append]
    exact ih.step m

theorem translatePath_some {out : Text} (h : translatePath maps p toRemote = some out) :
    ∃ i m rest, Decides maps p toRemote i m rest ∧ out = joinUnder (m.target toRemote) rest := by
  have hkept := @translatePath_kept maps p toRemote
  unfold Kept at hkept
  unfold translatePath at h
  rw [h] at hkept
  obtain ⟨i, m, rest, hdecides, -, hout⟩ := hkept
  exact ⟨i, m, rest, hdecides, hout⟩

theorem translatePath_covered (hm : m ∈ maps) (h : Covers m toRemote p rest) :
    ∃ out, translatePath maps p toRemote = some out := by
  have hkept := @translatePath_kept maps p toRemote
  unfold Kept at hkept
  unfold translatePath
  cases hout : (maps.foldl (translateStep p toRemote) (0, none)).2 with
  | none =>
    rw [hout] at hkept
    exact absurd h (hkept m hm rest)
  | some out => exact ⟨out, rfl⟩

end Longest

/-! ### There and back -/

/-- No local root is at or below another, their case ignored where one is Windows-like. -/
def Apart (maps : List PathMapping) : Prop :=
  maps.Pairwise fun m m' =>
    let fold := windowsLike m.localRoot || windowsLike m'.localRoot
    ¬ AtOrBelow m.localRoot m'.localRoot fold ∧ ¬ AtOrBelow m'.localRoot m.localRoot fold

instance {maps : List PathMapping} : Decidable (Apart maps) :=
  inferInstanceAs (Decidable (List.Pairwise _ maps))

/-- Of mappings apart, one at most covers a client path. -/
theorem Apart.unique {maps : List PathMapping} (h : Apart maps) {i j : Nat} {m m' : PathMapping}
    {q rest rest' : Text} (hi : maps[i]? = some m) (hj : maps[j]? = some m')
    (hm : Covers m true q rest) (hm' : Covers m' true q rest') : m = m' := by
  obtain ⟨t, ht, -⟩ := underRoot_eq_some.mp hm
  obtain ⟨t', ht', -⟩ := underRoot_eq_some.mp hm'
  obtain ⟨u, hu⟩ := ht.folded (windowsLike m'.localRoot)
  obtain ⟨u', hu'⟩ := ht'.folded (windowsLike m.localRoot)
  rw [Bool.or_comm] at hu'
  have hnested := hu.comparable hu'
  obtain ⟨hilt, hi⟩ := List.getElem?_eq_some_iff.mp hi
  obtain ⟨hjlt, hj⟩ := List.getElem?_eq_some_iff.mp hj
  rcases Nat.lt_trichotomy i j with hlt | rfl | hlt
  · have hapart := List.pairwise_iff_getElem.mp h i j hilt hjlt hlt
    rw [hi, hj] at hapart
    exact (hnested.elim hapart.1 hapart.2).elim
  · exact hi.symm.trans hj
  · have hapart := List.pairwise_iff_getElem.mp h j i hjlt hilt hlt
    rw [hi, hj] at hapart
    dsimp only at hapart
    rw [Bool.or_comm] at hapart
    exact (hnested.elim hapart.2 hapart.1).elim

theorem translatePath_translatePath {maps : List PathMapping} {p q : Text} (hapart : Apart maps)
    (hposix : ∀ m ∈ maps, Posix m.remoteRoot) (hp : Plain p)
    (h : translatePath maps p false = some q) : translatePath maps q true = some p := by
  obtain ⟨i, m, rest, hdecides, rfl⟩ := translatePath_some h
  have hmem := List.mem_of_getElem? hdecides.at_index
  have hremote := hposix m hmem
  have hcovers := hdecides.covers
  rw [Covers, PathMapping.source, if_neg Bool.false_ne_true, hremote] at hcovers
  obtain ⟨hjoin, hstart⟩ := joinUnder_rest hremote hp hcovers
  have hback : Covers m true (joinUnder m.localRoot rest) _ :=
    underRoot_joinUnder m.localRoot_ne hstart _
  obtain ⟨out, hout⟩ := translatePath_covered hmem hback
  show translatePath maps (joinUnder m.localRoot rest) true = some p
  obtain ⟨j, m', rest', hdecides', rfl⟩ := translatePath_some hout
  obtain rfl := hapart.unique hdecides.at_index hdecides'.at_index hback hdecides'.covers
  have hrest := Option.some.inj (hdecides'.covers.symm.trans hback)
  rw [hout, hrest]
  refine congrArg some ?_
  exact (joinUnder_styled (isSeparator_separator _) m.remoteRoot rest).trans hjoin

/-- A covered source but the embedded core goes to the client's path and back; a root maps only
what is at or below it, and of the roots that apply the longest decides. -/
theorem pathMappings_roundTrip :
    (∀ (maps : List PathMapping) (s : SourceRefs) (p : Text), Apart maps →
      (∀ m ∈ maps, Posix m.remoteRoot) → Plain p → p ≠ embeddedCoreSourceName →
      (∃ m ∈ maps, ∃ rest, Covers m false p rest) →
      ∃ path, (sourceFor maps s p).1.path = some path ∧ toAdapterPath maps path = p) ∧
    (∀ (p root : Text) (fold : Bool) (rest : Text), underRoot p root fold = some rest →
      AtOrBelow root p fold) ∧
    ∀ (maps : List PathMapping) (p : Text) (toRemote : Bool) (out : Text),
      translatePath maps p toRemote = some out →
      ∃ i m rest, Decides maps p toRemote i m rest ∧
        AtOrBelow (m.source toRemote) p (windowsLike (m.source toRemote)) ∧
        out = joinUnder (m.target toRemote) rest := by
  have hbelow (p root : Text) (fold : Bool) (rest : Text) (h : underRoot p root fold = some rest) :
      AtOrBelow root p fold := by
    obtain ⟨t, ht, -⟩ := underRoot_eq_some.mp h
    exact ht.atOrBelow
  refine ⟨?_, hbelow, ?_⟩
  · intro maps s p hapart hposix hp hcore hcovered
    obtain ⟨m, hm, rest, hrest⟩ := hcovered
    obtain ⟨path, hpath⟩ := translatePath_covered hm hrest
    refine ⟨path, ?_, ?_⟩
    · have hmaps : ¬ maps.isEmpty = true := fun h => by
        rw [List.isEmpty_iff.mp h] at hm
        exact List.not_mem_nil hm
      unfold sourceFor
      rw [if_neg hcore, if_neg hmaps, hpath]
    · rw [toAdapterPath, translatePath_translatePath hapart hposix hp hpath]
      rfl
  · intro maps p toRemote out h
    obtain ⟨i, m, rest, hdecides, hout⟩ := translatePath_some h
    exact ⟨i, m, rest, hdecides, hbelow _ _ _ _ hdecides.covers, hout⟩
end Roots

/-! ### Two mappings -/

/-- A project on a Windows client, and a library that both sides keep in one place. -/
def projectMappings : List PathMapping :=
  (launchMappings [(textOf "c:\\proj\\", textOf "/proj"), (textOf "/lib", textOf "/lib/")]).toOption.getD
    []

theorem pathMappings_roundTrip_project :
    ∃ path, (sourceFor projectMappings {} (textOf "/proj/a/B.clj")).1.path = some path ∧
      toAdapterPath projectMappings path = textOf "/proj/a/B.clj" := by
  refine pathMappings_roundTrip.1 projectMappings {} (textOf "/proj/a/B.clj") ?_ ?_ ?_ ?_ ?_
  · decide
  · decide
  · exact ⟨by decide, by decide, by decide⟩
  · decide
  · exact ⟨_, List.mem_cons_self, textOf "a/B.clj", by decide⟩

/-- A remote root over the embedded core. -/
def coreMappings : List PathMapping :=
  (launchMappings [(textOf "/src", textOf "protoclj:")]).toOption.getD []

/-- It is covered, and has no path. -/
theorem sourceFor_embeddedCore :
    Apart coreMappings ∧ (∀ m ∈ coreMappings, Posix m.remoteRoot) ∧
      Plain embeddedCoreSourceName ∧
      (∃ m ∈ coreMappings, ∃ rest, Covers m false embeddedCoreSourceName rest) ∧
      ∀ s, (sourceFor coreMappings s embeddedCoreSourceName).1.path = none := by
  refine ⟨by decide, by decide, ⟨by decide, by decide, by decide⟩,
    ⟨_, List.mem_cons_self, textOf "clojure/core.clj", by decide⟩, fun s => rfl⟩

end ProtoClojure.Dap
