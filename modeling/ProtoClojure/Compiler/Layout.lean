import ProtoClojure.Compiler.Code
import ProtoClojure.Compiler.Elaboration
import Mathlib.Order.Nat

/-! How a core expression is laid out as code: the slots of its locals, the captures of its
functions and the shape of every construct. -/
namespace ProtoClojure

/-- Names with their slots, the innermost binding first. -/
abbrev Names := List (String × Nat)

/-- The tables of a finished module, with the names its captures were made for and the names
the enclosing functions bind. -/
structure Tables where
  consts : List Const
  blocks : List BytecodeModule
  groups : List (List Nat)
  captures : List (String × CaptureSpec)
  outer : String → Bool

def BytecodeModule.tables (m : BytecodeModule) (captures : List (String × CaptureSpec))
    (outer : String → Bool) : Tables :=
  ⟨m.consts, m.blocks, m.arityGroups, captures, outer⟩

/-- The slot of a name: a binding of the body's own, else a capture. -/
def Tables.slotOf (T : Tables) (β : Names) (x : String) : Option Nat :=
  (β.lookup x).or ((T.captures.lookup x).map (·.localSlot))

def Tables.Captures (T : Tables) (slot : Nat) : Prop := ∃ p ∈ T.captures, p.2.localSlot = slot

/-- The names a body sees: bound here or in an enclosing function. -/
def Tables.sees (T : Tables) (β : Names) (x : String) : Bool := (β.lookup x).isSome || T.outer x

def RestParam.isVariadic : RestParam → Bool
  | .variadic _ => true
  | _ => false

def RestParam.isKwBased : RestParam → Bool
  | .kwBased _ => true
  | _ => false

/-- The parameters in slot order. -/
def paramNames (fixed : List String) (rest : RestParam) (keys : Keys) : List String :=
  match rest with
  | .none => fixed
  | .variadic name => fixed ++ [name]
  | .kwBased asName => fixed ++ (keys.names ++ asName.toList)

/-- The bindings a body starts with; the later of two parameters of one name hides the other. -/
def paramSlots (params : List String) : Names := params.zipIdx.reverse

/-- The module of one arity before its code is known. -/
structure Header (m : BytecodeModule) (fixed : List String) (rest : RestParam) (keys : Keys) :
    Prop where
  arity : m.arity = fixed.length
  isVariadic : m.isVariadic = rest.isVariadic
  isKwBased : m.isKwBased = rest.isKwBased
  kwKeys : m.kwKeys =
    if rest.isKwBased then keys.names.mapIdx fun i x => ⟨x, fixed.length + i⟩ else []
  asSlot : m.asSlot =
    match rest with
    | .kwBased (some _) => some (fixed.length + keys.names.length)
    | _ => none

def Instr.isTryBegin (w : Instr) : Bool := w.op = .tryBegin

/-- The code `endBody` leaves of the code emitted. -/
def clearedCode (env : Env) (m : BytecodeModule) (paramEnd : Nat) (raw : List Instr) : List Instr :=
  if !m.debugInfo || env.library then (clearLastReads { m with code := raw } m.arity paramEnd).code
  else raw

/-- A line mark, or none. -/
inductive Mark : Code → Prop
  | none : Mark .nil
  | line (n) : Mark (.ins ⟨.line, n⟩)

/-- The instructions of a body: its entry mark, the `:or` prologue, the body as the target of
its `recur`s, and the return. -/
def bodyCode (entry prologue body : Code) : Code :=
  .seq entry (.seq prologue (.seq (.loop body) (.ins ⟨.ret, 0⟩)))

section
variable (env : Env)

/-- The test of a catch clause, with the exception in slot `ex`. -/
inductive CompilesTest (T : Tables) (β : Names) (ex : Nat) : CatchTest → Code → Prop
  | builtin (id) : CompilesTest T β ex (.builtin id) (.block [⟨.pushLocal, ex⟩, ⟨.excMatch, id⟩])
  | bound {x name slot i} (hs : T.slotOf β x = some slot) (hi : T.consts[i]? = some (.symbol name)) :
      CompilesTest T β ex (.bound x name)
        (.block [⟨.pushLocal, ex⟩, ⟨.pushLocal, slot⟩, ⟨.excMatchType, i⟩])
  | boundMember {x m name slot i j} (hs : T.slotOf β x = some slot)
      (hj : T.consts[j]? = some (.symbol m)) (hi : T.consts[i]? = some (.symbol name)) :
      CompilesTest T β ex (.boundMember x m name)
        (.block [⟨.pushLocal, ex⟩, ⟨.pushLocal, slot⟩, ⟨.getMember, j⟩, ⟨.excMatchType, i⟩])
  | resolved {key name i j} (hj : T.consts[j]? = some (.symbol key))
      (hi : T.consts[i]? = some (.symbol name)) :
      CompilesTest T β ex (.resolved key name)
        (.block [⟨.pushLocal, ex⟩, ⟨.resolveClass, j⟩, ⟨.excMatchType, i⟩])

mutual

/-- `Compiles T β L lo hi e c`: in a body with tables `T`, bindings `β` and the slots `L` of
its `recur` target (`none` where `recur` is refused), `e` is laid out as `c`; the slots taken
meanwhile are those from `lo` up to `hi`. -/
inductive Compiles : Tables → Names → Option (List Nat) → Nat → Nat → Exp → Code → Prop
  | mark {T β L lo hi e k c} (hk : Mark k) (h : Compiles T β L lo hi e c) :
      Compiles T β L lo hi e (.seq k c)
  | nil {T β L lo hi} (hl : lo ≤ hi) : Compiles T β L lo hi (.lit .nil) (.ins ⟨.pushNil, 0⟩)
  | bool {T β L lo hi} (b) (hl : lo ≤ hi) :
      Compiles T β L lo hi (.lit (.bool b)) (.ins ⟨if b then .pushTrue else .pushFalse, 0⟩)
  | const {T β L lo hi c i} (hl : lo ≤ hi) (hi' : T.consts[i]? = some c) :
      Compiles T β L lo hi (.lit (.const c)) (.ins ⟨.pushConst, i⟩)
  | symLocal {T β L lo hi x slot} (hl : lo ≤ hi) (hs : T.slotOf β x = some slot) :
      Compiles T β L lo hi (.sym x) (.ins ⟨.pushLocal, slot⟩)
  | symGlobal {T β L lo hi x i} (hl : lo ≤ hi) (hs : T.slotOf β x = none) (ho : T.outer x = false)
      (hi' : T.consts[i]? = some (.symbol x)) :
      Compiles T β L lo hi (.sym x) (.ins ⟨.pushVar, i⟩)
  | global {T β L lo hi key i} (hl : lo ≤ hi) (hi' : T.consts[i]? = some (.symbol key)) :
      Compiles T β L lo hi (.global key) (.ins ⟨.pushVar, i⟩)
  | member {T β L lo hi o m c i} (h : Compiles T β L lo hi o c)
      (hi' : T.consts[i]? = some (.symbol m)) :
      Compiles T β L lo hi (.member o m) (.seq c (.ins ⟨.getMember, i⟩))
  | ite {T β L lo mid mid' hi e₁ e₂ e₃ c₁ c₂ c₃} (h₁ : Compiles T β L lo mid e₁ c₁)
      (h₂ : Compiles T β L mid mid' e₂ c₂) (h₃ : Compiles T β L mid' hi e₃ c₃) :
      Compiles T β L lo hi (.ite e₁ e₂ e₃) (.seq c₁ (.branch c₂ c₃))
  | both {T β L lo mid hi a b ca cb} (h₁ : Compiles T β L lo mid a ca)
      (h₂ : Compiles T β L mid hi b cb) :
      Compiles T β L lo hi (.both a b)
        (.seq ca (.seq (.ins ⟨.dup, 0⟩) (.skipIf .jumpIfFalse (.seq (.ins ⟨.pop, 0⟩) cb))))
  | either {T β L lo mid hi a b ca cb} (h₁ : Compiles T β L lo mid a ca)
      (h₂ : Compiles T β L mid hi b cb) :
      Compiles T β L lo hi (.either a b)
        (.seq ca (.seq (.ins ⟨.dup, 0⟩) (.skipIf .jumpIfTrue (.seq (.ins ⟨.pop, 0⟩) cb))))
  | seq {T β L lo mid hi a b ca cb} (h₁ : Compiles T β L lo mid a ca)
      (h₂ : Compiles T β L mid hi b cb) :
      Compiles T β L lo hi (.seq a b) (.seq ca (.seq (.ins ⟨.pop, 0⟩) cb))
  | bind {T β L lo m hi x init body ci cb} (h₁ : Compiles T β L lo m init ci)
      (hm : ¬ T.Captures m) (h₂ : Compiles T ((x, m) :: β) L (m + 1) hi body cb) :
      Compiles T β L lo hi (.bind x init body) (.seq ci (.seq (.ins ⟨.storeLocal, m⟩) cb))
  | loop {T β L lo mid hi bs body slots cs cb} (h₁ : CompilesBinds T β L lo mid bs slots cs)
      (h₂ : Compiles T ((bs.names.zip slots).reverse ++ β) (some slots) mid hi body cb) :
      Compiles T β L lo hi (.loop bs body) (.seq cs (.loop cb))
  | recur {T β lo hi args slots cs k} (hn : args.length = slots.length)
      (h : CompilesArgs T β (some slots) lo hi args cs) (hk : Mark k) :
      Compiles T β (some slots) lo hi (.recur args)
        (.seq cs (.seq (.stores slots.reverse) (.seq k .recur)))
  | fnSingle {T β L lo hi asSpelled arities m b} (hl : lo ≤ hi)
      (h : CompilesArities T β arities [m]) (hb : T.blocks[b]? = some m) :
      Compiles T β L lo hi (.fn asSpelled false arities)
        (.seq (.pushes m.captureSpecs) (.ins ⟨.makeFn, b⟩))
  | fnMulti {T β L lo hi asSpelled arities ms bs g} (hl : lo ≤ hi)
      (h : CompilesArities T β arities ms) (hg : T.groups[g]? = some bs)
      (hb : bs.map (T.blocks[·]?) = ms.map some) :
      Compiles T β L lo hi (.fn asSpelled true arities)
        (.seq (.pushes (ms.flatMap (·.captureSpecs))) (.ins ⟨.makeFnMulti, g⟩))
  | call {T β L lo mid hi kw f args cf cs} (h₁ : Compiles T β L lo mid f cf)
      (h₂ : CompilesArgs T β L mid hi args cs) :
      Compiles T β L lo hi (.call kw f args)
        (.seq cf (.seq cs (.ins ⟨if kw then .callKw else .call, args.length⟩)))
  | apply {T β L lo mid hi f a cf ca} (h₁ : Compiles T β L lo mid f cf)
      (h₂ : Compiles T β L mid hi a ca) :
      Compiles T β L lo hi (.apply f a) (.seq cf (.seq ca (.ins ⟨.callApply, 0⟩)))
  | operator {T β L lo mid hi op core a b ca cb} (ho : ∃ name, operatorOp name = some op)
      (h₁ : Compiles T β L lo mid a ca) (h₂ : Compiles T β L mid hi b cb) :
      Compiles T β L lo hi (.operator op core a b)
        (.seq ca (.seq cb (.ins ⟨op, if core then 1 else 0⟩)))
  | callMember {T β L lo mid hi o m args co cs i} (h₁ : Compiles T β L lo mid o co)
      (h₂ : CompilesArgs T β L mid hi args cs) (hi' : T.consts[i]? = some (.symbol m)) :
      Compiles T β L lo hi (.callMember o m args) (.seq co (.seq cs (.member args.length i)))
  | setGlobal {T β L lo hi key e c i} (h : Compiles T β L lo hi e c)
      (hi' : T.consts[i]? = some (.symbol key)) :
      Compiles T β L lo hi (.setGlobal key e) (.seq c (.ins ⟨.storeGlobal, i⟩))
  | throw {T β L lo hi e c} (h : Compiles T β L lo hi e c) :
      Compiles T β L lo hi (.throw e) (.seq c (.ins ⟨.throw, 0⟩))
  | tryPlain {T β L lo hi e c} (h : Compiles T β none lo hi e c) :
      Compiles T β L lo hi (.tryPlain e) c
  | tryCatch {T β L lo ex hi e clauses cb cc} (h₁ : Compiles T β none lo ex e cb)
      (hx : ¬ T.Captures ex) (h₂ : CompilesClauses T β ex (ex + 1) hi clauses cc) :
      Compiles T β L lo hi (.tryCatch e clauses)
        (.protect cb .nil (.seq (.ins ⟨.storeCaught, ex⟩) cc))
  | tryFinally {T β L lo mid fx hi e fin fin' cb cf cf'} (h₁ : Compiles T β none lo mid e cb)
      (h₂ : CompilesEffects T β mid fx fin cf) (hx : ¬ T.Captures fx)
      (h₃ : CompilesEffects T β (fx + 1) hi fin' cf') :
      Compiles T β L lo hi (.tryFinally e fin fin')
        (.protect cb cf (.seq (.ins ⟨.storeCaught, fx⟩) (.seq cf' (.ins ⟨.rethrow, fx⟩))))

/-- Expressions one after the other, every value left on the stack. -/
inductive CompilesArgs : Tables → Names → Option (List Nat) → Nat → Nat → Exps → Code → Prop
  | nil {T β L lo hi} (hl : lo ≤ hi) : CompilesArgs T β L lo hi .nil .nil
  | cons {T β L lo mid hi e rest c cs} (h : Compiles T β L lo mid e c)
      (hs : CompilesArgs T β L mid hi rest cs) : CompilesArgs T β L lo hi (.cons e rest) (.seq c cs)

/-- Expressions one after the other, every value dropped. -/
inductive CompilesEffects : Tables → Names → Nat → Nat → Exps → Code → Prop
  | nil {T β lo hi} (hl : lo ≤ hi) : CompilesEffects T β lo hi .nil .nil
  | cons {T β lo mid hi e rest c cs} (h : Compiles T β none lo mid e c)
      (hs : CompilesEffects T β mid hi rest cs) :
      CompilesEffects T β lo hi (.cons e rest) (.seq c (.seq (.ins ⟨.pop, 0⟩) cs))

/-- The bindings of a loop, with the slots they take. -/
inductive CompilesBinds :
    Tables → Names → Option (List Nat) → Nat → Nat → Binds → List Nat → Code → Prop
  | nil {T β L lo hi} (hl : lo ≤ hi) : CompilesBinds T β L lo hi .nil [] .nil
  | cons {T β L lo m hi x init rest slots ci cs} (h : Compiles T β L lo m init ci)
      (hm : ¬ T.Captures m) (hs : CompilesBinds T ((x, m) :: β) L (m + 1) hi rest slots cs) :
      CompilesBinds T β L lo hi (.cons x init rest) (m :: slots)
        (.seq ci (.seq (.ins ⟨.storeLocal, m⟩) cs))

/-- The clauses of a handler; an exception none takes is raised again. -/
inductive CompilesClauses : Tables → Names → Nat → Nat → Nat → Clauses → Code → Prop
  | nil {T β ex lo hi} (hl : lo ≤ hi) : CompilesClauses T β ex lo hi .nil (.ins ⟨.rethrow, ex⟩)
  | cons {T β ex lo mid mid' hi test x body rest ct cb cs} (hl : lo ≤ mid)
      (ht : CompilesTest T β ex test ct) (h : Compiles T ((x, ex) :: β) none mid mid' body cb)
      (hs : CompilesClauses T β ex mid' hi rest cs) :
      CompilesClauses T β ex lo hi (.cons test x body rest) (.seq ct (.branch cb cs))

/-- The `:or` prologue; the first key is in `slot`. -/
inductive CompilesKeys : Tables → Names → Nat → Nat → Nat → Keys → Code → Prop
  | nil {T β slot lo hi} (hl : lo ≤ hi) : CompilesKeys T β slot lo hi .nil .nil
  | cons {T β slot lo hi x rest c} (hs : CompilesKeys T β (slot + 1) lo hi rest c) :
      CompilesKeys T β slot lo hi (.cons x rest) c
  | consOr {T β slot lo mid hi x default rest cd c} (h : Compiles T β none lo mid default cd)
      (hs : CompilesKeys T β (slot + 1) mid hi rest c) :
      CompilesKeys T β slot lo hi (.consOr x default rest)
        (.seq (.seq (.block [⟨.pushLocal, slot⟩, ⟨.pushNil, 0⟩, ⟨.eq, 0⟩])
          (.skipIf .jumpIfFalse (.seq cd (.ins ⟨.storeLocal, slot⟩)))) c)

/-- The modules of the arities of a function made in a body with tables `T`. -/
inductive CompilesArities : Tables → Names → Arities → List BytecodeModule → Prop
  | nil {T β} : CompilesArities T β .nil []
  | cons {T β fixed rest keys body more m ms captures mid hi k cp cb}
      (hh : Header m fixed rest keys) (he : Mark k)
      (hc : captures.map (·.2) = m.captureSpecs)
      (hp : ∀ p ∈ captures, T.slotOf β p.1 = some p.2.parentSlot)
      (hn : (captures.map (·.2.localSlot)).Nodup)
      (hs : ∀ p ∈ captures,
        (paramNames fixed rest keys).length ≤ p.2.localSlot ∧ p.2.localSlot < hi)
      (hk : CompilesKeys (m.tables captures (T.sees β)) (paramSlots (paramNames fixed rest keys))
        fixed.length (paramNames fixed rest keys).length mid keys cp)
      (hb : Compiles (m.tables captures (T.sees β)) (paramSlots (paramNames fixed rest keys))
        (some (List.range fixed.length)) mid hi body cb)
      (hl : m.localCount = hi - m.arity)
      (hcode : m.code =
        clearedCode env m (paramNames fixed rest keys).length ((bodyCode k cp cb).flatten 0))
      (ht : m.hasHandlers = m.code.any Instr.isTryBegin)
      (hm : CompilesArities T β more ms) :
      CompilesArities T β (.cons fixed rest keys body more) (m :: ms)

end

/-- `m` is the module of a body that some parameters and forms stand for, and so are the
modules of the functions in it. -/
inductive LaidOut : BytecodeModule → Prop
  | body {T β vis n n' params forms fixed rest keys e m}
      (he : ElabArities env vis n [(params, forms)] (.cons fixed rest keys e .nil) n')
      (hc : CompilesArities env T β (.cons fixed rest keys e .nil) [m])
      (hb : ∀ b ∈ m.blocks, LaidOut b) : LaidOut m

end

/-! Slots may be left unused in front. -/

section
variable {env : Env}

mutual

theorem Compiles.widen {T : Tables} {β : Names} {L : Option (List Nat)} {lo lo' hi : Nat} {e : Exp}
    {c : Code} (hl : lo' ≤ lo) : Compiles env T β L lo hi e c → Compiles env T β L lo' hi e c
  | .mark hk h => .mark hk (h.widen hl)
  | .nil h => .nil (hl.trans h)
  | .bool b h => .bool b (hl.trans h)
  | .const h hi' => .const (hl.trans h) hi'
  | .symLocal h hs => .symLocal (hl.trans h) hs
  | .symGlobal h hs ho hi' => .symGlobal (hl.trans h) hs ho hi'
  | .global h hi' => .global (hl.trans h) hi'
  | .member h hi' => .member (h.widen hl) hi'
  | .ite h₁ h₂ h₃ => .ite (h₁.widen hl) h₂ h₃
  | .both h₁ h₂ => .both (h₁.widen hl) h₂
  | .either h₁ h₂ => .either (h₁.widen hl) h₂
  | .seq h₁ h₂ => .seq (h₁.widen hl) h₂
  | .bind h₁ hm h₂ => .bind (h₁.widen hl) hm h₂
  | .loop h₁ h₂ => .loop (h₁.widen hl) h₂
  | .recur hn h hk => .recur hn (h.widen hl) hk
  | .fnSingle h ha hb => .fnSingle (hl.trans h) ha hb
  | .fnMulti h ha hg hb => .fnMulti (hl.trans h) ha hg hb
  | .call h₁ h₂ => .call (h₁.widen hl) h₂
  | .apply h₁ h₂ => .apply (h₁.widen hl) h₂
  | .operator ho h₁ h₂ => .operator ho (h₁.widen hl) h₂
  | .callMember h₁ h₂ hi' => .callMember (h₁.widen hl) h₂ hi'
  | .setGlobal h hi' => .setGlobal (h.widen hl) hi'
  | .throw h => .throw (h.widen hl)
  | .tryPlain h => .tryPlain (h.widen hl)
  | .tryCatch h₁ hx h₂ => .tryCatch (h₁.widen hl) hx h₂
  | .tryFinally h₁ h₂ hx h₃ => .tryFinally (h₁.widen hl) h₂ hx h₃

theorem CompilesArgs.widen {T : Tables} {β : Names} {L : Option (List Nat)} {lo lo' hi : Nat}
    {es : Exps} {c : Code} (hl : lo' ≤ lo) :
    CompilesArgs env T β L lo hi es c → CompilesArgs env T β L lo' hi es c
  | .nil h => .nil (hl.trans h)
  | .cons h hs => .cons (h.widen hl) hs

theorem CompilesBinds.widen {T : Tables} {β : Names} {L : Option (List Nat)} {lo lo' hi : Nat}
    {bs : Binds} {slots : List Nat} {c : Code} (hl : lo' ≤ lo) :
    CompilesBinds env T β L lo hi bs slots c → CompilesBinds env T β L lo' hi bs slots c
  | .nil h => .nil (hl.trans h)
  | .cons h hm hs => .cons (h.widen hl) hm hs

end

/-- No `recur` crosses a `try`: around one any target may be in force. -/
theorem Compiles.tryCatch_target {T : Tables} {β : Names} {L L' : Option (List Nat)} {lo hi : Nat}
    {e : Exp} {clauses : Clauses} {c : Code} :
    Compiles env T β L lo hi (.tryCatch e clauses) c →
      Compiles env T β L' lo hi (.tryCatch e clauses) c
  | .mark hk h => .mark hk h.tryCatch_target
  | .tryCatch h₁ hx h₂ => .tryCatch h₁ hx h₂

theorem Compiles.tryFinally_target {T : Tables} {β : Names} {L L' : Option (List Nat)}
    {lo hi : Nat} {e : Exp} {fin fin' : Exps} {c : Code} :
    Compiles env T β L lo hi (.tryFinally e fin fin') c →
      Compiles env T β L' lo hi (.tryFinally e fin fin') c
  | .mark hk h => .mark hk h.tryFinally_target
  | .tryFinally h₁ h₂ hx h₃ => .tryFinally h₁ h₂ hx h₃

end

end ProtoClojure
