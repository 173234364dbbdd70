import ProtoClojure.Control.Unwinding
import ProtoClojure.Reader.Lexer
import ProtoClojure.Reader.SyntaxQuote

/-! The reader: the forms of a text, from its tokens. -/
namespace ProtoClojure.Reader
open Decimal Unwinding

/-! ### What the reader is given -/

structure ReaderHost where
  letters : Nat → Bool                        -- beyond ASCII
  text : Bytes → String
  double : FloatLiteral → UInt64
  patternError : Bytes → Option String        -- why the engine rejects a pattern
  mapCount : List Form → Nat                  -- entries of the map of alternating keys and values
  setCount : List Form → Nat
  keyEquals : Form → Form → Bool
  resolver : Option (String → String)
  edn : Bool

inductive ReadError where
  | lexer (e : LexError)
  | unterminated (what : String)
  | noForm (macroText : String)
  | stackOverflow
  | other (message : String)

/-- The input ended inside a form. -/
def ReadError.outOfInput : ReadError → Bool
  | .lexer .unterminatedEscape | .lexer .unterminatedString | .lexer .unterminatedRegex
  | .unterminated _ | .noForm _ => true
  | _ => false

/-- The parameters of the `#()` being read. -/
structure FnLiteral where
  params : List (Option String) := []
  rest : Option String := none

structure ReadState where
  tokens : List Token
  fnLiteral : Option FnLiteral := none
  gensymId : Nat := 0

/-- A reader whose call fails keeps what the call has changed. -/
abbrev Read := EStateM ReadError ReadState

/-! ### Tokens -/

/-- The next token, past what was read; after the last one nothing is read. -/
def nextToken : Read Token := fun σ =>
  match σ.tokens with
  | [] => .ok .endOfFile σ
  | tok :: toks => .ok tok { σ with tokens := toks }

def nextGensymId : Read Nat := fun σ => .ok (σ.gensymId + 1) { σ with gensymId := σ.gensymId + 1 }

def fail {α : Type} (message : String) : Read α := throw (.other message)

/-- The text of a reader macro. -/
def macroText : Token → String
  | .quote => "'"
  | .backtick => "`"
  | .tilde => "~"
  | .tildeAt => "~@"
  | .hashUnderscore => "#_"
  | .deref => "@"
  | _ => ""

inductive Closing where
  | paren
  | bracket
  | brace
deriving DecidableEq

/-- The collection a closing token closes. -/
def Token.closing : Token → Option Closing
  | .rparen => some .paren
  | .rbracket => some .bracket
  | .rbrace => some .brace
  | _ => none

def Closing.kindName : Closing → String
  | .paren => "RParen"
  | .bracket => "RBracket"
  | .brace => "RBrace"

/-! ### Symbols -/

/-- `%`, `%1` to `%20` by their digits; nothing for another symbol. -/
def argIndex : Nat → Bytes → Except ReadError (Option Nat)
  | n, [] => .ok (some n)
  | n, c :: s =>
    if !isDigit c then .ok none
    else
      let n := n * 10 + (c.toNat - 0x30)
      if n > 20 then .error (.other "Arg literal must be %, %& or %integer (at most %20)")
      else argIndex n s

def generated (stem : String) (n : Nat) : String := stem ++ "__" ++ toString n ++ "#"

def setFnLiteral (lit : FnLiteral) : Read Unit := modify fun σ => { σ with fnLiteral := some lit }

/-- The symbol of parameter `n`, from 1 on. -/
def fnParam (lit : FnLiteral) (n : Nat) : Read String := do
  let params := lit.params ++ List.replicate (n - lit.params.length) none
  match (params[n - 1]?).getD none with
  | some symbol => do
    setFnLiteral { lit with params }
    return symbol
  | none => do
    let symbol := generated ("p" ++ toString n) (← nextGensymId)
    setFnLiteral { lit with params := params.set (n - 1) (some symbol) }
    return symbol

def fnLiteralArg (lit : FnLiteral) (text : Bytes) : Read (Option String) := do
  if text = ascii "%&" then
    match lit.rest with
    | some symbol => return some symbol
    | none => do
      let symbol := generated "rest" (← nextGensymId)
      setFnLiteral { lit with rest := some symbol }
      return some symbol
  else if text.length = 1 then some <$> fnParam lit 1
  else
    match ← ofExcept (argIndex 0 text.tail) with
    | none => return none
    | some n =>
      if n = 0 then fail "Arg literal must be %, %& or %integer"
      else some <$> fnParam lit n

section
variable (H : ReaderHost)

def readSymbol (text : Bytes) : Read Form := do
  if text = ascii "nil" then return .nil
  else if text = ascii "true" then return .bool true
  else if text = ascii "false" then return .bool false
  else
    match (← get).fnLiteral with
    | none => return .name (H.text text)
    | some lit =>
      if text.head? = some 0x25 then
        match ← fnLiteralArg lit text with
        | some symbol => return .name symbol
        | none => return .name (H.text text)
      else return .name (H.text text)

/-! ### Collections

`form` reads the form that a token starts. -/

section
variable (form : Token → Read Form)

def readNextForm (macroTok : Token) : Read Form := do
  match ← nextToken with
  | .endOfFile => throw (.noForm (macroText macroTok))
  | tok => form tok

def discardNextForm (tok : Token) : Read Unit := do
  let _ ← readNextForm form tok

def readListLoop (close : Closing) (unterminated : String) : Nat → List Form → Read (List Form)
  | 0, items => pure items
  | fuel + 1, items => do
    let tok ← nextToken
    match tok with
    | .endOfFile => throw (.unterminated unterminated)
    | .hashUnderscore => do
      discardNextForm form tok
      readListLoop close unterminated fuel items
    | tok =>
      match tok.closing with
      | some c => if c = close then return items else fail ("mismatched " ++ c.kindName)
      | none => do
        let item ← form tok
        readListLoop close unterminated fuel (items ++ [item])

def readList (close : Closing) (unterminated : String) : Read (List Form) := do
  readListLoop form close unterminated ((← get).tokens.length + 1) []

/-- The first key equal to one before it. -/
def firstRepeated (before : List Form) : List Form → Option Form
  | [] => none
  | k :: ks =>
    if before.any fun j => H.keyEquals j k then some k else firstRepeated (before ++ [k]) ks

def describeKey : Form → String
  | .nil => "nil"
  | .bool true => "true"
  | .bool false => "false"
  | .name spelling => spelling
  | .str s => "\"" ++ s ++ "\""
  | .int n => toString n
  | _ => "a repeated form"

def noDuplicate (keys : List Form) : Read Unit :=
  match firstRepeated H [] keys with
  | some k => fail ("Duplicate key: " ++ describeKey k)
  | none => pure ()

def readMap : Read Form := do
  let kv ← readList form .brace "unterminated map — missing `\x7d`"
  if kv.length % 2 ≠ 0 then fail "Map literal must contain an even number of forms"
  else do
    if H.mapCount kv ≠ kv.length / 2 then noDuplicate H ((pairUp kv).map Prod.fst)
    return .map kv

def readSet : Read Form := do
  let items ← readList form .brace "unterminated set — missing `\x7d`"
  if H.setCount items ≠ items.length then noDuplicate H items
  return .set items

/-- The parameters, each with a symbol. -/
def nameParams (n : Nat) : List (Option String) → Read (List Form)
  | [] => pure []
  | some symbol :: params => do return .name symbol :: (← nameParams (n + 1) params)
  | none :: params => do
    let symbol := generated ("p" ++ toString n) (← nextGensymId)
    return .name symbol :: (← nameParams (n + 1) params)

/-- `(fn* [p1 ... & rest] (body))`. -/
def readFnLiteral : Read Form := do
  if (← get).fnLiteral.isSome then fail "Nested #()s are not allowed"
  else
    guarded (fun σ => { σ with fnLiteral := some {} }) (fun σ => { σ with fnLiteral := none }) do
      let body ← readList form .paren "unterminated list — missing `)`"
      let lit := (← get).fnLiteral.getD {}
      let params ← nameParams 1 lit.params
      let rest := match lit.rest with
        | some symbol => [.name "&", .name symbol]
        | none => []
      return .list [.name "fn*", .vector (params ++ rest), .list body]

/-- `(head form)`. -/
def readWrapped (macroTok : Token) (head : String) : Read Form := do
  let item ← readNextForm form macroTok
  return .list [.name head, item]

def readBacktick (macroTok : Token) : Read Form := do
  let item ← readNextForm form macroTok
  let g := (← get).gensymId
  match readSyntaxQuote H.resolver (fun k => g + k + 1) item with
  | .error message => fail message
  | .ok (expanded, x) => do
    modify fun σ => { σ with gensymId := g + x.draws }
    return expanded

end

/-! ### Forms -/

/-- What EDN, which is data, has no reader macro for. -/
def ednRefuses (tok : Token) : Option String :=
  if !H.edn then none
  else match tok with
    | .hashLParen => some "No dispatch macro for: ("
    | .regex _ => some "No dispatch macro for: \""
    | .quote | .backtick | .tilde | .tildeAt | .deref =>
      some ("EDN does not support the reader macro " ++ macroText tok)
    | _ => none

/-- `stack` is how many levels of nesting the thread's stack still allows. -/
def readFromToken : Nat → Token → Read Form
  | 0, _ => throw .stackOverflow
  | stack + 1, tok =>
    match ednRefuses H tok with
    | some message => fail message
    | none =>
      match tok with
      | .hashUnderscore => do
        discardNextForm (readFromToken stack) tok
        readNextForm (readFromToken stack) tok
      | .integer digits => pure (.int (integerValue digits))
      | .float literal => pure (.float (H.double literal))
      | .string text => pure (.str (H.text text))
      | .symbol text => readSymbol H text
      | .hashLParen => readFnLiteral (readFromToken stack)
      | .lparen =>
        .list <$> readList (readFromToken stack) .paren "unterminated list — missing `)`"
      | .deref => readWrapped (readFromToken stack) tok "clojure.core/deref"
      | .quote => readWrapped (readFromToken stack) tok "quote"
      | .tilde => readWrapped (readFromToken stack) tok "clojure.core/unquote"
      | .tildeAt => readWrapped (readFromToken stack) tok "clojure.core/unquote-splicing"
      | .backtick => readBacktick H (readFromToken stack) tok
      | .lbracket =>
        .vector <$> readList (readFromToken stack) .bracket "unterminated vector — missing `]`"
      | .lbrace => readMap H (readFromToken stack)
      | .hashLBrace => readSet H (readFromToken stack)
      | .regex source =>
        match H.patternError source with
        | some message => fail ("PatternSyntaxException: " ++ message)
        | none => pure (.pattern (H.text source))
      | .error e => throw (.lexer e)
      | .rparen => fail "unexpected )"
      | .rbracket => fail "unsupported token: RBracket"
      | .rbrace => fail "unsupported token: RBrace"
      | .endOfFile => fail "unexpected end of file"

/-- The next form; nothing at the end of the input. -/
def readOne (stack : Nat) : Nat → Read (Option Form)
  | 0 => pure none
  | fuel + 1 => do
    match ← nextToken with
    | .endOfFile => return none
    | .hashUnderscore => do
      discardNextForm (readFromToken H stack) .hashUnderscore
      readOne stack fuel
    | tok => some <$> readFromToken H stack tok

def readAllForms (stack : Nat) : Nat → List Form → Read (List Form)
  | 0, forms => pure forms
  | fuel + 1, forms => do
    match ← nextToken with
    | .endOfFile => return forms
    | .hashUnderscore => do
      discardNextForm (readFromToken H stack) .hashUnderscore
      readAllForms stack fuel forms
    | tok => do
      let form ← readFromToken H stack tok
      readAllForms stack fuel (forms ++ [form])

/-- The forms of the tokens, the numbers of generated symbols from `gensymId` on. -/
def readTokens (stack gensymId : Nat) (toks : List Token) : Except ReadError (List Form) :=
  match readAllForms H stack (toks.length + 1) [] { tokens := toks, gensymId } with
  | .ok forms _ => .ok forms
  | .error e _ => .error e

def readAll (stack gensymId : Nat) (s : Bytes) : Except ReadError (List Form) :=
  readTokens H stack gensymId (tokens H.letters s)

end
end ProtoClojure.Reader
