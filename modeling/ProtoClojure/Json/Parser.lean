import ProtoClojure.Json.Source
import ProtoClojure.Text.Decimal

/-! The JSON parser over a source of either kind. Loops over the text run on fuel, one unit for
each byte the source has still to give and one more. -/

namespace ProtoClojure.Json
open Decimal

variable {V E W : Type}

/-! ### What the parser is given -/

/-- The runtime the parser builds values with. `W` is what a called function may read and
change, `E` what it may throw. -/
structure Host (V E W : Type) where
  nil : V
  true_ : V
  false_ : V
  makeUtf8String : Bytes → V
  strtod : Bytes → V
  fromLong : Int → V
  fromString : Bytes → V
  internNamed : Bytes → V
  newVector : List V → V
  mapAssocPairs : Option V → List (V × V) → V
  invoke : V → List V → W → Except E V × W
  same : V → V → Bool

inductive Keys (V : Type) where
  | strings
  | keywords
  | fn (keyFn : V)

structure ReadOptions (V : Type) where
  keys : Keys V := .strings
  valueFn : Option V := none

inductive Trailing where
  | ignore
  | reject
deriving DecidableEq

inductive Flavor where
  | cheshire
  | dataJson
deriving DecidableEq

def errorClass : Flavor → String
  | .cheshire => "IOException"
  | .dataJson => "Exception"

/-- What ends a parse early. -/
inductive Fault (E : Type) where
  | jsonSyntaxError (message : String)
  | stackOverflow
  | thrown (e : E)

structure Reading (W : Type) extends Source where
  world : W

abbrev Parse (E W : Type) := EStateM (Fault E) (Reading W)

/-! ### The source's operations -/

def peek : Parse E W (Option UInt8) :=
  modifyGet fun r => (r.toSource.peek.1, { r with toSource := r.toSource.peek.2 })

def skip (n : Nat) : Parse E W Unit := modify fun r => { r with toSource := r.toSource.skip n }

def advance : Parse E W Unit := modify fun r => { r with toSource := r.toSource.advance }

def newline : Parse E W Unit := modify fun r => { r with toSource := r.toSource.newline }

def fuel : Parse E W Nat := do return (← get).unread.length + 1

def fail {α : Type} (what : String) : Parse E W α := do
  throw (.jsonSyntaxError ("JSON error: " ++ what ++ " at " ++ (← get).where_))

/-! ### Tokens -/

def isLower (c : UInt8) : Bool := 0x61 ≤ c && c ≤ 0x7A

def isLetter (c : UInt8) : Bool := isLower c || (0x41 ≤ c && c ≤ 0x5A)

def spelled (t : Bytes) : String := String.ofList (t.map fun c => Char.ofNat c.toNat)

def describe : Option UInt8 → String
  | none => "end of input"
  | some c =>
    if c < 0x20 then "control character " ++ toString c.toNat
    else if 0x80 ≤ c then "character beyond ASCII"
    else "character '" ++ spelled [c] ++ "'"

def describeCurrent : Parse E W String := do return describe (← peek)

def skipWhitespaceLoop : Nat → Parse E W Unit
  | 0 => pure ()
  | fuel + 1 => do
    let c ← peek
    if c = some 0x20 ∨ c = some 0x09 ∨ c = some 0x0D then do
      advance
      skipWhitespaceLoop fuel
    else if c = some LF then do
      advance
      newline
      skipWhitespaceLoop fuel
    else pure ()

def skipWhitespace : Parse E W Unit := do skipWhitespaceLoop (← fuel)

def more : Parse E W Bool := do
  skipWhitespace
  return (← peek).isSome

def expect (c : UInt8) (what : String) : Parse E W Unit := do
  if (← peek) = some c then advance
  else do
    let found ← describeCurrent
    fail ("expected " ++ what ++ ", found " ++ found)

def copyWhileLoop (p : UInt8 → Bool) : Nat → Bytes → Parse E W Bytes
  | 0, out => pure out
  | fuel + 1, out => do
    match ← peek with
    | some c =>
      if p c then do
        advance
        copyWhileLoop p fuel (out ++ [c])
      else pure out
    | none => pure out

/-- Takes the bytes from the source while they satisfy `p`. -/
def copyWhile (p : UInt8 → Bool) : Parse E W Bytes := do copyWhileLoop p (← fuel) []

def unrecognized {α : Type} (token : Bytes) : Parse E W α :=
  fail ("unrecognized token '" ++ spelled token ++ "', expected a value")

def wordLoop : Bytes → Bytes → Parse E W Bytes
  | [], seen => pure seen
  | p :: w, seen => do
    if (← peek) = some p then do
      advance
      wordLoop w (seen ++ [p])
    else do
      let rest ← copyWhile isLetter
      unrecognized (seen ++ rest)

def word (w : Bytes) : Parse E W Unit := do
  let seen ← wordLoop w []
  if (← peek).any fun c => isLetter c || isDigit c then do
    let rest ← copyWhile fun c => isLower c || isDigit c
    unrecognized (seen ++ rest)
  else pure ()

/-! ### Numbers -/

def minus : Parse E W Bytes := do
  if (← peek) = some 0x2D then do
    advance
    return [0x2D]
  else return []

def integerPart : Parse E W Bytes := do
  let c ← peek
  if c = some 0x30 then do
    advance
    if (← peek).any isDigit then fail "invalid number, leading zeroes are not allowed"
    else return [0x30]
  else if c.any isDigit then copyWhile isDigit
  else fail "invalid number, expected a digit after '-'"

def fractionPart : Parse E W Bytes := do
  if (← peek) = some 0x2E then do
    advance
    if (← peek).any isDigit then do
      let digits ← copyWhile isDigit
      return 0x2E :: digits
    else fail "invalid number, expected a digit after the decimal point"
  else return []

def exponentSign : Parse E W Bytes := do
  match ← peek with
  | some c =>
    if c = 0x2B ∨ c = 0x2D then do
      advance
      return [c]
    else return []
  | none => return []

def exponentPart : Parse E W Bytes := do
  let c ← peek
  if c = some 0x65 ∨ c = some 0x45 then do
    advance
    let sign ← exponentSign
    if (← peek).any isDigit then do
      let digits ← copyWhile isDigit
      return 0x65 :: (sign ++ digits)
    else fail "invalid number, expected a digit in the exponent"
  else return []

def numberValue (H : Host V E W) (isFloat : Bool) (t : Bytes) : V :=
  if isFloat then H.strtod t
  else if -2 ^ 63 ≤ integerValue t ∧ integerValue t < 2 ^ 63 then H.fromLong (integerValue t)
  else H.fromString t

def number (H : Host V E W) : Parse E W V := do
  let sign ← minus
  let int ← integerPart
  let fraction ← fractionPart
  let exponent ← exponentPart
  let c ← peek
  if c.any isLetter ∨ c = some 0x2E ∨ c = some 0x5F then do
    let found ← describeCurrent
    fail ("invalid number, unexpected " ++ found)
  else
    return numberValue H (fraction ≠ [] || exponent ≠ []) (sign ++ int ++ fraction ++ exponent)

/-! ### Strings -/

def hexDigit (c : UInt8) : Option Nat :=
  if isDigit c then some (c.toNat - 0x30)
  else if 0x61 ≤ c && c ≤ 0x66 then some (c.toNat - 0x61 + 10)
  else if 0x41 ≤ c && c ≤ 0x46 then some (c.toNat - 0x41 + 10)
  else none

def hexDigits : Nat → Nat → Parse E W Nat
  | 0, v => pure v
  | i + 1, v => do
    match (← peek).bind hexDigit with
    | some d => do
      advance
      hexDigits i (v * 16 + d)
    | none => fail "invalid \\u escape, expected four hexadecimal digits"

def hex4 : Parse E W Nat := hexDigits 4 0

/-- The bytes `appendUtf8` appends. -/
def appendUtf8 (cp : Nat) : Bytes :=
  if cp < 0x80 then [UInt8.ofNat cp]
  else if cp < 0x800 then
    [UInt8.ofNat (0xC0 ||| cp >>> 6), UInt8.ofNat (0x80 ||| (cp &&& 0x3F))]
  else if cp < 0x10000 then
    [UInt8.ofNat (0xE0 ||| cp >>> 12), UInt8.ofNat (0x80 ||| (cp >>> 6 &&& 0x3F)),
      UInt8.ofNat (0x80 ||| (cp &&& 0x3F))]
  else
    [UInt8.ofNat (0xF0 ||| cp >>> 18), UInt8.ofNat (0x80 ||| (cp >>> 12 &&& 0x3F)),
      UInt8.ofNat (0x80 ||| (cp >>> 6 &&& 0x3F)), UInt8.ofNat (0x80 ||| (cp &&& 0x3F))]

def unpairedSurrogate {α : Type} : Parse E W α := fail "unpaired surrogate in a \\u escape"

def lowSurrogate : Parse E W Nat := do
  if (← peek) = some backslash then do
    advance
    if (← peek) = some 0x75 then do
      advance
      let lo ← hex4
      if lo < 0xDC00 ∨ 0xDFFF < lo then unpairedSurrogate else return lo
    else unpairedSurrogate
  else unpairedSurrogate

def unicodeEscape : Parse E W Bytes := do
  let cp ← hex4
  if 0xD800 ≤ cp ∧ cp ≤ 0xDBFF then do
    let lo ← lowSurrogate
    return appendUtf8 (0x10000 + ((cp - 0xD800) <<< 10) + (lo - 0xDC00))
  else if 0xDC00 ≤ cp ∧ cp ≤ 0xDFFF then unpairedSurrogate
  else return appendUtf8 cp

/-- What the escape introduced by a backslash and `e` stands for. -/
def escape (e : UInt8) : Parse E W Bytes :=
  if e = quote then pure [quote]
  else if e = backslash then pure [backslash]
  else if e = 0x2F then pure [0x2F]
  else if e = 0x62 then pure [0x08]
  else if e = 0x66 then pure [0x0C]
  else if e = 0x6E then pure [LF]
  else if e = 0x72 then pure [0x0D]
  else if e = 0x74 then pure [0x09]
  else if e = 0x75 then unicodeEscape
  else if e < 0x20 ∨ 0x80 ≤ e then fail "invalid escape in a string"
  else fail ("invalid escape '\\" ++ spelled [e] ++ "' in a string")

def isPlain (c : UInt8) : Bool := c != quote && c != backslash && c != LF

/-- The run of plain bytes already buffered. -/
def plainRun : Parse E W Bytes := do
  let run := (← get).data.takeWhile isPlain
  skip run.length
  return run

def stringLoop : Nat → Bytes → Parse E W Bytes
  | 0, out => pure out
  | fuel + 1, out => do
    let run ← plainRun
    match ← peek with
    | none => fail "unexpected end of input inside a string"
    | some c => do
      advance
      if c = quote then return out ++ run
      else if c = LF then do
        newline
        stringLoop fuel (out ++ run ++ [LF])
      else do
        -- read as a backslash, whatever byte it is
        match ← peek with
        | none => fail "unexpected end of input inside a string"
        | some e => do
          advance
          let bytes ← escape e
          stringLoop fuel (out ++ run ++ bytes)

def string : Parse E W Bytes := do stringLoop (← fuel) []

/-! ### Values -/

def invoke (H : Host V E W) (f : V) (args : List V) : Parse E W V := fun r =>
  match H.invoke f args r.world with
  | (.ok v, w) => .ok v { r with world := w }
  | (.error e, w) => .error (.thrown e) { r with world := w }

/-- A keyword is interned from a C string: it ends before a zero byte. -/
def makeKey (H : Host V E W) (opts : ReadOptions V) (text : Bytes) : V :=
  match opts.keys with
  | .keywords => H.internNamed ((0x3A :: text).takeWhile (· ≠ 0))
  | .strings | .fn _ => H.makeUtf8String text

def arrayItems (value : Parse E W V) : Nat → List V → Parse E W (List V)
  | 0, items => pure items
  | fuel + 1, items => do
    let v ← value
    skipWhitespace
    let d ← peek
    if d = some 0x2C then do
      advance
      arrayItems value fuel (items ++ [v])
    else if d = some 0x5D then do
      advance
      return items ++ [v]
    else if d = none then
      fail "unexpected end of input inside an array, expected ',' or ']'"
    else fail ("expected ',' or ']' in an array, found " ++ describe d)

def array (H : Host V E W) (value : Parse E W V) : Parse E W V := do
  skipWhitespace
  if (← peek) = some 0x5D then do
    advance
    return H.newVector []
  else do
    let items ← arrayItems value (← fuel) []
    return H.newVector items

/-- The map so far and the entries not yet in it. -/
structure Batch (V : Type) where
  folded : V
  pending : List (V × V) := []

def kBatch : Nat := 16

def Batch.fold (H : Host V E W) (b : Batch V) : Batch V :=
  if b.pending = [] then b else { folded := H.mapAssocPairs (some b.folded) b.pending }

def Batch.push (H : Host V E W) (b : Batch V) (entry : V × V) : Batch V :=
  let b := { b with pending := b.pending ++ [entry] }
  if b.pending.length = kBatch then b.fold H else b

def key (H : Host V E W) (opts : ReadOptions V) : Parse E W V := do
  skipWhitespace
  let q ← peek
  if q = some quote then do
    advance
    let text ← string
    match opts.keys with
    | .fn keyFn => invoke H keyFn [makeKey H opts text]
    | .strings | .keywords => return makeKey H opts text
  else if q = none then fail "unexpected end of input inside an object, expected a key"
  else fail ("expected a string key in an object, found " ++ describe q)

/-- The entry to keep: `:value-fn` answering itself drops it. -/
def applyValueFn (H : Host V E W) (opts : ReadOptions V) (k v : V) : Parse E W (Option (V × V)) := do
  match opts.valueFn with
  | none => return some (k, v)
  | some valueFn =>
    let r ← invoke H valueFn [k, v]
    return if H.same r valueFn then none else some (k, r)

def objectEntry (H : Host V E W) (opts : ReadOptions V) (value : Parse E W V) :
    Parse E W (Option (V × V)) := do
  let k ← key H opts
  skipWhitespace
  expect 0x3A "':' after an object key"
  let v ← value
  applyValueFn H opts k v

def objectItems (H : Host V E W) (opts : ReadOptions V) (value : Parse E W V) :
    Nat → Batch V → Parse E W (Batch V)
  | 0, batch => pure batch
  | fuel + 1, batch => do
    let entry ← objectEntry H opts value
    let batch := entry.elim batch (batch.push H)
    skipWhitespace
    let d ← peek
    if d = some 0x2C then do
      advance
      objectItems H opts value fuel batch
    else if d = some 0x7D then do
      advance
      return batch
    else if d = none then
      fail "unexpected end of input inside an object, expected ',' or '\x7d'"
    else fail ("expected ',' or '\x7d' in an object, found " ++ describe d)

def object (H : Host V E W) (opts : ReadOptions V) (value : Parse E W V) : Parse E W V := do
  let empty := H.mapAssocPairs none []
  skipWhitespace
  if (← peek) = some 0x7D then do
    advance
    return empty
  else do
    let batch ← objectItems H opts value (← fuel) { folded := empty }
    return (batch.fold H).folded

/-- What no value starts with. -/
def noValue {α : Type} : Parse E W α := do
  match ← peek with
  | none => fail "unexpected end of input, expected a value"
  | some c =>
    if isLetter c then do
      let token ← copyWhile fun d => isLetter d || isDigit d
      unrecognized token
    else fail ("unexpected " ++ describe (some c) ++ ", expected a value")

/-- `stack` is how many levels of nesting the native stack still allows. -/
def value (H : Host V E W) (opts : ReadOptions V) : Nat → Parse E W V
  | 0 => throw .stackOverflow
  | stack + 1 => do
    skipWhitespace
    let c ← peek
    if c = some 0x7B then do
      advance
      object H opts (value H opts stack)
    else if c = some 0x5B then do
      advance
      array H (value H opts stack)
    else if c = some quote then do
      advance
      let text ← string
      return H.makeUtf8String text
    else if c = some 0x74 then do
      word [0x74, 0x72, 0x75, 0x65]
      return H.true_
    else if c = some 0x66 then do
      word [0x66, 0x61, 0x6C, 0x73, 0x65]
      return H.false_
    else if c = some 0x6E then do
      word [0x6E, 0x75, 0x6C, 0x6C]
      return H.nil
    else if c = some 0x2D ∨ c.any isDigit then number H
    else noValue

/-! ### Reading -/

/-- How a document is read. -/
structure Request (V : Type) where
  opts : ReadOptions V
  flavor : Flavor
  trailing : Trailing
  eofOk : Bool
  eofValue : V

/-- What a reading primitive raises. -/
inductive Raised (E : Type) where
  | classed (exceptionClass message : String)
  | stackOverflow
  | thrown (e : E)

def raise (flavor : Flavor) : Fault E → Raised E
  | .jsonSyntaxError message => .classed (errorClass flavor) message
  | .stackOverflow => .stackOverflow
  | .thrown e => .thrown e

def firstValue (H : Host V E W) (req : Request V) (stack : Nat) : Parse E W V := do
  if ← more then do
    let v ← value H req.opts stack
    match req.trailing with
    | .ignore => return v
    | .reject =>
      if ← more then do
        let found ← describeCurrent
        fail ("found extra data after the value: " ++ found)
      else return v
  else if req.eofOk then return req.eofValue
  else fail "unexpected end of input, expected a value"

/-- What a parse answers, and the source as it leaves it. -/
structure Answer (V E W : Type) where
  result : Except (Raised E) V
  world : W
  source : Source

def readJson (H : Host V E W) (req : Request V) (stack : Nat) (S : Source) (w : W) :
    Answer V E W :=
  match firstValue H req stack { S with world := w } with
  | .ok v r => ⟨.ok v, r.world, r.toSource⟩
  | .error e r => ⟨.error (raise req.flavor e), r.world, r.toSource⟩

end ProtoClojure.Json
