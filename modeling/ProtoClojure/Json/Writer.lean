import ProtoClojure.Json.Parser
import ProtoClojure.Runtime.FormatDouble

/-! The JSON writer. -/

namespace ProtoClojure.Json
open Decimal

inductive SequenceKind where
  | vector
  | seq
  | set
deriving DecidableEq

/-- Values as the writer tells them apart; the entries of a map are in the order it visits
them. -/
inductive Datum (D : Type) where
  | nil
  | bool (b : Bool)
  | integer (n : Int)
  | double (d : D)
  | string (text : Bytes)
  | named (spelling : Bytes)                 -- a keyword, with its colon, or a symbol
  | sequence (kind : SequenceKind) (items : List (Datum D))
  | map (entries : List (Datum D × Datum D))
  | other (id : Nat) (typeName : String)

structure WriteOptions (D : Type) where
  flavor : Flavor := .cheshire
  pretty : Bool := false
  escapeNonAscii : Bool := false
  escapeSlash : Bool := false
  escapeJsSeparators : Bool := false
  keyFn : Option (Datum D) := none

/-- The runtime the writer calls: `printed` is the text `printValueTo` prints. -/
structure Printer (D E W : Type) where
  floats : Floats D
  printed : Datum D → Bytes
  invoke : Datum D → List (Datum D) → W → Except E (Datum D) × W

abbrev Write (E W : Type) := EStateM (Raised E) W

variable {D E W : Type}

/-! ### Strings -/

def hexChar (flavor : Flavor) (d : Nat) : UInt8 :=
  if d < 10 then UInt8.ofNat (0x30 + d)
  else match flavor with
    | .cheshire => UInt8.ofNat (0x41 + (d - 10))
    | .dataJson => UInt8.ofNat (0x61 + (d - 10))

def hexEscape (o : WriteOptions D) (u : Nat) : Bytes :=
  backslash :: 0x75 :: [12, 8, 4, 0].map fun shift => hexChar o.flavor (u >>> shift &&& 0xF)

def escapeAscii (o : WriteOptions D) (c : UInt8) : Bytes :=
  if c = quote then [backslash, quote]
  else if c = backslash then [backslash, backslash]
  else if c = 0x08 then [backslash, 0x62]
  else if c = 0x0C then [backslash, 0x66]
  else if c = LF then [backslash, 0x6E]
  else if c = 0x0D then [backslash, 0x72]
  else if c = 0x09 then [backslash, 0x74]
  else if c = 0x2F then if o.escapeSlash then [backslash, 0x2F] else [0x2F]
  else if c < 0x20 then hexEscape o c.toNat
  else [c]

/-- The length a first byte announces and its bits of the code point. -/
def leadByte (c : UInt8) : Nat × Nat :=
  if 0xC2 ≤ c ∧ c ≤ 0xDF then (2, (c &&& 0x1F).toNat)
  else if 0xE0 ≤ c ∧ c ≤ 0xEF then (3, (c &&& 0x0F).toNat)
  else if 0xF0 ≤ c ∧ c ≤ 0xF4 then (4, (c &&& 0x07).toNat)
  else (1, 0xFFFD)

def continuation (cp : Nat) : Bytes → Option Nat
  | [] => some cp
  | c :: s =>
    if c &&& 0xC0 ≠ 0x80 then none
    else continuation (cp <<< 6 ||| (c &&& 0x3F).toNat) s

/-- One sequence: its code point and how many bytes follow the first; none for a malformed
one. -/
def decodeUtf8 (c : UInt8) (s : Bytes) : Option (Nat × Nat) :=
  if 1 < (leadByte c).1 ∧ (leadByte c).1 ≤ s.length + 1 then
    (continuation (leadByte c).2 (s.take ((leadByte c).1 - 1))).map (·, (leadByte c).1 - 1)
  else none

def isSeparator (cp : Nat) : Bool := cp = 0x2028 || cp = 0x2029

def escapeCodePoint (o : WriteOptions D) (cp : Nat) : Bytes :=
  if 0x10000 ≤ cp then
    hexEscape o (0xD800 + (cp - 0x10000) >>> 10) ++
      hexEscape o (0xDC00 + (cp - 0x10000 &&& 0x3FF))
  else hexEscape o cp

/-- A malformed sequence is U+FFFD. -/
def escapeSequence (o : WriteOptions D) (c : UInt8) (s : Bytes) : Bytes × Nat :=
  match decodeUtf8 c s with
  | some (cp, n) =>
    if o.escapeNonAscii || (isSeparator cp && o.escapeJsSeparators) then (escapeCodePoint o cp, n)
    else (c :: s.take n, n)
  | none => if o.escapeNonAscii then (hexEscape o 0xFFFD, 0) else ([0xEF, 0xBF, 0xBD], 0)

def stringLoopText (o : WriteOptions D) : Nat → Bytes → Bytes
  | 0, _ => []
  | _, [] => []
  | n + 1, c :: s =>
    if c < 0x80 then escapeAscii o c ++ stringLoopText o n s
    else if !o.escapeNonAscii && !o.escapeJsSeparators then c :: stringLoopText o n s
    else
      (escapeSequence o c s).1 ++ stringLoopText o n (s.drop (escapeSequence o c s).2)

def stringText (o : WriteOptions D) (s : Bytes) : Bytes :=
  quote :: (stringLoopText o s.length s ++ [quote])

/-! ### Keys -/

def namedText (o : WriteOptions D) (spelling : Bytes) : Bytes :=
  let s := if spelling.head? = some 0x3A then spelling.drop 1 else spelling
  match o.flavor with
  | .cheshire => s
  | .dataJson =>
    let slash := (s.takeWhile (· ≠ 0x2F)).length
    if 0 < slash ∧ slash + 1 < s.length then s.drop (slash + 1) else s

def invokeKeyFn (P : Printer D E W) (f k : Datum D) : Write E W Bytes := fun w =>
  match P.invoke f [k] w with
  | (.error e, w) => .error (.thrown e) w
  | (.ok (.string s), w) => .ok s w
  | (.ok r, w) => .ok (P.printed r) w

/-- The text an object key is written as. -/
def plainKeyText (P : Printer D E W) (o : WriteOptions D) : Datum D → Bytes
  | .nil => []
  | .string s => s
  | .named s => namedText o s
  | k => P.printed k

def isKeyword : Datum D → Bool
  | .named (0x3A :: _) => true
  | _ => false

def keyText (P : Printer D E W) (o : WriteOptions D) (k : Datum D) : Write E W Bytes :=
  match o.keyFn, k, o.flavor with
  | none, .nil, .dataJson => throw (.classed "Exception" "JSON object properties may not be nil")
  | none, k, _ => pure (plainKeyText P o k)
  | some f, k, .dataJson => invokeKeyFn P f k
  | some f, k, .cheshire => if isKeyword k then invokeKeyFn P f k else pure (plainKeyText P o k)

/-! ### Values -/

def newlineIndent (depth : Nat) : Bytes := LF :: List.replicate (2 * depth) 0x20

def elements (o : WriteOptions D) (value : Datum D → Write E W Bytes) :
    Bool → List (Datum D) → Write E W Bytes
  | _, [] => pure []
  | first, e :: es => do
    let separator : Bytes :=
      if first then (if o.pretty then [0x20] else [])
      else if o.pretty then [0x2C, 0x20] else [0x2C]
    let text ← value e
    let rest ← elements o value false es
    return separator ++ text ++ rest

def sequence (o : WriteOptions D) (value : Datum D → Write E W Bytes) (items : List (Datum D)) :
    Write E W Bytes := do
  let text ← elements o value true items
  return [0x5B] ++ text ++ (if o.pretty then [0x20] else []) ++ [0x5D]

def entries (P : Printer D E W) (o : WriteOptions D) (depth : Nat)
    (value : Datum D → Write E W Bytes) : Bool → List (Datum D × Datum D) → Write E W Bytes
  | _, [] => pure []
  | first, (k, v) :: es => do
    let separator : Bytes := if first then [] else [0x2C]
    let key ← keyText P o k
    let text ← value v
    let rest ← entries P o depth value false es
    return separator ++ (if o.pretty then newlineIndent depth else []) ++ stringText o key ++
      (if o.pretty then [0x20, 0x3A, 0x20] else [0x3A]) ++ text ++ rest

def map (P : Printer D E W) (o : WriteOptions D) (depth : Nat)
    (value : Datum D → Write E W Bytes) (m : List (Datum D × Datum D)) : Write E W Bytes :=
  if m = [] then return if o.pretty then [0x7B, 0x20, 0x7D] else [0x7B, 0x7D]
  else do
    let text ← entries P o (depth + 1) value true m
    return [0x7B] ++ text ++ (if o.pretty then newlineIndent depth else []) ++ [0x7D]

def doubleText (P : Printer D E W) (o : WriteOptions D) (d : D) : Write E W Bytes :=
  if !P.floats.isNaN d && !P.floats.isInf d then pure (formatDouble P.floats d)
  else match o.flavor with
    | .dataJson => throw (.classed "Exception"
        (if P.floats.isNaN d then "JSON error: cannot write Double NaN"
          else "JSON error: cannot write infinite Double"))
    | .cheshire => pure (
        if P.floats.isNaN d then [quote, 0x4E, 0x61, 0x4E, quote]
        else if P.floats.positive d then
          [quote, 0x49, 0x6E, 0x66, 0x69, 0x6E, 0x69, 0x74, 0x79, quote]
        else [quote, 0x2D, 0x49, 0x6E, 0x66, 0x69, 0x6E, 0x69, 0x74, 0x79, quote])

def withoutArticle (typeName : String) : String :=
  if typeName.startsWith "a " then (typeName.drop 2).toString
  else if typeName.startsWith "an " then (typeName.drop 3).toString
  else typeName

def cannotWrite (o : WriteOptions D) (typeName : String) : Write E W Bytes :=
  match o.flavor with
  | .cheshire => throw (.classed "IOException"
      ("Cannot JSON encode object of class: " ++ withoutArticle typeName))
  | .dataJson => throw (.classed "Exception"
      ("Don't know how to write JSON of " ++ withoutArticle typeName))

/-- `stack` is how many levels of nesting the native stack still allows, `depth` how many
objects enclose the value. -/
def valueText (P : Printer D E W) (o : WriteOptions D) :
    (stack depth : Nat) → Datum D → Write E W Bytes
  | 0, _, _ => throw .stackOverflow
  | stack + 1, depth, v =>
    match v with
    | .nil => pure [0x6E, 0x75, 0x6C, 0x6C]
    | .bool true => pure [0x74, 0x72, 0x75, 0x65]
    | .bool false => pure [0x66, 0x61, 0x6C, 0x73, 0x65]
    | .integer n => pure (intText n)
    | .double d => doubleText P o d
    | .string s => pure (stringText o s)
    | .map m => map P o depth (valueText P o stack (depth + 1)) m
    | .sequence _ items => sequence o (valueText P o stack depth) items
    | .named s => pure (stringText o (namedText o s))
    | .other _ typeName => cannotWrite o typeName

def writeJson (P : Printer D E W) (o : WriteOptions D) (stack : Nat) (v : Datum D) :
    Write E W Bytes := valueText P o stack 0 v

end ProtoClojure.Json
