import ProtoClojure.Text.Decimal
import ProtoClojure.Text.Utf8

/-! The lexer: the tokens of a text. A loop over the text is recursion on it; where the source
takes several bytes at once, a count of bytes still to take is passed along. -/
namespace ProtoClojure.Reader
open Decimal

abbrev Bytes := List UInt8

abbrev LF : UInt8 := 0x0A
abbrev doubleQuote : UInt8 := 0x22
abbrev hash : UInt8 := 0x23
abbrev apostrophe : UInt8 := 0x27
abbrev dash : UInt8 := 0x2D
abbrev backslash : UInt8 := 0x5C

/-- The bytes of an ASCII literal. -/
def ascii (s : String) : Bytes := s.toList.map fun c => UInt8.ofNat c.toNat

/-! ### Characters -/

def continuationBytes : Nat → Nat → Bytes → Option Nat
  | 0, value, _ => some value
  | _ + 1, _, [] => none
  | n + 1, value, b :: s =>
    if b &&& 0xC0 = 0x80 then continuationBytes n (value * 64 + (b &&& 0x3F).toNat) s else none

/-- A length and the code point, or `none` when the bytes are not well-formed UTF-8. -/
def decodeUtf8 : Bytes → Option (Nat × Nat)
  | [] => none
  | b0 :: s =>
    if b0 < 0x80 then some (1, b0.toNat)
    else if b0 &&& 0xE0 = 0xC0 then wide 2 (b0 &&& 0x1F) 0x80 s
    else if b0 &&& 0xF0 = 0xE0 then wide 3 (b0 &&& 0x0F) 0x800 s
    else if b0 &&& 0xF8 = 0xF0 then wide 4 (b0 &&& 0x07) 0x10000 s
    else none
where
  wide (len : Nat) (bits : UInt8) (minimum : Nat) (s : Bytes) : Option (Nat × Nat) :=
    match continuationBytes (len - 1) bits.toNat s with
    | none => none
    | some value =>
      if value < minimum ∨ value > 0x10FFFF ∨ (0xD800 ≤ value ∧ value ≤ 0xDFFF) then none
      else some (len, value)

/-- The bytes it appends. -/
def appendUtf8 (cp : Nat) : Bytes :=
  if cp < 0x80 then [UInt8.ofNat cp]
  else if cp < 0x800 then
    [UInt8.ofNat (0xC0 ||| cp >>> 6), UInt8.ofNat (0x80 ||| (cp &&& 0x3F))]
  else if cp < 0x10000 then
    [UInt8.ofNat (0xE0 ||| cp >>> 12), UInt8.ofNat (0x80 ||| (cp >>> 6 &&& 0x3F)),
      UInt8.ofNat (0x80 ||| (cp &&& 0x3F))]
  else
    [UInt8.ofNat (0xF0 ||| cp >>> 18), UInt8.ofNat (0x80 ||| (cp >>> 12 &&& 0x3F)),
      UInt8.ofNat (0x80 ||| (cp >>> 6 &&& 0x3F)), UInt8.ofNat (0x80 ||| (cp &&& 0x3F))]

def isLetter (c : UInt8) : Bool := (0x41 ≤ c && c ≤ 0x5A) || (0x61 ≤ c && c ≤ 0x7A)

def isAlnum (c : UInt8) : Bool := isDigit c || isLetter c

def isAsciiSymbolChar (c : UInt8) : Bool := isAlnum c || (ascii "*+!-_'?<>=./:&$%").contains c

/-- Clojure treats commas as whitespace. -/
def blanks : Bytes := [0x20, 0x09, 0x0D, LF, 0x2C]

def isBlank (c : UInt8) : Bool := blanks.contains c

-- A fact about the bytes of a list is decided over the list, not over all 256 bytes.
instance (priority := 2000) decidableForallByte (p : UInt8 → Prop) [DecidablePred p] (l : Bytes) :
    Decidable (∀ c ∈ l, p c) :=
  List.decidableBAll p l

/-! ### Tokens -/

inductive LexError where
  | malformedNumber (text : Bytes)
  | unterminatedEscape
  | unterminatedString
  | unterminatedRegex
  | unicodeDigits
  | unpairedSurrogate
  | octalRange
  | unsupportedEscape (c : UInt8)
  | invalidToken (name : Bytes)
  | unknownSymbolic (name : Bytes)
  | reserved (name : Bytes)
  | noReaderFunction (tag : Bytes)
  | invalidByte (b : UInt8)
  | unexpectedCharacter (text : Bytes) (codePoint : Option Nat)

def hexDigits (n : Nat) (width : Nat) : Bytes :=
  let digits := (Nat.toDigits 16 n).map fun c => UInt8.ofNat c.toUpper.toNat
  List.replicate (width - digits.length) 0x30 ++ digits

def LexError.message : LexError → Bytes
  | .malformedNumber text => ascii "malformed number literal: " ++ text
  | .unterminatedEscape => ascii "unterminated string escape"
  | .unterminatedString => ascii "unterminated string literal"
  | .unterminatedRegex => ascii "unterminated regular expression literal"
  | .unicodeDigits => ascii "Invalid unicode escape: \\u needs four hexadecimal digits"
  | .unpairedSurrogate =>
    ascii "Invalid unicode escape: unpaired surrogate (UTF-8 strings cannot hold one)"
  | .octalRange => ascii "Octal escape sequence must be in range [0, 377]"
  | .unsupportedEscape c => ascii "Unsupported escape character: \\" ++ [c]
  | .invalidToken name => ascii "Invalid token: ##" ++ name
  | .unknownSymbolic name => ascii "Unknown symbolic value: " ++ name
  | .reserved name => ascii "reserved-for-later token: " ++ name
  | .noReaderFunction tag => ascii "No reader function for tag " ++ tag
  | .invalidByte b => ascii "invalid UTF-8 byte 0x" ++ hexDigits b.toNat 2
  | .unexpectedCharacter text none => ascii "unexpected character: " ++ text
  | .unexpectedCharacter text (some cp) =>
    ascii "unexpected character: " ++ text ++ ascii " (U+" ++ hexDigits cp 4 ++ ascii ")"

inductive FloatLiteral where
  | decimal (text : Bytes)
  | inf
  | negativeInf
  | nan

inductive Token where
  | integer (digits : Bytes)
  | float (literal : FloatLiteral)
  | string (text : Bytes)
  | symbol (text : Bytes)
  | lparen
  | rparen
  | lbracket
  | rbracket
  | lbrace
  | rbrace
  | hashLBrace
  | hashLParen
  | regex (source : Bytes)
  | quote
  | backtick
  | tilde
  | tildeAt
  | hashUnderscore
  | deref
  | endOfFile
  | error (e : LexError)

/-- Whether a `-` right after the token starts a symbol. -/
def Token.endsOperand : Token → Bool
  | .integer _ | .float _ | .string _ | .symbol _ | .rparen | .rbracket | .rbrace => true
  | _ => false

/-! ### Whitespace and comments -/

/-- What is left after whitespace and comments; `comment` inside one. -/
def skipBlank : Bool → Bytes → Bytes
  | _, [] => []
  | true, c :: s => if c = LF then skipBlank false s else skipBlank true s
  | false, c :: s =>
    if isBlank c then skipBlank false s
    else if c = 0x3B ∨ (c = hash ∧ s.head? = some 0x21) then skipBlank true s
    else c :: s

def skipWhitespaceAndComments (s : Bytes) : Bytes := skipBlank false s

/-! ### Symbols and numbers -/

section
variable (letters : Nat → Bool)

/-- The length of the symbol character at the front, 0 for anything else. `letters` are those of
the table of letters, combining marks and digits beyond ASCII. -/
def symbolCharLength : Bytes → Nat
  | [] => 0
  | c :: s =>
    if c < 0x80 then if isAsciiSymbolChar c then 1 else 0
    else match decodeUtf8 (c :: s) with
      | some (len, cp) => if letters cp then len else 0
      | none => 0

/-- The characters of a length, one after the other, and what follows; the first `skip` bytes are
the rest of one. -/
def takeChars (length : Bytes → Nat) : Nat → Bytes → Bytes × Bytes
  | _, [] => ([], [])
  | skip + 1, c :: s => ((takeChars length skip s).map (c :: ·) id)
  | 0, c :: s =>
    match length (c :: s) with
    | 0 => ([], c :: s)
    | n + 1 => (takeChars length n s).map (c :: ·) id

/-- The length of a character that makes a number malformed. -/
def trailLength : Bytes → Nat
  | [] => 0
  | c :: s =>
    if 0x80 ≤ c then symbolCharLength letters (c :: s)
    else if isAlnum c || c == 0x5F || c == 0x2E then 1 else 0

def digitLength : Bytes → Nat
  | [] => 0
  | c :: _ => if isDigit c then 1 else 0

def takeDigits (s : Bytes) : Bytes × Bytes := takeChars digitLength 0 s

/-- `.` and digits. -/
def takeFraction : Bytes → Bytes × Bytes
  | [] => ([], [])
  | c :: s =>
    if c = 0x2E ∧ digitLength s = 1 then (takeDigits s).map (c :: ·) id else ([], c :: s)

def takeSign : Bytes → Bytes × Bytes
  | [] => ([], [])
  | c :: s => if c = 0x2B ∨ c = dash then ([c], s) else ([], c :: s)

/-- The exponent, if there is one; without its digits it is an error. -/
def takeExponent : Bytes → Except Bytes (Bytes × Bytes)
  | [] => .ok ([], [])
  | c :: s =>
    if c = 0x65 ∨ c = 0x45 then
      let (sign, s) := takeSign s
      if digitLength s = 1 then .ok ((takeDigits s).map (c :: sign ++ ·) id)
      else .error (c :: sign)
    else .ok ([], c :: s)

/-- The suffix of a big integer. -/
def takeSuffix (isFloat : Bool) : Bytes → Bytes × Bytes
  | [] => ([], [])
  | c :: s => if !isFloat ∧ c = 0x4E then ([c], s) else ([], c :: s)

def numberToken (isFloat : Bool) (text : Bytes) : Token :=
  if isFloat then .float (.decimal text) else .integer text

def lexNumber (negative : Bool) (s : Bytes) : Token × Bytes :=
  let (digits, s) := takeDigits s
  let digits := if negative then dash :: digits else digits
  let (fraction, s) := takeFraction s
  match takeExponent s with
  | .error text =>
    (.error (.malformedNumber (digits ++ fraction ++ text ++ ascii "(missing exponent digits)")), s)
  | .ok (exponent, s) =>
    let isFloat := fraction ≠ [] || exponent ≠ []
    let (suffix, s) := takeSuffix isFloat s
    if trailLength letters s > 0 then
      let (bad, s) := takeChars (trailLength letters) 0 s
      (.error (.malformedNumber (digits ++ fraction ++ exponent ++ suffix ++ bad)), s)
    else (numberToken isFloat (digits ++ fraction ++ exponent), s)

end

/-! ### Strings and patterns -/

def hexDigit (h : UInt8) : Option Nat :=
  if isDigit h then some (h.toNat - 0x30)
  else if 0x61 ≤ h ∧ h ≤ 0x66 then some (h.toNat - 0x61 + 10)
  else if 0x41 ≤ h ∧ h ≤ 0x46 then some (h.toNat - 0x41 + 10)
  else none

def hex4 : Bytes → Option Nat
  | a :: b :: c :: d :: _ => do
    let a ← hexDigit a
    let b ← hexDigit b
    let c ← hexDigit c
    let d ← hexDigit d
    return ((a * 16 + b) * 16 + c) * 16 + d
  | _ => none

/-- What a `\u` escape stands for, and the bytes it takes after the `u`. -/
def unicodeEscape (s : Bytes) : Except LexError (Bytes × Nat) :=
  match hex4 s with
  | none => .error .unicodeDigits
  | some cp =>
    if 0xD800 ≤ cp ∧ cp ≤ 0xDBFF then
      -- A high surrogate: a low surrogate escape must follow.
      let lo := if (s.drop 4).take 2 = [backslash, 0x75] then hex4 (s.drop 6) else none
      match lo with
      | some lo =>
        if lo < 0xDC00 ∨ lo > 0xDFFF then .error .unpairedSurrogate
        else .ok (appendUtf8 (0x10000 + (cp - 0xD800) * 1024 + (lo - 0xDC00)), 10)
      | none => .error .unpairedSurrogate
    else if 0xDC00 ≤ cp ∧ cp ≤ 0xDFFF then .error .unpairedSurrogate
    else .ok (appendUtf8 cp, 4)

def isOctal (c : UInt8) : Bool := 0x30 ≤ c && c ≤ 0x37

def octalEscape (s : Bytes) : Except LexError (Bytes × Nat) :=
  let digits := (s.take 3).takeWhile isOctal
  let v := digits.foldl (fun v c => v * 8 + (c.toNat - 0x30)) 0
  if v > 255 then .error .octalRange else .ok (appendUtf8 v, digits.length)

/-- What the escape after a backslash stands for, and the bytes it takes. -/
def escape : Bytes → Except LexError (Bytes × Nat)
  | [] => .error .unterminatedEscape
  | c :: s =>
    if c = 0x6E then .ok ([LF], 1)
    else if c = 0x74 then .ok ([0x09], 1)
    else if c = 0x72 then .ok ([0x0D], 1)
    else if c = 0x62 then .ok ([0x08], 1)
    else if c = 0x66 then .ok ([0x0C], 1)
    else if c = backslash then .ok ([backslash], 1)
    else if c = doubleQuote then .ok ([doubleQuote], 1)
    else if c = 0x75 then (unicodeEscape s).map fun r => (r.1, r.2 + 1)
    else if isOctal c then octalEscape (c :: s)
    else .error (.unsupportedEscape c)

/-- The string's text, from its opening quote on, and what follows it. -/
def stringBody : Nat → Bytes → Except LexError (Bytes × Bytes)
  | _, [] => .error .unterminatedString
  | skip + 1, _ :: s => stringBody skip s
  | 0, c :: s =>
    if c = doubleQuote then .ok ([], s)
    else if c = backslash then
      match escape s with
      | .error e => .error e
      | .ok (text, n) => (stringBody n s).map fun r => (text ++ r.1, r.2)
    else (stringBody 0 s).map fun r => (c :: r.1, r.2)

def lexString (s : Bytes) : Token × Bytes :=
  match stringBody 0 s with
  | .ok (text, s) => (.string text, s)
  | .error e => (.error e, [])

/-- The characters as they are written; `escaped` after a backslash. -/
def regexBody : Bool → Bytes → Except LexError (Bytes × Bytes)
  | _, [] => .error .unterminatedRegex
  | true, c :: s => (regexBody false s).map fun r => (c :: r.1, r.2)
  | false, c :: s =>
    if c = doubleQuote then .ok ([], s)
    else (regexBody (c == backslash) s).map fun r => (c :: r.1, r.2)

def lexRegex (s : Bytes) : Token × Bytes :=
  match regexBody false s with
  | .ok (text, s) => (.regex text, s)
  | .error e => (.error e, [])

/-! ### The next token -/

section
variable (letters : Nat → Bool)

def takeSymbol (s : Bytes) : Bytes × Bytes := takeChars (symbolCharLength letters) 0 s

/-- After `##`. -/
def lexSymbolicValue (s : Bytes) : Token × Bytes :=
  let (name, s) := takeSymbol letters (skipWhitespaceAndComments s)
  if (name.head?.map fun c => c == 0x3A || isDigit c).getD true then (.error (.invalidToken name), s)
  else if name = ascii "Inf" then (.float .inf, s)
  else if name = ascii "-Inf" then (.float .negativeInf, s)
  else if name = ascii "NaN" then (.float .nan, s)
  else (.error (.unknownSymbolic name), s)

/-- After `#`. -/
def lexDispatch : Bytes → Token × Bytes
  | [] => (.error (.reserved [hash]), [])
  | la :: s =>
    if la = hash then lexSymbolicValue letters s
    else if la = 0x7B then (.hashLBrace, s)
    else if la = doubleQuote then lexRegex s
    else if la = 0x28 then (.hashLParen, s)
    else if la = 0x5F then (.hashUnderscore, s)
    else if la = apostrophe then (.error (.reserved [hash, la]), s)
    else if isLetter la then
      let (tag, s) := takeSymbol letters (la :: s)
      (.error (.noReaderFunction tag), s)
    else (.error (.reserved [hash]), la :: s)

/-- What no token starts with. -/
def unexpected (c : UInt8) (s : Bytes) : Token × Bytes :=
  match decodeUtf8 (c :: s) with
  | none => (.error (.invalidByte c), s)
  | some (len, cp) => (.error (.unexpectedCharacter ((c :: s).take len)
      (if len > 1 then some cp else none)), (c :: s).drop len)

/-- `#` continues a symbol. -/
def symbolNextLength (s : Bytes) : Nat :=
  if s.head? = some hash then 1 else symbolCharLength letters s

/-- A symbol, its first character of `n + 1` bytes. -/
def lexSymbol (c : UInt8) (n : Nat) (s : Bytes) : Token × Bytes :=
  let (text, s) := takeChars (symbolNextLength letters) n s
  (.symbol (c :: text), s)

def lexSymbolOrPunct (c : UInt8) (s : Bytes) : Token × Bytes :=
  if c = apostrophe then (.quote, s)
  else if c = 0x60 then (.backtick, s)
  else if c = 0x7E then
    match s with
    | [] => (.tilde, [])
    | d :: s => if d = 0x40 then (.tildeAt, s) else (.tilde, d :: s)
  else if c = 0x5E then (.error (.reserved [c]), s)
  else if c = hash then lexDispatch letters s
  else match symbolCharLength letters (c :: s) with
    | 0 => unexpected c s
    | n + 1 => lexSymbol letters c n s

/-- The single characters that are tokens. -/
def punctuation (c : UInt8) : Option Token :=
  if c = 0x28 then some .lparen
  else if c = 0x29 then some .rparen
  else if c = 0x5B then some .lbracket
  else if c = 0x5D then some .rbracket
  else if c = 0x7B then some .lbrace
  else if c = 0x7D then some .rbrace
  else if c = 0x40 then some .deref
  else none

/-- A `-` and a digit, which are the start of a number in primary position. -/
def startsNegative : Bytes → Bool
  | c :: d :: _ => c == dash && isDigit d
  | _ => false

/-- The token at the front, after the token `prev`. -/
def lexToken (prev : Token) (spaceBefore : Bool) : Bytes → Token × Bytes
  | [] => (.endOfFile, [])
  | c :: s =>
    match punctuation c with
    | some t => (t, s)
    | none =>
      if c = doubleQuote then lexString s
      else if isDigit c then lexNumber letters false (c :: s)
      else if startsNegative (c :: s) && (!prev.endsOperand || spaceBefore) then
        lexNumber letters true s
      else lexSymbolOrPunct letters c s

def next (prev : Token) (s : Bytes) : Token × Bytes :=
  let s' := skipWhitespaceAndComments s
  lexToken letters prev (s'.length ≠ s.length) s'

/-- No token is read after it. -/
def Token.isLast : Token → Bool
  | .endOfFile | .error _ => true
  | _ => false

def tokensLoop : Nat → Token → Bytes → List Token
  | 0, _, _ => []
  | fuel + 1, prev, s =>
    let (t, rest) := next letters prev s
    if t.isLast then [t] else t :: tokensLoop fuel t rest

/-- What `next` answers one time after the other, up to the end of the input or the first error:
nothing is read past either. -/
def tokens (s : Bytes) : List Token := tokensLoop letters (s.length + 1) .endOfFile s

end
end ProtoClojure.Reader
