import ProtoClojure.Reader.Forms

/-! The arguments of an anonymous function, and what the tokens of its body stand for once they
have names. -/
namespace ProtoClojure.Reader
open Decimal

/-- A parameter, by its position from 0 on, or the rest. -/
inductive Arg where
  | param (position : Nat)
  | rest
deriving DecidableEq

/-- What the generated symbol begins with. -/
def Arg.stem : Arg → String
  | .param i => "p" ++ toString (i + 1)
  | .rest => "rest"

/-- How many parameters there must be. -/
def Arg.index : Arg → Nat
  | .param i => i + 1
  | .rest => 0

/-- `%`, `%&` and a decimal index from 1 to 20. -/
def argOf (text : Bytes) : Option Arg :=
  if text = ascii "%&" then some .rest
  else if text = ascii "%" then some (.param 0)
  else if text.head? = some 0x25 ∧ text.tail.all isDigit ∧ 1 ≤ digitsValue text.tail ∧
      digitsValue text.tail ≤ 20 then
    some (.param (digitsValue text.tail - 1))
  else none

def Token.arg : Token → Option Arg
  | .symbol text => argOf text
  | _ => none

/-- The arguments that occur among tokens. -/
def argsOf (toks : List Token) : List Arg := toks.filterMap Token.arg

/-- The largest index used. -/
def highest (args : List Arg) : Nat := (args.map Arg.index).foldr max 0

@[simp] theorem argsOf_append (ts us : List Token) : argsOf (ts ++ us) = argsOf ts ++ argsOf us :=
  List.filterMap_append

@[simp] theorem highest_nil : highest [] = 0 := rfl

@[simp] theorem highest_cons (a : Arg) (args : List Arg) :
    highest (a :: args) = max a.index (highest args) := rfl

theorem highest_append (args args' : List Arg) :
    highest (args ++ args') = max (highest args) (highest args') := by
  induction args with
  | nil => exact (Nat.zero_max _).symm
  | cons a args ih => rw [List.cons_append, highest_cons, highest_cons, ih, Nat.max_assoc]

/-! ### What tokens stand for -/

section
variable (H : ReaderHost) (sym : Arg → String)

/-- A symbol that is no argument. -/
def plainSymbol (text : Bytes) : Form :=
  if text = ascii "nil" then .nil
  else if text = ascii "true" then .bool true
  else if text = ascii "false" then .bool false
  else .name (H.text text)

def symbolForm (text : Bytes) : Form :=
  match argOf text with
  | some a => .name (sym a)
  | none => plainSymbol H text

/-- A token that is a form by itself. -/
def atomForm : Token → Option Form
  | .integer digits => some (.int (integerValue digits))
  | .float literal => some (.float (H.double literal))
  | .string text => some (.str (H.text text))
  | .symbol text => some (symbolForm H sym text)
  | .regex source => some (.pattern (H.text source))
  | _ => none

/-- The collection an opening token starts. -/
def Token.collection : Token → Option (Closing × (List Form → Form))
  | .lparen => some (.paren, .list)
  | .lbracket => some (.bracket, .vector)
  | .lbrace => some (.brace, .map)
  | .hashLBrace => some (.brace, .set)
  | _ => none

/-- The symbol that heads what a reader macro writes. -/
def Token.wrapper : Token → Option String
  | .deref => some "clojure.core/deref"
  | .quote => some "quote"
  | .tilde => some "clojure.core/unquote"
  | .tildeAt => some "clojure.core/unquote-splicing"
  | _ => none

/-- The tokens stand for these forms, one after the other, where an argument stands for its
symbol. A macro takes the form after it; a syntax-quote writes the expansion of that form. -/
inductive ReadsAs : List Token → List Form → Prop
  | nil : ReadsAs [] []
  | atom {tok : Token} {form : Form} {toks : List Token} {forms : List Form} :
    atomForm H sym tok = some form → ReadsAs toks forms → ReadsAs (tok :: toks) (form :: forms)
  | collection {opening closing : Token} {close : Closing} {make : List Form → Form}
    {body toks : List Token} {items forms : List Form} :
    opening.collection = some (close, make) → closing.closing = some close →
    ReadsAs body items → ReadsAs toks forms →
    ReadsAs (opening :: body ++ closing :: toks) (make items :: forms)
  | wrapped {tok : Token} {head : String} {toks : List Token} {form : Form} {forms : List Form} :
    tok.wrapper = some head → ReadsAs toks (form :: forms) →
    ReadsAs (tok :: toks) (.list [.name head, form] :: forms)
  | syntaxQuoted {ids : Nat → Nat} {x : Expansion} {toks : List Token} {form expanded : Form}
    {forms : List Form} : readSyntaxQuote H.resolver ids form = .ok (expanded, x) →
    ReadsAs toks (form :: forms) → ReadsAs (.backtick :: toks) (expanded :: forms)
  | discarded {toks : List Token} {form : Form} {forms : List Form} :
    ReadsAs toks (form :: forms) → ReadsAs (.hashUnderscore :: toks) forms

end
end ProtoClojure.Reader
