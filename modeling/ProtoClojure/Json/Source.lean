import Mathlib.Data.List.Basic

/-! The text a JSON document is parsed from: a whole string, or a reader pulled a line at a
time. -/

namespace ProtoClojure.Json

abbrev Bytes := List UInt8

abbrev LF : UInt8 := 0x0A
abbrev quote : UInt8 := 0x22
abbrev backslash : UInt8 := 0x5C

/-- The lines of a text as a reader hands them out, without their ends. -/
def linesOf : Bytes → List Bytes
  | [] => []
  | c :: text =>
    if c = LF then [] :: linesOf text
    else match linesOf text with
      | [] => [[c]]
      | l :: ls => (c :: l) :: ls

structure Source where
  buf : Bytes
  pos : Nat := 0
  lineStart : Nat := 0
  line : Nat := 1
  reader : Option (List Bytes)     -- the lines still to come; none for a string

namespace Source

def ofString (text : Bytes) : Source := { buf := text, reader := none }

def ofReader (lines : List Bytes) : Source := { buf := [], reader := some lines }

/-- Restores the line end the reader strips. -/
def refill (S : Source) : Option Source :=
  match S.reader with
  | some (line :: lines) =>
    some { S with buf := line ++ [LF], pos := 0, lineStart := 0, reader := some lines }
  | _ => none

/-- The byte at the current position, none at the end of the input. -/
def peek (S : Source) : Option UInt8 × Source :=
  match S.buf[S.pos]? with
  | some c => (some c, S)
  | none => match S.refill with
    | some S' => (S'.buf[S'.pos]?, S')
    | none => (none, S)

def skip (n : Nat) (S : Source) : Source := { S with pos := S.pos + n }

def advance (S : Source) : Source := S.skip 1

def newline (S : Source) : Source := { S with line := S.line + 1, lineStart := S.pos }

/-- The bytes still buffered. -/
def data (S : Source) : Bytes := S.buf.drop S.pos

/-- Not a continuation byte. -/
def isLead (c : UInt8) : Bool := c &&& 0xC0 != 0x80

/-- Columns count characters. -/
def column (S : Source) : Nat := 1 + ((S.buf.take S.pos).drop S.lineStart).countP isLead

def where_ (S : Source) : String :=
  "line " ++ toString S.line ++ ", column " ++ toString S.column

/-- What the source has still to give, line ends included. -/
def unread (S : Source) : Bytes := S.data ++ (S.reader.getD []).flatMap (· ++ [LF])

end Source

end ProtoClojure.Json
