/-! The forms the compiler reads: what the reader yields or a macro answers. -/
namespace ProtoClojure

/-- A symbol and a keyword are both named values, told apart by spelling: a keyword's
starts with a colon. A list form is any seq. The entries of a map form are
alternating keys and values in the order of `mapFormEntries`, the elements of a set
form in its walk order. -/
inductive Form where
  | nil
  | bool (b : Bool)
  | int (i : Int)
  | float (bits : UInt64)
  | str (s : String)
  | name (spelling : String)
  | list (items : List Form)
  | vector (items : List Form)
  | map (entries : List Form)
  | set (elems : List Form)
  | pattern (source : String)
  | other (id : Nat)              -- a value no branch of the compiler takes
  deriving Repr, Inhabited

namespace Form

def isVector : Form → Bool
  | vector _ => true
  | _ => false

def isMap : Form → Bool
  | map _ => true
  | _ => false

def isName : Form → Bool
  | name _ => true
  | _ => false

/-- `nameOf`, empty for a form that is no name. -/
def nameOf : Form → String
  | name s => s
  | _ => ""

def isStr : Form → Bool
  | str _ => true
  | _ => false

def isNumber : Form → Bool
  | int _ | float _ => true
  | _ => false

end Form

/-- `s[0] == ':'`, which is how a keyword is spelled. -/
def isKeywordName (s : String) : Bool :=
  match s.toList with
  | ':' :: _ => true
  | _ => false

def Form.isKeyword (f : Form) : Bool := f.isName && isKeywordName f.nameOf

/-- `a b c d ...` as pairs; a last item without a partner is dropped. -/
def pairUp {α : Type} : List α → List (α × α)
  | a :: b :: rest => (a, b) :: pairUp rest
  | _ => []

end ProtoClojure
