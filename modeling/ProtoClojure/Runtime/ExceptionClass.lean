/-! The built-in exception classes. -/
namespace ProtoClojure

structure ExceptionClass where
  name : String
  package : String
  parent : Option Nat

def kExceptionClasses : List ExceptionClass :=
  [⟨"Throwable", "java.lang", none⟩, ⟨"Exception", "java.lang", some 0⟩,
    ⟨"Error", "java.lang", some 0⟩, ⟨"RuntimeException", "java.lang", some 1⟩,
    ⟨"ExceptionInfo", "clojure.lang", some 3⟩, ⟨"ArithmeticException", "java.lang", some 3⟩,
    ⟨"ClassCastException", "java.lang", some 3⟩,
    ⟨"IllegalArgumentException", "java.lang", some 3⟩,
    ⟨"ArityException", "clojure.lang", some 7⟩, ⟨"NumberFormatException", "java.lang", some 7⟩,
    ⟨"IllegalStateException", "java.lang", some 3⟩,
    ⟨"IndexOutOfBoundsException", "java.lang", some 3⟩,
    ⟨"StringIndexOutOfBoundsException", "java.lang", some 11⟩,
    ⟨"NullPointerException", "java.lang", some 3⟩,
    ⟨"UnsupportedOperationException", "java.lang", some 3⟩, ⟨"IOException", "java.io", some 1⟩,
    ⟨"FileNotFoundException", "java.io", some 15⟩, ⟨"SocketException", "java.net", some 15⟩,
    ⟨"ConnectException", "java.net", some 17⟩, ⟨"SocketTimeoutException", "java.net", some 15⟩,
    ⟨"UnknownHostException", "java.net", some 15⟩,
    ⟨"ExecutionException", "java.util.concurrent", some 1⟩,
    ⟨"StackOverflowError", "java.lang", some 2⟩,
    ⟨"PatternSyntaxException", "java.util.regex", some 7⟩]

def kThrowableClassId : Nat := 0
def kExceptionClassId : Nat := 1

/-- The class a name spells, bare or with its package. -/
def exceptionClassId (name : String) : Option Nat :=
  kExceptionClasses.findIdx? fun c => name == c.name || name == c.package ++ "." ++ c.name

/-- Whether `ancestor` is `cls` or on its chain of parents. -/
def exceptionClassIsA (cls ancestor : Nat) : Bool :=
  walk kExceptionClasses.length cls
where
  walk : Nat → Nat → Bool
    | 0, _ => false
    | fuel + 1, cls =>
      match kExceptionClasses[cls]? with
      | none => false
      | some c =>
        cls == ancestor ||
          match c.parent with
          | none => false
          | some p => walk fuel p

end ProtoClojure
