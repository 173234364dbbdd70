import ProtoClojure.Json.Source
import ProtoClojure.Text.Decimal
import Mathlib.Data.List.Forall2

/-! JSON texts as RFC 8259 writes them. Raw control characters may stand in a string, and the
surrogates of `\u` escapes come in pairs. -/

namespace ProtoClojure.Json
open Decimal

/-- What a JSON text says. -/
inductive Doc where
  | null
  | bool (b : Bool)
  | integer (n : Int)
  | decimal (negative : Bool) (x : Numeral)
  | string (content : Bytes)
  | array (items : List Doc)
  | object (members : List (Bytes × Doc))

namespace Doc

mutual
def depth : Doc → Nat
  | .array items => itemsDepth items + 1
  | .object members => membersDepth members + 1
  | .null | .bool _ | .integer _ | .decimal .. | .string _ => 1
def itemsDepth : List Doc → Nat
  | [] => 0
  | d :: ds => max d.depth (itemsDepth ds)
def membersDepth : List (Bytes × Doc) → Nat
  | [] => 0
  | (_, d) :: ms => max d.depth (membersDepth ms)
end

theorem depth_pos (d : Doc) : 0 < d.depth := by
  cases d <;> rw [depth] <;> omega

theorem itemsDepth_le {n : Nat} {ds : List Doc} :
    itemsDepth ds ≤ n ↔ ∀ d ∈ ds, d.depth ≤ n := by
  induction ds with
  | nil => simp [itemsDepth]
  | cons d ds ih => rw [itemsDepth, Nat.max_le, ih, List.forall_mem_cons]

theorem membersDepth_le {n : Nat} {ms : List (Bytes × Doc)} :
    membersDepth ms ≤ n ↔ ∀ m ∈ ms, m.2.depth ≤ n := by
  induction ms with
  | nil => simp [membersDepth]
  | cons m ms ih => rw [membersDepth, Nat.max_le, ih, List.forall_mem_cons]

end Doc

/-! ### Blanks and strings -/

def Blank (ws : Bytes) : Prop := ∀ c ∈ ws, c = 0x20 ∨ c = 0x09 ∨ c = 0x0A ∨ c = 0x0D

def lowerHex : Bytes :=
  [0x30, 0x31, 0x32, 0x33, 0x34, 0x35, 0x36, 0x37, 0x38, 0x39, 0x61, 0x62, 0x63, 0x64, 0x65, 0x66]

def upperHex : Bytes :=
  [0x30, 0x31, 0x32, 0x33, 0x34, 0x35, 0x36, 0x37, 0x38, 0x39, 0x41, 0x42, 0x43, 0x44, 0x45, 0x46]

def IsHex (c : UInt8) (d : Nat) : Prop := lowerHex[d]? = some c ∨ upperHex[d]? = some c

def hexValue (ds : List Nat) (v : Nat) : Nat := ds.foldl (fun v d => v * 16 + d) v

def Hex4 (q : Bytes) (n : Nat) : Prop :=
  ∃ ds, List.Forall₂ IsHex q ds ∧ q.length = 4 ∧ n = hexValue ds 0

/-- The letter after a backslash and the character it stands for. -/
def simpleEscapes : List (UInt8 × UInt8) :=
  [(quote, quote), (backslash, backslash), (0x2F, 0x2F), (0x62, 0x08), (0x66, 0x0C), (0x6E, LF),
    (0x72, 0x0D), (0x74, 0x09)]

def encoded (n : Nat) : Bytes := String.utf8EncodeChar (Char.ofNat n)

/-- `t` between quotes stands for `o`. -/
inductive StringText : Bytes → Bytes → Prop where
  | nil : StringText [] []
  | plain {c : UInt8} {t o : Bytes} (hq : c ≠ quote) (hb : c ≠ backslash) (h : StringText t o) :
      StringText (c :: t) (c :: o)
  | simple {x b : UInt8} {t o : Bytes} (hx : (x, b) ∈ simpleEscapes) (h : StringText t o) :
      StringText (backslash :: x :: t) (b :: o)
  | unicode {q t o : Bytes} {n : Nat} (hn : Hex4 q n) (hs : n < 0xD800 ∨ 0xDFFF < n)
      (h : StringText t o) : StringText (backslash :: 0x75 :: (q ++ t)) (encoded n ++ o)
  | surrogates {q q' t o : Bytes} {hi lo : Nat} (hhi : Hex4 q hi) (hlo : Hex4 q' lo)
      (hhigh : 0xD800 ≤ hi ∧ hi ≤ 0xDBFF) (hlow : 0xDC00 ≤ lo ∧ lo ≤ 0xDFFF)
      (h : StringText t o) :
      StringText (backslash :: 0x75 :: (q ++ backslash :: 0x75 :: (q' ++ t)))
        (encoded (0x10000 + (hi - 0xD800) * 0x400 + (lo - 0xDC00)) ++ o)

/-! ### Values -/

def signText (negative : Bool) : Bytes := if negative then [0x2D] else []

/-- No digit may follow a leading zero. -/
def NoLeadingZero (int : Bytes) : Prop := int = [0x30] ∨ int.head? ≠ some 0x30

/-- Items with blanks around them and commas between them. -/
inductive Listing {α : Type} (Item : Bytes → α → Prop) : Bytes → List α → Prop where
  | last {before text after : Bytes} {a : α} (hb : Blank before) (h : Item text a)
      (ha : Blank after) : Listing Item (before ++ (text ++ after)) [a]
  | more {before text after rest : Bytes} {a : α} {as : List α} (hb : Blank before)
      (h : Item text a) (ha : Blank after) (hrest : Listing Item rest as) :
      Listing Item (before ++ (text ++ (after ++ 0x2C :: rest))) (a :: as)

theorem Blank.append {ws ws' : Bytes} (h : Blank ws) (h' : Blank ws') : Blank (ws ++ ws') :=
  List.forall_mem_append.mpr ⟨h, h'⟩

theorem Listing.blank {α : Type} {Item : Bytes → α → Prop} {t ws : Bytes} {as : List α}
    (h : Listing Item t as) (hws : Blank ws) : Listing Item (ws ++ t) as := by
  cases h with
  | last hb h ha =>
    rw [← List.append_assoc]
    exact .last (hws.append hb) h ha
  | more hb h ha hrest =>
    rw [← List.append_assoc]
    exact .more (hws.append hb) h ha hrest

/-- A key, a colon and a value. -/
inductive Pair (Value : Bytes → Doc → Prop) : Bytes → Bytes × Doc → Prop where
  | mk {t k before after text : Bytes} {doc : Doc} (hk : StringText t k) (hb : Blank before)
      (ha : Blank after) (h : Value text doc) :
      Pair Value (quote :: (t ++ quote :: (before ++ 0x3A :: (after ++ text)))) (k, doc)

inductive IsValue : Bytes → Doc → Prop where
  | null : IsValue [0x6E, 0x75, 0x6C, 0x6C] .null
  | true_ : IsValue [0x74, 0x72, 0x75, 0x65] (.bool true)
  | false_ : IsValue [0x66, 0x61, 0x6C, 0x73, 0x65] (.bool false)
  | integer {int : Bytes} (negative : Bool) (hne : int ≠ []) (hd : ∀ c ∈ int, isDigit c = true)
      (hz : NoLeadingZero int) :
      IsValue (signText negative ++ int) (.integer (integerValue (signText negative ++ int)))
  | decimal {t : Bytes} {x : Numeral} (negative : Bool) (hx : x.Spells t) (hne : t ≠ x.int)
      (hz : NoLeadingZero x.int) : IsValue (signText negative ++ t) (.decimal negative x)
  | string {t o : Bytes} (h : StringText t o) : IsValue (quote :: (t ++ [quote])) (.string o)
  | emptyArray {ws : Bytes} (hw : Blank ws) : IsValue (0x5B :: (ws ++ [0x5D])) (.array [])
  | array {t : Bytes} {ds : List Doc} (h : Listing IsValue t ds) :
      IsValue (0x5B :: (t ++ [0x5D])) (.array ds)
  | emptyObject {ws : Bytes} (hw : Blank ws) : IsValue (0x7B :: (ws ++ [0x7D])) (.object [])
  | object {t : Bytes} {ms : List (Bytes × Doc)} (h : Listing (Pair IsValue) t ms) :
      IsValue (0x7B :: (t ++ [0x7D])) (.object ms)

/-- One value, with blanks around it. -/
def JsonText (s : Bytes) (doc : Doc) : Prop :=
  ∃ before text after, s = before ++ (text ++ after) ∧ Blank before ∧ IsValue text doc ∧
    Blank after

end ProtoClojure.Json
