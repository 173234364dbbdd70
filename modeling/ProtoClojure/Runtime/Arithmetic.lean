import ProtoClojure.Runtime.Numbers

/-! The arithmetic and comparison primitives, and the opcodes that stand for them. -/
namespace ProtoClojure.Maps
open Numbers

inductive BinaryOp where
  | add
  | sub
  | mul
  | lt
  | le
  | gt
  | ge
  | eq
deriving DecidableEq

def binaryOpName : BinaryOp → String
  | .add => "+"
  | .sub => "-"
  | .mul => "*"
  | .lt => "<"
  | .le => "<="
  | .gt => ">"
  | .ge => ">="
  | .eq => "="

variable (K : Kernel)

/-! ### The primitives -/

def numberArg (v : Value) (primName : String) : Result Value :=
  if v.isNumber then .ok v else K.throwNotANumber primName v

def checkNumbers (args : List Value) (primName : String) : Result Unit :=
  args.forM fun v => do
    let _ ← numberArg K v primName

/-- The left fold of two arguments or more. -/
def numericFold (op : Value → Value → Value) : List Value → Value
  | [] => .nil
  | acc :: args => args.foldl op acc

def prim_plus (args : List Value) : Result Value := do
  checkNumbers K args "+"
  match args with
  | [] => .ok (.embedded (.smallInt 0))
  | [x] => .ok x
  | args => .ok (numericFold K.add args)

def prim_minus (args : List Value) : Result Value := do
  if args.length = 0 then .error (.error "- : needs at least one arg")
  else
    checkNumbers K args "-"
    match args with
    | [x] =>
      .ok (if x.isFloat then K.fromDouble (K.double x).neg
        else K.subtract (.embedded (.smallInt 0)) x)
    | args => .ok (numericFold K.subtract args)

def prim_mul (args : List Value) : Result Value := do
  checkNumbers K args "*"
  match args with
  | [] => .ok (.embedded (.smallInt 1))
  | [x] => .ok x
  | args => .ok (numericFold K.multiply args)

/-- The rest of a chain, pair by pair, up to the first that fails. -/
def chainFrom (name : String) (holdsForDoubles : Double → Double → Bool)
    (holdsForSign : Int → Bool) (prev : Value) : List Value → Result Value
  | [] => .ok (fromBool true)
  | cur :: args => do
    let cur ← numberArg K cur name
    let holds :=
      if prev.asInteger.isSome && cur.asInteger.isSome then
        holdsForSign (K.compareIntegers prev cur)
      else holdsForDoubles (K.double prev) (K.double cur)
    if holds then chainFrom name holdsForDoubles holdsForSign cur args else .ok (fromBool false)

def monotonicChain (args : List Value) (name : String) (holdsForDoubles : Double → Double → Bool)
    (holdsForSign : Int → Bool) : Result Value :=
  match args with
  | [] | [_] => .ok (fromBool true)
  | prev :: args => do
    let prev ← numberArg K prev name
    chainFrom K name holdsForDoubles holdsForSign prev args

def prim_lt (args : List Value) : Result Value :=
  monotonicChain K args "<" doubleLt fun sign => sign < 0

def prim_le (args : List Value) : Result Value :=
  monotonicChain K args "<=" doubleLe fun sign => sign ≤ 0

def prim_gt (args : List Value) : Result Value :=
  monotonicChain K args ">" (fun x y => doubleLt y x) fun sign => sign > 0

def prim_ge (args : List Value) : Result Value :=
  monotonicChain K args ">=" (fun x y => doubleLe y x) fun sign => sign ≥ 0

/-- Over every adjacent pair. -/
def equalChain : List Value → Bool
  | a :: b :: args =>
    if valuesEqual K.core K.partialCompare a b then equalChain (b :: args) else false
  | _ => true

def prim_eq (args : List Value) : Result Value := .ok (fromBool (equalChain K args))

def primitive : BinaryOp → List Value → Result Value
  | .add => prim_plus K
  | .sub => prim_minus K
  | .mul => prim_mul K
  | .lt => prim_lt K
  | .le => prim_le K
  | .gt => prim_gt K
  | .ge => prim_ge K
  | .eq => prim_eq K

/-! ### The opcodes -/

/-- Arithmetic in `long long`. -/
def wrap64 (n : Int) : Int := n.bmod (2 ^ 64)

def smallIntFitsLong (v : Int) : Bool := v ≥ -2 ^ 53 && v ≤ 2 ^ 53 - 1

/-- Multiplication is done inline for operands below this. -/
def kHalf : Int := 2 ^ 26

/-- Both operands are tagged integers: `a` and `b` are their words, `av` and `bv` their values. -/
def fastPath (op : BinaryOp) (a b : Value) (av bv : Int) : Value :=
  match op with
  | .add =>
    let s := wrap64 (av + bv)
    if smallIntFitsLong s then .embedded (.smallInt s) else K.add a b
  | .sub =>
    let s := wrap64 (av - bv)
    if smallIntFitsLong s then .embedded (.smallInt s) else K.subtract a b
  | .mul =>
    if av ≤ -kHalf || av ≥ kHalf || bv ≤ -kHalf || bv ≥ kHalf then K.multiply a b
    else
      let s := wrap64 (av * bv)
      if smallIntFitsLong s then .embedded (.smallInt s) else K.multiply a b
  | .lt => fromBool (av < bv)
  | .le => fromBool (av ≤ bv)
  | .gt => fromBool (av > bv)
  | .ge => fromBool (av ≥ bv)
  | .eq => fromBool (av == bv)

/-- What protoCore computes of two numbers, and `=` of any two values. -/
def slowPath (op : BinaryOp) (a b : Value) : Value :=
  match op with
  | .add => K.add a b
  | .sub => K.subtract a b
  | .mul => K.multiply a b
  | .lt => fromBool (K.partialCompare a b == some .lt)
  | .le => fromBool (K.partialCompare a b == some .lt || K.partialCompare a b == some .eq)
  | .gt => fromBool (K.partialCompare a b == some .gt)
  | .ge => fromBool (K.partialCompare a b == some .gt || K.partialCompare a b == some .eq)
  | .eq => fromBool (valuesEqual K.core K.partialCompare a b)

/-- The opcode, while the global of its operator is the built-in. -/
def runBinaryOp (op : BinaryOp) (a b : Value) : Result Value :=
  match a, b with
  | .embedded (.smallInt av), .embedded (.smallInt bv) => .ok (fastPath K op a b av bv)
  | a, b =>
    if op ≠ .eq ∧ !(a.isNumber && b.isNumber) then
      K.throwNotANumber (binaryOpName op) (if a.isNumber then b else a)
    else .ok (slowPath K op a b)

/-! ### Two operands -/

variable {K}
variable {op : BinaryOp} {a b : Value} {m n av bv : Int}

/-- What an ordering operator makes of an order. -/
def BinaryOp.holds (op : BinaryOp) (o : Option Ordering) : Bool :=
  match op with
  | .lt => o == some .lt
  | .le => o == some .lt || o == some .eq
  | .gt => o == some .gt
  | .ge => o == some .gt || o == some .eq
  | _ => false

def BinaryOp.isOrdering : BinaryOp → Bool
  | .lt | .le | .gt | .ge => true
  | _ => false

/-- The order the ordering primitives go by: exact for integers, else that of the doubles. -/
def primitiveOrder (K : Kernel) (a b : Value) : Option Ordering :=
  if a.asInteger.isSome && b.asInteger.isSome then order a.exact b.exact
  else order (K.double a).value (K.double b).value

theorem primitive_error (hop : op ≠ .eq) (h : (a.isNumber && b.isNumber) = false) :
    primitive K op [a, b] = K.throwNotANumber (binaryOpName op) (if a.isNumber then b else a) := by
  cases ha : a.isNumber with
  | false =>
    cases op with
    | eq => exact absurd rfl hop
    | _ =>
      simp [primitive, prim_plus, prim_minus, prim_mul, prim_lt, prim_le, prim_gt, prim_ge,
        checkNumbers, monotonicChain, numberArg, ha, Kernel.throwNotANumber, binaryOpName,
        bind, Except.bind]
  | true =>
    have hb : b.isNumber = false := by simpa [ha] using h
    cases op with
    | eq => exact absurd rfl hop
    | _ =>
      simp [primitive, prim_plus, prim_minus, prim_mul, prim_lt, prim_le, prim_gt, prim_ge,
        checkNumbers, monotonicChain, chainFrom, numberArg, ha, hb, Kernel.throwNotANumber,
        binaryOpName, bind, Except.bind, pure, Except.pure]

theorem primitive_arithmetic (ha : a.isNumber = true) (hb : b.isNumber = true) :
    primitive K .add [a, b] = .ok (K.add a b) ∧
    primitive K .sub [a, b] = .ok (K.subtract a b) ∧
    primitive K .mul [a, b] = .ok (K.multiply a b) := by
  simp [primitive, prim_plus, prim_minus, prim_mul, checkNumbers, numberArg, ha, hb, numericFold,
    bind, Except.bind, pure, Except.pure]

theorem order_of_integers (hm : a.asInteger = some m) (hn : b.asInteger = some n) :
    order a.exact b.exact = some (compare m n) := by
  rw [Value.exact_of_integer hm, Value.exact_of_integer hn, order_ofInt]

/-- What two doubles answer is what their order answers. -/
theorem holds_doubles (x y : Double) :
    doubleLt x y = BinaryOp.holds .lt (order x.value y.value) ∧
    doubleLe x y = BinaryOp.holds .le (order x.value y.value) ∧
    doubleLt y x = BinaryOp.holds .gt (order x.value y.value) ∧
    doubleLe y x = BinaryOp.holds .ge (order x.value y.value) := by
  refine ⟨rfl, rfl, ?_, ?_⟩
  · unfold doubleLt BinaryOp.holds
    rw [order_swap x.value y.value]
    cases order x.value y.value with
    | none => rfl
    | some o => cases o <;> rfl
  · unfold doubleLe BinaryOp.holds
    rw [order_swap x.value y.value]
    cases order x.value y.value with
    | none => rfl
    | some o => cases o <;> rfl

/-- What the sign of the difference answers is what the order of the integers answers. -/
theorem holds_integers (hK : K.Lawful) (hm : a.asInteger = some m) (hn : b.asInteger = some n) :
    decide (K.compareIntegers a b < 0) = BinaryOp.holds .lt (some (compare m n)) ∧
    decide (K.compareIntegers a b ≤ 0) = BinaryOp.holds .le (some (compare m n)) ∧
    decide (K.compareIntegers a b > 0) = BinaryOp.holds .gt (some (compare m n)) ∧
    decide (K.compareIntegers a b ≥ 0) = BinaryOp.holds .ge (some (compare m n)) := by
  have hsign := compareIntegers_sign hK hm hn
  rcases lt_trichotomy m n with h | h | h
  · rw [compare_lt_iff_lt.mpr h]
    rw [Int.sign_eq_neg_one_of_neg (a := m - n) (by omega), Int.sign_eq_neg_one_iff_neg] at hsign
    simp [BinaryOp.holds, hsign, hsign.le, not_lt.mpr hsign.le]
  · rw [compare_eq_iff_eq.mpr h]
    rw [h, Int.sub_self, Int.sign_zero, Int.sign_eq_zero_iff_zero] at hsign
    simp [BinaryOp.holds, hsign]
  · rw [compare_gt_iff_gt.mpr h]
    rw [Int.sign_eq_one_of_pos (a := m - n) (by omega), Int.sign_eq_one_iff_pos] at hsign
    simp [BinaryOp.holds, hsign, hsign.le, not_lt.mpr hsign.le]

theorem primitive_ordering (hK : K.Lawful) (hop : op.isOrdering = true) (ha : a.isNumber = true)
    (hb : b.isNumber = true) :
    primitive K op [a, b] = .ok (fromBool (op.holds (primitiveOrder K a b))) := by
  have hchain (name : String) (holdsForDoubles : Double → Double → Bool)
      (holdsForSign : Int → Bool) :
      monotonicChain K [a, b] name holdsForDoubles holdsForSign = .ok (fromBool
        (if a.asInteger.isSome && b.asInteger.isSome then holdsForSign (K.compareIntegers a b)
        else holdsForDoubles (K.double a) (K.double b))) := by
    simp only [monotonicChain, chainFrom, numberArg, ha, hb, if_true, bind, Except.bind]
    cases h : if a.asInteger.isSome && b.asInteger.isSome then
        holdsForSign (K.compareIntegers a b)
      else holdsForDoubles (K.double a) (K.double b) <;> rfl
  obtain ⟨hlt, hle, hgt, hge⟩ := holds_doubles (K.double a) (K.double b)
  by_cases hints : (a.asInteger.isSome && b.asInteger.isSome) = true
  · obtain ⟨hsa, hsb⟩ := Bool.and_eq_true_iff.mp hints
    obtain ⟨m, hm⟩ := Option.isSome_iff_exists.mp hsa
    obtain ⟨n, hn⟩ := Option.isSome_iff_exists.mp hsb
    obtain ⟨hlt, hle, hgt, hge⟩ := holds_integers hK hm hn
    rw [primitiveOrder, if_pos hints, order_of_integers hm hn]
    cases op with
    | lt => rw [← hlt]; exact (hchain ..).trans (by rw [if_pos hints])
    | le => rw [← hle]; exact (hchain ..).trans (by rw [if_pos hints])
    | gt => rw [← hgt]; exact (hchain ..).trans (by rw [if_pos hints])
    | ge => rw [← hge]; exact (hchain ..).trans (by rw [if_pos hints])
    | _ => cases hop
  · rw [primitiveOrder, if_neg hints]
    cases op with
    | lt => rw [← hlt]; exact (hchain ..).trans (by rw [if_neg hints])
    | le => rw [← hle]; exact (hchain ..).trans (by rw [if_neg hints])
    | gt => rw [← hgt]; exact (hchain ..).trans (by rw [if_neg hints])
    | ge => rw [← hge]; exact (hchain ..).trans (by rw [if_neg hints])
    | _ => cases hop

/-! ### The opcodes' two paths -/

theorem wrap64_eq (h : -2 ^ 63 ≤ n ∧ n < 2 ^ 63) : wrap64 n = n := by
  unfold wrap64
  exact Int.bmod_eq_of_le (by omega) (by omega)

theorem smallIntFitsLong_iff : smallIntFitsLong n = true ↔ InSmallRange n := by
  simp only [smallIntFitsLong, InSmallRange, Bool.and_eq_true, decide_eq_true_eq]
  omega

/-- An inline result that fits is the integer protoCore computes. -/
theorem fits_eq {v : Value} (hv : v.IsInteger n) (hwrap : wrap64 n = n) :
    (if smallIntFitsLong (wrap64 n) then Value.embedded (.smallInt (wrap64 n)) else v) = v := by
  rw [hwrap]
  split
  · rename_i hfits
    exact (hv.word (smallIntFitsLong_iff.mp hfits)).symm
  · rfl

theorem valuesEqual_integers (hK : K.Lawful) (hm : a.asInteger = some m)
    (hn : b.asInteger = some n) : valuesEqual K.core K.partialCompare a b = (m == n) := by
  have hcompare := hK.partialCompare a b (Value.isNumber_of_integer hm)
    (Value.isNumber_of_integer hn)
  rw [order_of_integers hm hn] at hcompare
  obtain ⟨k, hk⟩ := Nat.exists_eq_succ_of_ne_zero (n := a.rank + b.rank)
    (by have := a.rank_pos; omega)
  rw [valuesEqual, hk, valuesEqualWithin.eq_def]
  dsimp only
  by_cases hab : a = b
  · subst hab
    obtain rfl := Option.some.inj (hm.symm.trans hn)
    simp
  rw [if_neg hab]
  cases a with
  | embedded | largeInteger =>
    cases b with
    | embedded | largeInteger =>
      show (K.partialCompare _ _ == some .eq) = (m == n)
      rw [hcompare, Bool.eq_iff_iff, beq_iff_eq, beq_iff_eq, Option.some.injEq]
      exact compare_eq_iff_eq
    | _ => cases hn
  | _ => cases hm

/-- The fast path computes what the slow one does. -/
theorem fastPath_eq (hK : K.Lawful) (ha : InSmallRange av) (hb : InSmallRange bv) :
    fastPath K op (.embedded (.smallInt av)) (.embedded (.smallInt bv)) av bv =
      slowPath K op (.embedded (.smallInt av)) (.embedded (.smallInt bv)) := by
  have hcompare := hK.partialCompare (.embedded (.smallInt av)) (.embedded (.smallInt bv)) rfl rfl
  rw [order_of_integers rfl rfl] at hcompare
  unfold InSmallRange at ha hb
  cases op with
  | add => exact fits_eq (hK.add _ _ av bv rfl rfl) (wrap64_eq (by omega))
  | sub => exact fits_eq (hK.subtract _ _ av bv rfl rfl) (wrap64_eq (by omega))
  | mul =>
    unfold fastPath slowPath
    dsimp only
    split
    · rfl
    · rename_i hhalf
      refine fits_eq (hK.multiply _ _ av bv rfl rfl) (wrap64_eq ?_)
      simp only [Bool.or_eq_true, decide_eq_true_eq, not_or] at hhalf
      simp only [kHalf] at hhalf
      have hav : |av| < 2 ^ 26 := abs_lt.mpr (by omega)
      have hbv : |bv| < 2 ^ 26 := abs_lt.mpr (by omega)
      have hprod : |av * bv| < 2 ^ 63 := by
        rw [abs_mul]
        calc |av| * |bv| ≤ 2 ^ 26 * 2 ^ 26 := by
              exact mul_le_mul hav.le hbv.le (abs_nonneg bv) (by norm_num)
          _ < 2 ^ 63 := by norm_num
      exact ⟨(abs_lt.mp hprod).1.le, (abs_lt.mp hprod).2⟩
  | eq => exact congrArg fromBool (valuesEqual_integers hK rfl rfl).symm
  | lt | le | gt | ge =>
    simp only [fastPath, slowPath, hcompare]
    rcases lt_trichotomy av bv with h | h | h
    · rw [compare_lt_iff_lt.mpr h]
      simp [h, h.le, not_lt.mpr h.le, not_le.mpr h]
    · rw [compare_eq_iff_eq.mpr h]
      simp [h]
    · rw [compare_gt_iff_gt.mpr h]
      simp [h, h.le, not_lt.mpr h.le, not_le.mpr h]

/-- The opcode of two numbers, or `=` of any two values. -/
theorem runBinaryOp_eq (hK : K.Lawful) (ha : a.Tagged) (hb : b.Tagged)
    (h : op = .eq ∨ a.isNumber = true ∧ b.isNumber = true) :
    runBinaryOp K op a b = .ok (slowPath K op a b) := by
  unfold runBinaryOp
  split
  · exact congrArg Except.ok (fastPath_eq hK (ha _ rfl) (hb _ rfl))
  · refine if_neg ?_
    rintro ⟨hop, hno⟩
    rcases h with rfl | ⟨hna, hnb⟩
    · exact hop rfl
    · simp [hna, hnb] at hno

theorem runBinaryOp_error (hop : op ≠ .eq) (h : (a.isNumber && b.isNumber) = false) :
    runBinaryOp K op a b =
      K.throwNotANumber (binaryOpName op) (if a.isNumber then b else a) := by
  unfold runBinaryOp
  split
  · cases h
  · exact if_pos ⟨hop, by simp [h]⟩

/-! ### Where they differ -/

/-- The two numbers are in a strict order that the rounding of the integer to a double, as the
ordering primitives do it, takes away. -/
def Clash (K : Kernel) (op : BinaryOp) (a b : Value) : Prop :=
  (a.isFloat || b.isFloat) = true ∧ order (K.double a).value (K.double b).value = some .eq ∧
    match op with
    | .lt | .ge => order a.exact b.exact = some .lt
    | .le | .gt => order a.exact b.exact = some .gt
    | _ => False

theorem double_of_integer (hm : a.asInteger = some m) : K.double a = K.asDouble m := by
  cases a with
  | embedded | largeInteger => simp [Kernel.double, hm]
  | _ => cases hm

/-- An integer against a double: its rounding keeps the order or makes them equal. -/
theorem order_rounded (hK : K.Lawful) (n : Int) (d : Double) :
    order (K.asDouble n).value d.value = order (some (.ofInt n)) d.value ∨
      order (K.asDouble n).value d.value = some .eq ∧
        (order (some (.ofInt n)) d.value).isSome = true := by
  obtain ⟨x, hx⟩ := hK.asDouble.number n
  rw [hx]
  cases hd : d.value with
  | none => exact .inl rfl
  | some v =>
    rcases lt_trichotomy x v with h | h | h
    · rw [order_eq_lt.mpr h, order_eq_lt.mpr (hK.asDouble.lt_of_lt hx hd h)]
      exact .inl rfl
    · exact .inr ⟨order_eq_eq.mpr h, rfl⟩
    · rw [order_eq_gt.mpr h, order_eq_gt.mpr (hK.asDouble.gt_of_gt hx hd h)]
      exact .inl rfl

/-- What is not a number has no order. -/
theorem exact_none (h : a.isNumber = false) : a.exact = none := by
  cases a with
  | embedded w => cases w <;> first | rfl | cases h
  | largeInteger | double => cases h
  | _ => rfl

theorem Clash.numbers (hc : Clash K op a b) : (a.isNumber && b.isNumber) = true := by
  have hsome : (order a.exact b.exact).isSome = true := by
    obtain ⟨-, -, hstrict⟩ := hc
    cases op <;> first | cases hstrict | (rw [hstrict]; rfl)
  by_contra hno
  rcases Bool.and_eq_false_iff.mp (Bool.eq_false_iff.mpr hno) with ha | hb
  · rw [exact_none ha] at hsome
    cases hsome
  · rw [exact_none hb, order_swap, Option.isSome_map] at hsome
    cases hsome

theorem isFloat_of_integer (hm : a.asInteger = some m) : a.isFloat = false := by
  cases a <;> first | rfl | cases hm

theorem order_doubles (hK : K.Lawful) (ha : a.isNumber = true) (hb : b.isNumber = true)
    (hf : (a.isFloat || b.isFloat) = true) :
    order (K.double a).value (K.double b).value = order a.exact b.exact ∨
      order (K.double a).value (K.double b).value = some .eq ∧
        (order a.exact b.exact).isSome = true := by
  rcases Value.number_cases ha with ⟨m, hm⟩ | ⟨i, x, rfl⟩
  · rcases Value.number_cases hb with ⟨n, hn⟩ | ⟨j, y, rfl⟩
    · rw [isFloat_of_integer hm, isFloat_of_integer hn] at hf
      cases hf
    · rw [double_of_integer hm, Value.exact_of_integer hm]
      exact order_rounded hK m (.ofBits y)
  · rcases Value.number_cases hb with ⟨n, hn⟩ | ⟨j, y, rfl⟩
    · rw [double_of_integer hn, Value.exact_of_integer hn,
        order_swap (K.asDouble n).value, order_swap (some (.ofInt n))]
      rcases order_rounded hK n (.ofBits x) with h | ⟨h, hsome⟩
      · exact .inl (congrArg _ h)
      · exact .inr ⟨congrArg _ h, by rw [Option.isSome_map]; exact hsome⟩
    · exact .inl rfl

/-- The ordering opcodes go by the exact order, the primitives by that of the doubles. -/
theorem holds_iff (hK : K.Lawful) (ha : a.isNumber = true) (hb : b.isNumber = true)
    (hop : op.isOrdering = true) :
    op.holds (order a.exact b.exact) = op.holds (primitiveOrder K a b) ↔ ¬ Clash K op a b := by
  by_cases hf : (a.isFloat || b.isFloat) = true
  · have hprimitive : primitiveOrder K a b = order (K.double a).value (K.double b).value := by
      refine if_neg fun hints => ?_
      obtain ⟨hsa, hsb⟩ := Bool.and_eq_true_iff.mp hints
      obtain ⟨m, hm⟩ := Option.isSome_iff_exists.mp hsa
      obtain ⟨n, hn⟩ := Option.isSome_iff_exists.mp hsb
      rw [isFloat_of_integer hm, isFloat_of_integer hn] at hf
      cases hf
    rw [hprimitive]
    unfold Clash
    rw [and_iff_right hf]
    rcases order_doubles hK ha hb hf with h | ⟨h, hsome⟩
    · rw [h]
      refine iff_of_true rfl ?_
      rintro ⟨heq, hstrict⟩
      rw [heq] at hstrict
      cases op <;> cases hstrict
    · rw [h, and_iff_right rfl]
      obtain ⟨o, ho⟩ := Option.isSome_iff_exists.mp hsome
      rw [ho]
      cases op with
      | add | sub | mul | eq => cases hop
      | _ => cases o <;> simp [BinaryOp.holds]
  · have hprimitive : primitiveOrder K a b = order a.exact b.exact := by
      obtain ⟨hfa, hfb⟩ := Bool.or_eq_false_iff.mp (Bool.not_eq_true _ ▸ hf)
      rcases Value.number_cases ha with ⟨m, hm⟩ | ⟨i, x, rfl⟩
      · rcases Value.number_cases hb with ⟨n, hn⟩ | ⟨j, y, rfl⟩
        · exact if_pos (by rw [hm, hn]; rfl)
        · cases hfb
      · cases hfa
    rw [hprimitive]
    exact iff_of_true rfl fun hc => hf hc.1

/-! ### Agreement -/

/-- The result of an operator on two integers, by the integers themselves. -/
def ExactResult (op : BinaryOp) (m n : Int) (r : Result Value) : Prop :=
  match op with
  | .add => ∃ v, r = .ok v ∧ v.IsInteger (m + n)
  | .sub => ∃ v, r = .ok v ∧ v.IsInteger (m - n)
  | .mul => ∃ v, r = .ok v ∧ v.IsInteger (m * n)
  | .lt => r = .ok (fromBool (m < n))
  | .le => r = .ok (fromBool (m ≤ n))
  | .gt => r = .ok (fromBool (m > n))
  | .ge => r = .ok (fromBool (m ≥ n))
  | .eq => r = .ok (fromBool (m = n))

theorem holds_compare (m n : Int) :
    BinaryOp.holds .lt (some (compare m n)) = decide (m < n) ∧
    BinaryOp.holds .le (some (compare m n)) = decide (m ≤ n) ∧
    BinaryOp.holds .gt (some (compare m n)) = decide (m > n) ∧
    BinaryOp.holds .ge (some (compare m n)) = decide (m ≥ n) := by
  rcases lt_trichotomy m n with h | h | h
  · rw [compare_lt_iff_lt.mpr h]
    simp [BinaryOp.holds, h, h.le, not_lt.mpr h.le, not_le.mpr h]
  · rw [compare_eq_iff_eq.mpr h]
    simp [BinaryOp.holds, h]
  · rw [compare_gt_iff_gt.mpr h]
    simp [BinaryOp.holds, h, h.le, not_lt.mpr h.le, not_le.mpr h]

theorem slowPath_ordering (hK : K.Lawful) (hop : op.isOrdering = true) (ha : a.isNumber = true)
    (hb : b.isNumber = true) : slowPath K op a b = fromBool (op.holds (order a.exact b.exact)) := by
  rw [← hK.partialCompare a b ha hb]
  cases op with
  | add | sub | mul | eq => cases hop
  | _ => rfl

theorem runBinaryOp_exact (hK : K.Lawful) (ha : a.Tagged) (hb : b.Tagged)
    (hm : a.asInteger = some m) (hn : b.asInteger = some n) :
    ExactResult op m n (runBinaryOp K op a b) := by
  have hna := Value.isNumber_of_integer hm
  have hnb := Value.isNumber_of_integer hn
  obtain ⟨hlt, hle, hgt, hge⟩ := holds_compare m n
  rw [runBinaryOp_eq hK ha hb (.inr ⟨hna, hnb⟩)]
  cases op with
  | add => exact ⟨_, rfl, hK.add a b m n hm hn⟩
  | sub => exact ⟨_, rfl, hK.subtract a b m n hm hn⟩
  | mul => exact ⟨_, rfl, hK.multiply a b m n hm hn⟩
  | eq =>
    show Except.ok (fromBool (valuesEqual K.core K.partialCompare a b)) = _
    rw [valuesEqual_integers hK hm hn]
    rfl
  | lt | le | gt | ge =>
    rw [slowPath_ordering hK rfl hna hnb, order_of_integers hm hn]
    first | rw [hlt] | rw [hle] | rw [hgt] | rw [hge]
    rfl

theorem fromBool_inj {x y : Bool} : fromBool x = fromBool y ↔ x = y := by
  simp [fromBool]

/-- An opcode answers or raises what its primitive does, and of two integers what is exact, except
where an ordering clashes with the rounding of its integer operand. -/
theorem opcode_agrees_iff (hK : K.Lawful) (op : BinaryOp) (ha : a.Tagged) (hb : b.Tagged) :
    (runBinaryOp K op a b = primitive K op [a, b] ∧
      ∀ m n, a.asInteger = some m → b.asInteger = some n →
        ExactResult op m n (runBinaryOp K op a b)) ↔ ¬ Clash K op a b := by
  rw [and_iff_left fun m n hm hn => runBinaryOp_exact hK ha hb hm hn]
  by_cases heq : op = .eq
  · subst heq
    rw [runBinaryOp_eq hK ha hb (.inl rfl)]
    refine iff_of_true ?_ fun hc => hc.2.2
    simp [slowPath, primitive, prim_eq, equalChain]
  cases hnumbers : a.isNumber && b.isNumber with
  | false =>
    rw [runBinaryOp_error heq hnumbers, primitive_error heq hnumbers]
    refine iff_of_true rfl fun hc => ?_
    rw [hc.numbers] at hnumbers
    cases hnumbers
  | true =>
    obtain ⟨hna, hnb⟩ := Bool.and_eq_true_iff.mp hnumbers
    rw [runBinaryOp_eq hK ha hb (.inr ⟨hna, hnb⟩)]
    by_cases hop : op.isOrdering = true
    · rw [slowPath_ordering hK hop hna hnb, primitive_ordering hK hop hna hnb, Except.ok.injEq,
        fromBool_inj]
      exact holds_iff hK hna hnb hop
    · obtain ⟨hadd, hsub, hmul⟩ := primitive_arithmetic (K := K) hna hnb
      cases op with
      | add => exact iff_of_true hadd.symm fun hc => hc.2.2
      | sub => exact iff_of_true hsub.symm fun hc => hc.2.2
      | mul => exact iff_of_true hmul.symm fun hc => hc.2.2
      | eq => exact absurd rfl heq
      | _ => exact absurd rfl hop

/-! ### A kernel -/

/-- The one representation of an integer. -/
def ofInteger (n : Int) : Value :=
  if smallIntFitsLong n then .embedded (.smallInt n) else .largeInteger 0 n

/-- The integers alone, rounded towards zero. -/
def integerKernel : Kernel where
  add a b := ofInteger (a.asInteger.getD 0 + b.asInteger.getD 0)
  subtract a b := ofInteger (a.asInteger.getD 0 - b.asInteger.getD 0)
  multiply a b := ofInteger (a.asInteger.getD 0 * b.asInteger.getD 0)
  partialCompare a b := order a.exact b.exact
  compare a b := a.asInteger.getD 0 - b.asInteger.getD 0
  asDouble := truncate
  fromDouble _ := .nil
  valueTypeName _ := "nil"
  core := collidingCore

theorem ofInteger_isInteger (n : Int) : (ofInteger n).IsInteger n := by
  unfold ofInteger
  split
  · rename_i h
    exact ⟨rfl, smallIntFitsLong_iff.mp h⟩
  · rename_i h
    exact ⟨rfl, fun hn => h (smallIntFitsLong_iff.mpr hn)⟩

theorem integerKernel_lawful : integerKernel.Lawful where
  add a b m n hm hn := by
    simpa [integerKernel, hm, hn] using ofInteger_isInteger (m + n)
  subtract a b m n hm hn := by
    simpa [integerKernel, hm, hn] using ofInteger_isInteger (m - n)
  multiply a b m n hm hn := by
    simpa [integerKernel, hm, hn] using ofInteger_isInteger (m * n)
  partialCompare _ _ _ _ := rfl
  compare a b m n hm hn := by simp [integerKernel, hm, hn]
  asDouble := truncate_rounding

/-- `2 ^ 53 + 1`. -/
def odd : Value := .largeInteger 1 9007199254740993

/-- `2 ^ 53` as a double. -/
def even : Value := .double 2 0x4340000000000000

/-- They clash for `>` and agree for `>=`. -/
theorem opcode_agrees_iff_ge :
    runBinaryOp integerKernel .ge odd even = primitive integerKernel .ge [odd, even] ∧
      ∀ m n, odd.asInteger = some m → even.asInteger = some n →
        ExactResult .ge m n (runBinaryOp integerKernel .ge odd even) := by
  apply (opcode_agrees_iff integerKernel_lawful .ge ?_ ?_).mpr
  · rintro ⟨-, -, hlt⟩
    have hgt : order odd.exact even.exact = some .gt := by decide +kernel
    rw [hgt] at hlt
    cases hlt
  · intro n h
    cases h
  · intro n h
    cases h

theorem opcode_disagrees :
    integerKernel.Lawful ∧ odd.Tagged ∧ even.Tagged ∧
    runBinaryOp integerKernel .gt odd even = .ok (fromBool true) ∧
    primitive integerKernel .gt [odd, even] = .ok (fromBool false) ∧
    runBinaryOp integerKernel .gt odd even ≠ primitive integerKernel .gt [odd, even] := by
  refine ⟨integerKernel_lawful, fun n h => ?_, fun n h => ?_, ?_⟩
  · cases h
  · cases h
  · decide +kernel

end ProtoClojure.Maps
