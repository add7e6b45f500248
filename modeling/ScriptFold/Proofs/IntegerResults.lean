import Mathlib
import ScriptFold.Proofs.NullLogic
/-!
# Integer results never wrap

An operator that returns an integer returns the exact integer result: `+`, `-` and `*` of two
integers stay integral exactly while the exact result fits in 64 bits
(`Arith.arithmetic_int_iff`), `^` while the exponent is nonnegative and the exact power fits
(`Arith.power_int_iff`, through the spec of `Arith.intPower?`), and negation for every integer
but the least (`negate_int_iff`). Otherwise they give a double or fail, never a wrapped integer.

`\` and `Mod` truncate both operands, refuse a zero divisor, and give the quotient toward zero
and the remainder that goes with it; the one quotient that does not fit, the least integer over
`-1`, overflows (`Arith.toInt64?_tdiv`, `integer_division_exact`).

Main statement: `integer_results_exact`.
-/
namespace ScriptFold

set_option autoImplicit false

/-! ## Fitting in 64 bits -/

theorem toInt64?_eq_some_iff {n : Int} {i : Int64} : toInt64? n = some i ↔ i.toInt = n := by
  unfold toInt64? fitsInt64
  split
  · next h =>
    simp only [Bool.and_eq_true, decide_eq_true_eq] at h
    rw [Option.some.injEq, ← Int64.toInt_inj, Int64.toInt_ofInt_of_le h.1 h.2, eq_comm]
  · next h =>
    simp only [Bool.and_eq_true, decide_eq_true_eq, not_and_or] at h
    simp only [reduceCtorEq, false_iff]
    have := i.le_toInt
    have := i.toInt_lt
    omega

theorem exists_toInt64?_iff (n : Int) :
    (∃ i, toInt64? n = some i) ↔ -2 ^ 63 ≤ n ∧ n < 2 ^ 63 := by
  simp only [toInt64?_eq_some_iff]
  constructor
  · rintro ⟨i, rfl⟩
    exact ⟨i.le_toInt, i.toInt_lt⟩
  · rintro ⟨h1, h2⟩
    exact ⟨Int64.ofInt n, Int64.toInt_ofInt_of_le h1 h2⟩

/-! ## Operands with integer coercions -/

namespace Value

theorem isNull_eq_false_of_toNumber {v : Value} {n : Number} (h : v.toNumber = .ok n) :
    v.isNull = false := by
  cases v <;> first | rfl | cases h

theorem ne_date_of_toNumber_int {v : Value} {a : Int64} (h : v.toNumber = .ok (.int a))
    (t : Moment) : v ≠ .date t := by
  rintro rfl
  cases h

theorem toNumber_of_toInteger {v : Value} {a : Int64} (h : v.toInteger = .ok a) :
    ∃ n, v.toNumber = .ok n := by
  unfold toInteger at h
  cases hn : v.toNumber with
  | error e => simp [hn, bind, Except.bind] at h
  | ok n => exact ⟨n, rfl⟩

end Value

namespace BinaryOp

theorem apply_eq_ok_iff (op : BinaryOp) (l r v : Value) :
    op.apply l r = .ok v ↔ op.applyRaw l r = .ok v := by
  rw [apply_eq_mapError]
  cases op.applyRaw l r <;> simp [Except.mapError]

end BinaryOp

namespace Arith

theorem finite_ne_int (x : Float) (v : Int64) : finite x ≠ .ok (.int v) := by
  unfold finite
  split <;> simp

theorem dateArithmetic_of_not_date (op : BinaryOp) {l r : Value} (hl : ∀ t, l ≠ .date t)
    (hr : ∀ t, r ≠ .date t) : dateArithmetic op l r = .ok none := by
  unfold dateArithmetic
  split <;> simp_all

/-! ## `+`, `-` and `*` -/

theorem arithmetic_intOp {op : BinaryOp} {f : Int → Int → Int} (hop : intOp? op = some f)
    {x y : Value} {a b : Int64} (hx : x.toNumber = .ok (.int a))
    (hy : y.toNumber = .ok (.int b)) :
    arithmetic op x y =
      match toInt64? (f a.toInt b.toInt) with
      | some i => .ok (.int i)
      | none => finite (floatOp op (Number.int a).toFloat (Number.int b).toFloat) := by
  have hdiv : op ≠ .divide := by
    rintro rfl
    cases hop
  unfold arithmetic
  simp only [Value.isNull_eq_false_of_toNumber hx, Value.isNull_eq_false_of_toNumber hy,
    Bool.or_false, dateArithmetic_of_not_date op (Value.ne_date_of_toNumber_int hx)
      (Value.ne_date_of_toNumber_int hy), hx, hy, hdiv, hop, exact, if_false, bind,
    Except.bind, pure, Except.pure]
  rfl

theorem arithmetic_int_iff {op : BinaryOp} {f : Int → Int → Int} (hop : intOp? op = some f)
    {x y : Value} {a b : Int64} (hx : x.toNumber = .ok (.int a))
    (hy : y.toNumber = .ok (.int b)) (v : Int64) :
    op.apply x y = .ok (.int v) ↔ v.toInt = f a.toInt b.toInt := by
  have hraw : op.applyRaw x y = arithmetic op x y := by
    cases op <;> first | rfl | cases hop
  rw [BinaryOp.apply_eq_ok_iff, hraw, arithmetic_intOp hop hx hy, ← toInt64?_eq_some_iff]
  cases toInt64? (f a.toInt b.toInt) with
  | some i => simp [eq_comm]
  | none => simpa using finite_ne_int _ v

/-! ## `^` -/

theorem intPower?_eq_some_iff {b e : Int} (he : 0 ≤ e) {v : Int64} :
    intPower? b e = some v ↔ v.toInt = b ^ e.toNat := by
  have hsome : ∀ c : Int64, some c = some v ↔ v.toInt = c.toInt := fun c => by
    rw [Option.some.injEq, ← Int64.toInt_inj, eq_comm]
  unfold intPower?
  by_cases h0 : b = 0
  · subst h0
    rw [if_pos rfl, hsome]
    by_cases hz : e = 0
    · simp [hz]
    · rw [if_neg hz, Int.zero_pow (show e.toNat ≠ 0 by omega)]
      rfl
  by_cases h1 : b = 1
  · subst h1
    simp [hsome]
  by_cases hm : b = -1
  · subst hm
    rw [if_neg (by decide), if_neg (by decide), if_pos rfl, hsome]
    simp only [neg_one_pow_eq_ite, Nat.even_iff]
    by_cases hpar : e % 2 = 0
    · simp [hpar, show e.toNat % 2 = 0 by omega]
    · simp [hpar, show e.toNat % 2 ≠ 0 by omega]
  rw [if_neg h0, if_neg h1, if_neg hm]
  by_cases hbig : e ≥ 64
  · have hmag : 2 ^ 63 < (b ^ e.toNat).natAbs := by
      rw [Int.natAbs_pow]
      calc 2 ^ 63 < 2 ^ 64 := by decide
        _ ≤ 2 ^ e.toNat := Nat.pow_le_pow_right (by decide) (by omega)
        _ ≤ b.natAbs ^ e.toNat := Nat.pow_le_pow_left (by omega) _
    rw [if_pos hbig]
    simp only [reduceCtorEq, false_iff]
    have := v.le_toInt
    have := v.toInt_lt
    omega
  · rw [if_neg hbig]
    exact toInt64?_eq_some_iff

theorem power_int_iff {x y : Value} {a b : Int64} (hx : x.toNumber = .ok (.int a))
    (hy : y.toNumber = .ok (.int b)) (v : Int64) :
    BinaryOp.power.apply x y = .ok (.int v) ↔
      0 ≤ b.toInt ∧ v.toInt = a.toInt ^ b.toInt.toNat := by
  rw [BinaryOp.apply_eq_ok_iff]
  show power x y = .ok (.int v) ↔ _
  unfold power
  simp only [Value.isNull_eq_false_of_toNumber hx, Value.isNull_eq_false_of_toNumber hy,
    Bool.or_false, hx, hy, bind, Except.bind, pure, Except.pure]
  by_cases hb : 0 ≤ b.toInt
  · rw [if_pos hb]
    cases hp : intPower? a.toInt b.toInt with
    | some i =>
      rw [intPower?_eq_some_iff hb] at hp
      simp only [hb, true_and, Bool.false_eq_true, if_false, Except.ok.injEq, Value.int.injEq]
      rw [← hp, Int64.toInt_inj, eq_comm]
    | none =>
      have hnone : ¬ v.toInt = a.toInt ^ b.toInt.toNat := by
        rw [← intPower?_eq_some_iff hb, hp]
        simp
      simp only [hb, hnone, and_false, iff_false]
      split_ifs <;> simp [finite_ne_int]
  · rw [if_neg hb]
    simp only [hb, false_and, iff_false]
    split_ifs <;> simp [finite_ne_int]

end Arith

theorem toInt_eq_iff_bounds (v : Int64) (n : Int) :
    v.toInt = n ↔ (-2 ^ 63 ≤ n ∧ n < 2 ^ 63) ∧ v.toInt = n := by
  constructor
  · rintro rfl
    exact ⟨⟨v.le_toInt, v.toInt_lt⟩, rfl⟩
  · exact And.right

/-! ## Negation -/

theorem negate_int_iff {x : Value} {a : Int64} (hx : x.toNumber = .ok (.int a)) (v : Int64) :
    UnaryOp.negate.apply x = .ok (.int v) ↔ a ≠ Int64.minValue ∧ v.toInt = -a.toInt := by
  simp only [UnaryOp.apply, Value.isNull_eq_false_of_toNumber hx, hx, bind, Except.bind, pure,
    Except.pure, Bool.false_eq_true, if_false]
  by_cases hmin : a = Int64.minValue
  · simp [hmin]
  · have hlow : Int64.minValue.toInt < a.toInt := by
      have := a.minValue_le_toInt
      have hne : a.toInt ≠ Int64.minValue.toInt := fun h => hmin (Int64.toInt_inj.mp h)
      omega
    have hneg : (-a).toInt = -a.toInt := by
      rw [Int64.toInt_neg, Int.bmod_eq_of_le] <;>
        simp only [Int64.toInt_minValue] at hlow <;> have := a.toInt_lt <;> omega
    simp only [hmin, if_false, Except.ok.injEq, Value.int.injEq, ne_eq, not_false_eq_true,
      true_and]
    rw [← hneg, Int64.toInt_inj, eq_comm]

/-! ## `\` and `Mod` -/

namespace Arith

theorem toInt64?_eq_none_iff (n : Int) : toInt64? n = none ↔ ¬(-2 ^ 63 ≤ n ∧ n < 2 ^ 63) := by
  rw [← exists_toInt64?_iff]
  cases toInt64? n <;> simp

theorem toInt64?_tdiv {a b : Int64} (hb : b ≠ 0) :
    toInt64? (a.toInt.tdiv b.toInt) = none ↔ a = Int64.minValue ∧ b = -1 := by
  rw [toInt64?_eq_none_iff]
  have ha1 := a.le_toInt
  have ha2 := a.toInt_lt
  have hb0 : b.toInt ≠ 0 := fun h => hb (Int64.toInt_inj.mp h)
  constructor
  · intro hfit
    by_contra hne
    apply hfit
    rcases (by omega : b.toInt = 1 ∨ b.toInt = -1 ∨ 2 ≤ b.toInt.natAbs) with h1 | h1 | h2
    · rw [h1, Int.tdiv_one]
      omega
    · have hmin : a.toInt ≠ -2 ^ 63 := fun ha =>
        hne ⟨Int64.toInt_inj.mp ha, Int64.toInt_inj.mp h1⟩
      rw [h1, Int.tdiv_neg, Int.tdiv_one]
      omega
    · have hq : (a.toInt.tdiv b.toInt).natAbs ≤ a.toInt.natAbs / 2 := by
        rw [Int.natAbs_tdiv]
        exact Nat.div_le_div_left h2 (by decide)
      omega
  · rintro ⟨rfl, rfl⟩
    decide

theorem integerDivision_of_toInteger {op : BinaryOp} {x y : Value} {a b : Int64}
    (hx : x.toInteger = .ok a) (hy : y.toInteger = .ok b) :
    integerDivision op x y =
      if b.toInt = 0 then .error .divisionByZero
      else if op = .modulo then .ok (.int (Int64.ofInt (a.toInt.tmod b.toInt)))
      else match toInt64? (a.toInt.tdiv b.toInt) with
        | some q => .ok (.int q)
        | none => .error .overflow := by
  obtain ⟨n, hn⟩ := Value.toNumber_of_toInteger hx
  obtain ⟨m, hm⟩ := Value.toNumber_of_toInteger hy
  unfold integerDivision
  simp only [Value.isNull_eq_false_of_toNumber hn, Value.isNull_eq_false_of_toNumber hm,
    Bool.or_false, hx, hy, bind, Except.bind, pure, Except.pure, exact]
  rfl

theorem remainder_bounds (a b : Int) (hb : b ≠ 0) :
    (a.tmod b).natAbs < b.natAbs ∧ (0 ≤ a → 0 ≤ a.tmod b) ∧ (a ≤ 0 → a.tmod b ≤ 0) := by
  refine ⟨?_, Int.tmod_nonneg b, fun ha => ?_⟩
  · rw [Int.natAbs_tmod]
    exact Nat.mod_lt _ (by omega)
  · have h := Int.tmod_nonneg b (show 0 ≤ -a by omega)
    rw [Int.neg_tmod] at h
    omega

end Arith

theorem integer_division_exact {x y : Value} {a b : Int64} (hx : x.toInteger = .ok a)
    (hy : y.toInteger = .ok b) :
    (b = 0 → BinaryOp.intDivide.apply x y = .error .divisionByZero ∧
      BinaryOp.modulo.apply x y = .error .divisionByZero) ∧
    (b ≠ 0 → ∃ r, BinaryOp.modulo.apply x y = .ok (.int r) ∧
      r.toInt = a.toInt - b.toInt * a.toInt.tdiv b.toInt ∧ r.toInt.natAbs < b.toInt.natAbs ∧
      (0 ≤ a.toInt → 0 ≤ r.toInt) ∧ (a.toInt ≤ 0 → r.toInt ≤ 0)) ∧
    (b ≠ 0 → (a = Int64.minValue ∧ b = -1 → BinaryOp.intDivide.apply x y = .error .overflow) ∧
      (¬(a = Int64.minValue ∧ b = -1) →
        ∃ q, BinaryOp.intDivide.apply x y = .ok (.int q) ∧ q.toInt = a.toInt.tdiv b.toInt)) := by
  have hmod : BinaryOp.modulo.apply x y =
      (Arith.integerDivision .modulo x y).mapError (·.onOperands .modulo x.type y.type) :=
    BinaryOp.apply_eq_mapError _ _ _
  have hdiv : BinaryOp.intDivide.apply x y =
      (Arith.integerDivision .intDivide x y).mapError (·.onOperands .intDivide x.type y.type) :=
    BinaryOp.apply_eq_mapError _ _ _
  rw [hmod, hdiv, Arith.integerDivision_of_toInteger hx hy,
    Arith.integerDivision_of_toInteger hx hy]
  have hb0 : b.toInt = 0 ↔ b = 0 := @Int64.toInt_inj b 0
  refine ⟨fun hb => ?_, fun hb => ?_, fun hb => ⟨?_, fun hne => ?_⟩⟩
  · simp only [hb0.mpr hb, if_true]
    exact ⟨rfl, rfl⟩
  · obtain ⟨hlt, hpos, hneg⟩ := Arith.remainder_bounds a.toInt b.toInt (mt hb0.mp hb)
    have hfit : -2 ^ 63 ≤ a.toInt.tmod b.toInt ∧ a.toInt.tmod b.toInt < 2 ^ 63 := by
      have := b.le_toInt
      have := b.toInt_lt
      omega
    refine ⟨Int64.ofInt (a.toInt.tmod b.toInt), ?_, ?_⟩
    · simp only [mt hb0.mp hb, if_false, if_true]
      rfl
    · rw [Int64.toInt_ofInt_of_le hfit.1 hfit.2, ← Int.tmod_def]
      exact ⟨rfl, hlt, hpos, hneg⟩
  · intro hmin
    have hnone := (Arith.toInt64?_tdiv hb).mpr hmin
    simp only [mt hb0.mp hb, if_false, reduceCtorEq, hnone]
    rfl
  · obtain ⟨q, hq⟩ := Option.ne_none_iff_exists'.mp (mt (Arith.toInt64?_tdiv hb).mp hne)
    refine ⟨q, ?_, toInt64?_eq_some_iff.mp hq⟩
    simp only [mt hb0.mp hb, if_false, reduceCtorEq, hq]
    rfl

/-- Integer results never wrap. On operands whose numbers are the integers `a` and `b`, `+`, `-`
and `*` give the integer `v` exactly when the exact result lies in the 64-bit range and `v` is that
result, and `^` when besides the exponent is nonnegative; negation gives an integer for every `a`
but the least. On operands whose integers are `a` and `b`, `\` and `Mod` refuse `b = 0`, `Mod`
gives the truncated remainder and `\` the truncated quotient, which overflows only for the least
integer over `-1`. -/
theorem integer_results_exact (x y : Value) :
    (∀ a b, x.toNumber = .ok (.int a) → y.toNumber = .ok (.int b) → ∀ v,
      (BinaryOp.add.apply x y = .ok (.int v) ↔
        (-2 ^ 63 ≤ a.toInt + b.toInt ∧ a.toInt + b.toInt < 2 ^ 63) ∧
          v.toInt = a.toInt + b.toInt) ∧
      (BinaryOp.subtract.apply x y = .ok (.int v) ↔
        (-2 ^ 63 ≤ a.toInt - b.toInt ∧ a.toInt - b.toInt < 2 ^ 63) ∧
          v.toInt = a.toInt - b.toInt) ∧
      (BinaryOp.multiply.apply x y = .ok (.int v) ↔
        (-2 ^ 63 ≤ a.toInt * b.toInt ∧ a.toInt * b.toInt < 2 ^ 63) ∧
          v.toInt = a.toInt * b.toInt) ∧
      (BinaryOp.power.apply x y = .ok (.int v) ↔ 0 ≤ b.toInt ∧
        (-2 ^ 63 ≤ a.toInt ^ b.toInt.toNat ∧ a.toInt ^ b.toInt.toNat < 2 ^ 63) ∧
          v.toInt = a.toInt ^ b.toInt.toNat)) ∧
    (∀ a, x.toNumber = .ok (.int a) → ∀ v,
      UnaryOp.negate.apply x = .ok (.int v) ↔ a ≠ Int64.minValue ∧ v.toInt = -a.toInt) ∧
    (∀ a b, x.toInteger = .ok a → y.toInteger = .ok b →
      (b = 0 → BinaryOp.intDivide.apply x y = .error .divisionByZero ∧
        BinaryOp.modulo.apply x y = .error .divisionByZero) ∧
      (b ≠ 0 → ∃ r, BinaryOp.modulo.apply x y = .ok (.int r) ∧
        r.toInt = a.toInt - b.toInt * a.toInt.tdiv b.toInt ∧ r.toInt.natAbs < b.toInt.natAbs ∧
        (0 ≤ a.toInt → 0 ≤ r.toInt) ∧ (a.toInt ≤ 0 → r.toInt ≤ 0)) ∧
      (b ≠ 0 → (a = Int64.minValue ∧ b = -1 → BinaryOp.intDivide.apply x y = .error .overflow) ∧
        (¬(a = Int64.minValue ∧ b = -1) →
          ∃ q, BinaryOp.intDivide.apply x y = .ok (.int q) ∧ q.toInt = a.toInt.tdiv b.toInt))) := by
  refine ⟨fun a b hx hy v => ⟨?_, ?_, ?_, ?_⟩, fun a hx v => negate_int_iff hx v,
    fun a b hx hy => integer_division_exact hx hy⟩
  · rw [Arith.arithmetic_int_iff (show Arith.intOp? .add = some (· + ·) from rfl) hx hy,
      ← toInt_eq_iff_bounds]
  · rw [Arith.arithmetic_int_iff (show Arith.intOp? .subtract = some (· - ·) from rfl) hx hy,
      ← toInt_eq_iff_bounds]
  · rw [Arith.arithmetic_int_iff (show Arith.intOp? .multiply = some (· * ·) from rfl) hx hy,
      ← toInt_eq_iff_bounds]
  · rw [Arith.power_int_iff hx hy, ← toInt_eq_iff_bounds]

/-- The greatest integer plus one is no integer: the exact sum is past the 64-bit range. -/
theorem greatest_integer_plus_one_is_no_integer :
    (Value.int Int64.maxValue).toNumber = .ok (.int Int64.maxValue) ∧
      (Value.int 1).toNumber = .ok (.int 1) ∧
      ∀ v, BinaryOp.add.apply (.int Int64.maxValue) (.int 1) ≠ .ok (.int v) := by
  refine ⟨rfl, rfl, fun v hv => ?_⟩
  have h := ((integer_results_exact (.int Int64.maxValue) (.int 1)).1 _ _ rfl rfl v).1.mp hv
  exact absurd h.1.2 (by decide)

end ScriptFold
