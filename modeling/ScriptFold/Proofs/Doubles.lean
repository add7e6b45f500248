import Mathlib
import ScriptFold.Numeral.Digits
/-!
Two facts about doubles that their literals rest on.

* The shortest digits of a double are a nonempty string of decimal digits
  (`Numeral.Digits.shortest_wellFormed`). A grid neighbour is picked only when it lies in the
  rounding interval, whose lower end is positive, so it is positive; the fallback of seventeen
  significant digits keeps a positive leading digit because the value's magnitude
  (`Numeral.Digits.magnitude`) puts a power of ten below it (`gridBelow_magnitude`).
* A finite double's bits are fixed by its decoded view, and negation flips exactly the sign of
  that view (`Numeral.Double.eq_of_decode`, `Numeral.Double.neg_eq_of_decode`).
-/
namespace ScriptFold.Numeral

set_option autoImplicit false

namespace Digits

/-! ## Magnitudes -/

theorem digitCount_spec (n : Nat) (hn : 0 < n) :
    1 ≤ digitCount n ∧ 10 ^ (digitCount n - 1) ≤ n ∧ n < 10 ^ digitCount n := by
  induction n using Nat.strongRecOn with
  | _ n ih =>
    rw [digitCount]
    split
    · simp
      omega
    · rename_i h
      obtain ⟨h1, h2, h3⟩ := ih (n / 10) (by omega) (by omega)
      refine ⟨by omega, ?_, ?_⟩
      · obtain ⟨k, hk⟩ : ∃ k, digitCount (n / 10) = k + 1 := ⟨_, (Nat.succ_pred_eq_of_pos h1).symm⟩
        rw [hk, Nat.add_sub_cancel] at h2
        rw [Nat.add_sub_cancel, hk, Nat.pow_succ]
        omega
      · rw [Nat.pow_succ]
        omega

/-- `10 ^ p ≤ num / den`, cross-multiplied as the grid `10 ^ p` scales it. -/
def GridBelow (num den : Nat) (p : Int) : Prop :=
  (gridScale den p).1 ≤ num * (gridScale den p).2

theorem one_le_pow_ten (k : Nat) : 1 ≤ 10 ^ k := Nat.one_le_pow _ _ (by decide)

theorem gridBelow_mono {num den : Nat} {p q : Int} (h : GridBelow num den p) (hq : q ≤ p) :
    GridBelow num den q := by
  unfold GridBelow gridScale at *
  by_cases hp : 0 ≤ p <;> by_cases hq0 : 0 ≤ q <;> simp only [hp, hq0, if_true, if_false] at h ⊢
  · have := Nat.pow_le_pow_right (show 0 < 10 by decide) (show q.toNat ≤ p.toNat by omega)
    have := Nat.mul_le_mul_left den this
    omega
  · have := Nat.le_mul_of_pos_right den (one_le_pow_ten p.toNat)
    have := Nat.le_mul_of_pos_right num (one_le_pow_ten (-q).toNat)
    omega
  · omega
  · have := Nat.pow_le_pow_right (show 0 < 10 by decide) (show (-p).toNat ≤ (-q).toNat by omega)
    have := Nat.mul_le_mul_left num this
    omega

theorem gridBelow_magnitude {num den : Nat} (hn : 0 < num) (hd : 0 < den) :
    GridBelow num den (magnitude num den - 1) := by
  obtain ⟨hn1, hn2, -⟩ := digitCount_spec num hn
  obtain ⟨-, -, hd3⟩ := digitCount_spec den hd
  unfold magnitude
  dsimp only
  generalize digitCount num = a at *
  generalize digitCount den = b at *
  generalize hg : (a : Int) - b = g
  by_cases hbelow : (if 0 ≤ g then decide (num < den * 10 ^ g.toNat)
      else decide (num * 10 ^ (-g).toNat < den)) = true
  · rw [if_pos hbelow]
    unfold GridBelow gridScale
    by_cases hab : b + 1 ≤ a
    · rw [if_pos (by omega), show (g - 1).toNat = a - b - 1 by omega]
      have hpow : 10 ^ b * 10 ^ (a - b - 1) = 10 ^ (a - 1) := by
        rw [← Nat.pow_add]
        congr 1
        omega
      have := Nat.mul_le_mul_right (10 ^ (a - b - 1)) (Nat.le_of_lt hd3)
      simp only
      omega
    · rw [if_neg (by omega), show (-(g - 1)).toNat = b + 1 - a by omega]
      have hpow : 10 ^ (a - 1) * 10 ^ (b + 1 - a) = 10 ^ b := by
        rw [← Nat.pow_add]
        congr 1
        omega
      have := Nat.mul_le_mul_right (10 ^ (b + 1 - a)) hn2
      simp only
      omega
  · rw [if_neg hbelow, Int.add_sub_cancel]
    unfold GridBelow gridScale
    split at hbelow
    · rename_i h0
      rw [if_pos h0]
      simp only [decide_eq_true_eq] at hbelow
      simp only
      omega
    · rename_i h0
      rw [if_neg h0]
      simp only [decide_eq_true_eq] at hbelow
      simp only
      omega

theorem gridBelow_quotient_pos {num den : Nat} {p : Int} (h : GridBelow num den p)
    (hd : 0 < den) : 0 < num * (gridScale den p).2 / (gridScale den p).1 := by
  have ha : 0 < (gridScale den p).1 := by
    unfold gridScale
    split
    · exact Nat.mul_pos hd (one_le_pow_ten _)
    · exact hd
  exact Nat.div_pos h ha

/-! ## Digit strings -/

/-- A nonempty string of decimal digits. -/
def WellFormed (d : Digits) : Prop :=
  d.digits ≠ [] ∧ ∀ c ∈ d.digits, c.isDigit = true

theorem zero_wellFormed : zero.WellFormed :=
  ⟨by simp [zero], by simp [zero]⟩

theorem ofScaled_wellFormed {c : Nat} (hc : 0 < c) (p : Int) : (ofScaled c p).WellFormed := by
  have htext : (toString c).toList = Nat.toDigits 10 c := by
    simp [toString, Nat.repr_eq_ofList_toDigits]
  have hdig : ∀ x ∈ Nat.toDigits 10 c, x.isDigit = true :=
    fun x hx => Nat.isDigit_of_mem_toDigits (by decide) (by decide) hx
  simp only [WellFormed, ofScaled, htext]
  constructor
  · intro hnil
    rw [List.reverse_eq_nil_iff, List.dropWhile_eq_nil_iff] at hnil
    have hzero : Nat.toDigits 10 c = List.replicate (Nat.toDigits 10 c).length '0' :=
      List.eq_replicate_iff.mpr ⟨rfl, fun x hx => by simpa using hnil x (List.mem_reverse.mpr hx)⟩
    have hval := Nat.ofDigitChars_ten_toDigits (n := c)
    rw [hzero, Nat.ofDigitChars_replicate_zero, Nat.mul_zero] at hval
    omega
  · intro x hx
    rw [List.mem_reverse] at hx
    exact hdig x (List.mem_reverse.mp ((List.dropWhile_suffix _).subset hx))

theorem significant_wellFormed {places num den : Nat} (hpl : 0 < places) (hd : 0 < den) :
    (significant places num den).WellFormed := by
  unfold significant
  split
  · exact zero_wellFormed
  · rename_i hn
    dsimp only
    apply ofScaled_wellFormed
    split
    · exact Nat.succ_pos _
    · exact gridBelow_quotient_pos (gridBelow_mono (gridBelow_magnitude (by omega) hd) (by omega)) hd

theorem gridScale_snd_pos (den : Nat) (p : Int) : 0 < (gridScale den p).2 := by
  unfold gridScale
  split
  · exact Nat.one_pos
  · exact one_le_pow_ten _

theorem pickOnGrid_pos {halfway : Halfway} {low value high den : Nat} {inclusive : Bool} {p : Int}
    {r : Nat} (hlow : 0 < low) (h : pickOnGrid halfway low value high den inclusive p = some r) :
    0 < r := by
  have hb := gridScale_snd_pos den p
  unfold pickOnGrid at h
  generalize gridScale den p = ab at h hb
  obtain ⟨a, b⟩ := ab
  dsimp only at h hb
  generalize value * b / a = c at h
  rcases Nat.eq_zero_or_pos c with hc | hc
  · subst hc
    have hpos := Nat.mul_pos hlow hb
    have h1 : ¬(0 * a ≥ low * b) := by omega
    have h2 : ¬(0 * a > low * b) := by omega
    cases inclusive <;>
      simp only [Bool.false_eq_true, if_false, if_true, h1, h2, decide_false, Bool.false_and] at h
    all_goals
      split at h
      · cases h
        omega
      · cases h
  · have hpick : 0 < halfway.pick c := by
      cases halfway <;> simp only [Halfway.pick] <;> (try split) <;> omega
    repeat' split at h
    all_goals first | (cases h; omega) | cases h

theorem roundingInterval_pos {m : Nat} (hm : 0 < m) (e : Int) :
    0 < (roundingInterval m e).1 ∧ 0 < (roundingInterval m e).2.2.2 := by
  have hfrac : 0 < (Binary64.fraction 1 (e - 2)).1 := by
    unfold Binary64.fraction
    split
    · exact Nat.mul_pos Nat.one_pos Nat.one_le_two_pow
    · exact Nat.one_pos
  have hden := Binary64.fraction_den_pos 1 (e - 2)
  unfold roundingInterval
  dsimp only
  refine ⟨Nat.mul_pos ?_ hfrac, hden⟩
  split <;> omega

theorem shortest_wellFormed (halfway : Halfway) (m : Nat) (e : Int) :
    (shortest halfway m e).WellFormed := by
  unfold shortest
  split
  · exact zero_wellFormed
  · rename_i hm
    obtain ⟨hlow, hden⟩ := roundingInterval_pos (Nat.pos_of_ne_zero hm) e
    generalize roundingInterval m e = ri at hlow hden ⊢
    obtain ⟨low, value, high, den⟩ := ri
    dsimp only at hlow hden ⊢
    split
    · rename_i d hfind
      obtain ⟨i, -, hi⟩ := List.exists_of_findSome?_eq_some hfind
      obtain ⟨c, hc, rfl⟩ := Option.map_eq_some_iff.mp hi
      exact ofScaled_wellFormed (pickOnGrid_pos hlow hc) _
    · exact significant_wellFormed (by decide) hden

end Digits

/-! ## Bits of doubles -/

theorem xor_two_pow_of_lt {a n : Nat} (h : a < 2 ^ n) : a ^^^ 2 ^ n = a + 2 ^ n := by
  rw [← Nat.or_two_pow_eq_add_of_lt h]
  apply Nat.eq_of_testBit_eq
  intro i
  rw [Nat.testBit_xor, Nat.testBit_or, Nat.testBit_two_pow]
  by_cases hi : n = i
  · subst hi
    simp [Nat.testBit_lt_two_pow h]
  · simp [hi]

namespace Double

theorem toNat_of_decode {d : Double} {s : Bool} {m : Nat} {e : Int}
    (h : d.decode = .finite s m e) :
    d.bits.toNat = (if s then 2 ^ 63 else 0) +
      (if m < 2 ^ 52 then m else (e + 1075).toNat * 2 ^ 52 + (m - 2 ^ 52)) := by
  have hlt : d.bits.toNat < 2 ^ 64 := UInt64.toNat_lt_size d.bits
  unfold decode Binary64.ofBits at h
  generalize d.bits.toNat = n at h hlt ⊢
  dsimp only at h
  have hfb : 2 ^ Binary64.fractionBits = 2 ^ 52 := rfl
  have hsplit : n = n / 2 ^ 63 % 2 * 2 ^ 63 + n / 2 ^ 52 % 2 ^ 11 * 2 ^ 52 + n % 2 ^ 52 := by
    omega
  split at h
  · split at h <;> cases h
  · split at h
    · injection h with hs hm he
      subst hs hm he
      rename_i h1 h2
      rw [hfb] at h1 h2 ⊢
      rw [if_pos (Nat.mod_lt _ (by decide))]
      split <;> rename_i hs <;> rw [decide_eq_true_eq] at hs <;> omega
    · injection h with hs hm he
      subst hs hm he
      rename_i h1 h2
      rw [hfb] at h1 h2 ⊢
      rw [if_neg (show ¬(n % 2 ^ 52 + 2 ^ 52 < 2 ^ 52) by omega), Int.sub_add_cancel,
        Int.toNat_natCast]
      split <;> rename_i hs <;> rw [decide_eq_true_eq] at hs <;> omega

theorem eq_of_decode {a b : Double} {s : Bool} {m : Nat} {e : Int}
    (ha : a.decode = .finite s m e) (hb : b.decode = .finite s m e) : a = b := by
  have h := (toNat_of_decode ha).trans (toNat_of_decode hb).symm
  cases a
  cases b
  congr
  exact UInt64.toNat_inj.mp h

theorem neg_eq_of_decode {a b : Double} {m : Nat} {e : Int}
    (ha : a.decode = .finite false m e) (hb : b.decode = .finite true m e) : a.neg = b := by
  have h1 := toNat_of_decode ha
  have h2 := toNat_of_decode hb
  simp only [Bool.false_eq_true, if_false, if_true, Nat.zero_add] at h1 h2
  have hlt : a.bits.toNat < 2 ^ 63 := by
    have := UInt64.toNat_lt_size b.bits
    simp only [UInt64.size] at this
    omega
  cases b
  simp only [neg]
  congr
  apply UInt64.toNat_inj.mp
  rw [UInt64.toNat_xor, show (0x8000000000000000 : UInt64).toNat = 2 ^ 63 from rfl,
    xor_two_pow_of_lt hlt, h2, h1]
  omega

end Double

end ScriptFold.Numeral
