import Mathlib
import ScriptFold.Proofs.LongestMatch
/-!
Radix numbers: the text after `&H` or `&O`, read as a 64-bit pattern.

`Value.readRadix?` drops one closing `&` and hands the rest to the number reader, which takes an
optional `+` and then one digit of the radix or more, letters in either case; a value below
`2 ^ 64` is read as a 64-bit pattern in two's complement. The digits are stated here on their
own (`Numeral.RadixDigit`, `Numeral.RadixText`), apart from the digit table the reader uses.

Main statement: `radix_text_reads_digits`. The radix reader, the literal reader on every
scanned `&H` or `&O` token, and numeric coercion of `&H` or `&O` text each accept exactly such
digits, with the value their two's-complement reading. Scanned tokens never hold the sign, since
the scanner takes only letters and digits after the marker; coercion of text does take it
(`plus_sign_radix_text_reads`).
-/
namespace ScriptFold

set_option autoImplicit false

namespace Numeral

/-! ## Digits stated on their own -/

/-- `c` is a digit of `radix` of value `v`: `0` to `9` for the values below ten, and for the
others the letters from `a`, or from `A`, on. -/
def RadixDigit (radix : Nat) (c : Char) (v : Nat) : Prop :=
  v < radix ∧ ((v < 10 ∧ c.toNat = '0'.toNat + v) ∨
    (10 ≤ v ∧ v < 36 ∧ (c.toNat + 10 = 'a'.toNat + v ∨ c.toNat + 10 = 'A'.toNat + v)))

/-- `ds` is one digit of `radix` or more, the most significant first, of value `n`. -/
def RadixText (radix : Nat) (ds : List Char) (n : Nat) : Prop :=
  ∃ vs, List.Forall₂ (RadixDigit radix) ds vs ∧ vs ≠ [] ∧ n = Nat.ofDigits radix vs.reverse

theorem digitValue_eq_some_iff {c : Char} {v radix : Nat} :
    digitValue c = some v ∧ v < radix ↔ RadixDigit radix c v := by
  have hv : c.toNat = c.val.toNat := rfl
  have hdig : c.isDigit = true ↔ 48 ≤ c.toNat ∧ c.toNat ≤ 57 := Char.isDigit_iff_toNat
  have hlow : c.isLower = true ↔ 97 ≤ c.toNat ∧ c.toNat ≤ 122 := by
    simp only [Char.isLower, Bool.and_eq_true, decide_eq_true_eq, ge_iff_le,
      UInt32.le_iff_toNat_le, hv]
    rfl
  have hup : c.isUpper = true ↔ 65 ≤ c.toNat ∧ c.toNat ≤ 90 := by
    simp only [Char.isUpper, decide_eq_true_eq, ge_iff_le, UInt32.le_iff_toNat_le, hv]
    rfl
  unfold digitValue RadixDigit
  simp only [Char.reduceToNat]
  by_cases h1 : c.isDigit = true
  · rw [if_pos h1, Option.some.injEq]
    have := hdig.mp h1
    omega
  · by_cases h2 : c.isLower = true
    · rw [if_neg h1, if_pos h2, Option.some.injEq]
      have := hlow.mp h2
      omega
    · by_cases h3 : c.isUpper = true
      · rw [if_neg h1, if_neg h2, if_pos h3, Option.some.injEq]
        have := hup.mp h3
        omega
      · rw [if_neg h1, if_neg h2, if_neg h3]
        simp only [reduceCtorEq, false_and, false_iff]
        rw [hdig] at h1
        rw [hlow] at h2
        rw [hup] at h3
        omega

theorem not_radixDigit_plus (radix v : Nat) : ¬RadixDigit radix '+' v := by
  unfold RadixDigit
  simp only [Char.reduceToNat]
  omega

theorem not_radixDigit_ampersand (radix v : Nat) : ¬RadixDigit radix '&' v := by
  unfold RadixDigit
  simp only [Char.reduceToNat]
  omega

/-! ## The digit reader -/

theorem foldlM_digits_eq_some_iff (radix : Nat) (cs : List Char) (a n : Nat) :
    cs.foldlM (fun n c => (digitValue c).bind fun d =>
      if d < radix then some (radix * n + d) else none) a = some n ↔
    ∃ vs, List.Forall₂ (RadixDigit radix) cs vs ∧
      n = a * radix ^ cs.length + Nat.ofDigits radix vs.reverse := by
  induction cs generalizing a with
  | nil =>
    rw [List.foldlM_nil]
    constructor
    · rintro ⟨⟩
      exact ⟨[], .nil, by simp⟩
    · rintro ⟨vs, h, rfl⟩
      rw [List.forall₂_nil_left_iff.mp h]
      simp
  | cons c cs ih =>
    have hstep : ∀ m, ((digitValue c).bind fun d =>
        if d < radix then some (radix * a + d) else none) = some m ↔
        ∃ v, RadixDigit radix c v ∧ m = radix * a + v := by
      intro m
      simp only [Option.bind_eq_some_iff, ← digitValue_eq_some_iff]
      constructor
      · rintro ⟨d, hd, hm⟩
        split at hm
        · exact ⟨d, ⟨hd, ‹_›⟩, (Option.some.inj hm).symm⟩
        · cases hm
      · rintro ⟨v, ⟨hd, hlt⟩, rfl⟩
        exact ⟨v, hd, if_pos hlt⟩
    have hval : ∀ v vs, cs.length = vs.length →
        (radix * a + v) * radix ^ cs.length + Nat.ofDigits radix vs.reverse =
          a * radix ^ (c :: cs).length + Nat.ofDigits radix (v :: vs).reverse := by
      intro v vs hlen
      rw [List.reverse_cons, Nat.ofDigits_append, List.length_reverse, ← hlen,
        Nat.ofDigits_singleton, List.length_cons, Nat.pow_succ]
      ring
    rw [List.foldlM_cons]
    constructor
    · intro h
      obtain ⟨m, hm, hrest⟩ := Option.bind_eq_some_iff.mp h
      obtain ⟨v, hv, rfl⟩ := (hstep m).mp hm
      obtain ⟨vs, hvs, rfl⟩ := (ih _).mp hrest
      exact ⟨v :: vs, .cons hv hvs, hval v vs hvs.length_eq⟩
    · rintro ⟨_ | ⟨v, vs⟩, h, rfl⟩
      · cases h
      · obtain ⟨hv, hvs⟩ := List.forall₂_cons.mp h
        refine Option.bind_eq_some_iff.mpr ⟨radix * a + v, (hstep _).mpr ⟨v, hv, rfl⟩, ?_⟩
        exact (ih _).mpr ⟨vs, hvs, (hval v vs hvs.length_eq).symm⟩

theorem radixText_iff {radix : Nat} {ds : List Char} {n : Nat} :
    RadixText radix ds n ↔ ds ≠ [] ∧ radixDigits radix ds = some n := by
  rw [radixDigits, foldlM_digits_eq_some_iff]
  constructor
  · rintro ⟨vs, h, hne, rfl⟩
    exact ⟨fun hds => hne (List.forall₂_nil_left_iff.mp (hds ▸ h)), vs, h, by simp⟩
  · rintro ⟨hne, vs, h, rfl⟩
    exact ⟨vs, h, fun hvs => hne (List.forall₂_nil_right_iff.mp (hvs ▸ h)), by simp⟩

theorem not_radixText_plus (radix n : Nat) (rest : List Char) :
    ¬RadixText radix ('+' :: rest) n := by
  rintro ⟨_ | ⟨v, vs⟩, h, -, -⟩
  · cases h
  · exact not_radixDigit_plus radix v (List.forall₂_cons.mp h).1

theorem RadixText.getLast?_ne {radix n : Nat} {ds : List Char} (h : RadixText radix ds n) :
    ds.getLast? ≠ some '&' := by
  obtain ⟨vs, hvs, -, -⟩ := h
  have hall : ∀ c ∈ ds, c ≠ '&' := by
    induction hvs with
    | nil => simp
    | @cons c v cs vs hd _ ih =>
      intro x hx
      rcases List.mem_cons.mp hx with rfl | hx
      · rintro rfl
        exact not_radixDigit_ampersand radix v hd
      · exact ih x hx
  exact fun hlast => hall '&' (List.mem_of_getLast? hlast) rfl

theorem readRadix?_plus (radix : Nat) (rest : List Char) (n : Nat) :
    readRadix? radix ('+' :: rest) = some n ↔ RadixText radix rest n := by
  simp only [readRadix?, radixText_iff, List.isEmpty_iff]
  split <;> simp_all

theorem readRadix?_of_ne_plus (radix : Nat) {c : Char} (hc : c ≠ '+') (rest : List Char)
    (n : Nat) : readRadix? radix (c :: rest) = some n ↔ RadixText radix (c :: rest) n := by
  simp only [readRadix?, radixText_iff, List.isEmpty_iff]
  split
  · rename_i h
    exact absurd (List.cons.inj h).1 hc
  · simp

theorem readRadix?_eq_some_iff {radix : Nat} {cs : List Char} {n : Nat} :
    readRadix? radix cs = some n ↔
      ∃ sign ds, cs = sign ++ ds ∧ (sign = [] ∨ sign = ['+']) ∧ RadixText radix ds n := by
  rcases cs with _ | ⟨c, rest⟩
  · simp only [readRadix?, List.isEmpty_nil, if_true, reduceCtorEq, false_iff]
    rintro ⟨sign, ds, hnil, -, hds⟩
    exact (radixText_iff.mp hds).1 (List.append_eq_nil_iff.mp hnil.symm).2
  · by_cases hc : c = '+'
    · subst hc
      rw [readRadix?_plus]
      constructor
      · exact fun h => ⟨['+'], rest, rfl, .inr rfl, h⟩
      · rintro ⟨sign, ds, hcs, rfl | rfl, hds⟩
        · exact absurd (hcs ▸ hds) (not_radixText_plus radix n rest)
        · exact (List.cons.inj hcs).2 ▸ hds
    · rw [readRadix?_of_ne_plus radix hc]
      constructor
      · exact fun h => ⟨[], c :: rest, rfl, .inl rfl, h⟩
      · rintro ⟨sign, ds, hcs, rfl | rfl, hds⟩
        · exact hcs ▸ hds
        · exact absurd (List.cons.inj hcs).1 hc

end Numeral

open Numeral

/-! ## Sixty-four bits -/

/-- A 64-bit pattern read as a signed integer, two's complement. -/
def signedPattern (n : Nat) : Int := if n < 2 ^ 63 then n else n - 2 ^ 64

theorem pattern_eq_some_iff (n : Nat) (v : Int64) :
    (if n < 2 ^ 64 then some (Int64.ofInt (signedPattern n)) else none) = some v ↔
      n < 2 ^ 64 ∧ v.toInt = signedPattern n := by
  split
  · rename_i h
    have hb : -2 ^ 63 ≤ signedPattern n ∧ signedPattern n < 2 ^ 63 := by
      unfold signedPattern
      split <;> omega
    rw [Option.some.injEq, ← Int64.toInt_inj, Int64.toInt_ofInt_of_le hb.1 hb.2]
    exact ⟨fun h' => ⟨h, h'.symm⟩, fun h' => h'.2.symm⟩
  · rename_i h
    simp only [reduceCtorEq, false_iff, not_and]
    exact fun h' => absurd h' h

/-- `s` is digits of `radix` with at most one closing `&`, whose value `n` is below `2 ^ 64`,
and `v` is `n` read in two's complement. -/
def RadixReading (radix : Nat) (s : List Char) (v : Int64) : Prop :=
  ∃ ds n, (s = ds ∨ s = ds ++ ['&']) ∧ RadixText radix ds n ∧ n < 2 ^ 64 ∧
    v.toInt = signedPattern n

theorem not_radixReading_plus (radix : Nat) (rest : List Char) (v : Int64) :
    ¬RadixReading radix ('+' :: rest) v := by
  rintro ⟨ds, n, hs | hs, hds, -⟩
  · exact not_radixText_plus radix n rest (hs ▸ hds)
  · rcases ds with _ | ⟨c, ds⟩
    · exact (radixText_iff.mp hds).1 rfl
    · obtain ⟨rfl, -⟩ := List.cons.inj hs
      exact not_radixText_plus radix n ds hds

namespace Value

theorem readRadix?_eq_bind (radix : Nat) (s : List Char) :
    readRadix? radix s =
      (Numeral.readRadix? radix (if s.getLast? = some '&' then s.dropLast else s)).bind fun n =>
        if n < 2 ^ 64 then some (Int64.ofInt (signedPattern n)) else none := by
  unfold readRadix? signedPattern
  generalize (if s.getLast? = some '&' then s.dropLast else s) = digits
  dsimp only
  split
  · rename_i h
    rw [List.isEmpty_iff.mp h]
    rfl
  · rfl

theorem readRadix?_eq_some_iff {radix : Nat} {s : List Char} {v : Int64} :
    readRadix? radix s = some v ↔
      ∃ sign ds n, (s = sign ++ ds ∨ s = sign ++ ds ++ ['&']) ∧ (sign = [] ∨ sign = ['+']) ∧
        RadixText radix ds n ∧ n < 2 ^ 64 ∧ v.toInt = signedPattern n := by
  rw [readRadix?_eq_bind, Option.bind_eq_some_iff]
  constructor
  · rintro ⟨n, hn, hv⟩
    obtain ⟨sign, ds, hcs, hsign, hds⟩ := Numeral.readRadix?_eq_some_iff.mp hn
    obtain ⟨hlt, hval⟩ := (pattern_eq_some_iff n v).mp hv
    refine ⟨sign, ds, n, ?_, hsign, hds, hlt, hval⟩
    split at hcs
    · rename_i hlast
      obtain ⟨pre, rfl⟩ := List.getLast?_eq_some_iff.mp hlast
      rw [List.dropLast_concat] at hcs
      exact .inr (by rw [hcs])
    · exact .inl hcs
  · rintro ⟨sign, ds, n, hs | hs, hsign, hds, hlt, hval⟩
    · have hlast : s.getLast? ≠ some '&' := by
        rw [hs, List.getLast?_append_of_ne_nil _ (radixText_iff.mp hds).1]
        exact RadixText.getLast?_ne hds
      refine ⟨n, ?_, (pattern_eq_some_iff n v).mpr ⟨hlt, hval⟩⟩
      rw [if_neg hlast, Numeral.readRadix?_eq_some_iff]
      exact ⟨sign, ds, hs, hsign, hds⟩
    · refine ⟨n, ?_, (pattern_eq_some_iff n v).mpr ⟨hlt, hval⟩⟩
      rw [if_pos (by rw [hs, List.getLast?_concat]), hs, List.dropLast_concat,
        Numeral.readRadix?_eq_some_iff]
      exact ⟨sign, ds, rfl, hsign, hds⟩

theorem readRadix?_eq_some_iff_reading {radix : Nat} {s : List Char} {v : Int64} :
    readRadix? radix s = some v ↔
      RadixReading radix s v ∨ ∃ digits, s = '+' :: digits ∧ RadixReading radix digits v := by
  rw [readRadix?_eq_some_iff]
  constructor
  · rintro ⟨sign, ds, n, hs, rfl | rfl, hds, hlt, hv⟩
    · exact .inl ⟨ds, n, hs, hds, hlt, hv⟩
    · rcases hs with rfl | rfl
      · exact .inr ⟨ds, rfl, ds, n, .inl rfl, hds, hlt, hv⟩
      · exact .inr ⟨ds ++ ['&'], rfl, ds, n, .inr rfl, hds, hlt, hv⟩
  · rintro (⟨ds, n, hs, hds, hlt, hv⟩ | ⟨digits, rfl, ds, n, hs, hds, hlt, hv⟩)
    · exact ⟨[], ds, n, hs, .inl rfl, hds, hlt, hv⟩
    · refine ⟨['+'], ds, n, ?_, .inr rfl, hds, hlt, hv⟩
      rcases hs with rfl | rfl
      · exact .inl rfl
      · exact .inr rfl

theorem readRadix?_eq_some_iff_unsigned {radix : Nat} {c : Char} (hc : c ≠ '+')
    (rest : List Char) {v : Int64} :
    readRadix? radix (c :: rest) = some v ↔ RadixReading radix (c :: rest) v := by
  rw [readRadix?_eq_some_iff_reading]
  constructor
  · rintro (h | ⟨digits, hs, -⟩)
    · exact h
    · exact absurd (List.cons.inj hs).1 hc
  · exact .inl

end Value

/-! ## Scanned radix literals -/

namespace Scan

theorem scan_token_lexeme {s : String} {t : Token} (ht : .ok t ∈ Token.scan s)
    (hk : t.kind ≠ .eof) : Lexeme t.lexeme.toList t.kind := by
  obtain ⟨items, hw⟩ := exists_walk 0 s.toList
  have hscan := hw.scanFrom_eq
  rw [List.append_nil, scanFrom_nil, Nat.zero_add] at hscan
  rw [Token.scan, hscan, List.mem_append] at ht
  rcases ht with ht | ht
  · obtain ⟨it, hit, hsome⟩ := List.mem_filterMap.mp ht
    obtain ⟨pre, post, rfl⟩ := List.mem_iff_append.mp hit
    obtain ⟨a, b, -, -, hrest⟩ := Walk.split hw
    have hmatch := hrest.longestMatch_head
    rw [List.append_nil] at hmatch
    exact (hmatch.1 t hsome).2.2.1
  · rw [List.mem_singleton, Except.ok.injEq] at ht
    exact absurd (by rw [ht]; rfl) hk

theorem Lexeme.radix_parts {w : List Char} {kind : LiteralKind} (h : Lexeme w (.literal kind))
    (hk : kind = .hex ∨ kind = .octal) :
    ∃ m ds suffix, w = '&' :: m :: (ds ++ suffix) ∧ (m, kind) ∈ radixMarkers ∧ ds ≠ [] ∧
      (∀ c ∈ ds, c.isAlphanum = true) ∧ (suffix = [] ∨ suffix = ['&']) := by
  rcases hk with rfl | rfl <;> cases h with
  | radix hm hne hds hs => exact ⟨_, _, _, rfl, hm, hne, hds, hs⟩
  | punctuator h => simp [punctuators] at h
  | keyword _ _ hk => simp [keywords] at hk

end Scan

/-- The radix of a literal kind that has one. -/
def LiteralKind.radix : LiteralKind → Nat
  | .hex => 16
  | .octal => 8
  | _ => 10

theorem Literal.read?_radix {kind : LiteralKind} (hk : kind = .hex ∨ kind = .octal)
    (text : String) :
    Literal.read? kind text =
      (Literal.dropBytes? 2 text.toList).bind fun ds => (Value.readRadix? kind.radix ds).map .int := by
  rcases hk with rfl | rfl <;> rfl

theorem Literal.dropBytes?_two {a b : Char} (ha : a.utf8Size = 1) (hb : b.utf8Size = 1)
    (rest : List Char) : Literal.dropBytes? 2 (a :: b :: rest) = some rest := by
  simp [Literal.dropBytes?, ha, hb]

theorem Scan.utf8Size_of_mem_radixMarkers {m : Char} {kind : LiteralKind}
    (hm : (m, kind) ∈ Scan.radixMarkers) : m.utf8Size = 1 := by
  simp only [Scan.radixMarkers, List.mem_cons, Prod.mk.injEq, List.not_mem_nil, or_false] at hm
  rcases hm with ⟨rfl, -⟩ | ⟨rfl, -⟩ | ⟨rfl, -⟩ | ⟨rfl, -⟩ <;> rfl

theorem Token.literalValue_eq_ok_iff {t : Token} {kind : LiteralKind}
    (hk : t.kind = .literal kind) {x : Value} :
    t.literalValue = .ok x ↔ Literal.read? kind t.lexeme = some x := by
  unfold literalValue
  rw [hk]
  dsimp only
  split <;> simp_all

theorem Token.literalValue_radix {s : String} {t : Token} {kind : LiteralKind}
    (ht : .ok t ∈ Token.scan s) (hkind : t.kind = .literal kind) (hk : kind = .hex ∨ kind = .octal)
    (x : Value) :
    t.literalValue = .ok x ↔
      ∃ v, RadixReading kind.radix (t.lexeme.toList.drop 2) v ∧ .int v = x := by
  have hlex := Scan.scan_token_lexeme ht (by rw [hkind]; exact fun h => nomatch h)
  rw [hkind] at hlex
  obtain ⟨m, ds, suffix, hw, hm, hne, hds, -⟩ := hlex.radix_parts hk
  obtain ⟨d, ds', rfl⟩ := List.exists_cons_of_ne_nil hne
  have hd : d ≠ '+' := by
    rintro rfl
    exact absurd (hds '+' (List.mem_cons_self ..)) (by decide)
  rw [literalValue_eq_ok_iff hkind, Literal.read?_radix hk, hw,
    Literal.dropBytes?_two rfl (Scan.utf8Size_of_mem_radixMarkers hm), Option.bind_some,
    List.drop_succ_cons, List.drop_succ_cons, List.drop_zero, List.cons_append,
    Option.map_eq_some_iff]
  simp only [Value.readRadix?_eq_some_iff_unsigned hd]

/-! ## Numeric coercion of radix text -/

theorem Value.readNumber?_radix {s : String} {m : Char} {rest : List Char} {kind : LiteralKind}
    (htrim : Text.trimBlanks s.toList = '&' :: m :: rest) (hm : (m, kind) ∈ Scan.radixMarkers) :
    readNumber? s = (readRadix? kind.radix rest).map .int := by
  obtain ⟨hmark, rfl⟩ := Scan.mem_radixMarkers_iff.mp hm
  rcases rest with _ | ⟨d, ds⟩
  · simp only [readNumber?, htrim]
    rfl
  · simp only [readNumber?, htrim]
    by_cases hH : (m.toUpper == 'H') = true
    · simp only [hH, if_true, LiteralKind.radix]
    · have hO : (m.toUpper == 'O') = true := by simpa [hH] using hmark
      simp only [hH, hO, if_true, if_false, Bool.false_eq_true, LiteralKind.radix]

/-! ## Radix numbers -/

/-- Radix numbers read exactly their digits, with two's-complement reinterpretation. For the
radix of `&H` or `&O` and any text `s`, the radix reader accepts `s` exactly when, after at most
one closing `&` is dropped, it is one digit of the radix or more, letters in either case, of value
`n` below `2 ^ 64`, perhaps after one `+`; the result is `n`, less `2 ^ 64` from `2 ^ 63` on. A
scanned token whose characters after the marker are `s` reads as that integer exactly when `s`
is such digits, with no sign; numeric coercion of text that trims to the marker and `s` reads
`s` with the sign allowed. -/
theorem radix_text_reads_digits (kind : LiteralKind) (hk : kind = .hex ∨ kind = .octal)
    (s : List Char) :
    (∀ v, Value.readRadix? kind.radix s = some v ↔ RadixReading kind.radix s v ∨
      ∃ digits, s = '+' :: digits ∧ RadixReading kind.radix digits v) ∧
    (∀ src (t : Token), .ok t ∈ Token.scan src → t.kind = .literal kind →
      t.lexeme.toList.drop 2 = s → ∀ x, t.literalValue = .ok x ↔
        ∃ v, RadixReading kind.radix s v ∧ .int v = x) ∧
    (∀ text m, Text.trimBlanks text.toList = '&' :: m :: s → (m, kind) ∈ Scan.radixMarkers →
      ∀ x, Value.readNumber? text = some x ↔
        ∃ v, (RadixReading kind.radix s v ∨
          ∃ digits, s = '+' :: digits ∧ RadixReading kind.radix digits v) ∧ .int v = x) := by
  refine ⟨fun v => Value.readRadix?_eq_some_iff_reading, fun src t ht hkind hs x => ?_,
    fun text m htrim hm x => ?_⟩
  · rw [← hs]
    exact Token.literalValue_radix ht hkind hk x
  · rw [Value.readNumber?_radix htrim hm, Option.map_eq_some_iff]
    simp only [Value.readRadix?_eq_some_iff_reading]

/-- Blank-padded octal text with a closing `&` coerces to the value of its digits. -/
theorem octal_text_with_closing_ampersand_coerces :
    Value.readNumber? " &o17& " = some (.int 15) :=
  ((radix_text_reads_digits .octal (.inr rfl) ['1', '7', '&']).2.2 " &o17& " 'o' rfl
    (by simp [Scan.radixMarkers]) (.int 15)).mpr
    ⟨15, .inl ⟨['1', '7'], 15, .inr rfl,
      ⟨[1, 7], .cons ⟨by decide, .inl ⟨by decide, rfl⟩⟩
        (.cons ⟨by decide, .inl ⟨by decide, rfl⟩⟩ .nil), by simp, by decide⟩, by decide, by decide⟩, rfl⟩

/-- The radix reader also takes a `+` before the digits, and so does numeric coercion: `+1F`
reads as 31 and `&H+1F` coerces to 31, though `+1F` is no radix text. -/
theorem plus_sign_radix_text_reads :
    Value.readRadix? 16 ['+', '1', 'F'] = some 31 ∧ (∀ v, ¬RadixReading 16 ['+', '1', 'F'] v) ∧
      Value.readNumber? "&H+1F" = some (.int 31) :=
  ⟨by decide, not_radixReading_plus 16 ['1', 'F'], rfl⟩

end ScriptFold
