import Mathlib
import ScriptFold.Calendar.Pattern
import ScriptFold.Proofs.Calendar
/-!
Reading back the date text that literals are written with. A moment is written as its date
`YYYY-MM-DD`, its clock `HH:MM:SS`, or both joined by a blank; the loose date reader tries its
date patterns, then its date-and-time patterns, then its time patterns, and takes the first
pattern that reads the whole text.

Each piece of the written text is read by one pattern item, with what follows it left over
(`Pattern.readFrom_isoDate`, `Pattern.readFrom_clock`); every other date pattern fails on the
written year or on the written hour (`Pattern.readFrom_dates_yearText_none`,
`Pattern.readFrom_dates_clock_none`). The reader's century window moves a written year 0 to 99
into 1930 to 2029 (`CivilDate.throughWindow`), and the window keeps leap years, so the windowed
date is valid whenever the written one is.

Main statements: `Moment.ofText?_dateText_midnight`, `Moment.ofText?_timeText` and
`Moment.ofText?_dateTimeText`: each shape reads back as the moment through the window
(`Moment.throughWindow`), which is the moment itself exactly when its year is not 0 to 99
(`Moment.throughWindow_eq_self_iff`).
-/
namespace ScriptFold

set_option autoImplicit false

namespace Text

theorem isBlank_of_isDigit {c : Char} (h : c.isDigit = true) : isBlank c = false := by
  have hd := Char.isDigit_iff_toNat.mp h
  simp only [isBlank, blankRanges, List.any_cons, List.any_nil, Bool.or_false, Bool.or_eq_false_iff,
    Bool.and_eq_false_iff, decide_eq_false_iff_not, Nat.not_le]
  simp only [Char.reduceToNat] at hd
  omega

theorem dropBlanks_cons {c : Char} (h : isBlank c = false) (rest : List Char) :
    dropBlanks (c :: rest) = c :: rest := by
  simp [dropBlanks, h]

theorem dropBlanks_of_head {cs : List Char} (h : ∀ c ∈ cs.head?, isBlank c = false) :
    dropBlanks cs = cs := by
  cases cs with
  | nil => rfl
  | cons c rest => exact dropBlanks_cons (h c rfl) rest

theorem trimBlanks_of_ends {cs : List Char} (h1 : ∀ c ∈ cs.head?, isBlank c = false)
    (h2 : ∀ c ∈ cs.getLast?, isBlank c = false) : trimBlanks cs = cs := by
  unfold trimBlanks
  rw [dropBlanks_of_head h1, dropBlanks_of_head (by rw [List.head?_reverse]; exact h2),
    List.reverse_reverse]

end Text

namespace Numeral

theorem digitsValue_eq_ofDigitChars (cs : List Char) : digitsValue cs = Nat.ofDigitChars 10 cs 0 :=
  rfl

end Numeral

namespace Moment

theorem padded_toList (w n : Nat) :
    (padded w n).toList =
      List.replicate (w - (Nat.toDigits 10 n).length) '0' ++ Nat.toDigits 10 n := by
  simp [padded, String.toList_append, String.toList_ofList,
    Nat.repr_eq_ofList_toDigits, String.length_ofList]

theorem isDigit_of_mem_padded {w n : Nat} {c : Char} (h : c ∈ (padded w n).toList) :
    c.isDigit = true := by
  rw [padded_toList, List.mem_append] at h
  rcases h with h | h
  · rw [(List.mem_replicate.mp h).2]; decide
  · exact Nat.isDigit_of_mem_toDigits (by decide) (by decide) h

theorem digitsValue_padded (w n : Nat) : Numeral.digitsValue (padded w n).toList = n := by
  rw [padded_toList, Numeral.digitsValue_eq_ofDigitChars, Nat.ofDigitChars_append,
    Nat.ofDigitChars_replicate_zero, Nat.mul_zero, Nat.ofDigitChars_ten_toDigits]

theorem length_padded (w n : Nat) :
    (padded w n).toList.length = max w (Nat.toDigits 10 n).length := by
  rw [padded_toList, List.length_append, List.length_replicate]
  omega

theorem length_padded_of_lt {w n : Nat} (hw : 0 < w) (h : n < 10 ^ w) :
    (padded w n).toList.length = w := by
  have := (Nat.length_toDigits_le_iff (by decide) hw).mpr h
  rw [length_padded]
  omega

theorem exists_cons_padded (w n : Nat) (hw : 0 < w) :
    ∃ d more, (padded w n).toList = d :: more ∧ d.isDigit = true := by
  cases h : (padded w n).toList with
  | nil => have := length_padded w n; simp [h] at this; omega
  | cons d more => exact ⟨d, more, rfl, isDigit_of_mem_padded (by rw [h]; simp)⟩

end Moment

namespace Pattern

theorem readDigits_append {most : Nat} {ds rest : List Char} (hd : ∀ c ∈ ds, c.isDigit = true)
    (hne : ds ≠ []) (hlen : ds.length ≤ most)
    (hstop : ds.length < most → ∀ c ∈ rest.head?, c.isDigit = false) :
    readDigits most (ds ++ rest) = some (Numeral.digitsValue ds, rest) := by
  have htake : ((ds ++ rest).take most).takeWhile Char.isDigit = ds := by
    rw [List.take_append, List.take_of_length_le hlen, List.takeWhile_append_of_pos hd]
    rcases Nat.lt_or_ge ds.length most with hlt | hge
    · cases rest with
      | nil => simp
      | cons c more =>
        have hc := hstop hlt c (by simp)
        rw [show most - ds.length = (most - ds.length - 1) + 1 by omega, List.take_succ_cons,
          List.takeWhile_cons_of_neg (by simp [hc]), List.append_nil]
    · rw [show most - ds.length = 0 by omega, List.take_zero, List.takeWhile_nil, List.append_nil]
  simp only [readDigits, htake, List.isEmpty_iff, hne, if_false, List.drop_left]


/-- Reading a pattern from given fields, item after item, without the check that the text is
used up. -/
def readFrom (p : Pattern) (f : DateFields) (cs : List Char) : Option (DateFields × List Char) :=
  p.foldl (fun acc item => acc.bind fun (f, r) => readItem f item r) (some (f, cs))

theorem foldl_read_none (p : Pattern) :
    p.foldl (fun acc item => acc.bind fun (f, r) => readItem f item r) none = none := by
  induction p with
  | nil => rfl
  | cons _ _ ih => exact ih

@[simp] theorem readFrom_nil (f : DateFields) (cs : List Char) : readFrom [] f cs = some (f, cs) :=
  rfl

theorem readFrom_cons (item : PatternItem) (p : Pattern) (f : DateFields) (cs : List Char) :
    readFrom (item :: p) f cs = (readItem f item cs).bind fun (f', r) => readFrom p f' r := by
  simp only [readFrom, List.foldl_cons, Option.bind_some]
  cases readItem f item cs with
  | none => exact foldl_read_none p
  | some _ => rfl

theorem readFrom_append (p q : Pattern) (f : DateFields) (cs : List Char) :
    readFrom (p ++ q) f cs = (readFrom p f cs).bind fun (f', r) => readFrom q f' r := by
  induction p generalizing f cs with
  | nil => rfl
  | cons item p ih =>
    rw [List.cons_append, readFrom_cons, readFrom_cons]
    cases readItem f item cs with
    | none => rfl
    | some x => exact ih x.1 x.2

/-! ## Items -/

theorem isDigit_pair {a b : Char} (ha : a.isDigit = true) (hb : b.isDigit = true) :
    ∀ c ∈ [a, b], c.isDigit = true := by
  intro c hc
  simp only [List.mem_cons, List.not_mem_nil, or_false] at hc
  rcases hc with rfl | rfl
  · exact ha
  · exact hb

theorem readDigits_two {a b : Char} (ha : a.isDigit = true) (hb : b.isDigit = true)
    (rest : List Char) : readDigits 2 (a :: b :: rest) = some (Numeral.digitsValue [a, b], rest) :=
  readDigits_append (isDigit_pair ha hb) (List.cons_ne_nil a [b]) (Nat.le_refl 2)
    (fun h => absurd h (Nat.lt_irrefl 2))

theorem readDigits_of_not_digit {most : Nat} {c : Char} (hc : c.isDigit = false)
    (rest : List Char) : readDigits most (c :: rest) = none := by
  cases most with
  | zero => rfl
  | succ m => simp [readDigits, hc]

theorem readItem_number_digits {field : DateField} (hf : field ≠ .year) (f : DateFields)
    {a b : Char} (ha : a.isDigit = true) (hb : b.isDigit = true) (rest : List Char) :
    readItem f (.number field) (a :: b :: rest) =
      (setField f field (Numeral.digitsValue [a, b])).map (·, rest) := by
  cases field <;> first
    | exact absurd rfl hf
    | simp only [readItem, Text.dropBlanks_cons (Text.isBlank_of_isDigit ha),
        readDigits_two ha hb, Option.bind_some]

theorem readItem_number_of_not_digit {field : DateField} (hf : field ≠ .year) (f : DateFields)
    {c : Char} (hc : c.isDigit = false) (hbl : Text.isBlank c = false) (rest : List Char) :
    readItem f (.number field) (c :: rest) = none := by
  cases field <;> first
    | exact absurd rfl hf
    | simp only [readItem, Text.dropBlanks_cons hbl, readDigits_of_not_digit hc, Option.bind_none]

theorem readItem_char (f : DateFields) (c d : Char) (rest : List Char) :
    readItem f (.char c) (d :: rest) = if c == d then some (f, rest) else none := rfl

theorem readItem_blanks {c : Char} (hc : Text.isBlank c = false) (f : DateFields)
    (rest : List Char) : readItem f .blanks (c :: rest) = some (f, c :: rest) := by
  simp [readItem, Text.dropBlanks_cons hc]

theorem readItem_blanks_space {c : Char} (hc : Text.isBlank c = false) (f : DateFields)
    (rest : List Char) : readItem f .blanks (' ' :: c :: rest) = some (f, c :: rest) := by
  have hsp : Text.dropBlanks (' ' :: c :: rest) = Text.dropBlanks (c :: rest) := by
    simp [Text.dropBlanks, Text.isBlank, Text.blankRanges]
  simp [readItem, hsp, Text.dropBlanks_cons hc]

theorem startsWithWord_of_not_alpha {c : Char} (hc : c.isAlpha = false) (rest : List Char)
    {w : String} {x : Char} (hw : w.toList.head? = some x) (hx : x.isAlpha = true) :
    startsWithWord (c :: rest) w = false := by
  obtain ⟨xs, hxs⟩ : ∃ xs, w.toList = x :: xs := by
    cases h : w.toList with
    | nil => simp [h] at hw
    | cons y ys => simp [h] at hw; exact ⟨ys, by rw [hw]⟩
  have hlen : w.length = xs.length + 1 := by
    rw [← String.length_toList, hxs, List.length_cons]
  have hlow : c.toLower = c := by
    unfold Char.toLower
    split
    · rename_i h
      simp only [Char.isAlpha, Char.isUpper, Char.isLower, Bool.or_eq_false_iff,
        Bool.and_eq_false_iff, decide_eq_false_iff_not, UInt32.le_iff_toNat_le, ge_iff_le] at hc h
      have : 'A'.val.toNat = 65 := rfl
      have : 'Z'.val.toNat = 90 := rfl
      omega
    · rfl
  simp only [startsWithWord, hlen, List.take_succ_cons, lowerAscii, List.map_cons, hxs, hlow]
  have hne : c ≠ x := fun h => by rw [h] at hc; rw [hc] at hx; exact Bool.false_ne_true hx
  simp [hne]

theorem readItem_monthName_of_not_alpha {c : Char} (hc : c.isAlpha = false) (f : DateFields)
    (long : Bool) (rest : List Char) : readItem f (.monthName long) (c :: rest) = none := by
  have heads : ∀ m ∈ monthAbbreviations, ∃ x, m.toList.head? = some x ∧ x.isAlpha = true := by
    simp [monthAbbreviations]
  have hnone : (List.range 12).find?
      (fun i => startsWithWord (c :: rest) (monthAbbreviations.getD i "")) = none := by
    rw [List.find?_eq_none]
    intro i hi
    have hlen : i < monthAbbreviations.length := List.mem_range.mp hi
    have hmem : monthAbbreviations.getD i "" ∈ monthAbbreviations := by
      rw [List.getD_eq_getElem?_getD, List.getElem?_eq_getElem hlen, Option.getD_some]
      exact List.getElem_mem hlen
    obtain ⟨x, hx, hxa⟩ := heads _ hmem
    rw [startsWithWord_of_not_alpha hc rest hx hxa]
    decide
  simp only [readItem, readMonthName, hnone, Option.bind_none]

/-! ## Years -/

theorem readYear_minus (rest : List Char) :
    readYear ('-' :: rest) = (readDigits rest.length rest).map fun (n, r) => (-(n : Int), r) := by
  simp [readYear]

theorem readYear_plus (rest : List Char) :
    readYear ('+' :: rest) = (readDigits rest.length rest).map fun (n, r) => ((n : Int), r) := by
  simp [readYear]

theorem readYear_of_digit {d : Char} (hd : d.isDigit = true) (more : List Char) :
    readYear (d :: more) = (readDigits 4 (d :: more)).map fun (n, r) => ((n : Int), r) := by
  have h1 : d ≠ '-' := by rintro rfl; exact absurd hd (by decide)
  have h2 : d ≠ '+' := by rintro rfl; exact absurd hd (by decide)
  unfold readYear
  split <;> simp_all

theorem readYear_yearText (y : Int) {rest : List Char}
    (hr : ∀ c ∈ rest.head?, c.isDigit = false) :
    readYear ((Moment.yearText y).toList ++ rest) = some (y, rest) := by
  unfold Moment.yearText
  split
  · rename_i hy
    obtain ⟨d, more, hdm, hd⟩ := Moment.exists_cons_padded 4 y.toNat (by decide)
    have hlen := Moment.length_padded_of_lt (w := 4) (n := y.toNat) (by decide) (by omega)
    rw [hdm, List.cons_append, readYear_of_digit hd, ← List.cons_append, ← hdm,
      readDigits_append (fun c hc => Moment.isDigit_of_mem_padded hc) (by simp [hdm]) (by omega)
        (by omega), Moment.digitsValue_padded]
    simp only [Option.map_some, Option.some.injEq, Prod.mk.injEq, and_true]
    omega
  · rename_i hy
    have hds : readDigits ((Moment.padded 4 y.natAbs).toList ++ rest).length
        ((Moment.padded 4 y.natAbs).toList ++ rest) = some (y.natAbs, rest) := by
      rw [readDigits_append (fun c hc => Moment.isDigit_of_mem_padded hc)
        (by have := Moment.length_padded 4 y.natAbs; intro h; simp [h] at this; omega)
        (by simp) (fun _ => hr), Moment.digitsValue_padded]
    split
    · simp only [String.toList_append, show "-".toList = ['-'] from rfl, List.cons_append,
        List.nil_append]
      simp only [readYear_minus, hds, Option.map_some, Option.some.injEq, Prod.mk.injEq, and_true]
      omega
    · simp only [String.toList_append, show "+".toList = ['+'] from rfl, List.cons_append,
        List.nil_append]
      simp only [readYear_plus, hds, Option.map_some, Option.some.injEq, Prod.mk.injEq, and_true]
      omega

theorem exists_padded_two {n : Nat} (hn : n < 100) :
    ∃ a b, (Moment.padded 2 n).toList = [a, b] ∧ a.isDigit = true ∧ b.isDigit = true ∧
      Numeral.digitsValue [a, b] = n := by
  have hlen := Moment.length_padded_of_lt (w := 2) (by decide) (show n < 10 ^ 2 by omega)
  match h : (Moment.padded 2 n).toList, hlen with
  | [a, b], _ =>
    refine ⟨a, b, rfl, Moment.isDigit_of_mem_padded (by rw [h]; simp),
      Moment.isDigit_of_mem_padded (by rw [h]; simp), ?_⟩
    rw [← h, Moment.digitsValue_padded]

theorem readItem_number_padded {field : DateField} (hf : field ≠ .year) (f : DateFields)
    {n : Nat} (hn : n < 100) (rest : List Char) :
    readItem f (.number field) ((Moment.padded 2 n).toList ++ rest) =
      (setField f field n).map (·, rest) := by
  obtain ⟨a, b, hab, ha, hb, hv⟩ := exists_padded_two hn
  rw [hab, List.cons_append, List.cons_append, List.nil_append,
    readItem_number_digits hf f ha hb, hv]

theorem not_digit_head {c : Char} (hc : c.isDigit = false) (rest : List Char) :
    ∀ x ∈ (c :: rest).head?, x.isDigit = false := by
  intro x hx
  cases hx
  exact hc

theorem exists_cons_yearText (y : Int) : ∃ c more, (Moment.yearText y).toList = c :: more := by
  unfold Moment.yearText
  split
  · obtain ⟨d, more, hdm, -⟩ := Moment.exists_cons_padded 4 y.toNat (by decide)
    exact ⟨d, more, hdm⟩
  · simp only [String.toList_append]
    split
    · exact ⟨'-', _, rfl⟩
    · exact ⟨'+', _, rfl⟩

theorem isBlank_head_yearText (y : Int) :
    ∀ c ∈ (Moment.yearText y).toList.head?, Text.isBlank c = false := by
  intro c hc
  unfold Moment.yearText at hc
  split at hc
  · obtain ⟨d, more, hdm, hd⟩ := Moment.exists_cons_padded 4 y.toNat (by decide)
    rw [hdm] at hc
    simp only [List.head?_cons, Option.mem_def, Option.some.injEq] at hc
    subst hc
    exact Text.isBlank_of_isDigit hd
  · split at hc <;> simp [String.toList_append, show "-".toList = ['-'] from rfl,
      show "+".toList = ['+'] from rfl] at hc <;> subst hc <;> decide

theorem readItem_year_yearText (f : DateFields) (y : Int) {rest : List Char}
    (hr : ∀ c ∈ rest.head?, c.isDigit = false) :
    readItem f (.number .year) ((Moment.yearText y).toList ++ rest) =
      some ({ f with year := some y }, rest) := by
  have hdrop : Text.dropBlanks ((Moment.yearText y).toList ++ rest) =
      (Moment.yearText y).toList ++ rest := by
    obtain ⟨c, more, h⟩ := exists_cons_yearText y
    rw [h, List.cons_append]
    exact Text.dropBlanks_cons (isBlank_head_yearText y c (by rw [h]; rfl)) _
  simp only [readItem, hdrop, readYear_yearText y hr, Option.bind_some, setField, Option.map_some]

section Fields

variable (f : DateFields)

theorem setField_month {m : Nat} (h1 : 1 ≤ m) (h2 : m ≤ 12) :
    setField f .month m = some { f with month := some m } := by
  simp [setField]; omega

theorem setField_day {d : Nat} (h1 : 1 ≤ d) (h2 : d ≤ 31) :
    setField f .day d = some { f with day := some d } := by
  simp [setField]; omega

theorem setField_hour {h : Nat} (h2 : h ≤ 23) :
    setField f .hour h = some { f with half := some (h / 12), hourOfHalf := some (h % 12) } := by
  simp [setField]; omega

theorem setField_minute {m : Nat} (h2 : m ≤ 59) :
    setField f .minute m = some { f with minute := some m } := by
  simp [setField]; omega

theorem setField_second {s : Nat} (h2 : s ≤ 60) :
    setField f .second s = some { f with second := some s } := by
  simp [setField]; omega

end Fields

theorem read_eq (p : Pattern) (cs : List Char) :
    read p cs = match readFrom p {} cs with
      | some (f, []) => some f
      | _ => none := rfl

section Whole

open PatternItem DateField

/-! ## Whole patterns -/

theorem readFrom_isoDate (y : Int) {m d : Nat} (hm1 : 1 ≤ m) (hm : m ≤ 12) (hd1 : 1 ≤ d)
    (hd : d ≤ 31) (rest : List Char) :
    readFrom isoDate {} ((Moment.yearText y).toList ++ '-' :: ((Moment.padded 2 m).toList ++
      '-' :: ((Moment.padded 2 d).toList ++ rest))) =
      some ({ year := some y, month := some m, day := some d }, rest) := by
  simp only [isoDate, readFrom_cons,
    readItem_year_yearText _ y (not_digit_head (c := '-') (by decide) _),
    Option.bind_some, readItem_char, beq_self_eq_true, if_true,
    readItem_number_padded (show month ≠ year by decide) _ (show m < 100 by omega),
    setField_month _ hm1 hm, Option.map_some,
    readItem_number_padded (show day ≠ year by decide) _ (show d < 100 by omega),
    setField_day _ hd1 hd, readFrom_nil]

theorem readFrom_clock (g : DateFields) {h m s : Nat} (hh : h ≤ 23) (hm : m ≤ 59) (hs : s ≤ 60)
    (rest : List Char) :
    readFrom [number hour, char ':', number minute, char ':', number second] g
      ((Moment.padded 2 h).toList ++ ':' :: ((Moment.padded 2 m).toList ++ ':' ::
        ((Moment.padded 2 s).toList ++ rest))) =
      some ({ g with
        half := some (h / 12), hourOfHalf := some (h % 12), minute := some m, second := some s },
        rest) := by
  simp only [readFrom_cons, readItem_number_padded (show hour ≠ year by decide) _
      (show h < 100 by omega), setField_hour _ hh, Option.map_some, Option.bind_some, readItem_char,
    beq_self_eq_true, if_true, readItem_number_padded (show minute ≠ year by decide) _
      (show m < 100 by omega), setField_minute _ hm,
    readItem_number_padded (show second ≠ year by decide) _ (show s < 100 by omega),
    setField_second _ hs, readFrom_nil]

/-- Text that no pattern opening with a month or a day reads: two digits and then a mark that is
neither `/`, a letter nor a blank, or a sign. -/
def NoMonthFirst (cs : List Char) : Prop :=
  (∃ a b c rest, cs = a :: b :: c :: rest ∧ a.isDigit = true ∧ b.isDigit = true ∧ c ≠ '/' ∧
    c.isAlpha = false ∧ Text.isBlank c = false) ∨
  (∃ c rest, cs = c :: rest ∧ c.isDigit = false ∧ c.isAlpha = false ∧ Text.isBlank c = false)

theorem isAlpha_of_isDigit {c : Char} (h : c.isDigit = true) : c.isAlpha = false := by
  have hd := Char.isDigit_iff_toNat.mp h
  simp only [Char.reduceToNat] at hd
  simp only [Char.isAlpha, Char.isUpper, Char.isLower, Bool.or_eq_false_iff,
    Bool.and_eq_false_iff, decide_eq_false_iff_not, UInt32.le_iff_toNat_le, ge_iff_le]
  have : c.toNat = c.val.toNat := rfl
  have : 'A'.val.toNat = 65 := rfl
  have : 'a'.val.toNat = 97 := rfl
  omega

theorem readFrom_monthDayYear_none {cs : List Char} (h : NoMonthFirst cs) (f : DateFields) :
    readFrom monthDayYear f cs = none := by
  rcases h with ⟨a, b, c, rest, rfl, ha, hb, hc, -, -⟩ | ⟨c, rest, rfl, hd, -, hbl⟩
  · simp only [monthDayYear, readFrom_cons, readItem_number_digits (show month ≠ year by decide)
      f ha hb]
    cases setField f month (Numeral.digitsValue [a, b]) with
    | none => rfl
    | some g => simp [readItem_char, Ne.symm hc]
  · simp [monthDayYear, readFrom_cons,
      readItem_number_of_not_digit (show month ≠ year by decide) f hd hbl]

theorem readFrom_namedMonthFirst_none {cs : List Char} (h : NoMonthFirst cs) (f : DateFields)
    (long : Bool) : readFrom (namedMonthFirst long) f cs = none := by
  rcases h with ⟨a, b, c, rest, rfl, ha, -, -, -, -⟩ | ⟨c, rest, rfl, -, hc, -⟩
  · simp [namedMonthFirst, readFrom_cons,
      readItem_monthName_of_not_alpha (isAlpha_of_isDigit ha)]
  · simp [namedMonthFirst, readFrom_cons, readItem_monthName_of_not_alpha hc]

theorem readFrom_namedMonthSecond_none {cs : List Char} (h : NoMonthFirst cs) (f : DateFields)
    (long : Bool) : readFrom (namedMonthSecond long) f cs = none := by
  rcases h with ⟨a, b, c, rest, rfl, ha, hb, -, hc, hbl⟩ | ⟨c, rest, rfl, hd, -, hbl⟩
  · simp only [namedMonthSecond, readFrom_cons, readItem_number_digits (show day ≠ year by decide)
      f ha hb]
    cases setField f day (Numeral.digitsValue [a, b]) with
    | none => rfl
    | some g => simp [readItem_blanks hbl, readItem_monthName_of_not_alpha hc]
  · simp [namedMonthSecond, readFrom_cons,
      readItem_number_of_not_digit (show day ≠ year by decide) f hd hbl]

theorem noMonthFirst_digits {a b c : Char} (ha : a.isDigit = true) (hb : b.isDigit = true)
    (hc : c.isDigit = true) (rest : List Char) : NoMonthFirst (a :: b :: c :: rest) :=
  .inl ⟨a, b, c, rest, rfl, ha, hb, fun h => by rw [h] at hc; exact absurd hc (by decide),
    isAlpha_of_isDigit hc, Text.isBlank_of_isDigit hc⟩

theorem noMonthFirst_yearText (y : Int) (rest : List Char) :
    NoMonthFirst ((Moment.yearText y).toList ++ rest) := by
  unfold Moment.yearText
  split
  · have hlen := Moment.length_padded_of_lt (w := 4) (n := y.toNat) (by decide) (by omega)
    match h : (Moment.padded 4 y.toNat).toList, hlen with
    | [a, b, c, e], _ =>
      have hdig : ∀ x ∈ [a, b, c, e], x.isDigit = true := fun x hx =>
        Moment.isDigit_of_mem_padded (by rw [h]; exact hx)
      exact noMonthFirst_digits (hdig a (by simp)) (hdig b (by simp)) (hdig c (by simp)) _
  · simp only [String.toList_append]
    split
    · exact .inr ⟨'-', _, rfl, by decide, by decide, by decide⟩
    · exact .inr ⟨'+', _, rfl, by decide, by decide, by decide⟩

theorem noMonthFirst_clock {h : Nat} (hh : h < 100) (rest : List Char) :
    NoMonthFirst ((Moment.padded 2 h).toList ++ ':' :: rest) := by
  obtain ⟨a, b, hab, ha, hb, -⟩ := exists_padded_two hh
  rw [hab]
  exact .inl ⟨a, b, ':', rest, rfl, ha, hb, by decide, by decide, by decide⟩

theorem readItem_year_clock (f : DateFields) {h : Nat} (hh : h < 100) (rest : List Char) :
    readItem f (.number .year) ((Moment.padded 2 h).toList ++ ':' :: rest) =
      some ({ f with year := some h }, ':' :: rest) := by
  obtain ⟨a, b, hab, ha, hb, hv⟩ := exists_padded_two hh
  have hds : readDigits 4 ([a, b] ++ ':' :: rest) =
      some (Numeral.digitsValue [a, b], ':' :: rest) :=
    readDigits_append (isDigit_pair ha hb) (List.cons_ne_nil a [b]) (by simp)
      (fun _ => not_digit_head (by decide) rest)
  rw [hv] at hds
  simp only [List.cons_append, List.nil_append] at hds
  rw [hab]
  simp only [List.cons_append, List.nil_append, readItem,
    Text.dropBlanks_cons (Text.isBlank_of_isDigit ha), readYear_of_digit ha, hds, Option.map_some,
    Option.bind_some, setField]

theorem readFrom_year_mark_none {ch d : Char} (hne : d ≠ ch) (p : Pattern) {f g : DateFields}
    {cs rest : List Char} (h : readItem f (.number .year) cs = some (g, d :: rest)) :
    readFrom (number year :: char ch :: p) f cs = none := by
  simp [readFrom_cons, h, readItem_char, Ne.symm hne]

theorem readFrom_dates_yearText_none {p : Pattern} (hp : p ∈ dates) (hne : p ≠ isoDate)
    (f : DateFields) (y : Int) (rest : List Char) :
    readFrom p f ((Moment.yearText y).toList ++ '-' :: rest) = none := by
  have hyear := readItem_year_yearText f y (not_digit_head (c := '-') (by decide) rest)
  simp only [dates, List.mem_cons, List.mem_nil_iff, or_false] at hp
  rcases hp with rfl | rfl | rfl | rfl | rfl | rfl | rfl
  · exact readFrom_monthDayYear_none (noMonthFirst_yearText y _) f
  · exact absurd rfl hne
  · exact readFrom_year_mark_none (by decide) _ hyear
  · exact readFrom_namedMonthFirst_none (noMonthFirst_yearText y _) f true
  · exact readFrom_namedMonthFirst_none (noMonthFirst_yearText y _) f false
  · exact readFrom_namedMonthSecond_none (noMonthFirst_yearText y _) f true
  · exact readFrom_namedMonthSecond_none (noMonthFirst_yearText y _) f false

theorem readFrom_dates_clock_none {p : Pattern} (hp : p ∈ dates) (f : DateFields) {h : Nat}
    (hh : h < 100) (rest : List Char) :
    readFrom p f ((Moment.padded 2 h).toList ++ ':' :: rest) = none := by
  have hyear := readItem_year_clock f hh rest
  simp only [dates, List.mem_cons, List.mem_nil_iff, or_false] at hp
  rcases hp with rfl | rfl | rfl | rfl | rfl | rfl | rfl
  · exact readFrom_monthDayYear_none (noMonthFirst_clock hh _) f
  · exact readFrom_year_mark_none (by decide) _ hyear
  · exact readFrom_year_mark_none (by decide) _ hyear
  · exact readFrom_namedMonthFirst_none (noMonthFirst_clock hh _) f true
  · exact readFrom_namedMonthFirst_none (noMonthFirst_clock hh _) f false
  · exact readFrom_namedMonthSecond_none (noMonthFirst_clock hh _) f true
  · exact readFrom_namedMonthSecond_none (noMonthFirst_clock hh _) f false

end Whole

end Pattern

namespace CivilDate

/-- The year that date text with a year of at most two digits stands for: 0 to 29 are the
2000s and 30 to 99 the 1900s. -/
def windowedYear (y : Int) : Int :=
  if 0 ≤ y ∧ y ≤ 29 then y + 2000 else if 30 ≤ y ∧ y ≤ 99 then y + 1900 else y

/-- The date with its year through the century window. -/
def throughWindow (d : CivilDate) : CivilDate := { d with year := windowedYear d.year }

theorem isLeapYear_windowedYear (y : Int) : isLeapYear (windowedYear y) = isLeapYear y := by
  unfold windowedYear isLeapYear
  split
  · have h4 : (y + 2000) % 4 = y % 4 := by omega
    have h100 : (y + 2000) % 100 = y % 100 := by omega
    have h400 : (y + 2000) % 400 = y % 400 := by omega
    rw [h4, h100, h400]
  · split
    · have h4 : (y + 1900) % 4 = y % 4 := by omega
      have h100 : (y + 1900) % 100 = y % 100 := by omega
      rw [h4, h100]
      simp [show y % 100 ≠ 0 by omega]
    · rfl

theorem throughWindow_isValid {d : CivilDate} (h : d.isValid = true) :
    d.throughWindow.isValid = true := by
  have hdim : daysInMonth (windowedYear d.year) d.month = daysInMonth d.year d.month := by
    unfold daysInMonth; rw [isLeapYear_windowedYear]
  simp only [isValid, Bool.and_eq_true, decide_eq_true_eq] at h
  have hy : minYear ≤ windowedYear d.year ∧ windowedYear d.year ≤ maxYear := by
    have := h.1.1.1.1
    unfold windowedYear minYear maxYear at *
    split <;> (try split) <;> omega
  simp only [isValid, throughWindow, hdim, Bool.and_eq_true]
  exact ⟨⟨⟨⟨⟨decide_eq_true hy.1, decide_eq_true hy.2⟩, decide_eq_true h.1.1.1.2⟩,
    decide_eq_true h.1.1.2⟩, decide_eq_true h.1.2⟩, decide_eq_true h.2⟩

theorem throughWindow_eq_self_iff (d : CivilDate) :
    d.throughWindow = d ↔ ¬(0 ≤ d.year ∧ d.year ≤ 99) := by
  obtain ⟨y, m, day⟩ := d
  simp only [throughWindow, windowedYear, mk.injEq, and_true]
  split <;> (try split) <;> omega

end CivilDate

namespace Moment

/-! ## The written shapes -/

theorem windowYear_eq {d : CivilDate} (h : d.isValid = true) :
    windowYear d = some d.throughWindow := by
  have hv := CivilDate.throughWindow_isValid h
  unfold windowYear CivilDate.withYear
  simp only [CivilDate.throughWindow, CivilDate.windowedYear] at hv ⊢
  split
  · rw [if_pos (by simpa [*] using hv)]
  · split
    · rw [if_pos (by simpa [*] using hv)]
    · rfl

theorem dateText_toList (t : Moment) :
    t.dateText.toList = (yearText t.date.year).toList ++ '-' :: ((padded 2 t.date.month).toList ++
      '-' :: (padded 2 t.date.day).toList) := by
  simp [dateText, String.toList_append, show "-".toList = ['-'] from rfl]

theorem timeText_toList (t : Moment) :
    t.timeText.toList = (padded 2 t.hour).toList ++ ':' :: ((padded 2 t.minute).toList ++
      ':' :: (padded 2 t.shownSecond).toList) := by
  simp [timeText, String.toList_append, show ":".toList = [':'] from rfl]

theorem date_bounds (t : Moment) :
    1 ≤ t.date.month ∧ t.date.month ≤ 12 ∧ 1 ≤ t.date.day ∧ t.date.day ≤ 31 := by
  have h := date_isValid t
  simp only [CivilDate.isValid, Bool.and_eq_true, decide_eq_true_eq] at h
  have : CivilDate.daysInMonth t.date.year t.date.month ≤ 31 := by
    unfold CivilDate.daysInMonth; split <;> (try split) <;> omega
  omega

theorem clock_bounds (t : Moment) : t.hour ≤ 23 ∧ t.minute ≤ 59 ∧ t.shownSecond ≤ 60 := by
  have hs := t.second_lt
  simp only [hour, minute, shownSecond]
  split <;> omega

theorem readDate?_isoDate (t : Moment) :
    readDate? Pattern.isoDate t.dateText.toList = some ((windowYear t.date).bind ofDate?) := by
  obtain ⟨hm1, hm, hd1, hd⟩ := date_bounds t
  have hread : Pattern.read Pattern.isoDate t.dateText.toList =
      some { year := some t.date.year, month := some t.date.month, day := some t.date.day } := by
    rw [Pattern.read_eq, dateText_toList, ← List.append_nil (padded 2 t.date.day).toList,
      Pattern.readFrom_isoDate _ hm1 hm hd1 hd]
  have hdate : DateFields.toDate?
      { year := some t.date.year, month := some t.date.month, day := some t.date.day } =
        some t.date := by
    simp [DateFields.toDate?, date_isValid t]
  simp only [readDate?, hread, Option.bind_some, hdate, Option.map_some]

theorem readDate?_yearText_none {p : Pattern} (hp : p ∈ Pattern.dates) (hne : p ≠ Pattern.isoDate)
    (y : Int) (rest : List Char) :
    readDate? p ((yearText y).toList ++ '-' :: rest) = none := by
  simp [readDate?, Pattern.read_eq, Pattern.readFrom_dates_yearText_none hp hne]

theorem isBlank_last_concat (l : List Char) {b : Char} (hb : b.isDigit = true) :
    ∀ c ∈ (l ++ [b]).getLast?, Text.isBlank c = false := by
  intro x hx
  rw [List.getLast?_concat, Option.mem_def, Option.some.injEq] at hx
  rw [← hx]
  exact Text.isBlank_of_isDigit hb

theorem isBlank_head_dateText (t : Moment) (rest : List Char) :
    ∀ c ∈ (t.dateText.toList ++ rest).head?, Text.isBlank c = false := by
  obtain ⟨c, more, hc⟩ := Pattern.exists_cons_yearText t.date.year
  rw [dateText_toList, hc]
  intro x hx
  simp only [List.cons_append, List.head?_cons, Option.mem_def, Option.some.injEq] at hx
  rw [← hx]
  exact Pattern.isBlank_head_yearText _ c (by rw [hc]; rfl)

theorem isBlank_last_dateText (t : Moment) :
    ∀ c ∈ t.dateText.toList.getLast?, Text.isBlank c = false := by
  obtain ⟨-, -, -, hd⟩ := date_bounds t
  obtain ⟨a, b, hab, -, hb, -⟩ := Pattern.exists_padded_two (show t.date.day < 100 by omega)
  rw [dateText_toList, hab, show (yearText t.date.year).toList ++
    '-' :: ((padded 2 t.date.month).toList ++ ['-', a, b]) = ((yearText t.date.year).toList ++
    '-' :: ((padded 2 t.date.month).toList ++ ['-', a])) ++ [b] by simp]
  exact isBlank_last_concat _ hb

theorem trimBlanks_dateText (t : Moment) : Text.trimBlanks t.dateText.toList = t.dateText.toList :=
  Text.trimBlanks_of_ends (by simpa using isBlank_head_dateText t []) (isBlank_last_dateText t)

theorem ofText?_dateText (t : Moment) : ofText? t.dateText = ofDate? t.date.throughWindow := by
  have hmdy := readDate?_yearText_none List.mem_cons_self (by decide) t.date.year
    ((padded 2 t.date.month).toList ++ '-' :: (padded 2 t.date.day).toList)
  rw [← dateText_toList] at hmdy
  unfold ofText?
  simp only [trimBlanks_dateText, Pattern.dates, List.findSome?_cons, hmdy, readDate?_isoDate,
    windowYear_eq (date_isValid t), Option.bind_some]

theorem toTime?_clock (g : DateFields) {h m s : Nat} (hg : g.nano = none) :
    DateFields.toTime? { g with
      half := some (h / 12), hourOfHalf := some (h % 12), minute := some m, second := some s } =
      some (h, m, s, 0) := by
  simp only [DateFields.toTime?, hg, Option.getD_some, Option.getD_none]
  congr 2
  omega

theorem read_clock (t : Moment) :
    Pattern.read [.number .hour, .char ':', .number .minute, .char ':', .number .second]
      t.timeText.toList =
      some { half := some (t.hour / 12), hourOfHalf := some (t.hour % 12), minute := some t.minute,
             second := some t.shownSecond } := by
  obtain ⟨hh, hm, hs⟩ := clock_bounds t
  rw [Pattern.read_eq, timeText_toList, ← List.append_nil (padded 2 t.shownSecond).toList]
  rw [Pattern.readFrom_clock {} hh hm hs]

theorem isBlank_head_timeText (t : Moment) :
    ∀ c ∈ t.timeText.toList.head?, Text.isBlank c = false := by
  obtain ⟨hh, -, -⟩ := clock_bounds t
  obtain ⟨a, b, hab, ha, -, -⟩ := Pattern.exists_padded_two (show t.hour < 100 by omega)
  rw [timeText_toList, hab]
  intro x hx
  simp only [List.cons_append, List.head?_cons, Option.mem_def, Option.some.injEq] at hx
  rw [← hx]
  exact Text.isBlank_of_isDigit ha

theorem isBlank_last_timeText (t : Moment) (l : List Char) :
    ∀ c ∈ (l ++ t.timeText.toList).getLast?, Text.isBlank c = false := by
  obtain ⟨-, -, hs⟩ := clock_bounds t
  obtain ⟨c, e, hce, -, he, -⟩ := Pattern.exists_padded_two (show t.shownSecond < 100 by omega)
  rw [timeText_toList, hce, show l ++ ((padded 2 t.hour).toList ++
    ':' :: ((padded 2 t.minute).toList ++ [':', c, e])) = (l ++ ((padded 2 t.hour).toList ++
    ':' :: ((padded 2 t.minute).toList ++ [':', c]))) ++ [e] by simp]
  exact isBlank_last_concat _ he

theorem trimBlanks_timeText (t : Moment) : Text.trimBlanks t.timeText.toList = t.timeText.toList :=
  Text.trimBlanks_of_ends (isBlank_head_timeText t) (by simpa using isBlank_last_timeText t [])

theorem readFrom_dates_timeText {p : Pattern} (hp : p ∈ Pattern.dates) (t : Moment) (q : Pattern) :
    Pattern.readFrom (p ++ q) {} t.timeText.toList = none := by
  obtain ⟨hh, -, -⟩ := clock_bounds t
  rw [Pattern.readFrom_append, timeText_toList, Pattern.readFrom_dates_clock_none hp _ (by omega)]
  rfl

theorem ofText?_timeText (t : Moment) (hbase : t.day = 0)
    (hn : t.nano = 0 ∨ t.nano = nanosPerSecond) : ofText? t.timeText = some t := by
  have hdated : Pattern.dates.findSome? (fun p => readDate? p t.timeText.toList) = none := by
    rw [List.findSome?_eq_none_iff]
    intro p hp
    have := readFrom_dates_timeText hp t []
    rw [List.append_nil] at this
    simp [readDate?, Pattern.read_eq, this]
  have hboth : Pattern.dates.findSome? (fun d => Pattern.times.findSome? fun p =>
      readDateTime? (d ++ [.blanks] ++ p) t.timeText.toList) = none := by
    rw [List.findSome?_eq_none_iff]
    intro d hd
    rw [List.findSome?_eq_none_iff]
    intro p _
    simp [readDateTime?, Pattern.read_eq, List.append_assoc, readFrom_dates_timeText hd]
  have hbaseDay : (⟨1899, 12, 30⟩ : CivilDate) = t.date := by
    rw [date, hbase, CivilDate.ofDays_zero]
  unfold ofText?
  simp only [trimBlanks_timeText, hdated, hboth]
  simp only [Pattern.times, List.findSome?_cons, readTime?, read_clock, Option.bind_some,
    toTime?_clock {} rfl, hbaseDay, ofCivil?_date_clock t hn]

/-! ## Through the century window -/

/-- The moment at the same time of day on the date the century window makes of its date. -/
def throughWindow (t : Moment) : Moment where
  day := t.date.throughWindow.toDays
  second := t.second
  nano := t.nano
  day_ge := (CivilDate.toDays_mem (CivilDate.throughWindow_isValid (date_isValid t))).1
  day_le := (CivilDate.toDays_mem (CivilDate.throughWindow_isValid (date_isValid t))).2
  second_lt := t.second_lt
  nano_lt := t.nano_lt
  leap := t.leap

theorem date_throughWindow (t : Moment) : t.throughWindow.date = t.date.throughWindow :=
  CivilDate.ofDays_toDays (CivilDate.throughWindow_isValid (date_isValid t))

theorem throughWindow_eq_self_iff (t : Moment) :
    t.throughWindow = t ↔ ¬(0 ≤ t.date.year ∧ t.date.year ≤ 99) := by
  rw [← CivilDate.throughWindow_eq_self_iff]
  constructor
  · intro h
    rw [← date_throughWindow, h]
  · intro h
    exact ext_parts (show t.date.throughWindow.toDays = t.day by rw [h, toDays_date]) rfl rfl

theorem ofCivil?_throughWindow (t : Moment) (hn : t.nano = 0 ∨ t.nano = nanosPerSecond) :
    ofCivil? t.date.throughWindow t.hour t.minute t.shownSecond 0 = some t.throughWindow := by
  obtain ⟨t', h, hd, hs, hn'⟩ :=
    ofCivil?_clock t (CivilDate.throughWindow_isValid (date_isValid t)) hn
  have e : t' = t.throughWindow := ext_parts hd hs hn'
  rw [h, e]

theorem ofText?_dateText_midnight (t : Moment) (hmid : t.isMidnight = true) :
    ofText? t.dateText = some t.throughWindow := by
  simp only [isMidnight, Bool.and_eq_true, decide_eq_true_eq] at hmid
  have hclock : t.hour = 0 ∧ t.minute = 0 ∧ t.shownSecond = 0 := by
    simp [hour, minute, shownSecond, hmid.1, hmid.2, nanosPerSecond]
  have h := ofCivil?_throughWindow t (Or.inl hmid.2)
  rw [hclock.1, hclock.2.1, hclock.2.2] at h
  rw [ofText?_dateText, ofDate?, h]

theorem ofText?_dateTimeText (t : Moment) (hn : t.nano = 0 ∨ t.nano = nanosPerSecond) :
    ofText? (t.dateText ++ " " ++ t.timeText) = some t.throughWindow := by
  obtain ⟨hm1, hm, hd1, hd⟩ := date_bounds t
  obtain ⟨hh, hmi, hs⟩ := clock_bounds t
  obtain ⟨a, b, hab, ha, -, -⟩ := Pattern.exists_padded_two (show t.hour < 100 by omega)
  have hcs : (t.dateText ++ " " ++ t.timeText).toList =
      t.dateText.toList ++ ' ' :: t.timeText.toList := by
    simp [String.toList_append, show " ".toList = [' '] from rfl]
  let fields : DateFields :=
    { year := some t.date.year, month := some t.date.month, day := some t.date.day }
  have hiso : Pattern.readFrom Pattern.isoDate {} (t.dateText.toList ++ ' ' :: t.timeText.toList) =
      some (fields, ' ' :: t.timeText.toList) := by
    rw [dateText_toList]
    simp only [List.append_assoc, List.cons_append]
    exact Pattern.readFrom_isoDate _ hm1 hm hd1 hd _
  have hblank : Pattern.readFrom [.blanks] fields (' ' :: t.timeText.toList) =
      some (fields, t.timeText.toList) := by
    rw [timeText_toList, hab]
    simp [Pattern.readFrom_cons, Pattern.readItem_blanks_space (Text.isBlank_of_isDigit ha)]
  have htrim : Text.trimBlanks (t.dateText.toList ++ ' ' :: t.timeText.toList) =
      t.dateText.toList ++ ' ' :: t.timeText.toList := by
    apply Text.trimBlanks_of_ends (isBlank_head_dateText t _)
    rw [show t.dateText.toList ++ ' ' :: t.timeText.toList =
      (t.dateText.toList ++ [' ']) ++ t.timeText.toList by simp]
    exact isBlank_last_timeText t _
  have hdated : Pattern.dates.findSome?
      (fun p => readDate? p (t.dateText.toList ++ ' ' :: t.timeText.toList)) = none := by
    rw [List.findSome?_eq_none_iff]
    intro p hp
    by_cases hne : p = Pattern.isoDate
    · simp [hne, readDate?, Pattern.read_eq, hiso]
    · rw [dateText_toList]
      simp only [List.append_assoc, List.cons_append]
      exact readDate?_yearText_none hp hne _ _
  have hmdy : Pattern.times.findSome?
      (fun p => readDateTime? (Pattern.monthDayYear ++ [.blanks] ++ p)
      (t.dateText.toList ++ ' ' :: t.timeText.toList)) = none := by
    rw [List.findSome?_eq_none_iff]
    intro p _
    have hnone := Pattern.readFrom_dates_yearText_none List.mem_cons_self (by decide) {}
      t.date.year ((padded 2 t.date.month).toList ++ '-' :: ((padded 2 t.date.day).toList ++
        ' ' :: t.timeText.toList))
    rw [dateText_toList]
    simp only [List.append_assoc, List.cons_append] at hnone ⊢
    simp [readDateTime?, Pattern.read_eq, Pattern.readFrom_append, hnone]
  have hread : Pattern.read (Pattern.isoDate ++ [.blanks] ++
      [.number .hour, .char ':', .number .minute, .char ':', .number .second])
      (t.dateText.toList ++ ' ' :: t.timeText.toList) =
      some { fields with half := some (t.hour / 12), hourOfHalf := some (t.hour % 12),
                         minute := some t.minute, second := some t.shownSecond } := by
    simp only [Pattern.read_eq, Pattern.readFrom_append, hiso, Option.bind_some, hblank]
    rw [timeText_toList, ← List.append_nil (padded 2 t.shownSecond).toList,
      Pattern.readFrom_clock fields hh hmi hs]
  have hdate : DateFields.toDate?
      { fields with half := some (t.hour / 12), hourOfHalf := some (t.hour % 12),
                    minute := some t.minute, second := some t.shownSecond } = some t.date := by
    simp [fields, DateFields.toDate?, date_isValid t]
  unfold ofText?
  simp only [hcs, htrim, hdated]
  simp only [Pattern.dates, List.findSome?_cons, hmdy]
  simp only [Pattern.times, List.findSome?_cons,
    readDateTime?, hread, Option.bind_some, hdate, toTime?_clock fields rfl,
    ofCivil?_date_clock t hn,
    windowYear_eq (date_isValid t), ofCivil?_throughWindow t hn]

end Moment

end ScriptFold
