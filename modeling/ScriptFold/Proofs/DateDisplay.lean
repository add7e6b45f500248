import Mathlib
import ScriptFold.Proofs.DateText
import ScriptFold.Operator.Apply
/-!
Reading back the string coercion of dates. A date is shown as its clock `h:MM:SS AM` alone on
the base day, as `m/d/yyyy` alone at midnight, and as both joined by a blank otherwise; month,
day and twelve-hour hour are unpadded. The loose date reader takes the date with its
month-first pattern and the clock with its twelve-hour pattern.

Two facts rule out the other patterns. Reading a pattern only consumes text, and a pattern that
ends in a number consumes text that ends in a digit (`Pattern.read_eq_none_of_last`), while
every shown clock ends in `M`; and no date pattern reads an hour followed by `:`
(`Pattern.readFrom_dates_hour_none`).

Main statement: `date_display_reads_back`. The shown text of a moment with no fraction of a
second, or a whole leap second, reads back as the moment through the century window
(`Moment.ofText?_dateDisplay`); so comparing the date with its text, and `=` on the two, see
the two equal exactly when the year is not 0 to 99, and otherwise see the date as earlier.
-/
namespace ScriptFold

set_option autoImplicit false

namespace Pattern

open PatternItem DateField

/-! ## What reading leaves over -/

theorem readDigits_eq_some {most : Nat} {cs r : List Char} {v : Nat}
    (h : readDigits most cs = some (v, r)) :
    ∃ ds, cs = ds ++ r ∧ ds ≠ [] ∧ ∀ c ∈ ds, c.isDigit = true := by
  have hpre : (cs.take most).takeWhile Char.isDigit <+: cs :=
    (List.takeWhile_prefix _).trans (List.take_prefix _ _)
  have hdig : ∀ c ∈ (cs.take most).takeWhile Char.isDigit, c.isDigit = true :=
    List.all_eq_true.mp List.all_takeWhile
  unfold readDigits at h
  generalize (cs.take most).takeWhile Char.isDigit = ds at h hpre hdig
  dsimp only at h
  split at h
  · cases h
  · rename_i hne
    obtain ⟨-, rfl⟩ := Prod.mk.inj (Option.some.inj h)
    obtain ⟨u, rfl⟩ := hpre
    exact ⟨ds, by rw [List.drop_left], fun h' => hne (List.isEmpty_iff.mpr h'), hdig⟩

theorem readYear_eq_some {cs r : List Char} {v : Int} (h : readYear cs = some (v, r)) :
    ∃ pre ds, cs = pre ++ ds ++ r ∧ ds ≠ [] ∧ ∀ c ∈ ds, c.isDigit = true := by
  unfold readYear at h
  split at h <;> obtain ⟨⟨n, r'⟩, hd, hv⟩ := Option.map_eq_some_iff.mp h <;>
    obtain ⟨-, rfl⟩ := Prod.mk.inj hv <;> obtain ⟨ds, rfl, hne, hall⟩ := readDigits_eq_some hd
  · exact ⟨['-'], ds, rfl, hne, hall⟩
  · exact ⟨['+'], ds, rfl, hne, hall⟩
  · exact ⟨[], ds, rfl, hne, hall⟩

theorem readItem_number_eq_some {field : DateField} {f g : DateFields} {cs r : List Char}
    (h : readItem f (.number field) cs = some (g, r)) :
    ∃ pre ds, cs = pre ++ ds ++ r ∧ ds ≠ [] ∧ ∀ c ∈ ds, c.isDigit = true := by
  obtain ⟨blanks, hcs⟩ := List.dropWhile_suffix (l := cs) Text.isBlank
  have hleft : ∀ {α : Type} {x : Option (α × List Char)}
      {k : α × List Char → Option (DateFields × List Char)}, x.bind k = some (g, r) →
      (∀ p, k p = some (g, r) → p.2 = r) → ∃ v, x = some (v, r) := by
    intro α x k hx hk
    obtain ⟨⟨v, r'⟩, hxv, hkv⟩ := Option.bind_eq_some_iff.mp hx
    obtain rfl : r' = r := hk _ hkv
    exact ⟨v, hxv⟩
  have hset : ∀ {α : Type} (p : α × List Char) (o : Option DateFields),
      o.map (·, p.2) = some (g, r) → p.2 = r := by
    intro α p o hp
    obtain ⟨g', -, hg⟩ := Option.map_eq_some_iff.mp hp
    exact (Prod.mk.inj hg).2
  have hblanks : ∀ pre ds, Text.dropBlanks cs = pre ++ ds ++ r →
      cs = (blanks ++ pre) ++ ds ++ r := by
    intro pre ds hd
    rw [← hcs, ← Text.dropBlanks, hd, List.append_assoc, List.append_assoc, List.append_assoc]
  cases field <;> dsimp only [readItem] at h
  case year =>
    obtain ⟨v, hv⟩ := hleft h fun p hp => hset p _ hp
    obtain ⟨pre, ds, hd, hne, hall⟩ := readYear_eq_some hv
    exact ⟨_, ds, hblanks pre ds hd, hne, hall⟩
  all_goals
    obtain ⟨v, hv⟩ := hleft h fun p hp => hset p _ hp
    obtain ⟨ds, hd, hne, hall⟩ := readDigits_eq_some hv
    exact ⟨_, ds, hblanks [] ds hd, hne, hall⟩

theorem readMonthName_isSuffix {long : Bool} {cs r : List Char} {m : Nat}
    (h : readMonthName long cs = some (m, r)) : r <:+ cs := by
  unfold readMonthName at h
  split at h
  · cases h
  · dsimp only at h
    split at h
    · obtain ⟨-, rfl⟩ := Prod.mk.inj (Option.some.inj h)
      exact (List.drop_suffix _ _).trans (List.drop_suffix _ _)
    · obtain ⟨-, rfl⟩ := Prod.mk.inj (Option.some.inj h)
      exact List.drop_suffix _ _

theorem readFraction_isSuffix {cs r : List Char} {n : Nat} (h : readFraction cs = some (n, r)) :
    r <:+ cs := by
  unfold readFraction at h
  split at h
  · obtain ⟨⟨n', r'⟩, hd, hv⟩ := Option.map_eq_some_iff.mp h
    obtain ⟨-, rfl⟩ := Prod.mk.inj hv
    obtain ⟨ds, rfl, -, -⟩ := readDigits_eq_some hd
    exact (List.dropWhile_suffix _).trans ((List.suffix_append _ _).trans (List.suffix_cons _ _))
  · obtain ⟨-, rfl⟩ := Prod.mk.inj (Option.some.inj h)
    exact List.suffix_refl _

theorem readItem_isSuffix {f g : DateFields} {item : PatternItem} {cs r : List Char}
    (h : readItem f item cs = some (g, r)) : r <:+ cs := by
  cases item with
  | number field =>
    obtain ⟨pre, ds, rfl, -, -⟩ := readItem_number_eq_some h
    exact ⟨pre ++ ds, rfl⟩
  | monthName long =>
    obtain ⟨⟨m, r'⟩, hm, hset⟩ := Option.bind_eq_some_iff.mp h
    obtain ⟨g', -, hg⟩ := Option.map_eq_some_iff.mp hset
    cases hg
    exact readMonthName_isSuffix hm
  | meridiem =>
    simp only [readItem] at h
    split at h
    · split at h
      · obtain ⟨-, rfl⟩ := Prod.mk.inj (Option.some.inj h)
        exact (List.suffix_cons _ _).trans (List.suffix_cons _ _)
      · split at h
        · obtain ⟨-, rfl⟩ := Prod.mk.inj (Option.some.inj h)
          exact (List.suffix_cons _ _).trans (List.suffix_cons _ _)
        · cases h
    · cases h
  | blanks =>
    obtain ⟨-, rfl⟩ := Prod.mk.inj (Option.some.inj h)
    exact List.dropWhile_suffix _
  | char c =>
    simp only [readItem] at h
    split at h
    · split at h
      · obtain ⟨-, rfl⟩ := Prod.mk.inj (Option.some.inj h)
        exact List.suffix_cons _ _
      · cases h
    · cases h
  | fraction =>
    simp only [readItem] at h
    split at h
    · obtain ⟨⟨n, r'⟩, hn, hv⟩ := Option.map_eq_some_iff.mp h
      obtain ⟨-, rfl⟩ := Prod.mk.inj hv
      exact readFraction_isSuffix hn
    · obtain ⟨-, rfl⟩ := Prod.mk.inj (Option.some.inj h)
      exact List.suffix_refl _

theorem readFrom_isSuffix {p : Pattern} {f g : DateFields} {cs r : List Char}
    (h : readFrom p f cs = some (g, r)) : r <:+ cs := by
  induction p generalizing f cs with
  | nil =>
    obtain ⟨-, rfl⟩ := Prod.mk.inj (Option.some.inj h)
    exact List.suffix_refl _
  | cons item p ih =>
    rw [readFrom_cons] at h
    obtain ⟨⟨f', r'⟩, hitem, hrest⟩ := Option.bind_eq_some_iff.mp h
    exact (ih hrest).trans (readItem_isSuffix hitem)

theorem readFrom_number_last {q : Pattern} {field : DateField} {f g : DateFields}
    {cs r : List Char} (h : readFrom (q ++ [number field]) f cs = some (g, r)) :
    ∃ pre ds, cs = pre ++ ds ++ r ∧ ds ≠ [] ∧ ∀ c ∈ ds, c.isDigit = true := by
  rw [readFrom_append] at h
  obtain ⟨⟨f', r'⟩, hq, hlast⟩ := Option.bind_eq_some_iff.mp h
  dsimp only at hlast
  rw [readFrom_cons] at hlast
  obtain ⟨⟨g', r''⟩, hitem, hnil⟩ := Option.bind_eq_some_iff.mp hlast
  obtain ⟨-, rfl⟩ := Prod.mk.inj (Option.some.inj hnil)
  obtain ⟨pre, ds, rfl, hne, hall⟩ := readItem_number_eq_some hitem
  obtain ⟨u, rfl⟩ := readFrom_isSuffix hq
  exact ⟨u ++ pre, ds, by simp only [List.append_assoc], hne, hall⟩

theorem read_eq_none_of_last {p : Pattern} {field : DateField}
    (hp : p.getLast? = some (number field)) {cs : List Char}
    (hcs : ∀ c ∈ cs.getLast?, c.isDigit = false) : read p cs = none := by
  obtain ⟨q, rfl⟩ := List.getLast?_eq_some_iff.mp hp
  rw [read_eq]
  rcases h : readFrom (q ++ [number field]) {} cs with _ | ⟨g, _ | ⟨c, r⟩⟩
  · rfl
  · obtain ⟨pre, ds, rfl, hne, hall⟩ := readFrom_number_last h
    obtain ⟨L, b, rfl⟩ := (List.eq_nil_or_concat ds).resolve_left hne
    have hlast := hcs b (by simp)
    rw [hall b (by simp)] at hlast
    cases hlast
  · rfl

theorem dates_getLast (p : Pattern) (hp : p ∈ dates) :
    ∃ field, p.getLast? = some (number field) := by
  simp only [dates, List.mem_cons, List.mem_nil_iff, or_false] at hp
  rcases hp with rfl | rfl | rfl | rfl | rfl | rfl | rfl <;> exact ⟨_, rfl⟩

/-! ## Unpadded numbers -/

theorem readItem_number_before {field : DateField} (hf : field ≠ .year) (f : DateFields)
    {ds : List Char} (hds : ∀ c ∈ ds, c.isDigit = true) (hne : ds ≠ []) (hlen : ds.length ≤ 2)
    {c : Char} (hc : c.isDigit = false) (rest : List Char) :
    readItem f (.number field) (ds ++ c :: rest) =
      (setField f field (Numeral.digitsValue ds)).map (·, c :: rest) := by
  have hread := readDigits_append hds hne hlen (fun _ => not_digit_head hc rest)
  obtain ⟨d, more, rfl⟩ := List.exists_cons_of_ne_nil hne
  have hblank : Text.dropBlanks ((d :: more) ++ c :: rest) = (d :: more) ++ c :: rest :=
    Text.dropBlanks_cons (Text.isBlank_of_isDigit (hds d List.mem_cons_self)) _
  cases field <;> first
    | exact absurd rfl hf
    | simp only [readItem, hblank, hread, Option.bind_some]

theorem readItem_year_before (f : DateFields) {ds : List Char} (hds : ∀ c ∈ ds, c.isDigit = true)
    (hne : ds ≠ []) (hlen : ds.length ≤ 4) {c : Char} (hc : c.isDigit = false) (rest : List Char) :
    readItem f (.number .year) (ds ++ c :: rest) =
      some ({ f with year := some (Numeral.digitsValue ds : Int) }, c :: rest) := by
  have hread := readDigits_append hds hne hlen (fun _ => not_digit_head hc rest)
  obtain ⟨d, more, rfl⟩ := List.exists_cons_of_ne_nil hne
  have hd := hds d List.mem_cons_self
  have hblank : Text.dropBlanks ((d :: more) ++ c :: rest) = (d :: more) ++ c :: rest :=
    Text.dropBlanks_cons (Text.isBlank_of_isDigit hd) _
  simp only [readItem]
  rw [hblank, List.cons_append, readYear_of_digit hd, ← List.cons_append, hread]
  simp only [Option.map_some, Option.bind_some, setField]

theorem readItem_number_toString {field : DateField} (hf : field ≠ .year) (f : DateFields)
    {n : Nat} (hn : n < 100) {c : Char} (hc : c.isDigit = false) (rest : List Char) :
    readItem f (.number field) ((toString n).toList ++ c :: rest) =
      (setField f field n).map (·, c :: rest) := by
  rw [Nat.toString_eq_repr, Nat.toList_repr,
    readItem_number_before hf f (fun x hx => Nat.isDigit_of_mem_toDigits (by decide) (by decide) hx)
      Nat.toDigits_ne_nil ((Nat.length_toDigits_le_iff (by decide) (by decide)).mpr hn) hc,
    Numeral.digitsValue_eq_ofDigitChars, Nat.ofDigitChars_ten_toDigits]

/-! ## No date pattern reads an hour -/

theorem readFrom_dates_digits_colon_none {p : Pattern} (hp : p ∈ dates) (f : DateFields)
    {ds : List Char} (hds : ∀ c ∈ ds, c.isDigit = true) (hne : ds ≠ []) (hlen : ds.length ≤ 2)
    (rest : List Char) : readFrom p f (ds ++ ':' :: rest) = none := by
  have hyear := readItem_year_before f hds hne (by omega) (c := ':') (by decide) rest
  obtain ⟨d, more, rfl⟩ := List.exists_cons_of_ne_nil hne
  have halpha := isAlpha_of_isDigit (hds d List.mem_cons_self)
  simp only [dates, List.mem_cons, List.mem_nil_iff, or_false] at hp
  rcases hp with rfl | rfl | rfl | rfl | rfl | rfl | rfl
  · simp only [monthDayYear, readFrom_cons,
      readItem_number_before (show month ≠ year by decide) f hds hne hlen (c := ':') (by decide)]
    cases setField f month (Numeral.digitsValue (d :: more)) with
    | none => rfl
    | some g => simp [readItem_char]
  · exact readFrom_year_mark_none (by decide) _ hyear
  · exact readFrom_year_mark_none (by decide) _ hyear
  · simp [namedMonthFirst, readFrom_cons, readItem_monthName_of_not_alpha halpha]
  · simp [namedMonthFirst, readFrom_cons, readItem_monthName_of_not_alpha halpha]
  all_goals
    simp only [namedMonthSecond, readFrom_cons,
      readItem_number_before (show day ≠ year by decide) f hds hne hlen (c := ':') (by decide)]
    cases setField f day (Numeral.digitsValue (d :: more)) with
    | none => rfl
    | some g =>
      simp [readItem_blanks (show Text.isBlank ':' = false by decide),
        readItem_monthName_of_not_alpha (show Char.isAlpha ':' = false by decide)]

theorem readFrom_dates_hour_none {p : Pattern} (hp : p ∈ dates) (f : DateFields) {h : Nat}
    (hh : h < 100) (rest : List Char) :
    readFrom p f ((toString h).toList ++ ':' :: rest) = none := by
  rw [Nat.toString_eq_repr, Nat.toList_repr]
  exact readFrom_dates_digits_colon_none hp f
    (fun x hx => Nat.isDigit_of_mem_toDigits (by decide) (by decide) hx) Nat.toDigits_ne_nil
    ((Nat.length_toDigits_le_iff (by decide) (by decide)).mpr hh) rest

/-! ## The shown shapes -/

section Whole

variable (f : DateFields)

theorem setField_hour12 {h : Nat} (h1 : 1 ≤ h) (h2 : h ≤ 12) :
    setField f .hour12 h = some { f with hourOfHalf := some (h % 12) } := by
  simp [setField]; omega

theorem readItem_meridiem {hr : Nat} (hh : hr ≤ 23) :
    readItem f .meridiem [if hr < 12 then 'A' else 'P', 'M'] =
      some ({ f with half := some (hr / 12) }, []) := by
  by_cases h : hr < 12
  · rw [if_pos h, Nat.div_eq_of_lt h]
    rfl
  · rw [if_neg h, show hr / 12 = 1 by omega]
    rfl

theorem readFrom_monthDayYear {m d : Nat} (hm1 : 1 ≤ m) (hm : m ≤ 12) (hd1 : 1 ≤ d) (hd : d ≤ 31)
    (y : Int) {rest : List Char} (hr : ∀ c ∈ rest.head?, c.isDigit = false) :
    readFrom monthDayYear {} ((toString m).toList ++ '/' :: ((toString d).toList ++
      '/' :: ((Moment.yearText y).toList ++ rest))) =
      some ({ year := some y, month := some m, day := some d }, rest) := by
  simp only [monthDayYear, readFrom_cons,
    readItem_number_toString (show month ≠ year by decide) _ (show m < 100 by omega)
      (c := '/') (by decide),
    setField_month _ hm1 hm, Option.map_some, Option.bind_some, readItem_char, beq_self_eq_true,
    if_true, readItem_number_toString (show day ≠ year by decide) _ (show d < 100 by omega)
      (c := '/') (by decide),
    setField_day _ hd1 hd, readItem_year_yearText _ y hr, readFrom_nil]

theorem readFrom_twelveHourClock {h m s hr : Nat} (hh1 : 1 ≤ h) (hh : h ≤ 12) (hm : m ≤ 59)
    (hs : s ≤ 60) (hhr : hr ≤ 23) :
    readFrom [number hour12, char ':', number minute, char ':', number second, blanks, meridiem] f
      ((toString h).toList ++ ':' :: ((Moment.padded 2 m).toList ++ ':' ::
        ((Moment.padded 2 s).toList ++ [' ', if hr < 12 then 'A' else 'P', 'M']))) =
      some ({ f with
        hourOfHalf := some (h % 12), minute := some m, second := some s, half := some (hr / 12) },
        []) := by
  have hmark : Text.isBlank (if hr < 12 then 'A' else 'P') = false := by
    split <;> decide
  simp only [readFrom_cons,
    readItem_number_toString (show hour12 ≠ year by decide) _ (show h < 100 by omega)
      (c := ':') (by decide),
    setField_hour12 _ hh1 hh, Option.map_some, Option.bind_some, readItem_char, beq_self_eq_true,
    if_true, readItem_number_padded (show minute ≠ year by decide) _ (show m < 100 by omega),
    setField_minute _ hm,
    readItem_number_padded (show second ≠ year by decide) _ (show s < 100 by omega),
    setField_second _ hs, readItem_blanks_space hmark, readItem_meridiem _ hhr, readFrom_nil]

end Whole

end Pattern

namespace CivilDate

theorem toDays_lt_of_year_lt {d e : CivilDate} (hy : d.year < e.year) (hm : d.month = e.month)
    (hd : d.day = e.day) : d.toDays < e.toDays := by
  obtain ⟨y, m, day⟩ := d
  obtain ⟨y', m', day'⟩ := e
  simp only at hy hm hd
  subst hm hd
  unfold toDays
  simp only [Int.fdiv_eq_ediv_of_nonneg _ (show (0 : Int) ≤ 400 by decide)]
  split <;> omega

end CivilDate

namespace Moment

open Pattern

/-! ## The shown texts -/

/-- The hour on a twelve-hour clock, 12 for 0. -/
def clockHour (t : Moment) : Nat := if t.hour % 12 = 0 then 12 else t.hour % 12

theorem clockHour_bounds (t : Moment) : 1 ≤ t.clockHour ∧ t.clockHour ≤ 12 := by
  unfold clockHour
  split <;> omega

theorem clockText_toList (t : Moment) :
    (Value.clockText t).toList = (toString t.clockHour).toList ++ ':' ::
      ((padded 2 t.minute).toList ++ ':' ::
        ((padded 2 t.shownSecond).toList ++ [' ', if t.hour < 12 then 'A' else 'P', 'M'])) := by
  by_cases h : t.hour < 12 <;>
    simp [Value.clockText, clockHour, h, String.toList_append, show ":".toList = [':'] from rfl,
      show " AM".toList = [' ', 'A', 'M'] from rfl, show " PM".toList = [' ', 'P', 'M'] from rfl]

theorem dayText_toList (t : Moment) :
    (Value.dayText t).toList = (toString t.date.month).toList ++ '/' ::
      ((toString t.date.day).toList ++ '/' :: (yearText t.date.year).toList) := by
  simp [Value.dayText, String.toList_append, show "/".toList = ['/'] from rfl]

theorem exists_cons_toString (n : Nat) :
    ∃ d more, (toString n).toList = d :: more ∧ d.isDigit = true := by
  obtain ⟨d, more, h⟩ := List.exists_cons_of_ne_nil (Nat.toDigits_ne_nil (n := n) (b := 10))
  have hmem : d ∈ Nat.toDigits 10 n := by
    rw [h]
    exact List.mem_cons_self
  exact ⟨d, more, by rw [Nat.toString_eq_repr, Nat.toList_repr, h],
    Nat.isDigit_of_mem_toDigits (by decide) (by decide) hmem⟩

theorem isBlank_head_toString (n : Nat) (rest : List Char) :
    ∀ c ∈ ((toString n).toList ++ rest).head?, Text.isBlank c = false := by
  obtain ⟨d, more, h, hd⟩ := exists_cons_toString n
  intro c hc
  rw [h, List.cons_append, List.head?_cons, Option.mem_def, Option.some.injEq] at hc
  rw [← hc]
  exact Text.isBlank_of_isDigit hd

theorem getLast?_clockText (t : Moment) (pre : List Char) :
    (pre ++ (Value.clockText t).toList).getLast? = some 'M' := by
  have hsplit : pre ++ (Value.clockText t).toList =
      (pre ++ (toString t.clockHour).toList ++ ':' :: ((padded 2 t.minute).toList ++
        ':' :: ((padded 2 t.shownSecond).toList ++ [' ', if t.hour < 12 then 'A' else 'P']))) ++
        ['M'] := by
    rw [clockText_toList]
    simp
  rw [hsplit, List.getLast?_concat]

theorem last_mark {cs : List Char} (h : cs.getLast? = some 'M') :
    (∀ c ∈ cs.getLast?, c.isDigit = false) ∧ ∀ c ∈ cs.getLast?, Text.isBlank c = false := by
  rw [h]
  constructor <;> intro c hc <;> cases hc <;> decide

theorem isDigit_last_yearText (y : Int) :
    ∀ c ∈ (yearText y).toList.getLast?, c.isDigit = true := by
  intro c hc
  unfold yearText at hc
  split at hc
  · exact isDigit_of_mem_padded (List.mem_of_getLast? hc)
  · obtain ⟨d, more, hdm, -⟩ := exists_cons_padded 4 y.natAbs (by decide)
    obtain ⟨L, b, hLb⟩ :=
      (List.eq_nil_or_concat (padded 4 y.natAbs).toList).resolve_left (by simp [hdm])
    rw [String.toList_append, hLb, List.concat_eq_append, ← List.append_assoc, List.getLast?_concat,
      Option.mem_def, Option.some.injEq] at hc
    exact isDigit_of_mem_padded (by rw [hLb, ← hc]; simp)

theorem trimBlanks_clockText (t : Moment) :
    Text.trimBlanks (Value.clockText t).toList = (Value.clockText t).toList := by
  refine Text.trimBlanks_of_ends ?_ ?_
  · rw [clockText_toList]
    exact isBlank_head_toString _ _
  · have hM := getLast?_clockText t []
    rw [List.nil_append] at hM
    exact (last_mark hM).2

theorem trimBlanks_dayText (t : Moment) (rest : List Char) (hlast : ∀ c ∈
    ((Value.dayText t).toList ++ rest).getLast?, Text.isBlank c = false) :
    Text.trimBlanks ((Value.dayText t).toList ++ rest) = (Value.dayText t).toList ++ rest := by
  refine Text.trimBlanks_of_ends ?_ hlast
  rw [dayText_toList, List.append_assoc]
  exact isBlank_head_toString _ _

/-! ## Reading the shown texts -/

theorem readDate?_dates_none {cs : List Char} (hcs : ∀ c ∈ cs.getLast?, c.isDigit = false) :
    Pattern.dates.findSome? (fun p => readDate? p cs) = none := by
  rw [List.findSome?_eq_none_iff]
  intro p hp
  obtain ⟨field, hlast⟩ := dates_getLast p hp
  simp [readDate?, read_eq_none_of_last hlast hcs]

theorem getLast_withTime {d t : Pattern} {field : DateField}
    (ht : t.getLast? = some (.number field)) :
    (d ++ [PatternItem.blanks] ++ t).getLast? = some (.number field) := by
  rw [List.getLast?_append, ht]
  rfl

theorem read_twelveHour (t : Moment) (g : DateFields) :
    Pattern.readFrom [.number .hour12, .char ':', .number .minute, .char ':', .number .second,
      .blanks, .meridiem] g (Value.clockText t).toList =
      some ({ g with
        hourOfHalf := some (t.clockHour % 12), minute := some t.minute,
        second := some t.shownSecond, half := some (t.hour / 12) }, []) := by
  obtain ⟨hh1, hh⟩ := clockHour_bounds t
  obtain ⟨hhr, hm, hs⟩ := clock_bounds t
  rw [clockText_toList, readFrom_twelveHourClock g hh1 hh hm hs hhr]

theorem isBlank_last_dayText (t : Moment) :
    ∀ c ∈ (Value.dayText t).toList.getLast?, Text.isBlank c = false := by
  obtain ⟨c0, more, hY⟩ := exists_cons_yearText t.date.year
  obtain ⟨L, b, hLb⟩ :=
    (List.eq_nil_or_concat (yearText t.date.year).toList).resolve_left (by simp [hY])
  rw [List.concat_eq_append] at hLb
  have hb := isDigit_last_yearText t.date.year b (by rw [hLb, List.getLast?_concat]; rfl)
  intro c hc
  rw [dayText_toList, hLb, show ∀ A B : List Char, A ++ '/' :: (B ++ '/' :: (L ++ [b])) =
    (A ++ '/' :: (B ++ '/' :: L)) ++ [b] from fun A B => by simp, List.getLast?_concat,
    Option.mem_def, Option.some.injEq] at hc
  rw [← hc]
  exact Text.isBlank_of_isDigit hb

theorem toDate?_shown (t : Moment) :
    DateFields.toDate?
      { year := some t.date.year, month := some t.date.month, day := some t.date.day } =
      some t.date := by
  simp [DateFields.toDate?, date_isValid t]

theorem toTime?_twelveHour (t : Moment) (g : DateFields) (hg : g.nano = none) :
    DateFields.toTime? { g with
      hourOfHalf := some (t.clockHour % 12), minute := some t.minute, second := some t.shownSecond,
      half := some (t.hour / 12) } = some (t.hour, t.minute, t.shownSecond, 0) := by
  have hh := (clock_bounds t).1
  have hhour : t.hour / 12 * 12 + t.clockHour % 12 = t.hour := by
    unfold clockHour
    split <;> omega
  simp only [DateFields.toTime?, hg, Option.getD_some, Option.getD_none, hhour]

theorem ofText?_clockText (t : Moment) (hbase : t.day = 0)
    (hn : t.nano = 0 ∨ t.nano = nanosPerSecond) : ofText? (Value.clockText t) = some t := by
  have hM := getLast?_clockText t []
  rw [List.nil_append] at hM
  have hlast := (last_mark hM).1
  have hboth : Pattern.dates.findSome? (fun d => Pattern.times.findSome? fun p =>
      readDateTime? (d ++ [.blanks] ++ p) (Value.clockText t).toList) = none := by
    rw [List.findSome?_eq_none_iff]
    intro d hd
    rw [List.findSome?_eq_none_iff]
    intro p _
    have hh := (clockHour_bounds t).2
    simp only [readDateTime?, read_eq, List.append_assoc, readFrom_append, clockText_toList,
      readFrom_dates_hour_none hd _ (show t.clockHour < 100 by omega), Option.bind_none]
  have h0 : Pattern.read [.number .hour, .char ':', .number .minute, .char ':', .number .second]
      (Value.clockText t).toList = none := read_eq_none_of_last rfl hlast
  have h1 : Pattern.read [.number .hour, .char ':', .number .minute]
      (Value.clockText t).toList = none := read_eq_none_of_last rfl hlast
  have h2 : Pattern.read [.number .hour12, .char ':', .number .minute, .char ':', .number .second,
      .blanks, .meridiem] (Value.clockText t).toList =
      some {
        hourOfHalf := some (t.clockHour % 12), minute := some t.minute,
        second := some t.shownSecond, half := some (t.hour / 12) } := by
    rw [read_eq, read_twelveHour]
  have hbaseDay : (⟨1899, 12, 30⟩ : CivilDate) = t.date := by
    rw [date, hbase, CivilDate.ofDays_zero]
  unfold ofText?
  simp only [trimBlanks_clockText, readDate?_dates_none hlast, hboth]
  simp only [Pattern.times, List.findSome?_cons, readTime?, h0, h1, h2, Option.bind_none,
    Option.bind_some, toTime?_twelveHour t {} rfl, hbaseDay, ofCivil?_date_clock t hn]

theorem ofText?_dayText (t : Moment) (hmid : t.isMidnight = true) :
    ofText? (Value.dayText t) = some t.throughWindow := by
  obtain ⟨hm1, hm, hd1, hd⟩ := date_bounds t
  have hread : Pattern.read Pattern.monthDayYear (Value.dayText t).toList =
      some { year := some t.date.year, month := some t.date.month, day := some t.date.day } := by
    rw [read_eq, dayText_toList, ← List.append_nil (yearText t.date.year).toList,
      readFrom_monthDayYear hm1 hm hd1 hd _ (by simp)]
  have htrim : Text.trimBlanks (Value.dayText t).toList = (Value.dayText t).toList := by
    simpa using trimBlanks_dayText t [] (by simpa using isBlank_last_dayText t)
  simp only [isMidnight, Bool.and_eq_true, decide_eq_true_eq] at hmid
  have hclock : t.hour = 0 ∧ t.minute = 0 ∧ t.shownSecond = 0 := by
    simp [hour, minute, shownSecond, hmid.1, hmid.2, nanosPerSecond]
  have hwin := ofCivil?_throughWindow t (Or.inl hmid.2)
  rw [hclock.1, hclock.2.1, hclock.2.2] at hwin
  unfold ofText?
  simp only [htrim, Pattern.dates, List.findSome?_cons, readDate?, hread, Option.bind_some,
    toDate?_shown, Option.map_some, windowYear_eq (date_isValid t), ofDate?, hwin]

theorem ofText?_dayClockText (t : Moment) (hn : t.nano = 0 ∨ t.nano = nanosPerSecond) :
    ofText? (Value.dayText t ++ " " ++ Value.clockText t) = some t.throughWindow := by
  obtain ⟨hm1, hm, hd1, hd⟩ := date_bounds t
  have hcs : (Value.dayText t ++ " " ++ Value.clockText t).toList =
      (Value.dayText t).toList ++ ' ' :: (Value.clockText t).toList := by
    simp [String.toList_append, show " ".toList = [' '] from rfl]
  have hM :
      ((Value.dayText t).toList ++ ' ' :: (Value.clockText t).toList).getLast? = some 'M' := by
    simpa using getLast?_clockText t ((Value.dayText t).toList ++ [' '])
  have hlast := (last_mark hM).1
  let fields : DateFields :=
    { year := some t.date.year, month := some t.date.month, day := some t.date.day }
  have hmdy :
      readFrom monthDayYear {} ((Value.dayText t).toList ++ ' ' :: (Value.clockText t).toList) =
        some (fields, ' ' :: (Value.clockText t).toList) := by
    rw [dayText_toList]
    simp only [List.append_assoc, List.cons_append]
    exact readFrom_monthDayYear hm1 hm hd1 hd _ (not_digit_head (by decide) _)
  have hblank : readFrom [.blanks] fields (' ' :: (Value.clockText t).toList) =
      some (fields, (Value.clockText t).toList) := by
    obtain ⟨c, more, hc, hcd⟩ := exists_cons_toString t.clockHour
    rw [clockText_toList, hc]
    simp [readFrom_cons, readItem_blanks_space (Text.isBlank_of_isDigit hcd)]
  have h0 : Pattern.read (monthDayYear ++ [.blanks] ++
      [.number .hour, .char ':', .number .minute, .char ':', .number .second])
      ((Value.dayText t).toList ++ ' ' :: (Value.clockText t).toList) = none :=
    read_eq_none_of_last (getLast_withTime rfl) hlast
  have h1 : Pattern.read (monthDayYear ++ [.blanks] ++ [.number .hour, .char ':', .number .minute])
      ((Value.dayText t).toList ++ ' ' :: (Value.clockText t).toList) = none :=
    read_eq_none_of_last (getLast_withTime rfl) hlast
  have h2 : Pattern.read (monthDayYear ++ [.blanks] ++ [.number .hour12, .char ':', .number .minute,
      .char ':', .number .second, .blanks, .meridiem])
      ((Value.dayText t).toList ++ ' ' :: (Value.clockText t).toList) =
      some { fields with
        hourOfHalf := some (t.clockHour % 12), minute := some t.minute,
        second := some t.shownSecond, half := some (t.hour / 12) } := by
    simp only [read_eq, readFrom_append, hmdy, Option.bind_some, hblank, read_twelveHour]
  have hdate : DateFields.toDate? { fields with
      hourOfHalf := some (t.clockHour % 12), minute := some t.minute,
      second := some t.shownSecond, half := some (t.hour / 12) } = some t.date :=
    toDate?_shown t
  unfold ofText?
  simp only [hcs, trimBlanks_dayText t _ (last_mark hM).2, readDate?_dates_none hlast]
  simp only [Pattern.dates, List.findSome?_cons, Pattern.times, readDateTime?, h0, h1, h2,
    Option.bind_none, Option.bind_some, hdate, toTime?_twelveHour t fields rfl,
    ofCivil?_date_clock t hn, windowYear_eq (date_isValid t), ofCivil?_throughWindow t hn]

/-! ## The string coercion of dates -/

theorem dateDisplay_eq (t : Moment) :
    Value.dateDisplay t = if Value.onBaseDay t then Value.clockText t
      else if t.isMidnight then Value.dayText t
      else Value.dayText t ++ " " ++ Value.clockText t := by
  unfold Value.dateDisplay
  by_cases hb : Value.onBaseDay t = true
  · by_cases hm : t.isMidnight = true
    · have hzero : t.second = 0 ∧ t.nano = 0 := by simpa [isMidnight] using hm
      have hclock : Value.clockText t = "12:00:00 AM" := by
        simp [Value.clockText, hour, minute, shownSecond, hzero.1, hzero.2, nanosPerSecond]
        decide
      simp [hb, hm, hclock]
    · simp [hb, hm]
  · simp [hb]

/-- The shown text of a moment with no fraction of a second, or a whole leap second, reads back
as the moment through the century window. -/
theorem ofText?_dateDisplay (t : Moment) (hn : t.nano = 0 ∨ t.nano = nanosPerSecond) :
    ofText? (Value.dateDisplay t) = some t.throughWindow := by
  rw [dateDisplay_eq]
  split
  · rename_i hb
    have hday : t.day = 0 := by simpa [Value.onBaseDay] using hb
    have hwin : t.throughWindow = t := by
      rw [throughWindow_eq_self_iff, date, hday, CivilDate.ofDays_zero]
      decide
    rw [hwin]
    exact ofText?_clockText t hday hn
  · split
    · exact ofText?_dayText t ‹_›
    · exact ofText?_dayClockText t hn

theorem compare_throughWindow (t : Moment) :
    t.compare t.throughWindow = if 0 ≤ t.date.year ∧ t.date.year ≤ 99 then .lt else .eq := by
  split
  · rename_i hy
    have hlt : t.day < t.throughWindow.day := by
      show t.day < t.date.throughWindow.toDays
      rw [← toDays_date t]
      refine CivilDate.toDays_lt_of_year_lt ?_ rfl rfl
      simp only [CivilDate.throughWindow, CivilDate.windowedYear]
      split <;> (try split) <;> omega
    unfold Moment.compare
    rw [Int.compare_eq_lt.mpr hlt]
    rfl
  · rename_i hy
    rw [(throughWindow_eq_self_iff t).mpr hy]
    unfold Moment.compare
    rw [Int.compare_eq_eq.mpr rfl, Nat.compare_eq_eq.mpr rfl, Nat.compare_eq_eq.mpr rfl]
    rfl

end Moment

namespace Value

theorem compare_date_text {t t' : Moment} {s : String} (h : Moment.ofText? s = some t') :
    Value.compare (.date t) (.text s) = .ok (some (t.compare t')) := by
  have hop : Comparison.dateOperand s = .ok t' := by
    unfold Comparison.dateOperand
    rw [h]
  show (Comparison.dateOperand s >>= fun x => pure (some (t.compare x))) = _
  rw [hop]
  rfl

end Value

theorem BinaryOp.apply_equal_of_compare {l r : Value} {o : Ordering}
    (h : l.compare r = .ok (some o)) : BinaryOp.apply .equal l r = .ok (.bool (o == .eq)) := by
  simp only [BinaryOp.apply, BinaryOp.applyRaw, Comparison.apply, h]
  rfl

/-- A date's string coercion reads back as the date through the century window: as the date
itself exactly when its year is not 0 to 99, the window otherwise moving it 1900 or 2000 years
on. So the date compares equal to its text, and `=` holds between them, exactly then; otherwise
the date comes first. This holds for every moment with no fraction of a second or a whole leap
second. -/
theorem date_display_reads_back (t : Moment) (hn : t.nano = 0 ∨ t.nano = nanosPerSecond) :
    Moment.ofText? (Value.date t).display = some t.throughWindow ∧
      (Moment.ofText? (Value.date t).display = some t ↔ ¬(0 ≤ t.date.year ∧ t.date.year ≤ 99)) ∧
      Value.compare (.date t) (.text (Value.date t).display) =
        .ok (some (if 0 ≤ t.date.year ∧ t.date.year ≤ 99 then .lt else .eq)) ∧
      BinaryOp.apply .equal (.date t) (.text (Value.date t).display) =
        .ok (.bool !decide (0 ≤ t.date.year ∧ t.date.year ≤ 99)) := by
  have hread : Moment.ofText? (Value.date t).display = some t.throughWindow :=
    Moment.ofText?_dateDisplay t hn
  have hcompare := Value.compare_date_text (t := t) hread
  rw [Moment.compare_throughWindow] at hcompare
  refine ⟨hread, ?_, hcompare, ?_⟩
  · rw [hread, Option.some.injEq, Moment.throughWindow_eq_self_iff]
  · rw [BinaryOp.apply_equal_of_compare hcompare]
    by_cases hy : 0 ≤ t.date.year ∧ t.date.year ≤ 99 <;> simp [hy]

/-- Twenty past one in the afternoon on 15 March 2023 is shown as `3/15/2023 1:20:00 PM` and
reads back as itself. -/
theorem date_display_reads_back_afternoon :
    let t : Moment := ⟨45000, 48000, 0, by decide, by decide, by decide, by decide, by decide⟩
    (t.nano = 0 ∨ t.nano = nanosPerSecond) ∧
      (Moment.ofText? (Value.date t).display = some t.throughWindow ∧
        (Moment.ofText? (Value.date t).display = some t ↔ ¬(0 ≤ t.date.year ∧ t.date.year ≤ 99)) ∧
        Value.compare (.date t) (.text (Value.date t).display) =
          .ok (some (if 0 ≤ t.date.year ∧ t.date.year ≤ 99 then .lt else .eq)) ∧
        BinaryOp.apply .equal (.date t) (.text (Value.date t).display) =
          .ok (.bool !decide (0 ≤ t.date.year ∧ t.date.year ≤ 99))) := by
  intro t
  exact ⟨.inl rfl, date_display_reads_back t (.inl rfl)⟩

/-- Midnight on 1 January of the year 50 is shown as `1/1/0050`, which reads back in 1950, and
the date compares as earlier than its own text. -/
theorem date_display_year_fifty_reads_back_in_1950 :
    let t : Moment := ⟨-675696, 0, 0, by decide, by decide, by decide, by decide, by decide⟩
    (Value.date t).display = "1/1/0050" ∧ t.date.year = 50 ∧
      Moment.ofText? "1/1/0050" = some t.throughWindow ∧ t.throughWindow.date.year = 1950 ∧
      Value.compare (.date t) (.text "1/1/0050") = .ok (some .lt) := by
  intro t
  have hshow : (Value.date t).display = "1/1/0050" := by decide
  have hyear : t.date.year = 50 := by decide
  have hread : Moment.ofText? "1/1/0050" = some t.throughWindow :=
    hshow ▸ Moment.ofText?_dateDisplay t (.inl rfl)
  refine ⟨hshow, hyear, hread, by rw [Moment.date_throughWindow]; decide, ?_⟩
  rw [Value.compare_date_text hread, Moment.compare_throughWindow, if_pos (by rw [hyear]; decide)]

end ScriptFold
