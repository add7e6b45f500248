import Mathlib
import ScriptFold.Source.Literal
import ScriptFold.Value.Text
import ScriptFold.Proofs.Scanning
import ScriptFold.Proofs.DateText
import ScriptFold.Proofs.Doubles
/-!
# Scanning and reading the literal texts

Each text that `Value.literal` writes for one value, seen by the scanner and then by
`Literal.read?`. Every such text is one token before delimited text (`Scan.Delimited`), so it
scans the same inside a longer printed text as on its own:

* decimal digits are an integer token (`Scans.digits`) and read as their number
  (`Literal.read?_integer_toString`);
* a quoted text is one string token (`Scans.quote`) and reads back without its doubled quotes
  (`Literal.read?_quote`);
* date text between `#` signs is one date token (`Scans.dateWrap`) and reads as the date text
  (`Literal.read?_dateWrap`);
* the digits of a double, with their point or exponent, are one float token
  (`Value.body_scans`);
* the four words are their keyword tokens (`Scans.word`).
-/

namespace ScriptFold

set_option autoImplicit false

open Scan

/-! ## Decimal integers -/

theorem Scans.digits {c : Char} {body : List Char} (hc : c.isDigit = true)
    (hbody : ∀ x ∈ body, x.isDigit = true) (pos : Nat) :
    Scans pos (c :: body)
      [⟨.literal .integer, String.ofList (c :: body), ⟨pos, pos + byteLength (c :: body)⟩⟩]
      Delimited :=
  Scans.token body (fun _ hr => by rw [step_of_isDigit hc, number_integer hbody hr]) pos

theorem Numeral.splitSign_of_isDigit {c : Char} (hc : c.isDigit = true) (rest : List Char) :
    Numeral.splitSign (c :: rest) = (false, c :: rest) := by
  have h1 : c ≠ '-' := by rintro rfl; exact absurd hc (by decide)
  have h2 : c ≠ '+' := by rintro rfl; exact absurd hc (by decide)
  unfold Numeral.splitSign
  split <;> simp_all

theorem exists_cons_toDigits (n : Nat) :
    ∃ c rest, Nat.toDigits 10 n = c :: rest ∧ c.isDigit = true ∧ ∀ x ∈ rest, x.isDigit = true := by
  have hdig : ∀ x ∈ Nat.toDigits 10 n, x.isDigit = true :=
    fun x hx => Nat.isDigit_of_mem_toDigits (by decide) (by decide) hx
  cases h : Nat.toDigits 10 n with
  | nil => exact absurd h Nat.toDigits_ne_nil
  | cons c rest =>
    rw [h] at hdig
    exact ⟨c, rest, rfl, hdig c (by simp), fun x hx => hdig x (by simp [hx])⟩

theorem Numeral.readInt?_toDigits (n : Nat) :
    Numeral.readInt? (Nat.toDigits 10 n) = some (n : Int) := by
  obtain ⟨c, rest, hcr, hc, hr⟩ := exists_cons_toDigits n
  have hval : Numeral.digitsValue (Nat.toDigits 10 n) = n := Nat.ofDigitChars_ten_toDigits
  have hall : (c :: rest).all Char.isDigit = true :=
    List.all_eq_true.mpr (by simpa [hc] using hr)
  rw [hcr] at hval ⊢
  simp only [Numeral.readInt?, Numeral.splitSign_of_isDigit hc, List.isEmpty_cons,
    Bool.not_false, Bool.true_and, hall, if_true, hval]
  rfl

theorem toList_toString_nat (n : Nat) : (toString n).toList = Nat.toDigits 10 n := by
  simp [toString, Nat.repr_eq_ofList_toDigits]

theorem Literal.read?_integer_toString {n : Nat} (h : n < 2 ^ 63) :
    Literal.read? .integer (toString n) = some (.int (Int64.ofInt n)) := by
  have hfit : fitsInt64 n = true := by
    simp only [fitsInt64, Bool.and_eq_true, decide_eq_true_eq]
    omega
  simp only [Literal.read?]
  rw [toList_toString_nat, Numeral.readInt?_toDigits, Option.bind_some, toInt64?, if_pos hfit]

/-! ## Words -/

theorem Scans.word {c : Char} {body : List Char} (hc : c.isAlpha = true)
    (hbody : ∀ x ∈ body, isNameChar x = true) (pos : Nat) :
    Scans pos (c :: body)
      [⟨wordKind (c :: body), String.ofList (c :: body), ⟨pos, pos + byteLength (c :: body)⟩⟩]
      Delimited :=
  Scans.token body (fun _ hr => step_word hc hbody fun x hx => (hr.head x hx).2.1) pos

/-! ## Quoted text -/

theorem Literal.between_wrap (e : Char) (l : List Char) :
    Literal.between e (e :: (l ++ [e])) = some l := by
  cases l with
  | nil => simp [Literal.between]
  | cons x xs =>
    simp only [List.cons_append, Literal.between, beq_self_eq_true, Bool.true_and]
    rw [← List.cons_append, List.getLast?_concat, List.dropLast_concat]
    simp

/-- A character as a quoted text writes it: a quote doubled, every other character kept. -/
def Literal.doubled (c : Char) : List Char := if c = '"' then ['"', '"'] else [c]

theorem quote_toList (s : String) :
    (Value.quote s).toList = '"' :: (s.toList.flatMap Literal.doubled ++ ['"']) := by
  have hchar : ∀ c : Char, (if c = '"' then "\"\"" else c.toString).toList = Literal.doubled c := by
    intro c
    unfold Literal.doubled
    split
    · rfl
    · exact String.toList_singleton c
  simp only [Value.quote, String.toList_append, String.toList_join, List.flatMap_map, hchar]
  rfl

theorem Scan.stringBody_cons_of_ne {c : Char} (h1 : c ≠ '\n') (h2 : c ≠ '"') (more : List Char) :
    Scan.stringBody (c :: more) = (Scan.stringBody more).map (· + 1) := by
  rw [Scan.stringBody.eq_def]
  split <;> simp_all

theorem Scan.stringBody_doubled {rest : List Char} (hr : ∀ c ∈ rest.head?, c ≠ '"') :
    ∀ cs : List Char, '\n' ∉ cs →
      Scan.stringBody (cs.flatMap Literal.doubled ++ '"' :: rest) =
        some ((cs.flatMap Literal.doubled).length + 1)
  | [], _ => by
    cases rest with
    | nil => rfl
    | cons c more =>
      have hc : c ≠ '"' := hr c rfl
      simp [Scan.stringBody, hc]
  | c :: cs, h => by
    have ih := Scan.stringBody_doubled hr cs (fun hm => h (List.mem_cons_of_mem c hm))
    by_cases hq : c = '"'
    · subst hq
      simp only [List.flatMap_cons, Literal.doubled, if_true, List.cons_append, List.nil_append,
        Scan.stringBody, ih, Option.map_some, List.length_cons]
    · have hn : c ≠ '\n' := fun hc => h (hc ▸ List.mem_cons_self)
      simp only [List.flatMap_cons, Literal.doubled, if_neg hq, List.cons_append, List.nil_append,
        Scan.stringBody_cons_of_ne hn hq, ih, Option.map_some, List.length_cons]

theorem Literal.undoubleQuotes_cons_of_ne {c : Char} (h : c ≠ '"') (more : List Char) :
    Literal.undoubleQuotes (c :: more) = c :: Literal.undoubleQuotes more := by
  rw [Literal.undoubleQuotes.eq_def]
  split <;> simp_all

theorem Literal.undoubleQuotes_doubled : ∀ cs : List Char,
    Literal.undoubleQuotes (cs.flatMap Literal.doubled) = cs
  | [] => rfl
  | c :: cs => by
    by_cases hq : c = '"'
    · subst hq
      simp only [List.flatMap_cons, Literal.doubled, if_true, List.cons_append, List.nil_append,
        Literal.undoubleQuotes, Literal.undoubleQuotes_doubled cs]
    · simp only [List.flatMap_cons, Literal.doubled, if_neg hq, List.cons_append, List.nil_append,
        Literal.undoubleQuotes_cons_of_ne hq, Literal.undoubleQuotes_doubled cs]

theorem Scans.quote (s : String) (h : '\n' ∉ s.toList) (pos : Nat) :
    Scans pos (Value.quote s).toList
      [⟨.literal .string, Value.quote s, ⟨pos, pos + byteLength (Value.quote s).toList⟩⟩]
      Delimited := by
  have hs : Scans pos ('"' :: (s.toList.flatMap Literal.doubled ++ ['"'])) _ Delimited :=
    Scans.token (k := .literal .string) _ (fun rest hr => by
      simp only [Scan.step, List.append_assoc, List.singleton_append,
        Scan.stringBody_doubled (fun c hc => (hr.head c hc).2.2.1) _ h, List.length_append,
        List.length_singleton]) pos
  rwa [← quote_toList, String.ofList_toList] at hs

theorem Literal.read?_quote (s : String) :
    Literal.read? .string (Value.quote s) = some (.text s) := by
  simp only [Literal.read?, quote_toList, Literal.between_wrap, Option.map_some,
    Literal.undoubleQuotes_doubled, String.ofList_toList]

/-! ## Date text -/

/-- Characters that may stand between the `#` signs of a date literal. -/
def Scan.inDate (c : Char) : Bool := c != '#' && c != '\n'

theorem Scan.inDate_of_isDigit {c : Char} (h : c.isDigit = true) : Scan.inDate c = true := by
  have h1 : c ≠ '#' := by rintro rfl; exact absurd h (by decide)
  have h2 : c ≠ '\n' := by rintro rfl; exact absurd h (by decide)
  simp [Scan.inDate, h1, h2]

theorem Moment.inDate_yearText (y : Int) :
    ∀ c ∈ (Moment.yearText y).toList, Scan.inDate c = true := by
  intro c hc
  unfold Moment.yearText at hc
  split at hc
  · exact Scan.inDate_of_isDigit (Moment.isDigit_of_mem_padded hc)
  · rw [String.toList_append, List.mem_append] at hc
    rcases hc with hc | hc
    · split at hc <;> simp_all [Scan.inDate, show "-".toList = ['-'] from rfl,
        show "+".toList = ['+'] from rfl]
    · exact Scan.inDate_of_isDigit (Moment.isDigit_of_mem_padded hc)

theorem Moment.inDate_dateText (t : Moment) : ∀ c ∈ t.dateText.toList, Scan.inDate c = true := by
  intro c hc
  rw [Moment.dateText_toList] at hc
  simp only [List.mem_append, List.mem_cons] at hc
  rcases hc with hc | rfl | hc | rfl | hc
  · exact Moment.inDate_yearText _ c hc
  · rfl
  · exact Scan.inDate_of_isDigit (Moment.isDigit_of_mem_padded hc)
  · rfl
  · exact Scan.inDate_of_isDigit (Moment.isDigit_of_mem_padded hc)

theorem Moment.inDate_timeText (t : Moment) : ∀ c ∈ t.timeText.toList, Scan.inDate c = true := by
  intro c hc
  rw [Moment.timeText_toList] at hc
  simp only [List.mem_append, List.mem_cons] at hc
  rcases hc with hc | rfl | hc | rfl | hc
  · exact Scan.inDate_of_isDigit (Moment.isDigit_of_mem_padded hc)
  · rfl
  · exact Scan.inDate_of_isDigit (Moment.isDigit_of_mem_padded hc)
  · rfl
  · exact Scan.inDate_of_isDigit (Moment.isDigit_of_mem_padded hc)

theorem dateWrap_toList (w : String) : ("#" ++ w ++ "#").toList = '#' :: (w.toList ++ ['#']) := by
  simp [String.toList_append, show "#".toList = ['#'] from rfl]

theorem Scans.dateWrap {w : String} (hw : ∀ c ∈ w.toList, Scan.inDate c = true) (pos : Nat)
    {follow : List Char → Prop} :
    Scans pos ("#" ++ w ++ "#").toList
      [⟨.literal .date, "#" ++ w ++ "#", ⟨pos, pos + byteLength ("#" ++ w ++ "#").toList⟩⟩]
      follow := by
  have hs : Scans pos ('#' :: (w.toList ++ ['#'])) _ follow :=
    Scans.token (k := .literal .date) _ (fun rest _ => by
      have hrun : Scan.run (fun c => c != '#' && c != '\n') (w.toList ++ '#' :: rest) =
          w.toList.length := Scan.run_append hw (by simp)
      simp [Scan.step, Scan.delimited, hrun]) pos
  rwa [← dateWrap_toList, String.ofList_toList] at hs

theorem Literal.read?_dateWrap (w : String) :
    Literal.read? .date ("#" ++ w ++ "#") = (Moment.ofText? w).map .date := by
  simp only [Literal.read?, dateWrap_toList, Literal.between_wrap, Option.bind_some,
    String.ofList_toList]

/-! ## The digits of a double -/

theorem Numeral.Notation.padded_eq (w n : Nat) : Numeral.Notation.padded w n = Moment.padded w n :=
  rfl

theorem Scan.exponentText_literal (e : Int) :
    Scan.ExponentText ('e' :: ((if e < 0 then "-" else "").toList ++
      (Numeral.Notation.padded 1 e.natAbs).toList)) := by
  obtain ⟨p, more, hp, -⟩ := Moment.exists_cons_padded 1 e.natAbs (by decide)
  refine ⟨(if e < 0 then "-" else "").toList,
    (Numeral.Notation.padded 1 e.natAbs).toList, rfl, ?_, ?_, ?_⟩
  · split
    · exact .inr rfl
    · exact .inl rfl
  · rw [Numeral.Notation.padded_eq, hp]
    exact List.cons_ne_nil _ _
  · intro c hc
    rw [Numeral.Notation.padded_eq] at hc
    exact Moment.isDigit_of_mem_padded hc

theorem Value.body_scan (d : Numeral.Digits) (hd : d.WellFormed) :
    ∃ c body, (Value.literalNotation.body d).toList = c :: body ∧
      ∀ rest, Delimited rest → Scan.step c (body ++ rest) = (.token (.literal .float), body.length) := by
  obtain ⟨hne, hdig⟩ := hd
  obtain ⟨d0, ds, hds⟩ := List.exists_cons_of_ne_nil hne
  have hd0 : d0.isDigit = true := hdig d0 (by rw [hds]; exact List.mem_cons_self)
  have hdsd : ∀ c ∈ ds, c.isDigit = true :=
    fun c hc => hdig c (by rw [hds]; exact List.mem_cons_of_mem _ hc)
  unfold Numeral.Notation.body
  split
  · split
    · simp only [Value.literalNotation, hds, List.take_succ_cons, List.drop_succ_cons, if_true]
      have hw : ∀ c ∈ List.take d.exponent.toNat ds ++
          List.replicate (d.exponent.toNat + 1 - (d0 :: ds).length) '0', c.isDigit = true := by
        intro c hc
        rcases List.mem_append.mp hc with hc | hc
        · exact hdsd c (List.mem_of_mem_take hc)
        · rw [(List.mem_replicate.mp hc).2]
          rfl
      generalize hW : List.take d.exponent.toNat ds ++
        List.replicate (d.exponent.toNat + 1 - (d0 :: ds).length) '0' = w at hw
      split
      · refine ⟨d0, w ++ '.' :: (['0'] ++ []), by simp [String.toList_append, ← hW], ?_⟩
        intro rest hr
        rw [Scan.step_of_isDigit hd0, List.append_assoc, List.cons_append,
          Scan.number_point hw (by simp) (by simp) (.inl rfl) hr]
      · rename_i hfrac
        refine ⟨d0, w ++ '.' :: (List.drop d.exponent.toNat ds ++ []),
          by simp [String.toList_append, ← hW], ?_⟩
        intro rest hr
        rw [Scan.step_of_isDigit hd0, List.append_assoc, List.cons_append,
          Scan.number_point hw (fun c hc => hdsd c (List.mem_of_mem_drop hc))
            (by simpa using hfrac) (.inl rfl) hr]
    · have hf : ∀ c ∈ List.replicate ((-d.exponent).toNat - 1) '0' ++ d0 :: ds,
          c.isDigit = true := by
        intro c hc
        rcases List.mem_append.mp hc with hc | hc
        · rw [(List.mem_replicate.mp hc).2]
          rfl
        · exact hdig c (hds ▸ hc)
      refine ⟨'0', [] ++ '.' :: ((List.replicate ((-d.exponent).toNat - 1) '0' ++ d0 :: ds) ++ []),
        by simp [String.toList_append, hds], ?_⟩
      intro rest hr
      rw [Scan.step_of_isDigit (by decide), List.append_assoc, List.cons_append,
        Scan.number_point (by simp) hf (by simp) (.inl rfl) hr]
  · simp only [Value.literalNotation, hds, List.take_succ_cons, List.take_zero,
      List.drop_succ_cons, List.drop_zero, Bool.false_eq_true, if_false]
    have hX := Scan.exponentText_literal d.exponent
    simp only [String.toList_append, List.append_assoc, show 'e'.toString.toList = ['e'] from rfl,
      List.cons_append, List.nil_append]
    generalize (if d.exponent < 0 then "-" else "").toList ++
      (Numeral.Notation.padded 1 d.exponent.natAbs).toList = x at hX ⊢
    split
    · refine ⟨d0, 'e' :: x, by simp, ?_⟩
      intro rest hr
      have h := Scan.number_exponent (w := []) (by simp) hX hr
      simp only [List.nil_append] at h
      rw [Scan.step_of_isDigit hd0, h]
    · rename_i hmore
      refine ⟨d0, [] ++ '.' :: (ds ++ 'e' :: x), by simp [String.toList_append], ?_⟩
      intro rest hr
      rw [Scan.step_of_isDigit hd0, List.append_assoc, List.cons_append,
        Scan.number_point (by simp) hdsd (by simpa using hmore) (.inr hX) hr]

theorem Literal.read?_float {cs : List Char} {y : Float} (hy : Numeral.readFloat? cs = some y)
    (hfin : y.isFinite = true) :
    Literal.read? .float (String.ofList cs) = some (.double (Numeral.Double.ofFloat y)) := by
  simp only [Literal.read?]
  rw [String.toList_ofList, hy, Option.bind_some, if_pos hfin]

end ScriptFold
