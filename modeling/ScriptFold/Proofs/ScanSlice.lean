import Mathlib
import ScriptFold.Proofs.ScanPartition
/-!
# Scanning the text of a run of tokens

A step of the scanner may look past the characters it takes: after a digit for a fraction or an
exponent, after `&` for a radix, after `<`, `>` and a carriage return for a second character,
and a `_` looks for its line break. Yet every step that makes a token or skips trivia, other
than a comment, makes the same piece of any prefix of its text that still holds what it took
(`Scan.step_of_isPrefix`); each helper that reads ahead gets its own prefix lemma beside it.

`Scan.Walk pos cs after items` records the steps of a scan through the text `cs`, with the
text `after` following it. A walk can be cut between any two of its steps (`Walk.split`), moved
to another starting byte (`Walk.shift`), and, when it yields tokens other than line breaks and
ends with one, cut off from what follows (`Walk.truncate`): a comment inside it would reach a
line break token.

Main statement: `Token.scanAll_extract`, the text that a run of tokens without line breaks
spans scans to the same tokens, moved back to its start.
-/
namespace ScriptFold
set_option autoImplicit false

/-! ## Moving spans -/

/-- The span moved back by `k` bytes. -/
def Span.shift (k : Nat) (s : Span) : Span :=
  ⟨s.start - k, s.stop - k⟩

/-- The token with its span moved back by `k` bytes. -/
def Token.shift (k : Nat) (t : Token) : Token :=
  { t with span := t.span.shift k }

namespace Scan

/-- A scanned item with its span moved back by `k` bytes. -/
def shiftItem (k : Nat) : Except ScanError Token → Except ScanError Token
  | .ok t => .ok (t.shift k)
  | .error e => .error { e with span := e.span.shift k }

/-! ## Prefixes of the text after a step -/

theorem exists_cons_of_isPrefix {c : Char} {w' z : List Char} (h : c :: w' <+: z) :
    ∃ w, z = c :: w ∧ w' <+: w := by
  obtain ⟨u, rfl⟩ := h
  exact ⟨w' ++ u, rfl, List.prefix_append _ _⟩

theorem prefix_cons_of_pos {c : Char} {w z' : List Char} (h : z' <+: c :: w)
    (hz : 0 < z'.length) : ∃ w', z' = c :: w' ∧ w' <+: w := by
  rcases z' with _ | ⟨c', w'⟩
  · simp at hz
  · obtain ⟨rfl, hw⟩ := List.cons_prefix_cons.mp h
    exact ⟨w', rfl, hw⟩

theorem take_eq_of_isPrefix {z z' : List Char} (hz : z' <+: z) {n : Nat} (hn : n ≤ z'.length) :
    z'.take n = z.take n := by
  obtain ⟨u, rfl⟩ := hz
  exact (List.take_append_of_le_length hn).symm

theorem run_cons (p : Char → Bool) (c : Char) (cs : List Char) :
    run p (c :: cs) = if p c then run p cs + 1 else 0 := by
  by_cases h : p c <;> simp [run, h]

theorem run_of_isPrefix (p : Char → Bool) {z z' : List Char} (hz : z' <+: z)
    (h : run p z ≤ z'.length) : run p z' = run p z := by
  induction z' generalizing z with
  | nil =>
    simp only [List.length_nil, Nat.le_zero] at h
    rw [h]
    rfl
  | cons c w' ih =>
    obtain ⟨w, rfl, hw⟩ := exists_cons_of_isPrefix hz
    rw [run_cons] at h ⊢
    rw [run_cons]
    by_cases hc : p c
    · simp only [hc, if_true, List.length_cons] at h ⊢
      rw [ih hw (by omega)]
    · simp [hc]

theorem exponentLength_ne_one (z : List Char) : exponentLength z ≠ 1 := by
  unfold exponentLength
  split
  · split
    · omega
    · split <;> omega
  · split <;> omega
  · omega

theorem exponentLength_of_isPrefix {z z' : List Char} (hz : z' <+: z)
    (h : exponentLength z ≤ z'.length) : exponentLength z' = exponentLength z := by
  rcases z' with _ | ⟨e, _ | ⟨s, _ | ⟨d, more'⟩⟩⟩
  · simp only [List.length_nil, Nat.le_zero] at h
    rw [h]
    rfl
  · obtain ⟨w, rfl, -⟩ := exists_cons_of_isPrefix hz
    have := exponentLength_ne_one (e :: w)
    simp only [List.length_cons, List.length_nil] at h
    rw [show exponentLength (e :: w) = 0 by omega]
    rfl
  · obtain ⟨w, rfl, hw⟩ := exists_cons_of_isPrefix hz
    obtain ⟨w2, rfl, -⟩ := exists_cons_of_isPrefix hw
    rcases w2 with _ | ⟨d, more⟩
    · rfl
    · simp only [exponentLength, List.length_cons, List.length_nil] at h ⊢
      by_cases h1 : ((e == 'e' || e == 'E') && (s == '+' || s == '-') && d.isDigit) = true
      · rw [if_pos h1] at h
        omega
      · rw [if_neg h1] at h ⊢
        by_cases h2 : ((e == 'e' || e == 'E') && s.isDigit) = true
        · rw [if_pos h2] at h
          rw [if_pos h2, if_pos h2]
          omega
        · rw [if_neg h2, if_neg h2]
  · obtain ⟨w, rfl, hw⟩ := exists_cons_of_isPrefix hz
    obtain ⟨w2, rfl, hw2⟩ := exists_cons_of_isPrefix hw
    obtain ⟨more, rfl, hmore⟩ := exists_cons_of_isPrefix hw2
    simp only [exponentLength, List.length_cons] at h ⊢
    by_cases h1 : ((e == 'e' || e == 'E') && (s == '+' || s == '-') && d.isDigit) = true
    · rw [if_pos h1] at h ⊢
      rw [if_pos h1, run_of_isPrefix _ hmore (by omega)]
    · rw [if_neg h1] at h ⊢
      rw [if_neg h1]
      by_cases h2 : ((e == 'e' || e == 'E') && s.isDigit) = true
      · rw [if_pos h2] at h ⊢
        rw [if_pos h2, run_of_isPrefix _ (List.cons_prefix_cons.mpr ⟨rfl, hmore⟩) (by simp; omega)]
      · rw [if_neg h2, if_neg h2]

/-- The fraction of a number after its whole part: a point and the digits after it. -/
def pointFraction (a : List Char) : Nat :=
  match a with
  | '.' :: d :: _ => if d.isDigit then 1 + run Char.isDigit (a.drop 1) else 0
  | _ => 0

theorem number_eq (b : Bool) (z : List Char) :
    number b z =
      let fraction := if b then 0 else pointFraction (z.drop (run Char.isDigit z))
      let exponent := exponentLength ((z.drop (run Char.isDigit z)).drop fraction)
      (.token (.literal (if b || fraction > 0 || exponent > 0 then .float else .integer)),
        run Char.isDigit z + fraction + exponent) := rfl

theorem pointFraction_cons_cons (x y : Char) (w : List Char) :
    pointFraction (x :: y :: w) =
      if x = '.' ∧ y.isDigit then 1 + run Char.isDigit (y :: w) else 0 := by
  unfold pointFraction
  split <;> simp_all

theorem pointFraction_short (a : List Char) (h : a.length ≤ 1) : pointFraction a = 0 := by
  unfold pointFraction
  split
  · simp at h
  · rfl

theorem pointFraction_of_isPrefix {a a' : List Char} (ha : a' <+: a)
    (h : pointFraction a ≤ a'.length) : pointFraction a' = pointFraction a := by
  rcases a' with _ | ⟨x, _ | ⟨y, w'⟩⟩
  · simp only [List.length_nil, Nat.le_zero] at h
    rw [h]
    rfl
  · obtain ⟨w, rfl, -⟩ := exists_cons_of_isPrefix ha
    rcases w with _ | ⟨y, w⟩
    · rfl
    · rw [pointFraction_short [x] (by simp), pointFraction_cons_cons]
      rw [pointFraction_cons_cons] at h
      by_cases hxy : x = '.' ∧ y.isDigit = true
      · rw [if_pos hxy, run_cons, if_pos hxy.2] at h
        simp only [List.length_cons, List.length_nil] at h
        omega
      · rw [if_neg hxy]
  · obtain ⟨w, rfl, hw⟩ := exists_cons_of_isPrefix ha
    obtain ⟨w2, rfl, hw2⟩ := exists_cons_of_isPrefix hw
    rw [pointFraction_cons_cons] at h ⊢
    rw [pointFraction_cons_cons]
    by_cases hxy : x = '.' ∧ y.isDigit = true
    · rw [if_pos hxy] at h ⊢
      rw [if_pos hxy, run_of_isPrefix _ (List.cons_prefix_cons.mpr ⟨rfl, hw2⟩) (by simp at h ⊢; omega)]
    · rw [if_neg hxy, if_neg hxy]

theorem number_of_isPrefix (b : Bool) {z z' : List Char} (hz : z' <+: z)
    (h : (number b z).2 ≤ z'.length) : number b z' = number b z := by
  rw [number_eq] at h ⊢
  rw [number_eq]
  dsimp only at h ⊢
  rw [run_of_isPrefix _ hz (by omega)]
  have hA := List.IsPrefix.drop hz (run Char.isDigit z)
  have hlen : (z'.drop (run Char.isDigit z)).length = z'.length - run Char.isDigit z :=
    List.length_drop ..
  have hf : (if b then 0 else pointFraction (z'.drop (run Char.isDigit z))) =
      (if b then 0 else pointFraction (z.drop (run Char.isDigit z))) := by
    cases b
    · simp only [Bool.false_eq_true, if_false] at h ⊢
      exact pointFraction_of_isPrefix hA (by omega)
    · rfl
  rw [hf, exponentLength_of_isPrefix (List.IsPrefix.drop hA _) (by simp only [List.length_drop] at hlen ⊢; omega)]

/-- The closing `&` of a `&H` or `&O` number. -/
def ampersandSuffix (a : List Char) : Nat :=
  match a with
  | '&' :: _ => 1
  | _ => 0

theorem radixNumber_eq (m : Char) (z : List Char) :
    radixNumber m z =
      (.token (.literal (if m.toUpper == 'H' then .hex else .octal)),
        1 + run Char.isAlphanum z + ampersandSuffix (z.drop (run Char.isAlphanum z))) := rfl

theorem ampersandSuffix_cons (x : Char) (w : List Char) :
    ampersandSuffix (x :: w) = if x = '&' then 1 else 0 := by
  unfold ampersandSuffix
  split <;> simp_all

theorem ampersandSuffix_of_isPrefix {a a' : List Char} (ha : a' <+: a)
    (h : ampersandSuffix a ≤ a'.length) : ampersandSuffix a' = ampersandSuffix a := by
  rcases a' with _ | ⟨x, w'⟩
  · simp only [List.length_nil, Nat.le_zero] at h
    rw [h]
    rfl
  · obtain ⟨w, rfl, -⟩ := exists_cons_of_isPrefix ha
    rw [ampersandSuffix_cons, ampersandSuffix_cons]

theorem radixNumber_of_isPrefix (m : Char) {z z' : List Char} (hz : z' <+: z)
    (h : (radixNumber m z).2 ≤ z'.length + 1) : radixNumber m z' = radixNumber m z := by
  rw [radixNumber_eq] at h ⊢
  rw [radixNumber_eq]
  dsimp only at h
  rw [run_of_isPrefix _ hz (by omega), ampersandSuffix_of_isPrefix (List.IsPrefix.drop hz _)
    (by simp only [List.length_drop]; omega)]

theorem stringBody_of_isPrefix {z z' : List Char} {n : Nat} (hz : z' <+: z)
    (h : stringBody z = some n) (hn : n ≤ z'.length) : stringBody z' = some n := by
  fun_induction stringBody z generalizing z' n with
  | case1 => cases h
  | case2 => cases h
  | case3 more ih =>
    obtain ⟨k, hk, rfl⟩ := Option.map_eq_some_iff.mp h
    obtain ⟨w1, rfl, hw1⟩ := prefix_cons_of_pos hz (by omega)
    obtain ⟨w2, rfl, hw2⟩ := prefix_cons_of_pos hw1 (by simp at hn; omega)
    simp only [List.length_cons] at hn
    simp [stringBody, ih hw2 hk (by omega)]
  | case4 tail htail =>
    cases h
    obtain ⟨w', rfl, hw'⟩ := prefix_cons_of_pos hz (by omega)
    rcases w' with _ | ⟨x, w''⟩
    · rfl
    · obtain ⟨t', rfl, -⟩ := exists_cons_of_isPrefix hw'
      have hx : x ≠ '"' := fun hx => htail t' (by rw [hx])
      simp [stringBody, hx]
  | case5 c more hnl _ hq ih =>
    obtain ⟨k, hk, rfl⟩ := Option.map_eq_some_iff.mp h
    obtain ⟨w', rfl, hw'⟩ := prefix_cons_of_pos hz (by omega)
    have hcons : stringBody (c :: w') = (stringBody w').map (· + 1) := by
      rw [stringBody.eq_def]
      split <;> simp_all
    rw [hcons, ih hw' hk (by simp only [List.length_cons] at hn; omega)]
    rfl

theorem delimited_of_isPrefix {close : Char} {kind k : TokenKind} {p : ScanProblem}
    {z z' : List Char} {n : Nat} (hz : z' <+: z) (h : delimited close kind p z = (.token k, n))
    (hn : n ≤ z'.length) : delimited close kind p z' = (.token k, n) := by
  unfold delimited at h ⊢
  dsimp only at h ⊢
  rcases hd : z.drop (run (fun c => c != close && c != '\n') z) with _ | ⟨c, tail⟩
  · rw [hd] at h
    cases h
  · rw [hd] at h
    dsimp only at h
    split at h
    · obtain ⟨hk, rfl⟩ := Prod.mk.inj h
      cases hk
      rw [run_of_isPrefix _ hz (by omega)]
      have hd' := List.IsPrefix.drop hz (run (fun c => c != close && c != '\n') z)
      rw [hd] at hd'
      obtain ⟨tail', htail', -⟩ := prefix_cons_of_pos hd' (by simp only [List.length_drop]; omega)
      rw [htail']
      simp [*]
    · cases h

theorem Trivia.underscore {body after : List Char} (h : Trivia ('_' :: body) after) :
    ∃ blanks brk, body = blanks ++ brk ∧ (∀ c ∈ blanks, c = ' ' ∨ c = '\t') ∧
      (brk = ['\n'] ∨ brk = ['\r', '\n'] ∨ (after = [] ∧ (brk = [] ∨ brk = ['\r']))) := by
  generalize hx : '_' :: body = x at h
  cases h with
  | blank hc =>
    obtain ⟨rfl, -⟩ := List.cons.inj hx
    rcases hc with hc | hc <;> exact absurd hc (by decide)
  | carriageReturn => exact absurd (List.cons.inj hx).1 (by decide)
  | comment => exact absurd (List.cons.inj hx).1 (by decide)
  | continuation hb hbrk =>
    obtain ⟨-, rfl⟩ := List.cons.inj hx
    exact ⟨_, _, rfl, hb, hbrk⟩

theorem continuation_break {blanks brk after : List Char}
    (hb : ∀ c ∈ blanks, c = ' ' ∨ c = '\t') (hbrk : brk = ['\n'] ∨ brk = ['\r', '\n']) :
    continuation (blanks ++ brk ++ after) = (.trivia, blanks.length + brk.length) := by
  have hrun : run (fun c => c == ' ' || c == '\t') (blanks ++ (brk ++ after)) = blanks.length :=
    run_append (fun c hc => by rcases hb c hc with rfl | rfl <;> rfl)
      (by rcases hbrk with rfl | rfl <;> simp)
  unfold continuation
  dsimp only
  rw [List.append_assoc, hrun, List.drop_left]
  rcases hbrk with rfl | rfl <;> simp

theorem continuation_of_isPrefix {z z' : List Char} {n : Nat} (hz : z' <+: z)
    (h : continuation z = (.trivia, n)) (hn : n ≤ z'.length) : continuation z' = (.trivia, n) := by
  obtain ⟨blanks, brk, hbody, hb, hbrk⟩ := Trivia.underscore (continuation_trivia h)
  have hnz : n ≤ z.length := Nat.le_trans hn hz.length_le
  have hlen : n = blanks.length + brk.length := by
    have := congrArg List.length hbody
    simp only [List.length_take, List.length_append] at this
    omega
  have hsplit : z' = blanks ++ brk ++ z'.drop n := by
    rw [← hbody, ← take_eq_of_isPrefix hz hn, List.take_append_drop]
  rcases hbrk with hbrk | hbrk | ⟨hend, -⟩
  · rw [hsplit, continuation_break hb (.inl hbrk), ← hlen]
  · rw [hsplit, continuation_break hb (.inr hbrk), ← hlen]
  · have hzz : z' = z := hz.eq_of_length_le (by
      have := congrArg List.length hend
      simp only [List.length_drop, List.length_nil] at this
      omega)
    rw [hzz, h]

theorem number_pos (b : Bool) {d : Char} (hd : d.isDigit = true) (w : List Char) :
    1 ≤ (number b (d :: w)).2 := by
  rw [number_eq]
  dsimp only
  rw [run_cons, if_pos hd]
  omega

theorem radixNumber_pos (m : Char) {d : Char} (hd : d.isAlphanum = true) (w : List Char) :
    2 ≤ (radixNumber m (d :: w)).2 := by
  rw [radixNumber_eq]
  dsimp only
  rw [run_cons, if_pos hd]
  omega

/-! ## A step takes no more than the text has -/

theorem exponentLength_le : ∀ z : List Char, exponentLength z ≤ z.length
  | _ :: _ :: d :: more => by
    have h1 := run_le Char.isDigit more
    have h2 := run_le Char.isDigit (d :: more)
    simp only [exponentLength, List.length_cons] at h2 ⊢
    split
    · omega
    · split <;> omega
  | [_, _] => by
    simp only [exponentLength]
    split <;> simp
  | [_] => Nat.zero_le _
  | [] => Nat.zero_le _

theorem pointFraction_le (a : List Char) : pointFraction a ≤ a.length := by
  rcases a with _ | ⟨x, _ | ⟨y, w⟩⟩
  · rfl
  · simp [pointFraction_short]
  · rw [pointFraction_cons_cons]
    have := run_le Char.isDigit (y :: w)
    split
    · simp only [List.length_cons] at this ⊢
      omega
    · omega

theorem number_le (b : Bool) (z : List Char) : (number b z).2 ≤ z.length := by
  rw [number_eq]
  dsimp only
  have hw := run_le Char.isDigit z
  have hf := pointFraction_le (z.drop (run Char.isDigit z))
  have he := exponentLength_le ((z.drop (run Char.isDigit z)).drop
    (if b then 0 else pointFraction (z.drop (run Char.isDigit z))))
  simp only [List.length_drop] at hf he
  cases b <;> simp only [Bool.false_eq_true, if_false, if_true] at he ⊢ <;> omega

theorem ampersandSuffix_le (a : List Char) : ampersandSuffix a ≤ a.length := by
  rcases a with _ | ⟨x, w⟩
  · rfl
  · rw [ampersandSuffix_cons]
    split <;> simp

theorem radixNumber_le (m : Char) (z : List Char) : (radixNumber m z).2 ≤ z.length + 1 := by
  rw [radixNumber_eq]
  have hd := run_le Char.isAlphanum z
  have hs := ampersandSuffix_le (z.drop (run Char.isAlphanum z))
  simp only [List.length_drop] at hs
  dsimp only
  omega

theorem stringBody_le {z : List Char} {n : Nat} (h : stringBody z = some n) : n ≤ z.length := by
  fun_induction stringBody z generalizing n with
  | case1 => cases h
  | case2 => cases h
  | case3 more ih =>
    obtain ⟨k, hk, rfl⟩ := Option.map_eq_some_iff.mp h
    have := ih hk
    simp only [List.length_cons]
    omega
  | case4 => cases h; simp
  | case5 c more _ _ _ ih =>
    obtain ⟨k, hk, rfl⟩ := Option.map_eq_some_iff.mp h
    have := ih hk
    simp only [List.length_cons]
    omega

theorem delimited_le (close : Char) (kind : TokenKind) (p : ScanProblem) (z : List Char) :
    (delimited close kind p z).2 ≤ z.length := by
  unfold delimited
  dsimp only
  have hb := run_le (fun c => c != close && c != '\n') z
  rcases hd : z.drop (run (fun c => c != close && c != '\n') z) with _ | ⟨c, tail⟩
  · exact hb
  · have hlen := congrArg List.length hd
    simp only [List.length_drop, List.length_cons] at hlen
    dsimp only
    split <;> dsimp only <;> omega

theorem commentLength_le (z : List Char) : commentLength z ≤ z.length := by
  have := run_le (· != '\n') z
  unfold commentLength
  dsimp only
  split <;> omega

/-- The carriage return of a line break after a `_` and its blanks. -/
def returnLength (a : List Char) : Nat :=
  match a with
  | '\r' :: _ => 1
  | _ => 0

theorem continuation_eq (z : List Char) :
    continuation z =
      let blanks := run (fun c => c == ' ' || c == '\t') z
      let cr := returnLength (z.drop blanks)
      match (z.drop blanks).drop cr with
      | [] => (.trivia, blanks + cr)
      | c :: _ =>
        if c == '\n' then (.trivia, blanks + cr + 1) else (.problem (.stray '_'), blanks + cr) :=
  rfl

theorem returnLength_le (a : List Char) : returnLength a ≤ a.length := by
  unfold returnLength
  split <;> simp

theorem continuation_le (z : List Char) : (continuation z).2 ≤ z.length := by
  have hb := run_le (fun c => c == ' ' || c == '\t') z
  have hA := List.length_drop (i := run (fun c => c == ' ' || c == '\t') z) (l := z)
  rw [continuation_eq]
  dsimp only
  generalize z.drop (run (fun c => c == ' ' || c == '\t') z) = A at hA ⊢
  have hcr := returnLength_le A
  have hlen := List.length_drop (i := returnLength A) (l := A)
  split
  · dsimp only
    omega
  · rename_i heq
    rw [heq, List.length_cons] at hlen
    split <;> dsimp only <;> omega

theorem step_snd_le (c : Char) (rest : List Char) : (step c rest).2 ≤ rest.length := by
  unfold step
  split
  all_goals first
    | exact Nat.zero_le _
    | exact commentLength_le rest
    | exact continuation_le rest
    | exact delimited_le _ _ _ rest
    | skip
  case h_12 =>
    split
    · split
      · exact number_le true _
      · exact Nat.zero_le _
    · exact Nat.zero_le _
  case h_13 => split <;> simp
  case h_14 => split <;> simp
  case h_15 =>
    split
    · split
      · exact radixNumber_le _ _
      · exact Nat.zero_le _
    · exact Nat.zero_le _
  case h_18 => split <;> simp
  case h_22 =>
    split
    · exact stringBody_le ‹_›
    · exact run_le _ rest
  case h_25 =>
    split
    · exact number_le false rest
    · split
      · exact run_le _ rest
      · exact Nat.zero_le _

/-! ## One step on a prefix -/

section Steps

variable {z z' : List Char}

theorem step_dot_of_isPrefix (hz : z' <+: z) (hn : (step '.' z).2 ≤ z'.length) :
    step '.' z' = step '.' z := by
  simp only [step] at hn ⊢
  rcases z' with _ | ⟨d, w'⟩
  · rcases z with _ | ⟨d, w⟩
    · rfl
    · dsimp only at hn ⊢
      split at hn
      · have := number_pos true ‹_› w
        simp only [List.length_nil] at hn
        omega
      · rw [if_neg ‹_›]
  · obtain ⟨w, rfl, -⟩ := exists_cons_of_isPrefix hz
    dsimp only at hn ⊢
    split
    · rw [if_pos ‹_›] at hn
      exact number_of_isPrefix true hz hn
    · rfl

theorem step_lookahead_of_isPrefix (c : Char) (hc : c = '<' ∨ c = '>' ∨ c = '\r')
    (hz : z' <+: z) (hn : (step c z).2 ≤ z'.length) : step c z' = step c z := by
  rcases hc with rfl | rfl | rfl
  all_goals
    simp only [step] at hn ⊢
    rcases z' with _ | ⟨x, w'⟩
    · split at hn <;> simp_all
    · obtain ⟨w, rfl, -⟩ := exists_cons_of_isPrefix hz
      split <;> split <;> simp_all

theorem step_ampersand_short (h : (step '&' z).2 ≤ 1) : step '&' z = (.token .ampersand, 0) := by
  simp only [step] at h ⊢
  split
  · split
    · rename_i m d more hmd
      have := radixNumber_pos m ((Bool.and_eq_true _ _).mp hmd).2 more
      simp only [if_pos hmd] at h
      omega
    · rfl
  · rfl

theorem step_ampersand_of_isPrefix (hz : z' <+: z) (hn : (step '&' z).2 ≤ z'.length) :
    step '&' z' = step '&' z := by
  rcases z' with _ | ⟨m, _ | ⟨d, more'⟩⟩
  · rw [step_ampersand_short (z := z) (by simp only [List.length_nil] at hn; omega)]
    rfl
  · rw [step_ampersand_short (z := z) (by simpa using hn)]
    rfl
  · simp only [step] at hn ⊢
    obtain ⟨w, rfl, hw⟩ := exists_cons_of_isPrefix hz
    obtain ⟨w2, rfl, hw2⟩ := exists_cons_of_isPrefix hw
    dsimp only at hn ⊢
    split
    · rw [if_pos ‹_›] at hn
      exact radixNumber_of_isPrefix m hw (by simpa using hn)
    · rfl

theorem step_quote_of_isPrefix (hz : z' <+: z) (hp : ∀ q, (step '"' z).1 ≠ .problem q)
    (hn : (step '"' z).2 ≤ z'.length) : step '"' z' = step '"' z := by
  simp only [step] at hp hn ⊢
  rcases hs : stringBody z with _ | n
  · simp only [hs] at hp
    exact absurd rfl (hp _)
  · simp only [hs] at hn
    rw [stringBody_of_isPrefix hz hs hn]

theorem delimited_step_of_isPrefix {close : Char} {kind : TokenKind} {p : ScanProblem}
    (hz : z' <+: z) (hp : ∀ q, (delimited close kind p z).1 ≠ .problem q)
    (hn : (delimited close kind p z).2 ≤ z'.length) :
    delimited close kind p z' = delimited close kind p z := by
  rcases hd : delimited close kind p z with ⟨_ | _ | q, n⟩
  · rw [hd] at hn
    exact delimited_of_isPrefix hz hd hn
  · exact absurd hd (delimited_ne_trivia _ _ _ _ _)
  · rw [hd] at hp
    exact absurd rfl (hp q)

theorem continuation_step_of_isPrefix (hz : z' <+: z) (hp : ∀ q, (continuation z).1 ≠ .problem q)
    (hn : (continuation z).2 ≤ z'.length) : continuation z' = continuation z := by
  rcases hc : continuation z with ⟨_ | _ | q, n⟩
  · exact absurd hc (continuation_ne_token _ _ _)
  · rw [hc] at hn
    exact continuation_of_isPrefix hz hc hn
  · rw [hc] at hp
    exact absurd rfl (hp q)

end Steps

theorem step_of_isPrefix {c : Char} {z z' : List Char} (hz : z' <+: z) (hc : c ≠ '\'')
    (hp : ∀ q, (step c z).1 ≠ .problem q) (hn : (step c z).2 ≤ z'.length) :
    step c z' = step c z := by
  revert hp hn
  unfold step
  split
  all_goals intro hp hn
  all_goals first
    | rfl
    | exact absurd rfl hc
    | exact step_dot_of_isPrefix hz hn
    | exact step_lookahead_of_isPrefix '<' (.inl rfl) hz hn
    | exact step_lookahead_of_isPrefix '>' (.inr (.inl rfl)) hz hn
    | exact step_ampersand_of_isPrefix hz hn
    | exact step_lookahead_of_isPrefix '\r' (.inr (.inr rfl)) hz hn
    | exact step_quote_of_isPrefix hz hp hn
    | exact continuation_step_of_isPrefix hz hp hn
    | exact delimited_step_of_isPrefix hz hp hn
    | skip
  by_cases hd : c.isDigit = true
  · simp only [hd, if_true] at hn ⊢
    exact number_of_isPrefix false hz hn
  · by_cases ha : c.isAlpha = true
    · simp only [hd, ha, if_true, Bool.false_eq_true, if_false] at hn ⊢
      rw [run_of_isPrefix _ hz hn, take_eq_of_isPrefix hz hn]
    · simp [hd, ha] at hp

/-! ## Lists of items -/

theorem filterMap_id_split {α : Type} {L : List (Option α)} {A B : List α} {b : α}
    (h : L.filterMap id = A ++ b :: B) :
    ∃ L1 L2, L = L1 ++ some b :: L2 ∧ L1.filterMap id = A ∧ L2.filterMap id = B := by
  obtain ⟨l1, l2, rfl, h1, h2⟩ := List.filterMap_eq_append_iff.mp h
  obtain ⟨n, o, l3, rfl, hn, ho, h3⟩ := List.filterMap_eq_cons_iff.mp h2
  obtain rfl : o = some b := ho
  refine ⟨l1 ++ n, l3, by simp, ?_, h3⟩
  rw [List.filterMap_append, h1, List.filterMap_eq_nil_iff.mpr hn, List.append_nil]

theorem eq_map_ok_of_mapM {items : List (Except ScanError Token)} {ts : List Token}
    (h : items.mapM id = .ok ts) : items = ts.map .ok := by
  induction items generalizing ts with
  | nil =>
    cases h
    rfl
  | cons it items ih =>
    rw [List.mapM_cons] at h
    cases it with
    | error e => cases h
    | ok t =>
      cases hrest : items.mapM id with
      | error e =>
        rw [hrest] at h
        cases h
      | ok ts' =>
        rw [hrest] at h
        cases h
        rw [ih hrest]
        rfl

theorem byteLength_eq_utf8Len (cs : List Char) : byteLength cs = String.utf8Len cs := by
  induction cs with
  | nil => rfl
  | cons c cs ih =>
    simp only [byteLength, List.map_cons, List.sum_cons, String.utf8Len] at ih ⊢
    omega

/-! ## Walks -/

/-- The item a step's piece yields: a token spelled by the characters taken, nothing for
trivia, or a problem over them. -/
def pieceItem (p : Piece) (taken : List Char) (pos : Nat) : Option (Except ScanError Token) :=
  match p with
  | .token k => some (.ok ⟨k, String.ofList taken, ⟨pos, pos + byteLength taken⟩⟩)
  | .trivia => none
  | .problem q => some (.error ⟨q, ⟨pos, pos + byteLength taken⟩⟩)

theorem pieceItem_span {p : Piece} {taken : List Char} {pos : Nat} {it : Except ScanError Token}
    (h : pieceItem p taken pos = some it) : itemSpan it = ⟨pos, pos + byteLength taken⟩ := by
  cases p <;> cases h <;> rfl

theorem scanFrom_cons_of_step {c : Char} {rest : List Char} {p : Piece} {n : Nat}
    (h : step c rest = (p, n)) (pos : Nat) :
    scanFrom pos (c :: rest) = (pieceItem p (c :: rest.take n) pos).toList ++
      scanFrom (pos + byteLength (c :: rest.take n)) (rest.drop n) := by
  rw [scanFrom, h]
  cases p <;> rfl

/-- `Walk pos cs after items`: scanning `cs ++ after` from byte `pos`, the first steps take
exactly the characters `cs` and yield `items`, one entry a step. What a step takes may depend
on the text `after`. -/
inductive Walk : Nat → List Char → List Char → List (Option (Except ScanError Token)) → Prop
  | nil (pos : Nat) (after : List Char) : Walk pos [] after []
  | step {pos : Nat} {c : Char} {x rest after : List Char} {p : Piece}
      {items : List (Option (Except ScanError Token))}
      (h : step c (x ++ (rest ++ after)) = (p, x.length))
      (hw : Walk (pos + byteLength (c :: x)) rest after items) :
      Walk pos (c :: (x ++ rest)) after (pieceItem p (c :: x) pos :: items)

theorem byteLength_cons_append (c : Char) (x rest : List Char) :
    byteLength (c :: (x ++ rest)) = byteLength (c :: x) + byteLength rest := by
  rw [← List.cons_append, byteLength_append]

theorem exists_walk : ∀ (pos : Nat) (cs : List Char), ∃ items, Walk pos cs [] items
  | pos, [] => ⟨[], .nil pos []⟩
  | pos, c :: rest => by
    rcases hstep : step c rest with ⟨p, n⟩
    have hn : n ≤ rest.length := by simpa [hstep] using step_snd_le c rest
    obtain ⟨items, hw⟩ := exists_walk (pos + byteLength (c :: rest.take n)) (rest.drop n)
    have h : step c (rest.take n ++ (rest.drop n ++ [])) = (p, (rest.take n).length) := by
      rw [List.append_nil, List.take_append_drop, List.length_take, Nat.min_eq_left hn, hstep]
    have hwalk := Walk.step h hw
    rw [List.take_append_drop] at hwalk
    exact ⟨_, hwalk⟩
termination_by _ cs => cs.length
decreasing_by simp only [List.length_drop, List.length_cons]; omega

namespace Walk

variable {pos : Nat} {cs after : List Char} {items : List (Option (Except ScanError Token))}

theorem scanFrom_eq (hw : Walk pos cs after items) :
    scanFrom pos (cs ++ after) = items.filterMap id ++ scanFrom (pos + byteLength cs) after := by
  induction hw with
  | nil pos after => simp [byteLength]
  | @step pos c x rest after p items h hw ih =>
    rw [List.cons_append, List.append_assoc, scanFrom_cons_of_step h, List.take_left,
      List.drop_left, ih, byteLength_cons_append, Nat.add_assoc]
    cases pieceItem p (c :: x) pos <;> simp

theorem eq_nil (hw : Walk pos cs after []) : cs = [] := by
  cases hw
  rfl

theorem ne_nil {o : Option (Except ScanError Token)} (hw : Walk pos cs after (o :: items)) :
    cs ≠ [] := by
  cases hw
  simp

theorem split {first : List (Option (Except ScanError Token))} :
    ∀ {pos : Nat} {cs : List Char}, Walk pos cs after (first ++ items) →
      ∃ a b, cs = a ++ b ∧ Walk pos a (b ++ after) first ∧
        Walk (pos + byteLength a) b after items := by
  induction first with
  | nil =>
    intro pos cs hw
    exact ⟨[], cs, rfl, .nil pos _, by simpa [byteLength] using hw⟩
  | cons o first ih =>
    intro pos cs hw
    cases hw with
    | @step _ c x rest _ p _ h hw =>
      obtain ⟨a, b, rfl, ha, hb⟩ := ih hw
      refine ⟨c :: (x ++ a), b, by simp, ?_, ?_⟩
      · rw [List.append_assoc] at h
        exact .step h ha
      · rwa [byteLength_cons_append, ← Nat.add_assoc]

theorem start {it : Except ScanError Token} (hw : Walk pos cs after (some it :: items)) :
    (itemSpan it).start = pos := by
  generalize hl : some it :: items = l at hw
  cases hw with
  | nil => cases hl
  | step h hw => rw [pieceItem_span (List.cons.inj hl).1.symm]

theorem stop {it : Except ScanError Token} (hw : Walk pos cs after items)
    (hlast : items.getLast? = some (some it)) : (itemSpan it).stop = pos + byteLength cs := by
  induction hw with
  | nil => cases hlast
  | @step pos c x rest after p items h hw ih =>
    rcases items with _ | ⟨o, items⟩
    · rw [hw.eq_nil, List.append_nil]
      simp only [List.getLast?_singleton, Option.some.injEq] at hlast
      rw [pieceItem_span hlast]
    · rw [List.getLast?_cons_cons] at hlast
      rw [ih hlast, byteLength_cons_append, Nat.add_assoc]

theorem head_newline (hw : Walk pos cs after items) (hne : cs ≠ [])
    (hbrk : (cs ++ after).head? = some '\n' ∨ ['\r', '\n'] <+: cs ++ after) :
    ∃ t more, items = some (.ok t) :: more ∧ t.kind = .newline := by
  cases hw with
  | nil => exact absurd rfl hne
  | @step _ c x rest _ p items h hw =>
    rw [List.cons_append, List.append_assoc] at hbrk
    have hp : p = .token .newline := by
      rcases hbrk with hbrk | ⟨u, hu⟩
      · obtain rfl : c = '\n' := by simpa using hbrk
        exact (Prod.mk.inj h).1.symm
      · obtain ⟨rfl, hlf⟩ := List.cons.inj hu
        rw [← hlf] at h
        exact (Prod.mk.inj h).1.symm
    subst hp
    exact ⟨_, _, rfl, rfl⟩

end Walk

theorem comment_break (z : List Char) :
    z.drop (commentLength z) = [] ∨ (z.drop (commentLength z)).head? = some '\n' ∨
      ['\r', '\n'] <+: z.drop (commentLength z) := by
  have ht := comment_trivia z
  generalize z.drop (commentLength z) = r at ht ⊢
  generalize hq : '\'' :: z.take (commentLength z) = q at ht
  cases ht with
  | blank hc => rcases hc with rfl | rfl <;> simp at hq
  | carriageReturn => simp at hq
  | comment _ hend => exact hend.imp_right (Or.imp_left And.left)
  | continuation => simp at hq

namespace Walk

variable {pos : Nat} {cs after : List Char} {items : List (Option (Except ScanError Token))}

theorem truncate (hw : Walk pos cs after items)
    (hitems : ∀ it ∈ items.filterMap id, ∃ t, it = .ok t ∧ t.kind ≠ .newline)
    (hlast : ∀ o ∈ items.getLast?, o.isSome) : Walk pos cs [] items := by
  induction hw with
  | nil pos after => exact .nil pos []
  | @step pos c x rest after p items h hw ih =>
    have hmem : ∀ it ∈ items.filterMap id, it ∈ (pieceItem p (c :: x) pos :: items).filterMap id :=
      fun it hit => by cases pieceItem p (c :: x) pos <;> simp_all
    have hlast' : ∀ o ∈ items.getLast?, o.isSome := by
      intro o ho
      rcases items with _ | ⟨o', items⟩
      · cases ho
      · exact hlast o (by rwa [List.getLast?_cons_cons])
    have hp : ∀ q, p ≠ .problem q := by
      rintro q rfl
      obtain ⟨t, ht, -⟩ := hitems (.error ⟨q, ⟨pos, pos + byteLength (c :: x)⟩⟩)
        (by simp [pieceItem])
      cases ht
    have hc : c ≠ '\'' := by
      rintro rfl
      obtain ⟨rfl, hx⟩ := Prod.mk.inj h
      rcases items with _ | ⟨o, items⟩
      · simp [pieceItem] at hlast
      · have hrest := hw.ne_nil
        have hbrk := comment_break (x ++ (rest ++ after))
        rw [hx, List.drop_left] at hbrk
        obtain ⟨t, more, hnext, ht⟩ :=
          hw.head_newline hrest (hbrk.resolve_left (by simp [hrest]))
        obtain ⟨t', ht', hk⟩ := hitems (.ok t) (by rw [hnext]; simp [pieceItem])
        cases ht'
        exact hk ht
    have h' : Scan.step c (x ++ (rest ++ [])) = (p, x.length) := by
      rw [List.append_nil, ← h]
      exact step_of_isPrefix ⟨after, List.append_assoc _ _ _⟩ hc (h ▸ hp) (by simp [h])
    exact .step h' (ih (fun it hit => hitems it (hmem it hit)) hlast')

theorem shift (hw : Walk pos cs after items) (k : Nat) (hk : k ≤ pos) :
    Walk (pos - k) cs after (items.map (Option.map (shiftItem k))) := by
  induction hw with
  | nil pos after => exact .nil _ _
  | @step pos c x rest after p items h hw ih =>
    have hpos : pos + byteLength (c :: x) - k = pos - k + byteLength (c :: x) := by omega
    have hitem : (pieceItem p (c :: x) pos).map (shiftItem k) = pieceItem p (c :: x) (pos - k) := by
      cases p <;> simp only [pieceItem, shiftItem, Token.shift, Span.shift, Option.map] <;>
        rw [hpos]
    rw [List.map_cons, hitem]
    exact .step h (hpos ▸ ih (by omega))

theorem cut {pre mid post : List Token} (hw : Walk pos cs [] items)
    (h : items.filterMap id = (pre ++ mid ++ post).map .ok) (hne : mid ≠ []) :
    ∃ a x b part, cs = a ++ (x ++ b) ∧ Walk (pos + byteLength a) x b part ∧
      part.filterMap id = mid.map .ok ∧ part.head? = some (some (.ok (mid.head hne))) ∧
      part.getLast? = some (some (.ok (mid.getLast hne))) := by
  have hm : mid.map Except.ok = (Except.ok (mid.head hne) : Except ScanError Token) ::
      mid.tail.map Except.ok := by
    rw [← List.map_cons, List.cons_head_tail]
  have hmid := (List.dropLast_append_getLast hne).symm
  generalize mid.getLast hne = last at hmid ⊢
  generalize mid.dropLast = init at hmid
  have h1 : items.filterMap id = (pre ++ init).map .ok ++ .ok last :: post.map .ok := by
    rw [h, hmid]
    simp
  obtain ⟨La, Lb, rfl, ha, hb⟩ := filterMap_id_split h1
  have h2 : (La ++ [some (Except.ok last)]).filterMap id =
      pre.map .ok ++ .ok (mid.head hne) :: mid.tail.map .ok := by
    rw [List.filterMap_append, ha, ← hm, hmid]
    simp
  obtain ⟨L1, L2, hL, -, h2'⟩ := filterMap_id_split h2
  rw [← List.singleton_append, ← List.append_assoc, hL, List.append_assoc] at hw
  obtain ⟨a, r, rfl, -, hr⟩ := hw.split
  obtain ⟨x, b, rfl, hx, -⟩ := hr.split
  rw [List.append_nil] at hx
  refine ⟨a, x, b, _, rfl, hx, ?_, rfl, ?_⟩
  · rw [List.filterMap_cons_some (f := id) rfl, h2', hm]
  · have hlast := congrArg List.getLast? hL
    rw [List.getLast?_append_of_ne_nil _ (List.cons_ne_nil _ _),
      List.getLast?_append_of_ne_nil _ (List.cons_ne_nil _ _), List.getLast?_singleton] at hlast
    exact hlast.symm

end Walk

theorem filterMap_shift (k : Nat) (items : List (Option (Except ScanError Token))) :
    (items.map (Option.map (shiftItem k))).filterMap id = (items.filterMap id).map (shiftItem k) := by
  simp [List.filterMap_map, List.map_filterMap]

end Scan

/-! ## The text of a run of tokens -/

open Scan in
/-- Scanning the text that a run of tokens spans gives the same tokens again, moved back to the
start of that text, and then the end token, provided the run holds no line break: then no
comment lies inside it, and every other step decides from the characters it takes. -/
theorem Token.scanAll_extract {src : String} {pre mid post : List Token}
    (h : Token.scanAll src = .ok (pre ++ mid ++ post)) (hne : mid ≠ [])
    (hmid : ∀ t ∈ mid, t.kind ≠ .newline ∧ t.kind ≠ .eof) :
    Token.scanAll (String.Pos.Raw.extract src ⟨(mid.head hne).span.start⟩
        ⟨(mid.getLast hne).span.stop⟩) =
      .ok (mid.map (Token.shift (mid.head hne).span.start) ++
        [Token.eof ((mid.getLast hne).span.stop - (mid.head hne).span.start)]) := by
  obtain ⟨W, hw⟩ := exists_walk 0 src.toList
  have hscan := hw.scanFrom_eq
  rw [List.append_nil, scanFrom_nil, Nat.zero_add] at hscan
  have hitems := eq_map_ok_of_mapM h
  rw [Token.scan, hscan] at hitems
  obtain ⟨post', hW⟩ : ∃ post', W.filterMap id = (pre ++ mid ++ post').map .ok := by
    rcases List.eq_nil_or_concat post with rfl | ⟨post', e, rfl⟩
    · have hl := congrArg List.getLast? hitems
      simp [List.getLast?_append, List.getLast?_eq_some_getLast hne] at hl
      exact absurd (by rw [← hl]; rfl) (hmid _ (List.getLast_mem hne)).2
    · rw [List.concat_eq_append, ← List.append_assoc, List.map_append, List.map_singleton] at hitems
      exact ⟨post', (List.append_inj' hitems rfl).1⟩
  obtain ⟨a, x, b, part, hsrc, hx, hfm, hhead, hlast⟩ := hw.cut hW hne
  rw [Nat.zero_add] at hx
  obtain ⟨more, rfl⟩ : ∃ more, part = some (.ok (mid.head hne)) :: more := by
    rcases part with _ | ⟨o, more⟩
    · cases hhead
    · cases hhead
      exact ⟨more, rfl⟩
  have hstart : (mid.head hne).span.start = byteLength a := hx.start
  have hstop : (mid.getLast hne).span.stop = byteLength a + byteLength x := hx.stop hlast
  have hslice : String.Pos.Raw.extract src ⟨(mid.head hne).span.start⟩
      ⟨(mid.getLast hne).span.stop⟩ = String.ofList x := by
    rw [hstart, hstop, ← String.ofList_toList (s := src), hsrc, ← List.append_assoc,
      byteLength_eq_utf8Len, byteLength_eq_utf8Len]
    exact String.extract_of_valid a x b
  have hkinds : ∀ it ∈ (some (.ok (mid.head hne)) :: more).filterMap id,
      ∃ t, it = .ok t ∧ t.kind ≠ .newline := by
    rw [hfm]
    intro it hit
    obtain ⟨t, ht, rfl⟩ := List.mem_map.mp hit
    exact ⟨t, rfl, (hmid t ht).1⟩
  have hwalk := (hx.truncate hkinds (by rw [hlast]; simp)).shift (byteLength a) le_rfl
  rw [Nat.sub_self] at hwalk
  have hs := hwalk.scanFrom_eq
  rw [List.append_nil, scanFrom_nil, Nat.zero_add] at hs
  rw [hslice]
  apply scanAll_eq
  rw [Token.scan, String.toList_ofList, hs, hstart, hstop, Nat.add_sub_cancel_left,
    filterMap_shift, hfm]
  simp [shiftItem, Token.eof, Token.shift, Span.shift]

end ScriptFold
