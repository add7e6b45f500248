import Mathlib
import ScriptFold.Source.Scan
/-!
# Scanning a text piece by piece

`Scans pos cs ts follow`: the characters `cs`, scanned from byte offset `pos`, give the tokens
`ts`, and then whatever follows them scans on its own, for every text that `follow` allows after
them. Pieces join with `Scans.append` when each piece allows what the next one starts with, and a
whole text that is such a piece scans to its tokens and the end token (`Scans.scanAll`).

A single step closes a token whatever follows it when the following character cannot continue
it. `Delimited` names what follows an operand in printed text: the end, a blank, a parenthesis,
a comma, or a point with no digit after it. Before such a character a run of digits is an
integer (`number_integer`), digits with a point or an exponent are a float (`number_point`,
`number_exponent`), and a word is the word (`step_word`).
-/

namespace ScriptFold

set_option autoImplicit false

namespace Scan

/-! ## Runs -/

theorem byteLength_append (a b : List Char) :
    byteLength (a ++ b) = byteLength a + byteLength b := by
  simp [byteLength]

theorem run_append {p : Char → Bool} {cs rest : List Char} (hall : ∀ c ∈ cs, p c = true)
    (hstop : ∀ c ∈ rest.head?, p c = false) : run p (cs ++ rest) = cs.length := by
  have hrest : rest.takeWhile p = [] := by
    cases rest with
    | nil => rfl
    | cons c more => exact List.takeWhile_cons_of_neg (by simp [hstop c rfl])
  simp only [run, List.takeWhile_append_of_pos hall, hrest, List.append_nil]

/-! ## What may follow an operand -/

/-- The text after a printed operand: nothing, or a blank, a parenthesis, a comma, or a point
that no digit follows. -/
def Delimited (rest : List Char) : Prop :=
  ∀ c ∈ rest.head?, c = ' ' ∨ c = ')' ∨ c = ',' ∨ c = '(' ∨
    (c = '.' ∧ ∀ d ∈ rest.tail.head?, d.isDigit = false)

theorem Delimited.nil : Delimited [] := by
  intro c hc
  cases hc

theorem Delimited.of_head {c : Char} (hc : c = ' ' ∨ c = ')' ∨ c = ',' ∨ c = '(')
    (rest : List Char) : Delimited (c :: rest) := by
  intro d hd
  cases hd
  rcases hc with h | h | h | h <;> simp [h]

theorem Delimited.head {rest : List Char} (h : Delimited rest) :
    ∀ c ∈ rest.head?, c.isDigit = false ∧ isNameChar c = false ∧ c ≠ '"' ∧ c ≠ 'e' ∧ c ≠ 'E' := by
  intro c hc
  rcases h c hc with rfl | rfl | rfl | rfl | ⟨rfl, -⟩ <;> decide

/-! ## Numbers -/

theorem exponentLength_of_head {cs : List Char} (h : ∀ c ∈ cs.head?, c ≠ 'e' ∧ c ≠ 'E') :
    exponentLength cs = 0 := by
  match cs with
  | [] => rfl
  | [_] => rfl
  | c :: _ :: [] =>
    obtain ⟨h1, h2⟩ := h c rfl
    simp [exponentLength, h1, h2]
  | c :: _ :: _ :: _ =>
    obtain ⟨h1, h2⟩ := h c rfl
    simp [exponentLength, h1, h2]

theorem exponentLength_digit {d : Char} (hd : d.isDigit = true) (tl : List Char) :
    exponentLength ('e' :: d :: tl) = 2 + run Char.isDigit tl := by
  cases tl with
  | nil => simp [exponentLength, hd, run]
  | cons x more =>
    have hsign : (d == '+' || d == '-') = false := by
      cases h1 : d == '+' <;> cases h2 : d == '-' <;> simp_all
    simp [exponentLength, hd, hsign]

theorem exponentLength_minus {d : Char} (hd : d.isDigit = true) (tl : List Char) :
    exponentLength ('e' :: '-' :: d :: tl) = 3 + run Char.isDigit tl := by
  simp [exponentLength, hd]

/-- An exponent part as the literals write it: `e`, an optional minus sign and digits. -/
def ExponentText (x : List Char) : Prop :=
  ∃ sgn ds, x = 'e' :: (sgn ++ ds) ∧ (sgn = [] ∨ sgn = ['-']) ∧ ds ≠ [] ∧
    ∀ c ∈ ds, c.isDigit = true

theorem exponentLength_of_text {x rest : List Char} (h : ExponentText x)
    (hr : ∀ c ∈ rest.head?, c.isDigit = false) : exponentLength (x ++ rest) = x.length := by
  obtain ⟨sgn, ds, rfl, hsgn | hsgn, hne, hds⟩ := h
  all_goals
    obtain ⟨d, more, rfl⟩ := List.exists_cons_of_ne_nil hne
    subst hsgn
    have hmore : ∀ c ∈ more, c.isDigit = true := fun c hc => hds c (by simp [hc])
  · simp only [List.nil_append, List.cons_append]
    rw [exponentLength_digit (hds d (by simp)), run_append hmore hr]
    simp only [List.length_cons]
    omega
  · simp only [List.cons_append, List.nil_append]
    rw [exponentLength_minus (hds d (by simp)), run_append hmore hr]
    simp only [List.length_cons]
    omega

theorem step_of_isDigit {c : Char} (hc : c.isDigit = true) (rest : List Char) :
    step c rest = number false rest := by
  unfold step
  split <;> first | exact absurd hc (by decide) | simp [hc]

theorem number_integer {ds rest : List Char} (hds : ∀ c ∈ ds, c.isDigit = true)
    (hr : Delimited rest) :
    number false (ds ++ rest) = (.token (.literal .integer), ds.length) := by
  have hrun : run Char.isDigit (ds ++ rest) = ds.length :=
    run_append hds fun c hc => (hr.head c hc).1
  have hexp : exponentLength rest = 0 :=
    exponentLength_of_head fun c hc => ⟨(hr.head c hc).2.2.2.1, (hr.head c hc).2.2.2.2⟩
  unfold number
  simp only [hrun, List.drop_left, Bool.false_eq_true, if_false]
  split
  · rename_i d tl
    have hd : d.isDigit = false := by
      rcases hr '.' rfl with h | h | h | h | ⟨-, h⟩
      all_goals first | exact absurd h (by decide) | exact h d rfl
    simp [hd, hexp]
  · simp [hexp]

theorem number_point {w f x rest : List Char} (hw : ∀ c ∈ w, c.isDigit = true)
    (hf : ∀ c ∈ f, c.isDigit = true) (hf0 : f ≠ []) (hx : x = [] ∨ ExponentText x)
    (hr : Delimited rest) :
    number false (w ++ '.' :: (f ++ x ++ rest)) =
      (.token (.literal .float), (w ++ '.' :: (f ++ x)).length) := by
  have hrd : ∀ c ∈ rest.head?, c.isDigit = false := fun c hc => (hr.head c hc).1
  have hstop : ∀ c ∈ (x ++ rest).head?, c.isDigit = false := by
    rcases hx with rfl | hx
    · simpa using hrd
    · obtain ⟨sgn, ds, rfl, -, -, -⟩ := hx
      intro c hc
      cases hc
      rfl
  have hexp : exponentLength (x ++ rest) = x.length := by
    rcases hx with rfl | hx
    · exact exponentLength_of_head fun c hc =>
        ⟨(hr.head c hc).2.2.2.1, (hr.head c hc).2.2.2.2⟩
    · exact exponentLength_of_text hx hrd
  have hwhole : run Char.isDigit (w ++ '.' :: (f ++ (x ++ rest))) = w.length :=
    run_append hw (by simp)
  have hfrac : run Char.isDigit (f ++ (x ++ rest)) = f.length := run_append hf hstop
  obtain ⟨d, more, rfl⟩ := List.exists_cons_of_ne_nil hf0
  have hd := hf d List.mem_cons_self
  have hrest : ('.' :: (d :: more ++ (x ++ rest))).drop (1 + (d :: more).length) = x ++ rest := by
    rw [Nat.add_comm, List.drop_succ_cons, List.drop_left]
  unfold number
  rw [List.append_assoc (d :: more)]
  simp only [hwhole, List.drop_left]
  rw [List.cons_append]
  simp only [Bool.false_eq_true, if_false, hd, if_true, List.drop_one, List.tail_cons]
  rw [← List.cons_append, hfrac, hrest, hexp]
  have hkind : (false || decide (1 + (more.length + 1) > 0) || decide (x.length > 0)) = true := by
    simp only [Bool.false_or, Bool.or_eq_true, decide_eq_true_eq]
    omega
  simp only [List.length_append, List.length_cons, hkind, if_true, Prod.mk.injEq, true_and]
  omega

theorem number_exponent {w x rest : List Char} (hw : ∀ c ∈ w, c.isDigit = true)
    (hx : ExponentText x) (hr : Delimited rest) :
    number false (w ++ x ++ rest) = (.token (.literal .float), (w ++ x).length) := by
  have hwhole : run Char.isDigit (w ++ (x ++ rest)) = w.length := by
    apply run_append hw
    obtain ⟨sgn, ds, rfl, -, -, -⟩ := hx
    intro c hc
    cases hc
    rfl
  have hexp := exponentLength_of_text hx fun c hc => (hr.head c hc).1
  obtain ⟨sgn, ds, rfl, -, -, -⟩ := hx
  have hkind : (false || decide (0 > 0) ||
      decide (sgn.length + ds.length + 1 > 0)) = true := by
    simp only [Bool.false_or, Bool.or_eq_true, decide_eq_true_eq]
    omega
  unfold number
  simp only [List.append_assoc, hwhole, List.drop_left, Bool.false_eq_true, if_false]
  split
  · rename_i h
    cases h
  · rw [List.drop_zero, hexp]
    simp only [List.length_append, List.length_cons, Nat.add_zero]
    rw [if_pos hkind]

/-! ## Words -/

theorem isDigit_of_isAlpha {c : Char} (hc : c.isAlpha = true) : c.isDigit = false := by
  cases h : c.isDigit
  · rfl
  · have hd := Char.isDigit_iff_toNat.mp h
    simp only [Char.isAlpha, Char.isUpper, Char.isLower, Bool.or_eq_true, Bool.and_eq_true,
      decide_eq_true_eq, ge_iff_le, UInt32.le_iff_toNat_le] at hc
    have hA : 'A'.val.toNat = 65 := rfl
    have ha : 'a'.val.toNat = 97 := rfl
    have hv : c.toNat = c.val.toNat := rfl
    simp only [Char.reduceToNat] at hd
    omega

theorem step_word {c : Char} (hc : c.isAlpha = true) {body rest : List Char}
    (hbody : ∀ x ∈ body, isNameChar x = true) (hrest : ∀ x ∈ rest.head?, isNameChar x = false) :
    step c (body ++ rest) = (.token (wordKind (c :: body)), body.length) := by
  have hrun : run isNameChar (body ++ rest) = body.length := run_append hbody hrest
  have hdig := isDigit_of_isAlpha hc
  unfold step
  split <;> first | exact absurd hc (by decide) | simp [hdig, hc, hrun]

end Scan

/-! ## Pieces of text -/

open Scan

/-- `cs`, scanned from byte offset `pos` before any text that `follow` allows, gives the tokens
`ts`, and the scan goes on after them as if the text started there. -/
def Scans (pos : Nat) (cs : List Char) (ts : List Token) (follow : List Char → Prop) : Prop :=
  ∀ rest, follow rest →
    scanFrom pos (cs ++ rest) = ts.map .ok ++ scanFrom (pos + byteLength cs) rest

namespace Scans

variable {follow : List Char → Prop}

theorem nil (pos : Nat) : Scans pos [] [] follow := by
  intro rest _
  simp [byteLength]

theorem mono {pos : Nat} {cs : List Char} {ts : List Token} {follow' : List Char → Prop}
    (h : Scans pos cs ts follow) (hf : ∀ r, follow' r → follow r) : Scans pos cs ts follow' :=
  fun rest hr => h rest (hf rest hr)

theorem append {pos : Nat} {a b : List Char} {ta tb : List Token} {mid : List Char → Prop}
    (ha : Scans pos a ta mid) (hb : Scans (pos + byteLength a) b tb follow)
    (hmid : ∀ r, follow r → mid (b ++ r)) : Scans pos (a ++ b) (ta ++ tb) follow := by
  intro rest hr
  rw [List.append_assoc, ha (b ++ rest) (hmid rest hr), hb rest hr, byteLength_append,
    Nat.add_assoc, List.map_append, List.append_assoc]

theorem token {c : Char} {k : TokenKind} (body : List Char)
    (h : ∀ rest, follow rest → step c (body ++ rest) = (.token k, body.length)) (pos : Nat) :
    Scans pos (c :: body) [⟨k, String.ofList (c :: body), ⟨pos, pos + byteLength (c :: body)⟩⟩]
      follow := by
  intro rest hr
  rw [List.cons_append, scanFrom, h rest hr]
  simp only [List.take_left, List.drop_left, List.map_cons, List.map_nil, List.cons_append,
    List.nil_append]

theorem trivia {c : Char} (body : List Char)
    (h : ∀ rest, follow rest → step c (body ++ rest) = (.trivia, body.length)) (pos : Nat) :
    Scans pos (c :: body) [] follow := by
  intro rest hr
  rw [List.cons_append, scanFrom, h rest hr]
  simp only [List.take_left, List.drop_left, List.map_nil, List.nil_append]

theorem blank (pos : Nat) : Scans pos [' '] [] follow :=
  trivia [] (fun _ _ => rfl) pos

theorem single {c : Char} {k : TokenKind} (h : ∀ rest, step c rest = (.token k, 0)) (pos : Nat) :
    Scans pos [c] [⟨k, String.ofList [c], ⟨pos, pos + byteLength [c]⟩⟩] follow :=
  token [] (fun rest _ => h rest) pos

end Scans

theorem mapM_ok (ts : List Token) :
    (ts.map fun t => (Except.ok t : Except ScanError Token)).mapM id = .ok ts := by
  induction ts with
  | nil => rfl
  | cons t ts ih =>
    rw [List.map_cons, List.mapM_cons, ih]
    rfl

theorem scanAll_eq {src : String} {ts : List Token} (h : Token.scan src = ts.map .ok) :
    Token.scanAll src = .ok ts := by
  rw [Token.scanAll, h, mapM_ok]

theorem Scans.scanAll {src : String} {ts : List Token} {follow : List Char → Prop}
    (h : Scans 0 src.toList ts follow)
    (hend : follow []) : Token.scanAll src = .ok (ts ++ [Token.eof (byteLength src.toList)]) := by
  apply scanAll_eq
  have hs := h [] hend
  rw [List.append_nil, scanFrom_nil, Nat.zero_add] at hs
  rw [Token.scan, hs, List.map_append]
  rfl

theorem length_scanFrom_le : ∀ (cs : List Char) (pos : Nat),
    (scanFrom pos cs).length ≤ cs.length + 1
  | [], pos => by simp [scanFrom_nil]
  | c :: rest, pos => by
    rcases h : step c rest with ⟨piece, n⟩
    have ih := length_scanFrom_le (rest.drop n) (pos + byteLength (c :: rest.take n))
    rw [scanFrom, h]
    cases piece <;> simp only [List.length_cons, List.length_drop] at ih ⊢ <;> omega
termination_by cs => cs.length
decreasing_by simp only [List.length_drop, List.length_cons]; omega

theorem Scans.length_le {pos : Nat} {cs : List Char} {ts : List Token} {follow : List Char → Prop}
    (h : Scans pos cs ts follow)
    (hend : follow []) : ts.length ≤ cs.length := by
  have hs := h [] hend
  rw [List.append_nil] at hs
  have hle := length_scanFrom_le cs pos
  rw [hs, scanFrom_nil] at hle
  simpa using hle

end ScriptFold
