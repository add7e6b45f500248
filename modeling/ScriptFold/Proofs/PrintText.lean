import Mathlib
import ScriptFold.Proofs.ScanPartition
import ScriptFold.Proofs.LiteralText
/-!
# Scanning printed text

The printer copies the lexemes of names and of closing parentheses, and spells operators its
own way. This module says what those pieces scan back to.

Every token the scanner makes is spelled as its kind (`scanFrom_spelled`): a name is a word
that is no keyword or a bracketed name on one line (`Scan.NameText`), and a closing parenthesis
is `)`. Such a name scans back to one identifier token with the same lexeme before any
delimited text (`Scans.name`), and each infix operator's canonical spelling scans to one token
of its own kind before a blank (`BinaryOp.symbol_scans`).
-/
namespace ScriptFold

set_option autoImplicit false

namespace Scan

/-- How a name is spelled: a word that is no keyword, or a bracketed name on one line. -/
def NameText (cs : List Char) : Prop :=
  (∃ c body, cs = c :: body ∧ c.isAlpha = true ∧ (∀ x ∈ body, isNameChar x = true) ∧
      wordKind cs = .identifier) ∨
    ∃ body, cs = '[' :: (body ++ [']']) ∧ ∀ x ∈ body, x ≠ ']' ∧ x ≠ '\n'

/-! ## Names -/

theorem step_bracket (rest : List Char) :
    step '[' rest = delimited ']' .identifier .unterminatedName rest := rfl

theorem delimited_closed {close : Char} {kind : TokenKind} {p : ScanProblem} {body : List Char}
    (hbody : ∀ x ∈ body, x ≠ close ∧ x ≠ '\n') (rest : List Char) :
    delimited close kind p (body ++ close :: rest) = (.token kind, body.length + 1) := by
  have hrun : run (fun c => c != close && c != '\n') (body ++ close :: rest) = body.length :=
    run_append (fun x hx => by simp [(hbody x hx).1, (hbody x hx).2]) (by simp)
  simp [delimited, hrun]

theorem delimited_identifier {rest : List Char} {n : Nat}
    (h : delimited ']' .identifier .unterminatedName rest = (.token .identifier, n)) :
    NameText ('[' :: rest.take n) := by
  obtain ⟨w, r, rfl, hrun, hw, hr⟩ := run_split (fun c => c != ']' && c != '\n') rest
  dsimp only [delimited] at h
  rw [hrun, List.drop_left] at h
  rcases r with _ | ⟨d, r⟩
  · cases h
  · by_cases hd : d = ']'
    · subst hd
      simp at h
      subst h
      refine .inr ⟨w, ?_, fun x hx => by simpa using hw x hx⟩
      rw [List.take_length_add_append]
      simp
    · simp [hd] at h

theorem take_run_all (p : Char → Bool) (cs : List Char) : ∀ x ∈ cs.take (run p cs), p x = true := by
  obtain ⟨w, r, rfl, hrun, hw, -⟩ := run_split p cs
  rw [hrun, List.take_left]
  exact hw

theorem word_identifier {c : Char} {rest : List Char} {n : Nat} (hc : c.isAlpha = true)
    (h : (Piece.token (wordKind (c :: rest.take (run isNameChar rest))), run isNameChar rest) =
      (.token .identifier, n)) : NameText (c :: rest.take n) := by
  simp only [Prod.mk.injEq, Piece.token.injEq] at h
  obtain ⟨hk, rfl⟩ := h
  exact .inl ⟨c, _, rfl, hc, take_run_all _ _, hk⟩

theorem step_identifier {c : Char} {rest : List Char} {n : Nat}
    (h : step c rest = (.token .identifier, n)) : NameText (c :: rest.take n) := by
  unfold step at h
  repeat' split at h
  all_goals first
    | cases h
    | exact absurd h (continuation_ne_token _ _ _)
    | exact absurd (delimited_token h) (by decide)
    | exact delimited_identifier h
    | exact word_identifier ‹_› h

theorem wordKind_ne_rightParen (w : List Char) : wordKind w ≠ .rightParen := by
  unfold wordKind
  split <;> simp

theorem step_rightParen {c : Char} {rest : List Char} {n : Nat}
    (h : step c rest = (.token .rightParen, n)) : c = ')' ∧ n = 0 := by
  unfold step at h
  repeat' split at h
  all_goals first
    | (cases h; exact ⟨rfl, rfl⟩)
    | cases h
    | (simp only [Prod.mk.injEq, Piece.token.injEq] at h
       exact absurd h.1 (wordKind_ne_rightParen _))
    | exact absurd h (continuation_ne_token _ _ _)
    | exact absurd (delimited_token h) (by decide)

end Scan

open Scan

/-! ## Spelled tokens -/

/-- A token's lexeme spells its kind where the printer copies it: a name is a `NameText`, and a
closing parenthesis is `)`. -/
def Token.Spelled (t : Token) : Prop :=
  (t.kind = .identifier → NameText t.lexeme.toList) ∧ (t.kind = .rightParen → t.lexeme = ")")

theorem scanFrom_spelled : ∀ (pos : Nat) (cs : List Char) (t : Token), .ok t ∈ scanFrom pos cs →
    t.Spelled
  | pos, [], t, h => by
    rw [scanFrom_nil, List.mem_singleton] at h
    cases h
    simp [Token.Spelled, Token.eof]
  | pos, c :: rest, t, h => by
    rcases hstep : step c rest with ⟨piece, n⟩
    rw [scanFrom, hstep] at h
    have ih := scanFrom_spelled (pos + byteLength (c :: rest.take n)) (rest.drop n) t
    cases piece with
    | token k =>
      rcases List.mem_cons.mp h with h | h
      · cases h
        refine ⟨fun hk => ?_, fun hk => ?_⟩
        · subst hk
          simpa using step_identifier hstep
        · subst hk
          obtain ⟨rfl, rfl⟩ := step_rightParen hstep
          rfl
      · exact ih h
    | trivia => exact ih h
    | problem p =>
      rcases List.mem_cons.mp h with h | h
      · cases h
      · exact ih h
termination_by _ cs => cs.length
decreasing_by simp only [List.length_drop, List.length_cons]; omega

theorem mem_of_mapM_ok {items : List (Except ScanError Token)} {ts : List Token}
    (h : items.mapM id = .ok ts) : ∀ t ∈ ts, .ok t ∈ items := by
  induction items generalizing ts with
  | nil =>
    cases h
    simp
  | cons it items ih =>
    rw [List.mapM_cons] at h
    cases it with
    | error e => cases h
    | ok t =>
      cases hrest : items.mapM id with
      | error e =>
        rw [hrest] at h
        cases h
      | ok ts' =>
        rw [hrest] at h
        cases h
        intro t' ht'
        rcases List.mem_cons.mp ht' with rfl | ht'
        · exact List.mem_cons_self
        · exact List.mem_cons_of_mem _ (ih hrest t' ht')

theorem scanAll_spelled {src : String} {ts : List Token} (h : Token.scanAll src = .ok ts) :
    ∀ t ∈ ts, t.Spelled :=
  fun t ht => scanFrom_spelled 0 src.toList t (mem_of_mapM_ok h t ht)

/-! ## Printed pieces -/

theorem Scans.name {cs : List Char} (h : NameText cs) (pos : Nat) :
    Scans pos cs [⟨.identifier, String.ofList cs, ⟨pos, pos + byteLength cs⟩⟩] Delimited := by
  rcases h with ⟨c, body, rfl, hc, hbody, hk⟩ | ⟨body, rfl, hbody⟩
  · have h := Scans.word hc hbody pos
    rwa [hk] at h
  · refine Scans.token (body ++ [']']) (fun rest _ => ?_) pos
    rw [List.append_assoc, List.singleton_append, step_bracket, delimited_closed hbody]
    simp

theorem Delimited.of_blank {r : List Char} (h : r.head? = some ' ') : Delimited r := by
  rcases r with _ | ⟨c, r⟩
  · cases h
  · simp only [List.head?_cons, Option.some.injEq] at h
    subst h
    exact Delimited.of_head (.inl rfl) _

theorem Scans.dot (pos : Nat) :
    Scans pos ['.'] [⟨.dot, String.ofList ['.'], ⟨pos, pos + byteLength ['.']⟩⟩]
      fun r => ∀ d ∈ r.head?, d.isDigit = false := by
  refine Scans.token [] (fun rest hr => ?_) pos
  rcases rest with _ | ⟨d, r⟩
  · rfl
  · have hd : d.isDigit = false := hr d rfl
    simp [step, hd]

theorem step_before_blank {c : Char} {k : TokenKind} (h : ∀ r, step c (' ' :: r) = (.token k, 0)) :
    ∀ rest : List Char, rest.head? = some ' ' →
      step c (([] : List Char) ++ rest) = (.token k, ([] : List Char).length) := by
  intro rest hr
  rcases rest with _ | ⟨d, r⟩
  · cases hr
  · simp only [List.head?_cons, Option.some.injEq] at hr
    subst hr
    exact h r

theorem step_ampersand_blank (r : List Char) : step '&' (' ' :: r) = (.token .ampersand, 0) := by
  cases r <;> rfl

theorem BinaryOp.symbol_scans (op : BinaryOp) (pos : Nat) :
    ∃ t : Token, Scans pos op.symbol.toList [t] (fun r => r.head? = some ' ') ∧
      BinaryOp.ofTokenKind? t.kind = some op := by
  cases op
  all_goals first
    | exact ⟨_, Scans.single (fun _ => rfl) pos, rfl⟩
    | exact ⟨_, (Scans.word (by decide) (List.all_eq_true.mp rfl) pos).mono fun _ => Delimited.of_blank, rfl⟩
    | exact ⟨_, Scans.token ['>'] (fun _ _ => rfl) pos, rfl⟩
    | exact ⟨_, Scans.token ['='] (fun _ _ => rfl) pos, rfl⟩
    | exact ⟨_, Scans.token (k := .less) [] (step_before_blank fun _ => rfl) pos, rfl⟩
    | exact ⟨_, Scans.token (k := .greater) [] (step_before_blank fun _ => rfl) pos, rfl⟩
    | exact ⟨_, Scans.token [] (step_before_blank step_ampersand_blank) pos, rfl⟩

end ScriptFold
