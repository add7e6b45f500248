import Mathlib
import ScriptFold.Proofs.ParseSteps
import ScriptFold.Syntax.Stream
/-!
A token stream stays inside its tokens over any run of operations.

The parser never takes an end token: every grammar step leaves a suffix of its input, and what
it took before that suffix holds no end token (`Parse.Leaves`), whether the step succeeds or
fails. A stream therefore keeps its cursor at or before the first end token of its tokens
(`TokenStream.InBounds`), which each operation preserves (`Step.apply_inBounds`) without moving
the cursor back. Main statement: `stream_stays_in_bounds`, for every token list and every run
of operations from the stream over it.
-/
namespace ScriptFold

set_option autoImplicit false

namespace Parse

/-! ## The parser takes no end token -/

/-- `r` is what a step on `ts` left: a suffix of `ts`, and no token before it is an end
token. -/
def Leaves (ts r : List Token) : Prop :=
  ∃ taken, ts = taken ++ r ∧ ∀ t ∈ taken, t.kind ≠ .eof

namespace Leaves

theorem refl (ts : List Token) : Leaves ts ts :=
  ⟨[], rfl, by simp⟩

theorem trans {ts us r : List Token} (h₁ : Leaves ts us) (h₂ : Leaves us r) : Leaves ts r := by
  obtain ⟨a, rfl, ha⟩ := h₁
  obtain ⟨b, rfl, hb⟩ := h₂
  refine ⟨a ++ b, (List.append_assoc a b r).symm, fun t ht => ?_⟩
  rcases List.mem_append.mp ht with h | h
  · exact ha t h
  · exact hb t h

theorem cons {t : Token} {ts r : List Token} (ht : t.kind ≠ .eof) (h : Leaves ts r) :
    Leaves (t :: ts) r :=
  trans ⟨[t], rfl, by simpa using ht⟩ h

theorem andThen {α β : Type} {ts : List Token} {o : Except ParseError α × List Token}
    {k : α → List Token → Except ParseError β × List Token} (ho : Leaves ts o.2)
    (hk : ∀ a r, o = (.ok a, r) → Leaves r (k a r).2) : Leaves ts (Parse.andThen o k).2 := by
  rcases o with ⟨_ | a, r⟩
  · exact ho
  · exact trans ho (hk a r rfl)

theorem length_le {ts r : List Token} (h : Leaves ts r) : r.length ≤ ts.length := by
  obtain ⟨taken, rfl, -⟩ := h
  simp

end Leaves

theorem Level.infixOp?_eof (l : Level) : l.infixOp? .eof = none :=
  Level.infixOp?_eq_none rfl l

theorem Level.prefixOp?_eof (l : Level) : l.prefixOp? .eof = none := by
  cases l <;> rfl

theorem ne_eof_of_infixOp? {l : Level} {k : TokenKind} {op : BinaryOp}
    (h : l.infixOp? k = some op) : k ≠ .eof := by
  rintro rfl
  rw [Level.infixOp?_eof] at h
  cases h

theorem ne_eof_of_pick {pick : TokenKind → Option UnaryOp} (hpick : pick .eof = none)
    {k : TokenKind} {op : UnaryOp} (h : pick k = some op) : k ≠ .eof := by
  rintro rfl
  rw [hpick] at h
  cases h

variable {cfg : Limits}

theorem prefixRun_leaves (d : Nat) {pick : TokenKind → Option UnaryOp}
    (hpick : pick .eof = none) (n : Nat) (ts : List Token) :
    Leaves ts (prefixRun cfg d pick n ts).out.2 := by
  induction ts generalizing n with
  | nil =>
    rw [prefixRun_nil_out]
    exact .refl _
  | cons t rest ih =>
    rw [prefixRun_cons_out]
    split
    · exact .refl _
    · rename_i op hop
      split
      · exact .refl _
      · exact .cons (ne_eof_of_pick hpick hop) (ih (n + 1))

theorem closeGroup_leaves (lp : Token) (inner : Expr) (r : List Token) :
    Leaves r (closeGroup cfg lp inner r).2 := by
  rcases r with _ | ⟨c, r⟩
  · exact .refl _
  · by_cases hc : c.kind = .rightParen
    · have hne : c.kind ≠ .eof := by rw [hc]; decide
      cases inner
      all_goals
        simp only [closeGroup, hc, if_true]
        exact .cons hne (.refl _)
    · simp only [closeGroup, hc, if_false]
      exact .refl _

theorem leaves_steps : Steps (fun d ts => Leaves ts (expression cfg d ts).out.2)
    (fun d l ts => Leaves ts (level cfg d l ts).out.2)
    (fun d l acc ts => Leaves ts (chain cfg d l acc ts).out.2)
    (fun d n e ts => Leaves ts (suffixes cfg d n e ts).out.2)
    (fun d ts => Leaves ts (arguments cfg d ts).out.2)
    (fun d acc ts => Leaves ts (argumentList cfg d acc ts).out.2) := by
  constructor
  case expression =>
    intro d ts himp
    rw [expression_out]
    split
    · exact .refl _
    · exact himp
  case primary_nil =>
    intro d
    rw [level_primary_nil_out]
    exact .refl _
  case primary_cons =>
    intro d t rest hexpr hsuffixes
    rw [level_primary_cons_out]
    split
    · rename_i k hk
      exact .cons (by simp [hk]) (.refl _)
    · rename_i hk
      exact .cons (by simp [hk]) hsuffixes
    · rename_i hk
      refine .cons (by simp [hk]) (.andThen hexpr fun inner r _ => ?_)
      exact closeGroup_leaves t inner r
    · exact .refl _
  case exponent =>
    intro d ts hbase hpower
    rw [level_exponent_out]
    refine .andThen hbase fun base r hout => ?_
    cases r with
    | nil => exact .refl _
    | cons t rest =>
      simp only
      split
      · rename_i hc
        have hne : t.kind ≠ .eof := by rw [hc]; decide
        split
        · exact .cons hne (.refl _)
        · refine .cons hne (.andThen (hpower rest (Parsed.tail_lt_of_out hout)) fun _ _ _ => .refl _)
      · exact .refl _
  case prefix_level =>
    intro d l ts hl hoperand
    rw [level_prefix_out cfg d l hl]
    refine .andThen (prefixRun_leaves d (Level.prefixOp?_eof l) 0 ts) fun ops r hout => ?_
    exact .andThen (hoperand r (Parsed.rest_le_of_out hout)) fun _ _ _ => .refl _
  case infix_level =>
    intro d l ts hl hfirst hchain
    rw [level_infix_out cfg d l hl]
    refine .andThen hfirst fun first r hout => ?_
    exact hchain first r (Parsed.rest_le_of_out hout)
  case chain_nil =>
    intro d l acc
    rw [chain_nil_out]
    exact .refl _
  case chain_cons =>
    intro d l acc t rest hright hchain
    rw [chain_cons_out]
    split
    · exact .refl _
    · rename_i op hop
      refine .cons (ne_eof_of_infixOp? hop) (.andThen hright ?_)
      intro right r hout
      refine .andThen (.refl _) fun e r' hout' => ?_
      cases congrArg Prod.snd hout'
      exact hchain e r (Parsed.rest_le_of_out hout)
  case suffixes_nil =>
    intro d n e
    rw [suffixes_nil_out]
    exact .refl _
  case suffixes_cons =>
    intro d n e t rest hargs hsuffixes
    rw [suffixes_cons_out]
    split
    · rename_i ht
      have hne : t.kind ≠ .eof := by rcases ht with h | h <;> rw [h] <;> decide
      split
      · exact .refl _
      · split
        · refine .cons hne (.andThen hargs fun call r hout => ?_)
          exact hsuffixes (n + 1) _ r (Parsed.rest_le_of_out hout)
        · cases rest with
          | cons m rest' =>
            simp only
            split
            · rename_i hm
              refine .cons hne (.cons (by rw [hm]; decide) (hsuffixes (n + 1) _ rest' ?_))
              simp
            · exact .cons hne (.refl _)
          | nil => exact .cons hne (.refl _)
    · exact .refl _
  case arguments =>
    intro d ts hlist
    rw [arguments_out]
    cases ts with
    | cons c rest =>
      simp only
      split
      · rename_i hc
        exact .cons (by rw [hc]; decide) (.refl _)
      · exact hlist
    | nil => exact hlist
  case argument_list =>
    intro d acc ts harg hmore
    rw [argumentList_out]
    refine .andThen harg fun arg r hout => ?_
    cases r with
    | cons c rest =>
      simp only
      split
      · rename_i hc
        refine .cons (by rw [hc]; decide) (hmore (arg :: acc) rest (Parsed.tail_lt_of_out hout))
      · split
        · rename_i hc
          exact .cons (by rw [hc]; decide) (.refl _)
        · exact .refl _
    | nil => exact .refl _

theorem expression_leaves (d : Nat) (ts : List Token) : Leaves ts (expression cfg d ts).out.2 :=
  leaves_steps.expression_holds d ts

theorem level_leaves (d : Nat) (l : Level) (ts : List Token) :
    Leaves ts (level cfg d l ts).out.2 :=
  leaves_steps.level_holds d l ts

theorem arguments_leaves (d : Nat) (ts : List Token) : Leaves ts (arguments cfg d ts).out.2 :=
  leaves_steps.arguments_holds d ts

end Parse

/-! ## The cursor -/

namespace TokenStream

open Parse

/-- The index of the first end token of the stream's tokens. -/
def endIndex (s : TokenStream) : Nat :=
  s.tokens.findIdx (·.kind == .eof)

/-- The cursor stands at or before the first end token, and there is one. -/
def InBounds (s : TokenStream) : Prop :=
  s.position ≤ s.endIndex ∧ s.endIndex < s.tokens.length

variable {s : TokenStream}

theorem endIndex_lt_of_mem {t : Token} (ht : t ∈ s.tokens) (hk : t.kind = .eof) :
    s.endIndex < s.tokens.length :=
  List.findIdx_lt_length_of_exists ⟨t, ht, by simp [hk]⟩

theorem kind_endIndex (h : s.endIndex < s.tokens.length) : s.tokens[s.endIndex].kind = .eof :=
  beq_iff_eq.mp (@List.findIdx_getElem _ _ _ h)

namespace InBounds

theorem position_lt (h : s.InBounds) : s.position < s.tokens.length :=
  Nat.lt_of_le_of_lt h.1 h.2

theorem remaining_eq (h : s.InBounds) : s.remaining = s.peek :: s.tokens.drop (s.position + 1) := by
  have hlt := h.position_lt
  rw [peek, remaining, List.drop_eq_getElem_cons hlt]
  rfl

theorem getElem?_position (h : s.InBounds) : s.tokens[s.position]? = some s.peek := by
  have hlt := h.position_lt
  have hr := h.remaining_eq
  rw [remaining, List.drop_eq_getElem_cons hlt, List.cons.injEq] at hr
  rw [List.getElem?_eq_getElem hlt, hr.1]

theorem peek_kind_of_end (h : s.InBounds) (he : s.position = s.endIndex) : s.peek.kind = .eof := by
  have h2 := h.2
  have hget := h.getElem?_position
  rw [he, List.getElem?_eq_getElem h2, Option.some.injEq] at hget
  rw [← hget]
  exact kind_endIndex h2

theorem lt_endIndex (h : s.InBounds) (hk : s.peek.kind ≠ .eof) : s.position < s.endIndex :=
  Nat.lt_of_le_of_ne h.1 fun he => hk (h.peek_kind_of_end he)

theorem add_le_endIndex (h : s.InBounds) {taken r : List Token} (hs : s.remaining = taken ++ r)
    (htaken : ∀ t ∈ taken, t.kind ≠ .eof) : s.position + taken.length ≤ s.endIndex := by
  refine Nat.le_of_not_lt fun hlt => ?_
  have h1 := h.1
  have h2 := h.2
  have hi : s.endIndex - s.position < taken.length := by omega
  have hget : taken[s.endIndex - s.position]? = s.tokens[s.endIndex]? := by
    rw [← List.getElem?_append_left hi, ← hs, remaining, List.getElem?_drop]
    congr 1
    omega
  rw [List.getElem?_eq_getElem hi, List.getElem?_eq_getElem h2, Option.some.injEq] at hget
  exact htaken _ (List.getElem_mem hi) (hget ▸ kind_endIndex h2)

end InBounds

theorem advance_at_end (h : s.InBounds) (he : s.position = s.endIndex) :
    s.advance = (s.peek, s) ∧ s.peek.kind = .eof := by
  have hk := h.peek_kind_of_end he
  exact ⟨by simp [advance, hk], hk⟩

theorem ofTokens_inBounds (v : List Token) : (ofTokens v).InBounds ∧ (ofTokens v).position = 0 := by
  unfold ofTokens
  split
  · rename_i t ht
    refine ⟨⟨Nat.zero_le _, ?_⟩, rfl⟩
    split
    · rename_i hk
      exact endIndex_lt_of_mem (List.mem_of_getLast? ht) hk
    · exact endIndex_lt_of_mem (t := Token.eof t.span.stop) (by simp) rfl
  · exact ⟨⟨Nat.zero_le _, endIndex_lt_of_mem (t := Token.eof 0) (by simp) rfl⟩, rfl⟩

theorem advance_inBounds (h : s.InBounds) :
    s.advance.2.tokens = s.tokens ∧ s.position ≤ s.advance.2.position ∧ s.advance.2.InBounds := by
  by_cases hk : s.peek.kind = .eof
  · have e : s.advance = (s.peek, s) := by simp [advance, hk]
    rw [e]
    exact ⟨rfl, Nat.le_refl _, h⟩
  · have e : s.advance = (s.peek, { s with position := s.position + 1 }) := by
      simp [advance, hk]
    rw [e]
    exact ⟨rfl, Nat.le_succ _, h.lt_endIndex hk, h.2⟩

theorem parseExpr_inBounds (h : s.InBounds) :
    s.parseExpr.2.tokens = s.tokens ∧ s.position ≤ s.parseExpr.2.position ∧
      s.parseExpr.2.InBounds := by
  obtain ⟨taken, hs, htaken⟩ := @expression_leaves {} 0 s.remaining
  have hle := h.add_le_endIndex hs htaken
  have hlen : s.remaining.length = s.tokens.length - s.position := List.length_drop ..
  have hpos : s.tokens.length - (Expr.parseTokens {} s.remaining).rest.length =
      s.position + taken.length := by
    have := congrArg List.length hs
    simp only [List.length_append] at this
    have := h.position_lt
    change s.tokens.length - (expression {} 0 s.remaining).out.2.length = _
    omega
  have e : s.parseExpr.2 = { s with position := s.position + taken.length } := by
    simp only [parseExpr, hpos]
  rw [e]
  exact ⟨rfl, Nat.le_add_right _ _, hle, h.2⟩

end TokenStream

namespace TokenStream.Step

variable {s : TokenStream}

theorem apply_inBounds (st : Step) (h : s.InBounds) :
    (st.apply s).2.tokens = s.tokens ∧ s.position ≤ (st.apply s).2.position ∧
      (st.apply s).2.InBounds := by
  cases st with
  | advance => exact advance_inBounds h
  | consumeIf k =>
    by_cases hc : s.check k
    · have e : (Step.consumeIf k).apply s = (.token? (some s.advance.1), s.advance.2) := by
        simp [apply, TokenStream.consumeIf, hc]
      rw [e]
      exact advance_inBounds h
    · have e : (Step.consumeIf k).apply s = (.token? none, s) := by
        simp [apply, TokenStream.consumeIf, hc]
      rw [e]
      exact ⟨rfl, Nat.le_refl _, h⟩
  | parseExpr => exact parseExpr_inBounds h
  | _ => exact ⟨rfl, Nat.le_refl _, h⟩

end TokenStream.Step

namespace TokenStream

theorem trace_inBounds (steps : List Step) {s : TokenStream} (h : s.InBounds) :
    ∀ s' ∈ s.trace steps, s'.tokens = s.tokens ∧ s.position ≤ s'.position ∧ s'.InBounds := by
  induction steps generalizing s with
  | nil =>
    intro s' hs'
    rw [trace, List.mem_singleton] at hs'
    subst hs'
    exact ⟨rfl, Nat.le_refl _, h⟩
  | cons st sts ih =>
    obtain ⟨htok, hpos, h1⟩ := st.apply_inBounds h
    intro s' hs'
    rcases List.mem_cons.mp hs' with rfl | hs'
    · exact ⟨rfl, Nat.le_refl _, h⟩
    · obtain ⟨htok', hpos', h'⟩ := ih h1 s' hs'
      exact ⟨htok'.trans htok, Nat.le_trans hpos hpos', h'⟩

theorem trace_position_pairwise (steps : List Step) {s : TokenStream} (h : s.InBounds) :
    (s.trace steps).Pairwise fun a b => a.position ≤ b.position := by
  induction steps generalizing s with
  | nil => simp [trace]
  | cons st sts ih =>
    obtain ⟨-, hpos, h1⟩ := st.apply_inBounds h
    rw [trace, List.pairwise_cons]
    refine ⟨fun b hb => ?_, ih h1⟩
    exact Nat.le_trans hpos (trace_inBounds sts h1 b hb).2.1

end TokenStream

/-- A stream over any tokens, driven by any operations, parsing included: the tokens never
change, the cursor indexes a token at or before the first end token, so that every read is of
a token of the list and the remaining tokens are the non-empty suffix from the cursor, the
cursor never moves back, and advancing at the first end token returns it and stays. -/
theorem stream_stays_in_bounds (v : List Token) (steps : List TokenStream.Step) :
    (∀ s ∈ (TokenStream.ofTokens v).trace steps,
      s.tokens = (TokenStream.ofTokens v).tokens ∧
      s.position ≤ s.endIndex ∧ s.endIndex < s.tokens.length ∧
      s.tokens[s.position]? = some s.peek ∧
      s.remaining = s.peek :: s.tokens.drop (s.position + 1) ∧
      (s.position = s.endIndex → s.advance = (s.peek, s) ∧ s.peek.kind = .eof)) ∧
    ((TokenStream.ofTokens v).trace steps).Pairwise fun a b => a.position ≤ b.position := by
  obtain ⟨h₀, -⟩ := TokenStream.ofTokens_inBounds v
  refine ⟨fun s hs => ?_, TokenStream.trace_position_pairwise steps h₀⟩
  obtain ⟨htok, -, h⟩ := TokenStream.trace_inBounds steps h₀ s hs
  exact ⟨htok, h.1, h.2, h.getElem?_position, h.remaining_eq, TokenStream.advance_at_end h⟩

/-- Two advances over a name reach the end token, where advancing returns it and stays. -/
theorem stream_stays_at_end_after_name :
    let s : TokenStream := ⟨[⟨.identifier, "a", ⟨0, 1⟩⟩, Token.eof 1], 1⟩
    s ∈ (TokenStream.ofTokens [⟨.identifier, "a", ⟨0, 1⟩⟩]).trace [.advance, .advance] ∧
      s.position = s.endIndex ∧ s.advance = (s.peek, s) ∧ s.peek.kind = .eof := by
  intro s
  have hmem : s ∈ (TokenStream.ofTokens [⟨.identifier, "a", ⟨0, 1⟩⟩]).trace
      [.advance, .advance] := by
    simp [s, TokenStream.trace, TokenStream.Step.apply, TokenStream.advance,
      TokenStream.ofTokens, TokenStream.peek, TokenStream.remaining, Token.current, Token.eof]
  have hend : s.position = s.endIndex := by decide
  obtain ⟨-, -, -, -, -, hstay⟩ :=
    (stream_stays_in_bounds [⟨.identifier, "a", ⟨0, 1⟩⟩] [.advance, .advance]).1 s hmem
  exact ⟨hmem, hend, hstay hend⟩

end ScriptFold
