import Mathlib
import ScriptFold.Proofs.StreamBounds
import ScriptFold.Proofs.ParseSound
/-!
The parser reads nothing past the first end token.

Every grammar step consumes only tokens before the first end token (`Parse.Leaves`), and a step
that succeeds consumes at least one. What lies after an end token is never looked at: appending
tokens to an input that holds one changes the outcome of every step only by appending them to
what it left (`Parse.expression_appends`). The proof is one instance of `Parse.Steps`: each
branch either stops on the token it looked at or hands a shorter input that still holds the end
token to the next step.

Main statement: `parse_reads_before_first_end`.
-/
namespace ScriptFold

set_option autoImplicit false

namespace Parse

/-! ## Inputs that hold an end token -/

/-- `ts` holds an end token. -/
def HasEnd (ts : List Token) : Prop :=
  ∃ t ∈ ts, t.kind = .eof

theorem not_hasEnd_nil : ¬HasEnd [] := by
  simp [HasEnd]

theorem HasEnd.ne_nil {ts : List Token} (h : HasEnd ts) : ts ≠ [] := by
  rintro rfl
  exact not_hasEnd_nil h

theorem HasEnd.tail {t : Token} {ts : List Token} (h : HasEnd (t :: ts)) (ht : t.kind ≠ .eof) :
    HasEnd ts := by
  obtain ⟨u, hu, hk⟩ := h
  rcases List.mem_cons.mp hu with rfl | hu
  · exact absurd hk ht
  · exact ⟨u, hu, hk⟩

theorem Leaves.hasEnd {ts r : List Token} (h : Leaves ts r) (hts : HasEnd ts) : HasEnd r := by
  obtain ⟨taken, rfl, htaken⟩ := h
  obtain ⟨t, ht, hk⟩ := hts
  rcases List.mem_append.mp ht with ht | ht
  · exact absurd hk (htaken t ht)
  · exact ⟨t, ht, hk⟩

theorem Leaves.of_out {α : Type} {ts : List Token} {o : Except ParseError α × List Token}
    (h : Leaves ts o.2) {a : α} {r : List Token} (hout : o = (.ok a, r)) : Leaves ts r := by
  rw [hout] at h
  exact h

theorem current_append {ts : List Token} (h : ts ≠ []) (post : List Token) :
    Token.current (ts ++ post) = Token.current ts := by
  obtain ⟨t, ts, rfl⟩ := List.exists_cons_of_ne_nil h
  rfl

variable {cfg : Limits}

theorem checkHeight_append {ts : List Token} (h : ts ≠ []) (x : Expr) (post : List Token) :
    checkHeight cfg x (ts ++ post) = checkHeight cfg x ts := by
  unfold checkHeight
  rw [current_append h]

theorem checkHeight_cons (x : Expr) (t : Token) (r r' : List Token) :
    checkHeight cfg x (t :: r) = checkHeight cfg x (t :: r') :=
  rfl

/-! ## Appending after the end token -/

/-- The outcome `o` with `post` appended to what it left. -/
def extendRest {α : Type} (post : List Token) (o : Except ParseError α × List Token) :
    Except ParseError α × List Token :=
  (o.1, o.2 ++ post)

theorem andThen_extendRest {α β : Type} {post : List Token} (o : Except ParseError α × List Token)
    {k : α → List Token → Except ParseError β × List Token}
    (hk : ∀ a r, o = (.ok a, r) → k a (r ++ post) = extendRest post (k a r)) :
    andThen (extendRest post o) k = extendRest post (andThen o k) := by
  obtain ⟨_ | a, r⟩ := o
  · rfl
  · exact hk a r rfl

theorem prefixRun_appends (d : Nat) {pick : TokenKind → Option UnaryOp}
    (hpick : pick .eof = none) (post : List Token) :
    ∀ (n : Nat) (ts : List Token), HasEnd ts →
      (prefixRun cfg d pick n (ts ++ post)).out = extendRest post (prefixRun cfg d pick n ts).out
  | _, [], hts => absurd hts not_hasEnd_nil
  | n, t :: rest, hts => by
    rw [List.cons_append, prefixRun_cons_out, prefixRun_cons_out]
    rcases hp : pick t.kind with _ | op
    · rfl
    · simp only
      split
      · rfl
      · have hrest := hts.tail (ne_eof_of_pick hpick hp)
        rw [prefixRun_appends d hpick post (n + 1) rest hrest]
        rfl

theorem closeGroup_appends (lp : Token) (inner : Expr) {r : List Token} (hr : HasEnd r)
    (post : List Token) :
    closeGroup cfg lp inner (r ++ post) = extendRest post (closeGroup cfg lp inner r) := by
  rcases r with _ | ⟨c, r⟩
  · exact absurd hr not_hasEnd_nil
  · rw [List.cons_append]
    by_cases hc : c.kind = .rightParen
    · have hr' := hr.tail (by rw [hc]; decide)
      cases inner
      case const v s =>
        simp only [closeGroup, if_pos hc]
        rfl
      all_goals
        simp only [closeGroup, if_pos hc, checkHeight_append hr'.ne_nil]
        rfl
    · simp only [closeGroup, if_neg hc]
      rfl

/-! ## Every step of the parser -/

theorem appends_steps : Steps
    (fun d ts => HasEnd ts → ∀ post,
      (expression cfg d (ts ++ post)).out = extendRest post (expression cfg d ts).out)
    (fun d l ts => HasEnd ts → ∀ post,
      (level cfg d l (ts ++ post)).out = extendRest post (level cfg d l ts).out)
    (fun d l acc ts => HasEnd ts → ∀ post,
      (chain cfg d l acc (ts ++ post)).out = extendRest post (chain cfg d l acc ts).out)
    (fun d n e ts => HasEnd ts → ∀ post,
      (suffixes cfg d n e (ts ++ post)).out = extendRest post (suffixes cfg d n e ts).out)
    (fun d ts => HasEnd ts → ∀ post,
      (arguments cfg d (ts ++ post)).out = extendRest post (arguments cfg d ts).out)
    (fun d acc ts => HasEnd ts → ∀ post,
      (argumentList cfg d acc (ts ++ post)).out =
        extendRest post (argumentList cfg d acc ts).out) := by
  constructor
  case expression =>
    intro d ts himp hts post
    rw [expression_out, expression_out]
    by_cases hd : cfg.maxDepth ≤ d
    · simp only [if_pos hd, current_append hts.ne_nil]
      rfl
    · simp only [if_neg hd]
      exact himp hts post
  case primary_nil =>
    intro d hts
    exact absurd hts not_hasEnd_nil
  case primary_cons =>
    intro d t rest hexpr hsuffixes hts post
    rw [List.cons_append, level_primary_cons_out, level_primary_cons_out]
    split
    · rfl
    · rename_i hk
      exact hsuffixes (hts.tail (by rw [hk]; decide)) post
    · rename_i hk
      have hrest := hts.tail (by rw [hk]; decide)
      rw [hexpr hrest post]
      refine andThen_extendRest _ fun inner r hout => ?_
      exact closeGroup_appends t inner ((expression_leaves d rest).of_out hout |>.hasEnd hrest) post
    · rfl
  case exponent =>
    intro d ts hbase hpower hts post
    rw [level_exponent_out, level_exponent_out, hbase hts post]
    refine andThen_extendRest _ fun base r hout => ?_
    have hr := (level_leaves d .primary ts).of_out hout |>.hasEnd hts
    cases r with
    | nil => exact absurd hr not_hasEnd_nil
    | cons t rest =>
      simp only [List.cons_append]
      by_cases hc : t.kind = .caret
      · have hrest := hr.tail (by rw [hc]; decide)
        simp only [if_pos hc]
        by_cases hd : cfg.maxDepth ≤ d
        · simp only [if_pos hd, current_append hrest.ne_nil]
          rfl
        · simp only [if_neg hd]
          rw [hpower rest (Parsed.tail_lt_of_out hout) hrest post]
          refine andThen_extendRest _ fun power r2 hout2 => ?_
          have hr2 := (level_leaves (d + 1) .sign rest).of_out hout2 |>.hasEnd hrest
          simp only [checkHeight_append hr2.ne_nil]
          rfl
      · simp only [if_neg hc]
        rfl
  case prefix_level =>
    intro d l ts hl hoperand hts post
    rw [level_prefix_out cfg d l hl, level_prefix_out cfg d l hl,
      prefixRun_appends d (Level.prefixOp?_eof l) post 0 ts hts]
    refine andThen_extendRest _ fun ops r hout => ?_
    have hr := (prefixRun_leaves d (Level.prefixOp?_eof l) 0 ts).of_out hout |>.hasEnd hts
    rw [hoperand r (Parsed.rest_le_of_out hout) hr post]
    refine andThen_extendRest _ fun x r2 hout2 => ?_
    have hr2 := (level_leaves d l.next r).of_out hout2 |>.hasEnd hr
    simp only [checkHeight_append hr2.ne_nil]
    rfl
  case infix_level =>
    intro d l ts hl hfirst hchain hts post
    rw [level_infix_out cfg d l hl, level_infix_out cfg d l hl, hfirst hts post]
    refine andThen_extendRest _ fun first r hout => ?_
    exact hchain first r (Parsed.rest_le_of_out hout)
      ((level_leaves d l.next ts).of_out hout |>.hasEnd hts) post
  case chain_nil =>
    intro d l acc hts
    exact absurd hts not_hasEnd_nil
  case chain_cons =>
    intro d l acc t rest hright hchain hts post
    rw [List.cons_append, chain_cons_out, chain_cons_out]
    split
    · rfl
    · rename_i op hop
      have hrest := hts.tail (ne_eof_of_infixOp? hop)
      rw [hright hrest post]
      refine andThen_extendRest _ fun right r hout => ?_
      have hr := (level_leaves d l.next rest).of_out hout |>.hasEnd hrest
      simp only [checkHeight_append hr.ne_nil]
      refine andThen_extendRest (_, r) fun e r' hout' => ?_
      obtain ⟨-, rfl⟩ := Prod.mk.inj hout'
      exact hchain e r (Parsed.rest_le_of_out hout) hr post
  case suffixes_nil =>
    intro d n e hts
    exact absurd hts not_hasEnd_nil
  case suffixes_cons =>
    intro d n e t rest hargs hsuffixes hts post
    rw [List.cons_append, suffixes_cons_out, suffixes_cons_out]
    by_cases hsuf : t.kind = .leftParen ∨ t.kind = .dot
    · have hrest := hts.tail (by rcases hsuf with h | h <;> rw [h] <;> decide)
      simp only [if_pos hsuf]
      by_cases hd : cfg.maxDepth ≤ d + n
      · simp only [if_pos hd]
        rfl
      · simp only [if_neg hd]
        by_cases hlp : t.kind = .leftParen
        · simp only [if_pos hlp]
          rw [hargs hrest post]
          refine andThen_extendRest _ fun call r hout => ?_
          exact hsuffixes (n + 1) _ r (Parsed.rest_le_of_out hout)
            ((arguments_leaves d rest).of_out hout |>.hasEnd hrest) post
        · simp only [if_neg hlp]
          cases rest with
          | cons m rest' =>
            simp only [List.cons_append]
            split
            · rename_i hm
              exact hsuffixes (n + 1) (.member e m) rest' (by simp)
                (hrest.tail (by rw [hm]; decide)) post
            · rfl
          | nil => exact absurd hrest not_hasEnd_nil
    · simp only [if_neg hsuf]
      rw [checkHeight_cons e t (rest ++ post) rest]
      rfl
  case arguments =>
    intro d ts hlist hts post
    rw [arguments_out, arguments_out]
    cases ts with
    | cons c rest =>
      simp only [List.cons_append]
      split
      · rfl
      · rw [← List.cons_append]
        exact hlist hts post
    | nil => exact absurd hts not_hasEnd_nil
  case argument_list =>
    intro d acc ts harg hmore hts post
    rw [argumentList_out, argumentList_out, harg hts post]
    refine andThen_extendRest _ fun arg r hout => ?_
    have hr := (expression_leaves d ts).of_out hout |>.hasEnd hts
    cases r with
    | cons c rest =>
      simp only [List.cons_append]
      split
      · rename_i hc
        exact hmore (arg :: acc) rest (Parsed.tail_lt_of_out hout)
          (hr.tail (by rw [hc]; decide)) post
      · split <;> rfl
    | nil => exact absurd hr not_hasEnd_nil

theorem expression_appends (d : Nat) (ts : List Token) (hts : HasEnd ts) (post : List Token) :
    (expression cfg d (ts ++ post)).out = extendRest post (expression cfg d ts).out :=
  appends_steps.expression_holds d ts hts post

theorem expression_consumes (d : Nat) (ts : List Token) {e : Expr} {r : List Token}
    (h : (expression cfg d ts).out = (.ok e, r)) : r.length < ts.length := by
  obtain ⟨s, -, hts, -, -⟩ := expression_sound d ts e r h
  have hs := s.suffixCount_lt_length
  rw [hts, List.length_append]
  omega

end Parse

/-- The parser reads nothing past the first end token, at every depth and under every limit:
what a parse consumes holds no end token, a parse that succeeds consumes at least one token, and
tokens appended after an end token are never read, so the outcome only gains them in what it
left. -/
theorem parse_reads_before_first_end (cfg : Limits) (d : Nat) (ts : List Token) :
    (∃ taken, ts = taken ++ (Parse.expression cfg d ts).out.2 ∧ ∀ t ∈ taken, t.kind ≠ .eof) ∧
    (∀ e r, (Parse.expression cfg d ts).out = (.ok e, r) → r.length < ts.length) ∧
    ((∃ t ∈ ts, t.kind = .eof) → ∀ post, (Parse.expression cfg d (ts ++ post)).out =
      ((Parse.expression cfg d ts).out.1, (Parse.expression cfg d ts).out.2 ++ post)) :=
  ⟨Parse.expression_leaves d ts, fun _ _ h => Parse.expression_consumes d ts h,
    fun hts post => Parse.expression_appends d ts hts post⟩

/-- A group left open before the end token fails there, and the `)` after the end token is never
read. -/
theorem group_left_open_at_end :
    (Parse.expression {} 0 ([⟨.leftParen, "(", ⟨0, 1⟩⟩, ⟨.literal .integer, "1", ⟨1, 2⟩⟩,
      Token.eof 2] ++ [⟨.rightParen, ")", ⟨3, 4⟩⟩])).out =
      (.error (.unexpected "end of input" .closeAfterExpression ⟨2, 2⟩),
        [Token.eof 2, ⟨.rightParen, ")", ⟨3, 4⟩⟩]) := by
  have hend : ∃ t ∈ [⟨.leftParen, "(", ⟨0, 1⟩⟩, ⟨.literal .integer, "1", ⟨1, 2⟩⟩, Token.eof 2],
      t.kind = .eof :=
    ⟨Token.eof 2, List.mem_cons_of_mem _ (List.mem_cons_of_mem _ List.mem_cons_self), rfl⟩
  rw [(parse_reads_before_first_end {} 0 _).2.2 hend]
  cbv

end ScriptFold
