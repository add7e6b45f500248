import Mathlib
import ScriptFold.Syntax.Parse
/-!
The parser one step at a time. A grammar step returns a `Parsed`, which carries the proof that
the tokens it leaves are a suffix of its input; here a step is read through `Parsed.out`, the
pair of what it yields and what it leaves, and every grammar function gets one equation that
says what a single step does in terms of the steps it calls. Later proofs rewrite with these
equations and never unfold the parser.

`Parse.andThen` is the sequencing the parser uses everywhere: a failure is passed on with the
tokens it left, a success continues. `Parse.Yields P o` says that whatever `o` yields satisfies
`P`; `Yields.andThen` carries such a postcondition through a sequence. Likewise
`foldBinary_eq_ok_iff` and `foldUnary_eq_ok_iff` say all that folding an operator can give, a
constant or the deferred node, so that later proofs need not unfold the folding either, and
`Expr.parse_eq_ok_iff` and `Expr.parse_eq_error_iff` do the same for parsing source text.

`Parse.Steps` is the induction along the parser's calls. A property of all six grammar functions
is proved by giving one field per branch of the grammar, each from the property of the calls that
branch makes; the parser's measure is taken care of once, in `Steps.expression_holds` and its
siblings.
-/
namespace ScriptFold

set_option autoImplicit false

namespace Parsed

/-- What a step yields and the tokens it leaves. -/
def out {ts : List Token} {α : Type} (p : Parsed ts α) : Except ParseError α × List Token :=
  (p.result, p.rest)

variable {ts : List Token} {α : Type}

@[simp] theorem out_widen {us : List Token} (p : Parsed us α) (h : us.length ≤ ts.length) :
    (p.widen h).out = p.out := rfl

@[simp] theorem out_here (r : Except ParseError α) : (Parsed.here r : Parsed ts α).out = (r, ts) :=
  rfl

@[simp] theorem out_mk (r : Except ParseError α) (rest : List Token) (h : rest.length ≤ ts.length) :
    (Parsed.mk r rest h).out = (r, rest) := rfl

theorem rest_le_of_out {p : Parsed ts α} {x : Except ParseError α} {r : List Token}
    (h : p.out = (x, r)) : r.length ≤ ts.length := by
  have e : p.rest = r := congrArg Prod.snd h
  exact e ▸ p.rest_le

theorem tail_lt_of_out {p : Parsed ts α} {x : Except ParseError α} {t : Token} {r : List Token}
    (h : p.out = (x, t :: r)) : r.length < ts.length := by
  have hle := rest_le_of_out h
  rw [List.length_cons] at hle
  omega

end Parsed

/-- The levels that are a left-associative chain of infix operators. -/
def Level.isInfix : Level → Bool
  | .not | .sign | .exponent | .primary => false
  | _ => true

namespace Parse

/-- Continue with `k` after a step that succeeded; a failure is passed on with the tokens it
left. -/
def andThen {α β : Type} (o : Except ParseError α × List Token)
    (k : α → List Token → Except ParseError β × List Token) : Except ParseError β × List Token :=
  match o with
  | (.ok a, r) => k a r
  | (.error e, r) => (.error e, r)

section AndThen

variable {α β : Type} (k : α → List Token → Except ParseError β × List Token)

@[simp] theorem andThen_ok (a : α) (r : List Token) : andThen (.ok a, r) k = k a r := rfl

@[simp] theorem andThen_error (e : ParseError) (r : List Token) :
    andThen (.error e, r) k = (.error e, r) := rfl

end AndThen

/-- After `(` and the expression `inner`: the closing parenthesis, then the constant with the
span of its parentheses, or the group. -/
def closeGroup (cfg : Limits) (lp : Token) (inner : Expr) :
    List Token → Except ParseError Expr × List Token
  | c :: r =>
    if c.kind = .rightParen then
      match inner with
      | .const v _ => (.ok (.const v (lp.span.cover c.span)), r)
      | deferred => (checkHeight cfg (.group deferred (lp.span.cover c.span)) r, r)
    else (.error (.unexpected c.found .closeAfterExpression c.span), c :: r)
  | [] => (.error (.unexpected (Token.current []).found .closeAfterExpression
      (Token.current []).span), [])

/-! ## One equation per grammar function -/

section Equations

variable (cfg : Limits) (d : Nat)

theorem expression_out (ts : List Token) :
    (expression cfg d ts).out =
      if cfg.maxDepth ≤ d then (.error (.recursionLimit cfg.maxDepth (Token.current ts).span), ts)
      else (level cfg (d + 1) .imp ts).out := by
  rw [expression]
  split <;> rfl

theorem level_primary_nil_out :
    (level cfg d .primary []).out =
      (.error (.unexpected (Token.current []).found .expression (Token.current []).span), []) := by
  rw [level]
  rfl

theorem level_primary_cons_out (t : Token) (rest : List Token) :
    (level cfg d .primary (t :: rest)).out =
      match t.kind with
      | .literal _ => (t.literalValue.map (.const · t.span), rest)
      | .identifier => (suffixes cfg d 0 (.name t) rest).out
      | .leftParen => andThen (expression cfg d rest).out (closeGroup cfg t)
      | _ => (.error (.unexpected t.found .expression t.span), t :: rest) := by
  rw [level]
  cases t.kind
  case leftParen =>
    rcases expression cfg d rest with ⟨_ | inner, r, h⟩
    · rfl
    · rcases r with _ | ⟨c, r⟩
      · rfl
      · simp only [Parsed.out, andThen, closeGroup]
        split
        · cases inner <;> rfl
        · rfl
  all_goals rfl

theorem level_exponent_out (ts : List Token) :
    (level cfg d .exponent ts).out =
      andThen (level cfg d .primary ts).out fun base r =>
        match r with
        | t :: rest =>
          if t.kind = .caret then
            if cfg.maxDepth ≤ d then
              (.error (.recursionLimit cfg.maxDepth (Token.current rest).span), rest)
            else
              andThen (level cfg (d + 1) .sign rest).out fun power r2 =>
                ((foldBinary .power t base power).bind (checkHeight cfg · r2), r2)
          else (.ok base, t :: rest)
        | [] => (.ok base, []) := by
  rw [level]
  rcases level cfg d .primary ts with ⟨_ | base, r, h⟩
  · rfl
  · rcases r with _ | ⟨t, rest⟩
    · rfl
    · simp only [Parsed.out, andThen]
      split
      · split
        · rfl
        · rcases level cfg (d + 1) .sign rest with ⟨_ | power, r2, h2⟩ <;> rfl
      · rfl

theorem level_prefix_out (l : Level) (hl : l = .not ∨ l = .sign) (ts : List Token) :
    (level cfg d l ts).out =
      andThen (prefixRun cfg d l.prefixOp? 0 ts).out fun ops r =>
        andThen (level cfg d l.next r).out fun operand r2 =>
          ((applyPrefixOps ops operand).bind (checkHeight cfg · r2), r2) := by
  rcases hl with rfl | rfl <;>
  · rw [level]
    rcases prefixRun cfg d _ 0 ts with ⟨_ | ops, r, h⟩
    · rfl
    · simp only [Parsed.out, andThen]
      rcases level cfg d _ r with ⟨_ | operand, r2, h2⟩ <;> rfl

theorem level_infix_out (l : Level) (hl : l.isInfix) (ts : List Token) :
    (level cfg d l ts).out =
      andThen (level cfg d l.next ts).out fun first r => (chain cfg d l first r).out := by
  cases l <;> simp only [Level.isInfix, Bool.false_eq_true] at hl <;>
  · rw [level]
    rcases level cfg d _ ts with ⟨_ | first, r, h⟩ <;> rfl

theorem chain_nil_out (l : Level) (acc : Expr) : (chain cfg d l acc []).out = (.ok acc, []) := by
  rw [chain]
  rfl

theorem chain_cons_out (l : Level) (acc : Expr) (t : Token) (rest : List Token) :
    (chain cfg d l acc (t :: rest)).out =
      match l.infixOp? t.kind with
      | none => (.ok acc, t :: rest)
      | some op =>
        andThen (level cfg d l.next rest).out fun right r =>
          andThen ((foldBinary op t acc right).bind (checkHeight cfg · r), r) fun e r' =>
            (chain cfg d l e r').out := by
  rw [chain]
  rcases l.infixOp? t.kind with _ | op
  · rfl
  · rcases level cfg d l.next rest with ⟨_ | right, r, h⟩
    · rfl
    · simp only [Parsed.out, andThen]
      rcases (foldBinary op t acc right).bind (checkHeight cfg · r) with _ | e <;> rfl

theorem suffixes_nil_out (n : Nat) (e : Expr) :
    (suffixes cfg d n e []).out = (checkHeight cfg e [], []) := by
  rw [suffixes]
  rfl

theorem suffixes_cons_out (n : Nat) (e : Expr) (t : Token) (rest : List Token) :
    (suffixes cfg d n e (t :: rest)).out =
      if t.kind = .leftParen ∨ t.kind = .dot then
        if cfg.maxDepth ≤ d + n then (.error (.recursionLimit cfg.maxDepth t.span), t :: rest)
        else if t.kind = .leftParen then
          andThen (arguments cfg d rest).out fun call r =>
            (suffixes cfg d (n + 1) (.call e call.1 call.2) r).out
        else
          match rest with
          | m :: rest' =>
            if m.kind = .identifier then (suffixes cfg d (n + 1) (.member e m) rest').out
            else (.error (.unexpected m.found .memberName m.span), m :: rest')
          | [] => (.error (.unexpected (Token.current []).found .memberName
              (Token.current []).span), [])
      else (checkHeight cfg e (t :: rest), t :: rest) := by
  rw [suffixes.eq_def]
  simp only
  split
  · split
    · rfl
    · split
      · rcases arguments cfg d rest with ⟨_ | ⟨args, close⟩, r, h⟩ <;> rfl
      · rcases rest with _ | ⟨m, rest'⟩
        · rfl
        · simp only
          split <;> rfl
  · rfl

theorem arguments_out (ts : List Token) :
    (arguments cfg d ts).out =
      match ts with
      | c :: rest =>
        if c.kind = .rightParen then (.ok ([], c), rest) else (argumentList cfg d [] (c :: rest)).out
      | [] => (argumentList cfg d [] []).out := by
  rcases ts with _ | ⟨c, rest⟩
  · rw [arguments]
  · rw [arguments]
    simp only
    split <;> rfl

theorem argumentList_out (acc : List Expr) (ts : List Token) :
    (argumentList cfg d acc ts).out =
      andThen (expression cfg d ts).out fun arg r =>
        match r with
        | c :: rest =>
          if c.kind = .comma then (argumentList cfg d (arg :: acc) rest).out
          else if c.kind = .rightParen then (.ok ((arg :: acc).reverse, c), rest)
          else (.error (.unexpected c.found .closeAfterArguments c.span), c :: rest)
        | [] => (.error (.unexpected (Token.current []).found .closeAfterArguments
            (Token.current []).span), []) := by
  rw [argumentList]
  rcases expression cfg d ts with ⟨_ | arg, r, h⟩
  · rfl
  · rcases r with _ | ⟨c, rest⟩
    · rfl
    · simp only [Parsed.out, andThen]
      split
      · rfl
      · split <;> rfl

theorem prefixRun_nil_out (pick : TokenKind → Option UnaryOp) (n : Nat) :
    (prefixRun cfg d pick n []).out = (.ok [], []) := by
  rw [prefixRun]
  rfl

theorem prefixRun_cons_out (pick : TokenKind → Option UnaryOp) (n : Nat) (t : Token)
    (rest : List Token) :
    (prefixRun cfg d pick n (t :: rest)).out =
      match pick t.kind with
      | none => (.ok [], t :: rest)
      | some op =>
        if cfg.maxDepth ≤ d + n then (.error (.recursionLimit cfg.maxDepth t.span), t :: rest)
        else
          ((prefixRun cfg d pick (n + 1) rest).out.1.map ((op, t) :: ·),
            (prefixRun cfg d pick (n + 1) rest).out.2) := by
  rw [prefixRun]
  rcases pick t.kind with _ | op
  · rfl
  · simp only
    split <;> rfl

end Equations

end Parse

/-! ## An operand that nothing continues -/

theorem Level.induction_next {P : Level → Prop} (primary : P .primary)
    (step : ∀ l, l ≠ .primary → P l.next → P l) (l : Level) : P l := by
  have exponent := step .exponent (by decide) primary
  have sign := step .sign (by decide) exponent
  have multiplicative := step .multiplicative (by decide) sign
  have intDivision := step .intDivision (by decide) multiplicative
  have modulo := step .modulo (by decide) intDivision
  have additive := step .additive (by decide) modulo
  have concat := step .concat (by decide) additive
  have comparison := step .comparison (by decide) concat
  have not := step .not (by decide) comparison
  have and := step .and (by decide) not
  have or := step .or (by decide) and
  have xor := step .xor (by decide) or
  have eqv := step .eqv (by decide) xor
  have imp := step .imp (by decide) eqv
  cases l <;> assumption

/-- The tokens after an operand continue it with no infix operator, `^` included. -/
def Closes (r : List Token) : Prop :=
  ∀ t, r.head? = some t → BinaryOp.ofTokenKind? t.kind = none

theorem Level.infixOp?_eq_none {k : TokenKind} (h : BinaryOp.ofTokenKind? k = none) (l : Level) :
    l.infixOp? k = none := by
  simp [Level.infixOp?, h]

namespace Parse

section Operand

variable {cfg : Limits} {d : Nat} {ts r : List Token} {x : Expr}

theorem chain_of_closes (l : Level) (hr : Closes r) : (chain cfg d l x r).out = (.ok x, r) := by
  rcases r with _ | ⟨t, rest⟩
  · exact chain_nil_out cfg d l x
  · rw [chain_cons_out, Level.infixOp?_eq_none (hr t rfl)]

theorem prefixOp?_of_primary (h : (level cfg d .primary ts).out = (.ok x, r)) (l : Level) :
    ∃ t rest, ts = t :: rest ∧ l.prefixOp? t.kind = none := by
  rcases ts with _ | ⟨t, rest⟩
  · rw [level_primary_nil_out] at h
    cases h
  · refine ⟨t, rest, rfl, ?_⟩
    rw [level_primary_cons_out] at h
    split at h
    · rename_i k _ hk
      rw [hk]
      cases l <;> rfl
    · rename_i hk
      rw [hk]
      cases l <;> rfl
    · rename_i hk
      rw [hk]
      cases l <;> rfl
    · cases h

theorem level_of_primary (hp : (level cfg d .primary ts).out = (.ok x, r)) (hr : Closes r)
    (hx : x.height ≤ cfg.maxHeight) (l : Level) : (level cfg d l ts).out = (.ok x, r) := by
  have hcheck : ∀ r', checkHeight cfg x r' = .ok x := fun r' => by simp [checkHeight, hx]
  induction l using Level.induction_next with
  | primary => exact hp
  | step l hl ih =>
    by_cases hpre : l = .not ∨ l = .sign
    · obtain ⟨t, rest, rfl, ht⟩ := prefixOp?_of_primary hp l
      rw [level_prefix_out cfg d l hpre, prefixRun_cons_out, ht]
      simp only [andThen_ok, ih, applyPrefixOps, List.foldr_nil, Except.bind, hcheck]
    · by_cases hexp : l = .exponent
      · subst hexp
        rw [level_exponent_out, hp]
        rcases r with _ | ⟨t, rest⟩
        · rfl
        · have hcaret : t.kind ≠ .caret := by
            intro hc
            have := hr t rfl
            rw [hc] at this
            cases this
          simp [hcaret]
      · have hinf : l.isInfix := by
          cases l <;> simp_all [Level.isInfix]
        rw [level_infix_out cfg d l hinf, ih, andThen_ok, chain_of_closes l hr]

end Operand

/-! ## Postconditions -/

/-- Every value the outcome `o` yields satisfies `P`. -/
def Yields {α : Type} (P : α → Prop) (o : Except ParseError α × List Token) : Prop :=
  ∀ a, o.1 = .ok a → P a

namespace Yields

variable {α β : Type} {P : α → Prop} {Q : β → Prop}

theorem error (e : ParseError) (r : List Token) : Yields P (.error e, r) := by
  intro a h
  cases h

theorem ok {a : α} (h : P a) (r : List Token) : Yields P (.ok a, r) := by
  intro b hb
  cases hb
  exact h

theorem of_except {x : Except ParseError α} (h : ∀ a, x = .ok a → P a) (r : List Token) :
    Yields P (x, r) := h

theorem andThen {o : Except ParseError α × List Token}
    {k : α → List Token → Except ParseError β × List Token} (ho : Yields P o)
    (hk : ∀ a r, P a → o = (.ok a, r) → Yields Q (k a r)) : Yields Q (Parse.andThen o k) := by
  rcases o with ⟨_ | a, r⟩
  · exact error _ _
  · exact hk a r (ho a rfl) rfl

end Yields

/-! ## What folding gives -/

theorem foldBinary_eq_ok_iff {op : BinaryOp} {t : Token} {x y e : Expr} :
    foldBinary op t x y = .ok e ↔
      (∃ a sa b sb v, x = .const a sa ∧ y = .const b sb ∧ op.apply a b = .ok v ∧
        e = .const v (sa.cover sb)) ∨
      ((x.folded? = none ∨ y.folded? = none) ∧ e = .binary op t x y) := by
  unfold foldBinary
  split
  · rename_i a sa b sb
    cases happ : op.apply a b <;> simp [happ, Expr.folded?, eq_comm]
  · rename_i hnot
    have hconst : ¬∃ a sa b sb v, x = .const a sa ∧ y = .const b sb ∧ op.apply a b = .ok v ∧
        e = .const v (sa.cover sb) := by
      rintro ⟨a, sa, b, sb, _, hx, hy, _⟩
      exact hnot a sa b sb hx hy
    have hdef : x.folded? = none ∨ y.folded? = none := by
      cases x with
      | const a sa =>
        cases y with
        | const b sb => exact (hnot a sa b sb rfl rfl).elim
        | _ => exact .inr rfl
      | _ => exact .inl rfl
    rw [Except.ok.injEq, or_iff_right hconst, and_iff_right hdef]
    exact eq_comm

theorem foldUnary_eq_ok_iff {op : UnaryOp} {t : Token} {x e : Expr} :
    foldUnary op t x = .ok e ↔
      (∃ a sa v, x = .const a sa ∧ op.apply a = .ok v ∧ e = .const v (t.span.cover sa)) ∨
      (x.folded? = none ∧ e = .unary op t x) := by
  unfold foldUnary
  split
  · rename_i a sa
    cases happ : op.apply a <;> simp [happ, Expr.folded?, eq_comm]
  · rename_i hnot
    have hconst : ¬∃ a sa v, x = .const a sa ∧ op.apply a = .ok v ∧
        e = .const v (t.span.cover sa) := by
      rintro ⟨a, sa, _, hx, _⟩
      exact hnot a sa hx
    have hdef : x.folded? = none := by
      cases x with
      | const a sa => exact (hnot a sa rfl).elim
      | _ => rfl
    rw [Except.ok.injEq, or_iff_right hconst, and_iff_right hdef]
    exact eq_comm

theorem foldBinary_of_none {op : BinaryOp} {t : Token} {x y : Expr}
    (h : x.folded? = none ∨ y.folded? = none) : foldBinary op t x y = .ok (.binary op t x y) :=
  foldBinary_eq_ok_iff.mpr (.inr ⟨h, rfl⟩)

theorem foldUnary_of_none {op : UnaryOp} {t : Token} {x : Expr} (h : x.folded? = none) :
    foldUnary op t x = .ok (.unary op t x) :=
  foldUnary_eq_ok_iff.mpr (.inr ⟨h, rfl⟩)

section Checks

variable {cfg : Limits}

theorem checkHeight_ok {e e' : Expr} {ts : List Token} (h : checkHeight cfg e ts = .ok e') :
    e' = e := by
  unfold checkHeight at h
  split at h
  · cases h; rfl
  · cases h

theorem checkHeight_of_le {e : Expr} {ts : List Token} (h : e.height ≤ cfg.maxHeight) :
    checkHeight cfg e ts = .ok e :=
  if_pos h

theorem bind_checkHeight_ok {x : Except ParseError Expr} {e : Expr} {ts : List Token}
    (h : x.bind (checkHeight cfg · ts) = .ok e) : x = .ok e := by
  rcases x with _ | a
  · cases h
  · exact congrArg Except.ok (checkHeight_ok h).symm

end Checks

end Parse

/-! ## Induction along the parser's calls -/

theorem Level.cases_kind (l : Level) :
    l = .primary ∨ l = .exponent ∨ (l = .not ∨ l = .sign) ∨ l.isInfix := by
  cases l <;> simp [Level.isInfix]

theorem Level.rank_next {l : Level} (h : l ≠ .primary) : l.next.rank + 1 = l.rank := by
  cases l <;> simp_all [Level.rank, Level.next]

namespace Parse

/-- An induction along the parser's calls. `E`, `L`, `C`, `S`, `A` and `AL` are statements about
`expression`, `level`, `chain`, `suffixes`, `arguments` and `argumentList` at each depth and
input, and each field says that a function's statement follows from those of the calls it makes:
a nested expression after `(` or in an argument, a tighter level, the chain after an operand, the
suffixes after a name, the arguments of a call. A call past the first token reads less than its
caller, so a field may assume its statements at every shorter input, and a family with all the
fields holds everywhere (`Steps.expression_holds` and its siblings). -/
structure Steps (E : Nat → List Token → Prop) (L : Nat → Level → List Token → Prop)
    (C : Nat → Level → Expr → List Token → Prop) (S : Nat → Nat → Expr → List Token → Prop)
    (A : Nat → List Token → Prop) (AL : Nat → List Expr → List Token → Prop) : Prop where
  expression : ∀ d ts, L (d + 1) .imp ts → E d ts
  primary_nil : ∀ d, L d .primary []
  primary_cons : ∀ d t rest, E d rest → S d 0 (.name t) rest → L d .primary (t :: rest)
  exponent : ∀ d ts, L d .primary ts → (∀ r, r.length < ts.length → L (d + 1) .sign r) →
    L d .exponent ts
  prefix_level : ∀ d l ts, (l = .not ∨ l = .sign) →
    (∀ r, r.length ≤ ts.length → L d l.next r) → L d l ts
  infix_level : ∀ d l ts, l.isInfix → L d l.next ts →
    (∀ acc r, r.length ≤ ts.length → C d l acc r) → L d l ts
  chain_nil : ∀ d l acc, C d l acc []
  chain_cons : ∀ d l acc t rest, L d l.next rest →
    (∀ acc' r, r.length ≤ rest.length → C d l acc' r) → C d l acc (t :: rest)
  suffixes_nil : ∀ d n e, S d n e []
  suffixes_cons : ∀ d n e t rest, A d rest →
    (∀ n' e' r, r.length ≤ rest.length → S d n' e' r) → S d n e (t :: rest)
  arguments : ∀ d ts, AL d [] ts → A d ts
  argument_list : ∀ d acc ts, E d ts → (∀ acc' r, r.length < ts.length → AL d acc' r) →
    AL d acc ts

namespace Steps

variable {E : Nat → List Token → Prop} {L : Nat → Level → List Token → Prop}
  {C : Nat → Level → Expr → List Token → Prop} {S : Nat → Nat → Expr → List Token → Prop}
  {A : Nat → List Token → Prop} {AL : Nat → List Expr → List Token → Prop}
  (h : Steps E L C S A AL)
include h

-- The measure is the parser's own: tokens left, then the grammar level.
mutual

theorem expression_holds (d : Nat) (ts : List Token) : E d ts :=
  h.expression d ts (level_holds (d + 1) .imp ts)
termination_by (ts.length, 40)
decreasing_by simp only [Prod.lex_def, Level.rank, true_and]; omega

theorem level_holds (d : Nat) (l : Level) (ts : List Token) : L d l ts := by
  rcases Level.cases_kind l with rfl | rfl | hl | hl
  · match ts with
    | [] => exact h.primary_nil d
    | t :: rest =>
      exact h.primary_cons d t rest (expression_holds d rest) (suffixes_holds d 0 (.name t) rest)
  · exact h.exponent d ts (level_holds d .primary ts) fun r _ => level_holds (d + 1) .sign r
  · have := Level.rank_next (l := l) (by rcases hl with rfl | rfl <;> decide)
    exact h.prefix_level d l ts hl fun r _ => level_holds d l.next r
  · have := Level.rank_next (l := l) (by rintro rfl; cases hl)
    exact h.infix_level d l ts hl (level_holds d l.next ts) fun acc r _ => chain_holds d l acc r
termination_by (ts.length, 2 * l.rank + 2)
decreasing_by
  all_goals
    simp_wf
    subst_vars
    simp only [Prod.lex_def, Level.rank, true_and] at *
    omega

theorem chain_holds (d : Nat) (l : Level) (acc : Expr) (ts : List Token) : C d l acc ts := by
  match ts with
  | [] => exact h.chain_nil d l acc
  | t :: rest =>
    exact h.chain_cons d l acc t rest (level_holds d l.next rest)
      fun acc' r _ => chain_holds d l acc' r
termination_by (ts.length, 2 * l.rank + 1)
decreasing_by all_goals simp_wf; simp only [Prod.lex_def]; omega

theorem suffixes_holds (d n : Nat) (e : Expr) (ts : List Token) : S d n e ts := by
  match ts with
  | [] => exact h.suffixes_nil d n e
  | t :: rest =>
    exact h.suffixes_cons d n e t rest (arguments_holds d rest)
      fun n' e' r _ => suffixes_holds d n' e' r
termination_by (ts.length, 0)
decreasing_by all_goals simp_wf; simp only [Prod.lex_def]; omega

theorem arguments_holds (d : Nat) (ts : List Token) : A d ts :=
  h.arguments d ts (argumentList_holds d [] ts)
termination_by (ts.length, 42)
decreasing_by simp only [Prod.lex_def, true_and]; omega

theorem argumentList_holds (d : Nat) (acc : List Expr) (ts : List Token) : AL d acc ts :=
  h.argument_list d acc ts (expression_holds d ts) fun acc' r _ => argumentList_holds d acc' r
termination_by (ts.length, 41)
decreasing_by all_goals simp only [Prod.lex_def, true_and]; omega

end

end Steps

end Parse

/-! ## Parsing source text -/

section Source

variable {src : String} {cfg : Limits}

theorem Expr.parse_eq_ok_iff {e : Expr} :
    Expr.parse src cfg = .ok e ↔ ∃ ts r, Token.scanAll src = .ok ts ∧
      (Expr.parseTokens cfg ts).out = (.ok e, r) ∧
      ∀ t ∈ (r.dropWhile (·.kind = .newline)).head?, t.kind = .eof := by
  unfold Expr.parse
  split
  · rename_i le hle
    simp [hle]
  · rename_i ts hts
    simp only [hts, Except.ok.injEq, exists_and_left, exists_eq_left']
    generalize Expr.parseTokens cfg ts = p
    rcases p with ⟨_ | e', r, hr⟩
    · simp [Parsed.out]
    · simp only [Parsed.out, Prod.mk.injEq, Except.ok.injEq]
      rcases hd : r.dropWhile (·.kind = .newline) with _ | ⟨t, tail⟩
      · simp [hd]
      · by_cases ht : t.kind = .eof <;> simp [hd, ht]

theorem Expr.parse_eq_error_iff {err : ParseError} :
    Expr.parse src cfg = .error err ↔
      (∃ le, Token.scanAll src = .error le ∧ err = .lex le) ∨
      ∃ ts r, Token.scanAll src = .ok ts ∧ ((Expr.parseTokens cfg ts).out = (.error err, r) ∨
        ∃ e t rest, (Expr.parseTokens cfg ts).out = (.ok e, r) ∧
          r.dropWhile (·.kind = .newline) = t :: rest ∧ t.kind ≠ .eof ∧
          err = .unexpected t.lexeme .endOfExpression t.span) := by
  unfold Expr.parse
  split
  · rename_i le hle
    simp [hle, eq_comm]
  · rename_i ts hts
    simp only [hts, reduceCtorEq, false_and, exists_false, false_or, Except.ok.injEq,
      exists_and_left, exists_eq_left']
    generalize Expr.parseTokens cfg ts = p
    rcases p with ⟨_ | e', r, hr⟩
    · simp [Parsed.out, eq_comm]
    · simp only [Parsed.out, Prod.mk.injEq, reduceCtorEq, false_and, false_or, Except.ok.injEq]
      rcases hd : r.dropWhile (·.kind = .newline) with _ | ⟨t, tail⟩
      · simp [hd]
      · by_cases ht : t.kind = .eof
        · simp [hd, ht]
        · simpa [hd, ht] using eq_comm

end Source

end ScriptFold
