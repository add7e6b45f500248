import Mathlib
import ScriptFold.Proofs.ParseSteps
/-!
The expression grammar as derivation trees.

A `Syn` is a derivation tree that keeps every token it spans, so its `yield` is exactly the
tokens read. `Derives l s` says that `s` is a derivation of the grammar's level `l`, following
the grammar line by line:

    primary  → LITERAL | IDENT ( "(" arguments? ")" | "." IDENT )* | "(" expression ")"
    exponent → primary ( "^" sign )?
    sign     → ( "+" | "-" )* exponent          not → "Not"* comparison
    l        → l.next ( op_l l.next )*          for the eleven left-associative levels

with each level also taking any derivation of the next tighter one. `Syn.fold` folds a tree
bottom-up and left to right with the parser's fold steps, literals read as literal tokens are.

`Extends l s k` is when a token of kind `k` can continue a complete derivation `s` of level
`l`: an infix operator of that level or a tighter one, or `(` and `.` after a name.
-/
namespace ScriptFold

set_option autoImplicit false

/-- A derivation tree of the expression grammar, with the tokens it spans. -/
inductive Syn where
  | lit (t : Token)
  | ident (t : Token)
  | member (object : Syn) (dot name : Token)
  | call (callee : Syn) (lp : Token) (args : List Syn) (commas : List Token) (rp : Token)
  | paren (lp : Token) (inner : Syn) (rp : Token)
  | unary (op : UnaryOp) (t : Token) (operand : Syn)
  | binary (op : BinaryOp) (t : Token) (left right : Syn)

namespace Syn

mutual
/-- The tokens the tree spans, in source order. -/
def yield : Syn → List Token
  | lit t => [t]
  | ident t => [t]
  | member o dot n => o.yield ++ [dot, n]
  | call f lp args commas rp => f.yield ++ lp :: argsYield args commas ++ [rp]
  | paren lp e rp => lp :: e.yield ++ [rp]
  | unary _ t e => t :: e.yield
  | binary _ t l r => l.yield ++ t :: r.yield

/-- Call arguments separated by their commas. -/
def argsYield : List Syn → List Token → List Token
  | [], _ => []
  | [a], _ => a.yield
  | a :: b :: more, c :: cs => a.yield ++ c :: argsYield (b :: more) cs
  | a :: b :: more, [] => a.yield ++ argsYield (b :: more) []
end

/-- Names, member accesses and calls: what call and member suffixes may follow. -/
def isChain : Syn → Bool
  | ident _ | member .. | call .. => true
  | _ => false

/-- Does the last primary of the tree end with a name, a member access or a call? -/
def endsWithChain : Syn → Bool
  | ident _ | member .. | call .. => true
  | lit _ | paren .. => false
  | unary _ _ e => e.endsWithChain
  | binary _ _ _ r => r.endsWithChain

/-- What a parenthesised expression folds to: a constant with the span of the parentheses, or
the group. -/
def grouped (span : Span) : Expr → Expr
  | .const v _ => .const v span
  | deferred => .group deferred span

mutual
/-- The folded expression: literals read, every operator over known operands applied, a
parenthesised constant kept with the span of its parentheses. The first failure from the left
is the result. -/
def fold : Syn → Except ParseError Expr
  | lit t => t.literalValue.map (.const · t.span)
  | ident t => .ok (.name t)
  | member o _ n => o.fold.map (.member · n)
  | call f _ args _ rp => f.fold.bind fun callee => (foldAll args).map (.call callee · rp)
  | paren lp e rp => e.fold.map (grouped (lp.span.cover rp.span))
  | unary op t e => e.fold.bind (Parse.foldUnary op t)
  | binary op t l r => l.fold.bind fun a => r.fold.bind (Parse.foldBinary op t a)

/-- Each argument folded, from the left. -/
def foldAll : List Syn → Except ParseError (List Expr)
  | [] => .ok []
  | a :: as => a.fold.bind fun x => (foldAll as).map (x :: ·)
end

/-- The suffixes after the name of a chain. -/
def suffixCount : Syn → Nat
  | member o .. => o.suffixCount + 1
  | call f .. => f.suffixCount + 1
  | _ => 0

theorem grouped_height (span : Span) (x : Expr) : (grouped span x).height ≤ x.height + 1 := by
  cases x <;> simp [grouped, Expr.height]

theorem height_le_grouped (sp : Span) (x : Expr) : x.height ≤ (grouped sp x).height := by
  cases x <;> simp [grouped, Expr.height]

theorem suffixCount_lt_length : (s : Syn) → s.suffixCount < s.yield.length
  | lit _ | ident _ => by simp [suffixCount, yield]
  | member o _ _ => by
    have := suffixCount_lt_length o
    simp only [suffixCount, yield, List.length_append, List.length_cons, List.length_nil]
    omega
  | call f _ _ _ _ => by
    have := suffixCount_lt_length f
    simp only [suffixCount, yield, List.length_append, List.length_cons, List.length_nil]
    omega
  | paren .. | unary .. => by simp [suffixCount, yield]
  | binary .. => by simp only [suffixCount, yield, List.length_append, List.length_cons]; omega

theorem endsWithChain_of_isChain {s : Syn} (h : s.isChain = true) : s.endsWithChain = true := by
  cases s <;> simp_all [isChain, endsWithChain]

theorem argsYield_cons (a : Syn) (more : List Syn) (commas : List Token) :
    ∃ w, argsYield (a :: more) commas = a.yield ++ w := by
  rcases more with _ | ⟨b, more⟩
  · exact ⟨[], by simp [argsYield]⟩
  · rcases commas with _ | ⟨c, cs⟩
    · exact ⟨_, rfl⟩
    · exact ⟨_, rfl⟩

end Syn

/-! ## Closing a group -/

namespace Parse

variable {cfg : Limits}

theorem closeGroup_ok {lp : Token} {inner e : Expr} {r r' : List Token}
    (h : closeGroup cfg lp inner r = (.ok e, r')) :
    ∃ c, r = c :: r' ∧ c.kind = .rightParen ∧ e = Syn.grouped (lp.span.cover c.span) inner := by
  rcases r with _ | ⟨c, r⟩
  · cases h
  · by_cases hc : c.kind = .rightParen
    · cases inner
      case const v s =>
        simp only [closeGroup, if_pos hc, Prod.mk.injEq, Except.ok.injEq] at h
        exact ⟨c, by rw [h.2], hc, h.1.symm⟩
      all_goals
        simp only [closeGroup, if_pos hc, Prod.mk.injEq] at h
        exact ⟨c, by rw [h.2], hc, checkHeight_ok h.1⟩
    · simp [closeGroup, if_neg hc] at h

theorem closeGroup_grouped (lp : Token) {c : Token} (hc : c.kind = .rightParen) {x : Expr}
    (hh : (Syn.grouped (lp.span.cover c.span) x).height ≤ cfg.maxHeight) (r : List Token) :
    closeGroup cfg lp x (c :: r) = (.ok (Syn.grouped (lp.span.cover c.span) x), r) := by
  cases x
  case const v s =>
    simp only [closeGroup, if_pos hc]
    rfl
  all_goals
    simp only [closeGroup, if_pos hc]
    rw [checkHeight_of_le (show (Expr.group _ _).height ≤ cfg.maxHeight from hh)]
    rfl

end Parse

/-- Commas between call arguments: one fewer than the arguments, or none at all. -/
def Commas (args : List Syn) (commas : List Token) : Prop :=
  (∀ c ∈ commas, c.kind = .comma) ∧ (commas.length + 1 = args.length ∨ args = [] ∧ commas = [])

theorem Commas.eq_nil {commas : List Token} (h : Commas [] commas) : commas = [] := by
  rcases h.2 with h | h
  · simp at h
  · exact h.2

theorem Commas.length_succ {args : List Syn} {commas : List Token} (h : Commas args commas)
    (hne : args ≠ []) : commas.length + 1 = args.length := by
  rcases h.2 with h | ⟨rfl, -⟩
  · exact h
  · exact absurd rfl hne

/-- `Derives l s`: the tree `s` is a derivation of the grammar's level `l`. -/
inductive Derives : Level → Syn → Prop
  | lit {t : Token} {k : LiteralKind} : t.kind = .literal k → Derives .primary (.lit t)
  | ident {t : Token} : t.kind = .identifier → Derives .primary (.ident t)
  | member {o : Syn} {dot n : Token} : Derives .primary o → o.isChain = true →
      dot.kind = .dot → n.kind = .identifier → Derives .primary (.member o dot n)
  | call {f : Syn} {lp rp : Token} {args : List Syn} {commas : List Token} :
      Derives .primary f → f.isChain = true → lp.kind = .leftParen →
      (∀ a ∈ args, Derives .imp a) → Commas args commas → rp.kind = .rightParen →
      Derives .primary (.call f lp args commas rp)
  | paren {lp rp : Token} {e : Syn} : lp.kind = .leftParen → Derives .imp e →
      rp.kind = .rightParen → Derives .primary (.paren lp e rp)
  | next {l : Level} {s : Syn} : l ≠ .primary → Derives l.next s → Derives l s
  | power {t : Token} {b p : Syn} : t.kind = .caret → Derives .primary b → Derives .sign p →
      Derives .exponent (.binary .power t b p)
  | unary {l : Level} {op : UnaryOp} {t : Token} {e : Syn} : l.prefixOp? t.kind = some op →
      Derives l e → Derives l (.unary op t e)
  | binary {l : Level} {op : BinaryOp} {t : Token} {a b : Syn} : l.isInfix = true →
      l.infixOp? t.kind = some op → Derives l a → Derives l.next b →
      Derives l (.binary op t a b)

/-- A token of kind `k` continues a complete derivation `s` of level `l`: an infix operator of
`l` or of a tighter level, or a call or member suffix after a name. -/
def Extends (l : Level) (s : Syn) (k : TokenKind) : Prop :=
  (∃ op, BinaryOp.ofTokenKind? k = some op ∧ op.level.rank ≤ l.rank) ∨
    ((k = .leftParen ∨ k = .dot) ∧ s.endsWithChain = true)

/-! ## Levels -/

namespace Level

/-- The level of a rank. -/
def ofRank : Nat → Level
  | 14 => .imp
  | 13 => .eqv
  | 12 => .xor
  | 11 => .or
  | 10 => .and
  | 9 => .not
  | 8 => .comparison
  | 7 => .concat
  | 6 => .additive
  | 5 => .modulo
  | 4 => .intDivision
  | 3 => .multiplicative
  | 2 => .sign
  | 1 => .exponent
  | _ => .primary

theorem ofRank_rank (l : Level) : ofRank l.rank = l := by
  cases l <;> rfl

theorem rank_injective {a b : Level} (h : a.rank = b.rank) : a = b := by
  rw [← ofRank_rank a, h, ofRank_rank]

theorem isInfix_rank {l : Level} (h : l.isInfix = true) : 3 ≤ l.rank ∧ l ≠ .not := by
  cases l <;> simp_all [isInfix, rank]

theorem exponent_or_unary {l : Level} (hl : l ≠ .primary) (hinf : ¬l.isInfix = true) :
    l = .exponent ∨ l = .not ∨ l = .sign := by
  cases l <;> simp_all [isInfix]

theorem infixOp?_level {l : Level} {k : TokenKind} {op : BinaryOp} (h : l.infixOp? k = some op) :
    BinaryOp.ofTokenKind? k = some op ∧ op.level = l := by
  unfold infixOp? at h
  split at h
  · split at h
    · cases h
      rename_i hk _
      exact ⟨hk, by assumption⟩
    · cases h
  · cases h

theorem prefixOp?_some {l : Level} {k : TokenKind} {op : UnaryOp} (h : l.prefixOp? k = some op) :
    (l = .not ∧ k = .notOp ∧ op = .not) ∨ (l = .sign ∧ k = .plus ∧ op = .plus) ∨
      (l = .sign ∧ k = .minus ∧ op = .negate) := by
  unfold prefixOp? at h
  split at h <;> simp_all

/-- The level whose operators may not follow a complete derivation of `l`: a left-associative
level reads its own operators itself. -/
def stop (l : Level) : Level := if l.isInfix then l.next else l

theorem stop_rank_le (l : Level) : l.stop.rank ≤ l.rank := by
  cases l <;> simp [stop, isInfix, next, rank]

end Level

theorem Extends.mono {l l' : Level} {s : Syn} {k : TokenKind} (h : Extends l s k)
    (hl : l.rank ≤ l'.rank) : Extends l' s k := by
  rcases h with ⟨op, hop, hr⟩ | h
  · exact .inl ⟨op, hop, by omega⟩
  · exact .inr h

theorem Extends.of_infixOp {l l' : Level} {s : Syn} {k : TokenKind} {op : BinaryOp}
    (h : l.infixOp? k = some op) (hl : l.rank ≤ l'.rank) : Extends l' s k := by
  obtain ⟨hk, hop⟩ := Level.infixOp?_level h
  exact .inl ⟨op, hk, hop ▸ hl⟩

theorem infixOp?_eq_none_of_not_extends {l l' : Level} {s : Syn} {k : TokenKind}
    (h : ¬Extends l s k) (hl : l'.rank ≤ l.rank) : l'.infixOp? k = none := by
  rcases hop : l'.infixOp? k with _ | op
  · rfl
  · exact (h (.of_infixOp hop hl)).elim

theorem not_extends {l : Level} {s : Syn} {k : TokenKind} (hop : BinaryOp.ofTokenKind? k = none)
    (hp : k ≠ .leftParen) (hd : k ≠ .dot) : ¬Extends l s k := by
  rintro (⟨op, h, -⟩ | ⟨hk | hk, -⟩)
  · rw [hop] at h; cases h
  · exact hp hk
  · exact hd hk

/-! ## The first token of a derivation -/

/-- The kinds that can start a derivation of level `l`: a literal, a name or `(`, then signs
from the sign level up, then `Not` from the `Not` level up. -/
def Starts (l : Level) (k : TokenKind) : Prop :=
  (k.isLiteral = true ∨ k = .identifier ∨ k = .leftParen) ∨
    (2 ≤ l.rank ∧ (k = .plus ∨ k = .minus)) ∨ (9 ≤ l.rank ∧ k = .notOp)

theorem Starts.mono {l l' : Level} {k : TokenKind} (h : Starts l k) (hl : l.rank ≤ l'.rank) :
    Starts l' k := by
  rcases h with h | ⟨hr, h⟩ | ⟨hr, h⟩
  · exact .inl h
  · exact .inr (.inl ⟨by omega, h⟩)
  · exact .inr (.inr ⟨by omega, h⟩)

theorem Derives.starts {l : Level} {s : Syn} (h : Derives l s) :
    ∃ t rest, s.yield = t :: rest ∧ Starts l t.kind := by
  induction h with
  | @lit t k hk => exact ⟨t, [], rfl, .inl (.inl (by simp [hk, TokenKind.isLiteral]))⟩
  | @ident t hk => exact ⟨t, [], rfl, .inl (.inr (.inl hk))⟩
  | @member o dot n _ _ _ _ ih =>
    obtain ⟨t, rest, hy, hs⟩ := ih
    exact ⟨t, rest ++ [dot, n], by simp [Syn.yield, hy], hs⟩
  | @call f lp rp args commas _ _ _ _ _ _ ih =>
    obtain ⟨t, rest, hy, hs⟩ := ih
    exact ⟨t, rest ++ lp :: Syn.argsYield args commas ++ [rp], by simp [Syn.yield, hy], hs⟩
  | @paren lp rp e hlp _ _ _ => exact ⟨lp, _, rfl, .inl (.inr (.inr hlp))⟩
  | @next l s hl _ ih =>
    obtain ⟨t, rest, hy, hs⟩ := ih
    exact ⟨t, rest, hy, hs.mono (by have := Level.rank_next hl; omega)⟩
  | @power c b p _ _ _ ih _ =>
    obtain ⟨t, rest, hy, hs⟩ := ih
    exact ⟨t, rest ++ c :: p.yield, by simp [Syn.yield, hy], hs.mono (by simp [Level.rank])⟩
  | @unary l op t e hop _ _ =>
    refine ⟨t, e.yield, rfl, ?_⟩
    rcases Level.prefixOp?_some hop with ⟨rfl, hk, -⟩ | ⟨rfl, hk, -⟩ | ⟨rfl, hk, -⟩
    · exact .inr (.inr ⟨by simp [Level.rank], hk⟩)
    · exact .inr (.inl ⟨by simp [Level.rank], .inl hk⟩)
    · exact .inr (.inl ⟨by simp [Level.rank], .inr hk⟩)
  | @binary l op c a b _ _ _ _ iha _ =>
    obtain ⟨t, rest, hy, hs⟩ := iha
    exact ⟨t, rest ++ c :: b.yield, by simp [Syn.yield, hy], hs⟩

/-! ## Sizes -/

theorem Except.bind_eq_ok {ε α β : Type} {x : Except ε α} {f : α → Except ε β} {b : β} :
    x.bind f = .ok b ↔ ∃ a, x = .ok a ∧ f a = .ok b := by
  cases x <;> simp [Except.bind]

theorem Except.map_eq_ok {ε α β : Type} {x : Except ε α} {f : α → β} {b : β} :
    x.map f = .ok b ↔ ∃ a, x = .ok a ∧ f a = b := by
  cases x <;> simp [Except.map]

theorem Parse.foldUnary_height {op : UnaryOp} {t : Token} {e e' : Expr}
    (h : Parse.foldUnary op t e = .ok e') : e'.height ≤ e.height + 1 := by
  rcases Parse.foldUnary_eq_ok_iff.mp h with ⟨_, _, _, -, -, rfl⟩ | ⟨-, rfl⟩
  all_goals simp [Expr.height]

theorem Parse.foldBinary_height {op : BinaryOp} {t : Token} {l r e : Expr}
    (h : Parse.foldBinary op t l r = .ok e) : e.height ≤ max l.height r.height + 1 := by
  rcases Parse.foldBinary_eq_ok_iff.mp h with ⟨_, _, _, _, _, -, -, -, rfl⟩ | ⟨-, rfl⟩
  all_goals simp [Expr.height]

theorem Syn.length_le_argsYield {a : Syn} {args : List Syn} (ha : a ∈ args)
    (commas : List Token) : a.yield.length ≤ (argsYield args commas).length := by
  induction args generalizing commas with
  | nil => cases ha
  | cons b more ih =>
    rcases more with _ | ⟨m, ms⟩
    · obtain rfl := List.mem_singleton.mp ha
      simp [argsYield]
    · rcases List.mem_cons.mp ha with rfl | ha
      · rcases commas with _ | ⟨c, cs⟩ <;> simp [argsYield]
      · rcases commas with _ | ⟨c, cs⟩
        · have := ih ha []
          simp only [argsYield, List.length_append]
          omega
        · have := ih ha cs
          simp only [argsYield, List.length_append, List.length_cons]
          omega

theorem Syn.foldAll_heights {args : List Syn} {n : Nat}
    (h : ∀ a ∈ args, ∀ e, a.fold = .ok e → e.height ≤ n) {es : List Expr}
    (he : foldAll args = .ok es) : Expr.heights es ≤ n := by
  induction args generalizing es with
  | nil =>
    cases he
    simp [Expr.heights]
  | cons a as ih =>
    obtain ⟨x, hx, hrest⟩ := Except.bind_eq_ok.mp he
    obtain ⟨xs, hxs, rfl⟩ := Except.map_eq_ok.mp hrest
    simp only [Expr.heights, Nat.max_le]
    exact ⟨h a (by simp) x hx, ih (fun b hb => h b (by simp [hb])) hxs⟩

theorem Syn.fold_binary_ok {op : BinaryOp} {c : Token} {a b : Syn} {x y w : Expr}
    (ha : a.fold = .ok x) (hb : b.fold = .ok y) (hw : Parse.foldBinary op c x y = .ok w) :
    (Syn.binary op c a b).fold = .ok w := by
  change (a.fold.bind fun x => b.fold.bind (Parse.foldBinary op c x)) = .ok w
  rw [ha, hb]
  exact hw

theorem Derives.fold_height {l : Level} {s : Syn} (h : Derives l s) {e : Expr}
    (he : s.fold = .ok e) : e.height ≤ s.yield.length := by
  induction h generalizing e with
  | lit =>
    obtain ⟨v, -, rfl⟩ := Except.map_eq_ok.mp he
    simp [Expr.height, Syn.yield]
  | ident =>
    cases he
    simp [Expr.height, Syn.yield]
  | member _ _ _ _ ih =>
    obtain ⟨o, ho, rfl⟩ := Except.map_eq_ok.mp he
    have := ih ho
    simp only [Expr.height, Syn.yield, List.length_append, List.length_cons, List.length_nil]
    omega
  | @call f lp rp args commas _ _ _ _ _ _ ihf iha =>
    obtain ⟨c, hc, hv⟩ := Except.bind_eq_ok.mp he
    obtain ⟨vs, hvs, rfl⟩ := Except.map_eq_ok.mp hv
    have hf := ihf hc
    have hargs := Syn.foldAll_heights (n := (Syn.argsYield args commas).length)
      (fun a ha x hx => Nat.le_trans (iha a ha hx) (Syn.length_le_argsYield ha commas)) hvs
    simp only [Expr.height, Syn.yield, List.length_append, List.length_cons, List.length_nil]
    omega
  | @paren lp rp _ _ _ _ ih =>
    obtain ⟨x, hx, rfl⟩ := Except.map_eq_ok.mp he
    have := ih hx
    have := Syn.grouped_height (lp.span.cover rp.span) x
    simp only [Syn.yield, List.length_append, List.length_cons, List.length_nil]
    omega
  | next _ _ ih => exact ih he
  | power _ _ _ ihb ihp =>
    obtain ⟨a, ha, hb⟩ := Except.bind_eq_ok.mp he
    obtain ⟨b, hb, hab⟩ := Except.bind_eq_ok.mp hb
    have := Parse.foldBinary_height hab
    have := ihb ha
    have := ihp hb
    simp only [Syn.yield, List.length_append, List.length_cons]
    omega
  | unary _ _ ih =>
    obtain ⟨x, hx, hu⟩ := Except.bind_eq_ok.mp he
    have := Parse.foldUnary_height hu
    have := ih hx
    simp only [Syn.yield, List.length_cons]
    omega
  | binary _ _ _ _ iha ihb =>
    obtain ⟨a, ha, hb⟩ := Except.bind_eq_ok.mp he
    obtain ⟨b, hb, hab⟩ := Except.bind_eq_ok.mp hb
    have := Parse.foldBinary_height hab
    have := iha ha
    have := ihb hb
    simp only [Syn.yield, List.length_append, List.length_cons]
    omega

end ScriptFold
