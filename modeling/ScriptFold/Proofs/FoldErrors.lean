import Mathlib
import ScriptFold.Proofs.ParseSound
/-!
Where folding fails. The parser folds an operator as soon as it has read its operands, and only
when they are constants, so a folding failure comes from one operator: the last one read.
`Syn.FailsAt n e sp` says this of a node `n` of a derivation: it is an infix or a prefix operator
over operands that fold to constants, applying the operator to their values fails with `e`, and
`sp` is the span of the operator's token. An operator with an operand that is not a constant is
kept as a node and never fails (`Parse.foldBinary_eq_error_iff`, `Parse.foldUnary_eq_error_iff`).

A failure of the parser is read as the grammar groups the tokens (`Parse.FoldFailed`): the tokens
read, with a `)` added for every group and call left open, are a derivation that folds to the
same failure, and the failing node occurs in it and ends where the parser stopped. The proof is
an instance of `Parse.Steps`, as the soundness proof is, and takes what a successful step read
from that one.

Main statement: `parse_fold_error_at_operator`.
-/
namespace ScriptFold

set_option autoImplicit false

namespace Parse

/-! ## Folding fails only on constants -/

theorem foldBinary_eq_error_iff {op : BinaryOp} {t : Token} {x y : Expr} {err : ParseError} :
    foldBinary op t x y = .error err ↔
      ∃ a sa b sb e, x = .const a sa ∧ y = .const b sb ∧ op.apply a b = .error e ∧
        err = .fold e t.span := by
  unfold foldBinary
  split
  · rename_i a sa b sb
    cases happ : op.apply a b <;> simp [happ, eq_comm]
  · rename_i hnot
    simp only [reduceCtorEq, false_iff, not_exists, not_and]
    exact fun a sa b sb _ hx hy _ _ => hnot a sa b sb hx hy

theorem foldUnary_eq_error_iff {op : UnaryOp} {t : Token} {x : Expr} {err : ParseError} :
    foldUnary op t x = .error err ↔
      ∃ a sa e, x = .const a sa ∧ op.apply a = .error e ∧ err = .fold e t.span := by
  unfold foldUnary
  split
  · rename_i a sa
    cases happ : op.apply a <;> simp [happ, eq_comm]
  · rename_i hnot
    simp only [reduceCtorEq, false_iff, not_exists, not_and]
    exact fun a sa _ hx _ _ => hnot a sa hx

end Parse

namespace Syn

/-! ## Nodes of a derivation -/

/-- `n` occurs in the derivation `s`: it is `s`, or occurs in one of its parts. -/
inductive Occurs (n : Syn) : Syn → Prop
  | refl : Occurs n n
  | member {o : Syn} {dot name : Token} : Occurs n o → Occurs n (.member o dot name)
  | callee {f : Syn} {lp rp : Token} {args : List Syn} {commas : List Token} :
      Occurs n f → Occurs n (.call f lp args commas rp)
  | arg {f a : Syn} {lp rp : Token} {args : List Syn} {commas : List Token} :
      a ∈ args → Occurs n a → Occurs n (.call f lp args commas rp)
  | paren {lp rp : Token} {e : Syn} : Occurs n e → Occurs n (.paren lp e rp)
  | unary {op : UnaryOp} {t : Token} {e : Syn} : Occurs n e → Occurs n (.unary op t e)
  | left {op : BinaryOp} {t : Token} {a b : Syn} : Occurs n a → Occurs n (.binary op t a b)
  | right {op : BinaryOp} {t : Token} {a b : Syn} : Occurs n b → Occurs n (.binary op t a b)

theorem Occurs.wrap {n x : Syn} (h : Occurs n x) (ops : List (UnaryOp × Token)) :
    Occurs n (x.wrap ops) := by
  induction ops with
  | nil => exact h
  | cons o ops ih => exact .unary ih

theorem wrap_append (x : Syn) (pre post : List (UnaryOp × Token)) :
    x.wrap (pre ++ post) = (x.wrap post).wrap pre := by
  simp [wrap, List.foldr_append]

/-- The operator node `n` fails to fold with `e` at `sp`: its token spells an infix or a prefix
operator, its operands fold to constants, the operator fails on their values with `e`, and `sp`
is the span of its token. -/
inductive FailsAt : Syn → EvalError → Span → Prop
  | binary {op : BinaryOp} {t : Token} {a b : Syn} {x y : Value} {sx sy : Span} {e : EvalError} :
      BinaryOp.ofTokenKind? t.kind = some op → a.fold = .ok (.const x sx) →
      b.fold = .ok (.const y sy) → op.apply x y = .error e → FailsAt (.binary op t a b) e t.span
  | unary {op : UnaryOp} {t : Token} {a : Syn} {x : Value} {sx : Span} {e : EvalError} :
      UnaryOp.ofTokenKind? t.kind = some op → a.fold = .ok (.const x sx) →
      op.apply x = .error e → FailsAt (.unary op t a) e t.span

theorem FailsAt.fold_eq {n : Syn} {e : EvalError} {sp : Span} (h : n.FailsAt e sp) :
    n.fold = .error (.fold e sp) := by
  cases h with
  | binary _ ha hb happ =>
    change (_ : Syn).fold.bind (fun x => (_ : Syn).fold.bind (Parse.foldBinary _ _ x)) = _
    rw [ha, hb]
    exact Parse.foldBinary_eq_error_iff.mpr ⟨_, _, _, _, _, rfl, rfl, happ, rfl⟩
  | unary _ ha happ =>
    rw [fold, ha]
    exact Parse.foldUnary_eq_error_iff.mpr ⟨_, _, _, rfl, happ, rfl⟩

/-! ## Failures pass up a derivation -/

variable {err : ParseError}

theorem fold_paren {e : Syn} (h : e.fold = .error err) (lp rp : Token) :
    (Syn.paren lp e rp).fold = .error err := by
  rw [fold, h]
  rfl

theorem fold_binary_right {a b : Syn} {x : Expr} (ha : a.fold = .ok x) (hb : b.fold = .error err)
    (op : BinaryOp) (t : Token) : (Syn.binary op t a b).fold = .error err := by
  change (a.fold.bind fun x => b.fold.bind (Parse.foldBinary op t x)) = _
  rw [ha, hb]
  rfl

theorem fold_wrap_error {x : Syn} (h : x.fold = .error err) (ops : List (UnaryOp × Token)) :
    (x.wrap ops).fold = .error err := by
  induction ops with
  | nil => exact h
  | cons o ops ih =>
    rw [wrap_cons, fold, ih]
    rfl

theorem fold_call {f : Syn} {x : Expr} (hf : f.fold = .ok x) {args : List Syn}
    (hargs : foldAll args = .error err) (lp rp : Token) (commas : List Token) :
    (Syn.call f lp args commas rp).fold = .error err := by
  rw [fold, hf]
  change (foldAll args).map _ = _
  rw [hargs]
  rfl

theorem foldAll_head {a : Syn} (h : a.fold = .error err) (as : List Syn) :
    foldAll (a :: as) = .error err := by
  rw [foldAll, h]
  rfl

theorem foldAll_tail {a : Syn} {x : Expr} (h : a.fold = .ok x) {as : List Syn}
    (has : foldAll as = .error err) : foldAll (a :: as) = .error err := by
  rw [foldAll, h]
  change (foldAll as).map _ = _
  rw [has]
  rfl

end Syn

namespace Parse

theorem ofTokenKind?_of_prefixOp? {l : Level} {k : TokenKind} {op : UnaryOp}
    (h : l.prefixOp? k = some op) : UnaryOp.ofTokenKind? k = some op := by
  rcases Level.prefixOp?_some h with ⟨-, rfl, rfl⟩ | ⟨-, rfl, rfl⟩ | ⟨-, rfl, rfl⟩
  all_goals rfl

theorem applyPrefixOps_eq_error {X : Syn} {v : Expr} (hX : X.fold = .ok v) {l : Level} :
    ∀ {ops : List (UnaryOp × Token)}, (∀ o ∈ ops, l.prefixOp? o.2.kind = some o.1) →
      ∀ {err : ParseError}, applyPrefixOps ops v = .error err →
      ∃ pre o post e sp, ops = pre ++ o :: post ∧ err = .fold e sp ∧
        (Syn.unary o.1 o.2 (X.wrap post)).FailsAt e sp
  | [], _, err, h => by cases h
  | o :: ops, hops, err, h => by
    have hstep : applyPrefixOps (o :: ops) v = (applyPrefixOps ops v).bind (foldUnary o.1 o.2) :=
      rfl
    rw [hstep] at h
    rcases hrest : applyPrefixOps ops v with err' | w
    · rw [hrest] at h
      cases h
      obtain ⟨pre, o', post, e, sp, rfl, rfl, hfail⟩ :=
        applyPrefixOps_eq_error hX (fun o' h' => hops o' (List.mem_cons_of_mem o h')) hrest
      exact ⟨o :: pre, o', post, e, sp, rfl, rfl, hfail⟩
    · rw [hrest] at h
      obtain ⟨a, sa, e, rfl, happ, rfl⟩ := foldUnary_eq_error_iff.mp h
      have hfold : (X.wrap ops).fold = .ok (.const a sa) := by rw [Syn.fold_wrap hX, hrest]
      have hk := ofTokenKind?_of_prefixOp? (hops o List.mem_cons_self)
      exact ⟨[], o, ops, e, o.2.span, rfl, rfl, .unary hk hfold happ⟩

section Checks

variable {cfg : Limits}

theorem checkHeight_ne_fold (x : Expr) (ts : List Token) (e : EvalError) (sp : Span) :
    checkHeight cfg x ts ≠ .error (.fold e sp) := by
  unfold checkHeight
  split <;> nofun

theorem bind_checkHeight_fold {x : Except ParseError Expr} {ts : List Token} {e : EvalError}
    {sp : Span} (h : x.bind (checkHeight cfg · ts) = .error (.fold e sp)) :
    x = .error (.fold e sp) := by
  rcases x with err | a
  · exact h
  · exact absurd h (checkHeight_ne_fold a ts e sp)

end Checks

/-! ## Failures as the grammar groups the tokens -/

/-- A `)` standing for one the parser did not reach. -/
def closeParen : Token := ⟨.rightParen, ")", ⟨0, 0⟩⟩

/-- The node `n` was read last from `ts`, before `r`, and sits in the same place in `w`, which
closes with `)` what `ts` leaves open after it. -/
def Pinned (ts w : List Token) (n : Syn) (r : List Token) : Prop :=
  ∃ pre closers, ts = pre ++ n.yield ++ r ∧ w = pre ++ n.yield ++ closers ∧
    ∀ c ∈ closers, c.kind = .rightParen

namespace Pinned

variable {ts w : List Token} {n : Syn} {r : List Token}

theorem here (n : Syn) (r : List Token) : Pinned (n.yield ++ r) n.yield n r :=
  ⟨[], [], rfl, by simp, by simp⟩

theorem before (h : Pinned ts w n r) (x : List Token) : Pinned (x ++ ts) (x ++ w) n r := by
  obtain ⟨pre, closers, rfl, rfl, hc⟩ := h
  exact ⟨x ++ pre, closers, by simp, by simp, hc⟩

theorem close (h : Pinned ts w n r) {c : Token} (hc : c.kind = .rightParen) :
    Pinned ts (w ++ [c]) n r := by
  obtain ⟨pre, closers, rfl, rfl, hcs⟩ := h
  refine ⟨pre, closers ++ [c], rfl, by simp, fun c' h' => ?_⟩
  rcases List.mem_append.mp h' with h' | h'
  · exact hcs c' h'
  · rw [List.mem_singleton.mp h']
    exact hc

end Pinned

/-- A folding failure with `e` at `sp` at level `l` over `ts` that left `r`, read as the grammar
groups the tokens: a derivation of `l` over the tokens read, with `)` added for what is left
open, folds to the same failure, and the node that failed occurs in it and was read last. -/
def FoldFailed (l : Level) (ts : List Token) (e : EvalError) (sp : Span) (r : List Token) :
    Prop :=
  ∃ D n, Derives l D ∧ Pinned ts D.yield n r ∧ D.fold = .error (.fold e sp) ∧ n.Occurs D ∧
    n.FailsAt e sp

/-- A folding failure inside call arguments: arguments separated by commas, the last one
failing, as `FoldFailed` reads it. -/
def ArgsFailed (ts : List Token) (e : EvalError) (sp : Span) (r : List Token) : Prop :=
  ∃ args commas n, (∀ a ∈ args, Derives .imp a) ∧ (∀ c ∈ commas, c.kind = .comma) ∧
    commas.length + 1 = args.length ∧ Pinned ts (Syn.argsYield args commas) n r ∧
    Syn.foldAll args = .error (.fold e sp) ∧ (∃ a ∈ args, n.Occurs a) ∧ n.FailsAt e sp

namespace FoldFailed

variable {l : Level} {ts : List Token} {e : EvalError} {sp : Span} {r : List Token}

theorem node {n : Syn} (hn : Derives l n) (hf : n.FailsAt e sp) (r : List Token) :
    FoldFailed l (n.yield ++ r) e sp r :=
  ⟨n, n, hn, .here n r, hf.fold_eq, .refl, hf⟩

theorem of_foldBinary {op : BinaryOp} {t : Token} {a b : Syn} (hn : Derives l (.binary op t a b))
    (hop : BinaryOp.ofTokenKind? t.kind = some op) {x y : Expr} (ha : a.fold = .ok x)
    (hb : b.fold = .ok y) (h : foldBinary op t x y = .error (.fold e sp)) (r : List Token) :
    FoldFailed l ((Syn.binary op t a b).yield ++ r) e sp r := by
  obtain ⟨x', sx, y', sy, e', rfl, rfl, happ, he⟩ := foldBinary_eq_error_iff.mp h
  cases he
  exact .node hn (.binary hop ha hb happ) r

theorem next (hl : l ≠ .primary) (h : FoldFailed l.next ts e sp r) : FoldFailed l ts e sp r := by
  obtain ⟨D, n, hD, hpin, hfold, hocc, hfail⟩ := h
  exact ⟨D, n, .next hl hD, hpin, hfold, hocc, hfail⟩

theorem paren {lp : Token} (hlp : lp.kind = .leftParen) (h : FoldFailed .imp ts e sp r) :
    FoldFailed .primary (lp :: ts) e sp r := by
  obtain ⟨D, n, hD, hpin, hfold, hocc, hfail⟩ := h
  refine ⟨.paren lp D closeParen, n, .paren hlp hD rfl, ?_, Syn.fold_paren hfold lp _,
    .paren hocc, hfail⟩
  exact (hpin.before [lp]).close rfl

theorem binary_right (hl : l.isInfix = true) {op : BinaryOp} {t : Token}
    (hop : l.infixOp? t.kind = some op) {a : Syn} (ha : Derives l a) {x : Expr}
    (hfa : a.fold = .ok x) (h : FoldFailed l.next ts e sp r) :
    FoldFailed l (a.yield ++ t :: ts) e sp r := by
  obtain ⟨D, n, hD, hpin, hfold, hocc, hfail⟩ := h
  refine ⟨.binary op t a D, n, .binary hl hop ha hD, ?_, Syn.fold_binary_right hfa hfold op t,
    .right hocc, hfail⟩
  simpa [Syn.yield] using hpin.before (a.yield ++ [t])

theorem power_right {t : Token} (hc : t.kind = .caret) {b : Syn} (hb : Derives .primary b)
    {x : Expr} (hfb : b.fold = .ok x) (h : FoldFailed .sign ts e sp r) :
    FoldFailed .exponent (b.yield ++ t :: ts) e sp r := by
  obtain ⟨D, n, hD, hpin, hfold, hocc, hfail⟩ := h
  refine ⟨.binary .power t b D, n, .power hc hb hD, ?_, Syn.fold_binary_right hfb hfold .power t,
    .right hocc, hfail⟩
  simpa [Syn.yield] using hpin.before (b.yield ++ [t])

theorem wrap (hl : l = .not ∨ l = .sign) {ops : List (UnaryOp × Token)}
    (hops : ∀ o ∈ ops, l.prefixOp? o.2.kind = some o.1) (h : FoldFailed l.next ts e sp r) :
    FoldFailed l (ops.map Prod.snd ++ ts) e sp r := by
  obtain ⟨D, n, hD, hpin, hfold, hocc, hfail⟩ := h
  have hl' : l ≠ .primary := by rcases hl with rfl | rfl <;> decide
  refine ⟨D.wrap ops, n, .wrap (.next hl' hD) hops, ?_, Syn.fold_wrap_error hfold ops,
    hocc.wrap ops, hfail⟩
  rw [Syn.yield_wrap]
  exact hpin.before _

theorem call {s : Syn} (hs : Derives .primary s) (hc : s.isChain = true) {x : Expr}
    (hfs : s.fold = .ok x) {lp : Token} (hlp : lp.kind = .leftParen) (h : ArgsFailed ts e sp r) :
    FoldFailed .primary (s.yield ++ lp :: ts) e sp r := by
  obtain ⟨args, commas, n, hargs, hcs, hlen, hpin, hfold, ⟨a, ha, hocc⟩, hfail⟩ := h
  refine ⟨.call s lp args commas closeParen, n, .call hs hc hlp hargs ⟨hcs, .inl hlen⟩ rfl,
    ?_, Syn.fold_call hfs hfold lp _ commas, .arg ha hocc, hfail⟩
  simpa [Syn.yield] using (hpin.before (s.yield ++ [lp])).close (c := closeParen) rfl

end FoldFailed

namespace ArgsFailed

variable {ts : List Token} {e : EvalError} {sp : Span} {r : List Token}

theorem single (h : FoldFailed .imp ts e sp r) : ArgsFailed ts e sp r := by
  obtain ⟨D, n, hD, hpin, hfold, hocc, hfail⟩ := h
  refine ⟨[D], [], n, fun a ha => ?_, fun c hc => (by cases hc), rfl, hpin, ?_,
    ⟨D, by simp, hocc⟩, hfail⟩
  · rw [List.mem_singleton.mp ha]
    exact hD
  · exact Syn.foldAll_head hfold []

theorem cons {A : Syn} (hA : Derives .imp A) {x : Expr} (hfA : A.fold = .ok x) {c : Token}
    (hc : c.kind = .comma) (h : ArgsFailed ts e sp r) : ArgsFailed (A.yield ++ c :: ts) e sp r := by
  obtain ⟨args, commas, n, hargs, hcs, hlen, hpin, hfold, ⟨a, ha, hocc⟩, hfail⟩ := h
  obtain ⟨b, more, rfl⟩ : ∃ b more, args = b :: more := by
    cases args with
    | nil => simp at hlen
    | cons b more => exact ⟨b, more, rfl⟩
  refine ⟨A :: b :: more, c :: commas, n, ?_, ?_, by simp [hlen], ?_,
    Syn.foldAll_tail hfA hfold, ⟨a, List.mem_cons_of_mem A ha, hocc⟩, hfail⟩
  · intro a' ha'
    rcases List.mem_cons.mp ha' with rfl | ha'
    · exact hA
    · exact hargs a' ha'
  · intro c' hc'
    rcases List.mem_cons.mp hc' with rfl | hc'
    · exact hc
    · exact hcs c' hc'
  · simpa [Syn.argsYield] using hpin.before (A.yield ++ [c])

end ArgsFailed

/-! ## Failures of every step of the parser -/

/-- `P` holds of every folding failure an outcome reports, with the tokens it left. -/
def Fails {α : Type} (P : EvalError → Span → List Token → Prop)
    (o : Except ParseError α × List Token) : Prop :=
  ∀ e sp r, o = (.error (.fold e sp), r) → P e sp r

namespace Fails

variable {α β : Type} {P Q : EvalError → Span → List Token → Prop}

theorem ok (a : α) (r : List Token) : Fails P (.ok a, r) :=
  fun _ _ _ h => by cases h

theorem unexpected (found : String) (expected : Expectation) (sp : Span) (r : List Token) :
    Fails P ((Except.error (.unexpected found expected sp) : Except ParseError α), r) := by
  intro e sp' r' h
  cases h

theorem recursionLimit (n : Nat) (sp : Span) (r : List Token) :
    Fails P ((Except.error (.recursionLimit n sp) : Except ParseError α), r) := by
  intro e sp' r' h
  cases h

theorem of_fold {x : Except ParseError α} {r : List Token}
    (h : ∀ e sp, x = .error (.fold e sp) → P e sp r) : Fails P (x, r) := by
  intro e sp r' h'
  obtain ⟨hx, rfl⟩ := Prod.mk.inj h'
  exact h e sp hx

theorem mono {o : Except ParseError α × List Token} (hQ : ∀ e sp r, Q e sp r → P e sp r)
    (h : Fails Q o) : Fails P o :=
  fun e sp r ho => hQ e sp r (h e sp r ho)

theorem andThen {o : Except ParseError α × List Token}
    {k : α → List Token → Except ParseError β × List Token} (ho : Fails P o)
    (hk : ∀ a r, o = (.ok a, r) → Fails P (k a r)) : Fails P (Parse.andThen o k) := by
  intro e sp r' h
  obtain ⟨_ | a, r⟩ := o
  · rw [andThen_error] at h
    obtain ⟨h1, rfl⟩ := Prod.mk.inj h
    cases h1
    exact ho e sp _ rfl
  · rw [andThen_ok] at h
    exact hk a r rfl e sp r' h

end Fails

theorem literalValue_map_ne_fold (t : Token) (f : Value → Expr) (e : EvalError) (sp : Span) :
    t.literalValue.map f ≠ .error (.fold e sp) := by
  unfold Token.literalValue
  intro h
  split at h
  · split at h <;> cases h
  · cases h

section Steps

variable {cfg : Limits} {P : EvalError → Span → List Token → Prop}

theorem closeGroup_fails (lp : Token) (inner : Expr) (r : List Token) :
    Fails P (closeGroup cfg lp inner r) := by
  intro e sp r' h
  rcases r with _ | ⟨c, r⟩
  · cases h
  · by_cases hc : c.kind = .rightParen
    · cases inner
      case const v s =>
        simp only [closeGroup, if_pos hc] at h
        cases h
      all_goals
        simp only [closeGroup, if_pos hc, Prod.mk.injEq] at h
        exact absurd h.1 (checkHeight_ne_fold _ _ e sp)
    · simp [closeGroup, if_neg hc] at h

theorem prefixRun_fails (pick : TokenKind → Option UnaryOp) (d : Nat) :
    ∀ (n : Nat) (ts : List Token), Fails P (prefixRun cfg d pick n ts).out
  | n, [] => by
    rw [prefixRun_nil_out]
    exact .ok _ _
  | n, t :: rest => by
    rw [prefixRun_cons_out]
    rcases pick t.kind with _ | op
    · exact .ok _ _
    · simp only
      split
      · exact .recursionLimit _ _ _
      · intro e sp r h
        rcases hrec : (prefixRun cfg d pick (n + 1) rest).out with ⟨_ | ops', r'⟩
        · rw [hrec] at h
          obtain ⟨h1, rfl⟩ := Prod.mk.inj h
          cases h1
          exact prefixRun_fails pick d (n + 1) rest e sp _ hrec
        · rw [hrec] at h
          cases h

end Steps

theorem FoldFailed.unary_node {l : Level} (hl : l = .not ∨ l = .sign) {X : Syn}
    (hX : Derives l.next X) {pre : List (UnaryOp × Token)} {o : UnaryOp × Token}
    {post : List (UnaryOp × Token)}
    (hops : ∀ o' ∈ pre ++ o :: post, l.prefixOp? o'.2.kind = some o'.1) {e : EvalError}
    {sp : Span} (hfail : (Syn.unary o.1 o.2 (X.wrap post)).FailsAt e sp) (r : List Token) :
    FoldFailed l ((pre ++ o :: post).map Prod.snd ++ (X.yield ++ r)) e sp r := by
  have hl' : l ≠ .primary := by rcases hl with rfl | rfl <;> decide
  have hD : X.wrap (pre ++ o :: post) = (Syn.unary o.1 o.2 (X.wrap post)).wrap pre := by
    rw [Syn.wrap_append, Syn.wrap_cons]
  refine ⟨X.wrap (pre ++ o :: post), _, .wrap (.next hl' hX) hops,
    ⟨pre.map Prod.snd, [], ?_, ?_, by simp⟩, ?_, ?_, hfail⟩
  · simp [Syn.yield, Syn.yield_wrap]
  · rw [hD, Syn.yield_wrap]
    simp
  · rw [hD]
    exact Syn.fold_wrap_error hfail.fold_eq pre
  · rw [hD]
    exact Syn.Occurs.refl.wrap pre

variable {cfg : Limits}

theorem fails_steps : Steps (fun d ts => Fails (FoldFailed .imp ts) (expression cfg d ts).out)
    (fun d l ts => Fails (FoldFailed l ts) (level cfg d l ts).out)
    (fun d l acc ts => l.isInfix → ∀ a, Derives l a → a.fold = .ok acc →
      Fails (FoldFailed l (a.yield ++ ts)) (chain cfg d l acc ts).out)
    (fun d n e ts => ∀ s, Derives .primary s → s.isChain = true → s.fold = .ok e →
      Fails (FoldFailed .primary (s.yield ++ ts)) (suffixes cfg d n e ts).out)
    (fun d ts => Fails (ArgsFailed ts) (arguments cfg d ts).out)
    (fun d acc ts => Fails (ArgsFailed ts) (argumentList cfg d acc ts).out) := by
  constructor
  case expression =>
    intro d ts himp
    rw [expression_out]
    split
    · exact .recursionLimit _ _ _
    · exact himp
  case primary_nil =>
    intro d
    rw [level_primary_nil_out]
    exact .unexpected _ _ _ _
  case primary_cons =>
    intro d t rest hexpr hsuffixes
    rw [level_primary_cons_out]
    split
    · exact .of_fold fun e sp h => absurd h (literalValue_map_ne_fold t _ e sp)
    · rename_i hk
      exact hsuffixes (.ident t) (.ident hk) rfl rfl
    · rename_i hk
      exact Fails.andThen (hexpr.mono fun _ _ _ h => .paren hk h)
        fun inner r _ => closeGroup_fails t inner r
    · exact .unexpected _ _ _ _
  case exponent =>
    intro d ts hbase hpower
    rw [level_exponent_out]
    refine Fails.andThen (hbase.mono fun _ _ _ h => .next (by decide) h) fun base r hout => ?_
    obtain ⟨b, hb, hts, hfold, -⟩ := level_sound d .primary ts base r hout
    cases r with
    | nil => exact .ok _ _
    | cons t rest =>
      simp only
      split
      · rename_i hc
        split
        · exact .recursionLimit _ _ _
        · rw [hts]
          refine Fails.andThen
            ((hpower rest (Parsed.tail_lt_of_out hout)).mono fun _ _ _ h => .power_right hc hb hfold h)
            fun power r2 hout2 => .of_fold fun e sp h => ?_
          obtain ⟨p, hp, hrest, hpfold, -⟩ := level_sound (d + 1) .sign rest power r2 hout2
          rw [hrest, show b.yield ++ t :: (p.yield ++ r2) = (Syn.binary .power t b p).yield ++ r2 by
            simp [Syn.yield]]
          exact .of_foldBinary (.power hc hb hp) (by rw [hc]; rfl) hfold hpfold
            (bind_checkHeight_fold h) r2
      · exact .ok _ _
  case prefix_level =>
    intro d l ts hl hoperand
    rw [level_prefix_out cfg d l hl]
    refine Fails.andThen (prefixRun_fails l.prefixOp? d 0 ts) fun ops r hout => ?_
    obtain ⟨hts, hops, -⟩ := prefixRun_sound l.prefixOp? d 0 ts ops r hout
    rw [hts]
    refine Fails.andThen
      ((hoperand r (Parsed.rest_le_of_out hout)).mono fun _ _ _ h => .wrap hl hops h)
      fun x r2 hout2 => .of_fold fun e sp h => ?_
    obtain ⟨X, hX, hr, hxfold, -⟩ := level_sound d l.next r x r2 hout2
    obtain ⟨pre, o, post, e', sp', rfl, he, hfail⟩ :=
      applyPrefixOps_eq_error hxfold hops (bind_checkHeight_fold h)
    cases he
    rw [hr]
    exact .unary_node hl hX hops hfail r2
  case infix_level =>
    intro d l ts hl hfirst hchain
    rw [level_infix_out cfg d l hl]
    have hl' : l ≠ .primary := by rintro rfl; cases hl
    refine Fails.andThen (hfirst.mono fun _ _ _ h => .next hl' h) fun first r hout => ?_
    obtain ⟨a, ha, hts, hfold, -⟩ := level_sound d l.next ts first r hout
    rw [hts]
    exact hchain first r (Parsed.rest_le_of_out hout) hl a (.next hl' ha) hfold
  case chain_nil =>
    intro d l acc hl a ha hfold
    rw [chain_nil_out]
    exact .ok _ _
  case chain_cons =>
    intro d l acc t rest hright hchain hl a ha hfold
    rw [chain_cons_out]
    split
    · exact .ok _ _
    · rename_i op hop
      refine Fails.andThen (hright.mono fun _ _ _ h => .binary_right hl hop ha hfold h)
        fun right r hout => ?_
      obtain ⟨b, hb, hrest, hbfold, -⟩ := level_sound d l.next rest right r hout
      rw [show a.yield ++ t :: rest = (Syn.binary op t a b).yield ++ r by simp [Syn.yield, hrest]]
      refine Fails.andThen (.of_fold fun e sp h => ?_) fun acc' r' hout' => ?_
      · exact .of_foldBinary (.binary hl hop ha hb) (Level.infixOp?_level hop).1 hfold hbfold
          (bind_checkHeight_fold h) r
      · obtain ⟨hw, rfl⟩ := Prod.mk.inj hout'
        exact hchain acc' r (Parsed.rest_le_of_out hout) hl (.binary op t a b)
          (.binary hl hop ha hb) (Syn.fold_binary_ok hfold hbfold (bind_checkHeight_ok hw))
  case suffixes_nil =>
    intro d n e s hs hc hfold
    rw [suffixes_nil_out]
    exact .of_fold fun e sp h => absurd h (checkHeight_ne_fold _ _ e sp)
  case suffixes_cons =>
    intro d n e t rest hargs hsuffixes s hs hc hfold
    rw [suffixes_cons_out]
    split
    · rename_i hsuf
      split
      · exact .recursionLimit _ _ _
      · split
        · rename_i hlp
          refine Fails.andThen (hargs.mono fun _ _ _ h => .call hs hc hfold hlp h)
            fun call r hout => ?_
          obtain ⟨args, commas, hargs, hcommas, hclose, hrest, hvals⟩ :=
            arguments_sound d rest call r hout
          have h := hsuffixes (n + 1) (.call e call.1 call.2) r (Parsed.rest_le_of_out hout)
            (.call s t args commas call.2) (.call hs hc hlp hargs hcommas hclose) rfl
            (by rw [Syn.fold, hfold, hvals]; rfl)
          rwa [show s.yield ++ t :: rest = (Syn.call s t args commas call.2).yield ++ r by
            simp [Syn.yield, hrest]]
        · rename_i hlp
          have hdot : t.kind = .dot := hsuf.resolve_left hlp
          cases rest with
          | cons m rest' =>
            simp only
            split
            · rename_i hm
              have h := hsuffixes (n + 1) (.member e m) rest' (by simp) (.member s t m)
                (.member hs hc hdot hm) rfl (by rw [Syn.fold, hfold]; rfl)
              rwa [show s.yield ++ t :: m :: rest' = (Syn.member s t m).yield ++ rest' by
                simp [Syn.yield]]
            · exact .unexpected _ _ _ _
          | nil => exact .unexpected _ _ _ _
    · exact .of_fold fun e sp h => absurd h (checkHeight_ne_fold _ _ e sp)
  case arguments =>
    intro d ts hlist
    rw [arguments_out]
    cases ts with
    | cons c rest =>
      simp only
      split
      · exact .ok _ _
      · exact hlist
    | nil => exact hlist
  case argument_list =>
    intro d acc ts harg hmore
    rw [argumentList_out]
    refine Fails.andThen (harg.mono fun _ _ _ h => .single h) fun arg r hout => ?_
    obtain ⟨A, hA, hts, hfold, -⟩ := expression_sound d ts arg r hout
    rcases r with _ | ⟨c, rest⟩
    · exact .unexpected _ _ _ _
    · simp only
      split
      · rename_i hc
        rw [hts]
        exact (hmore (arg :: acc) rest (Parsed.tail_lt_of_out hout)).mono fun _ _ _ h => .cons hA hfold hc h
      · split
        · exact .ok _ _
        · exact .unexpected _ _ _ _

theorem expression_fails (d : Nat) (ts : List Token) :
    Fails (FoldFailed .imp ts) (expression cfg d ts).out :=
  fails_steps.expression_holds d ts

end Parse

theorem Expr.parse_fold_out {src : String} {cfg : Limits} {e : EvalError} {sp : Span}
    (h : Expr.parse src cfg = .error (.fold e sp)) :
    ∃ ts r, Token.scanAll src = .ok ts ∧
      (Expr.parseTokens cfg ts).out = (.error (.fold e sp), r) := by
  rcases Expr.parse_eq_error_iff.mp h with
    ⟨_, -, hlex⟩ | ⟨ts, r, hts, hout | ⟨_, _, _, -, -, -, hafter⟩⟩
  · cases hlex
  · exact ⟨ts, r, hts, hout⟩
  · cases hafter

/-- Folding errors point at the operator that failed. When parsing fails to fold, the tokens
read, grouped as the grammar groups them and with `)` closing what is left open, derive an
expression that folds to the same failure; in it, the node read last is an infix or prefix
operator whose operands fold to constants, the operator fails on their values with the same
error, and the error's span is the operator token's. Conversely, an operator with an operand
that is not a constant never fails to fold. -/
theorem parse_fold_error_at_operator :
    (∀ (src : String) (cfg : Limits) (e : EvalError) (sp : Span),
      Expr.parse src cfg = .error (.fold e sp) →
      ∃ (ts : List Token) (D n : Syn) (pre closers r : List Token),
        Token.scanAll src = .ok ts ∧ Derives .imp D ∧ ts = pre ++ n.yield ++ r ∧
        D.yield = pre ++ n.yield ++ closers ∧ (∀ c ∈ closers, c.kind = .rightParen) ∧
        D.fold = .error (.fold e sp) ∧ n.Occurs D ∧ n.FailsAt e sp) ∧
    (∀ (op : BinaryOp) (t : Token) (x y : Expr) (err : ParseError),
      ((∀ a sa, x ≠ .const a sa) ∨ ∀ b sb, y ≠ .const b sb) →
      Parse.foldBinary op t x y ≠ .error err) ∧
    (∀ (op : UnaryOp) (t : Token) (x : Expr) (err : ParseError), (∀ a sa, x ≠ .const a sa) →
      Parse.foldUnary op t x ≠ .error err) := by
  refine ⟨fun src cfg e sp h => ?_, fun op t x y err hxy hfold => ?_,
    fun op t x err hx hfold => ?_⟩
  · obtain ⟨ts, r, hscan, hout⟩ := Expr.parse_fold_out h
    obtain ⟨D, n, hD, ⟨pre, closers, hts, hyield, hcl⟩, hfold, hocc, hfail⟩ :=
      Parse.expression_fails 0 ts e sp r hout
    exact ⟨ts, D, n, pre, closers, r, hscan, hD, hts, hyield, hcl, hfold, hocc, hfail⟩
  · obtain ⟨a, sa, b, sb, _, rfl, rfl, -⟩ := Parse.foldBinary_eq_error_iff.mp hfold
    rcases hxy with hx | hy
    · exact hx a sa rfl
    · exact hy b sb rfl
  · obtain ⟨a, sa, _, rfl, -⟩ := Parse.foldUnary_eq_error_iff.mp hfold
    exact hx a sa rfl

/-- An integer division by zero inside a prefix operator, a group and a call argument fails at
the `\\` token. -/
theorem division_by_zero_in_call_argument :
    Expr.parse "f(-(7 \\ (2 - 2)))" = .error (.fold .divisionByZero ⟨6, 7⟩) ∧
      ∃ (ts : List Token) (D n : Syn) (pre closers r : List Token),
        Token.scanAll "f(-(7 \\ (2 - 2)))" = .ok ts ∧ Derives .imp D ∧
        ts = pre ++ n.yield ++ r ∧ D.yield = pre ++ n.yield ++ closers ∧
        (∀ c ∈ closers, c.kind = .rightParen) ∧
        D.fold = .error (.fold .divisionByZero ⟨6, 7⟩) ∧ n.Occurs D ∧
        n.FailsAt .divisionByZero ⟨6, 7⟩ := by
  have h : Expr.parse "f(-(7 \\ (2 - 2)))" = .error (.fold .divisionByZero ⟨6, 7⟩) := by cbv
  exact ⟨h, parse_fold_error_at_operator.1 _ _ _ _ h⟩

example : Expr.parse "x / 0" = .ok (.binary .divide ⟨.slash, "/", ⟨2, 3⟩⟩
    (.name ⟨.identifier, "x", ⟨0, 1⟩⟩) (.const (.int 0) ⟨4, 5⟩)) := by
  cbv

example : Expr.parse "1 / (0 * x)" = .ok (.binary .divide ⟨.slash, "/", ⟨2, 3⟩⟩
    (.const (.int 1) ⟨0, 1⟩)
    (.group (.binary .multiply ⟨.star, "*", ⟨7, 8⟩⟩ (.const (.int 0) ⟨5, 6⟩)
      (.name ⟨.identifier, "x", ⟨9, 10⟩⟩)) ⟨4, 11⟩)) := by
  cbv

end ScriptFold
