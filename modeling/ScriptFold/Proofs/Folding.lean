import Mathlib
import ScriptFold.Proofs.ParseSteps
import ScriptFold.Syntax.Stream
/-!
Folding is complete and sound on every tree the parser returns.

`Expr.Folded` is the shape the parser keeps: a group, a prefix operator and an infix operator
each stand over a deferred operand, so no operator is ever left over known values. On such a
tree a subtree is a folded constant exactly when it holds no name, member access or call
(`Folded.isFoldable_eq`), and conversely a tree with that property at every subtree is in folded
form (`folded_iff_subtrees`).

Every grammar step keeps the shape: the fold helpers build it from operands that have it, and
the parser's mutually recursive steps hand on only what the helpers built. Main statement:
`parse_folds_exactly`, for every source text and limits, and for every token list.
-/
namespace ScriptFold

set_option autoImplicit false

namespace Expr

mutual
/-- The tree and all trees below it, the root first: operands, grouped contents, member objects,
callees and call arguments. -/
def subtrees : Expr → List Expr
  | e@(.const ..) => [e]
  | e@(.name _) => [e]
  | e@(.member o _) => e :: o.subtrees
  | e@(.call f args _) => e :: (f.subtrees ++ subtreesAll args)
  | e@(.group i _) => e :: i.subtrees
  | e@(.unary _ _ o) => e :: o.subtrees
  | e@(.binary _ _ l r) => e :: (l.subtrees ++ r.subtrees)

/-- The subtrees of each tree of a list. -/
def subtreesAll : List Expr → List Expr
  | [] => []
  | e :: es => e.subtrees ++ subtreesAll es
end

theorem induction_all {P : Expr → Prop}
    (const : ∀ v s, P (.const v s))
    (name : ∀ t, P (.name t))
    (member : ∀ o n, P o → P (.member o n))
    (call : ∀ f args close, P f → (∀ a ∈ args, P a) → P (.call f args close))
    (group : ∀ e s, P e → P (.group e s))
    (unary : ∀ op t e, P e → P (.unary op t e))
    (binary : ∀ op t l r, P l → P r → P (.binary op t l r)) :
    ∀ e, P e := by
  intro e
  refine @Expr.rec P (fun args => ∀ a ∈ args, P a) const name member
    (fun f args close ihf iha => call f args close ihf iha) group unary binary (by simp) ?_ e
  intro a as iha ihas b hb
  rcases List.mem_cons.mp hb with rfl | hb
  · exact iha
  · exact ihas b hb

theorem mem_subtrees_self (e : Expr) : e ∈ e.subtrees := by
  cases e <;> simp [subtrees]

theorem mem_subtreesAll {args : List Expr} {t : Expr} :
    t ∈ subtreesAll args ↔ ∃ a ∈ args, t ∈ a.subtrees := by
  induction args with
  | nil => simp [subtreesAll]
  | cons a as ih => simp [subtreesAll, ih]

/-- The folded form: no group, prefix operator or infix operator stands over known operands
only. -/
inductive Folded : Expr → Prop
  | const (v : Value) (s : Span) : Folded (.const v s)
  | name (t : Token) : Folded (.name t)
  | member {o : Expr} (n : Token) : Folded o → Folded (.member o n)
  | call {f : Expr} {args : List Expr} (close : Token) :
      Folded f → (∀ a ∈ args, Folded a) → Folded (.call f args close)
  | group {e : Expr} (s : Span) : Folded e → e.folded? = none → Folded (.group e s)
  | unary {e : Expr} (op : UnaryOp) (t : Token) :
      Folded e → e.folded? = none → Folded (.unary op t e)
  | binary {l r : Expr} (op : BinaryOp) (t : Token) :
      Folded l → Folded r → (l.folded? = none ∨ r.folded? = none) → Folded (.binary op t l r)

@[simp] theorem folded?_const (v : Value) (s : Span) : (Expr.const v s).folded? = some v := rfl

@[simp] theorem folded?_group (e : Expr) (s : Span) : (Expr.group e s).folded? = none := rfl

@[simp] theorem folded?_unary (op : UnaryOp) (t : Token) (e : Expr) :
    (Expr.unary op t e).folded? = none := rfl

@[simp] theorem folded?_binary (op : BinaryOp) (t : Token) (l r : Expr) :
    (Expr.binary op t l r).folded? = none := rfl

theorem Folded.isFoldable_eq {e : Expr} (h : e.Folded) : e.isFoldable = e.folded?.isSome := by
  induction h with
  | const => rfl
  | name => rfl
  | member => rfl
  | call => rfl
  | group s _ hnone ih => simp [isFoldable, ih, hnone]
  | unary op t _ hnone ih => simp [isFoldable, ih, hnone]
  | binary op t _ _ hnone ihl ihr =>
    rcases hnone with h | h <;> simp [isFoldable, ihl, ihr, h]

theorem Folded.of_mem_subtrees {e t : Expr} (h : e.Folded) (ht : t ∈ e.subtrees) : t.Folded := by
  induction h with
  | const v s =>
    simp only [subtrees, List.mem_singleton] at ht
    exact ht ▸ .const v s
  | name n =>
    simp only [subtrees, List.mem_singleton] at ht
    exact ht ▸ .name n
  | member n ho ih =>
    rcases List.mem_cons.mp ht with rfl | ht
    · exact .member n ho
    · exact ih ht
  | call close hf hargs ihf ihargs =>
    rcases List.mem_cons.mp ht with rfl | ht
    · exact .call close hf hargs
    rcases List.mem_append.mp ht with ht | ht
    · exact ihf ht
    · obtain ⟨a, ha, hta⟩ := mem_subtreesAll.mp ht
      exact ihargs a ha hta
  | group s he hnone ih =>
    rcases List.mem_cons.mp ht with rfl | ht
    · exact .group s he hnone
    · exact ih ht
  | unary op tok he hnone ih =>
    rcases List.mem_cons.mp ht with rfl | ht
    · exact .unary op tok he hnone
    · exact ih ht
  | binary op tok hl hr hnone ihl ihr =>
    rcases List.mem_cons.mp ht with rfl | ht
    · exact .binary op tok hl hr hnone
    rcases List.mem_append.mp ht with ht | ht
    · exact ihl ht
    · exact ihr ht

theorem folded_iff_subtrees (e : Expr) :
    e.Folded ↔ ∀ t ∈ e.subtrees, t.isFoldable = t.folded?.isSome := by
  constructor
  · intro h t ht
    exact (h.of_mem_subtrees ht).isFoldable_eq
  · induction e using induction_all with
    | const v s => intro _; exact .const v s
    | name t => intro _; exact .name t
    | member o n ih =>
      intro h
      exact .member n (ih fun t ht => h t (List.mem_cons_of_mem _ ht))
    | call f args close ihf iha =>
      intro h
      refine .call close (ihf fun t ht => h t ?_) fun a ha => iha a ha fun t ht => h t ?_
      · exact List.mem_cons_of_mem _ (List.mem_append_left _ ht)
      · exact List.mem_cons_of_mem _ (List.mem_append_right _ (mem_subtreesAll.mpr ⟨a, ha, ht⟩))
    | group e s ih =>
      intro h
      have hroot := h _ (mem_subtrees_self _)
      have hin := h e (List.mem_cons_of_mem _ (mem_subtrees_self e))
      refine .group s (ih fun t ht => h t (List.mem_cons_of_mem _ ht)) ?_
      simp only [isFoldable, folded?, Option.isSome_none] at hroot
      rw [hroot] at hin
      exact Option.not_isSome_iff_eq_none.mp (by simp [hin])
    | unary op tok e ih =>
      intro h
      have hroot := h _ (mem_subtrees_self _)
      have hin := h e (List.mem_cons_of_mem _ (mem_subtrees_self e))
      refine .unary op tok (ih fun t ht => h t (List.mem_cons_of_mem _ ht)) ?_
      simp only [isFoldable, folded?, Option.isSome_none] at hroot
      rw [hroot] at hin
      exact Option.not_isSome_iff_eq_none.mp (by simp [hin])
    | binary op tok l r ihl ihr =>
      intro h
      have hroot := h _ (mem_subtrees_self _)
      have hl := h l (List.mem_cons_of_mem _ (List.mem_append_left _ (mem_subtrees_self l)))
      have hr := h r (List.mem_cons_of_mem _ (List.mem_append_right _ (mem_subtrees_self r)))
      refine .binary op tok (ihl fun t ht => h t ?_) (ihr fun t ht => h t ?_) ?_
      · exact List.mem_cons_of_mem _ (List.mem_append_left _ ht)
      · exact List.mem_cons_of_mem _ (List.mem_append_right _ ht)
      · simp only [isFoldable, folded?, Option.isSome_none, Bool.and_eq_false_iff] at hroot
        rcases hroot with h0 | h0
        · rw [h0] at hl
          exact .inl (Option.not_isSome_iff_eq_none.mp (by simp [hl]))
        · rw [h0] at hr
          exact .inr (Option.not_isSome_iff_eq_none.mp (by simp [hr]))

end Expr

namespace Parse

variable {cfg : Limits}

/-! ## The fold helpers keep the folded form -/

theorem foldBinary_folded {op : BinaryOp} {t : Token} {l r e : Expr} (hl : l.Folded)
    (hr : r.Folded) (h : foldBinary op t l r = .ok e) : e.Folded := by
  rcases foldBinary_eq_ok_iff.mp h with ⟨_, _, _, _, v, -, -, -, rfl⟩ | ⟨hdef, rfl⟩
  · exact .const v _
  · exact .binary op t hl hr hdef

theorem foldUnary_folded {op : UnaryOp} {t : Token} {e e' : Expr} (he : e.Folded)
    (h : foldUnary op t e = .ok e') : e'.Folded := by
  rcases foldUnary_eq_ok_iff.mp h with ⟨_, _, v, -, -, rfl⟩ | ⟨hdef, rfl⟩
  · exact .const v _
  · exact .unary op t he hdef

theorem applyPrefixOps_cons (o : UnaryOp × Token) (ops : List (UnaryOp × Token)) (e : Expr) :
    applyPrefixOps (o :: ops) e = (applyPrefixOps ops e).bind (foldUnary o.1 o.2) := rfl

theorem applyPrefixOps_folded (ops : List (UnaryOp × Token)) {e e' : Expr} (he : e.Folded)
    (h : applyPrefixOps ops e = .ok e') : e'.Folded := by
  induction ops generalizing e' with
  | nil =>
    cases h
    exact he
  | cons o ops ih =>
    rw [applyPrefixOps_cons] at h
    rcases hrest : applyPrefixOps ops e with _ | a
    · rw [hrest] at h; cases h
    · rw [hrest] at h
      exact foldUnary_folded (ih hrest) h

theorem closeGroup_folded (lp : Token) {inner : Expr} (hi : inner.Folded) (r : List Token) :
    Yields Expr.Folded (closeGroup cfg lp inner r) := by
  rcases r with _ | ⟨c, r⟩
  · exact .error _ _
  · by_cases hc : c.kind = .rightParen
    · cases inner with
      | const v s =>
        simp only [closeGroup, hc, if_true]
        exact .ok (.const _ _) _
      | _ =>
        simp only [closeGroup, hc, if_true]
        exact .of_except (fun a ha => checkHeight_ok ha ▸ .group _ hi rfl) _
    · simp only [closeGroup, hc, if_false]
      exact .error _ _

/-! ## Every step of the parser keeps it -/

theorem folded_steps : Steps (fun d ts => Yields Expr.Folded (expression cfg d ts).out)
    (fun d l ts => Yields Expr.Folded (level cfg d l ts).out)
    (fun d l acc ts => acc.Folded → Yields Expr.Folded (chain cfg d l acc ts).out)
    (fun d n e ts => e.Folded → Yields Expr.Folded (suffixes cfg d n e ts).out)
    (fun d ts => Yields (fun call => ∀ a ∈ call.1, a.Folded) (arguments cfg d ts).out)
    (fun d acc ts => (∀ a ∈ acc, a.Folded) →
      Yields (fun call => ∀ a ∈ call.1, a.Folded) (argumentList cfg d acc ts).out) := by
  constructor
  case expression =>
    intro d ts himp
    rw [expression_out]
    split
    · exact .error _ _
    · exact himp
  case primary_nil =>
    intro d
    rw [level_primary_nil_out]
    exact .error _ _
  case primary_cons =>
    intro d t rest hexpr hsuffixes
    rw [level_primary_cons_out]
    split
    · refine .of_except (fun a ha => ?_) rest
      rcases hv : t.literalValue with _ | v <;> rw [hv] at ha <;> cases ha
      exact .const _ _
    · exact hsuffixes (.name t)
    · exact hexpr.andThen fun inner r hi _ => closeGroup_folded t hi r
    · exact .error _ _
  case exponent =>
    intro d ts hbase hpower
    rw [level_exponent_out]
    refine hbase.andThen fun base r hb hout => ?_
    cases r with
    | nil => exact .ok hb _
    | cons t rest =>
      simp only
      split
      · split
        · exact .error _ _
        · refine (hpower rest (Parsed.tail_lt_of_out hout)).andThen
            fun power r2 hp _ => ?_
          refine .of_except (fun a ha => ?_) r2
          exact foldBinary_folded hb hp (bind_checkHeight_ok ha)
      · exact .ok hb _
  case prefix_level =>
    intro d l ts hl hoperand
    rw [level_prefix_out cfg d l hl]
    refine Yields.andThen (P := fun _ => True) (fun _ _ => trivial) fun ops r _ hout => ?_
    refine (hoperand r (Parsed.rest_le_of_out hout)).andThen fun operand r2 ho _ => ?_
    refine .of_except (fun a ha => ?_) r2
    exact applyPrefixOps_folded ops ho (bind_checkHeight_ok ha)
  case infix_level =>
    intro d l ts hl hfirst hchain
    rw [level_infix_out cfg d l hl]
    refine hfirst.andThen fun first r hf hout => ?_
    exact hchain first r (Parsed.rest_le_of_out hout) hf
  case chain_nil =>
    intro d l acc hacc
    rw [chain_nil_out]
    exact .ok hacc _
  case chain_cons =>
    intro d l acc t rest hright hchain hacc
    rw [chain_cons_out]
    split
    · exact .ok hacc _
    · refine hright.andThen fun right r hr hout => ?_
      refine Yields.andThen (P := Expr.Folded) (fun a ha => ?_) fun e r' he hout' => ?_
      · exact foldBinary_folded hacc hr (bind_checkHeight_ok ha)
      · cases congrArg Prod.snd hout'
        exact hchain e r (Parsed.rest_le_of_out hout) he
  case suffixes_nil =>
    intro d n e he
    rw [suffixes_nil_out]
    exact .of_except (fun a ha => checkHeight_ok ha ▸ he) _
  case suffixes_cons =>
    intro d n e t rest hargs hsuffixes he
    rw [suffixes_cons_out]
    split
    · split
      · exact .error _ _
      · split
        · refine hargs.andThen fun call r hcall hout => ?_
          exact hsuffixes (n + 1) _ r (Parsed.rest_le_of_out hout) (.call call.2 he hcall)
        · cases rest with
          | cons m rest' =>
            simp only
            split
            · exact hsuffixes (n + 1) _ rest' (by simp) (.member m he)
            · exact .error _ _
          | nil => exact .error _ _
    · exact .of_except (fun a ha => checkHeight_ok ha ▸ he) _
  case arguments =>
    intro d ts hlist
    rw [arguments_out]
    cases ts with
    | cons c rest =>
      simp only
      split
      · exact .ok (fun a ha => by cases ha) _
      · exact hlist (fun a ha => by cases ha)
    | nil => exact hlist (fun a ha => by cases ha)
  case argument_list =>
    intro d acc ts harg hmore hacc
    rw [argumentList_out]
    refine harg.andThen fun arg r ha hout => ?_
    have hall : ∀ a ∈ arg :: acc, a.Folded := by
      intro a hmem
      rcases List.mem_cons.mp hmem with rfl | hmem
      · exact ha
      · exact hacc a hmem
    cases r with
    | cons c rest =>
      simp only
      split
      · exact hmore (arg :: acc) rest (Parsed.tail_lt_of_out hout) hall
      · split
        · exact .ok (fun a hmem => hall a (List.mem_reverse.mp hmem)) _
        · exact .error _ _
    | nil => exact .error _ _

theorem expression_folded (d : Nat) (ts : List Token) :
    Yields Expr.Folded (expression cfg d ts).out :=
  folded_steps.expression_holds d ts

end Parse

theorem Expr.parse_ok_tokens {src : String} {cfg : Limits} {e : Expr}
    (h : Expr.parse src cfg = .ok e) : ∃ ts, (Expr.parseTokens cfg ts).result = .ok e := by
  obtain ⟨ts, _, -, hout, -⟩ := Expr.parse_eq_ok_iff.mp h
  exact ⟨ts, congrArg Prod.fst hout⟩

/-- Folding is complete and sound: every tree the parser returns, from source text with any
limits or from any tokens, is in folded form, and at each of its subtrees the tree is a
folded constant exactly when it holds no name, member access or call. -/
theorem parse_folds_exactly :
    (∀ (src : String) (cfg : Limits) (e : Expr), Expr.parse src cfg = .ok e →
      e.Folded ∧ ∀ t ∈ e.subtrees, t.isFoldable = t.folded?.isSome) ∧
    (∀ (cfg : Limits) (ts : List Token) (e : Expr), (Expr.parseTokens cfg ts).result = .ok e →
      e.Folded ∧ ∀ t ∈ e.subtrees, t.isFoldable = t.folded?.isSome) ∧
    (∀ (s : TokenStream) (e : Expr), s.parseExpr.1 = .ok e →
      e.Folded ∧ ∀ t ∈ e.subtrees, t.isFoldable = t.folded?.isSome) := by
  have tokens : ∀ (cfg : Limits) (ts : List Token) (e : Expr),
      (Expr.parseTokens cfg ts).result = .ok e →
      e.Folded ∧ ∀ t ∈ e.subtrees, t.isFoldable = t.folded?.isSome := by
    intro cfg ts e h
    have he : e.Folded := @Parse.expression_folded cfg 0 ts e h
    exact ⟨he, (Expr.folded_iff_subtrees e).mp he⟩
  refine ⟨fun src cfg e h => ?_, tokens, fun s e h => tokens {} s.remaining e h⟩
  obtain ⟨ts, hts⟩ := Expr.parse_ok_tokens h
  exact tokens cfg ts e hts

/-- `(a)`: the group over a name is kept, and neither it nor the name is a constant. -/
theorem parse_folds_exactly_group :
    (Expr.parseTokens {} [⟨.leftParen, "(", ⟨0, 1⟩⟩, ⟨.identifier, "a", ⟨1, 2⟩⟩,
        ⟨.rightParen, ")", ⟨2, 3⟩⟩, Token.eof 3]).result =
      .ok (.group (.name ⟨.identifier, "a", ⟨1, 2⟩⟩) ⟨0, 3⟩) ∧
    (Expr.group (.name ⟨.identifier, "a", ⟨1, 2⟩⟩) ⟨0, 3⟩).Folded ∧
    ∀ t ∈ (Expr.group (.name ⟨.identifier, "a", ⟨1, 2⟩⟩) ⟨0, 3⟩).subtrees,
      t.isFoldable = t.folded?.isSome := by
  have hname : (Parse.level {} 2 .primary [⟨.identifier, "a", ⟨1, 2⟩⟩, ⟨.rightParen, ")", ⟨2, 3⟩⟩,
      Token.eof 3]).out = (.ok (.name ⟨.identifier, "a", ⟨1, 2⟩⟩), [⟨.rightParen, ")", ⟨2, 3⟩⟩, Token.eof 3]) := by
    rw [Parse.level_primary_cons_out]
    simp [Parse.suffixes_cons_out, Parse.checkHeight, Expr.height]
  have hinner : (Parse.expression {} 1 [⟨.identifier, "a", ⟨1, 2⟩⟩, ⟨.rightParen, ")", ⟨2, 3⟩⟩,
      Token.eof 3]).out = (.ok (.name ⟨.identifier, "a", ⟨1, 2⟩⟩), [⟨.rightParen, ")", ⟨2, 3⟩⟩, Token.eof 3]) := by
    rw [Parse.expression_out, if_neg (by decide)]
    exact Parse.level_of_primary hname (fun t ht => by cases ht; rfl) (by decide) .imp
  have hgroup : (Parse.level {} 1 .primary [⟨.leftParen, "(", ⟨0, 1⟩⟩, ⟨.identifier, "a", ⟨1, 2⟩⟩,
      ⟨.rightParen, ")", ⟨2, 3⟩⟩, Token.eof 3]).out =
      (.ok (.group (.name ⟨.identifier, "a", ⟨1, 2⟩⟩) ⟨0, 3⟩), [Token.eof 3]) := by
    rw [Parse.level_primary_cons_out]
    simp [hinner, Parse.closeGroup, Parse.checkHeight, Expr.height, Span.cover]
  have h : (Expr.parseTokens {} [⟨.leftParen, "(", ⟨0, 1⟩⟩, ⟨.identifier, "a", ⟨1, 2⟩⟩,
      ⟨.rightParen, ")", ⟨2, 3⟩⟩, Token.eof 3]).out =
      (.ok (.group (.name ⟨.identifier, "a", ⟨1, 2⟩⟩) ⟨0, 3⟩), [Token.eof 3]) := by
    rw [Expr.parseTokens, Parse.expression_out, if_neg (by decide)]
    exact Parse.level_of_primary hgroup (fun t ht => by cases ht; rfl) (by decide) .imp
  exact ⟨congrArg Prod.fst h, parse_folds_exactly.2.1 {} _ _ (congrArg Prod.fst h)⟩

end ScriptFold
