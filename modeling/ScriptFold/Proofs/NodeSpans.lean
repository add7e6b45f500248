import Mathlib
import ScriptFold.Proofs.Shift
import ScriptFold.Proofs.Sentences
import ScriptFold.Proofs.PrintBack
/-!
# Node spans

Every node of a parsed tree carries the span of the text it stands for, folded constants
included. This module shows the spans are faithful (`parse_node_spans_faithful`): cutting a
node's span out of the source and parsing the cut on its own gives the node back, moved to the
start of the cut, and the children of every node lie inside its span, one after another.

The proof reads the tree through the derivation the parser followed. A folded derivation whose
tokens are in source order spans them from the first to the last, with every node nested
(`Derives.fold_spans`); every node is the fold of a derivation whose tokens stand together inside
the whole one and which is read no shallower (`Derives.hasNode`). The cut of such a run of tokens
scans to the run moved back (`Token.scanAll_extract`), and the moved derivation parses as it did
in place (`Parse.expression_within`).
-/
namespace ScriptFold

set_option autoImplicit false

/-! ## Children and spans of trees -/

namespace Expr

/-- The trees right below the root, in source order. -/
def children : Expr → List Expr
  | .const .. | .name _ => []
  | .member o _ => [o]
  | .call f args _ => f :: args
  | .group e _ => [e]
  | .unary _ _ e => [e]
  | .binary _ _ l r => [l, r]

theorem subtrees_eq (e : Expr) : e.subtrees = e :: subtreesAll e.children := by
  cases e <;> simp [subtrees, subtreesAll, children]

theorem mem_subtrees {e n : Expr} (h : n ∈ e.subtrees) :
    n = e ∨ ∃ c ∈ e.children, n ∈ c.subtrees := by
  rw [subtrees_eq, List.mem_cons, mem_subtreesAll] at h
  exact h

end Expr

/-- The span `a` lies within the span `b`. -/
def Span.Within (a b : Span) : Prop :=
  b.start ≤ a.start ∧ a.stop ≤ b.stop

/-- Each child of the tree lies within it, and the children follow one another in source order
without overlapping. -/
def Expr.SpansNest (n : Expr) : Prop :=
  (∀ c ∈ n.children, c.span.Within n.span) ∧
    n.children.Pairwise fun a b => a.span.stop ≤ b.span.start

namespace Token

/-- Tokens in source order: each ends where it starts or later, and before the next one
starts. -/
def InOrder (ts : List Token) : Prop :=
  (∀ t ∈ ts, t.span.start ≤ t.span.stop) ∧ ts.Pairwise fun a b => a.span.stop ≤ b.span.start

/-- From the start of the first token to the end of the last. -/
def runSpan (ts : List Token) : Span :=
  ⟨(ts.head?.map (·.span.start)).getD 0, (ts.getLast?.map (·.span.stop)).getD 0⟩

theorem InOrder.sublist {ts us : List Token} (h : InOrder ts) (hs : List.Sublist us ts) :
    InOrder us :=
  ⟨fun t ht => h.1 t (hs.subset ht), h.2.sublist hs⟩

theorem InOrder.of_isInfix {ts us : List Token} (h : InOrder ts) (hs : us <:+: ts) : InOrder us :=
  h.sublist hs.sublist

theorem runSpan_start {ts : List Token} {t : Token} (h : ts.head? = some t) :
    (runSpan ts).start = t.span.start := by
  simp [runSpan, h]

theorem runSpan_stop {ts : List Token} {t : Token} (h : ts.getLast? = some t) :
    (runSpan ts).stop = t.span.stop := by
  simp [runSpan, h]

@[simp] theorem runSpan_singleton (t : Token) : runSpan [t] = t.span := rfl

theorem InOrder.within_runSpan {ts : List Token} (h : InOrder ts) {t : Token} (ht : t ∈ ts) :
    t.span.Within (runSpan ts) := by
  constructor
  · obtain ⟨a, rest, rfl⟩ := List.exists_cons_of_ne_nil (List.ne_nil_of_mem ht)
    rw [runSpan_start rfl]
    rcases List.mem_cons.mp ht with rfl | ht'
    · exact Nat.le_refl _
    · exact Nat.le_trans (h.1 a List.mem_cons_self) (List.rel_of_pairwise_cons h.2 ht')
  · obtain ⟨init, z, rfl⟩ := List.eq_nil_or_concat ts |>.resolve_left (List.ne_nil_of_mem ht)
    rw [List.concat_eq_append] at h ht ⊢
    rw [runSpan_stop List.getLast?_concat]
    rcases List.mem_append.mp ht with ht' | ht'
    · have hp := List.pairwise_append.mp h.2
      exact Nat.le_trans (hp.2.2 t ht' z List.mem_cons_self) (h.1 z (by simp))
    · rw [List.mem_singleton.mp ht']

theorem runSpan_start_head {ts : List Token} (h : ts ≠ []) :
    (runSpan ts).start = (ts.head h).span.start :=
  runSpan_start (List.head?_eq_some_head h)

theorem runSpan_stop_getLast {ts : List Token} (h : ts ≠ []) :
    (runSpan ts).stop = (ts.getLast h).span.stop :=
  runSpan_stop (List.getLast?_eq_some_getLast h)

theorem InOrder.runSpan_within {ts us : List Token} (h : InOrder ts) (hs : us <:+: ts)
    (hne : us ≠ []) : (runSpan us).Within (runSpan ts) := by
  have hhead := h.within_runSpan (hs.subset (List.head_mem hne))
  have hlast := h.within_runSpan (hs.subset (List.getLast_mem hne))
  rw [Span.Within, runSpan_start_head hne, runSpan_stop_getLast hne]
  exact ⟨hhead.1, hlast.2⟩

theorem InOrder.before {A B : List Token} (h : InOrder (A ++ B)) {x y : Token} (hx : x ∈ A)
    (hy : y ∈ B) : x.span.stop ≤ y.span.start :=
  (List.pairwise_append.mp h.2).2.2 x hx y hy

theorem InOrder.runSpan_cover {A M B : List Token} (h : InOrder (A ++ M ++ B)) (hA : A ≠ [])
    (hB : B ≠ []) : (runSpan A).cover (runSpan B) = runSpan (A ++ M ++ B) := by
  have hAM : A ++ M ≠ [] := by simp [hA]
  have hstart : (runSpan (A ++ M ++ B)).start = (A.head hA).span.start := by
    rw [runSpan_start_head (by simp [hA]), List.head_append_of_ne_nil hAM,
      List.head_append_of_ne_nil hA]
  have hstop : (runSpan (A ++ M ++ B)).stop = (B.getLast hB).span.stop := by
    rw [runSpan_stop_getLast (by simp [hB]), List.getLast_append_of_ne_nil _ hB]
  have hrun : runSpan (A ++ M ++ B) = ⟨(A.head hA).span.start, (B.getLast hB).span.stop⟩ := by
    rw [← hstart, ← hstop]
  have hhead : A.head hA ∈ A ++ M := List.mem_append_left M (List.head_mem hA)
  have hlastA : A.getLast hA ∈ A ++ M := List.mem_append_left M (List.getLast_mem hA)
  have hlastB : B.getLast hB ∈ A ++ M ++ B := List.mem_append_right _ (List.getLast_mem hB)
  have hfirst := Nat.le_trans (h.1 _ (List.mem_append_left _ hhead))
    (h.before hhead (List.head_mem hB))
  have hlast := Nat.le_trans (h.before hlastA (List.getLast_mem hB)) (h.1 _ hlastB)
  rw [hrun, Span.cover, runSpan_start_head hA, runSpan_start_head hB, runSpan_stop_getLast hA,
    runSpan_stop_getLast hB, Nat.min_eq_left hfirst, Nat.max_eq_right hlast]

theorem InOrder.runSpan_le {A B X Y : List Token} (h : InOrder (A ++ B)) (hX : X ⊆ A)
    (hY : Y ⊆ B) (hXne : X ≠ []) (hYne : Y ≠ []) : (runSpan X).stop ≤ (runSpan Y).start := by
  rw [runSpan_stop_getLast hXne, runSpan_start_head hYne]
  exact h.before (hX (List.getLast_mem hXne)) (hY (List.head_mem hYne))

end Token

/-! ## Spans of folded trees -/

namespace Parse

theorem foldUnary_span {op : UnaryOp} {t : Token} {x e : Expr} (h : foldUnary op t x = .ok e) :
    e.span = t.span.cover x.span := by
  rcases foldUnary_eq_ok_iff.mp h with ⟨_, _, _, rfl, -, rfl⟩ | ⟨-, rfl⟩
  all_goals rfl

theorem foldUnary_children {op : UnaryOp} {t : Token} {x e : Expr}
    (h : foldUnary op t x = .ok e) : e.children = [] ∨ e.children = [x] := by
  rcases foldUnary_eq_ok_iff.mp h with ⟨_, _, _, -, -, rfl⟩ | ⟨-, rfl⟩
  · exact .inl rfl
  · exact .inr rfl

theorem foldBinary_span {op : BinaryOp} {t : Token} {x y e : Expr}
    (h : foldBinary op t x y = .ok e) : e.span = x.span.cover y.span := by
  rcases foldBinary_eq_ok_iff.mp h with ⟨_, _, _, _, _, rfl, rfl, -, rfl⟩ | ⟨-, rfl⟩
  all_goals rfl

theorem foldBinary_children {op : BinaryOp} {t : Token} {x y e : Expr}
    (h : foldBinary op t x y = .ok e) : e.children = [] ∨ e.children = [x, y] := by
  rcases foldBinary_eq_ok_iff.mp h with ⟨_, _, _, _, _, -, -, -, rfl⟩ | ⟨-, rfl⟩
  · exact .inl rfl
  · exact .inr rfl

end Parse

namespace Syn

@[simp] theorem grouped_span (sp : Span) (x : Expr) : (grouped sp x).span = sp := by
  cases x <;> rfl

theorem grouped_children (sp : Span) (x : Expr) :
    (grouped sp x).children = [] ∨ (grouped sp x).children = [x] := by
  cases x <;> simp [grouped, Expr.children]

theorem yield_infix_argsYield {a : Syn} : ∀ {args : List Syn}, a ∈ args → ∀ commas : List Token,
    a.yield <:+: argsYield args commas
  | [], ha, _ => by cases ha
  | [b], ha, _ => by
    obtain rfl := List.mem_singleton.mp ha
    exact List.infix_refl _
  | b :: c :: more, ha, commas => by
    rcases List.mem_cons.mp ha with rfl | ha
    · rcases commas with _ | ⟨d, ds⟩
      · exact List.infix_append [] _ _
      · exact List.infix_append [] _ _
    · rcases commas with _ | ⟨d, ds⟩
      · exact (yield_infix_argsYield ha []).trans List.infix_append_right
      · exact (yield_infix_argsYield ha ds).trans (List.suffix_cons d _ |>.trans
          (List.suffix_append _ _)).isInfix

theorem argsYield_pairwise : ∀ (args : List Syn) (commas : List Token),
    args.Pairwise fun a b => ∃ A B, argsYield args commas = A ++ B ∧ a.yield ⊆ A ∧ b.yield ⊆ B := by
  intro args
  induction args with
  | nil => exact fun _ => .nil
  | cons a rest ih =>
    intro commas
    rcases rest with _ | ⟨b, more⟩
    · exact List.pairwise_singleton _ _
    rcases commas with _ | ⟨c, cs⟩
    · refine List.Pairwise.cons (fun b' hb' => ⟨a.yield, argsYield (b :: more) [], rfl,
        List.Subset.refl _, (yield_infix_argsYield hb' []).subset⟩) ?_
      refine (ih []).imp fun hab => ?_
      obtain ⟨A, B, hAB, hA, hB⟩ := hab
      exact ⟨a.yield ++ A, B, by rw [argsYield, hAB]; simp, fun t ht => by simp [hA ht], hB⟩
    · refine List.Pairwise.cons (fun b' hb' => ⟨a.yield, c :: argsYield (b :: more) cs, rfl,
        List.Subset.refl _, fun t ht => ?_⟩) ?_
      · exact List.mem_cons_of_mem c ((yield_infix_argsYield hb' cs).subset ht)
      · refine (ih cs).imp fun hab => ?_
        obtain ⟨A, B, hAB, hA, hB⟩ := hab
        exact ⟨a.yield ++ c :: A, B, by rw [argsYield, hAB]; simp, fun t ht => by simp [hA ht], hB⟩

theorem foldAll_pairwise {args : List Syn}
    (hq : args.Pairwise fun a b => (Token.runSpan a.yield).stop ≤ (Token.runSpan b.yield).start)
    (hspan : ∀ a ∈ args, ∀ y, a.fold = .ok y → y.span = Token.runSpan a.yield) {xs : List Expr}
    (h : foldAll args = .ok xs) : xs.Pairwise fun x y => x.span.stop ≤ y.span.start := by
  induction args generalizing xs with
  | nil =>
    cases h
    exact .nil
  | cons a as ih =>
    obtain ⟨y, hy, hrest⟩ := Except.bind_eq_ok.mp h
    obtain ⟨ys, hys, rfl⟩ := Except.map_eq_ok.mp hrest
    obtain ⟨ha, has⟩ := List.pairwise_cons.mp hq
    refine List.Pairwise.cons (fun z hz => ?_) (ih has (fun b hb => hspan b (by simp [hb])) hys)
    obtain ⟨b, hb, hbz⟩ := Syn.foldAll_mem hys z hz
    rw [hspan a (by simp) y hy, hspan b (by simp [hb]) z hbz]
    exact ha b hb

end Syn

theorem Derives.yield_ne_nil {l : Level} {s : Syn} (h : Derives l s) : s.yield ≠ [] := by
  obtain ⟨t, rest, hy, -⟩ := h.starts
  rw [hy]
  exact List.cons_ne_nil t rest

theorem Expr.SpansNest.of_children_nil {n : Expr} (h : n.children = []) : n.SpansNest := by
  simp [Expr.SpansNest, h]

theorem Expr.subtrees_of_children {P : Expr → Prop} {e : Expr} (he : P e)
    (hc : ∀ c ∈ e.children, ∀ n ∈ c.subtrees, P n) : ∀ n ∈ e.subtrees, P n := by
  intro n hn
  rcases Expr.mem_subtrees hn with rfl | ⟨c, hc', hn'⟩
  · exact he
  · exact hc c hc' n hn'

theorem Expr.eq_of_mem_single {e x c : Expr} (h : e.children = [] ∨ e.children = [x])
    (hc : c ∈ e.children) : c = x := by
  rcases h with h | h <;> simp_all

theorem Expr.eq_of_mem_pair {e x y c : Expr} (h : e.children = [] ∨ e.children = [x, y])
    (hc : c ∈ e.children) : c = x ∨ c = y := by
  rcases h with h | h <;> simp_all

theorem Expr.nest_of_single {e x : Expr} (hc : e.children = [] ∨ e.children = [x])
    (hw : x.span.Within e.span) (hx : ∀ n ∈ x.subtrees, n.SpansNest) :
    ∀ n ∈ e.subtrees, n.SpansNest := by
  rcases hc with hc | hc
  · exact subtrees_of_children (.of_children_nil hc) (by simp [hc])
  · refine subtrees_of_children ⟨fun c hc' => ?_, by rw [hc]; exact List.pairwise_singleton _ _⟩
      fun c hc' => ?_
    all_goals
      rw [hc, List.mem_singleton] at hc'
      subst hc'
    · exact hw
    · exact hx

theorem Expr.nest_of_pair {e x y : Expr} (hc : e.children = [] ∨ e.children = [x, y])
    (hwx : x.span.Within e.span) (hwy : y.span.Within e.span) (hxy : x.span.stop ≤ y.span.start)
    (hx : ∀ n ∈ x.subtrees, n.SpansNest) (hy : ∀ n ∈ y.subtrees, n.SpansNest) :
    ∀ n ∈ e.subtrees, n.SpansNest := by
  rcases hc with hc | hc
  · exact subtrees_of_children (.of_children_nil hc) (by simp [hc])
  · refine subtrees_of_children ⟨fun c hc' => ?_, ?_⟩ fun c hc' => ?_
    · rw [hc] at hc'
      rcases List.mem_pair.mp hc' with rfl | rfl
      · exact hwx
      · exact hwy
    · rw [hc]
      exact List.pairwise_pair.mpr hxy
    · rw [hc] at hc'
      rcases List.mem_pair.mp hc' with rfl | rfl
      · exact hx
      · exact hy

open Token in
theorem Parse.foldBinary_spans {op : BinaryOp} {t : Token} {a b : Syn} {x y e : Expr}
    (ho : InOrder (a.yield ++ [t] ++ b.yield)) (ha : a.yield ≠ []) (hb : b.yield ≠ [])
    (hxo : InOrder a.yield → x.span = runSpan a.yield ∧ ∀ n ∈ x.subtrees, n.SpansNest)
    (hyo : InOrder b.yield → y.span = runSpan b.yield ∧ ∀ n ∈ y.subtrees, n.SpansNest)
    (h : foldBinary op t x y = .ok e) :
    e.span = runSpan (a.yield ++ [t] ++ b.yield) ∧ ∀ n ∈ e.subtrees, n.SpansNest := by
  have hx := hxo (ho.of_isInfix (List.infix_append_of_infix_left List.infix_append_left))
  have hy := hyo (ho.of_isInfix List.infix_append_right)
  have hspan : e.span = runSpan (a.yield ++ [t] ++ b.yield) := by
    rw [foldBinary_span h, hx.1, hy.1, ho.runSpan_cover ha hb]
  refine ⟨hspan, Expr.nest_of_pair (foldBinary_children h) ?_ ?_ ?_ hx.2 hy.2⟩
  · rw [hspan, hx.1]
    exact ho.runSpan_within (List.infix_append_of_infix_left List.infix_append_left) ha
  · rw [hspan, hy.1]
    exact ho.runSpan_within List.infix_append_right hb
  · rw [hx.1, hy.1]
    exact ho.runSpan_le (List.subset_append_left _ _) (List.Subset.refl _) ha hb

open Token in
theorem Expr.spans_of_single {e x : Expr} {ys zs : List Token} (ho : InOrder zs)
    (hin : ys <:+: zs) (hne : ys ≠ []) (hc : e.children = [] ∨ e.children = [x])
    (hspan : x.span = runSpan ys → e.span = runSpan zs)
    (hxo : InOrder ys → x.span = runSpan ys ∧ ∀ n ∈ x.subtrees, n.SpansNest) :
    e.span = runSpan zs ∧ ∀ n ∈ e.subtrees, n.SpansNest := by
  obtain ⟨hxspan, hxnest⟩ := hxo (ho.of_isInfix hin)
  have he := hspan hxspan
  refine ⟨he, Expr.nest_of_single hc ?_ hxnest⟩
  rw [he, hxspan]
  exact ho.runSpan_within hin hne

open Token in
theorem Expr.call_spans {f : Syn} {lp rp : Token} {args : List Syn} {commas : List Token}
    {x : Expr} {xs : List Expr}
    (ho : InOrder (f.yield ++ (lp :: Syn.argsYield args commas) ++ [rp])) (hf : f.yield ≠ [])
    (hargs : ∀ a ∈ args, a.yield ≠ [])
    (hfo : InOrder f.yield → x.span = runSpan f.yield ∧ ∀ n ∈ x.subtrees, n.SpansNest)
    (hao : ∀ a ∈ args, InOrder a.yield → ∀ y, a.fold = .ok y →
      y.span = runSpan a.yield ∧ ∀ n ∈ y.subtrees, n.SpansNest)
    (hxs : Syn.foldAll args = .ok xs) :
    (Expr.call x xs rp).span = runSpan (f.yield ++ (lp :: Syn.argsYield args commas) ++ [rp]) ∧
      ∀ n ∈ (Expr.call x xs rp).subtrees, n.SpansNest := by
  have hf_in : f.yield <:+: f.yield ++ (lp :: Syn.argsYield args commas) ++ [rp] :=
    List.infix_append_of_infix_left List.infix_append_left
  have hargs_in : Syn.argsYield args commas <:+:
      f.yield ++ (lp :: Syn.argsYield args commas) ++ [rp] :=
    (List.suffix_cons lp _).isInfix.trans (List.infix_append f.yield _ [rp])
  have harg_in : ∀ a ∈ args, a.yield <:+: f.yield ++ (lp :: Syn.argsYield args commas) ++ [rp] :=
    fun a ha => (Syn.yield_infix_argsYield ha commas).trans hargs_in
  obtain ⟨hxspan, hxnest⟩ := hfo (ho.of_isInfix hf_in)
  have harg : ∀ a ∈ args, ∀ y, a.fold = .ok y →
      y.span = runSpan a.yield ∧ ∀ n ∈ y.subtrees, n.SpansNest :=
    fun a ha y hy => hao a ha (ho.of_isInfix (harg_in a ha)) y hy
  have hspan : (Expr.call x xs rp).span =
      runSpan (f.yield ++ (lp :: Syn.argsYield args commas) ++ [rp]) := by
    rw [Expr.span, hxspan, ← runSpan_singleton rp, ho.runSpan_cover hf (List.cons_ne_nil _ _)]
  have ho' : InOrder (f.yield ++ (lp :: Syn.argsYield args commas ++ [rp])) := by
    rwa [← List.append_assoc]
  have hq : args.Pairwise fun a b => (runSpan a.yield).stop ≤ (runSpan b.yield).start := by
    refine (Syn.argsYield_pairwise args commas).imp_of_mem fun ha hb hab => ?_
    obtain ⟨A, B, hAB, hA, hB⟩ := hab
    have hAB' : InOrder (A ++ B) := hAB ▸ ho.of_isInfix hargs_in
    exact hAB'.runSpan_le hA hB (hargs _ ha) (hargs _ hb)
  refine ⟨hspan, Expr.subtrees_of_children ⟨fun c hc => ?_, ?_⟩ fun c hc => ?_⟩
  · rw [hspan]
    rcases List.mem_cons.mp hc with rfl | hc
    · rw [hxspan]
      exact ho.runSpan_within hf_in hf
    · obtain ⟨a, ha, hfa⟩ := Syn.foldAll_mem hxs c hc
      rw [(harg a ha c hfa).1]
      exact ho.runSpan_within (harg_in a ha) (hargs a ha)
  · refine List.Pairwise.cons (fun c hc => ?_)
      (Syn.foldAll_pairwise hq (fun a ha y hy => (harg a ha y hy).1) hxs)
    obtain ⟨a, ha, hfa⟩ := Syn.foldAll_mem hxs c hc
    rw [hxspan, (harg a ha c hfa).1]
    refine ho'.runSpan_le (List.Subset.refl _) (fun t ht => ?_) hf (hargs a ha)
    exact List.mem_append_left _ (List.mem_cons_of_mem lp
      ((Syn.yield_infix_argsYield ha commas).subset ht))
  · rcases List.mem_cons.mp hc with rfl | hc
    · exact hxnest
    · obtain ⟨a, ha, hfa⟩ := Syn.foldAll_mem hxs c hc
      exact (harg a ha c hfa).2

open Token in
theorem Derives.fold_spans {l : Level} {s : Syn} (h : Derives l s) (ho : InOrder s.yield)
    {e : Expr} (he : s.fold = .ok e) :
    e.span = runSpan s.yield ∧ ∀ n ∈ e.subtrees, n.SpansNest := by
  induction h generalizing e with
  | lit =>
    obtain ⟨v, -, rfl⟩ := Except.map_eq_ok.mp he
    exact ⟨rfl, Expr.subtrees_of_children (.of_children_nil rfl) (by simp [Expr.children])⟩
  | ident =>
    cases he
    exact ⟨rfl, Expr.subtrees_of_children (.of_children_nil rfl) (by simp [Expr.children])⟩
  | @member o dot nm hd _ _ _ ih =>
    obtain ⟨x, hx, rfl⟩ := Except.map_eq_ok.mp he
    have hyield : (Syn.member o dot nm).yield = o.yield ++ [dot] ++ [nm] := by simp [Syn.yield]
    rw [hyield] at ho ⊢
    have hin : o.yield <:+: o.yield ++ [dot] ++ [nm] := List.infix_append [] _ _ |>.trans
      (List.prefix_append _ _).isInfix
    refine Expr.spans_of_single ho hin hd.yield_ne_nil (.inr rfl) (fun hxspan => ?_) (ih · hx)
    rw [Expr.span, hxspan, ← runSpan_singleton nm,
      ho.runSpan_cover hd.yield_ne_nil (List.cons_ne_nil _ _)]
  | @call f lp rp args commas hf _ _ hargs _ _ ihf iha =>
    obtain ⟨x, hx, hv⟩ := Except.bind_eq_ok.mp he
    obtain ⟨xs, hxs, rfl⟩ := Except.map_eq_ok.mp hv
    have hyield : (Syn.call f lp args commas rp).yield =
        f.yield ++ (lp :: Syn.argsYield args commas) ++ [rp] := by simp [Syn.yield]
    rw [hyield] at ho ⊢
    exact Expr.call_spans ho hf.yield_ne_nil (fun a ha => (hargs a ha).yield_ne_nil) (ihf · hx)
      (fun a ha hao y hy => iha a ha hao hy) hxs
  | @paren lp rp i _ hi _ ih =>
    obtain ⟨x, hx, rfl⟩ := Except.map_eq_ok.mp he
    have hyield : (Syn.paren lp i rp).yield = [lp] ++ i.yield ++ [rp] := by simp [Syn.yield]
    rw [hyield] at ho ⊢
    refine Expr.spans_of_single ho (List.infix_append _ _ _) hi.yield_ne_nil
      (Syn.grouped_children _ x) (fun hxspan => ?_) (ih · hx)
    rw [Syn.grouped_span, ← runSpan_singleton lp, ← runSpan_singleton rp,
      ho.runSpan_cover (List.cons_ne_nil _ _) (List.cons_ne_nil _ _)]
  | next _ _ ih => exact ih ho he
  | @power t b p _ hb hp ihb ihp =>
    obtain ⟨x, hx, hrest⟩ := Except.bind_eq_ok.mp he
    obtain ⟨y, hy, hxy⟩ := Except.bind_eq_ok.mp hrest
    have hyield : (Syn.binary .power t b p).yield = b.yield ++ [t] ++ p.yield := by simp [Syn.yield]
    rw [hyield] at ho ⊢
    exact Parse.foldBinary_spans ho hb.yield_ne_nil hp.yield_ne_nil (ihb · hx) (ihp · hy) hxy
  | @binary l op t a b _ _ ha hb iha ihb =>
    obtain ⟨x, hx, hrest⟩ := Except.bind_eq_ok.mp he
    obtain ⟨y, hy, hxy⟩ := Except.bind_eq_ok.mp hrest
    have hyield : (Syn.binary op t a b).yield = a.yield ++ [t] ++ b.yield := by simp [Syn.yield]
    rw [hyield] at ho ⊢
    exact Parse.foldBinary_spans ho ha.yield_ne_nil hb.yield_ne_nil (iha · hx) (ihb · hy) hxy
  | @unary l op t o _ hop ih =>
    obtain ⟨x, hx, hu⟩ := Except.bind_eq_ok.mp he
    have hyield : (Syn.unary op t o).yield = [t] ++ [] ++ o.yield := by simp [Syn.yield]
    rw [hyield] at ho ⊢
    refine Expr.spans_of_single ho List.infix_append_right hop.yield_ne_nil
      (Parse.foldUnary_children hu) (fun hxspan => ?_) (ih · hx)
    rw [Parse.foldUnary_span hu, hxspan, ← runSpan_singleton t,
      ho.runSpan_cover (List.cons_ne_nil _ _) hop.yield_ne_nil]

/-! ## Nodes as derivations -/

theorem Expr.induction_children {P : Expr → Prop} (h : ∀ e, (∀ c ∈ e.children, P c) → P e) :
    ∀ e, P e :=
  Expr.induction_all (fun _ _ => h _ (by simp [children])) (fun _ => h _ (by simp [children]))
    (fun _ _ ho => h _ (by simpa [children] using ho))
    (fun _ _ _ hf ha => h _ (by simpa [children] using ⟨hf, ha⟩))
    (fun _ _ he => h _ (by simpa [children] using he))
    (fun _ _ _ he => h _ (by simpa [children] using he))
    (fun _ _ _ _ hl hr => h _ (by simpa [children] using ⟨hl, hr⟩))

namespace Syn

/-- `n` is what a derivation inside `s` folds to: one whose tokens stand together among those
of `s`, and which passes the depth checks when it is read at depth `d` or deeper. -/
def HasNode (D d : Nat) (s : Syn) (n : Expr) : Prop :=
  ∃ l s', Derives l s' ∧ s'.fold = .ok n ∧ s'.yield <:+: s.yield ∧
    ∃ d' k, d ≤ d' ∧ s'.Fits D d' k

theorem HasNode.lift {D d d' : Nat} {s s' : Syn} {n : Expr} (h : HasNode D d' s' n)
    (hs : s'.yield <:+: s.yield) (hd : d ≤ d') : HasNode D d s n := by
  obtain ⟨l, s'', hder, hfold, hin, d'', k, hd', hfits⟩ := h
  exact ⟨l, s'', hder, hfold, hin.trans hs, d'', k, Nat.le_trans hd hd', hfits⟩

theorem FitsAll.of_mem {D d : Nat} {a : Syn} : ∀ {args : List Syn}, FitsAll D d args → a ∈ args →
    d < D ∧ Fits D (d + 1) 0 a
  | b :: _, ⟨hb, _⟩, ha => by
    rcases List.mem_cons.mp ha with rfl | ha
    · exact hb
    · exact FitsAll.of_mem ‹FitsAll D d _› ha

end Syn

open Syn in
theorem Derives.hasNode_child {l : Level} {s : Syn} (h : Derives l s) {e : Expr}
    (he : s.fold = .ok e) {D d k : Nat} (hf : s.Fits D d k) :
    ∀ c ∈ e.children, s.HasNode D d c := by
  induction h generalizing e d k with
  | lit =>
    obtain ⟨v, -, rfl⟩ := Except.map_eq_ok.mp he
    simp [Expr.children]
  | ident =>
    cases he
    simp [Expr.children]
  | @member o dot nm ho _ _ _ _ =>
    obtain ⟨x, hx, rfl⟩ := Except.map_eq_ok.mp he
    intro c hc
    obtain rfl := List.mem_singleton.mp hc
    exact ⟨_, o, ho, hx, List.infix_append [] _ _, d, 0, Nat.le_refl d, hf.1⟩
  | @call f lp rp args commas hfd _ _ hargs _ _ _ _ =>
    obtain ⟨x, hx, hv⟩ := Except.bind_eq_ok.mp he
    obtain ⟨xs, hxs, rfl⟩ := Except.map_eq_ok.mp hv
    intro c hc
    rcases List.mem_cons.mp hc with rfl | hc
    · exact ⟨_, f, hfd, hx, List.infix_append_of_infix_left List.infix_append_left, d,
        0, Nat.le_refl d, hf.1⟩
    · obtain ⟨a, ha, hfa⟩ := Syn.foldAll_mem hxs c hc
      refine ⟨_, a, hargs a ha, hfa, ?_, d + 1, 0, Nat.le_succ d, (FitsAll.of_mem hf.2.2 ha).2⟩
      exact (yield_infix_argsYield ha commas).trans
        ((List.suffix_cons lp _).isInfix.trans (List.infix_append f.yield _ [rp]))
  | @paren lp rp i _ hi _ _ =>
    obtain ⟨x, hx, rfl⟩ := Except.map_eq_ok.mp he
    intro c hc
    obtain rfl := Expr.eq_of_mem_single (Syn.grouped_children _ x) hc
    exact ⟨_, i, hi, hx, List.infix_append [lp] _ [rp], d + 1, 0, Nat.le_succ d, hf.2⟩
  | next _ _ ih => exact ih he hf
  | @power t b p _ hb hp _ _ =>
    obtain ⟨x, hx, hrest⟩ := Except.bind_eq_ok.mp he
    obtain ⟨y, hy, hxy⟩ := Except.bind_eq_ok.mp hrest
    obtain ⟨hfb, -, hfp⟩ := fits_power.mp hf
    intro c hc
    rcases Expr.eq_of_mem_pair (Parse.foldBinary_children hxy) hc with rfl | rfl
    · exact ⟨_, b, hb, hx, List.infix_append [] _ _, d, 0, Nat.le_refl d, hfb⟩
    · exact ⟨_, p, hp, hy, ((List.suffix_cons t _).trans (List.suffix_append _ _)).isInfix,
        d + 1, 0, Nat.le_succ d, hfp⟩
  | @unary l op t o _ ho _ =>
    obtain ⟨x, hx, hu⟩ := Except.bind_eq_ok.mp he
    intro c hc
    obtain rfl := Expr.eq_of_mem_single (Parse.foldUnary_children hu) hc
    exact ⟨_, o, ho, hx, (List.suffix_cons t _).isInfix, d, _, Nat.le_refl d, hf.2⟩
  | @binary l op t a b _ _ ha hb _ _ =>
    obtain ⟨x, hx, hrest⟩ := Except.bind_eq_ok.mp he
    obtain ⟨y, hy, hxy⟩ := Except.bind_eq_ok.mp hrest
    have hfab : Fits D d 0 a ∧ Fits D d 0 b := by
      by_cases hop : op = .power
      · subst hop
        obtain ⟨hfa, -, hfb⟩ := fits_power.mp hf
        exact ⟨hfa, Fits.mono b hfb (Nat.le_succ d) (Nat.le_refl 0)⟩
      · exact (fits_binary hop).mp hf
    intro c hc
    rcases Expr.eq_of_mem_pair (Parse.foldBinary_children hxy) hc with rfl | rfl
    · exact ⟨_, a, ha, hx, List.infix_append [] _ _, d, 0, Nat.le_refl d, hfab.1⟩
    · exact ⟨_, b, hb, hy, ((List.suffix_cons t _).trans (List.suffix_append _ _)).isInfix,
        d, 0, Nat.le_refl d, hfab.2⟩

open Syn in
theorem Derives.hasNode {l : Level} {s : Syn} (h : Derives l s) {e : Expr} (he : s.fold = .ok e)
    {D d k : Nat} (hf : s.Fits D d k) : ∀ n ∈ e.subtrees, s.HasNode D d n := by
  induction e using Expr.induction_children generalizing l s d k with
  | h e ih =>
    intro n hn
    rcases Expr.mem_subtrees hn with rfl | ⟨c, hc, hnc⟩
    · exact ⟨l, s, h, he, List.infix_refl _, d, k, Nat.le_refl d, hf⟩
    · obtain ⟨l', s', h', hfold', hin, d', k', hd, hfits⟩ := h.hasNode_child he hf c hc
      exact (ih c hc h' hfold' hfits n hnc).lift hin hd

/-! ## Heights -/

namespace Expr

theorem height_lt_of_child {e c : Expr} (hc : c ∈ e.children) : c.height < e.height := by
  cases e with
  | const | name => cases hc
  | member o _ | group o _ | unary _ _ o =>
    obtain rfl := List.mem_singleton.mp hc
    simp [height]
  | call f args _ =>
    rcases List.mem_cons.mp hc with rfl | hc
    · simp only [height]
      omega
    · have := Parse.Expr.le_heights hc
      simp only [height]
      omega
  | binary _ _ l r =>
    rcases List.mem_pair.mp hc with rfl | rfl <;> simp only [height] <;> omega

theorem height_le_of_mem_subtrees : ∀ {e n : Expr}, n ∈ e.subtrees → n.height ≤ e.height := by
  intro e
  induction e using induction_children with
  | h e ih =>
    intro n hn
    rcases mem_subtrees hn with rfl | ⟨c, hc, hnc⟩
    · exact Nat.le_refl _
    · exact Nat.le_trans (ih c hc hnc) (Nat.le_of_lt (height_lt_of_child hc))

end Expr

/-! ## The tokens of a text -/

open Scan in
theorem Token.scanAll_inOrder {src : String} {ts : List Token} (h : Token.scanAll src = .ok ts) :
    ∃ body, ts = body ++ [Token.eof src.utf8ByteSize] ∧ Token.InOrder body := by
  obtain ⟨pieces, hcuts, hscan⟩ := scanFrom_cuts 0 src.toList
  have hsize : byteLength src.toList = src.utf8ByteSize := by
    rw [← utf8ByteSize_ofList, String.ofList_toList]
  rw [Nat.zero_add, hsize] at hscan
  have hmap := eq_map_ok_of_mapM h
  rw [Token.scan, hscan] at hmap
  obtain ⟨body, rfl⟩ : ∃ body, ts = body ++ [Token.eof src.utf8ByteSize] := by
    rcases List.eq_nil_or_concat ts with rfl | ⟨body, z, rfl⟩
    · simp at hmap
    · rw [List.concat_eq_append, List.map_append, List.map_singleton] at hmap
      obtain ⟨-, hz⟩ := List.append_inj' hmap rfl
      simp only [List.cons.injEq, Except.ok.injEq, and_true] at hz
      exact ⟨body, by rw [List.concat_eq_append, hz]⟩
  rw [List.map_append, List.map_singleton] at hmap
  have hitems := (List.append_inj' hmap rfl).1
  refine ⟨body, rfl, fun t ht => ?_, ?_⟩
  · have hmem : Except.ok t ∈ pieces.filterMap Prod.fst := by
      rw [hitems]
      exact List.mem_map_of_mem ht
    exact Nat.le_of_lt ((hcuts.lies _ hmem).bounds).2.1
  · have hp := hcuts.pairwise
    rw [hitems, List.pairwise_map] at hp
    exact hp

theorem Expr.parse_of_expression {src : String} {cfg : Limits} {ts : List Token} {t : Token}
    {x : Expr} (hscan : Token.scanAll src = .ok (ts ++ [t])) (ht : t.kind = .eof)
    (h : (Parse.expression cfg 0 (ts ++ [t])).out = (.ok x, [t])) : Expr.parse src cfg = .ok x := by
  unfold Expr.parse Expr.parseTokens
  rw [hscan]
  simp only [Parsed.out, Prod.mk.injEq] at h
  simp [h.1, h.2, ht]

theorem Derives.eof_not_mem {l : Level} {s : Syn} (h : Derives l s) (pos : Nat) :
    Token.eof pos ∉ s.yield :=
  fun hmem => h.kind_ne_eof _ hmem rfl

theorem Expr.parse_reads_derivation {src : String} {cfg : Limits} {e : Expr}
    (h : Expr.parse src cfg = .ok e) :
    ∃ s t rest, Token.scanAll src = .ok (s.yield ++ t :: rest) ∧ Derives .imp s ∧
      s.fold = .ok e ∧ 0 < cfg.maxDepth ∧ s.Fits cfg.maxDepth 1 0 ∧ Token.InOrder s.yield := by
  obtain ⟨ts, r, hts, hout, -⟩ := Expr.parse_eq_ok_iff.mp h
  obtain ⟨body, rfl, hord⟩ := Token.scanAll_inOrder hts
  obtain ⟨s0, hs0, hy0, -, -⟩ := Parse.expression_sound 0 _ e r hout
  obtain ⟨t, rest, rfl⟩ : ∃ t rest, r = t :: rest := by
    rcases r with _ | ⟨t, rest⟩
    · rw [List.append_nil] at hy0
      exact absurd (by rw [← hy0]; exact List.mem_concat_self) (hs0.eof_not_mem _)
    · exact ⟨t, rest, rfl⟩
  obtain ⟨s, hs, hy, hfold, hD, hfits⟩ := Parse.fits_of_expression hout
  refine ⟨s, t, rest, hy ▸ hts, hs, hfold, hD, hfits, ?_⟩
  have hpre : s.yield <+: body ++ [Token.eof src.utf8ByteSize] := ⟨t :: rest, hy.symm⟩
  rcases List.prefix_concat_iff.mp hpre with heq | hpre
  · exact absurd (by rw [heq]; exact List.mem_concat_self) (hs.eof_not_mem _)
  · exact hord.sublist hpre.sublist

/-! ## Every node reads back from its own span -/

/-- Every node of a parsed tree covers the text it was read from: its span, cut out of the source,
parses on its own to the same node moved to the start of the cut, and the spans of its children
lie inside its own, in order and apart. -/
theorem parse_node_spans_faithful (src : String) (cfg : Limits) (e : Expr)
    (h : Expr.parse src cfg = .ok e) :
    ∀ n ∈ e.subtrees,
      Expr.parse (String.Pos.Raw.extract src ⟨n.span.start⟩ ⟨n.span.stop⟩) cfg =
        .ok (n.shift n.span.start) ∧ n.SpansNest := by
  obtain ⟨s, t, rest, hts, hs, hfold, hD, hfits, hsord⟩ := Expr.parse_reads_derivation h
  intro n hn
  refine ⟨?_, (hs.fold_spans hsord hfold).2 n hn⟩
  obtain ⟨l', s', hder, hfold', hin, d', k', hd, hfits'⟩ := hs.hasNode hfold hfits n hn
  have hne := hder.yield_ne_nil
  have hspan := (hder.fold_spans (hsord.of_isInfix hin) hfold').1
  obtain ⟨A, B, hAB⟩ := hin
  have hts' : Token.scanAll src = .ok (A ++ s'.yield ++ (B ++ t :: rest)) := by
    rw [hts, ← hAB]
    simp only [List.append_assoc]
  have hslice := Token.scanAll_extract hts' hne
    (fun u hu => ⟨hder.kind_ne_newline u hu, hder.kind_ne_eof u hu⟩)
  rw [← Token.runSpan_start_head hne, ← Token.runSpan_stop_getLast hne, ← hspan,
    ← Syn.yield_shift] at hslice
  have hx : ¬Extends .imp (s'.shift n.span.start)
      (Token.eof (n.span.stop - n.span.start)).kind :=
    not_extends rfl (by decide : TokenKind.eof ≠ .leftParen) (by decide : TokenKind.eof ≠ .dot)
  have hh : (n.shift n.span.start).height ≤ cfg.maxHeight := by
    rw [Expr.height_shift]
    exact Nat.le_trans (Expr.height_le_of_mem_subtrees hn) (Expr.parse_height_le h)
  have hg := Parse.expression_within ((hder.shift n.span.start).up .imp (Level.rank_le_imp l'))
    (Syn.fold_shift n.span.start s' hfold') hh 0 hx []
  exact Expr.parse_of_expression hslice rfl
    (hg.1 ⟨hD, Syn.Fits.shift _ s' (Syn.Fits.mono s' hfits' hd (Nat.zero_le k'))⟩)

/-- In `(1 + 2) * x` the constant folded from `(1 + 2)` keeps that span, and it reads back from
it, as every other node does from its own. -/
theorem folded_product_nodes_read_back :
    let e := Expr.binary .multiply ⟨.star, "*", ⟨8, 9⟩⟩ (.const (.int 3) ⟨0, 7⟩)
      (.name ⟨.identifier, "x", ⟨10, 11⟩⟩)
    Expr.parse "(1 + 2) * x" = .ok e ∧
      ∀ n ∈ e.subtrees,
        Expr.parse (String.Pos.Raw.extract "(1 + 2) * x" ⟨n.span.start⟩ ⟨n.span.stop⟩) =
          .ok (n.shift n.span.start) ∧ n.SpansNest := by
  intro e
  have h : Expr.parse "(1 + 2) * x" = .ok e := by cbv
  exact ⟨h, parse_node_spans_faithful _ _ e h⟩

end ScriptFold
