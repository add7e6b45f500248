import Mathlib
import ScriptFold.Proofs.Nesting
import ScriptFold.Proofs.ScanSlice
/-!
# Moving trees and derivations

A slice of the source that starts at byte `k` scans to the tokens of the whole text moved back by
`k` bytes (`Token.scanAll_extract`). To read the slice's tokens with the grammar, a derivation
and the tree it folds to are moved the same way: `Syn.shift` and `Expr.shift` move every token
and span, and nothing the grammar or the parser looks at changes. A moved derivation is a
derivation of the same level (`Derives.shift`), passes the same depth checks (`Syn.Fits.shift`)
and folds to the moved tree (`Syn.fold_shift`), since covering spans commutes with moving them
(`Span.cover_shift`).
-/
namespace ScriptFold

set_option autoImplicit false

/-! ## Moving spans -/

theorem Span.cover_shift (k : Nat) (a b : Span) :
    (a.cover b).shift k = (a.shift k).cover (b.shift k) := by
  simp only [Span.cover, Span.shift, Span.mk.injEq]
  omega

@[simp] theorem Token.kind_shift (k : Nat) (t : Token) : (t.shift k).kind = t.kind := rfl

@[simp] theorem Token.span_shift (k : Nat) (t : Token) : (t.shift k).span = t.span.shift k := rfl

theorem Token.literalValue_shift {k : Nat} {t : Token} {v : Value} (h : t.literalValue = .ok v) :
    (t.shift k).literalValue = .ok v := by
  unfold Token.literalValue at h ⊢
  simp only [Token.kind_shift]
  split at h
  · split at h
    · rename_i hread
      simp only [Token.shift, hread]
      exact h
    · cases h
  · cases h

/-! ## Moving trees -/

namespace Expr

mutual
/-- The tree with every span and token moved back by `k` bytes. -/
def shift (k : Nat) : Expr → Expr
  | .const v s => .const v (s.shift k)
  | .name t => .name (t.shift k)
  | .member o n => .member (o.shift k) (n.shift k)
  | .call f args close => .call (f.shift k) (shiftAll k args) (close.shift k)
  | .group e s => .group (e.shift k) (s.shift k)
  | .unary op t e => .unary op (t.shift k) (e.shift k)
  | .binary op t l r => .binary op (t.shift k) (l.shift k) (r.shift k)

/-- Each tree of a list moved back by `k` bytes. -/
def shiftAll (k : Nat) : List Expr → List Expr
  | [] => []
  | e :: es => e.shift k :: shiftAll k es
end

theorem shiftAll_eq_map (k : Nat) (es : List Expr) : shiftAll k es = es.map (shift k) := by
  induction es with
  | nil => rfl
  | cons e es ih => rw [shiftAll, ih, List.map_cons]

theorem span_shift (k : Nat) : ∀ e : Expr, (e.shift k).span = e.span.shift k
  | .const .. | .name _ | .group .. => rfl
  | .member o n => by simp only [shift, span, span_shift k o, Span.cover_shift]; rfl
  | .call f _ close => by simp only [shift, span, span_shift k f, Span.cover_shift]; rfl
  | .unary _ t e => by simp only [shift, span, span_shift k e, Span.cover_shift]; rfl
  | .binary _ _ l r => by simp only [shift, span, span_shift k l, span_shift k r, Span.cover_shift]

@[simp] theorem folded?_shift (k : Nat) (e : Expr) : (e.shift k).folded? = e.folded? := by
  cases e <;> rfl

mutual
@[simp] theorem height_shift (k : Nat) : ∀ e : Expr, (e.shift k).height = e.height
  | .const .. | .name _ => rfl
  | .member o _ => by simp only [shift, height, height_shift k o]
  | .call f args _ => by simp only [shift, height, height_shift k f, heights_shift k args]
  | .group e _ => by simp only [shift, height, height_shift k e]
  | .unary _ _ e => by simp only [shift, height, height_shift k e]
  | .binary _ _ l r => by simp only [shift, height, height_shift k l, height_shift k r]

@[simp] theorem heights_shift (k : Nat) : ∀ es : List Expr, heights (shiftAll k es) = heights es
  | [] => rfl
  | e :: es => by simp only [shiftAll, heights, height_shift k e, heights_shift k es]
end

end Expr

namespace Parse

theorem foldUnary_shift {op : UnaryOp} {t : Token} {x e : Expr} (k : Nat)
    (h : foldUnary op t x = .ok e) : foldUnary op (t.shift k) (x.shift k) = .ok (e.shift k) := by
  rw [foldUnary_eq_ok_iff]
  rcases foldUnary_eq_ok_iff.mp h with ⟨a, sa, v, rfl, hv, rfl⟩ | ⟨hdef, rfl⟩
  · exact .inl ⟨a, _, v, rfl, hv, by simp [Expr.shift, Span.cover_shift]⟩
  · exact .inr ⟨by rw [Expr.folded?_shift, hdef], rfl⟩

theorem foldBinary_shift {op : BinaryOp} {t : Token} {x y e : Expr} (k : Nat)
    (h : foldBinary op t x y = .ok e) :
    foldBinary op (t.shift k) (x.shift k) (y.shift k) = .ok (e.shift k) := by
  rw [foldBinary_eq_ok_iff]
  rcases foldBinary_eq_ok_iff.mp h with ⟨a, sa, b, sb, v, rfl, rfl, hv, rfl⟩ | ⟨hdef, rfl⟩
  · exact .inl ⟨a, _, b, _, v, rfl, rfl, hv, by simp [Expr.shift, Span.cover_shift]⟩
  · exact .inr ⟨by simpa only [Expr.folded?_shift] using hdef, rfl⟩

end Parse

namespace Syn

theorem grouped_shift (k : Nat) (sp : Span) (x : Expr) :
    grouped (sp.shift k) (x.shift k) = (grouped sp x).shift k := by
  cases x <;> rfl

mutual
/-- The derivation with every token moved back by `k` bytes. -/
def shift (k : Nat) : Syn → Syn
  | lit t => lit (t.shift k)
  | ident t => ident (t.shift k)
  | member o dot n => member (o.shift k) (dot.shift k) (n.shift k)
  | call f lp args commas rp =>
    call (f.shift k) (lp.shift k) (shiftAll k args) (commas.map (Token.shift k)) (rp.shift k)
  | paren lp e rp => paren (lp.shift k) (e.shift k) (rp.shift k)
  | unary op t e => unary op (t.shift k) (e.shift k)
  | binary op t l r => binary op (t.shift k) (l.shift k) (r.shift k)

/-- Each derivation of a list moved back by `k` bytes. -/
def shiftAll (k : Nat) : List Syn → List Syn
  | [] => []
  | a :: as => a.shift k :: shiftAll k as
end

mutual
theorem yield_shift (k : Nat) : ∀ s : Syn, (s.shift k).yield = s.yield.map (Token.shift k)
  | lit _ | ident _ => rfl
  | member o _ _ => by simp [shift, yield, yield_shift k o]
  | call f _ args commas _ => by simp [shift, yield, yield_shift k f, argsYield_shift k args commas]
  | paren _ e _ => by simp [shift, yield, yield_shift k e]
  | unary _ _ e => by simp [shift, yield, yield_shift k e]
  | binary _ _ l r => by simp [shift, yield, yield_shift k l, yield_shift k r]

theorem argsYield_shift (k : Nat) : ∀ (args : List Syn) (commas : List Token),
    argsYield (shiftAll k args) (commas.map (Token.shift k)) =
      (argsYield args commas).map (Token.shift k)
  | [], _ => rfl
  | [a], _ => by simp [shiftAll, argsYield, yield_shift k a]
  | a :: b :: more, c :: cs => by
    simp [shiftAll, argsYield, yield_shift k a, ← argsYield_shift k (b :: more) cs]
  | a :: b :: more, [] => by
    simp [shiftAll, argsYield, yield_shift k a, ← argsYield_shift k (b :: more) []]
end

@[simp] theorem isChain_shift (k : Nat) (s : Syn) : (s.shift k).isChain = s.isChain := by
  cases s <;> rfl

@[simp] theorem suffixCount_shift (k : Nat) : ∀ s : Syn, (s.shift k).suffixCount = s.suffixCount
  | lit _ | ident _ | paren .. | unary .. | binary .. => rfl
  | member o _ _ => by simp only [shift, suffixCount, suffixCount_shift k o]
  | call f .. => by simp only [shift, suffixCount, suffixCount_shift k f]

@[simp] theorem inRun_shift (k : Nat) (l : Level) (s : Syn) : (s.shift k).inRun l = s.inRun l := by
  cases s <;> rfl

theorem shiftAll_eq_map (k : Nat) (args : List Syn) : shiftAll k args = args.map (shift k) := by
  induction args with
  | nil => rfl
  | cons a as ih => rw [shiftAll, ih, List.map_cons]

mutual
theorem fold_shift (k : Nat) : ∀ (s : Syn) {e : Expr}, s.fold = .ok e →
    (s.shift k).fold = .ok (e.shift k)
  | lit t, e, h => by
    obtain ⟨v, hv, rfl⟩ := Except.map_eq_ok.mp h
    simp only [shift, fold, Token.literalValue_shift hv]
    rfl
  | ident t, e, h => by
    cases h
    rfl
  | member o _ n, e, h => by
    obtain ⟨x, hx, rfl⟩ := Except.map_eq_ok.mp h
    simp only [shift, fold, fold_shift k o hx]
    rfl
  | call f _ args _ rp, e, h => by
    obtain ⟨x, hx, hv⟩ := Except.bind_eq_ok.mp h
    obtain ⟨xs, hxs, rfl⟩ := Except.map_eq_ok.mp hv
    simp only [shift, fold, fold_shift k f hx, foldAll_shift k args hxs]
    rfl
  | paren lp i rp, e, h => by
    obtain ⟨x, hx, rfl⟩ := Except.map_eq_ok.mp h
    simp only [shift, fold, fold_shift k i hx, Token.span_shift, ← Span.cover_shift]
    exact congrArg Except.ok (grouped_shift k _ x)
  | unary op t o, e, h => by
    obtain ⟨x, hx, hu⟩ := Except.bind_eq_ok.mp h
    simp only [shift, fold, fold_shift k o hx]
    exact Parse.foldUnary_shift k hu
  | binary op t l r, e, h => by
    obtain ⟨x, hx, hb⟩ := Except.bind_eq_ok.mp h
    obtain ⟨y, hy, hxy⟩ := Except.bind_eq_ok.mp hb
    simp only [shift, fold, fold_shift k l hx, fold_shift k r hy]
    exact Parse.foldBinary_shift k hxy

theorem foldAll_shift (k : Nat) : ∀ (args : List Syn) {es : List Expr}, foldAll args = .ok es →
    foldAll (shiftAll k args) = .ok (Expr.shiftAll k es)
  | [], es, h => by
    cases h
    rfl
  | a :: as, es, h => by
    obtain ⟨x, hx, hv⟩ := Except.bind_eq_ok.mp h
    obtain ⟨xs, hxs, rfl⟩ := Except.map_eq_ok.mp hv
    simp only [shiftAll, foldAll, fold_shift k a hx, foldAll_shift k as hxs]
    rfl
end

mutual
theorem Fits.shift {D : Nat} (k : Nat) : ∀ {d n : Nat} (s : Syn), s.Fits D d n →
    (s.shift k).Fits D d n
  | _, _, lit _, _ => trivial
  | _, _, ident _, _ => trivial
  | _, _, member o _ _, ⟨ho, hc⟩ => ⟨Fits.shift k o ho, by simpa using hc⟩
  | _, _, call f _ args _ _, ⟨hf, hc, ha⟩ =>
    ⟨Fits.shift k f hf, by simpa using hc, FitsAll.shift k args ha⟩
  | _, _, paren _ e _, ⟨hlt, he⟩ => ⟨hlt, Fits.shift k e he⟩
  | _, _, unary op _ e, ⟨hlt, he⟩ => ⟨hlt, by simpa using Fits.shift k e he⟩
  | _, _, binary op _ a b, h => by
    by_cases hop : op = .power
    · subst hop
      obtain ⟨ha, hlt, hb⟩ := fits_power.mp h
      exact fits_power.mpr ⟨Fits.shift k a ha, hlt, Fits.shift k b hb⟩
    · obtain ⟨ha, hb⟩ := (fits_binary hop).mp h
      exact (fits_binary hop).mpr ⟨Fits.shift k a ha, Fits.shift k b hb⟩

theorem FitsAll.shift {D : Nat} (k : Nat) : ∀ {d : Nat} (args : List Syn), FitsAll D d args →
    FitsAll D d (shiftAll k args)
  | _, [], _ => trivial
  | _, a :: as, ⟨⟨hlt, ha⟩, has⟩ => ⟨⟨hlt, Fits.shift k a ha⟩, FitsAll.shift k as has⟩
end

end Syn

theorem Commas.shift {args : List Syn} {commas : List Token} (h : Commas args commas) (k : Nat) :
    Commas (Syn.shiftAll k args) (commas.map (Token.shift k)) := by
  obtain ⟨hc, hlen⟩ := h
  refine ⟨fun c hc' => ?_, ?_⟩
  · obtain ⟨c', hc'', rfl⟩ := List.mem_map.mp hc'
    exact hc c' hc''
  · rcases hlen with hlen | ⟨rfl, rfl⟩
    · exact .inl (by simpa [Syn.shiftAll_eq_map] using hlen)
    · exact .inr ⟨rfl, rfl⟩

theorem Derives.shift {l : Level} {s : Syn} (h : Derives l s) (k : Nat) :
    Derives l (s.shift k) := by
  induction h with
  | lit hk => exact .lit hk
  | ident hk => exact .ident hk
  | member _ hc hdot hn ih => exact .member ih (by simpa using hc) hdot hn
  | call _ hc hlp _ hcs hrp ihf iha =>
    refine .call ihf (by simpa using hc) hlp (fun a ha => ?_) (hcs.shift k) hrp
    rw [Syn.shiftAll_eq_map] at ha
    obtain ⟨a', ha', rfl⟩ := List.mem_map.mp ha
    exact iha a' ha'
  | paren hlp _ hrp ih => exact .paren hlp ih hrp
  | next hl _ ih => exact .next hl ih
  | power hc _ _ ihb ihp => exact .power hc ihb ihp
  | unary hop _ ih => exact .unary hop ih
  | binary hinf hop _ _ iha ihb => exact .binary hinf hop iha ihb

end ScriptFold
