import Mathlib
import ScriptFold.Proofs.Limits
import ScriptFold.Proofs.ParseSound
/-!
How deep a derivation nests, and what the depth limit does to it.

The parser counts nesting as it goes: a parenthesised expression, a call argument and the
operand of `^` are read one level deeper, and each operator of a prefix run and each call or
member suffix after a name counts one more. Which checks a run makes depends only on the
derivation it reads, so `Syn.Fits D d n s` says that every check made while reading `s` at depth
`d`, `n` operators into a prefix run, passes under the limit `D`.

`Parse.Gated o p r` is an outcome that is `r` when `p` holds and a failure otherwise. On the
tokens of a derivation that folds within the height limit, followed by a token that cannot
continue it, every level is gated by `Fits` (`Derives.readsWithin`, by induction on `Derives`
with the three-part motive of `Parse.Reads`). So a derivation that fits is read as its fold
(`Parse.expression_within`), and a parse that succeeded read a derivation that fits
(`Parse.fits_of_expression`).
-/
namespace ScriptFold

set_option autoImplicit false

/-- The prefix level whose runs an operator belongs to. -/
def UnaryOp.level : UnaryOp → Level
  | .not => .not
  | .negate | .plus => .sign

theorem Level.prefixOp?_level {l : Level} {k : TokenKind} {op : UnaryOp}
    (h : l.prefixOp? k = some op) : op.level = l := by
  rcases Level.prefixOp?_some h with ⟨rfl, -, rfl⟩ | ⟨rfl, -, rfl⟩ | ⟨rfl, -, rfl⟩ <;> rfl

namespace Syn

/-- Is the tree a prefix operator of the run of level `l`? -/
def inRun (l : Level) : Syn → Bool
  | unary op _ _ => op.level == l
  | _ => false

mutual
/-- `Fits D d n s`: reading `s` at nesting depth `d`, with `n` operators of a prefix run before
it, every depth check passes under the limit `D`, in the order the parser makes them. -/
def Fits (D : Nat) : Nat → Nat → Syn → Prop
  | _, _, lit _ => True
  | _, _, ident _ => True
  | d, _, member o _ _ => Fits D d 0 o ∧ d + o.suffixCount < D
  | d, _, call f _ args _ _ => Fits D d 0 f ∧ d + f.suffixCount < D ∧ FitsAll D d args
  | d, _, paren _ e _ => d < D ∧ Fits D (d + 1) 0 e
  | d, n, unary op _ e => d + n < D ∧ Fits D d (if e.inRun op.level then n + 1 else 0) e
  | d, _, binary op _ a b =>
    if op = .power then Fits D d 0 a ∧ d < D ∧ Fits D (d + 1) 0 b
    else Fits D d 0 a ∧ Fits D d 0 b

/-- Call arguments at depth `d`: each is an expression one level deeper. -/
def FitsAll (D d : Nat) : List Syn → Prop
  | [] => True
  | a :: as => (d < D ∧ Fits D (d + 1) 0 a) ∧ FitsAll D d as
end

theorem fits_power {D d n : Nat} {c : Token} {b p : Syn} :
    Fits D d n (binary .power c b p) ↔ Fits D d 0 b ∧ d < D ∧ Fits D (d + 1) 0 p := by
  simp [Fits]

theorem fits_binary {D d n : Nat} {op : BinaryOp} {c : Token} {a b : Syn} (hop : op ≠ .power) :
    Fits D d n (binary op c a b) ↔ Fits D d 0 a ∧ Fits D d 0 b := by
  simp [Fits, hop]

mutual

theorem Fits.mono {D : Nat} : ∀ {d n d' n' : Nat} (s : Syn), s.Fits D d n → d' ≤ d → n' ≤ n →
    s.Fits D d' n'
  | _, _, _, _, lit _, _, _, _ => trivial
  | _, _, _, _, ident _, _, _, _ => trivial
  | _, _, _, _, member o _ _, ⟨ho, hc⟩, hd, _ => ⟨Fits.mono o ho hd (Nat.le_refl 0), by omega⟩
  | _, _, _, _, call f _ args _ _, ⟨hf, hc, ha⟩, hd, _ =>
    ⟨Fits.mono f hf hd (Nat.le_refl 0), by omega, FitsAll.mono args ha hd⟩
  | _, _, _, _, paren _ e _, ⟨hlt, he⟩, hd, _ =>
    ⟨by omega, Fits.mono e he (by omega) (Nat.le_refl 0)⟩
  | _, _, _, _, unary _ _ e, ⟨hlt, he⟩, hd, hn => ⟨by omega, Fits.mono e he hd (by split <;> omega)⟩
  | _, _, _, _, binary op _ a b, h, hd, _ => by
    by_cases hop : op = .power
    · subst hop
      obtain ⟨ha, hlt, hb⟩ := fits_power.mp h
      exact fits_power.mpr ⟨Fits.mono a ha hd (Nat.le_refl 0), by omega,
        Fits.mono b hb (by omega) (Nat.le_refl 0)⟩
    · obtain ⟨ha, hb⟩ := (fits_binary hop).mp h
      exact (fits_binary hop).mpr
        ⟨Fits.mono a ha hd (Nat.le_refl 0), Fits.mono b hb hd (Nat.le_refl 0)⟩

theorem FitsAll.mono {D : Nat} : ∀ {d d' : Nat} (args : List Syn), FitsAll D d args → d' ≤ d →
    FitsAll D d' args
  | _, _, [], _, _ => trivial
  | _, _, a :: as, ⟨⟨hlt, ha⟩, has⟩, hd =>
    ⟨⟨by omega, Fits.mono a ha (by omega) (Nat.le_refl 0)⟩, FitsAll.mono as has hd⟩

end

end Syn

theorem Derives.prefixOp_of_unary {l : Level} {s : Syn} (h : Derives l s) {op : UnaryOp}
    {t : Token} {e : Syn} (hs : s = .unary op t e) : op.level.prefixOp? t.kind = some op := by
  induction h with
  | next _ _ ih => exact ih hs
  | @unary l op' t' e' hop _ _ =>
    cases hs
    rw [Level.prefixOp?_level hop]
    exact hop
  | _ => cases hs

theorem Derives.inRun_eq_false {l : Level} {s : Syn} (hs : Derives l.next s) :
    s.inRun l = false := by
  cases s with
  | unary op t e =>
    obtain ⟨t0, ys, hys, hst⟩ := hs.starts
    cases hys
    have hnone := Parse.prefixOp?_of_starts hst
    have hsome := hs.prefixOp_of_unary rfl
    simp only [Syn.inRun, beq_eq_false_iff_ne]
    rintro rfl
    rw [hnone] at hsome
    cases hsome
  | _ => rfl

namespace Parse

/-! ## Gated outcomes -/

/-- The outcome `o` is `r` when `p` holds, and a failure when it does not. -/
def Gated {α : Type} (o : Except ParseError α × List Token) (p : Prop)
    (r : Except ParseError α × List Token) : Prop :=
  (p → o = r) ∧ (¬p → ∃ err, o.1 = .error err)

namespace Gated

variable {α β : Type} {o r r' : Except ParseError α × List Token} {p q : Prop}

theorem of_eq (h : o = r) : Gated o True r :=
  ⟨fun _ => h, fun h' => absurd trivial h'⟩

theorem of_iff (h : Gated o p r) (hpq : p ↔ q) : Gated o q r :=
  ⟨fun hq => h.1 (hpq.mpr hq), fun hq => h.2 (mt hpq.mp hq)⟩

theorem target (h : Gated o p r) (hr : r = r') : Gated o p r' :=
  hr ▸ h

theorem trans (h : Gated o p r) (h' : Gated r q r') : Gated o (p ∧ q) r' := by
  refine ⟨fun ⟨hp, hq⟩ => (h.1 hp).trans (h'.1 hq), fun hpq => ?_⟩
  by_cases hp : p
  · rw [h.1 hp]
    exact h'.2 fun hq => hpq ⟨hp, hq⟩
  · exact h.2 hp

theorem andThen_fails {k : α → List Token → Except ParseError β × List Token}
    (h : ∃ err, o.1 = .error err) : ∃ err, (Parse.andThen o k).1 = .error err := by
  obtain ⟨err, he⟩ := h
  obtain ⟨x, u⟩ := o
  change x = .error err at he
  subst he
  exact ⟨err, rfl⟩

theorem andThen {a : α} {u : List Token}
    {k : α → List Token → Except ParseError β × List Token} (h : Gated o p (.ok a, u)) :
    Gated (Parse.andThen o k) p (k a u) :=
  ⟨fun hp => by rw [h.1 hp, andThen_ok], fun hp => andThen_fails (h.2 hp)⟩

theorem limit {D m : Nat} {sp : Span} {r₀ : List Token} (h : Gated o p r) :
    Gated (if D ≤ m then (.error (.recursionLimit D sp), r₀) else o) (m < D ∧ p) r := by
  by_cases hm : D ≤ m
  · rw [if_pos hm]
    exact ⟨fun ⟨hlt, _⟩ => absurd hm (Nat.not_le.mpr hlt), fun _ => ⟨_, rfl⟩⟩
  · rw [if_neg hm]
    exact h.of_iff ⟨fun hp => ⟨Nat.lt_of_not_le hm, hp⟩, fun hp => hp.2⟩

end Gated

/-! ## Steps of the parser -/

section Steps

variable {cfg : Limits} {d : Nat}

theorem suffixes_member_gated {dot n : Token} (hdot : dot.kind = .dot) (hn : n.kind = .identifier)
    (c : Nat) (x : Expr) (u : List Token) :
    Gated (suffixes cfg d c x (dot :: n :: u)).out (d + c < cfg.maxDepth)
      (suffixes cfg d (c + 1) (.member x n) u).out := by
  rw [suffixes_cons_out, if_pos (.inr hdot)]
  refine (Gated.limit (Gated.of_eq ?_)).of_iff (iff_of_eq (and_true _))
  rw [if_neg (by rw [hdot]; decide)]
  simp only [hn, if_true]

theorem suffixes_call_gated {lp : Token} (hlp : lp.kind = .leftParen) {c : Nat} {x : Expr}
    {ts u : List Token} {p : Prop} {vs : List Expr} {rp : Token}
    (hargs : Gated (arguments cfg d ts).out p (.ok (vs, rp), u)) :
    Gated (suffixes cfg d c x (lp :: ts)).out (d + c < cfg.maxDepth ∧ p)
      (suffixes cfg d (c + 1) (.call x vs rp) u).out := by
  rw [suffixes_cons_out, if_pos (.inl hlp)]
  refine Gated.limit ?_
  rw [if_pos hlp]
  exact hargs.andThen

theorem prefixed_cons_gated {l : Level} {t : Token} {op : UnaryOp}
    (hop : l.prefixOp? t.kind = some op) (n : Nat) {ts u : List Token} {p : Prop} {x y : Expr}
    (h : Gated (prefixed cfg d l (n + 1) ts) p (.ok x, u)) (hy : foldUnary op t x = .ok y) :
    Gated (prefixed cfg d l n (t :: ts)) (d + n < cfg.maxDepth ∧ p) (.ok y, u) := by
  by_cases hn : d + n < cfg.maxDepth
  · rw [prefixed_cons hop hn]
    refine ⟨fun hp => ?_, fun hp => ?_⟩
    · rw [h.1 hp.2]
      exact congrArg (·, u) hy
    · obtain ⟨err, he⟩ := h.2 fun hp' => hp ⟨hn, hp'⟩
      exact ⟨err, by simp only [he]; rfl⟩
  · refine ⟨fun hp => absurd hp.1 hn, fun _ => ?_⟩
    unfold prefixed
    rw [prefixRun_cons_out, hop]
    simp only [if_pos (Nat.not_lt.mp hn)]
    exact ⟨_, rfl⟩

theorem level_prefixed_gated {l : Level} (hl : l = .not ∨ l = .sign) {ts u : List Token}
    {p : Prop} {y : Expr} (h : Gated (prefixed cfg d l 0 ts) p (.ok y, u))
    (hh : y.height ≤ cfg.maxHeight) : Gated (level cfg d l ts).out p (after cfg d l y u) := by
  rw [level_prefix_eq hl]
  refine h.andThen.target ?_
  rw [checkHeight_of_le hh]
  rcases hl with rfl | rfl <;> rfl

end Steps

/-! ## The motive -/

/-- The parser reads the derivation `s` of level `l`, folded to `y` within the height limit,
exactly when `s` fits under the depth limit, and fails otherwise: a chain through the suffix
loop whatever follows it, a prefix level with its run counted from any `n`, and any level when
a token that cannot continue `s` follows it. -/
def ReadsWithin (cfg : Limits) (l : Level) (s : Syn) : Prop :=
  ∀ y, s.fold = .ok y → y.height ≤ cfg.maxHeight → ∀ d,
    (l = .primary → s.isChain = true → ∀ u,
      Gated (level cfg d .primary (s.yield ++ u)).out (s.Fits cfg.maxDepth d 0)
        (suffixes cfg d s.suffixCount y u).out) ∧
    ((l = .not ∨ l = .sign) → ∀ n t rest, ¬Extends l s t.kind →
      Gated (prefixed cfg d l n (s.yield ++ t :: rest))
        (s.Fits cfg.maxDepth d (if s.inRun l then n else 0)) (.ok y, t :: rest)) ∧
    (∀ t rest, ¬Extends l.stop s t.kind →
      Gated (level cfg d l (s.yield ++ t :: rest)).out (s.Fits cfg.maxDepth d 0)
        (after cfg d l y (t :: rest)))

variable {cfg : Limits}

/-! ## Primaries -/

theorem within_of_chain {s : Syn} (hc : s.isChain = true)
    (h : ∀ y, s.fold = .ok y → y.height ≤ cfg.maxHeight → ∀ d u,
      Gated (level cfg d .primary (s.yield ++ u)).out (s.Fits cfg.maxDepth d 0)
        (suffixes cfg d s.suffixCount y u).out) :
    ReadsWithin cfg .primary s := by
  intro y hy hh d
  refine ⟨fun _ _ => h y hy hh d, fun hl => (by rcases hl with hl | hl <;> cases hl),
    fun t rest hx => ?_⟩
  have hend := Syn.endsWithChain_of_isChain hc
  have hp : t.kind ≠ .leftParen := fun hk => hx (.inr ⟨.inl hk, hend⟩)
  have hd : t.kind ≠ .dot := fun hk => hx (.inr ⟨.inr hk, hend⟩)
  exact (h y hy hh d (t :: rest)).target (by rw [suffixes_stop hp hd hh]; rfl)

theorem within_lit {t : Token} {k : LiteralKind} (hk : t.kind = .literal k) :
    ReadsWithin cfg .primary (.lit t) := by
  intro y hy _ d
  refine ⟨fun _ hc => (by cases hc), fun hl => (by rcases hl with hl | hl <;> cases hl),
    fun t' rest _ => ?_⟩
  change Gated (level cfg d .primary (t :: t' :: rest)).out True _
  rw [level_primary_cons_out, hk]
  exact Gated.of_eq (congrArg (·, t' :: rest) hy)

theorem within_ident {t : Token} (hk : t.kind = .identifier) :
    ReadsWithin cfg .primary (.ident t) :=
  within_of_chain rfl fun y hy _ d u => by
    cases hy
    change Gated (level cfg d .primary (t :: u)).out True _
    rw [level_primary_cons_out, hk]
    exact Gated.of_eq rfl

theorem within_member {o : Syn} {dot n : Token} (hc : o.isChain = true)
    (hdot : dot.kind = .dot) (hn : n.kind = .identifier) (ih : ReadsWithin cfg .primary o) :
    ReadsWithin cfg .primary (.member o dot n) :=
  within_of_chain rfl fun y hy hh d u => by
    obtain ⟨x, hx, rfl⟩ := Except.map_eq_ok.mp hy
    have hxh : x.height ≤ cfg.maxHeight := by
      simp only [Expr.height] at hh
      omega
    rw [show (Syn.member o dot n).yield ++ u = o.yield ++ dot :: n :: u by simp [Syn.yield]]
    exact ((ih x hx hxh d).1 rfl hc (dot :: n :: u)).trans (suffixes_member_gated hdot hn _ x u)

theorem expression_gated {a : Syn} (ih : ReadsWithin cfg .imp a) {y : Expr}
    (hy : a.fold = .ok y) (hh : y.height ≤ cfg.maxHeight) (d : Nat) {t : Token}
    (hx : ¬Extends .imp a t.kind) (rest : List Token) :
    Gated (expression cfg d (a.yield ++ t :: rest)).out
      (d < cfg.maxDepth ∧ a.Fits cfg.maxDepth (d + 1) 0) (.ok y, t :: rest) := by
  rw [expression_out]
  exact (((ih y hy hh (d + 1)).2.2 t rest fun hk => hx (hk.mono (Level.stop_rank_le _))).target
    (after_stop hx y rest)).limit

theorem argumentList_gated {rp : Token} (hrp : rp.kind = .rightParen) {d : Nat}
    (u : List Token) :
    ∀ (args : List Syn) (commas : List Token), (∀ a ∈ args, ReadsWithin cfg .imp a) →
      (∀ c ∈ commas, c.kind = .comma) → commas.length + 1 = args.length →
      ∀ {vs : List Expr}, Syn.foldAll args = .ok vs → (∀ v ∈ vs, v.height ≤ cfg.maxHeight) →
      ∀ acc, Gated (argumentList cfg d acc (Syn.argsYield args commas ++ rp :: u)).out
        (Syn.FitsAll cfg.maxDepth d args) (.ok (acc.reverse ++ vs, rp), u)
  | [], _, _, _, hlen, _, _, _, _ => by simp at hlen
  | [a], [], hargs, _, _, vs, hvs, hh, acc => by
    obtain ⟨v, hv, hrest⟩ := Except.bind_eq_ok.mp hvs
    obtain ⟨vs', hvs', rfl⟩ := Except.map_eq_ok.mp hrest
    cases hvs'
    have h := expression_gated (hargs a (by simp)) hv (hh v (by simp)) d
      (not_extends_close (.inr hrp)) u
    rw [Syn.argsYield, argumentList_out]
    refine (h.andThen.target ?_).of_iff (by simp [Syn.FitsAll])
    simp only [if_neg (show rp.kind ≠ .comma by rw [hrp]; decide), if_pos hrp]
    simp
  | [_], _ :: _, _, _, hlen, _, _, _, _ => by simp at hlen
  | _ :: _ :: _, [], _, _, hlen, _, _, _, _ => by simp at hlen
  | a :: b :: more, c :: cs, hargs, hcs, hlen, vs, hvs, hh, acc => by
    have hc : c.kind = .comma := hcs c (by simp)
    obtain ⟨v, hv, hrest⟩ := Except.bind_eq_ok.mp hvs
    obtain ⟨vs', hvs', rfl⟩ := Except.map_eq_ok.mp hrest
    have hlen' : cs.length + 1 = (b :: more).length := by
      simp only [List.length_cons] at hlen ⊢
      omega
    have h := expression_gated (hargs a (by simp)) hv (hh v (by simp)) d
      (not_extends_close (.inl hc)) (Syn.argsYield (b :: more) cs ++ rp :: u)
    have ih := argumentList_gated hrp (d := d) u (b :: more) cs
      (fun x hx => hargs x (by simp [hx])) (fun x hx => hcs x (by simp [hx])) hlen' hvs'
      (fun x hx => hh x (by simp [hx])) (v :: acc)
    rw [Syn.argsYield, List.append_assoc, List.cons_append, argumentList_out]
    exact h.andThen.trans (by simp only [if_pos hc]; exact ih.target (by simp))

theorem arguments_gated {args : List Syn} {commas : List Token}
    (ha : ∀ a ∈ args, Derives .imp a) (iha : ∀ a ∈ args, ReadsWithin cfg .imp a)
    (hc : Commas args commas) {rp : Token} (hrp : rp.kind = .rightParen) {d : Nat}
    {vs : List Expr} (hvs : Syn.foldAll args = .ok vs) (hh : ∀ v ∈ vs, v.height ≤ cfg.maxHeight)
    (u : List Token) :
    Gated (arguments cfg d (Syn.argsYield args commas ++ rp :: u)).out
      (Syn.FitsAll cfg.maxDepth d args) (.ok (vs, rp), u) := by
  rcases hc with ⟨hcs, hlen | ⟨rfl, rfl⟩⟩
  · obtain ⟨a, more, rfl⟩ : ∃ a more, args = a :: more := by
      cases args with
      | nil => simp at hlen
      | cons a more => exact ⟨a, more, rfl⟩
    have h := argumentList_gated hrp (d := d) u (a :: more) commas iha hcs hlen hvs hh []
    rw [arguments_of_derives (ha a (by simp))]
    exact h.target (by simp)
  · cases hvs
    rw [Syn.argsYield, List.nil_append, arguments_out]
    simp only [if_pos hrp]
    exact Gated.of_eq rfl

theorem within_call {f : Syn} {lp rp : Token} {args : List Syn} {commas : List Token}
    (hc : f.isChain = true) (hlp : lp.kind = .leftParen) (ha : ∀ a ∈ args, Derives .imp a)
    (hcs : Commas args commas) (hrp : rp.kind = .rightParen) (ihf : ReadsWithin cfg .primary f)
    (iha : ∀ a ∈ args, ReadsWithin cfg .imp a) :
    ReadsWithin cfg .primary (.call f lp args commas rp) :=
  within_of_chain rfl fun y hy hh d u => by
    obtain ⟨x, hx, hv⟩ := Except.bind_eq_ok.mp hy
    obtain ⟨vs, hvs, rfl⟩ := Except.map_eq_ok.mp hv
    simp only [Expr.height] at hh
    have hxh : x.height ≤ cfg.maxHeight := by omega
    have hvh : ∀ v ∈ vs, v.height ≤ cfg.maxHeight := fun v hv' => by
      have := Expr.le_heights hv'
      omega
    rw [show (Syn.call f lp args commas rp).yield ++ u =
      f.yield ++ lp :: (Syn.argsYield args commas ++ rp :: u) by simp [Syn.yield]]
    exact ((ihf x hx hxh d).1 rfl hc _).trans
      (suffixes_call_gated hlp (arguments_gated ha iha hcs hrp hvs hvh u))

theorem within_paren {lp rp : Token} {e : Syn} (hlp : lp.kind = .leftParen)
    (hrp : rp.kind = .rightParen) (ih : ReadsWithin cfg .imp e) :
    ReadsWithin cfg .primary (.paren lp e rp) := by
  intro y hy hh d
  refine ⟨fun _ hc => (by cases hc), fun hl => (by rcases hl with hl | hl <;> cases hl),
    fun t rest _ => ?_⟩
  obtain ⟨x, hx, rfl⟩ := Except.map_eq_ok.mp hy
  have hxh : x.height ≤ cfg.maxHeight := Nat.le_trans (Syn.height_le_grouped _ x) hh
  rw [show (Syn.paren lp e rp).yield ++ t :: rest = lp :: (e.yield ++ rp :: t :: rest) by
    simp [Syn.yield], level_primary_cons_out, hlp]
  refine (expression_gated ih hx hxh d (not_extends_close (.inr hrp)) (t :: rest)).andThen.target ?_
  rw [closeGroup_grouped lp hrp hh]
  rfl

/-! ## Operator levels -/

theorem within_next {l : Level} {s : Syn} (hl : l ≠ .primary) (hs : Derives l.next s)
    (ih : ReadsWithin cfg l.next s) : ReadsWithin cfg l s := by
  intro y hy hh d
  have hrank := Level.rank_next hl
  have hnext : ∀ t rest, ¬Extends l.next s t.kind →
      Gated (level cfg d l.next (s.yield ++ t :: rest)).out (s.Fits cfg.maxDepth d 0)
        (.ok y, t :: rest) := fun t rest hx' =>
    ((ih y hy hh d).2.2 t rest fun hk => hx' (hk.mono (Level.stop_rank_le _))).target
      (after_stop hx' y rest)
  have hrun : (l = .not ∨ l = .sign) → ∀ n t rest, ¬Extends l s t.kind →
      Gated (prefixed cfg d l n (s.yield ++ t :: rest))
        (s.Fits cfg.maxDepth d (if s.inRun l then n else 0)) (.ok y, t :: rest) := by
    intro _ n t rest hx
    obtain ⟨t0, ys, hys, hst⟩ := hs.starts
    simp only [hs.inRun_eq_false, Bool.false_eq_true, if_false]
    rw [hys, List.cons_append,
      prefixed_stop (prefixOp?_of_starts hst), ← List.cons_append, ← hys]
    exact hnext t rest fun hk => hx (hk.mono (by omega))
  refine ⟨fun hp => absurd hp hl, hrun, fun t rest hx => ?_⟩
  by_cases hinf : l.isInfix
  · have hx' : ¬Extends l.next s t.kind := by rwa [Level.stop, if_pos hinf] at hx
    rw [level_infix_out cfg d l hinf]
    exact (hnext t rest hx').andThen.target (after_chain hinf y _).symm
  · rw [Level.stop, if_neg hinf] at hx
    rcases Level.exponent_or_unary hl hinf with rfl | hp
    · have hcaret : t.kind ≠ .caret := fun hk => hx (.inl ⟨.power, by rw [hk]; rfl, by decide⟩)
      rw [level_exponent_out]
      refine (hnext t rest fun hk => hx (hk.mono (by decide))).andThen.target ?_
      simp only [if_neg hcaret]
      rfl
    · have h := hrun hp 0 t rest hx
      rw [ite_self] at h
      exact level_prefixed_gated hp h hh

theorem within_power {c : Token} {b p : Syn} (hc : c.kind = .caret)
    (ihb : ReadsWithin cfg .primary b) (ihp : ReadsWithin cfg .sign p) :
    ReadsWithin cfg .exponent (.binary .power c b p) := by
  intro y hy hh d
  refine ⟨fun h => (by cases h), fun h => (by rcases h with h | h <;> cases h),
    fun t rest hx => ?_⟩
  obtain ⟨x, hx1, hr⟩ := Except.bind_eq_ok.mp hy
  obtain ⟨x2, hx2, hxy⟩ := Except.bind_eq_ok.mp hr
  have hge := foldBinary_height_ge hxy
  have hxc : ¬Extends .primary b c.kind :=
    not_extends_of_infixOp (l := .exponent) (by rw [hc]; rfl) (by decide)
  have hxp : ¬Extends .sign p t.kind := fun hk => hx (extends_power hk)
  have h1 := ((ihb x hx1 (by omega) d).2.2 c (p.yield ++ t :: rest) hxc).target
    (after_stop hxc x _)
  have h2 := ((ihp x2 hx2 (by omega) (d + 1)).2.2 t rest hxp).target (after_stop hxp x2 rest)
  rw [show (Syn.binary .power c b p).yield ++ t :: rest = b.yield ++ c :: (p.yield ++ t :: rest) by
    simp [Syn.yield], level_exponent_out]
  refine (h1.andThen.trans ?_).of_iff Syn.fits_power.symm
  simp only [hc, if_true]
  refine Gated.limit (h2.andThen.target ?_)
  rw [hxy]
  change (checkHeight cfg y (t :: rest), t :: rest) = _
  rw [checkHeight_of_le hh]
  rfl

theorem within_unary {l : Level} {op : UnaryOp} {t0 : Token} {e : Syn}
    (hop : l.prefixOp? t0.kind = some op) (ih : ReadsWithin cfg l e) :
    ReadsWithin cfg l (.unary op t0 e) := by
  have hl : l = .not ∨ l = .sign := by
    rcases Level.prefixOp?_some hop with ⟨h, -⟩ | ⟨h, -⟩ | ⟨h, -⟩ <;> simp [h]
  have hlevel : op.level = l := Level.prefixOp?_level hop
  intro y hy hh d
  obtain ⟨x, hx, hu⟩ := Except.bind_eq_ok.mp hy
  have hxh : x.height ≤ cfg.maxHeight := Nat.le_trans (foldUnary_height_ge hu) hh
  have hrun : ∀ n t rest, ¬Extends l (.unary op t0 e) t.kind →
      Gated (prefixed cfg d l n ((Syn.unary op t0 e).yield ++ t :: rest))
        ((Syn.unary op t0 e).Fits cfg.maxDepth d n) (.ok y, t :: rest) := by
    intro n t rest hx'
    have h := (ih x hx hxh d).2.1 hl (n + 1) t rest hx'
    exact (prefixed_cons_gated hop n h hu).of_iff (by simp only [Syn.Fits, hlevel])
  have hin : (Syn.unary op t0 e).inRun l = true := by simp [Syn.inRun, hlevel]
  refine ⟨fun hp => ?_, fun _ n t rest hx' => ?_, fun t rest hx' => ?_⟩
  · rcases hl with rfl | rfl <;> cases hp
  · rw [hin, if_pos rfl]
    exact hrun n t rest hx'
  · have hstop : l.stop = l := by rcases hl with rfl | rfl <;> rfl
    rw [hstop] at hx'
    exact level_prefixed_gated hl (hrun 0 t rest hx') hh

theorem within_binary {l : Level} {op : BinaryOp} {c : Token} {a b : Syn}
    (hinf : l.isInfix = true) (hop : l.infixOp? c.kind = some op)
    (iha : ReadsWithin cfg l a) (ihb : ReadsWithin cfg l.next b) :
    ReadsWithin cfg l (.binary op c a b) := by
  have hrank := Level.rank_next (l := l) (by rintro rfl; cases hinf)
  have hstop : l.stop = l.next := if_pos hinf
  have hpow : op ≠ .power := by
    rintro rfl
    obtain ⟨-, hl⟩ := Level.infixOp?_level hop
    subst hl
    cases hinf
  intro y hy hh d
  refine ⟨fun hp => (by subst hp; cases hinf),
    fun hp => (by rcases hp with rfl | rfl <;> cases hinf), fun t rest hx => ?_⟩
  obtain ⟨x, hx1, hr⟩ := Except.bind_eq_ok.mp hy
  obtain ⟨x2, hx2, hxy⟩ := Except.bind_eq_ok.mp hr
  have hge := foldBinary_height_ge hxy
  rw [hstop] at hx
  have hxc : ¬Extends l.stop a c.kind := by
    rw [hstop]
    exact not_extends_of_infixOp hop (by omega)
  have h1 := (iha x hx1 (by omega) d).2.2 c (b.yield ++ t :: rest) hxc
  have h2 := ((ihb x2 hx2 (by omega) d).2.2 t rest
    fun hk => hx (hk.mono (Level.stop_rank_le _))).target (after_stop hx x2 rest)
  rw [show (Syn.binary op c a b).yield ++ t :: rest = a.yield ++ c :: (b.yield ++ t :: rest) by
    simp [Syn.yield]]
  refine (h1.trans ?_).of_iff (Syn.fits_binary hpow).symm
  rw [after_chain hinf, chain_cons_out, hop]
  refine h2.andThen.target ?_
  simp only [hxy]
  change andThen (checkHeight cfg y (t :: rest), t :: rest) _ = _
  rw [checkHeight_of_le hh, andThen_ok, after_chain hinf]

end Parse

/-! ## The depth limit decides -/

open Parse

variable {cfg : Limits}

theorem Derives.readsWithin {l : Level} {s : Syn} (h : Derives l s) : ReadsWithin cfg l s := by
  induction h with
  | lit hk => exact within_lit hk
  | ident hk => exact within_ident hk
  | member _ hc hdot hn ih => exact within_member hc hdot hn ih
  | call _ hc hlp ha hcs hrp ihf iha => exact within_call hc hlp ha hcs hrp ihf iha
  | paren hlp _ hrp ih => exact within_paren hlp hrp ih
  | next hl hs ih => exact within_next hl hs ih
  | power hc _ _ ihb ihp => exact within_power hc ihb ihp
  | unary hop _ ih => exact within_unary hop ih
  | binary hinf hop _ _ iha ihb => exact within_binary hinf hop iha ihb

theorem Parse.expression_within {s : Syn} (hs : Derives .imp s) {y : Expr} (hy : s.fold = .ok y)
    (hh : y.height ≤ cfg.maxHeight) (d : Nat) {t : Token} (hx : ¬Extends .imp s t.kind)
    (rest : List Token) :
    Gated (expression cfg d (s.yield ++ t :: rest)).out
      (d < cfg.maxDepth ∧ s.Fits cfg.maxDepth (d + 1) 0) (.ok y, t :: rest) :=
  expression_gated hs.readsWithin hy hh d hx rest

theorem Parse.fits_of_expression {d : Nat} {ts : List Token} {e : Expr} {t : Token}
    {rest : List Token} (h : (expression cfg d ts).out = (.ok e, t :: rest)) :
    ∃ s, Derives .imp s ∧ ts = s.yield ++ t :: rest ∧ s.fold = .ok e ∧
      d < cfg.maxDepth ∧ s.Fits cfg.maxDepth (d + 1) 0 := by
  obtain ⟨s, hs, hts, hfold, hstop⟩ := expression_sound d ts e (t :: rest) h
  have hg := expression_within hs hfold (expression_height_le d ts h) d (hstop t rfl) rest
  rw [← hts] at hg
  refine ⟨s, hs, hts, hfold, Classical.byContradiction fun hp => ?_⟩
  obtain ⟨err, herr⟩ := hg.2 hp
  rw [h] at herr
  cases herr

end ScriptFold
