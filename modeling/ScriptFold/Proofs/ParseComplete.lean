import Mathlib
import ScriptFold.Proofs.Grammar
/-!
Completeness of the parser for the grammar. On the tokens of a derivation followed by a token
that cannot continue it, every level returns the folded derivation and stops at that token; a
fold that fails is the parser's error. The limits must leave room: nesting as deep as the
derivation has tokens, and a tree as tall as that.

The induction is on `Derives`, with the motive `Parse.Reads`: what the parser does on a
derivation depends on the level it is read at, so the motive says it for a chain followed by
anything, for a prefix run counted from any point, and for a derivation followed by a token
that stops it.
-/
namespace ScriptFold

set_option autoImplicit false

namespace Parse

/-! ## Outcomes that continue a result -/

/-- `o` is `x` continued by `k`: `k a` when `x` is the value `a`, and `x`'s failure otherwise. -/
def Follows {α β : Type} (o : Except ParseError β × List Token) (x : Except ParseError α)
    (k : α → Except ParseError β × List Token) : Prop :=
  match x with
  | .ok a => o = k a
  | .error e => o.1 = .error e

namespace Follows

variable {α β γ : Type} {o : Except ParseError β × List Token} {x : Except ParseError α}

theorem ok_iff {a : α} {k : α → Except ParseError β × List Token} :
    Follows o (.ok a) k ↔ o = k a := Iff.rfl

theorem self (x : Except ParseError α) (r : List Token) : Follows (x, r) x fun a => (.ok a, r) := by
  cases x <;> rfl

theorem congr {k k' : α → Except ParseError β × List Token} (h : Follows o x k)
    (hk : ∀ a, x = .ok a → k a = k' a) : Follows o x k' := by
  cases x with
  | ok a => exact h.trans (hk a rfl)
  | error e => exact h

theorem andThen {δ : Type} {r : List Token} {g : α → δ}
    {k : δ → List Token → Except ParseError γ × List Token} {o : Except ParseError δ × List Token}
    (h : Follows o x fun a => (.ok (g a), r)) : Follows (Parse.andThen o k) x fun a => k (g a) r := by
  cases x with
  | ok a =>
    rw [ok_iff] at h ⊢
    rw [h, andThen_ok]
  | error e =>
    obtain ⟨y, r'⟩ := o
    change y = .error e at h
    subst h
    rfl

theorem bind {k : α → Except ParseError β × List Token} {f : α → Except ParseError γ}
    {k' : γ → Except ParseError β × List Token} (h : Follows o x k)
    (hf : ∀ a, x = .ok a → Follows (k a) (f a) k') : Follows o (x.bind f) k' := by
  cases x with
  | ok a =>
    rw [ok_iff] at h
    rw [h]
    exact hf a rfl
  | error e => exact h

theorem map {k : α → Except ParseError β × List Token} {f : α → γ}
    {k' : γ → Except ParseError β × List Token} (h : Follows o x k)
    (hf : ∀ a, x = .ok a → k a = k' (f a)) : Follows o (x.map f) k' := by
  cases x with
  | ok a => exact h.trans (hf a rfl)
  | error e => exact h

theorem bind_result {o : Except ParseError α × List Token} {r : List Token}
    {f : α → Except ParseError γ} (h : Follows o x fun a => (.ok a, r)) :
    Follows (o.1.bind f, o.2) (x.bind f) fun a => (.ok a, r) := by
  cases x with
  | ok a =>
    rw [ok_iff] at h
    rw [h]
    exact self (f a) r
  | error e =>
    change o.1 = .error e at h
    change o.1.bind f = .error e
    rw [h]
    rfl

theorem fst {o : Except ParseError α × List Token} {r : List Token}
    (h : Follows o x fun a => (.ok a, r)) : o.1 = x := by
  cases x with
  | ok a =>
    rw [ok_iff] at h
    rw [h]
  | error e => exact h

end Follows

variable {cfg : Limits}

theorem Follows.checked {x : Except ParseError Expr} {r r' : List Token}
    (hx : ∀ e, x = .ok e → e.height ≤ cfg.maxHeight) :
    Follows (x.bind (checkHeight cfg · r'), r) x fun e => (.ok e, r) := by
  cases x with
  | ok e =>
    rw [Follows.ok_iff]
    change (checkHeight cfg e r', r) = _
    rw [checkHeight_of_le (hx e rfl)]
  | error e => rfl

theorem andThen_assoc {α β γ : Type} (o : Except ParseError α × List Token)
    (f : α → List Token → Except ParseError β × List Token)
    (g : β → List Token → Except ParseError γ × List Token) :
    andThen (andThen o f) g = andThen o fun a r => andThen (f a r) g := by
  obtain ⟨_ | a, r⟩ := o <;> rfl

theorem Follows.operand {o : Except ParseError Expr × List Token} {y : Except ParseError Expr}
    {r : List Token} (h : Follows o y fun e => (.ok e, r)) {f : Expr → Except ParseError Expr}
    (hf : ∀ e w, y = .ok e → f e = .ok w → w.height ≤ cfg.maxHeight) :
    Follows (Parse.andThen o fun e r' => ((f e).bind (checkHeight cfg · r'), r')) (y.bind f)
      fun w => (.ok w, r) :=
  h.andThen.bind fun e he => Follows.checked fun w hw => hf e w he hw

/-! ## The motive -/

/-- Room for a derivation at depth `d`: a level of nesting for each of its tokens, and a tree as
tall as it has tokens. -/
def Room (cfg : Limits) (d : Nat) (s : Syn) : Prop :=
  d + s.yield.length ≤ cfg.maxDepth ∧ s.yield.length ≤ cfg.maxHeight

theorem Room.mono {d d' : Nat} {s s' : Syn} (h : Room cfg d s)
    (hs : d' + s'.yield.length ≤ d + s.yield.length) (hs' : s'.yield.length ≤ s.yield.length) :
    Room cfg d' s' :=
  ⟨Nat.le_trans hs h.1, Nat.le_trans hs' h.2⟩

/-- What a level does after a complete operand: a left-associative level goes on with its
chain, the others stop. -/
def after (cfg : Limits) (d : Nat) (l : Level) (e : Expr) (u : List Token) :
    Except ParseError Expr × List Token :=
  if l.isInfix then (chain cfg d l e u).out else (.ok e, u)

/-- A prefix level before its height check, its run of operators counted from `n`. -/
def prefixed (cfg : Limits) (d : Nat) (l : Level) (n : Nat) (ts : List Token) :
    Except ParseError Expr × List Token :=
  andThen (prefixRun cfg d l.prefixOp? n ts).out fun ops r =>
    andThen (level cfg d l.next r).out fun x r2 => (applyPrefixOps ops x, r2)

/-- The parser reads the derivation `s` of level `l`: a chain through the suffix loop whatever
follows it, a prefix level with its run counted from any `n`, and any level when `s` is
followed by a token that cannot continue it. -/
def Reads (cfg : Limits) (l : Level) (s : Syn) : Prop :=
  ∀ d, Room cfg d s →
    (l = .primary → s.isChain = true → ∀ u,
      Follows (level cfg d .primary (s.yield ++ u)).out s.fold
        fun e => (suffixes cfg d s.suffixCount e u).out) ∧
    ((l = .not ∨ l = .sign) → ∀ n t rest, d + n + s.yield.length ≤ cfg.maxDepth →
      ¬Extends l s t.kind →
      Follows (prefixed cfg d l n (s.yield ++ t :: rest)) s.fold fun e => (.ok e, t :: rest)) ∧
    (∀ t rest, ¬Extends l.stop s t.kind →
      Follows (level cfg d l (s.yield ++ t :: rest)).out s.fold
        fun e => after cfg d l e (t :: rest))

/-! ## Steps of the parser -/

section Steps

variable {d : Nat}

theorem after_chain {l : Level} (h : l.isInfix = true) (e : Expr) (u : List Token) :
    after cfg d l e u = (chain cfg d l e u).out :=
  if_pos h

theorem after_stop {l : Level} {s : Syn} {t : Token} (h : ¬Extends l s t.kind) (e : Expr)
    (rest : List Token) : after cfg d l e (t :: rest) = (.ok e, t :: rest) := by
  unfold after
  split
  · rw [chain_cons_out, infixOp?_eq_none_of_not_extends h (Nat.le_refl _)]
  · rfl

theorem suffixes_stop {t : Token} (hp : t.kind ≠ .leftParen) (hd : t.kind ≠ .dot) {e : Expr}
    (he : e.height ≤ cfg.maxHeight) (n : Nat) (rest : List Token) :
    (suffixes cfg d n e (t :: rest)).out = (.ok e, t :: rest) := by
  rw [suffixes_cons_out, if_neg (by rintro (h | h) <;> contradiction), checkHeight_of_le he]

theorem level_prefix_eq {l : Level} (hl : l = .not ∨ l = .sign) (ts : List Token) :
    (level cfg d l ts).out =
      andThen (prefixed cfg d l 0 ts) fun z r => (checkHeight cfg z r, r) := by
  rw [level_prefix_out cfg d l hl, prefixed]
  generalize (prefixRun cfg d l.prefixOp? 0 ts).out = o
  obtain ⟨_ | ops, r⟩ := o
  · rfl
  · rw [andThen_ok, andThen_ok]
    generalize (level cfg d l.next r).out = o
    obtain ⟨_ | x, r2⟩ := o
    · rfl
    · rw [andThen_ok, andThen_ok]
      cases applyPrefixOps ops x <;> rfl

theorem prefixed_cons {l : Level} {t : Token} {op : UnaryOp} (hop : l.prefixOp? t.kind = some op)
    {n : Nat} (hn : d + n < cfg.maxDepth) (ts : List Token) :
    prefixed cfg d l n (t :: ts) =
      ((prefixed cfg d l (n + 1) ts).1.bind (foldUnary op t), (prefixed cfg d l (n + 1) ts).2) := by
  unfold prefixed
  rw [prefixRun_cons_out, hop]
  simp only [if_neg (Nat.not_le.mpr hn)]
  generalize (prefixRun cfg d l.prefixOp? (n + 1) ts).out = o
  obtain ⟨_ | ops, r⟩ := o
  · rfl
  · change andThen (.ok ((op, t) :: ops), r) _ = _
    rw [andThen_ok, andThen_ok]
    generalize (level cfg d l.next r).out = o
    obtain ⟨_ | x, r2⟩ := o <;> rfl

theorem prefixed_stop {l : Level} {t : Token} (hop : l.prefixOp? t.kind = none) (n : Nat)
    (ts : List Token) : prefixed cfg d l n (t :: ts) = (level cfg d l.next (t :: ts)).out := by
  unfold prefixed
  rw [prefixRun_cons_out, hop, andThen_ok]
  generalize (level cfg d l.next (t :: ts)).out = o
  obtain ⟨_ | x, r⟩ := o <;> rfl

end Steps

/-! ## Tokens that stop a derivation -/

theorem not_extends_close {l : Level} {s : Syn} {c : Token}
    (hc : c.kind = .comma ∨ c.kind = .rightParen) : ¬Extends l s c.kind := by
  rcases hc with hc | hc <;> rw [hc] <;> exact not_extends rfl (by decide) (by decide)

theorem not_extends_of_infixOp {l l' : Level} {s : Syn} {k : TokenKind} {op : BinaryOp}
    (h : l.infixOp? k = some op) (hl : l'.rank < l.rank) : ¬Extends l' s k := by
  obtain ⟨hk, rfl⟩ := Level.infixOp?_level h
  rintro (⟨op', hop', hr⟩ | ⟨hk' | hk', -⟩)
  · rw [hk] at hop'
    cases hop'
    omega
  · rw [hk'] at hk; cases hk
  · rw [hk'] at hk; cases hk

theorem extends_power {c : Token} {b p : Syn} {k : TokenKind} (h : Extends .sign p k) :
    Extends .exponent (.binary .power c b p) k := by
  rcases h with ⟨op, hop, hr⟩ | h
  · have : op.level.rank ≠ 2 := by cases op <;> decide
    change op.level.rank ≤ 2 at hr
    exact .inl ⟨op, hop, show op.level.rank ≤ 1 by omega⟩
  · exact .inr h

theorem prefixOp?_of_starts {l : Level} {k : TokenKind} (h : Starts l.next k) :
    l.prefixOp? k = none := by
  rcases hk : l.prefixOp? k with _ | op
  · rfl
  · rcases Level.prefixOp?_some hk with ⟨rfl, rfl, -⟩ | ⟨rfl, rfl, -⟩ | ⟨rfl, rfl, -⟩ <;>
      simp [Starts, Level.next, Level.rank, TokenKind.isLiteral] at h

theorem Starts.ne_rightParen {l : Level} {k : TokenKind} (h : Starts l k) : k ≠ .rightParen := by
  rintro rfl
  rcases h with (h | h | h) | ⟨_, h | h⟩ | ⟨_, h⟩ <;> cases h

theorem arguments_of_derives {a : Syn} (ha : Derives .imp a) (more : List Syn)
    (commas : List Token) (d : Nat) (u : List Token) :
    (arguments cfg d (Syn.argsYield (a :: more) commas ++ u)).out =
      (argumentList cfg d [] (Syn.argsYield (a :: more) commas ++ u)).out := by
  obtain ⟨t0, ys, hy, hst⟩ := ha.starts
  obtain ⟨w, hw⟩ := Syn.argsYield_cons a more commas
  have heq : Syn.argsYield (a :: more) commas ++ u = t0 :: (ys ++ w ++ u) := by
    rw [hw, hy]
    simp
  rw [heq, arguments_out]
  simp only [if_neg (Starts.ne_rightParen hst)]

/-! ## Primaries -/

theorem reads_of_chain {s : Syn} (hs : Derives .primary s) (hc : s.isChain = true)
    (h : ∀ d, Room cfg d s → ∀ u, Follows (level cfg d .primary (s.yield ++ u)).out s.fold
      fun e => (suffixes cfg d s.suffixCount e u).out) : Reads cfg .primary s := by
  intro d hroom
  refine ⟨fun _ _ => h d hroom, fun hl => (by rcases hl with hl | hl <;> cases hl),
    fun t rest hx => ?_⟩
  have hend := Syn.endsWithChain_of_isChain hc
  have hp : t.kind ≠ .leftParen := fun hk => hx (.inr ⟨.inl hk, hend⟩)
  have hd : t.kind ≠ .dot := fun hk => hx (.inr ⟨.inr hk, hend⟩)
  refine (h d hroom (t :: rest)).congr fun e he => ?_
  rw [suffixes_stop hp hd (Nat.le_trans (hs.fold_height he) hroom.2)]
  rfl

theorem reads_lit {t : Token} {k : LiteralKind} (hk : t.kind = .literal k) :
    Reads cfg .primary (.lit t) := by
  intro d _
  refine ⟨fun _ hc => (by cases hc), fun hl => (by rcases hl with hl | hl <;> cases hl),
    fun t' rest _ => ?_⟩
  change Follows (level cfg d .primary (t :: t' :: rest)).out _ _
  rw [level_primary_cons_out, hk]
  exact Follows.self _ _

theorem reads_ident {t : Token} (hk : t.kind = .identifier) : Reads cfg .primary (.ident t) :=
  reads_of_chain (.ident hk) rfl fun d _ u => by
    change Follows (level cfg d .primary (t :: u)).out _ _
    rw [level_primary_cons_out, hk]
    rfl

theorem reads_member {o : Syn} {dot n : Token} (ho : Derives .primary o) (hc : o.isChain = true)
    (hdot : dot.kind = .dot) (hn : n.kind = .identifier) (ih : Reads cfg .primary o) :
    Reads cfg .primary (.member o dot n) :=
  reads_of_chain (.member ho hc hdot hn) rfl fun d hroom u => by
    have hlen : (Syn.member o dot n).yield.length = o.yield.length + 2 := by simp [Syn.yield]
    have hcount := Syn.suffixCount_lt_length o
    have hdepth := hroom.1
    have h := (ih d (hroom.mono (by omega) (by omega))).1 rfl hc (dot :: n :: u)
    rw [show (Syn.member o dot n).yield ++ u = o.yield ++ dot :: n :: u by simp [Syn.yield]]
    refine h.map fun e _ => ?_
    rw [suffixes_cons_out, if_pos (.inr hdot), if_neg (by omega), if_neg (by rw [hdot]; decide)]
    simp only [hn, if_true]
    rfl

theorem expression_reads {a : Syn} (ih : Reads cfg .imp a) {d : Nat}
    (hd : d + 1 + a.yield.length ≤ cfg.maxDepth) (hh : a.yield.length ≤ cfg.maxHeight)
    {t : Token} (hx : ¬Extends .imp a t.kind) (rest : List Token) :
    Follows (expression cfg d (a.yield ++ t :: rest)).out a.fold fun e => (.ok e, t :: rest) := by
  rw [expression_out, if_neg (by omega)]
  exact ((ih (d + 1) ⟨hd, hh⟩).2.2 t rest fun hk => hx (hk.mono (Level.stop_rank_le _))).congr
    fun e _ => after_stop hx e rest

theorem argumentList_reads {rp : Token} (hrp : rp.kind = .rightParen) {d : Nat}
    (u : List Token) :
    ∀ (args : List Syn) (commas : List Token), (∀ a ∈ args, Reads cfg .imp a) →
      (∀ c ∈ commas, c.kind = .comma) → commas.length + 1 = args.length →
      d + 1 + (Syn.argsYield args commas).length ≤ cfg.maxDepth →
      (Syn.argsYield args commas).length ≤ cfg.maxHeight → ∀ acc,
      Follows (argumentList cfg d acc (Syn.argsYield args commas ++ rp :: u)).out
        (Syn.foldAll args) fun vs => (.ok (acc.reverse ++ vs, rp), u)
  | [], _, _, _, hlen, _, _, _ => by simp at hlen
  | [a], [], hargs, _, _, hd, hh, acc => by
    rw [Syn.argsYield] at hd hh ⊢
    have h := expression_reads (hargs a (by simp)) hd hh (not_extends_close (.inr hrp)) u
    rw [argumentList_out, Syn.foldAll]
    refine h.andThen.bind fun e _ => ?_
    simp only [if_neg (show rp.kind ≠ .comma by rw [hrp]; decide), if_pos hrp]
    change Follows _ (.ok [e]) _
    rw [Follows.ok_iff, List.reverse_cons]
  | [_], _ :: _, _, _, hlen, _, _, _ => by simp at hlen
  | _ :: _ :: _, [], _, _, hlen, _, _, _ => by simp at hlen
  | a :: b :: more, c :: cs, hargs, hcs, hlen, hd, hh, acc => by
    have hc : c.kind = .comma := hcs c (by simp)
    rw [Syn.argsYield] at hd hh ⊢
    simp only [List.length_append, List.length_cons] at hd hh
    have hda : d + 1 + a.yield.length ≤ cfg.maxDepth := by omega
    have hha : a.yield.length ≤ cfg.maxHeight := by omega
    have hlen' : cs.length + 1 = (b :: more).length := by
      simp only [List.length_cons] at hlen ⊢
      omega
    have h := expression_reads (hargs a (by simp)) hda hha (not_extends_close (.inl hc))
      (Syn.argsYield (b :: more) cs ++ rp :: u)
    have ih := argumentList_reads hrp (d := d) u (b :: more) cs (fun x hx => hargs x (by simp [hx]))
      (fun x hx => hcs x (by simp [hx])) hlen' (by omega) (by omega)
    rw [List.append_assoc, List.cons_append, argumentList_out, Syn.foldAll]
    refine h.andThen.bind fun e _ => ?_
    simp only [if_pos hc]
    refine (ih (e :: acc)).map fun vs _ => ?_
    simp

theorem arguments_reads {args : List Syn} {commas : List Token}
    (hargs : ∀ a ∈ args, Derives .imp a ∧ Reads cfg .imp a) (hc : Commas args commas)
    {rp : Token} (hrp : rp.kind = .rightParen) {d : Nat}
    (hd : d + 1 + (Syn.argsYield args commas).length ≤ cfg.maxDepth)
    (hh : (Syn.argsYield args commas).length ≤ cfg.maxHeight) (u : List Token) :
    Follows (arguments cfg d (Syn.argsYield args commas ++ rp :: u)).out (Syn.foldAll args)
      fun vs => (.ok (vs, rp), u) := by
  rcases hc with ⟨hcs, hlen | ⟨rfl, rfl⟩⟩
  · obtain ⟨a, more, rfl⟩ : ∃ a more, args = a :: more := by
      cases args with
      | nil => simp at hlen
      | cons a more => exact ⟨a, more, rfl⟩
    have h := argumentList_reads hrp u (a :: more) commas (fun x hx => (hargs x hx).2) hcs hlen
      hd hh []
    rw [arguments_of_derives (hargs a (by simp)).1]
    exact h.congr fun vs _ => by simp
  · rw [Syn.argsYield, List.nil_append, arguments_out]
    simp only [if_pos hrp]
    rfl

theorem reads_call {f : Syn} {lp rp : Token} {args : List Syn} {commas : List Token}
    (hf : Derives .primary f) (hc : f.isChain = true) (hlp : lp.kind = .leftParen)
    (ha : ∀ a ∈ args, Derives .imp a) (hcs : Commas args commas) (hrp : rp.kind = .rightParen)
    (ihf : Reads cfg .primary f) (iha : ∀ a ∈ args, Reads cfg .imp a) :
    Reads cfg .primary (.call f lp args commas rp) :=
  reads_of_chain (.call hf hc hlp ha hcs hrp) rfl fun d hroom u => by
    have hlen : (Syn.call f lp args commas rp).yield.length =
        f.yield.length + (Syn.argsYield args commas).length + 2 := by
      simp only [Syn.yield, List.length_append, List.length_cons, List.length_nil]
      omega
    have hcount := Syn.suffixCount_lt_length f
    have hdepth := hroom.1
    have hheight := hroom.2
    have h := (ihf d (hroom.mono (by omega) (by omega))).1 rfl hc
      (lp :: (Syn.argsYield args commas ++ rp :: u))
    have hargs := arguments_reads (fun a h' => ⟨ha a h', iha a h'⟩) hcs hrp (d := d)
      (by omega) (by omega) u
    rw [show (Syn.call f lp args commas rp).yield ++ u =
      f.yield ++ lp :: (Syn.argsYield args commas ++ rp :: u) by simp [Syn.yield]]
    refine h.bind fun e _ => ?_
    rw [suffixes_cons_out, if_pos (.inl hlp), if_neg (by omega), if_pos hlp]
    exact hargs.andThen.map fun vs _ => rfl

theorem reads_paren {lp rp : Token} {e : Syn} (hlp : lp.kind = .leftParen) (he : Derives .imp e)
    (hrp : rp.kind = .rightParen) (ih : Reads cfg .imp e) :
    Reads cfg .primary (.paren lp e rp) := by
  intro d hroom
  refine ⟨fun _ hc => (by cases hc), fun hl => (by rcases hl with hl | hl <;> cases hl),
    fun t rest _ => ?_⟩
  have hlen : (Syn.paren lp e rp).yield.length = e.yield.length + 2 := by simp [Syn.yield]
  have hdepth := hroom.1
  have hheight := hroom.2
  have h := expression_reads ih (d := d) (by omega) (by omega) (not_extends_close (.inr hrp))
    (t :: rest)
  rw [show (Syn.paren lp e rp).yield ++ t :: rest = lp :: (e.yield ++ rp :: t :: rest) by
    simp [Syn.yield], level_primary_cons_out, hlp]
  refine h.andThen.map fun x hx => ?_
  have := he.fold_height hx
  rw [closeGroup_grouped lp hrp (Nat.le_trans (Syn.grouped_height _ x) (by omega))]
  rfl

/-! ## Operator levels -/

theorem level_of_prefixed {l : Level} (hl : l = .not ∨ l = .sign) {s : Syn} (hs : Derives l s)
    {d : Nat} (hroom : Room cfg d s) {t : Token} {rest : List Token}
    (h : Follows (prefixed cfg d l 0 (s.yield ++ t :: rest)) s.fold fun e => (.ok e, t :: rest)) :
    Follows (level cfg d l (s.yield ++ t :: rest)).out s.fold
      fun e => after cfg d l e (t :: rest) := by
  rw [level_prefix_eq hl]
  refine h.andThen.congr fun e he => ?_
  rw [checkHeight_of_le (Nat.le_trans (hs.fold_height he) hroom.2)]
  rcases hl with rfl | rfl <;> rfl

theorem reads_next {l : Level} {s : Syn} (hl : l ≠ .primary) (hs : Derives l.next s)
    (ih : Reads cfg l.next s) : Reads cfg l s := by
  intro d hroom
  have hrank := Level.rank_next hl
  have hrun : (l = .not ∨ l = .sign) → ∀ n t rest, d + n + s.yield.length ≤ cfg.maxDepth →
      ¬Extends l s t.kind →
      Follows (prefixed cfg d l n (s.yield ++ t :: rest)) s.fold fun e => (.ok e, t :: rest) := by
    intro _ n t rest _ hx
    have hx' : ¬Extends l.next s t.kind := fun hk => hx (hk.mono (by omega))
    obtain ⟨t0, ys, hy, hst⟩ := hs.starts
    rw [hy, List.cons_append, prefixed_stop (prefixOp?_of_starts hst), ← List.cons_append, ← hy]
    exact ((ih d hroom).2.2 t rest fun hk => hx' (hk.mono (Level.stop_rank_le _))).congr
      fun e _ => after_stop hx' e rest
  refine ⟨fun hp => absurd hp hl, hrun, fun t rest hx => ?_⟩
  by_cases hinf : l.isInfix
  · have hx' : ¬Extends l.next s t.kind := by rwa [Level.stop, if_pos hinf] at hx
    rw [level_infix_out cfg d l hinf]
    exact (((ih d hroom).2.2 t rest fun hk => hx' (hk.mono (Level.stop_rank_le _))).congr
      fun e _ => after_stop hx' e rest).andThen.congr fun e _ => (after_chain hinf e _).symm
  · rw [Level.stop, if_neg hinf] at hx
    rcases Level.exponent_or_unary hl hinf with rfl | hp
    · have hx' : ¬Extends .primary s t.kind := fun hk => hx (hk.mono (by decide))
      have hcaret : t.kind ≠ .caret := fun hk => hx (.inl ⟨.power, by rw [hk]; rfl, by decide⟩)
      have h : Follows (level cfg d .primary (s.yield ++ t :: rest)).out s.fold
          fun e => (.ok e, t :: rest) :=
        ((ih d hroom).2.2 t rest hx').congr fun e _ => after_stop hx' e rest
      rw [level_exponent_out]
      refine h.andThen.congr fun e _ => ?_
      simp only [if_neg hcaret]
      rfl
    · exact level_of_prefixed hp (.next hl hs) hroom
        (hrun hp 0 t rest (by have := hroom.1; omega) hx)

theorem reads_power {c : Token} {b p : Syn} (hc : c.kind = .caret) (hb : Derives .primary b)
    (hp : Derives .sign p) (ihb : Reads cfg .primary b) (ihp : Reads cfg .sign p) :
    Reads cfg .exponent (.binary .power c b p) := by
  intro d hroom
  refine ⟨fun h => (by cases h), fun h => (by rcases h with h | h <;> cases h),
    fun t rest hx => ?_⟩
  have hlen : (Syn.binary .power c b p).yield.length = b.yield.length + p.yield.length + 1 := by
    simp only [Syn.yield, List.length_append, List.length_cons]
    omega
  have hdepth := hroom.1
  have hheight := hroom.2
  have hxc : ¬Extends .primary b c.kind :=
    not_extends_of_infixOp (l := .exponent) (by rw [hc]; rfl) (by decide)
  have hxp : ¬Extends .sign p t.kind := fun hk => hx (extends_power hk)
  have h1 : Follows (level cfg d .primary (b.yield ++ c :: (p.yield ++ t :: rest))).out b.fold
      fun e => (.ok e, c :: (p.yield ++ t :: rest)) :=
    ((ihb d (hroom.mono (by omega) (by omega))).2.2 c _ hxc).congr fun e _ => after_stop hxc e _
  have h2 : Follows (level cfg (d + 1) .sign (p.yield ++ t :: rest)).out p.fold
      fun e => (.ok e, t :: rest) :=
    ((ihp (d + 1) (hroom.mono (by omega) (by omega))).2.2 t rest hxp).congr
      fun e _ => after_stop hxp e rest
  rw [show (Syn.binary .power c b p).yield ++ t :: rest = b.yield ++ c :: (p.yield ++ t :: rest) by
    simp [Syn.yield], level_exponent_out]
  refine h1.andThen.bind fun a ha => ?_
  simp only [hc, if_true, if_neg (show ¬cfg.maxDepth ≤ d by omega)]
  refine (h2.operand fun e w he hw => ?_).congr fun w _ => rfl
  exact Nat.le_trans ((Derives.power hc hb hp).fold_height (Syn.fold_binary_ok ha he hw))
    (by omega)

theorem reads_unary {l : Level} {op : UnaryOp} {t0 : Token} {e : Syn}
    (hop : l.prefixOp? t0.kind = some op) (he : Derives l e) (ih : Reads cfg l e) :
    Reads cfg l (.unary op t0 e) := by
  have hl : l = .not ∨ l = .sign := by
    rcases Level.prefixOp?_some hop with ⟨h, -⟩ | ⟨h, -⟩ | ⟨h, -⟩ <;> simp [h]
  intro d hroom
  have hlen : (Syn.unary op t0 e).yield.length = e.yield.length + 1 := by simp [Syn.yield]
  have hrun : ∀ n t rest, d + n + (Syn.unary op t0 e).yield.length ≤ cfg.maxDepth →
      ¬Extends l (.unary op t0 e) t.kind →
      Follows (prefixed cfg d l n ((Syn.unary op t0 e).yield ++ t :: rest)) (Syn.unary op t0 e).fold
        fun x => (.ok x, t :: rest) := by
    intro n t rest hn hx
    rw [show (Syn.unary op t0 e).yield ++ t :: rest = t0 :: (e.yield ++ t :: rest) from rfl,
      prefixed_cons hop (by omega)]
    exact ((ih d (hroom.mono (by omega) (by omega))).2.1 hl (n + 1) t rest (by omega)
      hx).bind_result
  refine ⟨fun hp => ?_, fun _ => hrun, fun t rest hx => ?_⟩
  · rcases hl with rfl | rfl <;> cases hp
  · have hstop : l.stop = l := by rcases hl with rfl | rfl <;> rfl
    rw [hstop] at hx
    exact level_of_prefixed hl (.unary hop he) hroom
      (hrun 0 t rest (by have := hroom.1; omega) hx)

theorem reads_binary {l : Level} {op : BinaryOp} {c : Token} {a b : Syn}
    (hinf : l.isInfix = true) (hop : l.infixOp? c.kind = some op) (ha : Derives l a)
    (hb : Derives l.next b) (iha : Reads cfg l a) (ihb : Reads cfg l.next b) :
    Reads cfg l (.binary op c a b) := by
  have hrank := Level.rank_next (l := l) (by rintro rfl; cases hinf)
  have hstop : l.stop = l.next := if_pos hinf
  intro d hroom
  refine ⟨fun hp => (by subst hp; cases hinf), fun hp => (by rcases hp with rfl | rfl <;> cases hinf),
    fun t rest hx => ?_⟩
  have hlen : (Syn.binary op c a b).yield.length = a.yield.length + b.yield.length + 1 := by
    simp only [Syn.yield, List.length_append, List.length_cons]
    omega
  have hheight := hroom.2
  rw [hstop] at hx
  have hxc : ¬Extends l.stop a c.kind := by
    rw [hstop]
    exact not_extends_of_infixOp hop (by omega)
  have hxb : ¬Extends l.next b t.kind := hx
  have h1 := (iha d (hroom.mono (by omega) (by omega))).2.2 c (b.yield ++ t :: rest) hxc
  have h2 : Follows (level cfg d l.next (b.yield ++ t :: rest)).out b.fold
      fun e => (.ok e, t :: rest) :=
    ((ihb d (hroom.mono (by omega) (by omega))).2.2 t rest
      fun hk => hxb (hk.mono (Level.stop_rank_le _))).congr fun e _ => after_stop hxb e rest
  rw [show (Syn.binary op c a b).yield ++ t :: rest = a.yield ++ c :: (b.yield ++ t :: rest) by
    simp [Syn.yield]]
  refine h1.bind fun x hx' => ?_
  rw [after_chain hinf, chain_cons_out, hop]
  simp only
  rw [← andThen_assoc]
  refine (h2.operand fun y w hy hw => ?_).andThen.congr fun w _ => (after_chain hinf w _).symm
  exact Nat.le_trans ((Derives.binary hinf hop ha hb).fold_height (Syn.fold_binary_ok hx' hy hw))
    (by omega)

end Parse

/-! ## Completeness -/

open Parse

variable {cfg : Limits}

theorem Derives.reads {l : Level} {s : Syn} (h : Derives l s) : Reads cfg l s := by
  induction h with
  | lit hk => exact reads_lit hk
  | ident hk => exact reads_ident hk
  | member ho hc hdot hn ih => exact reads_member ho hc hdot hn ih
  | call hf hc hlp ha hcs hrp ihf iha => exact reads_call hf hc hlp ha hcs hrp ihf iha
  | paren hlp he hrp ih => exact reads_paren hlp he hrp ih
  | next hl hs ih => exact reads_next hl hs ih
  | power hc hb hp ihb ihp => exact reads_power hc hb hp ihb ihp
  | unary hop he ih => exact reads_unary hop he ih
  | binary hinf hop ha hb iha ihb => exact reads_binary hinf hop ha hb iha ihb

theorem Parse.expression_complete {s : Syn} (hs : Derives .imp s) {d : Nat}
    (hd : d + s.yield.length < cfg.maxDepth) (hh : s.yield.length ≤ cfg.maxHeight) {t : Token}
    (hx : ¬Extends .imp s t.kind) (rest : List Token) :
    Follows (expression cfg d (s.yield ++ t :: rest)).out s.fold fun e => (.ok e, t :: rest) :=
  expression_reads hs.reads (by omega) hh hx rest

end ScriptFold
