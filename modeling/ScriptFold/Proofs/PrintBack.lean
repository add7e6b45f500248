import Mathlib
import ScriptFold.Proofs.PrintText
import ScriptFold.Proofs.Folding
import ScriptFold.Proofs.Limits
import ScriptFold.Proofs.LiteralReadBack
import ScriptFold.Proofs.ParseSound
import ScriptFold.Syntax.Print
/-!
The printer's text reads back. Printing a parsed tree and parsing the text again gives a tree
that prints the same, and that agrees with the first once positions, the spelling of operators
and the groups around operator nodes are forgotten (`Expr.erase`): provided each constant of the
tree has a literal that reads back as itself (`Value.LiteralReadable`, `Value.throughWindow`).

The spelling is forgotten because the printer writes each operator in its canonical spelling:
`not a` comes back as `(Not a)`, its operator spelled `Not` (`not_prints_back_as_capital_not`).

The proof follows the tree. `Expr.Reprintable` is what the printer needs of a tree, and every
tree a derivation folds to has it (`Derives.reprintable`). On such a tree, each printed piece
scans to the tokens of one primary derivation that folds back to a tree of the same print and
erasure (`Expr.ReadsBack`), one lemma per constructor, assembled by induction in
`Expr.Reprintable.readsBack`. Main statement: `print_reads_back`.
-/
namespace ScriptFold

set_option autoImplicit false

/-! ## Comparing trees -/

namespace Token

/-- The token without its place in the source. -/
def unplaced (t : Token) : Token := ⟨t.kind, t.lexeme, ⟨0, 0⟩⟩

/-- An operator token by its kind alone, its spelling and place dropped. -/
def kindOnly (t : Token) : Token := ⟨t.kind, "", ⟨0, 0⟩⟩

end Token

/-- The token kind that spells an infix operator. -/
def BinaryOp.tokenKind : BinaryOp → TokenKind
  | .imp => .impOp
  | .eqv => .eqvOp
  | .xor => .xorOp
  | .or => .orOp
  | .and => .andOp
  | .equal => .equal
  | .notEqual => .notEqual
  | .less => .less
  | .lessEqual => .lessEqual
  | .greater => .greater
  | .greaterEqual => .greaterEqual
  | .concat => .ampersand
  | .add => .plus
  | .subtract => .minus
  | .modulo => .modOp
  | .intDivide => .backslash
  | .multiply => .star
  | .divide => .slash
  | .power => .caret

theorem BinaryOp.ofTokenKind?_eq_some {k : TokenKind} {op : BinaryOp} :
    BinaryOp.ofTokenKind? k = some op ↔ k = op.tokenKind := by
  constructor
  · intro h
    cases k <;> simp [BinaryOp.ofTokenKind?] at h <;> subst h <;> rfl
  · rintro rfl
    cases op <;> rfl

/-- The token kind that spells a prefix operator. -/
def UnaryOp.tokenKind : UnaryOp → TokenKind
  | .negate => .minus
  | .plus => .plus
  | .not => .notOp

theorem UnaryOp.ofTokenKind?_eq_some {k : TokenKind} {op : UnaryOp} :
    UnaryOp.ofTokenKind? k = some op ↔ k = op.tokenKind := by
  constructor
  · intro h
    cases k <;> simp [UnaryOp.ofTokenKind?] at h <;> subst h <;> rfl
  · rintro rfl
    cases op <;> rfl

namespace Expr

/-- Names, member accesses and calls: what a member access or a call stands on. -/
def isChain : Expr → Bool
  | .name _ | .member .. | .call .. => true
  | _ => false

mutual
/-- What the printer keeps of a tree: spans, token places and operator spellings are dropped,
and a group around an operator node is left out, since the operator prints its own
parentheses. -/
def erase : Expr → Expr
  | .const v _ => .const v ⟨0, 0⟩
  | .name t => .name t.unplaced
  | .member o n => .member o.erase n.unplaced
  | .call f args close => .call f.erase (eraseAll args) close.unplaced
  | .group e _ => if e.isOperator then e.erase else .group e.erase ⟨0, 0⟩
  | .unary op t e => .unary op t.kindOnly e.erase
  | .binary op t l r => .binary op t.kindOnly l.erase r.erase

/-- Each tree of a list erased. -/
def eraseAll : List Expr → List Expr
  | [] => []
  | e :: es => e.erase :: eraseAll es
end

end Expr

open Scan

/-! ## Printed pieces scan back -/

theorem Scans.paren {pos : Nat} {cs : List Char} {ts : List Token}
    (h : Scans (pos + byteLength ['(']) cs ts Delimited) (follow : List Char → Prop) :
    ∃ lp rp : Token, lp.kind = .leftParen ∧ rp.kind = .rightParen ∧ rp.lexeme = ")" ∧
      Scans pos ('(' :: (cs ++ [')'])) (lp :: (ts ++ [rp])) follow := by
  have h1 := (Scans.single (k := .leftParen) (fun _ => rfl) pos :
    Scans pos ['('] _ fun _ => True).append h fun _ _ => trivial
  have h2 := h1.append (Scans.single (k := .rightParen) (fun _ => rfl) _ : Scans _ [')'] _ follow)
    fun r _ => Delimited.of_head (.inr (.inl rfl)) r
  exact ⟨_, _, rfl, rfl, rfl, by simpa using h2⟩

theorem startsWith_minus {cs : List Char} (h : cs.head? = some '-') :
    (String.ofList cs).startsWith "-" = true := by
  rcases cs with _ | ⟨c, tl⟩
  · cases h
  · simp only [List.head?_cons, Option.some.injEq] at h
    subst h
    rw [String.startsWith_string_iff]
    simp

theorem Delimited.of_dot {r : List Char} (h : ∀ d ∈ r.head?, d.isDigit = false) :
    Delimited ('.' :: r) := by
  intro c hc
  cases hc
  exact .inr (.inr (.inr (.inr ⟨rfl, h⟩)))

theorem NameText.head_not_digit {cs : List Char} (h : NameText cs) (r : List Char) :
    ∀ d ∈ (cs ++ r).head?, d.isDigit = false := by
  rcases h with ⟨c, body, rfl, hc, -, -⟩ | ⟨body, rfl, -⟩
  · intro d hd
    cases hd
    exact isDigit_of_isAlpha hc
  · intro d hd
    cases hd
    decide

theorem UnaryOp.spelling_scans (op : UnaryOp) (pos : Nat) :
    ∃ t : Token, t.kind = op.tokenKind ∧
      Scans pos (if op = .not then "Not " else op.symbol).toList [t] fun _ => True := by
  cases op
  · exact ⟨_, rfl, Scans.single (fun _ => rfl) pos⟩
  · exact ⟨_, rfl, Scans.single (fun _ => rfl) pos⟩
  · have h := (Scans.word (c := 'N') (by decide)
      (List.all_eq_true.mp rfl : ∀ x ∈ ['o', 't'], isNameChar x = true) pos).append
      (Scans.blank _ : Scans _ [' '] [] fun _ => True) fun r _ => Delimited.of_head (.inl rfl) r
    exact ⟨_, rfl, by simpa using h⟩

/-! ## Derivations of printed pieces -/

theorem Syn.grouped_of_none {x : Expr} (h : x.folded? = none) (span : Span) :
    Syn.grouped span x = .group x span := by
  cases x <;> first | rfl | cases h

theorem Level.rank_le_imp (l : Level) : l.rank ≤ Level.imp.rank := by
  cases l <;> decide

theorem Derives.unary_primary {op : UnaryOp} {t : Token} {a : Syn} (ht : t.kind = op.tokenKind)
    (ha : Derives .primary a) : Derives .imp (.unary op t a) := by
  cases op
  · exact (Derives.unary (l := .sign) (by rw [ht]; rfl) (ha.up _ (by decide))).up _ (by decide)
  · exact (Derives.unary (l := .sign) (by rw [ht]; rfl) (ha.up _ (by decide))).up _ (by decide)
  · exact (Derives.unary (l := .not) (by rw [ht]; rfl) (ha.up _ (by decide))).up _ (by decide)

theorem Derives.binary_primary {op : BinaryOp} {t : Token} {a b : Syn}
    (ht : t.kind = op.tokenKind) (ha : Derives .primary a) (hb : Derives .primary b) :
    Derives .imp (.binary op t a b) := by
  by_cases hp : op = .power
  · subst hp
    exact (Derives.power ht ha (hb.up _ (by decide))).up _ (by decide)
  · have hinf : op.level.isInfix = true := by
      cases op <;> first | rfl | exact absurd rfl hp
    have hop : op.level.infixOp? t.kind = some op := by
      rw [ht, Level.infixOp?, BinaryOp.ofTokenKind?_eq_some.mpr rfl]
      simp
    exact (Derives.binary hinf hop (ha.up _ (Nat.zero_le _)) (hb.up _ (Nat.zero_le _))).up _
      (Level.rank_le_imp _)

/-! ## Reading a printed tree back -/

namespace Expr

/-- What printing needs of a tree to read it back: constants whose literals read back as
themselves, names and closing parentheses spelled as the scanner spells them, member accesses
and calls on chains, and no operator or group over a known value alone (the folded form). -/
inductive Reprintable : Expr → Prop
  | const {v : Value} {sp : Span} : v.LiteralReadable → v.throughWindow = v →
      Reprintable (.const v sp)
  | name {t : Token} : t.kind = .identifier → NameText t.lexeme.toList → Reprintable (.name t)
  | member {o : Expr} {n : Token} : Reprintable o → o.isChain = true → n.kind = .identifier →
      NameText n.lexeme.toList → Reprintable (.member o n)
  | call {f : Expr} {args : List Expr} {close : Token} : Reprintable f → f.isChain = true →
      (∀ a ∈ args, Reprintable a) → close.kind = .rightParen → close.lexeme = ")" →
      Reprintable (.call f args close)
  | group {e : Expr} {sp : Span} : Reprintable e → e.folded? = none → Reprintable (.group e sp)
  | unary {op : UnaryOp} {t : Token} {e : Expr} : Reprintable e → e.folded? = none →
      t.kind = op.tokenKind → Reprintable (.unary op t e)
  | binary {op : BinaryOp} {t : Token} {l r : Expr} : Reprintable l → Reprintable r →
      (l.folded? = none ∨ r.folded? = none) → t.kind = op.tokenKind →
      Reprintable (.binary op t l r)

/-- The printed text of `e`, scanned from byte `pos` before delimited text, is a primary
derivation. It folds to a tree that prints as `e` does and erases to what `e` erases to; that
tree is no operator node, since an operator comes back inside its parentheses, and it is a
constant exactly when `e` is. -/
def ReadsBack (pos : Nat) (e : Expr) : Prop :=
  ∃ s, Derives .primary s ∧ (e.isChain = true → s.isChain = true) ∧
    Scans pos e.print.toList s.yield Delimited ∧
    ∃ e', s.fold = .ok e' ∧ e'.isOperator = false ∧ (e'.folded? = none ↔ e.folded? = none) ∧
      e'.print = e.print ∧ e'.erase = e.erase

theorem readsBack_const {v : Value} (hv : v.LiteralReadable) (hw : v.throughWindow = v)
    (sp : Span) (pos : Nat) : ReadsBack pos (.const v sp) := by
  by_cases hneg : v.literal.startsWith "-" = true
  · have hprint : (Expr.const v sp).print = "(" ++ v.literal ++ ")" := by
      simp [print, constText, hneg]
    obtain ⟨s, hlev, hscan, -, span, hfold⟩ := Value.literalReads v hv (pos + byteLength ['('])
    obtain ⟨lp, rp, hlp, hrp, -, hparen⟩ := Scans.paren hscan Delimited
    have himp : Derives .imp s := by
      rcases hlev with h | ⟨-, h⟩
      · exact h.up _ (by decide)
      · exact h.up _ (by decide)
    refine ⟨.paren lp s rp, .paren hlp himp hrp, by simp [isChain], ?_,
      .const v (lp.span.cover rp.span), ?_, rfl, by simp [folded?], rfl, rfl⟩
    · rw [hprint]
      simpa [Syn.yield] using hparen
    · rw [Syn.fold, hfold, hw]
      rfl
  · have hprint : (Expr.const v sp).print = v.literal := by
      simp [print, constText, hneg]
    obtain ⟨s, hlev, hscan, -, span, hfold⟩ := Value.literalReads v hv pos
    have hprim : Derives .primary s := by
      rcases hlev with h | ⟨hhead, -⟩
      · exact h
      · have := startsWith_minus hhead
        rw [String.ofList_toList] at this
        exact absurd this hneg
    refine ⟨s, hprim, by simp [isChain], by rwa [hprint], .const v span, by rw [hfold, hw], rfl,
      by simp [folded?], by simp [print, constText, hneg], rfl⟩

theorem readsBack_name {t : Token} (ht : t.kind = .identifier) (hn : NameText t.lexeme.toList)
    (pos : Nat) : ReadsBack pos (.name t) := by
  have hscan := Scans.name hn pos
  rw [String.ofList_toList] at hscan
  refine ⟨.ident _, .ident rfl, fun _ => rfl, by simpa [print, Syn.yield] using hscan, _, rfl, rfl,
    by simp [folded?], by simp [print], ?_⟩
  simp [erase, Token.unplaced, ht]

theorem readsBack_member {o : Expr} {n : Token} (ho : ∀ p, ReadsBack p o)
    (hchain : o.isChain = true) (hn : n.kind = .identifier) (hnt : NameText n.lexeme.toList)
    (pos : Nat) : ReadsBack pos (.member o n) := by
  obtain ⟨so, hso, hsc, hscan, o', hfold, -, -, hprint, herase⟩ := ho pos
  have h1 := hscan.append (Scans.dot _) fun r hr => Delimited.of_dot hr
  have h2 := h1.append (Scans.name hnt _) fun r _ => NameText.head_not_digit hnt r
  obtain ⟨dt, nt, hdt, hk, hlex, h3⟩ : ∃ dt nt : Token, dt.kind = .dot ∧ nt.kind = .identifier ∧
      nt.lexeme = n.lexeme ∧
      Scans pos (o.print.toList ++ '.' :: n.lexeme.toList) (so.yield ++ [dt, nt]) Delimited := by
    refine ⟨_, _, ?_, ?_, ?_, by simpa using h2⟩ <;> rfl
  refine ⟨.member so dt nt, .member hso (hsc hchain) hdt hk, fun _ => rfl, ?_, .member o' nt, ?_,
    rfl, iff_of_true rfl rfl, ?_, ?_⟩
  · simpa [print, Syn.yield] using h3
  · simp [Syn.fold, hfold, Except.map]
  · simp [print, hprint, hlex]
  · simp [erase, herase, Token.unplaced, hn, hk, hlex]

theorem readsBack_group {x : Expr} (hx : ∀ p, ReadsBack p x) (hnone : x.folded? = none)
    (sp : Span) (pos : Nat) : ReadsBack pos (.group x sp) := by
  by_cases hop : x.isOperator = true
  · obtain ⟨s, hs, -, hscan, x', hfold, hop', hnone', hprint, herase⟩ := hx pos
    exact ⟨s, hs, by simp [isChain], by simpa [print, hop] using hscan, x', hfold, hop',
      iff_of_true (hnone'.mpr hnone) rfl, by simp [print, hop, hprint], by simp [erase, hop, herase]⟩
  · obtain ⟨s, hs, -, hscan, x', hfold, hop', hnone', hprint, herase⟩ :=
      hx (pos + byteLength ['('])
    obtain ⟨lp, rp, hlp, hrp, -, hparen⟩ := Scans.paren hscan Delimited
    have hx' : x'.folded? = none := hnone'.mpr hnone
    refine ⟨.paren lp s rp, .paren hlp (hs.up _ (by decide)) hrp, by simp [isChain], ?_,
      .group x' (lp.span.cover rp.span), ?_, rfl, iff_of_true rfl rfl, ?_, ?_⟩
    · simpa [print, hop, Syn.yield] using hparen
    · simp [Syn.fold, hfold, Except.map, Syn.grouped_of_none hx']
    · simp [print, hop, hop', hprint]
    · simp [erase, hop, hop', herase]

theorem readsBack_unary {op : UnaryOp} {t : Token} {x : Expr} (hx : ∀ p, ReadsBack p x)
    (hnone : x.folded? = none) (ht : t.kind = op.tokenKind) (pos : Nat) :
    ReadsBack pos (.unary op t x) := by
  obtain ⟨tok, hk, hop⟩ := op.spelling_scans (pos + byteLength ['('])
  obtain ⟨s, hs, -, hscan, x', hfold, -, hnone', hprint, herase⟩ :=
    hx (pos + byteLength ['('] + byteLength (if op = .not then "Not " else op.symbol).toList)
  obtain ⟨lp, rp, hlp, hrp, -, hparen⟩ :=
    Scans.paren (hop.append hscan fun _ _ => trivial) Delimited
  have hx' : x'.folded? = none := hnone'.mpr hnone
  refine ⟨.paren lp (.unary op tok s) rp, .paren hlp (Derives.unary_primary hk hs) hrp,
    by simp [isChain], ?_, .group (.unary op tok x') (lp.span.cover rp.span), ?_, rfl,
    iff_of_true rfl rfl, ?_, ?_⟩
  · cases op <;> simpa [print, Syn.yield] using hparen
  · simp [Syn.fold, hfold, Except.map, Except.bind, Parse.foldUnary_of_none hx', Syn.grouped]
  · simp [print, isOperator, hprint]
  · simp [erase, isOperator, herase, Token.kindOnly, hk, ht]

theorem readsBack_binary {op : BinaryOp} {t : Token} {l r : Expr} (hl : ∀ p, ReadsBack p l)
    (hr : ∀ p, ReadsBack p r) (hnone : l.folded? = none ∨ r.folded? = none)
    (ht : t.kind = op.tokenKind) (pos : Nat) : ReadsBack pos (.binary op t l r) := by
  obtain ⟨sl, hsl, -, hscl, l', hfl, -, hnl, hpl, hel⟩ := hl (pos + byteLength ['('])
  have h1 := hscl.append (Scans.blank _ : Scans _ [' '] [] fun _ => True)
    fun r _ => Delimited.of_head (.inl rfl) r
  obtain ⟨tok, hop, hk⟩ := op.symbol_scans (pos + byteLength ['('] + byteLength (l.print.toList ++ [' ']))
  have h2 := (h1.append hop fun _ _ => trivial).append (Scans.blank _ : Scans _ [' '] [] fun _ => True)
    fun r _ => rfl
  obtain ⟨sr, hsr, -, hscr, r', hfr, -, hnr, hpr, her⟩ := hr (pos + byteLength ['('] +
    byteLength (l.print.toList ++ [' '] ++ op.symbol.toList ++ [' ']))
  obtain ⟨lp, rp, hlp, hrp, -, hparen⟩ :=
    Scans.paren (h2.append hscr fun _ _ => trivial) Delimited
  have hk' : tok.kind = op.tokenKind := BinaryOp.ofTokenKind?_eq_some.mp hk
  have hnone' : l'.folded? = none ∨ r'.folded? = none :=
    hnone.imp (hnl.mpr) (hnr.mpr)
  refine ⟨.paren lp (.binary op tok sl sr) rp, .paren hlp (Derives.binary_primary hk' hsl hsr) hrp,
    by simp [isChain], ?_, .group (.binary op tok l' r') (lp.span.cover rp.span), ?_, rfl,
    iff_of_true rfl rfl, ?_, ?_⟩
  · simpa [print, Syn.yield] using hparen
  · simp [Syn.fold, hfl, hfr, Except.map, Except.bind, Parse.foldBinary_of_none hnone',
      Syn.grouped]
  · simp [print, isOperator, hpl, hpr]
  · simp [erase, isOperator, hel, her, Token.kindOnly, hk', ht]

theorem readsBack_args {args : List Expr} (h : ∀ a ∈ args, ∀ p, ReadsBack p a) (pos : Nat) :
    ∃ sargs commas es, sargs.length = args.length ∧ (∀ a ∈ sargs, Derives .imp a) ∧
      Commas sargs commas ∧
      Scans pos (", ".intercalate (printAll args)).toList (Syn.argsYield sargs commas) Delimited ∧
      Syn.foldAll sargs = .ok es ∧ printAll es = printAll args ∧ eraseAll es = eraseAll args := by
  induction args generalizing pos with
  | nil =>
    exact ⟨[], [], [], rfl, by simp, ⟨by simp, .inr ⟨rfl, rfl⟩⟩,
      (by simpa [printAll, Syn.argsYield] using Scans.nil pos), rfl, rfl, rfl⟩
  | cons a rest ih =>
    obtain ⟨sa, hsa, -, hsca, a', hfa, -, -, hpa, hea⟩ := h a (by simp) pos
    rcases rest with _ | ⟨b, more⟩
    · refine ⟨[sa], [], [a'], rfl, by simpa using hsa.up _ (by decide), ⟨by simp, .inl rfl⟩, ?_,
        by simp [Syn.foldAll, hfa, Except.map, Except.bind], by simp [printAll, hpa],
        by simp [eraseAll, hea]⟩
      simpa [printAll, Syn.argsYield] using hsca
    · have h1 := hsca.append
        (Scans.single (k := .comma) (fun _ => rfl) _ : Scans _ [','] _ fun _ => True)
        fun r _ => Delimited.of_head (.inr (.inr (.inl rfl))) r
      have h2 := h1.append (Scans.blank _ : Scans _ [' '] [] fun _ => True) fun _ _ => trivial
      obtain ⟨sargs, commas, es, hlen, hder, ⟨hcom, hcount⟩, hscan, hfold, hprint, herase⟩ :=
        ih (fun x hx => h x (List.mem_cons_of_mem _ hx))
          (pos + byteLength (a.print.toList ++ [','] ++ [' ']))
      rcases sargs with _ | ⟨sb, ms⟩
      · cases hlen
      obtain ⟨ct, hct, h3⟩ : ∃ ct : Token, ct.kind = .comma ∧
          Scans pos (a.print.toList ++ ',' :: ' ' :: (", ".intercalate (printAll (b :: more))).toList)
            (sa.yield ++ ct :: Syn.argsYield (sb :: ms) commas) Delimited := by
        refine ⟨_, ?_, by simpa using h2.append hscan fun _ _ => trivial⟩
        rfl
      refine ⟨sa :: sb :: ms, ct :: commas, a' :: es, by simpa using hlen, ?_, ⟨?_, ?_⟩, ?_, ?_,
        by simp [printAll, hpa, hprint], by simp [eraseAll, hea, herase]⟩
      · intro x hx
        rcases List.mem_cons.mp hx with rfl | hx
        · exact hsa.up _ (by decide)
        · exact hder x hx
      · intro c hc
        rcases List.mem_cons.mp hc with rfl | hc
        · exact hct
        · exact hcom c hc
      · rcases hcount with hcount | ⟨hnil, -⟩
        · simp [hcount]
        · cases hnil
      · simpa [printAll, String.intercalate_cons_cons, Syn.argsYield] using h3
      · change (sa.fold.bind fun x => (Syn.foldAll (sb :: ms)).map (x :: ·)) = _
        rw [hfa, hfold]
        rfl

theorem readsBack_call {f : Expr} {args : List Expr} {close : Token} (hf : ∀ p, ReadsBack p f)
    (hchain : f.isChain = true) (hargs : ∀ a ∈ args, ∀ p, ReadsBack p a)
    (hc : close.kind = .rightParen) (hcl : close.lexeme = ")") (pos : Nat) :
    ReadsBack pos (.call f args close) := by
  obtain ⟨sf, hsf, hsc, hscf, f', hff, -, -, hpf, hef⟩ := hf pos
  obtain ⟨sargs, commas, es, -, hsa, hcommas, hsca, hfa, hpa, hea⟩ :=
    readsBack_args hargs (pos + byteLength f.print.toList + byteLength ['('])
  obtain ⟨lp, rp, hlp, hrp, hrl, hparen⟩ := Scans.paren hsca Delimited
  have h := hscf.append hparen fun r _ => Delimited.of_head (.inr (.inr (.inr rfl))) _
  refine ⟨.call sf lp sargs commas rp, .call hsf (hsc hchain) hlp hsa hcommas hrp, fun _ => rfl,
    ?_, .call f' es rp, ?_, rfl, iff_of_true rfl rfl, ?_, ?_⟩
  · simpa [print, Syn.yield] using h
  · simp [Syn.fold, hff, hfa, Except.map, Except.bind]
  · simp [print, hpf, hpa]
  · simp [erase, hef, hea, Token.unplaced, hc, hcl, hrp, hrl]

theorem Reprintable.of_const {v : Value} {sp : Span}
    (hc : ∀ v' sp', Expr.const v' sp' ∈ (Expr.const v sp).subtrees →
      v'.LiteralReadable ∧ v'.throughWindow = v') : Reprintable (.const v sp) :=
  .const (hc v sp (mem_subtrees_self _)).1 (hc v sp (mem_subtrees_self _)).2

theorem Reprintable.readsBack {e : Expr} (h : Reprintable e) (pos : Nat) : ReadsBack pos e := by
  induction h generalizing pos with
  | const hv hw => exact readsBack_const hv hw _ pos
  | name ht hn => exact readsBack_name ht hn pos
  | member _ hchain hn hnt ih => exact readsBack_member ih hchain hn hnt pos
  | call _ hchain _ hc hcl ihf iha => exact readsBack_call ihf hchain iha hc hcl pos
  | group _ hnone ih => exact readsBack_group ih hnone _ pos
  | unary _ hnone ht ih => exact readsBack_unary ih hnone ht pos
  | binary _ _ hnone ht ihl ihr => exact readsBack_binary ihl ihr hnone ht pos

end Expr

/-! ## Parsed trees are reprintable -/

theorem Syn.fold_isChain {s : Syn} {e : Expr} (hs : s.isChain = true) (hf : s.fold = .ok e) :
    e.isChain = true := by
  cases s <;> simp only [Syn.isChain, Bool.false_eq_true] at hs <;> simp only [Syn.fold] at hf
  · cases hf
    rfl
  · obtain ⟨o, -, rfl⟩ := Except.map_eq_ok.mp hf
    rfl
  · obtain ⟨f, -, hrest⟩ := Except.bind_eq_ok.mp hf
    obtain ⟨es, -, rfl⟩ := Except.map_eq_ok.mp hrest
    rfl

theorem Syn.foldAll_mem {args : List Syn} {es : List Expr} (h : Syn.foldAll args = .ok es) :
    ∀ x ∈ es, ∃ a ∈ args, a.fold = .ok x := by
  induction args generalizing es with
  | nil =>
    cases h
    simp
  | cons a as ih =>
    obtain ⟨y, hy, hrest⟩ := Except.bind_eq_ok.mp h
    obtain ⟨ys, hys, rfl⟩ := Except.map_eq_ok.mp hrest
    intro x hx
    rcases List.mem_cons.mp hx with rfl | hx
    · exact ⟨a, List.mem_cons_self, hy⟩
    · obtain ⟨b, hb, hfb⟩ := ih hys x hx
      exact ⟨b, List.mem_cons_of_mem _ hb, hfb⟩

theorem Syn.mem_argsYield_of_mem {a : Syn} {args : List Syn} (ha : a ∈ args) (commas : List Token)
    {t : Token} (ht : t ∈ a.yield) : t ∈ Syn.argsYield args commas := by
  induction args generalizing commas with
  | nil => cases ha
  | cons b more ih =>
    rcases more with _ | ⟨m, ms⟩
    · obtain rfl := List.mem_singleton.mp ha
      simpa [Syn.argsYield] using ht
    · rcases List.mem_cons.mp ha with rfl | ha
      · rcases commas with _ | ⟨c, cs⟩ <;> simp [Syn.argsYield, ht]
      · rcases commas with _ | ⟨c, cs⟩ <;> simp [Syn.argsYield, ih ha]

theorem Derives.reprintable {l : Level} {s : Syn} (hs : Derives l s) {e : Expr}
    (hf : s.fold = .ok e) (hsp : ∀ t ∈ s.yield, t.Spelled)
    (hc : ∀ v sp, Expr.const v sp ∈ e.subtrees → v.LiteralReadable ∧ v.throughWindow = v) :
    e.Reprintable := by
  induction hs generalizing e with
  | lit _ =>
    obtain ⟨v, -, rfl⟩ := Except.map_eq_ok.mp hf
    exact .of_const hc
  | ident ht =>
    cases hf
    exact .name ht ((hsp _ (by simp [Syn.yield])).1 ht)
  | member _ hchain _ hn ih =>
    obtain ⟨o, ho, rfl⟩ := Except.map_eq_ok.mp hf
    refine .member (ih ho (fun t ht => hsp t (by simp [Syn.yield, ht]))
      (fun v sp h => hc v sp (by simp [Expr.subtrees, h]))) (Syn.fold_isChain hchain ho) hn
      ((hsp _ (by simp [Syn.yield])).1 hn)
  | call _ hchain _ _ _ hrp ihf iha =>
    obtain ⟨f, hff, hrest⟩ := Except.bind_eq_ok.mp hf
    obtain ⟨es, hes, rfl⟩ := Except.map_eq_ok.mp hrest
    refine .call (ihf hff (fun t ht => hsp t (by simp [Syn.yield, ht]))
      (fun v sp h => hc v sp (by simp [Expr.subtrees, h]))) (Syn.fold_isChain hchain hff)
      (fun x hx => ?_) hrp ((hsp _ (by simp [Syn.yield])).2 hrp)
    obtain ⟨a, ha, hfa⟩ := Syn.foldAll_mem hes x hx
    refine iha a ha hfa (fun t ht => hsp t ?_) fun v sp h => hc v sp ?_
    · simp [Syn.yield, Syn.mem_argsYield_of_mem ha _ ht]
    · simp only [Expr.subtrees, List.mem_cons, List.mem_append, Expr.mem_subtreesAll]
      exact .inr (.inr ⟨x, hx, h⟩)
  | @paren lp rp inner _ _ _ ih =>
    obtain ⟨x, hx, rfl⟩ := Except.map_eq_ok.mp hf
    have hsp' : ∀ t ∈ inner.yield, t.Spelled := fun t ht => hsp t (by simp [Syn.yield, ht])
    cases x with
    | const v sp => exact .of_const hc
    | _ =>
      rw [Syn.grouped_of_none rfl] at hc ⊢
      exact .group (ih hx hsp' fun v sp h => hc v sp (List.mem_cons_of_mem _ h)) rfl
  | next _ _ ih => exact ih hf hsp hc
  | power hk _ _ ihb ihp =>
    obtain ⟨a, ha, hrest⟩ := Except.bind_eq_ok.mp hf
    obtain ⟨b, hb, hw⟩ := Except.bind_eq_ok.mp hrest
    rcases Parse.foldBinary_eq_ok_iff.mp hw with ⟨_, _, _, _, _, -, -, -, rfl⟩ | ⟨hnone, rfl⟩
    · exact .of_const hc
    · exact .binary (ihb ha (fun t ht => hsp t (by simp [Syn.yield, ht]))
        (fun v sp h => hc v sp (by simp [Expr.subtrees, h])))
        (ihp hb (fun t ht => hsp t (by simp [Syn.yield, ht]))
        (fun v sp h => hc v sp (by simp [Expr.subtrees, h]))) hnone hk
  | unary hop _ ih =>
    obtain ⟨x, hx, hw⟩ := Except.bind_eq_ok.mp hf
    rcases Parse.foldUnary_eq_ok_iff.mp hw with ⟨_, _, _, -, -, rfl⟩ | ⟨hnone, rfl⟩
    · exact .of_const hc
    · have hk : _ := Level.prefixOp?_some hop
      refine .unary (ih hx (fun t ht => hsp t (by simp [Syn.yield, ht]))
        (fun v sp h => hc v sp (by simp [Expr.subtrees, h]))) hnone ?_
      rcases hk with ⟨-, hk, rfl⟩ | ⟨-, hk, rfl⟩ | ⟨-, hk, rfl⟩ <;> exact hk
  | binary _ hop _ _ iha ihb =>
    obtain ⟨a, ha, hrest⟩ := Except.bind_eq_ok.mp hf
    obtain ⟨b, hb, hw⟩ := Except.bind_eq_ok.mp hrest
    rcases Parse.foldBinary_eq_ok_iff.mp hw with ⟨_, _, _, _, _, -, -, -, rfl⟩ | ⟨hnone, rfl⟩
    · exact .of_const hc
    · exact .binary (iha ha (fun t ht => hsp t (by simp [Syn.yield, ht]))
        (fun v sp h => hc v sp (by simp [Expr.subtrees, h])))
        (ihb hb (fun t ht => hsp t (by simp [Syn.yield, ht]))
        (fun v sp h => hc v sp (by simp [Expr.subtrees, h])))
        hnone (BinaryOp.ofTokenKind?_eq_some.mp (Level.infixOp?_level hop).1)

theorem Expr.parse_derives {src : String} {cfg : Limits} {e : Expr}
    (h : Expr.parse src cfg = .ok e) :
    ∃ s, Derives .imp s ∧ s.fold = .ok e ∧ ∀ t ∈ s.yield, t.Spelled := by
  obtain ⟨ts, r, hts, hout, -⟩ := Expr.parse_eq_ok_iff.mp h
  obtain ⟨s, hs, hy, hfold, -⟩ := Parse.expression_sound 0 ts e r hout
  exact ⟨s, hs, hfold, fun t ht => scanAll_spelled hts t (hy ▸ List.mem_append_left _ ht)⟩

/-! ## Printing and reading back -/

/-- Printing a parsed tree and parsing the text again, with limits that have room for it, gives
a tree that prints the same and erases to the same tree, when every constant of the tree has a
literal that reads back as itself. -/
theorem print_reads_back (src : String) (cfg : Limits) (e : Expr)
    (h : Expr.parse src cfg = .ok e)
    (hc : ∀ v sp, Expr.const v sp ∈ e.subtrees → v.LiteralReadable ∧ v.throughWindow = v)
    (D H : Nat) (hD : e.print.length < D) (hH : e.print.length ≤ H) :
    ∃ e', Expr.parse e.print ⟨D, H⟩ = .ok e' ∧ e'.print = e.print ∧ e'.erase = e.erase := by
  obtain ⟨s, hs, hfold, hsp⟩ := Expr.parse_derives h
  obtain ⟨s', hs', -, hscan, e', hfold', -, -, hprint, herase⟩ :=
    (hs.reprintable hfold hsp hc).readsBack 0
  have hlen : s'.yield.length ≤ e.print.length := by
    rw [← String.length_toList]
    exact hscan.length_le Delimited.nil
  refine ⟨e', ?_, hprint, herase⟩
  rw [Expr.parse_eq_fold (hs'.up _ (by decide)) rfl (hscan.scanAll Delimited.nil) ⟨D, H⟩
    (by simp only; omega) (by simp only; omega), hfold']

/-- `f(x, -3).z Mod 2` prints as `(f(x, (-3)).z Mod 2)`, which reads back with the widest
limits. -/
theorem print_reads_back_call_member_mod :
    let e := Expr.binary .modulo ⟨.modOp, "Mod", ⟨11, 14⟩⟩
      (.member (.call (.name ⟨.identifier, "f", ⟨0, 1⟩⟩)
          [.name ⟨.identifier, "x", ⟨2, 3⟩⟩, .const (.int (-3)) ⟨5, 7⟩] ⟨.rightParen, ")", ⟨7, 8⟩⟩)
        ⟨.identifier, "z", ⟨9, 10⟩⟩)
      (.const (.int 2) ⟨15, 16⟩)
    Expr.parse "f(x, -3).z Mod 2" = .ok e ∧ e.print = "(f(x, (-3)).z Mod 2)" ∧
      ∃ e', Expr.parse e.print ⟨2 ^ 64 - 1, 2 ^ 64 - 1⟩ = .ok e' ∧ e'.print = e.print ∧
        e'.erase = e.erase := by
  intro e
  have h : Expr.parse "f(x, -3).z Mod 2" = .ok e := by cbv
  have hp : e.print = "(f(x, (-3)).z Mod 2)" := by cbv
  refine ⟨h, hp, print_reads_back _ _ e h ?_ _ _ (by rw [hp]; decide) (by rw [hp]; decide)⟩
  intro v sp hv
  simp only [e, Expr.subtrees, Expr.subtreesAll, List.mem_cons, List.mem_append, List.not_mem_nil,
    reduceCtorEq, Expr.const.injEq, false_or, or_false] at hv
  rcases hv with ⟨rfl, -⟩ | ⟨rfl, -⟩ <;> exact ⟨trivial, rfl⟩

/-- `not a` prints as `(Not a)`, and reading that back spells the operator `Not`: the two trees
agree up to positions only once the spelling of operators is forgotten as well. -/
theorem not_prints_back_as_capital_not :
    Expr.parse "not a" =
        .ok (.unary .not ⟨.notOp, "not", ⟨0, 3⟩⟩ (.name ⟨.identifier, "a", ⟨4, 5⟩⟩)) ∧
      (Expr.unary .not ⟨.notOp, "not", ⟨0, 3⟩⟩ (.name ⟨.identifier, "a", ⟨4, 5⟩⟩)).print =
        "(Not a)" ∧
      Expr.parse "(Not a)" ⟨2 ^ 64 - 1, 2 ^ 64 - 1⟩ =
        .ok (.group (.unary .not ⟨.notOp, "Not", ⟨1, 4⟩⟩ (.name ⟨.identifier, "a", ⟨5, 6⟩⟩)) ⟨0, 7⟩) :=
  ⟨by cbv, by cbv, by cbv⟩

end ScriptFold
