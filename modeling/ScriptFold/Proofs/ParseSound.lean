import Mathlib
import ScriptFold.Proofs.Grammar
/-!
Soundness of the parser for the grammar: whatever a level returns is a derivation of that level,
folded, and the parser stopped at a token that cannot continue it. The proof is one instance
of `Parse.Steps`, the induction along the parser's calls.
-/
namespace ScriptFold

set_option autoImplicit false

/-! ## Prefix runs as derivations -/

namespace Syn

/-- The operand `x` under the prefix operators `ops`, the first one outermost. -/
def wrap (ops : List (UnaryOp × Token)) (x : Syn) : Syn :=
  ops.foldr (fun o s => .unary o.1 o.2 s) x

variable (x : Syn)

@[simp] theorem wrap_nil : wrap [] x = x := rfl

@[simp] theorem wrap_cons (o : UnaryOp × Token) (ops : List (UnaryOp × Token)) :
    wrap (o :: ops) x = .unary o.1 o.2 (wrap ops x) := rfl

theorem yield_wrap (ops : List (UnaryOp × Token)) :
    (wrap ops x).yield = ops.map Prod.snd ++ x.yield := by
  induction ops with
  | nil => rfl
  | cons o ops ih => simp [yield, ih]

theorem endsWithChain_wrap (ops : List (UnaryOp × Token)) :
    (wrap ops x).endsWithChain = x.endsWithChain := by
  induction ops with
  | nil => rfl
  | cons o ops ih => simp [endsWithChain, ih]

theorem fold_wrap {x : Syn} {v : Expr} (hx : x.fold = .ok v) (ops : List (UnaryOp × Token)) :
    (wrap ops x).fold = Parse.applyPrefixOps ops v := by
  induction ops with
  | nil => exact hx
  | cons o ops ih =>
    rw [wrap_cons, fold, ih]
    rfl

end Syn

theorem Derives.wrap {l : Level} {x : Syn} (hx : Derives l x) {ops : List (UnaryOp × Token)}
    (hops : ∀ o ∈ ops, l.prefixOp? o.2.kind = some o.1) : Derives l (x.wrap ops) := by
  induction ops with
  | nil => exact hx
  | cons o ops ih =>
    exact .unary (hops o (by simp)) (ih fun o' h => hops o' (by simp [h]))

/-! ## Where a level stops -/

namespace Parse

/-- No token at the head of `r` continues the derivation `s` at level `l`. -/
def Stops (l : Level) (s : Syn) (r : List Token) : Prop :=
  ∀ t, r.head? = some t → ¬Extends l s t.kind

/-- A successful parse at level `l` of `ts` that returned `e` and left `r`: `ts` is a derivation
of `l` followed by `r`, the derivation folds to `e`, and nothing in `r` continues it. -/
def Derived (l : Level) (ts : List Token) (e : Expr) (r : List Token) : Prop :=
  ∃ s, Derives l s ∧ ts = s.yield ++ r ∧ s.fold = .ok e ∧ Stops l s r

/-- `P` holds of the value and the rest of every successful outcome. -/
def Ends {α : Type} (P : α → List Token → Prop) (o : Except ParseError α × List Token) : Prop :=
  ∀ a r, o = (.ok a, r) → P a r

namespace Ends

variable {α β : Type} {P : α → List Token → Prop}

theorem error (e : ParseError) (r : List Token) : Ends P (.error e, r) :=
  fun _ _ h => by cases h

theorem ok {a : α} {r : List Token} (h : P a r) : Ends P (.ok a, r) := by
  rintro a' r' h'
  cases h'
  exact h

theorem andThen {Q : β → List Token → Prop} {o : Except ParseError α × List Token}
    {k : α → List Token → Except ParseError β × List Token}
    (hk : ∀ a r, o = (.ok a, r) → Ends Q (k a r)) : Ends Q (andThen o k) := by
  intro b r' h
  obtain ⟨_ | a, r⟩ := o
  · cases h
  · exact hk a r rfl b r' h

end Ends

theorem extends_next_of_unary_level {l : Level} (hl : l = .not ∨ l = .sign) {s : Syn} {k : TokenKind}
    (h : Extends l s k) : Extends l.next s k := by
  rcases h with ⟨op, hop, hr⟩ | h
  · refine .inl ⟨op, hop, ?_⟩
    rcases hl with rfl | rfl
    · have : op.level.rank ≠ 9 := by cases op <;> decide
      change op.level.rank ≤ 9 at hr
      change op.level.rank ≤ 8
      omega
    · have : op.level.rank ≠ 2 := by cases op <;> decide
      change op.level.rank ≤ 2 at hr
      change op.level.rank ≤ 1
      omega
  · exact .inr h

theorem extends_next_of_binary_level {l : Level} (hl : l.isInfix = true) {s : Syn} {k : TokenKind}
    (h : Extends l s k) (hk : l.infixOp? k = none) : Extends l.next s k := by
  have hrank := Level.rank_next (l := l) (by rintro rfl; cases hl)
  rcases h with ⟨op, hop, hr⟩ | h
  · refine .inl ⟨op, hop, ?_⟩
    have hne : op.level ≠ l := by
      intro he
      rw [Level.infixOp?, hop] at hk
      simp [he] at hk
    have : op.level.rank ≠ l.rank := fun h' => hne (Level.rank_injective h')
    omega
  · exact .inr h

theorem extends_primary {s : Syn} {k : TokenKind} (h : Extends .exponent s k) (hk : k ≠ .caret) :
    Extends .primary s k := by
  rcases h with ⟨op, hop, hr⟩ | h
  · have hpow : op = .power := by
      change op.level.rank ≤ 1 at hr
      cases op <;> simp [BinaryOp.level, Level.rank] at hr ⊢
    subst hpow
    exact absurd (by cases k <;> simp [BinaryOp.ofTokenKind?] at hop ⊢) hk
  · exact .inr h

theorem BinaryOp.level_rank_pos (op : BinaryOp) : 0 < op.level.rank := by
  cases op <;> decide

theorem suffix_of_extends_primary {s : Syn} {k : TokenKind} (h : Extends .primary s k) :
    k = .leftParen ∨ k = .dot := by
  rcases h with ⟨op, hop, hr⟩ | ⟨h, -⟩
  · exact absurd hr (Nat.not_le.mpr (BinaryOp.level_rank_pos op))
  · exact h

theorem stops_primary {s : Syn} (hs : s.endsWithChain = false) (r : List Token) :
    Stops .primary s r := by
  intro t _ h
  rcases h with ⟨op, _, hr⟩ | ⟨_, hc⟩
  · exact absurd hr (Nat.not_le.mpr (BinaryOp.level_rank_pos op))
  · rw [hs] at hc
    cases hc

theorem Extends.of_wrap {l : Level} {x : Syn} {ops : List (UnaryOp × Token)} {k : TokenKind}
    (h : Extends l (x.wrap ops) k) : Extends l x k := by
  unfold Extends at h ⊢
  rwa [Syn.endsWithChain_wrap] at h

/-! ## Steps that read tokens -/

variable {cfg : Limits}

theorem prefixRun_sound (pick : TokenKind → Option UnaryOp) (d : Nat) :
    ∀ (n : Nat) (ts : List Token) (ops : List (UnaryOp × Token)) (r : List Token),
      (prefixRun cfg d pick n ts).out = (.ok ops, r) →
      ts = ops.map Prod.snd ++ r ∧ (∀ o ∈ ops, pick o.2.kind = some o.1) ∧
        ∀ t, r.head? = some t → pick t.kind = none
  | n, [], ops, r, h => by
    rw [prefixRun_nil_out] at h
    cases h
    exact ⟨rfl, by simp, by simp⟩
  | n, t :: rest, ops, r, h => by
    rw [prefixRun_cons_out] at h
    rcases hp : pick t.kind with _ | op
    · rw [hp] at h
      cases h
      exact ⟨rfl, by simp, fun t' ht' => by cases ht'; exact hp⟩
    · rw [hp] at h
      simp only at h
      split at h
      · cases h
      · rcases hrec : (prefixRun cfg d pick (n + 1) rest).out with ⟨_ | ops', r'⟩
        · rw [hrec] at h
          cases h
        · rw [hrec] at h
          simp only [Except.map, Prod.mk.injEq, Except.ok.injEq] at h
          obtain ⟨rfl, rfl⟩ := h
          obtain ⟨hts, hops, hstop⟩ := prefixRun_sound pick d (n + 1) rest ops' r' hrec
          refine ⟨by simp [hts], ?_, hstop⟩
          intro o ho
          rcases List.mem_cons.mp ho with rfl | ho
          · exact hp
          · exact hops o ho

/-- What the argument list read: derivations of expressions separated by commas and closed by
`)`, their values after those in `acc`. -/
def ArgsRead (acc : List Expr) (ts : List Token) (call : List Expr × Token) (r : List Token) :
    Prop :=
  ∃ args commas, (∀ a ∈ args, Derives .imp a) ∧ (∀ c ∈ commas, c.kind = .comma) ∧
    commas.length + 1 = args.length ∧ call.2.kind = .rightParen ∧
    ts = Syn.argsYield args commas ++ call.2 :: r ∧
    ∃ xs, Syn.foldAll args = .ok xs ∧ call.1 = acc.reverse ++ xs

/-- What the call arguments read: derivations of expressions separated by commas, possibly
none, closed by `)`, and their values. -/
def CallArgs (ts : List Token) (call : List Expr × Token) (r : List Token) : Prop :=
  ∃ args commas, (∀ a ∈ args, Derives .imp a) ∧ Commas args commas ∧
    call.2.kind = .rightParen ∧ ts = Syn.argsYield args commas ++ call.2 :: r ∧
    Syn.foldAll args = .ok call.1

theorem ArgsRead.callArgs {ts : List Token} {call : List Expr × Token} {r : List Token}
    (h : ArgsRead [] ts call r) : CallArgs ts call r := by
  obtain ⟨args, commas, hargs, hcs, hlen, hclose, hts, xs, hxs, hcall⟩ := h
  refine ⟨args, commas, hargs, ⟨hcs, .inl hlen⟩, hclose, hts, ?_⟩
  rw [hxs, hcall, List.reverse_nil, List.nil_append]

/-! ## Every step of the parser reads a derivation -/

theorem sound_steps : Steps (fun d ts => Ends (Derived .imp ts) (expression cfg d ts).out)
    (fun d l ts => Ends (Derived l ts) (level cfg d l ts).out)
    (fun d l acc ts => l.isInfix → ∀ a, Derives l a → a.fold = .ok acc → Stops l.next a ts →
      Ends (Derived l (a.yield ++ ts)) (chain cfg d l acc ts).out)
    (fun d n e ts => ∀ s, Derives .primary s → s.isChain = true → s.fold = .ok e →
      Ends (Derived .primary (s.yield ++ ts)) (suffixes cfg d n e ts).out)
    (fun d ts => Ends (CallArgs ts) (arguments cfg d ts).out)
    (fun d acc ts => Ends (ArgsRead acc ts) (argumentList cfg d acc ts).out) := by
  constructor
  case expression =>
    intro d ts himp
    rw [expression_out]
    split
    · exact .error _ _
    · exact himp
  case primary_nil =>
    intro d
    rw [level_primary_nil_out]
    exact .error _ _
  case primary_cons =>
    intro d t rest hexpr hsuffixes
    rw [level_primary_cons_out]
    split
    · rename_i k hk
      rintro e r h
      obtain ⟨hv, rfl⟩ := Prod.mk.inj h
      exact ⟨.lit t, .lit hk, rfl, hv, stops_primary rfl _⟩
    · rename_i hk
      exact hsuffixes (.ident t) (.ident hk) rfl rfl
    · rename_i hk
      refine Ends.andThen fun inner r hout => ?_
      obtain ⟨s, hs, hrest, hfold, -⟩ := hexpr inner r hout
      rintro e r' h
      obtain ⟨c, rfl, hc, rfl⟩ := closeGroup_ok h
      refine ⟨.paren t s c, .paren hk hs hc, by simp [Syn.yield, hrest], ?_, stops_primary rfl r'⟩
      rw [Syn.fold, hfold]
      rfl
    · exact .error _ _
  case exponent =>
    intro d ts hbase hpower
    rw [level_exponent_out]
    refine Ends.andThen fun base r hout => ?_
    obtain ⟨b, hb, hts, hfold, hstop⟩ := hbase base r hout
    have hbe : Derives .exponent b := .next (by decide) hb
    cases r with
    | nil => exact .ok ⟨b, hbe, hts, hfold, fun _ h => by cases h⟩
    | cons t rest =>
      simp only
      split
      · rename_i hc
        split
        · exact .error _ _
        · refine Ends.andThen fun power r2 hout2 => ?_
          obtain ⟨p, hp, hrest, hpfold, hpstop⟩ :=
            hpower rest (Parsed.tail_lt_of_out hout) power r2 hout2
          rintro e r' h
          obtain ⟨hw, rfl⟩ := Prod.mk.inj h
          refine ⟨.binary .power t b p, .power hc hb hp, by simp [hts, hrest, Syn.yield], ?_, ?_⟩
          · exact Syn.fold_binary_ok hfold hpfold (bind_checkHeight_ok hw)
          · exact fun t' ht' hk => hpstop t' ht' (hk.mono (by decide))
      · rename_i hc
        exact .ok ⟨b, hbe, hts, hfold, fun t' ht' hk => by
          cases ht'
          exact hstop t rfl (extends_primary hk hc)⟩
  case prefix_level =>
    intro d l ts hl hoperand
    rw [level_prefix_out cfg d l hl]
    refine Ends.andThen fun ops r hout => ?_
    obtain ⟨hts, hops, -⟩ := prefixRun_sound l.prefixOp? d 0 ts ops r hout
    refine Ends.andThen fun x r2 hout2 => ?_
    obtain ⟨X, hX, hr, hxfold, hxstop⟩ := hoperand r (Parsed.rest_le_of_out hout) x r2 hout2
    rintro e r' h
    obtain ⟨hz, rfl⟩ := Prod.mk.inj h
    have hl' : l ≠ .primary := by rcases hl with rfl | rfl <;> decide
    refine ⟨X.wrap ops, .wrap (.next hl' hX) hops, ?_, ?_, ?_⟩
    · rw [hts, hr, Syn.yield_wrap, List.append_assoc]
    · rw [Syn.fold_wrap hxfold, bind_checkHeight_ok hz]
    · exact fun t ht hk => hxstop t ht (extends_next_of_unary_level hl (Extends.of_wrap hk))
  case infix_level =>
    intro d l ts hl hfirst hchain
    rw [level_infix_out cfg d l hl]
    refine Ends.andThen fun first r hout => ?_
    obtain ⟨a, ha, hts, hfold, hstop⟩ := hfirst first r hout
    have hl' : l ≠ .primary := by rintro rfl; cases hl
    rw [hts]
    exact hchain first r (Parsed.rest_le_of_out hout) hl a (.next hl' ha) hfold hstop
  case chain_nil =>
    intro d l acc hl a ha hfold hstop
    rw [chain_nil_out]
    exact .ok ⟨a, ha, rfl, hfold, fun _ h => by cases h⟩
  case chain_cons =>
    intro d l acc t rest hright hchain hl a ha hfold hstop
    rw [chain_cons_out]
    split
    · rename_i hnone
      exact .ok ⟨a, ha, rfl, hfold, fun t' ht' hk => by
        cases ht'
        exact hstop t rfl (extends_next_of_binary_level hl hk hnone)⟩
    · rename_i op hop
      refine Ends.andThen fun right r hout => ?_
      obtain ⟨b, hb, hrest, hbfold, hbstop⟩ := hright right r hout
      refine Ends.andThen fun e r' hout' => ?_
      obtain ⟨hw, rfl⟩ := Prod.mk.inj hout'
      have h := hchain e r (Parsed.rest_le_of_out hout) hl (.binary op t a b) (.binary hl hop ha hb)
        (Syn.fold_binary_ok hfold hbfold (bind_checkHeight_ok hw)) hbstop
      rwa [hrest, show a.yield ++ t :: (b.yield ++ r) = (Syn.binary op t a b).yield ++ r by
        simp [Syn.yield]]
  case suffixes_nil =>
    intro d n e s hs hc hfold
    rw [suffixes_nil_out]
    rintro e' r h
    obtain ⟨he, rfl⟩ := Prod.mk.inj h
    exact ⟨s, hs, rfl, by rw [hfold, checkHeight_ok he], fun _ h => by cases h⟩
  case suffixes_cons =>
    intro d n e t rest hargs hsuffixes s hs hc hfold
    rw [suffixes_cons_out]
    split
    · rename_i hsuf
      split
      · exact .error _ _
      · split
        · rename_i hlp
          refine Ends.andThen fun call r hout => ?_
          obtain ⟨args, commas, hargs, hcommas, hclose, hrest, hvals⟩ := hargs call r hout
          have h := hsuffixes (n + 1) (.call e call.1 call.2) r (Parsed.rest_le_of_out hout)
            (.call s t args commas call.2) (.call hs hc hlp hargs hcommas hclose) rfl
            (by rw [Syn.fold, hfold, hvals]; rfl)
          rwa [show s.yield ++ t :: rest = (Syn.call s t args commas call.2).yield ++ r by
            simp [Syn.yield, hrest]]
        · rename_i hlp
          have hdot : t.kind = .dot := hsuf.resolve_left hlp
          cases rest with
          | cons m rest' =>
            simp only
            split
            · rename_i hm
              have h := hsuffixes (n + 1) (.member e m) rest' (by simp) (.member s t m)
                (.member hs hc hdot hm) rfl (by rw [Syn.fold, hfold]; rfl)
              rwa [show s.yield ++ t :: m :: rest' = (Syn.member s t m).yield ++ rest' by
                simp [Syn.yield]]
            · exact .error _ _
          | nil => exact .error _ _
    · rename_i hsuf
      rintro e' r h
      obtain ⟨he, rfl⟩ := Prod.mk.inj h
      exact ⟨s, hs, rfl, by rw [hfold, checkHeight_ok he], fun t' ht' hk => by
        cases ht'
        exact hsuf (suffix_of_extends_primary hk)⟩
  case arguments =>
    intro d ts hlist
    rw [arguments_out]
    cases ts with
    | cons c rest =>
      simp only
      split
      · rename_i hc
        exact .ok ⟨[], [], fun a h => (by cases h), ⟨fun c h => (by cases h), .inr ⟨rfl, rfl⟩⟩,
          hc, rfl, rfl⟩
      · exact fun call r h => (hlist call r h).callArgs
    | nil => exact fun call r h => (hlist call r h).callArgs
  case argument_list =>
    intro d acc ts harg hmore
    rw [argumentList_out]
    refine Ends.andThen fun arg r hout => ?_
    obtain ⟨A, hA, hts, hfold, -⟩ := harg arg r hout
    rcases r with _ | ⟨c, rest⟩
    · exact .error _ _
    · simp only
      split
      · rename_i hc
        rintro call r' h
        obtain ⟨args, commas, hargs, hcs, hl, hclose, hrest, xs, hxs, hcall⟩ :=
          hmore (arg :: acc) rest (Parsed.tail_lt_of_out hout) call r' h
        obtain ⟨b, more, rfl⟩ : ∃ b more, args = b :: more := by
          cases args with
          | nil => simp at hl
          | cons b more => exact ⟨b, more, rfl⟩
        refine ⟨A :: b :: more, c :: commas, ?_, ?_, by simp [hl], hclose, ?_, arg :: xs, ?_, ?_⟩
        · intro a ha
          rcases List.mem_cons.mp ha with rfl | ha
          · exact hA
          · exact hargs a ha
        · intro c' hc'
          rcases List.mem_cons.mp hc' with rfl | hc'
          · exact hc
          · exact hcs c' hc'
        · rw [hts, hrest]
          simp [Syn.argsYield]
        · rw [Syn.foldAll, hfold, hxs]
          rfl
        · rw [hcall]
          simp
      · split
        · rename_i hrp
          refine .ok ⟨[A], [], fun a ha => ?_, fun c h => (by cases h), rfl, hrp, ?_, [arg], ?_, ?_⟩
          · rw [List.mem_singleton.mp ha]
            exact hA
          · rw [hts, Syn.argsYield]
          · rw [Syn.foldAll, hfold]
            rfl
          · simp
        · exact .error _ _

theorem expression_sound (d : Nat) (ts : List Token) :
    Ends (Derived .imp ts) (expression cfg d ts).out :=
  sound_steps.expression_holds d ts

theorem level_sound (d : Nat) (l : Level) (ts : List Token) :
    Ends (Derived l ts) (level cfg d l ts).out :=
  sound_steps.level_holds d l ts

theorem arguments_sound (d : Nat) (ts : List Token) :
    Ends (CallArgs ts) (arguments cfg d ts).out :=
  sound_steps.arguments_holds d ts

end Parse

end ScriptFold
