import Mathlib
import ScriptFold.Proofs.ParseComplete
import ScriptFold.Proofs.ParseSound
/-!
The parser reads the longest start of its tokens that can begin an expression. It succeeds
exactly when that start is itself an expression whose derivation folds, and then it returns the
folded derivation and stops right after it.

Sentences are read by their token kinds: any literal kind stands for a literal and an identifier
for a name. Derivations look at nothing else, so a derivation can be moved onto any tokens of
the same kinds (`Derives.relabel`); a token that continues a derivation can always be followed
by more tokens to a longer one (`Derives.extend`). Together with completeness and soundness of
the parser this pins down where it stops.
-/
namespace ScriptFold

set_option autoImplicit false

open Parse

/-! ## Derivations see only token kinds -/

theorem kinds_append {ws a b : List Token} (h : ws.map Token.kind = (a ++ b).map Token.kind) :
    ∃ wa wb, ws = wa ++ wb ∧ wa.map Token.kind = a.map Token.kind ∧
      wb.map Token.kind = b.map Token.kind := by
  rw [List.map_append] at h
  exact List.map_eq_append_iff.mp h

theorem kinds_cons {ws : List Token} {t : Token} {b : List Token}
    (h : ws.map Token.kind = (t :: b).map Token.kind) :
    ∃ w wb, ws = w :: wb ∧ w.kind = t.kind ∧ wb.map Token.kind = b.map Token.kind := by
  rw [List.map_cons] at h
  exact List.map_eq_cons_iff.mp h

theorem relabel_args {args : List Syn} {commas : List Token}
    (ih : ∀ a ∈ args, ∀ ws : List Token, ws.map Token.kind = a.yield.map Token.kind →
      ∃ a', Derives .imp a' ∧ a'.yield = ws)
    (hc : Commas args commas) (ws : List Token)
    (hws : ws.map Token.kind = (Syn.argsYield args commas).map Token.kind) :
    ∃ args' commas', (∀ a ∈ args', Derives .imp a) ∧ Commas args' commas' ∧
      args'.length = args.length ∧ Syn.argsYield args' commas' = ws := by
  induction args generalizing commas ws with
  | nil =>
    obtain rfl : commas = [] := hc.eq_nil
    rw [Syn.argsYield, List.map_nil, List.map_eq_nil_iff] at hws
    subst hws
    exact ⟨[], [], by simp, ⟨by simp, .inr ⟨rfl, rfl⟩⟩, rfl, rfl⟩
  | cons a more ihm =>
    rcases more with _ | ⟨b, more⟩
    · obtain rfl : commas = [] :=
        List.length_eq_zero_iff.mp (by simpa using hc.length_succ (List.cons_ne_nil _ _))
      rw [Syn.argsYield] at hws
      obtain ⟨a', ha', rfl⟩ := ih a (by simp) ws hws
      exact ⟨[a'], [], by simpa using ha', ⟨by simp, .inl rfl⟩, rfl, by rw [Syn.argsYield]⟩
    · rcases commas with _ | ⟨c, cs⟩
      · simpa using hc.length_succ (List.cons_ne_nil _ _)
      · rw [Syn.argsYield] at hws
        obtain ⟨wa, wrest, rfl, hwa, hwrest⟩ := kinds_append hws
        obtain ⟨wc, wr, rfl, hwc, hwr⟩ := kinds_cons hwrest
        obtain ⟨a', ha', rfl⟩ := ih a (by simp) wa hwa
        have hlen : cs.length + 1 = (b :: more).length := by
          simpa using hc.length_succ (List.cons_ne_nil _ _)
        have hc' : Commas (b :: more) cs := ⟨fun x hx => hc.1 x (by simp [hx]), .inl hlen⟩
        obtain ⟨args', commas', hargs', hcs', hlen', hy'⟩ :=
          ihm (fun x hx => ih x (by simp [hx])) hc' wr hwr
        obtain ⟨b', more', rfl⟩ : ∃ b' more', args' = b' :: more' := by
          cases args' with
          | nil => simp at hlen'
          | cons b' more' => exact ⟨b', more', rfl⟩
        have hcomma : wc.kind = .comma := hwc.trans (hc.1 c (by simp))
        have hlen'' : commas'.length + 1 = (b' :: more').length :=
          hcs'.length_succ (List.cons_ne_nil _ _)
        refine ⟨a' :: b' :: more', wc :: commas', ?_, ⟨?_, .inl (by simp [hlen''])⟩,
          by simp [hlen'], by rw [Syn.argsYield, hy']⟩
        · intro x hx
          rcases List.mem_cons.mp hx with rfl | hx
          · exact ha'
          · exact hargs' x hx
        · intro x hx
          rcases List.mem_cons.mp hx with rfl | hx
          · exact hcomma
          · exact hcs'.1 x hx

theorem Derives.relabel {l : Level} {s : Syn} (h : Derives l s) (ws : List Token)
    (hws : ws.map Token.kind = s.yield.map Token.kind) :
    ∃ s', Derives l s' ∧ s'.yield = ws ∧ s'.isChain = s.isChain := by
  induction h generalizing ws with
  | @lit t k hk =>
    obtain ⟨w, rfl, hw⟩ := List.map_eq_singleton_iff.mp hws
    exact ⟨.lit w, .lit (hw.trans hk), rfl, rfl⟩
  | @ident t hk =>
    obtain ⟨w, rfl, hw⟩ := List.map_eq_singleton_iff.mp hws
    exact ⟨.ident w, .ident (hw.trans hk), rfl, rfl⟩
  | @member o dot n _ hc hdot hn ih =>
    obtain ⟨wo, wdn, rfl, hwo, hwdn⟩ := kinds_append hws
    obtain ⟨wd, wn, rfl, hwd, hwn⟩ := kinds_cons hwdn
    obtain ⟨wn', rfl, hwn'⟩ := List.map_eq_singleton_iff.mp hwn
    obtain ⟨o', ho', rfl, hc'⟩ := ih wo hwo
    exact ⟨.member o' wd wn', .member ho' (hc'.trans hc) (hwd.trans hdot) (hwn'.trans hn), rfl,
      rfl⟩
  | @call f lp rp args commas _ hc hlp _ hcs hrp ihf iha =>
    obtain ⟨wfa, wr, rfl, hwfa, hwr⟩ := kinds_append hws
    obtain ⟨wf, wla, rfl, hwf, hwla⟩ := kinds_append hwfa
    obtain ⟨wl, wa, rfl, hwl, hwa⟩ := kinds_cons hwla
    obtain ⟨wr', rfl, hwr'⟩ := List.map_eq_singleton_iff.mp hwr
    obtain ⟨f', hf', rfl, hc'⟩ := ihf wf hwf
    obtain ⟨args', commas', hargs', hcs', -, rfl⟩ :=
      relabel_args (fun a ha ws hws => (iha a ha ws hws).imp fun _ h => ⟨h.1, h.2.1⟩) hcs wa hwa
    exact ⟨.call f' wl args' commas' wr', .call hf' (hc'.trans hc) (hwl.trans hlp) hargs' hcs'
      (hwr'.trans hrp), by simp [Syn.yield], rfl⟩
  | @paren lp rp e hlp _ hrp ih =>
    obtain ⟨wle, wr, rfl, hwle, hwr⟩ := kinds_append hws
    obtain ⟨wl, we, rfl, hwl, hwe⟩ := kinds_cons hwle
    obtain ⟨wr', rfl, hwr'⟩ := List.map_eq_singleton_iff.mp hwr
    obtain ⟨e', he', rfl, -⟩ := ih we hwe
    exact ⟨.paren wl e' wr', .paren (hwl.trans hlp) he' (hwr'.trans hrp), by simp [Syn.yield], rfl⟩
  | next hl _ ih =>
    obtain ⟨s', hs', hy, hc⟩ := ih ws hws
    exact ⟨s', .next hl hs', hy, hc⟩
  | @power c b p hc _ _ ihb ihp =>
    obtain ⟨wb, wrest, rfl, hwb, hwrest⟩ := kinds_append hws
    obtain ⟨wc, wp, rfl, hwc, hwp⟩ := kinds_cons hwrest
    obtain ⟨b', hb', rfl, -⟩ := ihb wb hwb
    obtain ⟨p', hp', rfl, -⟩ := ihp wp hwp
    exact ⟨.binary .power wc b' p', .power (hwc.trans hc) hb' hp', rfl, rfl⟩
  | @unary l op t e hop _ ih =>
    obtain ⟨w, we, rfl, hw, hwe⟩ := kinds_cons hws
    obtain ⟨e', he', rfl, -⟩ := ih we hwe
    exact ⟨.unary op w e', .unary (hw ▸ hop) he', rfl, rfl⟩
  | @binary l op c a b hinf hop _ _ iha ihb =>
    obtain ⟨wa, wrest, rfl, hwa, hwrest⟩ := kinds_append hws
    obtain ⟨wc, wb, rfl, hwc, hwb⟩ := kinds_cons hwrest
    obtain ⟨a', ha', rfl, -⟩ := iha wa hwa
    obtain ⟨b', hb', rfl, -⟩ := ihb wb hwb
    exact ⟨.binary op wc a' b', .binary hinf (hwc ▸ hop) ha' hb', rfl, rfl⟩

/-! ## No end token in a derivation -/

theorem Syn.mem_argsYield {t : Token} : ∀ {args : List Syn} {commas : List Token},
    t ∈ Syn.argsYield args commas → (∃ a ∈ args, t ∈ a.yield) ∨ t ∈ commas
  | [], _, h => by simp [Syn.argsYield] at h
  | [a], _, h => .inl ⟨a, by simp, by rwa [Syn.argsYield] at h⟩
  | a :: b :: more, c :: cs, h => by
    rw [Syn.argsYield, List.mem_append, List.mem_cons] at h
    rcases h with h | rfl | h
    · exact .inl ⟨a, by simp, h⟩
    · exact .inr (by simp)
    · rcases Syn.mem_argsYield h with ⟨x, hx, ht⟩ | ht
      · exact .inl ⟨x, List.mem_cons_of_mem a hx, ht⟩
      · exact .inr (List.mem_cons_of_mem c ht)
  | a :: b :: more, [], h => by
    rw [Syn.argsYield, List.mem_append] at h
    rcases h with h | h
    · exact .inl ⟨a, by simp, h⟩
    · rcases Syn.mem_argsYield h with ⟨x, hx, ht⟩ | ht
      · exact .inl ⟨x, List.mem_cons_of_mem a hx, ht⟩
      · cases ht

/-- Kinds that no rule of the grammar reads: no literal or name, none of `.`, `(`, `)` and `,`,
and no operator. -/
def TokenKind.Unread (k : TokenKind) : Prop :=
  k.isLiteral = false ∧ k ≠ .identifier ∧ k ≠ .dot ∧ k ≠ .leftParen ∧ k ≠ .rightParen ∧
    k ≠ .comma ∧ BinaryOp.ofTokenKind? k = none ∧ UnaryOp.ofTokenKind? k = none

theorem Derives.kind_ne {l : Level} {s : Syn} (h : Derives l s) {k : TokenKind} (hk : k.Unread) :
    ∀ t ∈ s.yield, t.kind ≠ k := by
  obtain ⟨hlit, hid, hdot, hlp, hrp, hcomma, hbin, hun⟩ := hk
  induction h with
  | @lit t0 k0 hk0 =>
    intro t ht
    rw [List.mem_singleton.mp ht, hk0]
    rintro rfl
    cases hlit
  | @ident t0 hk0 =>
    intro t ht
    rw [List.mem_singleton.mp ht, hk0]
    exact hid.symm
  | @member o dot n _ _ hd hn ih =>
    intro t ht
    simp only [Syn.yield, List.mem_append, List.mem_cons, List.not_mem_nil, or_false] at ht
    rcases ht with ht | rfl | rfl
    · exact ih t ht
    · rw [hd]; exact hdot.symm
    · rw [hn]; exact hid.symm
  | @call f lp rp args commas _ _ hl _ hcs hr ihf iha =>
    intro t ht
    simp only [Syn.yield, List.mem_append, List.mem_cons, List.not_mem_nil, or_false] at ht
    rcases ht with (ht | rfl | ht) | rfl
    · exact ihf t ht
    · rw [hl]; exact hlp.symm
    · rcases Syn.mem_argsYield ht with ⟨a, ha, ht⟩ | ht
      · exact iha a ha t ht
      · rw [hcs.1 t ht]; exact hcomma.symm
    · rw [hr]; exact hrp.symm
  | @paren lp rp e hl _ hr ih =>
    intro t ht
    simp only [Syn.yield, List.mem_append, List.mem_cons, List.not_mem_nil, or_false] at ht
    rcases ht with (rfl | ht) | rfl
    · rw [hl]; exact hlp.symm
    · exact ih t ht
    · rw [hr]; exact hrp.symm
  | next _ _ ih => exact ih
  | @power c b p hc _ _ ihb ihp =>
    intro t ht
    simp only [Syn.yield, List.mem_append, List.mem_cons] at ht
    rcases ht with ht | rfl | ht
    · exact ihb t ht
    · rw [hc]
      rintro rfl
      cases hbin
    · exact ihp t ht
  | @unary l op t0 e hop _ ih =>
    intro t ht
    rcases List.mem_cons.mp ht with rfl | ht
    · rintro rfl
      rcases Level.prefixOp?_some hop with ⟨-, hk, -⟩ | ⟨-, hk, -⟩ | ⟨-, hk, -⟩ <;>
        rw [hk] at hun <;> cases hun
    · exact ih t ht
  | @binary l op c a b _ hop _ _ iha ihb =>
    intro t ht
    simp only [Syn.yield, List.mem_append, List.mem_cons] at ht
    rcases ht with ht | rfl | ht
    · exact iha t ht
    · rintro rfl
      rw [(Level.infixOp?_level hop).1] at hbin
      cases hbin
    · exact ihb t ht

theorem Derives.kind_ne_eof {l : Level} {s : Syn} (h : Derives l s) :
    ∀ t ∈ s.yield, t.kind ≠ .eof :=
  h.kind_ne (by unfold TokenKind.Unread; decide)

theorem Derives.kind_ne_newline {l : Level} {s : Syn} (h : Derives l s) :
    ∀ t ∈ s.yield, t.kind ≠ .newline :=
  h.kind_ne (by unfold TokenKind.Unread; decide)

/-! ## Longer derivations -/

theorem Derives.ident_at {w : Token} (hw : w.kind = .identifier) (l : Level) :
    Derives l (.ident w) := by
  induction l using Level.induction_next with
  | primary => exact .ident hw
  | step l hl ih => exact .next hl ih

theorem extend_chain {s : Syn} (hs : Derives .primary s) (hc : s.isChain = true) {t : Token}
    (hx : Extends .primary s t.kind) :
    ∃ v s', Derives .primary s' ∧ s'.yield = s.yield ++ t :: v := by
  rcases suffix_of_extends_primary hx with hk | hk
  · let rp : Token := ⟨.rightParen, ")", ⟨0, 0⟩⟩
    exact ⟨[rp], .call s t [] [] rp, .call hs hc hk (by simp) ⟨by simp, .inr ⟨rfl, rfl⟩⟩ rfl,
      by simp [Syn.yield, Syn.argsYield]⟩
  · let n : Token := ⟨.identifier, "x", ⟨0, 0⟩⟩
    exact ⟨[n], .member s t n, .member hs hc hk rfl, by simp [Syn.yield]⟩

theorem Derives.extend {l : Level} {s : Syn} (h : Derives l s) {t : Token}
    (hx : Extends l s t.kind) : ∃ v s', Derives l s' ∧ s'.yield = s.yield ++ t :: v := by
  let x : Token := ⟨.identifier, "x", ⟨0, 0⟩⟩
  induction h with
  | lit => exact absurd hx (stops_primary rfl [t] t rfl)
  | ident hk => exact extend_chain (.ident hk) rfl hx
  | member ho hc hdot hn _ => exact extend_chain (.member ho hc hdot hn) rfl hx
  | call hf hc hlp ha hcs hrp _ _ => exact extend_chain (.call hf hc hlp ha hcs hrp) rfl hx
  | paren => exact absurd hx (stops_primary rfl [t] t rfl)
  | @next l s hl hs ih =>
    by_cases hinf : l.isInfix
    · rcases hop : l.infixOp? t.kind with _ | op
      · obtain ⟨v, s', hs', hy⟩ := ih (extends_next_of_binary_level hinf hx hop)
        exact ⟨v, s', .next hl hs', hy⟩
      · exact ⟨[x], .binary op t s (.ident x), .binary hinf hop (.next hl hs) (.ident_at rfl _),
          by simp [Syn.yield]⟩
    · rcases Level.exponent_or_unary hl hinf with rfl | hp
      · by_cases hc : t.kind = .caret
        · exact ⟨[x], .binary .power t s (.ident x), .power hc hs (.ident_at rfl _),
            by simp [Syn.yield]⟩
        · obtain ⟨v, s', hs', hy⟩ := ih (extends_primary hx hc)
          exact ⟨v, s', .next hl hs', hy⟩
      · obtain ⟨v, s', hs', hy⟩ := ih (extends_next_of_unary_level hp hx)
        exact ⟨v, s', .next hl hs', hy⟩
  | @power c b p hc hb _ _ ihp =>
    obtain ⟨v, p', hp', hy⟩ := ihp (hx.mono (by decide) : Extends .sign p t.kind)
    exact ⟨v, .binary .power c b p', .power hc hb hp', by simp [Syn.yield, hy]⟩
  | @unary l op t0 e hop _ ih =>
    obtain ⟨v, e', he', hy⟩ := ih hx
    exact ⟨v, .unary op t0 e', .unary hop he', by simp [Syn.yield, hy]⟩
  | @binary l op c a b hinf hop ha hb _ ihb =>
    rcases hop' : l.infixOp? t.kind with _ | op'
    · obtain ⟨v, b', hb', hy⟩ := ihb (extends_next_of_binary_level hinf hx hop')
      exact ⟨v, .binary op c a b', .binary hinf hop ha hb', by simp [Syn.yield, hy]⟩
    · exact ⟨[x], .binary op' t (.binary op c a b) (.ident x),
        .binary hinf hop' (.binary hinf hop ha hb) (.ident_at rfl _), by simp [Syn.yield]⟩

/-! ## The longest start that can begin an expression -/

/-- The kinds `ks` begin an expression of the grammar. -/
def Viable (ks : List TokenKind) : Prop :=
  ∃ s v, Derives .imp s ∧ s.yield.map Token.kind = ks ++ v

/-- `k` is the length of the longest start of `ts` whose kinds begin an expression. -/
def LongestViable (ts : List Token) (k : Nat) : Prop :=
  Viable ((ts.take k).map Token.kind) ∧ ∀ j, Viable ((ts.take j).map Token.kind) → j ≤ k

theorem Viable.of_append {ks ks' : List TokenKind} (h : Viable (ks ++ ks')) : Viable ks := by
  obtain ⟨s, v, hs, hy⟩ := h
  exact ⟨s, ks' ++ v, hs, by rw [hy, List.append_assoc]⟩

theorem Viable.take {ts : List Token} {i j : Nat} (h : Viable ((ts.take j).map Token.kind))
    (hij : i ≤ j) : Viable ((ts.take i).map Token.kind) := by
  rw [← List.take_append_drop i (ts.take j), List.take_take, Nat.min_eq_left hij,
    List.map_append] at h
  exact h.of_append

theorem LongestViable.unique {ts : List Token} {k k' : Nat} (h : LongestViable ts k)
    (h' : LongestViable ts k') : k = k' :=
  Nat.le_antisymm (h'.2 k h.1) (h.2 k' h'.1)

theorem not_viable_of_eof {ts : List Token} (hend : ∃ t, ts.getLast? = some t ∧ t.kind = .eof) :
    ¬Viable (ts.map Token.kind) := by
  obtain ⟨t, hlast, heof⟩ := hend
  rintro ⟨s, v, hs, hy⟩
  have hk : t.kind ∈ s.yield.map Token.kind := by
    rw [hy]
    exact List.mem_append_left _ (List.mem_map_of_mem (List.mem_of_getLast? hlast))
  obtain ⟨t', ht', hkind⟩ := List.mem_map.mp hk
  exact hs.kind_ne_eof t' ht' (hkind.trans heof)

theorem LongestViable.lt_length {ts : List Token} {k : Nat} (hk : LongestViable ts k)
    (hend : ∃ t, ts.getLast? = some t ∧ t.kind = .eof) : k < ts.length := by
  refine Nat.lt_of_not_le fun hge => not_viable_of_eof hend ?_
  have h := hk.1
  rwa [List.take_of_length_le hge] at h

theorem exists_longestViable {ts : List Token}
    (hend : ∃ t, ts.getLast? = some t ∧ t.kind = .eof) : ∃ k, LongestViable ts k := by
  have hbound : ∀ j, Viable ((ts.take j).map Token.kind) → j ≤ ts.length := by
    intro j hj
    refine Nat.le_of_not_lt fun hlt => not_viable_of_eof hend ?_
    have h := hj.take (Nat.le_of_lt hlt)
    rwa [List.take_length] at h
  have hzero : Viable ((ts.take 0).map Token.kind) :=
    ⟨.ident ⟨.identifier, "x", ⟨0, 0⟩⟩, _, .ident_at rfl _, rfl⟩
  suffices ∀ n, (∀ j, Viable ((ts.take j).map Token.kind) → j ≤ n) → ∃ k, LongestViable ts k from
    this ts.length hbound
  intro n
  induction n with
  | zero => exact fun h => ⟨0, hzero, h⟩
  | succ n ih =>
    intro h
    by_cases hn : Viable ((ts.take (n + 1)).map Token.kind)
    · exact ⟨n + 1, hn, h⟩
    · refine ih fun j hj => Nat.le_of_lt_succ (Nat.lt_of_le_of_ne (h j hj) ?_)
      rintro rfl
      exact hn hj

theorem not_viable_after {s : Syn} (hs : Derives .imp s) {e : Expr} (he : s.fold = .ok e)
    {t : Token} (hx : ¬Extends .imp s t.kind) : ¬Viable ((s.yield ++ [t]).map Token.kind) := by
  rintro ⟨s', v, hs', hy⟩
  let u := s'.yield.drop (s.yield.length + 1)
  have hlen : ((s.yield ++ [t]).map Token.kind).length = s.yield.length + 1 := by simp
  have hv : (s'.yield.map Token.kind).drop (s.yield.length + 1) = v := by
    rw [hy, ← hlen, List.drop_left]
  have hkinds : (s.yield ++ t :: u).map Token.kind = s'.yield.map Token.kind :=
    calc (s.yield ++ t :: u).map Token.kind = (s.yield ++ [t]).map Token.kind ++ u.map Token.kind := by
          simp
      _ = (s.yield ++ [t]).map Token.kind ++ v := by rw [← hv, List.map_drop]
      _ = s'.yield.map Token.kind := hy.symm
  obtain ⟨s'', hs'', hy'', -⟩ := hs'.relabel _ hkinds
  let cfg : Limits := ⟨s''.yield.length + 1, s''.yield.length⟩
  let eof := Token.eof 0
  have hlong : s.yield.length + 1 ≤ s''.yield.length := by simp [hy'']
  have hshort : Follows (expression cfg 0 (s.yield ++ t :: (u ++ [eof]))).out s.fold
      fun e => (.ok e, t :: (u ++ [eof])) :=
    Parse.expression_complete hs (by simp [cfg]; omega) (by simp [cfg]; omega) hx (u ++ [eof])
  have hwhole : Follows (expression cfg 0 (s''.yield ++ [eof])).out s''.fold
      fun e => (.ok e, [eof]) :=
    Parse.expression_complete hs'' (by simp [cfg]) (by simp [cfg])
      (not_extends rfl (by decide) (by decide)) []
  rw [he, Follows.ok_iff] at hshort
  rw [hy'', show s.yield ++ t :: u ++ [eof] = s.yield ++ t :: (u ++ [eof]) by simp, hshort]
    at hwhole
  rcases hf : s''.fold with err | e''
  · rw [hf] at hwhole
    cases hwhole
  · rw [hf, Follows.ok_iff] at hwhole
    have := congrArg (fun o => o.2.length) hwhole
    simp at this

theorem longest_of_stop {s : Syn} (hs : Derives .imp s) {e : Expr} (he : s.fold = .ok e)
    {t : Token} (hx : ¬Extends .imp s t.kind) (r : List Token) :
    LongestViable (s.yield ++ t :: r) s.yield.length := by
  refine ⟨⟨s, [], hs, by simp⟩, fun j hj => Nat.le_of_not_lt fun hlt => ?_⟩
  have h := hj.take (i := s.yield.length + 1) hlt
  rw [List.take_length_add_append] at h
  exact not_viable_after hs he hx h

theorem LongestViable.stop {ts : List Token} {k : Nat} (hk : LongestViable ts k)
    (hlt : k < ts.length) {s : Syn} (hs : Derives .imp s) (hy : s.yield = ts.take k) :
    ∃ t rest, ts = s.yield ++ t :: rest ∧ ts.drop k = t :: rest ∧ ¬Extends .imp s t.kind := by
  obtain ⟨t, rest, hdrop⟩ : ∃ t rest, ts.drop k = t :: rest :=
    ⟨_, _, List.drop_eq_getElem_cons hlt⟩
  have hts : ts = s.yield ++ t :: rest := by
    rw [hy, ← hdrop, List.take_append_drop]
  refine ⟨t, rest, hts, hdrop, fun hext => ?_⟩
  obtain ⟨v, s', hs', hy'⟩ := hs.extend hext
  have hlen : s.yield.length = k := by
    rw [hy, List.length_take]
    omega
  have hnext : ts.take (k + 1) = s.yield ++ [t] := by
    rw [hts, ← hlen, List.take_length_add_append]
    rfl
  have hviable : Viable ((ts.take (k + 1)).map Token.kind) :=
    ⟨s', v.map Token.kind, hs', by rw [hy', hnext]; simp⟩
  exact absurd (hk.2 _ hviable) (by omega)

/-- **The parser reads the longest start that can begin an expression.** For tokens that end with
an end token and limits with room for every token, there is a longest start `k` of the tokens
whose kinds begin an expression. The parser succeeds exactly when those `k` tokens are an
expression whose derivation folds, returning the folded derivation and stopping after them;
when they are an expression, its result is their fold, failure included. -/
theorem parse_reads_longest_sentence {cfg : Limits} {ts : List Token}
    (hend : ∃ t, ts.getLast? = some t ∧ t.kind = .eof) (hd : ts.length ≤ cfg.maxDepth)
    (hh : ts.length ≤ cfg.maxHeight) :
    (∃ k, LongestViable ts k) ∧ ∀ k, LongestViable ts k →
      (∀ e, (Expr.parseTokens cfg ts).result = .ok e ↔
        ∃ s, Derives .imp s ∧ s.yield = ts.take k ∧ s.fold = .ok e) ∧
      (∀ s, Derives .imp s → s.yield = ts.take k → (Expr.parseTokens cfg ts).result = s.fold) ∧
      (∀ e, (Expr.parseTokens cfg ts).result = .ok e →
        (Expr.parseTokens cfg ts).rest = ts.drop k) := by
  refine ⟨exists_longestViable hend, fun k hk => ?_⟩
  have hlt := hk.lt_length hend
  have hread : ∀ s, Derives .imp s → s.yield = ts.take k →
      Follows (Expr.parseTokens cfg ts).out s.fold fun e => (.ok e, ts.drop k) := by
    intro s hs hy
    obtain ⟨t, rest, hts, hdrop, hx⟩ := hk.stop hlt hs hy
    have hlen : s.yield.length < ts.length := by
      rw [hts]
      simp
    have h : Follows (expression cfg 0 (s.yield ++ t :: rest)).out s.fold
        fun e => (.ok e, t :: rest) :=
      Parse.expression_complete hs (by omega) (by omega) hx rest
    rw [← hts] at h
    rw [hdrop]
    exact h
  have haccept : ∀ e, (Expr.parseTokens cfg ts).result = .ok e →
      ∃ s, Derives .imp s ∧ s.yield = ts.take k ∧ s.fold = .ok e := by
    intro e he
    have hout : (Expr.parseTokens cfg ts).out = (.ok e, (Expr.parseTokens cfg ts).rest) := by
      rw [← he]
      rfl
    obtain ⟨s, hs, hts, hfold, hstop⟩ := expression_sound 0 ts e _ hout
    obtain ⟨t, r, hr⟩ : ∃ t r, (Expr.parseTokens cfg ts).rest = t :: r := by
      rcases hrest : (Expr.parseTokens cfg ts).rest with _ | ⟨t, r⟩
      · rw [hrest, List.append_nil] at hts
        exact absurd ⟨s, [], hs, by rw [hts, List.append_nil]⟩ (not_viable_of_eof hend)
      · exact ⟨t, r, rfl⟩
    rw [hr] at hts
    have hk' := hk.unique (hts ▸ longest_of_stop hs hfold (hstop t (by rw [hr]; rfl)) r)
    refine ⟨s, hs, ?_, hfold⟩
    rw [hk', hts, List.take_left]
  refine ⟨fun e => ⟨haccept e, ?_⟩, fun s hs hy => (hread s hs hy).fst, fun e he => ?_⟩
  · rintro ⟨s, hs, hy, he⟩
    rw [← he]
    exact (hread s hs hy).fst
  · obtain ⟨s, hs, hy, hfold⟩ := haccept e he
    have h := hread s hs hy
    rw [hfold, Follows.ok_iff] at h
    exact congrArg Prod.snd h

/-- A name followed by a stray `)`, with the widest limits: the theorem applies as stated. -/
theorem parse_reads_longest_sentence_stray_paren :
    let ts := [Token.mk .identifier "a" ⟨0, 1⟩, Token.mk .rightParen ")" ⟨1, 2⟩, Token.eof 2]
    let cfg : Limits := ⟨2 ^ 64 - 1, 2 ^ 64 - 1⟩
    ((∃ t, ts.getLast? = some t ∧ t.kind = .eof) ∧ ts.length ≤ cfg.maxDepth ∧
      ts.length ≤ cfg.maxHeight) ∧
    (∃ k, LongestViable ts k) ∧ ∀ k, LongestViable ts k →
      (∀ e, (Expr.parseTokens cfg ts).result = .ok e ↔
        ∃ s, Derives .imp s ∧ s.yield = ts.take k ∧ s.fold = .ok e) ∧
      (∀ s, Derives .imp s → s.yield = ts.take k → (Expr.parseTokens cfg ts).result = s.fold) ∧
      (∀ e, (Expr.parseTokens cfg ts).result = .ok e →
        (Expr.parseTokens cfg ts).rest = ts.drop k) := by
  intro ts cfg
  have hend : ∃ t, ts.getLast? = some t ∧ t.kind = .eof := ⟨Token.eof 2, rfl, rfl⟩
  have hd : ts.length ≤ cfg.maxDepth := by decide
  have hh : ts.length ≤ cfg.maxHeight := by decide
  exact ⟨⟨hend, hd, hh⟩, parse_reads_longest_sentence hend hd hh⟩

end ScriptFold
