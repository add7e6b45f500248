import Mathlib
import ScriptFold.Proofs.Folding
import ScriptFold.Proofs.ParseComplete
/-!
The limits decide only whether a parse stops at one of them.

Every depth check of the parser compares the nesting so far with `maxDepth` and every height
check compares a tree with `maxHeight`, and nothing else reads the limits. So a run under other
limits makes the same steps as long as each check it meets comes out the same way
(`Parse.agrees_steps`): with at least as much room for nesting, and either at least as much height
or a result no taller than the new height limit, a run that did not stop at a limit returns the
same outcome and leaves the same tokens. The second case needs that trees only grow along a run:
every node checked on the way is a subtree of the result, or a constant (`chain_height`,
`suffixes_height`).

Main statement: `parse_limits_monotone_exact`, for every source text. Raising the limits changes
nothing but failures at a limit, and a tree is returned under a height limit exactly when it is
returned without one and is no taller.
-/
namespace ScriptFold

set_option autoImplicit false

namespace Parse

/-! ## Trees only grow -/

theorem foldBinary_height_ge {op : BinaryOp} {t : Token} {l r e : Expr}
    (h : foldBinary op t l r = .ok e) : l.height ≤ e.height ∧ r.height ≤ e.height := by
  rcases foldBinary_eq_ok_iff.mp h with ⟨a, sa, b, sb, _, rfl, rfl, -, rfl⟩ | ⟨-, rfl⟩
  · simp [Expr.height]
  · simp only [Expr.height]
    omega

theorem foldUnary_height_ge {op : UnaryOp} {t : Token} {x e : Expr}
    (h : foldUnary op t x = .ok e) : x.height ≤ e.height := by
  rcases foldUnary_eq_ok_iff.mp h with ⟨a, sa, _, rfl, -, rfl⟩ | ⟨-, rfl⟩
  all_goals simp [Expr.height]

theorem applyPrefixOps_height_ge (ops : List (UnaryOp × Token)) {x e : Expr}
    (h : applyPrefixOps ops x = .ok e) : x.height ≤ e.height := by
  induction ops generalizing e with
  | nil =>
    cases h
    exact Nat.le_refl _
  | cons o ops ih =>
    rw [applyPrefixOps_cons] at h
    obtain ⟨y, hy, hu⟩ := Except.bind_eq_ok.mp h
    exact Nat.le_trans (ih hy) (foldUnary_height_ge hu)

variable {cfg : Limits}

theorem checkHeight_le {e e' : Expr} {ts : List Token} (h : checkHeight cfg e ts = .ok e') :
    e'.height ≤ cfg.maxHeight := by
  unfold checkHeight at h
  split at h
  · cases h
    assumption
  · cases h

theorem bind_checkHeight_le {x : Except ParseError Expr} {e : Expr} {ts : List Token}
    (h : x.bind (checkHeight cfg · ts) = .ok e) : e.height ≤ cfg.maxHeight := by
  obtain ⟨y, -, hy⟩ := Except.bind_eq_ok.mp h
  exact checkHeight_le hy

theorem chain_height (d : Nat) (l : Level) (acc : Expr) (ts : List Token) {x : Expr}
    {r : List Token} (h : (chain cfg d l acc ts).out = (.ok x, r)) :
    acc.height ≤ x.height ∧ (acc.height ≤ cfg.maxHeight → x.height ≤ cfg.maxHeight) := by
  match ts with
  | [] =>
    rw [chain_nil_out] at h
    cases h
    exact ⟨Nat.le_refl _, id⟩
  | t :: rest =>
    rw [chain_cons_out] at h
    split at h
    · cases h
      exact ⟨Nat.le_refl _, id⟩
    · rcases hright : (level cfg d l.next rest).out with ⟨_ | right, r1⟩
      · rw [hright] at h
        cases h
      · rw [hright, andThen_ok] at h
        have hlen := Parsed.rest_le_of_out hright
        rcases hfold : (foldBinary _ t acc right).bind (checkHeight cfg · r1) with _ | e
        · rw [hfold] at h
          cases h
        · rw [hfold, andThen_ok] at h
          obtain ⟨y, hy, hchk⟩ := Except.bind_eq_ok.mp hfold
          have hye : e = y := checkHeight_ok hchk
          subst hye
          have hge := (foldBinary_height_ge hy).1
          have hle := checkHeight_le hchk
          have ih := chain_height d l e r1 h
          exact ⟨Nat.le_trans hge ih.1, fun _ => ih.2 hle⟩
termination_by ts.length
decreasing_by simp only [List.length_cons]; omega

theorem suffixes_height (d n : Nat) (e : Expr) (ts : List Token) {x : Expr} {r : List Token}
    (h : (suffixes cfg d n e ts).out = (.ok x, r)) : e.height ≤ x.height := by
  match ts with
  | [] =>
    rw [suffixes_nil_out] at h
    cases checkHeight_ok (congrArg Prod.fst h)
    exact Nat.le_refl _
  | t :: rest =>
    rw [suffixes_cons_out] at h
    split at h
    · split at h
      · cases h
      · split at h
        · rcases hargs : (arguments cfg d rest).out with ⟨_ | call, r1⟩
          · rw [hargs] at h
            cases h
          · rw [hargs, andThen_ok] at h
            have hlen := Parsed.rest_le_of_out hargs
            have ih := suffixes_height d (n + 1) _ r1 h
            simp only [Expr.height] at ih
            omega
        · rcases hrest : rest with _ | ⟨m, rest'⟩
          · simp only [hrest] at h
            cases h
          · have hlt : rest'.length < rest.length := by simp [hrest]
            simp only [hrest] at h
            split at h
            · have ih := suffixes_height d (n + 1) _ rest' h
              simp only [Expr.height] at ih
              omega
            · cases h
    · cases checkHeight_ok (congrArg Prod.fst h)
      exact Nat.le_refl _
termination_by ts.length
decreasing_by
  all_goals
    simp only [List.length_cons] at *
    omega

/-! ## Runs under other limits -/

/-- An outcome that is no failure at a limit. -/
def Unlimited {α : Type} (o : Except ParseError α × List Token) : Prop :=
  ∀ n sp, o.1 ≠ .error (.recursionLimit n sp)

/-- Height room under the limits `cfg'` for an outcome under `cfg`: at least the height `cfg`
allows, or a result that `tall` finds within the height `cfg'` allows. -/
def HeightRoom {α : Type} (tall : α → Nat) (cfg cfg' : Limits)
    (o : Except ParseError α × List Token) : Prop :=
  cfg.maxHeight ≤ cfg'.maxHeight ∨ ∃ a r, o = (.ok a, r) ∧ tall a ≤ cfg'.maxHeight

/-- The outcome `o'` of a step under `cfg'` is the outcome `o` of the same step under `cfg`
whenever `o` is no failure at a limit and leaves height room. -/
def Agrees {α : Type} (tall : α → Nat) (cfg cfg' : Limits) (o o' : Except ParseError α × List Token) :
    Prop :=
  Unlimited o → HeightRoom tall cfg cfg' o → o' = o

section Outcomes

variable {α β : Type} {o : Except ParseError α × List Token}
  {k : α → List Token → Except ParseError β × List Token}

theorem andThen_congr {k' : α → List Token → Except ParseError β × List Token}
    (hk : ∀ a r, o = (.ok a, r) → k' a r = k a r) : andThen o k' = andThen o k := by
  rcases o with ⟨_ | a, r⟩
  · rfl
  · exact hk a r rfl

namespace Unlimited

theorem left (h : Unlimited (andThen o k)) : Unlimited o := by
  rcases o with ⟨_ | a, r⟩
  · intro n sp h'
    exact h n sp (by cases h'; rfl)
  · intro n sp h'
    cases h'

theorem right (h : Unlimited (andThen o k)) {a : α} {r : List Token} (ho : o = (.ok a, r)) :
    Unlimited (k a r) := by
  subst ho
  exact h

end Unlimited

namespace HeightRoom

variable {tall : α → Nat} {tall' : β → Nat} {cfg cfg' : Limits}

theorem left (h : HeightRoom tall' cfg cfg' (andThen o k))
    (hg : ∀ a r b r', o = (.ok a, r) → andThen o k = (.ok b, r') → tall a ≤ tall' b) :
    HeightRoom tall cfg cfg' o := by
  rcases h with h | ⟨b, r', hb, hle⟩
  · exact .inl h
  · rcases o with ⟨_ | a, r⟩
    · cases hb
    · exact .inr ⟨a, r, rfl, Nat.le_trans (hg a r b r' rfl hb) hle⟩

theorem right (h : HeightRoom tall' cfg cfg' (andThen o k)) {a : α} {r : List Token}
    (ho : o = (.ok a, r)) : HeightRoom tall' cfg cfg' (k a r) := by
  subst ho
  exact h

end HeightRoom

namespace Agrees

variable {tall : α → Nat} {tall' : β → Nat} {cfg cfg' : Limits}

theorem refl : Agrees tall cfg cfg' o o := fun _ _ => rfl

theorem andThen {o' : Except ParseError α × List Token}
    {k' : α → List Token → Except ParseError β × List Token} (h : Agrees tall cfg cfg' o o')
    (hk : ∀ a r, o = (.ok a, r) → Agrees tall' cfg cfg' (k a r) (k' a r))
    (hg : ∀ a r b r', o = (.ok a, r) → Parse.andThen o k = (.ok b, r') → tall a ≤ tall' b) :
    Agrees tall' cfg cfg' (Parse.andThen o k) (Parse.andThen o' k') := by
  intro hl hh
  rw [h hl.left (hh.left hg)]
  exact andThen_congr fun a r hout => hk a r hout (hl.right hout) (hh.right hout)

theorem depth {n n' : Nat} {sp sp' : Span} {r r' : List Token}
    {o' : Except ParseError α × List Token} {c c' : Prop} [Decidable c] [Decidable c']
    (hc : ¬c → ¬c') (h : ¬c → Agrees tall cfg cfg' o o') :
    Agrees tall cfg cfg' (if c then (.error (.recursionLimit n sp), r) else o)
      (if c' then (.error (.recursionLimit n' sp'), r') else o') := by
  intro hl hh
  have hnc : ¬c := fun hc' => by
    rw [if_pos hc'] at hl
    exact hl n sp rfl
  rw [if_neg hnc] at hl hh ⊢
  rw [if_neg (hc hnc)]
  exact h hnc hl hh

end Agrees

end Outcomes

section Checks

variable {cfg cfg' : Limits}

theorem checkHeight_agrees (e : Expr) (ts ts' r : List Token) :
    Agrees Expr.height cfg cfg' (checkHeight cfg e ts, r) (checkHeight cfg' e ts', r) := by
  intro hl hh
  by_cases he : e.height ≤ cfg.maxHeight
  · have hok : checkHeight cfg e ts = .ok e := checkHeight_of_le he
    rw [hok] at hh
    rw [hok]
    congr 1
    apply checkHeight_of_le
    rcases hh with hh | ⟨a, r', ha, hle⟩
    · exact Nat.le_trans he hh
    · cases ha
      exact hle
  · exact absurd (if_neg he) fun h => hl _ _ h

theorem bind_checkHeight_agrees (x : Except ParseError Expr) (ts ts' r : List Token) :
    Agrees Expr.height cfg cfg' (x.bind (checkHeight cfg · ts), r)
      (x.bind (checkHeight cfg' · ts'), r) := by
  rcases x with _ | a
  · exact Agrees.refl
  · exact checkHeight_agrees a ts ts' r

end Checks

/-! ## What each continuation keeps -/

theorem Expr.le_heights {a : Expr} {es : List Expr} (h : a ∈ es) : a.height ≤ Expr.heights es := by
  induction es with
  | nil => cases h
  | cons e es ih =>
    simp only [Expr.heights]
    rcases List.mem_cons.mp h with rfl | h
    · exact Nat.le_max_left _ _
    · exact Nat.le_trans (ih h) (Nat.le_max_right _ _)

variable {cfg : Limits}

theorem closeGroup_height {lp : Token} {inner x : Expr} {r r' : List Token}
    (h : closeGroup cfg lp inner r = (.ok x, r')) : inner.height ≤ x.height := by
  obtain ⟨c, -, -, rfl⟩ := closeGroup_ok h
  exact Syn.height_le_grouped _ inner

theorem argumentList_mem (d : Nat) (acc : List Expr) (ts : List Token) {call : List Expr × Token}
    {r : List Token} (h : (argumentList cfg d acc ts).out = (.ok call, r)) :
    ∀ a ∈ acc, a ∈ call.1 := by
  rw [argumentList_out] at h
  rcases harg : (expression cfg d ts).out with ⟨_ | arg, r1⟩
  · rw [harg] at h
    cases h
  · rw [harg, andThen_ok] at h
    have hlen := Parsed.rest_le_of_out harg
    intro a ha
    match hr1 : r1 with
    | c :: rest =>
      have hlt : rest.length < r1.length := by simp [hr1]
      simp only at h
      split at h
      · exact argumentList_mem d (arg :: acc) rest h a (List.mem_cons_of_mem _ ha)
      · split at h
        · cases h
          exact List.mem_reverse.mpr (List.mem_cons_of_mem _ ha)
        · cases h
    | [] =>
      simp only at h
      cases h
termination_by ts.length
decreasing_by omega

theorem argumentList_height (d : Nat) (acc : List Expr) (ts : List Token)
    {call : List Expr × Token} {r : List Token} (h : (argumentList cfg d acc ts).out = (.ok call, r))
    {arg : Expr} {r1 : List Token} (harg : (expression cfg d ts).out = (.ok arg, r1)) :
    arg.height ≤ Expr.heights call.1 := by
  rw [argumentList_out, harg, andThen_ok] at h
  apply Expr.le_heights
  match r1 with
  | c :: rest =>
    simp only at h
    split at h
    · exact argumentList_mem d (arg :: acc) rest h arg List.mem_cons_self
    · split at h
      · cases h
        exact List.mem_reverse.mpr List.mem_cons_self
      · cases h
  | [] => cases h

theorem chain_cons_none_out {d : Nat} {l : Level} {t : Token} (hop : l.infixOp? t.kind = none)
    (acc : Expr) (rest : List Token) : (chain cfg d l acc (t :: rest)).out = (.ok acc, t :: rest) := by
  rw [chain_cons_out, hop]

theorem chain_cons_op_out {d : Nat} {l : Level} {t : Token} {op : BinaryOp}
    (hop : l.infixOp? t.kind = some op) (acc : Expr) (rest : List Token) :
    (chain cfg d l acc (t :: rest)).out =
      andThen (level cfg d l.next rest).out fun right r =>
        andThen ((foldBinary op t acc right).bind (checkHeight cfg · r), r) fun e r' =>
          (chain cfg d l e r').out := by
  rw [chain_cons_out, hop]

theorem exponent_grows {d : Nat} {ts r r' : List Token} {base x : Expr}
    (hp : (level cfg d .primary ts).out = (.ok base, r))
    (hx : (level cfg d .exponent ts).out = (.ok x, r')) : base.height ≤ x.height := by
  rw [level_exponent_out, hp, andThen_ok] at hx
  match r with
  | [] =>
    cases hx
    exact Nat.le_refl _
  | t :: rest =>
    simp only at hx
    split at hx
    · split at hx
      · cases hx
      · rcases hs : (level cfg (d + 1) .sign rest).out with ⟨_ | power, r2⟩
        · rw [hs] at hx
          cases hx
        · rw [hs, andThen_ok] at hx
          obtain ⟨y, hy, hchk⟩ := Except.bind_eq_ok.mp (congrArg Prod.fst hx)
          cases checkHeight_ok hchk
          exact (foldBinary_height_ge hy).1
    · cases hx
      exact Nat.le_refl _

theorem checked_grows {x e : Expr} {f : Expr → Except ParseError Expr}
    (hf : ∀ y, f x = .ok y → x.height ≤ y.height) {r r' : List Token}
    (h : andThen (.ok x, r) (fun a r₂ => ((f a).bind (checkHeight cfg · r₂), r₂)) = (.ok e, r')) :
    x.height ≤ e.height := by
  rw [andThen_ok] at h
  obtain ⟨y, hy, hchk⟩ := Except.bind_eq_ok.mp (congrArg Prod.fst h)
  have hey : e = y := checkHeight_ok hchk
  subst hey
  exact hf e hy

/-! ## The parser under other limits -/

section Simulation

variable {cfg cfg' : Limits} {d d' : Nat}

theorem prefixRun_sim (hd : d' + cfg.maxDepth ≤ d + cfg'.maxDepth)
    (pick : TokenKind → Option UnaryOp) (n : Nat) (ts : List Token)
    (hl : Unlimited (prefixRun cfg d pick n ts).out) :
    (prefixRun cfg' d' pick n ts).out = (prefixRun cfg d pick n ts).out := by
  induction ts generalizing n with
  | nil => rw [prefixRun_nil_out, prefixRun_nil_out]
  | cons t rest ih =>
    rw [prefixRun_cons_out] at hl
    rw [prefixRun_cons_out, prefixRun_cons_out]
    rcases hop : pick t.kind with _ | op
    · rfl
    · simp only [hop] at hl ⊢
      have hlt : ¬cfg.maxDepth ≤ d + n := fun hc => by
        rw [if_pos hc] at hl
        exact hl _ _ rfl
      rw [if_neg hlt] at hl
      rw [if_neg hlt, if_neg (by omega)]
      have hinner : Unlimited (prefixRun cfg d pick (n + 1) rest).out := by
        intro m sp h
        apply hl m sp
        simp only [h]
        rfl
      rw [ih (n + 1) hinner]

theorem Agrees.of_unlimited {α : Type} {tall : α → Nat} {o o' : Except ParseError α × List Token}
    (h : Unlimited o → o' = o) : Agrees tall cfg cfg' o o' :=
  fun hl _ => h hl

theorem closeGroup_agrees (lp : Token) (inner : Expr) (r : List Token) :
    Agrees Expr.height cfg cfg' (closeGroup cfg lp inner r) (closeGroup cfg' lp inner r) := by
  rcases r with _ | ⟨c, r⟩
  · exact .refl
  · by_cases hc : c.kind = .rightParen
    · cases inner
      case const v s =>
        simp only [closeGroup, if_pos hc]
        exact .refl
      all_goals
        simp only [closeGroup, if_pos hc]
        exact checkHeight_agrees _ _ _ _
    · simp only [closeGroup, if_neg hc]
      exact .refl

theorem primary_agrees {t : Token} {rest : List Token}
    (hsuf : Agrees Expr.height cfg cfg' (suffixes cfg d 0 (.name t) rest).out
      (suffixes cfg' d' 0 (.name t) rest).out)
    (hexp : Agrees Expr.height cfg cfg' (expression cfg d rest).out (expression cfg' d' rest).out) :
    Agrees Expr.height cfg cfg' (level cfg d .primary (t :: rest)).out
      (level cfg' d' .primary (t :: rest)).out := by
  rw [level_primary_cons_out, level_primary_cons_out]
  cases hk : t.kind
  case identifier => exact hsuf
  case leftParen =>
    exact hexp.andThen (fun inner r _ => closeGroup_agrees t inner r)
      fun _ _ _ _ hout hx => by rw [hout, andThen_ok] at hx; exact closeGroup_height hx
  all_goals exact .refl

theorem agrees_steps : Steps
    (fun d ts => ∀ d', d' + cfg.maxDepth ≤ d + cfg'.maxDepth →
      Agrees Expr.height cfg cfg' (expression cfg d ts).out (expression cfg' d' ts).out)
    (fun d l ts => ∀ d', d' + cfg.maxDepth ≤ d + cfg'.maxDepth →
      Agrees Expr.height cfg cfg' (level cfg d l ts).out (level cfg' d' l ts).out)
    (fun d l acc ts => ∀ d', d' + cfg.maxDepth ≤ d + cfg'.maxDepth →
      Agrees Expr.height cfg cfg' (chain cfg d l acc ts).out (chain cfg' d' l acc ts).out)
    (fun d n e ts => ∀ d', d' + cfg.maxDepth ≤ d + cfg'.maxDepth →
      Agrees Expr.height cfg cfg' (suffixes cfg d n e ts).out (suffixes cfg' d' n e ts).out)
    (fun d ts => ∀ d', d' + cfg.maxDepth ≤ d + cfg'.maxDepth →
      Agrees (fun call => Expr.heights call.1) cfg cfg' (arguments cfg d ts).out
        (arguments cfg' d' ts).out)
    (fun d acc ts => ∀ d', d' + cfg.maxDepth ≤ d + cfg'.maxDepth →
      Agrees (fun call => Expr.heights call.1) cfg cfg' (argumentList cfg d acc ts).out
        (argumentList cfg' d' acc ts).out) := by
  constructor
  case expression =>
    intro d ts himp d' hd
    rw [expression_out, expression_out]
    exact Agrees.depth (fun h => by omega) fun _ => himp (d' + 1) (by omega)
  case primary_nil =>
    intro d d' hd
    rw [level_primary_nil_out, level_primary_nil_out]
    exact .refl
  case primary_cons =>
    intro d t rest hexpr hsuffixes d' hd
    exact primary_agrees (hsuffixes d' hd) (hexpr d' hd)
  case exponent =>
    intro d ts hbase hpower d' hd
    rw [level_exponent_out, level_exponent_out]
    refine (hbase d' hd).andThen (fun base r hout => ?_)
      fun _ _ _ _ hout hx => exponent_grows hout (by rw [level_exponent_out]; exact hx)
    cases r with
    | nil => exact .refl
    | cons t rest =>
      simp only
      by_cases hc : t.kind = .caret
      · rw [if_pos hc, if_pos hc]
        refine Agrees.depth (fun h => by omega) fun _ => ?_
        exact (hpower rest (Parsed.tail_lt_of_out hout) (d' + 1) (by omega)).andThen
          (fun _ _ _ => bind_checkHeight_agrees _ _ _ _)
          fun _ _ _ _ hout₂ hx => by
            rw [hout₂] at hx
            exact checked_grows (fun y hy => (foldBinary_height_ge hy).2) hx
      · rw [if_neg hc, if_neg hc]
        exact .refl
  case prefix_level =>
    intro d l ts hl hoperand d' hd
    rw [level_prefix_out cfg d l hl, level_prefix_out cfg' d' l hl]
    refine (Agrees.of_unlimited (prefixRun_sim hd _ 0 ts)).andThen (fun ops r hout => ?_)
      fun _ _ _ _ _ _ => Nat.zero_le _
    exact (hoperand r (Parsed.rest_le_of_out hout) d' hd).andThen
      (fun _ _ _ => bind_checkHeight_agrees _ _ _ _)
      fun _ _ _ _ hout₂ hx => by
        rw [hout₂] at hx
        exact checked_grows (fun y hy => applyPrefixOps_height_ge ops hy) hx
  case infix_level =>
    intro d l ts hl hfirst hchain d' hd
    rw [level_infix_out cfg d l hl, level_infix_out cfg' d' l hl]
    refine (hfirst d' hd).andThen (fun first r hout => ?_)
      fun _ _ _ _ hout hx => by
        rw [hout, andThen_ok] at hx
        exact (chain_height d l _ _ hx).1
    exact hchain first r (Parsed.rest_le_of_out hout) d' hd
  case chain_nil =>
    intro d l acc d' hd
    rw [chain_nil_out, chain_nil_out]
    exact .refl
  case chain_cons =>
    intro d l acc t rest hright hchain d' hd
    rcases hop : l.infixOp? t.kind with _ | op
    · rw [chain_cons_none_out hop, chain_cons_none_out hop]
      exact .refl
    · rw [chain_cons_op_out hop, chain_cons_op_out hop]
      refine (hright d' hd).andThen (fun right r hout => ?_)
        fun _ _ _ _ hout hx => by
          rw [hout, andThen_ok] at hx
          rcases hfold : (foldBinary op t acc _).bind (checkHeight cfg · _) with _ | e
          · rw [hfold] at hx
            cases hx
          · rw [hfold, andThen_ok] at hx
            obtain ⟨y, hy, hchk⟩ := Except.bind_eq_ok.mp hfold
            have hey : e = y := checkHeight_ok hchk
            subst hey
            exact Nat.le_trans (foldBinary_height_ge hy).2 (chain_height d l _ _ hx).1
      refine (bind_checkHeight_agrees _ _ _ _).andThen (fun e r' hout₂ => ?_)
        fun _ _ _ _ hout₂ hx => by
          rw [hout₂, andThen_ok] at hx
          exact (chain_height d l _ _ hx).1
      cases congrArg Prod.snd hout₂
      exact hchain e r (Parsed.rest_le_of_out hout) d' hd
  case suffixes_nil =>
    intro d n e d' hd
    rw [suffixes_nil_out, suffixes_nil_out]
    exact checkHeight_agrees _ _ _ _
  case suffixes_cons =>
    intro d n e t rest hargs hsuffixes d' hd
    rw [suffixes_cons_out, suffixes_cons_out]
    by_cases hs : t.kind = .leftParen ∨ t.kind = .dot
    · rw [if_pos hs, if_pos hs]
      refine Agrees.depth (fun h => by omega) fun _ => ?_
      by_cases hp : t.kind = .leftParen
      · rw [if_pos hp, if_pos hp]
        refine (hargs d' hd).andThen (fun call r hout => ?_)
          fun _ _ _ _ hout hx => by
            rw [hout, andThen_ok] at hx
            have := suffixes_height d (n + 1) _ _ hx
            simp only [Expr.height] at this
            omega
        exact hsuffixes (n + 1) _ r (Parsed.rest_le_of_out hout) d' hd
      · rw [if_neg hp, if_neg hp]
        cases rest with
        | cons m rest' =>
          simp only
          by_cases hm : m.kind = .identifier
          · rw [if_pos hm, if_pos hm]
            exact hsuffixes (n + 1) _ rest' (by simp) d' hd
          · rw [if_neg hm, if_neg hm]
            exact .refl
        | nil => exact .refl
    · rw [if_neg hs, if_neg hs]
      exact checkHeight_agrees _ _ _ _
  case arguments =>
    intro d ts hlist d' hd
    rw [arguments_out, arguments_out]
    cases ts with
    | cons c rest =>
      simp only
      by_cases hc : c.kind = .rightParen
      · rw [if_pos hc, if_pos hc]
        exact .refl
      · rw [if_neg hc, if_neg hc]
        exact hlist d' hd
    | nil => exact hlist d' hd
  case argument_list =>
    intro d acc ts harg hmore d' hd
    rw [argumentList_out, argumentList_out]
    refine (harg d' hd).andThen (fun arg r hout => ?_) fun _ _ _ _ hout hx =>
      argumentList_height d acc ts (by rw [argumentList_out]; exact hx) hout
    cases r with
    | cons c rest =>
      simp only
      by_cases hc : c.kind = .comma
      · rw [if_pos hc, if_pos hc]
        exact hmore (arg :: acc) rest (Parsed.tail_lt_of_out hout) d' hd
      · rw [if_neg hc, if_neg hc]
        exact .refl
    | nil => exact .refl

theorem expression_agrees (d d' : Nat) (hd : d' + cfg.maxDepth ≤ d + cfg'.maxDepth)
    (ts : List Token) :
    Agrees Expr.height cfg cfg' (expression cfg d ts).out (expression cfg' d' ts).out :=
  agrees_steps.expression_holds d ts d' hd

end Simulation

/-! ## Every tree returned is within the height limit -/

theorem level_height_le (l : Level) (hl : 2 ≤ l.rank) (d : Nat) (ts : List Token) {x : Expr}
    {r : List Token} (h : (level cfg d l ts).out = (.ok x, r)) : x.height ≤ cfg.maxHeight := by
  induction l using Level.induction_next generalizing ts x r with
  | primary => simp [Level.rank] at hl
  | step l hne ih =>
    by_cases hinf : l.isInfix
    · rw [level_infix_out cfg d l hinf] at h
      rcases hfirst : (level cfg d l.next ts).out with ⟨_ | first, r1⟩
      · rw [hfirst] at h
        cases h
      · rw [hfirst, andThen_ok] at h
        have hnext : 2 ≤ l.next.rank := by
          have := Level.rank_next hne
          have := (Level.isInfix_rank hinf).1
          omega
        exact (chain_height d l first r1 h).2 (ih hnext ts hfirst)
    · rcases Level.exponent_or_unary hne hinf with rfl | hpre
      · simp [Level.rank] at hl
      · rw [level_prefix_out cfg d l hpre] at h
        rcases hops : (prefixRun cfg d l.prefixOp? 0 ts).out with ⟨_ | ops, r1⟩
        · rw [hops] at h
          cases h
        · rw [hops, andThen_ok] at h
          rcases hoperand : (level cfg d l.next r1).out with ⟨_ | operand, r2⟩
          · rw [hoperand] at h
            cases h
          · rw [hoperand, andThen_ok] at h
            exact bind_checkHeight_le (congrArg Prod.fst h)

theorem expression_height_le (d : Nat) (ts : List Token) {x : Expr} {r : List Token}
    (h : (expression cfg d ts).out = (.ok x, r)) : x.height ≤ cfg.maxHeight := by
  rw [expression_out] at h
  split at h
  · cases h
  · exact level_height_le .imp (by decide) (d + 1) ts h

end Parse

/-! ## Parsing source text under other limits -/

section Source

variable {src : String} {cfg cfg' : Limits}

theorem Expr.parse_congr_out (h : ∀ ts, Token.scanAll src = .ok ts →
    (Expr.parseTokens cfg' ts).out = (Expr.parseTokens cfg ts).out) :
    Expr.parse src cfg' = Expr.parse src cfg := by
  unfold Expr.parse
  split
  · rfl
  · rename_i ts hs
    have e := h ts hs
    have hres : (Expr.parseTokens cfg' ts).result = (Expr.parseTokens cfg ts).result :=
      congrArg Prod.fst e
    have hrest : (Expr.parseTokens cfg' ts).rest = (Expr.parseTokens cfg ts).rest :=
      congrArg Prod.snd e
    simp only [hres, hrest]

theorem Expr.parse_ok_out {ts : List Token} {e : Expr} (hs : Token.scanAll src = .ok ts)
    (h : Expr.parse src cfg = .ok e) : ∃ r, (Expr.parseTokens cfg ts).out = (.ok e, r) := by
  obtain ⟨ts', r, hs', hout, -⟩ := Expr.parse_eq_ok_iff.mp h
  obtain rfl : ts' = ts := Except.ok.inj (hs'.symm.trans hs)
  exact ⟨r, hout⟩

theorem Expr.parse_error_of_out {ts : List Token} {err : ParseError} {r : List Token}
    (hs : Token.scanAll src = .ok ts) (h : (Expr.parseTokens cfg ts).out = (.error err, r)) :
    Expr.parse src cfg = .error err :=
  Expr.parse_eq_error_iff.mpr (.inr ⟨ts, r, hs, .inl h⟩)

theorem Expr.parse_height_le {e : Expr} (h : Expr.parse src cfg = .ok e) :
    e.height ≤ cfg.maxHeight := by
  obtain ⟨ts, hts⟩ := Expr.parse_ok_tokens h
  exact Parse.expression_height_le 0 ts (Prod.ext hts rfl)

theorem Expr.parse_of_room (hd : cfg.maxDepth ≤ cfg'.maxDepth)
    (hu : ∀ n sp, Expr.parse src cfg ≠ .error (.recursionLimit n sp))
    (hh : cfg.maxHeight ≤ cfg'.maxHeight ∨
      ∃ e, Expr.parse src cfg = .ok e ∧ e.height ≤ cfg'.maxHeight) :
    Expr.parse src cfg' = Expr.parse src cfg := by
  apply Expr.parse_congr_out
  intro ts hs
  have hag : Parse.Agrees Expr.height cfg cfg' (Expr.parseTokens cfg ts).out
      (Expr.parseTokens cfg' ts).out := Parse.expression_agrees 0 0 (by omega) ts
  apply hag
  · intro n sp hlim
    exact hu n sp (Expr.parse_error_of_out hs (Prod.ext hlim rfl))
  · rcases hh with hh | ⟨e, he, hle⟩
    · exact .inl hh
    · obtain ⟨r, hr⟩ := Expr.parse_ok_out hs he
      exact .inr ⟨e, r, hr, hle⟩

end Source

/-- Raising the limits `⟨depth, height⟩` changes nothing but failures at a limit, and the height
limit is exact: a tree is returned under a height limit exactly when it is returned under any
higher one and is no taller. -/
theorem parse_limits_monotone_exact (src : String) :
    (∀ d d' h h' : Nat, d ≤ d' → h ≤ h' →
      (∀ n sp, Expr.parse src ⟨d, h⟩ ≠ .error (.recursionLimit n sp)) →
      Expr.parse src ⟨d', h'⟩ = Expr.parse src ⟨d, h⟩) ∧
    (∀ d h H : Nat, h ≤ H → ∀ e, Expr.parse src ⟨d, h⟩ = .ok e ↔
      Expr.parse src ⟨d, H⟩ = .ok e ∧ e.height ≤ h) := by
  refine ⟨fun d d' h h' hd hh hu => Expr.parse_of_room hd hu (.inl hh), ?_⟩
  intro d h H hH e
  constructor
  · intro he
    have hup : Expr.parse src ⟨d, H⟩ = Expr.parse src ⟨d, h⟩ :=
      Expr.parse_of_room (Nat.le_refl d) (by simp [he]) (.inl hH)
    exact ⟨hup.trans he, Expr.parse_height_le he⟩
  · rintro ⟨he, hle⟩
    have hdown : Expr.parse src ⟨d, h⟩ = Expr.parse src ⟨d, H⟩ :=
      Expr.parse_of_room (Nat.le_refl d) (by simp [he]) (.inr ⟨e, he, hle⟩)
    exact hdown.trans he

/-- `a * b` parses under the smallest limits that admit it, one level of nesting and height two,
to the tree it has under the default limits, and under height one to no tree. -/
theorem parse_product_at_least_room :
    Expr.parse "a * b" ⟨1, 2⟩ = .ok (.binary .multiply ⟨.star, "*", ⟨2, 3⟩⟩
      (.name ⟨.identifier, "a", ⟨0, 1⟩⟩) (.name ⟨.identifier, "b", ⟨4, 5⟩⟩)) ∧
    Expr.parse "a * b" ⟨32, 1024⟩ = Expr.parse "a * b" ⟨1, 2⟩ ∧
    ∀ e, Expr.parse "a * b" ⟨1, 1⟩ ≠ .ok e := by
  have h : Expr.parse "a * b" ⟨1, 2⟩ = .ok (.binary .multiply ⟨.star, "*", ⟨2, 3⟩⟩
      (.name ⟨.identifier, "a", ⟨0, 1⟩⟩) (.name ⟨.identifier, "b", ⟨4, 5⟩⟩)) := by
    cbv
  refine ⟨h, (parse_limits_monotone_exact "a * b").1 1 32 2 1024 (by decide) (by decide)
    (by simp [h]), fun e he => ?_⟩
  obtain ⟨he2, hle⟩ := ((parse_limits_monotone_exact "a * b").2 1 1 2 (by decide) e).mp he
  rw [h] at he2
  cases he2
  simp [Expr.height] at hle

end ScriptFold
