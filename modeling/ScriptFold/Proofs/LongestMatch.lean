import Mathlib
import ScriptFold.Proofs.LexicalClasses
/-!
# Longest match

The scanner reads each token by longest match over the lexical classes of `Scan.Lexeme`. One
step at a character looks ahead as far as its class needs and takes what it finds; the lemmas
here check the step against the classes from both sides:

* every token a step makes is a lexeme of its kind (`step_token_lexeme`);
* every lexeme at the start of the text is taken whole by the step there
  (`lexeme_le_step`), save for a string literal with a quote right after it, which the step
  reads as a doubled quote inside a longer string that may never end;
* where trivia starts, the step skips (`trivia_step`);
* a text belongs to one class at most (`Lexeme.kind_unique`).

So the step's item is read by longest match (`step_longestMatch`), and by the walk of the steps
over the text, so is every item of the scan (`scan_reads_longest_match`). An error is yielded
exactly where every prefix that belongs to a class or is trivia is a string literal followed by
a quote; the text `"a""` is one such place (`doubled_quote_after_string_is_unterminated`).
-/
namespace ScriptFold

set_option autoImplicit false

namespace Scan

/-! ## What a step makes is a lexeme -/

theorem lexeme_of_eq {w : List Char} {rest : List Char} {k k' : TokenKind} {m n : Nat}
    (h : (Piece.token k', m) = (.token k, n)) (hk : Lexeme (w ++ rest.take m) k') :
    Lexeme (w ++ rest.take n) k := by
  obtain ⟨hk', rfl⟩ := Prod.mk.inj h
  cases hk'
  exact hk

theorem step_token_lexeme {c : Char} {rest : List Char} {k : TokenKind} {n : Nat}
    (h : step c rest = (.token k, n)) : Lexeme (c :: rest.take n) k := by
  unfold step at h
  split at h
  all_goals first
    | (refine lexeme_of_eq (w := [_]) h (.punctuator ?_)
       simp [punctuators]
       done)
    | skip
  case h_12 =>
    split at h
    · split at h
      · exact pointNumber_lexeme ‹_› h
      · exact lexeme_of_eq (w := ['.']) h (.punctuator (by simp [punctuators]))
    · exact lexeme_of_eq (w := ['.']) h (.punctuator (by simp [punctuators]))
  case h_13 =>
    split at h <;> exact lexeme_of_eq (w := ['<']) h (.punctuator (by simp [punctuators]))
  case h_14 =>
    split at h <;> exact lexeme_of_eq (w := ['>']) h (.punctuator (by simp [punctuators]))
  case h_15 =>
    split at h
    · split at h
      · rename_i hmd
        simp only [Bool.and_eq_true] at hmd
        exact radixNumber_lexeme hmd.1 hmd.2 h
      · exact lexeme_of_eq (w := ['&']) h (.punctuator (by simp [punctuators]))
    · exact lexeme_of_eq (w := ['&']) h (.punctuator (by simp [punctuators]))
  case h_16 => cases h
  case h_17 => cases h
  case h_18 =>
    split at h
    · exact lexeme_of_eq (w := ['\r']) h (.newline (by simp))
    · cases h
  case h_19 => exact lexeme_of_eq (w := ['\n']) h (.newline (by simp))
  case h_20 => cases h
  case h_21 => exact absurd h (continuation_ne_token _ _ _)
  case h_22 =>
    split at h
    · rename_i m hm
      obtain ⟨body, hb, htake, -⟩ := stringBody_lexeme hm
      refine lexeme_of_eq (w := ['"']) h ?_
      rw [htake]
      exact .string hb
    · cases h
  case h_23 =>
    obtain ⟨rfl, body, hbody, htake⟩ := delimited_lexeme h
    rw [← List.singleton_append, htake]
    exact .date hbody
  case h_24 =>
    obtain ⟨rfl, body, hbody, htake⟩ := delimited_lexeme h
    rw [← List.singleton_append, htake]
    exact .bracketed hbody
  case h_25 =>
    split at h
    · exact number_lexeme ‹_› h
    · split at h
      · obtain ⟨hk, rfl⟩ := Prod.mk.inj h
        cases hk
        exact wordKind_lexeme ‹_› (take_run_all _ _)
      · cases h

/-! ## What a step takes covers every lexeme -/

/-- A string literal at the start of `cs` with a quote right after it, which the scanner reads
as a doubled quote. -/
def StringBeforeQuote (w cs : List Char) : Prop :=
  Lexeme w (.literal .string) ∧ (cs.drop w.length).head? = some '"'

theorem step_lookahead_token {c : Char} (hc : c = '.' ∨ c = '<' ∨ c = '>' ∨ c = '&')
    (rest : List Char) : ∃ k, (step c rest).1 = .token k := by
  rcases hc with rfl | rfl | rfl | rfl <;> simp only [step] <;> (repeat' split) <;> exact ⟨_, rfl⟩

theorem punctuator_le_step {c : Char} {rest w : List Char} {k : TokenKind}
    (h : (w, k) ∈ punctuators) (hp : w <+: c :: rest) :
    ∃ k', (step c rest).1 = .token k' ∧ w.length ≤ (step c rest).2 + 1 := by
  simp only [punctuators, List.mem_cons, Prod.mk.injEq, List.not_mem_nil, or_false] at h
  rcases h with ⟨rfl, rfl⟩ | ⟨rfl, rfl⟩ | ⟨rfl, rfl⟩ | ⟨rfl, rfl⟩ | ⟨rfl, rfl⟩ | ⟨rfl, rfl⟩ |
    ⟨rfl, rfl⟩ | ⟨rfl, rfl⟩ | ⟨rfl, rfl⟩ | ⟨rfl, rfl⟩ | ⟨rfl, rfl⟩ | ⟨rfl, rfl⟩ | ⟨rfl, rfl⟩ |
    ⟨rfl, rfl⟩ | ⟨rfl, rfl⟩ | ⟨rfl, rfl⟩ | ⟨rfl, rfl⟩ | ⟨rfl, rfl⟩
  all_goals obtain ⟨rfl, hnext⟩ := List.cons_prefix_cons.mp hp
  all_goals first
    | exact ⟨_, rfl, Nat.le_add_left 1 _⟩
    | exact (step_lookahead_token (by simp) rest).imp fun _ hk => ⟨hk, Nat.le_add_left 1 _⟩
    | (obtain ⟨u, rfl⟩ := hnext
       exact ⟨_, rfl, Nat.le_refl 2⟩)

theorem step_dot_digit {d : Char} (hd : d.isDigit = true) (t : List Char) :
    step '.' (d :: t) = number true (d :: t) := by
  simp [step, hd]

theorem step_ampersand_radix {m d : Char} (hm : (m.toUpper == 'H' || m.toUpper == 'O') = true)
    (hd : d.isAlphanum = true) (more : List Char) :
    step '&' (m :: d :: more) = radixNumber m (d :: more) := by
  simp [step, hm, hd]

theorem step_delimited_closed {c close : Char} {kind : TokenKind} {p : ScanProblem}
    (hstep : ∀ rest, step c rest = delimited close kind p rest) {body : List Char}
    (h : ∀ x ∈ body, x ≠ close ∧ x ≠ '\n') (u : List Char) :
    step c (body ++ [close] ++ u) = (.token kind, body.length + 1) := by
  rw [hstep, List.append_assoc, List.singleton_append]
  exact delimited_closed h u

theorem lexeme_le_step {c : Char} {rest w : List Char} {k : TokenKind} (hw : Lexeme w k)
    (hp : w <+: c :: rest) :
    (∃ k', (step c rest).1 = .token k' ∧ w.length ≤ (step c rest).2 + 1) ∨
      ((step c rest).1 = .problem .unterminatedString ∧ StringBeforeQuote w (c :: rest)) := by
  cases hw with
  | punctuator h => exact .inl (punctuator_le_step h hp)
  | integer h =>
    obtain ⟨d, ds, rfl⟩ := List.exists_cons_of_ne_nil h.1
    obtain ⟨rfl, -⟩ := List.cons_prefix_cons.mp hp
    have hd := h.2 _ List.mem_cons_self
    rw [step_of_isDigit hd]
    exact .inl ⟨_, rfl, integer_le_number hd h hp⟩
  | float hwh hf hx hne =>
    obtain ⟨d, whole', rfl⟩ := List.exists_cons_of_ne_nil hwh.1
    obtain ⟨rfl, -⟩ := List.cons_prefix_cons.mp
      (hp : d :: (whole' ++ _ ++ _) <+: c :: rest)
    have hd := hwh.2 _ List.mem_cons_self
    rw [step_of_isDigit hd]
    exact .inl ⟨_, rfl, float_le_number hd hwh hf hx hne hp⟩
  | pointFloat hf hx =>
    obtain ⟨rfl, hnext⟩ := List.cons_prefix_cons.mp hp
    obtain ⟨f, fs, rfl⟩ := List.exists_cons_of_ne_nil hf.1
    obtain ⟨t, rfl, -⟩ := exists_cons_of_isPrefix (hnext : f :: (fs ++ _) <+: rest)
    rw [step_dot_digit (hf.2 _ List.mem_cons_self)]
    have hle := pointFloat_le_number hf hx hnext
    refine .inl ⟨_, rfl, ?_⟩
    simp only [List.length_cons, List.length_append] at hle ⊢
    omega
  | @radix m _ _ _ hm hne hds hs =>
    obtain ⟨rfl, hnext⟩ := List.cons_prefix_cons.mp hp
    obtain ⟨d, ds, rfl⟩ := List.exists_cons_of_ne_nil hne
    obtain ⟨t, rfl, hafter⟩ := exists_cons_of_isPrefix hnext
    obtain ⟨more, rfl, -⟩ := exists_cons_of_isPrefix (hafter : d :: (ds ++ _) <+: t)
    rw [step_ampersand_radix (mem_radixMarkers_iff.mp hm).1 (hds _ List.mem_cons_self)]
    have hle := radix_le_radixNumber m hds hs hafter
    refine .inl ⟨_, rfl, ?_⟩
    simp only [List.length_cons, List.length_append] at hle ⊢
    omega
  | string hb =>
    obtain ⟨rfl, hnext⟩ := List.cons_prefix_cons.mp hp
    rcases string_le_stringBody hb hnext with ⟨n, hn, hle⟩ | ⟨hn, hquote⟩
    · refine .inl ⟨.literal .string, by simp [step, hn], ?_⟩
      simp only [step, hn, List.length_cons, List.length_append, List.length_nil]
      omega
    · refine .inr ⟨by simp [step, hn], .string hb, ?_⟩
      simpa using hquote
  | @date body h =>
    obtain ⟨rfl, ⟨u, rfl⟩⟩ := List.cons_prefix_cons.mp hp
    rw [step_delimited_closed (fun _ => rfl) h u]
    exact .inl ⟨_, rfl, by simp⟩
  | keyword hc hcs _ | identifier hc hcs _ =>
    obtain ⟨rfl, hnext⟩ := List.cons_prefix_cons.mp hp
    rw [step_of_isAlpha hc]
    exact .inl ⟨_, rfl, by simpa using word_le_run hcs hnext⟩
  | @bracketed body h =>
    obtain ⟨rfl, ⟨u, rfl⟩⟩ := List.cons_prefix_cons.mp hp
    rw [step_delimited_closed (fun _ => rfl) h u]
    exact .inl ⟨_, rfl, by simp⟩
  | newline h =>
    rcases h with rfl | rfl
    · obtain ⟨rfl, -⟩ := List.cons_prefix_cons.mp hp
      exact .inl ⟨_, rfl, Nat.le_add_left 1 _⟩
    · obtain ⟨rfl, hnext⟩ := List.cons_prefix_cons.mp hp
      obtain ⟨t, rfl, -⟩ := exists_cons_of_isPrefix hnext
      exact .inl ⟨_, rfl, Nat.le_refl 2⟩

/-! ## Trivia -/

theorem continuation_of_trivia {blanks brk after : List Char}
    (hblanks : ∀ c ∈ blanks, c = ' ' ∨ c = '\t')
    (hbrk : brk = ['\n'] ∨ brk = ['\r', '\n'] ∨ (after = [] ∧ (brk = [] ∨ brk = ['\r']))) :
    (continuation (blanks ++ brk ++ after)).1 = .trivia := by
  have hrun : run (fun c => c == ' ' || c == '\t') (blanks ++ (brk ++ after)) = blanks.length :=
    run_append (fun x hx => by rcases hblanks x hx with rfl | rfl <;> rfl)
      (by rcases hbrk with rfl | rfl | ⟨rfl, rfl | rfl⟩ <;> simp)
  rw [List.append_assoc, continuation_eq, hrun]
  dsimp only
  rw [List.drop_left]
  rcases hbrk with rfl | rfl | ⟨rfl, rfl | rfl⟩ <;> rfl

theorem trivia_step {c : Char} {rest w : List Char} (hw : Trivia w ((c :: rest).drop w.length))
    (hp : w <+: c :: rest) : (step c rest).1 = .trivia := by
  cases hw with
  | blank hc =>
    obtain ⟨rfl, -⟩ := List.cons_prefix_cons.mp hp
    rcases hc with rfl | rfl <;> rfl
  | carriageReturn h =>
    obtain ⟨rfl, -⟩ := List.cons_prefix_cons.mp hp
    simp only [step]
    split
    · simp at h
    · rfl
  | comment hbody hend =>
    obtain ⟨rfl, -⟩ := List.cons_prefix_cons.mp hp
    rfl
  | continuation hblanks hbrk =>
    obtain ⟨rfl, u, rfl⟩ := List.cons_prefix_cons.mp hp
    simp only [List.length_cons, List.drop_succ_cons, List.drop_left] at hbrk
    exact continuation_of_trivia hblanks hbrk

theorem Trivia.head_ne_quote {w after : List Char} (h : Trivia w after) : w.head? ≠ some '"' := by
  cases h with
  | blank hc => rcases hc with rfl | rfl <;> simp
  | _ => simp

theorem Lexeme.head_quote {w : List Char} (h : Lexeme w (.literal .string)) :
    w.head? = some '"' := by
  cases h with
  | punctuator hmem => simp [punctuators] at hmem
  | radix hmem => simp [radixMarkers] at hmem
  | string => rfl
  | keyword _ _ hmem => simp [keywords] at hmem

/-! ## One class per lexeme -/

/-- The kind a lexeme's class gives it, read off its text: digits alone are an integer and any
other number a float, a word is looked up among the keywords, and the remaining classes are
told apart by their first characters. -/
def lexemeKind : List Char → TokenKind
  | [] => .eof
  | c :: u =>
    if c.isDigit then
      if u.all Char.isDigit then .literal .integer else .literal .float
    else if c.isAlpha then wordKind (c :: u)
    else
      match c, u with
      | '"', _ => .literal .string
      | '#', _ => .literal .date
      | '[', _ => .identifier
      | '&', m :: _ :: _ => .literal (if m.toUpper == 'H' then .hex else .octal)
      | '.', _ :: _ => .literal .float
      | '\r', _ => .newline
      | '\n', _ => .newline
      | _, _ => ((punctuators.lookup (c :: u)).getD .eof)

theorem lexemeKind_of_isDigit {d : Char} (hd : d.isDigit = true) (u : List Char) :
    lexemeKind (d :: u) = if u.all Char.isDigit then .literal .integer else .literal .float := by
  simp [lexemeKind, hd]

theorem lexemeKind_of_isAlpha {c : Char} (hc : c.isAlpha = true) (u : List Char) :
    lexemeKind (c :: u) = wordKind (c :: u) := by
  simp [lexemeKind, hc, isDigit_of_isAlpha hc]

theorem keywords_kind_unique {s : String} {k k' : TokenKind} (h : (s, k) ∈ keywords)
    (h' : (s, k') ∈ keywords) : k = k' := by
  have htable : keywords.all (fun p => keywords.all fun q => p.1 != q.1 || p.2 == q.2) = true :=
    rfl
  simpa using List.all_eq_true.mp (List.all_eq_true.mp htable _ h) _ h'

theorem Lexeme.kind_eq {w : List Char} {k : TokenKind} (h : Lexeme w k) : k = lexemeKind w := by
  cases h with
  | punctuator h =>
    have htable : punctuators.all (fun p => p.2 == lexemeKind p.1) = true := rfl
    exact beq_iff_eq.mp (List.all_eq_true.mp htable _ h)
  | integer h =>
    obtain ⟨d, ds, rfl⟩ := List.exists_cons_of_ne_nil h.1
    rw [lexemeKind_of_isDigit (h.2 d List.mem_cons_self), if_pos]
    exact List.all_eq_true.mpr fun c hc => h.2 c (List.mem_cons_of_mem d hc)
  | @float whole fraction exponent hw hf hx hne =>
    obtain ⟨d, whole', rfl⟩ := List.exists_cons_of_ne_nil hw.1
    obtain ⟨e, t, het, he⟩ := fraction_exponent_head hf hx hne
    rw [List.cons_append, List.cons_append, lexemeKind_of_isDigit (hw.2 d List.mem_cons_self),
      List.append_assoc, het, if_neg]
    simp [he]
  | pointFloat hf hx =>
    obtain ⟨f, fs, rfl⟩ := List.exists_cons_of_ne_nil hf.1
    rfl
  | radix hm hne hds hs =>
    obtain ⟨d, ds, rfl⟩ := List.exists_cons_of_ne_nil hne
    rw [(mem_radixMarkers_iff.mp hm).2]
    rfl
  | string h => rfl
  | date h => rfl
  | keyword hc hcs hk =>
    rw [lexemeKind_of_isAlpha hc]
    rcases wordKind_spec (_ :: _) with hw | ⟨-, hnone⟩
    · exact keywords_kind_unique hk hw
    · exact absurd hk (hnone _)
  | identifier hc hcs hk =>
    rw [lexemeKind_of_isAlpha hc]
    rcases wordKind_spec (_ :: _) with hw | ⟨hid, -⟩
    · exact absurd hw (hk _)
    · exact hid.symm
  | bracketed h => rfl
  | newline h => rcases h with rfl | rfl <;> rfl

theorem Lexeme.kind_unique {w : List Char} {k k' : TokenKind} (h : Lexeme w k)
    (h' : Lexeme w k') : k = k' :=
  h.kind_eq.trans h'.kind_eq.symm

/-! ## Longest match at one position -/

/-- `w` opens the text `cs`: it is a prefix of it that belongs to a lexical class, or that is
trivia before the rest. -/
def Opens (w cs : List Char) : Prop :=
  w <+: cs ∧ ((∃ k, Lexeme w k) ∨ Trivia w (cs.drop w.length))

/-- What the scanner yields at byte `pos`, with the text `cs` from there on, is read by longest
match: a token starts at `pos` and its lexeme is the longest prefix of `cs` in a lexical class,
of the token's kind; and an error, which also starts at `pos`, is yielded exactly when every
prefix that opens `cs` is a string literal followed by a quote. -/
def LongestMatch (pos : Nat) (cs : List Char) (it : Option (Except ScanError Token)) : Prop :=
  (∀ t, it = some (.ok t) →
    t.span.start = pos ∧ t.lexeme.toList <+: cs ∧ Lexeme t.lexeme.toList t.kind ∧
      (∀ k, Lexeme t.lexeme.toList k → k = t.kind) ∧
      ∀ w k, w <+: cs → Lexeme w k → w.length ≤ t.lexeme.toList.length) ∧
  (∀ e, it = some (.error e) → e.span.start = pos) ∧
  ((∃ e, it = some (.error e)) ↔ ∀ w, Opens w cs → StringBeforeQuote w cs)

theorem step_string_body {rest : List Char} {k : TokenKind} {n : Nat}
    (h : step '"' rest = (.token k, n)) : stringBody rest = some n := by
  simp only [step] at h
  split at h
  · rename_i m hm
    obtain ⟨-, rfl⟩ := Prod.mk.inj h
    exact hm
  · cases h

theorem step_token_not_before_quote {c : Char} {rest : List Char} {k : TokenKind} {n : Nat}
    (h : step c rest = (.token k, n)) (hn : n ≤ rest.length) :
    ¬ StringBeforeQuote (c :: rest.take n) (c :: rest) := by
  rintro ⟨hstr, hq⟩
  have hc : c = '"' := by simpa using hstr.head_quote
  subst hc
  obtain ⟨-, -, -, hnot⟩ := stringBody_lexeme (step_string_body h)
  simp only [List.length_cons, List.length_take, Nat.min_eq_left hn, List.drop_succ_cons] at hq
  exact hnot hq

theorem step_longestMatch (pos : Nat) (c : Char) (rest : List Char) :
    LongestMatch pos (c :: rest)
      (pieceItem (step c rest).1 (c :: rest.take (step c rest).2) pos) := by
  rcases hstep : step c rest with ⟨p, n⟩
  have hn : n ≤ rest.length := by simpa [hstep] using step_snd_le c rest
  have htaken : c :: rest.take n <+: c :: rest :=
    List.cons_prefix_cons.mpr ⟨rfl, List.take_prefix n rest⟩
  cases p with
  | token k =>
    have hlex : Lexeme (c :: rest.take n) k := step_token_lexeme hstep
    refine ⟨fun t ht => ?_, fun e he => (by cases he), ?_⟩
    · cases ht
      rw [String.toList_ofList]
      refine ⟨rfl, htaken, hlex, fun k' hk' => hk'.kind_unique hlex, fun w k' hw hk' => ?_⟩
      rcases lexeme_le_step hk' hw with ⟨-, -, hle⟩ | ⟨hprob, -⟩
      · rw [hstep] at hle
        simp only [List.length_cons, List.length_take, Nat.min_eq_left hn]
        exact hle
      · rw [hstep] at hprob
        cases hprob
    · refine ⟨fun ⟨e, he⟩ => (by cases he), fun hall => ?_⟩
      exact absurd (hall _ ⟨htaken, .inl ⟨k, hlex⟩⟩) (step_token_not_before_quote hstep hn)
  | trivia =>
    refine ⟨fun t ht => (by cases ht), fun e he => (by cases he), fun ⟨e, he⟩ => (by cases he),
      fun hall => ?_⟩
    have htriv := step_trivia hstep
    have hafter : (c :: rest).drop (c :: rest.take n).length = rest.drop n := by
      simp [Nat.min_eq_left hn]
    obtain ⟨hstr, -⟩ := hall _ ⟨htaken, .inr (hafter ▸ htriv)⟩
    exact (htriv.head_ne_quote hstr.head_quote).elim
  | problem q =>
    refine ⟨fun t ht => (by cases ht), fun e he => (by cases he; rfl),
      fun _ w ⟨hw, hopen⟩ => ?_, fun _ => ⟨_, rfl⟩⟩
    rcases hopen with ⟨k, hk⟩ | htriv
    · rcases lexeme_le_step hk hw with ⟨k', htok, -⟩ | ⟨-, hsq⟩
      · rw [hstep] at htok
        cases htok
      · exact hsq
    · have hskip := trivia_step htriv hw
      rw [hstep] at hskip
      cases hskip

theorem Walk.longestMatch_head {pos : Nat} {cs after : List Char}
    {it : Option (Except ScanError Token)} {items : List (Option (Except ScanError Token))}
    (hw : Walk pos cs after (it :: items)) : LongestMatch pos (cs ++ after) it := by
  cases hw with
  | @step _ c x rest _ p _ h hw =>
    have hmatch := step_longestMatch pos c (x ++ (rest ++ after))
    rw [h] at hmatch
    dsimp only at hmatch
    rw [List.take_left] at hmatch
    rw [List.cons_append, List.append_assoc]
    exact hmatch

end Scan

open Scan in
/-- The scanner reads by longest match. Its steps walk the text from the start; each yields a
token, an error or nothing (for trivia), and the scan is the items yielded, then the end token.
At each step, with the text split into `a` walked so far and `b` still to read, a token starts
at the byte length of `a` and its lexeme is the longest prefix of `b` that belongs to a lexical
class, of the token's kind; an error starts there too, and is yielded exactly when every prefix
of `b` that belongs to a class or is trivia is a string literal with a quote right after it. -/
theorem scan_reads_longest_match (s : String) :
    ∃ items, Token.scan s = items.filterMap id ++ [.ok (Token.eof s.utf8ByteSize)] ∧
      ∀ pre it post, items = pre ++ it :: post →
        ∃ a b, s.toList = a ++ b ∧ Walk 0 a b pre ∧ LongestMatch (byteLength a) b it := by
  obtain ⟨items, hw⟩ := exists_walk 0 s.toList
  have hsize : byteLength s.toList = s.utf8ByteSize := by
    rw [← utf8ByteSize_ofList, String.ofList_toList]
  refine ⟨items, ?_, fun pre it post hitems => ?_⟩
  · have hscan := hw.scanFrom_eq
    rw [List.append_nil, scanFrom_nil, Nat.zero_add, hsize] at hscan
    exact hscan
  · subst hitems
    obtain ⟨a, b, hab, hpre, hrest⟩ := Walk.split hw
    rw [List.append_nil] at hpre
    rw [Nat.zero_add] at hrest
    refine ⟨a, b, hab, hpre, ?_⟩
    simpa only [List.append_nil] using hrest.longestMatch_head

/-- A string literal followed by a quote reads, through the doubled quote, as a string that
never ends: the scan of `"a""` is one error over the whole text, though its prefix `"a"` is a
string literal. -/
theorem doubled_quote_after_string_is_unterminated :
    Scan.Lexeme ['"', 'a', '"'] (.literal .string) ∧ ['"', 'a', '"'] <+: "\"a\"\"".toList ∧
      Token.scan "\"a\"\"" = [.error ⟨.unterminatedString, ⟨0, 4⟩⟩, .ok (Token.eof 4)] := by
  refine ⟨.string (.char (by decide) (by decide) .nil), ⟨['"'], rfl⟩, ?_⟩
  cbv

end ScriptFold
