import Mathlib
import ScriptFold.Proofs.Scanning
/-!
# The scan cuts its text into pieces

Scanning loses and repeats no character: the text is the concatenation of the pieces that the
steps take, in order (`Scan.Cuts`). A piece is either an item, a token or a lexical problem,
whose span is exactly the bytes of the piece and whose lexeme is its text, or trivia that the
scanner skips (`Scan.Trivia`): a blank or a tab, a carriage return that no line feed follows, a
`'` comment up to its line break, or a `_` line continuation with its blanks and its line break.

What one step can skip is said once (`step_trivia`), and `scanFrom_cuts` follows `scanFrom` step
by step. The facts about spans then follow from the cut alone: every item lies on whole
characters of the text (`Cuts.lies`), so its span is non-empty, starts and stops on character
boundaries and holds its token's lexeme, and each item ends before the next begins
(`Cuts.pairwise`).

The iterator gives the scan one item a call: each call answers the first item still pending
and leaves the rest (`Scanner.next_spec`), so call `i` answers item `i` and every call after
the end token answers nothing (`Scanner.answers_eq`).

Main statement: `scan_partitions_source`.
-/
namespace ScriptFold

set_option autoImplicit false

namespace Scan

/-! ## Bytes of characters -/

theorem length_le_byteLength (cs : List Char) : cs.length ≤ byteLength cs := by
  induction cs with
  | nil => simp [byteLength]
  | cons c cs ih =>
    have hc := Char.utf8Size_pos c
    simp only [byteLength, List.map_cons, List.sum_cons, List.length_cons] at ih ⊢
    omega

theorem byteLength_take_le (cs : List Char) (i : Nat) : byteLength (cs.take i) ≤ byteLength cs := by
  conv => rhs; rw [← List.take_append_drop i cs]
  rw [byteLength_append]
  omega

theorem byteLength_take_lt {cs : List Char} {i j : Nat} (hij : i < j) (hj : j ≤ cs.length) :
    byteLength (cs.take i) < byteLength (cs.take j) := by
  have hsplit : cs.take j = cs.take i ++ (cs.take j).drop i := by
    have h := (List.take_append_drop i (cs.take j)).symm
    rwa [List.take_take, Nat.min_eq_left (Nat.le_of_lt hij)] at h
  have hlen : 0 < ((cs.take j).drop i).length := by
    simp only [List.length_drop, List.length_take]
    omega
  have hbytes := length_le_byteLength ((cs.take j).drop i)
  rw [hsplit, byteLength_append]
  omega

theorem utf8ByteSize_ofList (cs : List Char) : (String.ofList cs).utf8ByteSize = byteLength cs := by
  induction cs with
  | nil => simp [byteLength]
  | cons c cs ih => simp_all [byteLength]

theorem byteLength_toList (s : String) : byteLength s.toList = s.utf8ByteSize := by
  rw [← utf8ByteSize_ofList, String.ofList_toList]

/-! ## Trivia -/

/-- A stretch of text that scanning skips, given the text after it. A comment runs up to its
line break, `\n` or `\r\n`, or to the end. A continuation takes its blanks and its line break;
at the end of the text it takes a last carriage return with it. -/
inductive Trivia : List Char → List Char → Prop
  | blank {c : Char} {after : List Char} (hc : c = ' ' ∨ c = '\t') : Trivia [c] after
  | carriageReturn {after : List Char} (h : after.head? ≠ some '\n') : Trivia ['\r'] after
  | comment {body after : List Char} (hbody : '\n' ∉ body)
      (hend : after = [] ∨ (after.head? = some '\n' ∧ body.getLast? ≠ some '\r') ∨
        ['\r', '\n'] <+: after) :
      Trivia ('\'' :: body) after
  | continuation {blanks brk after : List Char} (hblanks : ∀ c ∈ blanks, c = ' ' ∨ c = '\t')
      (hbrk : brk = ['\n'] ∨ brk = ['\r', '\n'] ∨ (after = [] ∧ (brk = [] ∨ brk = ['\r']))) :
      Trivia ('_' :: (blanks ++ brk)) after

theorem run_split (p : Char → Bool) (cs : List Char) :
    ∃ w r, cs = w ++ r ∧ run p cs = w.length ∧ (∀ c ∈ w, p c = true) ∧
      ∀ c ∈ r.head?, p c = false := by
  refine ⟨cs.takeWhile p, cs.dropWhile p, List.takeWhile_append_dropWhile.symm, rfl,
    fun c hc => List.all_eq_true.mp List.all_takeWhile c hc, fun c hc => ?_⟩
  have h := List.head?_dropWhile_not p cs
  rw [Option.mem_def.mp hc] at h
  exact h

theorem comment_trivia (rest : List Char) :
    Trivia ('\'' :: rest.take (commentLength rest)) (rest.drop (commentLength rest)) := by
  obtain ⟨w, r, rfl, hrun, hw, hr⟩ := run_split (· != '\n') rest
  have hbody : '\n' ∉ w := fun h => by simpa using hw _ h
  have hstop : r = [] ∨ ∃ more, r = '\n' :: more := by
    cases r with
    | nil => exact .inl rfl
    | cons d more =>
      have hd : d = '\n' := by simpa using hr d rfl
      exact .inr ⟨more, by rw [hd]⟩
  unfold commentLength
  rw [hrun]
  rcases hstop with rfl | ⟨more, rfl⟩
  · simp only [List.append_nil, List.drop_length, List.length_nil]
    simp
    exact .comment hbody (.inl rfl)
  · rcases List.eq_nil_or_concat w with rfl | ⟨w', x, rfl⟩
    · simp
      exact .comment (by simp) (.inr (.inl ⟨rfl, by simp⟩))
    · by_cases hx : x = '\r'
      · subst hx
        simp only [List.concat_eq_append, List.mem_append, not_or] at hbody
        simp
        exact .comment hbody.1 (.inr (.inr ⟨more, rfl⟩))
      · simp only [List.concat_eq_append] at hbody ⊢
        simp [hx, List.take_length_add_append 1]
        exact .comment hbody (.inr (.inl ⟨rfl, by simp [hx]⟩))

theorem continuation_trivia {rest : List Char} {n : Nat} (h : continuation rest = (.trivia, n)) :
    Trivia ('_' :: rest.take n) (rest.drop n) := by
  obtain ⟨w, r, rfl, hrun, hw, hr⟩ := run_split (fun c => c == ' ' || c == '\t') rest
  have hblanks : ∀ c ∈ w, c = ' ' ∨ c = '\t' := fun c hc => by simpa using hw c hc
  unfold continuation at h
  simp only [hrun, List.drop_left] at h
  rcases r with _ | ⟨d, r⟩
  · simp at h
    subst h
    simpa using @Trivia.continuation w [] [] hblanks (.inr (.inr ⟨rfl, .inl rfl⟩))
  · by_cases hd : d = '\r'
    · subst hd
      rcases r with _ | ⟨e, r⟩
      · simp at h
        subst h
        rw [List.take_length_add_append, List.drop_length_add_append]
        simpa using @Trivia.continuation w ['\r'] [] hblanks (.inr (.inr ⟨rfl, .inr rfl⟩))
      · by_cases he : e = '\n'
        · subst he
          simp at h
          subst h
          rw [Nat.add_assoc, List.take_length_add_append, List.drop_length_add_append]
          simpa using @Trivia.continuation w ['\r', '\n'] r hblanks (.inr (.inl rfl))
        · simp [he] at h
    · simp [hd] at h
      by_cases he : d = '\n'
      · subst he
        simp at h
        subst h
        rw [List.take_length_add_append, List.drop_length_add_append]
        simpa using @Trivia.continuation w ['\n'] r hblanks (.inl rfl)
      · simp [he] at h

theorem carriageReturn_trivia {rest : List Char} (h : ∀ tail, rest = '\n' :: tail → False) :
    Trivia ('\r' :: rest.take 0) (rest.drop 0) := by
  refine .carriageReturn fun hd => ?_
  cases rest with
  | nil => cases hd
  | cons d tail =>
    simp only [List.drop_zero, List.head?_cons, Option.some.injEq] at hd
    exact h tail (by rw [hd])

theorem delimited_ne_trivia (close : Char) (kind : TokenKind) (p : ScanProblem) (rest : List Char)
    (n : Nat) : delimited close kind p rest ≠ (.trivia, n) := by
  dsimp only [delimited]
  split
  · split <;> simp
  · simp

theorem step_trivia {c : Char} {rest : List Char} {n : Nat} (h : step c rest = (.trivia, n)) :
    Trivia (c :: rest.take n) (rest.drop n) := by
  unfold step at h
  repeat' split at h
  all_goals first
    | (cases h <;> done)
    | exact absurd h (delimited_ne_trivia _ _ _ _ _)
    | exact continuation_trivia h
    | (obtain ⟨-, rfl⟩ := Prod.mk.inj h
       first
         | exact comment_trivia rest
         | exact .blank (.inl rfl)
         | exact .blank (.inr rfl)
         | exact carriageReturn_trivia ‹_›)

/-! ## Tokens of a step -/

theorem wordKind_ne_eof (w : List Char) : wordKind w ≠ .eof := by
  unfold wordKind
  split <;> simp

theorem number_token_ne_eof {p : Bool} {rest : List Char} {k : TokenKind} {n : Nat}
    (h : number p rest = (.token k, n)) : k ≠ .eof := by
  simp only [number, Prod.mk.injEq, Piece.token.injEq] at h
  rw [← h.1]
  simp

theorem radixNumber_token_ne_eof {m : Char} {rest : List Char} {k : TokenKind} {n : Nat}
    (h : radixNumber m rest = (.token k, n)) : k ≠ .eof := by
  simp only [radixNumber, Prod.mk.injEq, Piece.token.injEq] at h
  rw [← h.1]
  simp

theorem delimited_token {close : Char} {kind k : TokenKind} {p : ScanProblem} {rest : List Char}
    {n : Nat} (h : delimited close kind p rest = (.token k, n)) : k = kind := by
  dsimp only [delimited] at h
  split at h
  · split at h
    · cases h
      rfl
    · cases h
  · cases h

theorem continuation_ne_token (rest : List Char) (k : TokenKind) (n : Nat) :
    continuation rest ≠ (.token k, n) := by
  dsimp only [continuation]
  split
  · simp
  · split <;> simp

theorem step_token_ne_eof {c : Char} {rest : List Char} {k : TokenKind} {n : Nat}
    (h : step c rest = (.token k, n)) : k ≠ .eof := by
  unfold step at h
  repeat' split at h
  all_goals first
    | (cases h <;> decide)
    | exact number_token_ne_eof h
    | exact radixNumber_token_ne_eof h
    | exact absurd h (continuation_ne_token _ _ _)
    | (rw [delimited_token h]; decide)
    | (cases h; exact wordKind_ne_eof _)

/-! ## The cut -/

/-- The span an item covers. -/
def itemSpan : Except ScanError Token → Span
  | .ok t => t.span
  | .error e => e.span

/-- `Cuts pos cs pieces`: the text `cs`, starting at byte `pos`, is the concatenation of the
pieces in order. An item's piece is non-empty, the item spans exactly its bytes, and a token is
no end token and has the piece as its lexeme; a piece with no item is trivia before the rest. -/
inductive Cuts : Nat → List Char → List (Option (Except ScanError Token) × List Char) → Prop
  | nil (pos : Nat) : Cuts pos [] []
  | item {pos : Nat} {text rest : List Char} {it : Except ScanError Token}
      {pieces : List (Option (Except ScanError Token) × List Char)} (hne : text ≠ [])
      (hspan : itemSpan it = ⟨pos, pos + byteLength text⟩)
      (htok : ∀ t, it = .ok t → t.kind ≠ .eof ∧ t.lexeme = String.ofList text)
      (h : Cuts (pos + byteLength text) rest pieces) :
      Cuts pos (text ++ rest) ((some it, text) :: pieces)
  | trivia {pos : Nat} {text rest : List Char}
      {pieces : List (Option (Except ScanError Token) × List Char)} (ht : Trivia text rest)
      (h : Cuts (pos + byteLength text) rest pieces) :
      Cuts pos (text ++ rest) ((none, text) :: pieces)

theorem scanFrom_cuts : ∀ (pos : Nat) (cs : List Char), ∃ pieces, Cuts pos cs pieces ∧
    scanFrom pos cs = pieces.filterMap Prod.fst ++ [.ok (Token.eof (pos + byteLength cs))]
  | pos, [] => ⟨[], .nil pos, by simp [scanFrom_nil, byteLength]⟩
  | pos, c :: rest => by
    rcases hstep : step c rest with ⟨piece, n⟩
    obtain ⟨pieces, hcuts, hscan⟩ :=
      scanFrom_cuts (pos + byteLength (c :: rest.take n)) (rest.drop n)
    have htext : c :: rest = (c :: rest.take n) ++ rest.drop n := by simp
    have hbytes : pos + byteLength (c :: rest.take n) + byteLength (rest.drop n) =
        pos + byteLength (c :: rest) := by
      rw [Nat.add_assoc, ← byteLength_append, ← htext]
    rw [scanFrom, hstep]
    cases piece with
    | token k =>
      refine ⟨(some (.ok ⟨k, String.ofList (c :: rest.take n),
        ⟨pos, pos + byteLength (c :: rest.take n)⟩⟩), c :: rest.take n) :: pieces, ?_, ?_⟩
      · rw [htext]
        refine .item (List.cons_ne_nil _ _) rfl (fun t ht => ?_) hcuts
        cases ht
        exact ⟨step_token_ne_eof hstep, rfl⟩
      · simp [hscan, hbytes]
    | trivia =>
      refine ⟨(none, c :: rest.take n) :: pieces, ?_, ?_⟩
      · rw [htext]
        exact .trivia (step_trivia hstep) hcuts
      · simp [hscan, hbytes]
    | problem p =>
      refine ⟨(some (.error ⟨p, ⟨pos, pos + byteLength (c :: rest.take n)⟩⟩),
        c :: rest.take n) :: pieces, ?_, ?_⟩
      · rw [htext]
        exact .item (List.cons_ne_nil _ _) rfl (fun t ht => by cases ht) hcuts
      · simp [hscan, hbytes]
termination_by _ cs => cs.length
decreasing_by simp only [List.length_drop, List.length_cons]; omega

/-! ## Spans of a cut -/

/-- The item `it` covers the characters `i` to `j` of `cs`, which start at byte `pos`: its span
is their bytes, and a token has them as its lexeme. -/
def Lies (pos : Nat) (cs : List Char) (it : Except ScanError Token) : Prop :=
  ∃ i j, i < j ∧ j ≤ cs.length ∧
    itemSpan it = ⟨pos + byteLength (cs.take i), pos + byteLength (cs.take j)⟩ ∧
    ∀ t, it = .ok t → t.kind ≠ .eof ∧ t.lexeme = String.ofList ((cs.take j).drop i)

theorem Lies.shift {pos : Nat} {text rest : List Char} {it : Except ScanError Token}
    (h : Lies (pos + byteLength text) rest it) : Lies pos (text ++ rest) it := by
  obtain ⟨i, j, hij, hj, hspan, htok⟩ := h
  refine ⟨text.length + i, text.length + j, by omega, by simp; omega, ?_, ?_⟩
  · rw [hspan, List.take_length_add_append, List.take_length_add_append, byteLength_append,
      byteLength_append, Nat.add_assoc, Nat.add_assoc]
  · rw [List.take_length_add_append, List.drop_length_add_append]
    exact htok

theorem Cuts.lies {pos : Nat} {cs : List Char}
    {pieces : List (Option (Except ScanError Token) × List Char)} (h : Cuts pos cs pieces) :
    ∀ it ∈ pieces.filterMap Prod.fst, Lies pos cs it := by
  induction h with
  | nil => simp
  | @item pos text rest it pieces hne hspan htok h ih =>
    intro it' hit
    rcases List.mem_cons.mp hit with rfl | hit
    · refine ⟨0, text.length, List.length_pos_iff.mpr hne, by simp, ?_, ?_⟩
      · simp [hspan, byteLength]
      · intro t ht
        simpa using htok t ht
    · exact Lies.shift (ih it' hit)
  | trivia ht h ih =>
    intro it hit
    exact Lies.shift (ih it hit)

theorem Lies.bounds {pos : Nat} {cs : List Char} {it : Except ScanError Token}
    (h : Lies pos cs it) :
    pos ≤ (itemSpan it).start ∧ (itemSpan it).start < (itemSpan it).stop ∧
      (itemSpan it).stop ≤ pos + byteLength cs := by
  obtain ⟨i, j, hij, hj, hspan, -⟩ := h
  have hlt := byteLength_take_lt hij hj
  have hle := byteLength_take_le cs j
  rw [hspan]
  dsimp only
  omega

theorem Cuts.pairwise {pos : Nat} {cs : List Char}
    {pieces : List (Option (Except ScanError Token) × List Char)} (h : Cuts pos cs pieces) :
    (pieces.filterMap Prod.fst).Pairwise fun a b => (itemSpan a).stop ≤ (itemSpan b).start := by
  induction h with
  | nil => simp
  | item hne hspan htok h ih =>
    refine List.Pairwise.cons (fun b hb => ?_) ih
    rw [hspan]
    exact ((h.lies b hb).bounds).1
  | trivia ht h ih => exact ih

end Scan

/-! ## The iterator -/

namespace Scanner

open Scan

/-- The items a scanner has still to give. -/
def pending (s : Scanner) : List (Except ScanError Token) :=
  if s.len < s.curr then [] else scanFrom s.curr s.rest

/-- The cursor is past the end, or the characters left fill the bytes from it to the end. -/
def Valid (s : Scanner) : Prop :=
  s.len < s.curr ∨ s.curr + byteLength s.rest = s.len

theorem new_valid (src : String) : (new src).Valid :=
  .inr (by rw [new, Nat.zero_add, byteLength_toList])

theorem pending_new (src : String) : (new src).pending = Token.scan src := by
  simp [pending, new, Token.scan]

theorem pending_of_bytes {s : Scanner} (h : s.curr + byteLength s.rest = s.len) :
    s.pending = scanFrom s.curr s.rest := by
  rw [pending, if_neg (by omega)]

theorem bytes_after {curr len : Nat} {c : Char} {rest : List Char} (n : Nat)
    (hs : Valid ⟨curr, len, c :: rest⟩) (hnot : ¬len < curr) :
    curr + byteLength (c :: rest.take n) + byteLength (rest.drop n) = len := by
  have htext : c :: rest = (c :: rest.take n) ++ rest.drop n := by simp
  rcases hs with hpast | hbytes
  · exact absurd hpast hnot
  · rw [Nat.add_assoc, ← byteLength_append, ← htext]
    exact hbytes

theorem next_spec (s : Scanner) (hs : s.Valid) :
    s.next.1 = s.pending.head? ∧ s.next.2.pending = s.pending.tail ∧ s.next.2.Valid := by
  fun_induction next s with
  | case1 curr len cs hpast => simp [pending, hpast, Valid]
  | case2 curr len hnot =>
    have hend : curr = len := by
      rcases hs with hpast | hbytes
      · exact absurd hpast hnot
      · simpa [byteLength] using hbytes
    subst hend
    simp [pending, scanFrom_nil, Valid]
  | case3 curr len hnot c rest n taken stop after kind hstep =>
    have hbytes := bytes_after n hs hnot
    have hp : pending ⟨curr, len, c :: rest⟩ =
        .ok ⟨kind, String.ofList taken, ⟨curr, stop⟩⟩ :: scanFrom stop (rest.drop n) := by
      rw [pending, if_neg hnot, scanFrom, hstep]
    exact ⟨by rw [hp]; rfl, by rw [hp, pending_of_bytes hbytes]; rfl, .inr hbytes⟩
  | case4 curr len hnot c rest n taken stop after hstep ih =>
    have hbytes := bytes_after n hs hnot
    have hp : pending ⟨curr, len, c :: rest⟩ = after.pending := by
      rw [pending, if_neg hnot, scanFrom, hstep, pending_of_bytes hbytes]
    rw [hp]
    exact ih (.inr hbytes)
  | case5 curr len hnot c rest n taken stop after p hstep =>
    have hbytes := bytes_after n hs hnot
    have hp : pending ⟨curr, len, c :: rest⟩ =
        .error ⟨p, ⟨curr, stop⟩⟩ :: scanFrom stop (rest.drop n) := by
      rw [pending, if_neg hnot, scanFrom, hstep]
    exact ⟨by rw [hp]; rfl, by rw [hp, pending_of_bytes hbytes]; rfl, .inr hbytes⟩

theorem answers_eq (n : Nat) (s : Scanner) (hs : s.Valid) :
    s.answers n = (List.range n).map fun i => s.pending[i]? := by
  induction n generalizing s with
  | zero => rfl
  | succ n ih =>
    obtain ⟨hfirst, hrest, hvalid⟩ := next_spec s hs
    rw [answers, ih _ hvalid, hfirst, hrest, List.range_succ_eq_map, List.map_cons,
      List.map_map]
    simp [List.head?_eq_getElem?, Function.comp_def]

example : ((new "x \x27c").answers 4).map Option.isSome = [true, true, false, false] := by
  decide +kernel

end Scanner

open Scan in
/-- The iterator answers the items of the scan in order and nothing after them. Scanning cuts
its source into pieces without loss: the items, tokens and lexical problems, and the trivia
between them make up the text in order, and the end token at the byte length of the text
closes the scan. There are at most one item per byte and the end token. Every other
item has a non-empty span that starts and stops on character boundaries, covering the
characters `i` to `j`, and a token has those characters as its lexeme and is no end token.
Each item ends before the next begins. -/
theorem scan_partitions_source (s : String) :
    (∀ n, (Scanner.new s).answers n = (List.range n).map fun i => (Token.scan s)[i]?) ∧
    (Token.scan s).length ≤ s.utf8ByteSize + 1 ∧
    (∃ pieces, Cuts 0 s.toList pieces ∧
      Token.scan s = pieces.filterMap Prod.fst ++ [.ok (Token.eof s.utf8ByteSize)]) ∧
    (∀ it ∈ (Token.scan s).dropLast, (itemSpan it).start < (itemSpan it).stop ∧
      String.Pos.Raw.IsValid s ⟨(itemSpan it).start⟩ ∧
      String.Pos.Raw.IsValid s ⟨(itemSpan it).stop⟩ ∧
      ∃ i j, (itemSpan it).start = (String.ofList (s.toList.take i)).utf8ByteSize ∧
        (itemSpan it).stop = (String.ofList (s.toList.take j)).utf8ByteSize ∧
        ∀ t, it = .ok t → t.kind ≠ .eof ∧ t.lexeme = String.ofList ((s.toList.take j).drop i)) ∧
    (Token.scan s).Pairwise fun a b => (itemSpan a).stop ≤ (itemSpan b).start := by
  obtain ⟨pieces, hcuts, hscan⟩ := scanFrom_cuts 0 s.toList
  have hsize := byteLength_toList s
  rw [Nat.zero_add, hsize] at hscan
  have hitems : (Token.scan s).dropLast = pieces.filterMap Prod.fst := by
    rw [Token.scan, hscan, List.dropLast_concat]
  refine ⟨fun n => ?_, ?_, ⟨pieces, hcuts, hscan⟩, fun it hit => ?_, ?_⟩
  · rw [Scanner.answers_eq n _ (Scanner.new_valid s), Scanner.pending_new]
  · have hlen := length_scanFrom_le s.toList 0
    have hbytes := length_le_byteLength s.toList
    rw [Token.scan]
    omega
  · rw [hitems] at hit
    have hlies := hcuts.lies it hit
    obtain ⟨-, hpos, -⟩ := hlies.bounds
    obtain ⟨i, j, -, -, hspan, htok⟩ := hlies
    simp only [Nat.zero_add] at hspan
    rw [hspan] at hpos ⊢
    refine ⟨hpos, ?_, ?_, i, j, by rw [utf8ByteSize_ofList],
      by rw [utf8ByteSize_ofList], htok⟩
    · exact String.Pos.Raw.isValid_iff_exists_take_toList.mpr ⟨i, by rw [utf8ByteSize_ofList]⟩
    · exact String.Pos.Raw.isValid_iff_exists_take_toList.mpr ⟨j, by rw [utf8ByteSize_ofList]⟩
  · rw [Token.scan, hscan, List.pairwise_append]
    refine ⟨hcuts.pairwise, List.pairwise_singleton _ _, fun a ha b hb => ?_⟩
    rw [List.mem_singleton] at hb
    subst hb
    have hstop := ((hcuts.lies a ha).bounds).2.2
    rw [hsize] at hstop
    simpa [itemSpan, Token.eof] using hstop

/-- In `x _⏎+ 1 ' sum` the continuation and the comment are trivia, and the `+` after the line
break covers the fifth byte as its lexeme. -/
theorem scan_partitions_continued_sum :
    Token.scan "x _\n+ 1 \x27 sum" = [.ok ⟨.identifier, "x", ⟨0, 1⟩⟩, .ok ⟨.plus, "+", ⟨4, 5⟩⟩,
      .ok ⟨.literal .integer, "1", ⟨6, 7⟩⟩, .ok (Token.eof 13)] ∧
    ∃ i j, (String.ofList ("x _\n+ 1 \x27 sum".toList.take i)).utf8ByteSize = 4 ∧
      (String.ofList ("x _\n+ 1 \x27 sum".toList.take j)).utf8ByteSize = 5 ∧
      String.ofList (("x _\n+ 1 \x27 sum".toList.take j).drop i) = "+" := by
  have hscan : Token.scan "x _\n+ 1 \x27 sum" = [.ok ⟨.identifier, "x", ⟨0, 1⟩⟩,
      .ok ⟨.plus, "+", ⟨4, 5⟩⟩, .ok ⟨.literal .integer, "1", ⟨6, 7⟩⟩, .ok (Token.eof 13)] := by
    cbv
  obtain ⟨-, -, -, hitems, -⟩ := scan_partitions_source "x _\n+ 1 \x27 sum"
  have hmem : (.ok ⟨.plus, "+", ⟨4, 5⟩⟩ : Except ScanError Token) ∈
      (Token.scan "x _\n+ 1 \x27 sum").dropLast := by
    rw [hscan]
    simp
  obtain ⟨-, -, -, i, j, hi, hj, hlex⟩ := hitems _ hmem
  exact ⟨hscan, i, j, hi.symm, hj.symm, (hlex _ rfl).2.symm⟩

end ScriptFold
