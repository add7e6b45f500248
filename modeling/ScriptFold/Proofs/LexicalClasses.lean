import Mathlib
import ScriptFold.Proofs.LiteralText
import ScriptFold.Proofs.PrintText
import ScriptFold.Proofs.ScanSlice
/-!
# The lexical classes

The classes of text that make tokens, stated on their own (`Scan.Lexeme`): the punctuators,
integers, floats with a fraction or an exponent part, `&H` and `&O` numbers, strings with
doubled quotes, `#dates#`, words and `[bracketed names]`, and line breaks. A word is a keyword
when its lower-case spelling is in the keyword table, and an identifier otherwise.

Each helper of the scanner meets its class twice: what it takes belongs to the class
(`Scan.number_lexeme`, `Scan.radixNumber_lexeme`, `Scan.stringBody_lexeme`,
`Scan.delimited_lexeme`, `Scan.wordKind_lexeme`), and it takes at least as much as any text of
the class at the start of the input (`Scan.float_le_number`, `Scan.radix_le_radixNumber`,
`Scan.word_le_run`, and `Scan.delimited_closed` for dates and bracketed names). Strings are the
exception: the scanner reads `""` as a quote inside the string, so a string with a quote right
after it is read on (`Scan.string_le_stringBody`).
-/
namespace ScriptFold

set_option autoImplicit false

namespace Scan

/-! ## The lexical classes -/

/-- One digit or more. -/
def Digits (ds : List Char) : Prop :=
  ds ≠ [] ∧ ∀ c ∈ ds, c.isDigit = true

/-- An exponent part: `e` or `E`, an optional sign, and digits. -/
def Exponent (x : List Char) : Prop :=
  ∃ e sign ds, x = e :: (sign ++ ds) ∧ (e = 'e' ∨ e = 'E') ∧
    (sign = [] ∨ sign = ['+'] ∨ sign = ['-']) ∧ Digits ds

/-- The body of a string literal: characters other than a quote or a line feed, and quotes
written twice. -/
inductive StringBody : List Char → Prop
  | nil : StringBody []
  | char {c : Char} {body : List Char} (hq : c ≠ '"') (hn : c ≠ '\n') (h : StringBody body) :
      StringBody (c :: body)
  | doubled {body : List Char} (h : StringBody body) : StringBody ('"' :: '"' :: body)

/-- The punctuators, and the kind of each. -/
def punctuators : List (List Char × TokenKind) :=
  [(['('], .leftParen), ([')'], .rightParen), ([','], .comma), ([':'], .colon),
    (['+'], .plus), (['-'], .minus), (['*'], .star), (['/'], .slash), (['\\'], .backslash),
    (['^'], .caret), (['='], .equal), (['&'], .ampersand), (['.'], .dot), (['<'], .less),
    (['>'], .greater), (['<', '>'], .notEqual), (['<', '='], .lessEqual),
    (['>', '='], .greaterEqual)]

/-- The letters that mark a radix after `&`, and the literal kind of each. -/
def radixMarkers : List (Char × LiteralKind) :=
  [('H', .hex), ('h', .hex), ('O', .octal), ('o', .octal)]

/-- The keywords by their lower-case spelling, and the kind of each. -/
def keywords : List (String × TokenKind) :=
  [("and", .andOp), ("or", .orOp), ("not", .notOp), ("xor", .xorOp), ("eqv", .eqvOp),
    ("imp", .impOp), ("mod", .modOp), ("true", .literal .boolean),
    ("false", .literal .boolean), ("empty", .literal .empty), ("null", .literal .null)]

/-- A word in lower case, the key of the keyword table. -/
def lowerWord (w : List Char) : String :=
  String.ofList (w.map Char.toLower)

/-- `Lexeme w k`: the text `w` belongs to a lexical class, whose tokens have the kind `k`. -/
inductive Lexeme : List Char → TokenKind → Prop
  | punctuator {w : List Char} {k : TokenKind} (h : (w, k) ∈ punctuators) : Lexeme w k
  | integer {ds : List Char} (h : Digits ds) : Lexeme ds (.literal .integer)
  | float {whole fraction exponent : List Char} (hw : Digits whole)
      (hf : fraction = [] ∨ ∃ fs, Digits fs ∧ fraction = '.' :: fs)
      (hx : exponent = [] ∨ Exponent exponent) (hne : fraction ≠ [] ∨ exponent ≠ []) :
      Lexeme (whole ++ fraction ++ exponent) (.literal .float)
  | pointFloat {fs exponent : List Char} (hf : Digits fs)
      (hx : exponent = [] ∨ Exponent exponent) :
      Lexeme ('.' :: (fs ++ exponent)) (.literal .float)
  | radix {m : Char} {kind : LiteralKind} {ds suffix : List Char} (hm : (m, kind) ∈ radixMarkers)
      (hne : ds ≠ []) (hds : ∀ c ∈ ds, c.isAlphanum = true) (hs : suffix = [] ∨ suffix = ['&']) :
      Lexeme ('&' :: m :: (ds ++ suffix)) (.literal kind)
  | string {body : List Char} (h : StringBody body) :
      Lexeme ('"' :: (body ++ ['"'])) (.literal .string)
  | date {body : List Char} (h : ∀ c ∈ body, c ≠ '#' ∧ c ≠ '\n') :
      Lexeme ('#' :: (body ++ ['#'])) (.literal .date)
  | keyword {c : Char} {cs : List Char} {k : TokenKind} (hc : c.isAlpha = true)
      (hcs : ∀ d ∈ cs, d.isAlphanum = true ∨ d = '_') (hk : (lowerWord (c :: cs), k) ∈ keywords) :
      Lexeme (c :: cs) k
  | identifier {c : Char} {cs : List Char} (hc : c.isAlpha = true)
      (hcs : ∀ d ∈ cs, d.isAlphanum = true ∨ d = '_')
      (hk : ∀ k, (lowerWord (c :: cs), k) ∉ keywords) :
      Lexeme (c :: cs) .identifier
  | bracketed {body : List Char} (h : ∀ c ∈ body, c ≠ ']' ∧ c ≠ '\n') :
      Lexeme ('[' :: (body ++ [']'])) .identifier
  | newline {w : List Char} (h : w = ['\n'] ∨ w = ['\r', '\n']) : Lexeme w .newline

/-! ## Runs -/

theorem run_append_of_all {p : Char → Bool} {ds : List Char} (hds : ∀ c ∈ ds, p c = true)
    (rest : List Char) : run p (ds ++ rest) = ds.length + run p rest := by
  simp only [run, List.takeWhile_append_of_pos hds, List.length_append]

theorem length_le_run {p : Char → Bool} {ds z : List Char} (hds : ∀ c ∈ ds, p c = true)
    (h : ds <+: z) : ds.length ≤ run p z := by
  obtain ⟨u, rfl⟩ := h
  rw [run_append_of_all hds]
  omega

/-! ## Letters -/

theorem toNat_toUpper (c : Char) :
    c.toUpper.toNat = if 97 ≤ c.toNat ∧ c.toNat ≤ 122 then c.toNat - 32 else c.toNat := by
  unfold Char.toUpper
  have ha : 'a'.val.toNat = 97 := rfl
  have hz : 'z'.val.toNat = 122 := rfl
  have hv : c.toNat = c.val.toNat := rfl
  split
  · rename_i h
    simp only [UInt32.le_iff_toNat_le, ha, hz] at h
    rw [if_pos (by omega), Char.toNat_mk, UInt32.toNat_add]
    -- the offset is `'A' - 'a'`, which wraps around below zero
    have hsub : ('A'.val - 'a'.val).toNat = 2 ^ 32 - 32 := by decide
    rw [hsub]
    omega
  · rename_i h
    simp only [UInt32.le_iff_toNat_le, ha, hz] at h
    rw [if_neg (by omega)]

theorem radix_marker {m : Char} (hm : (m.toUpper == 'H' || m.toUpper == 'O') = true) :
    m = 'H' ∨ m = 'h' ∨ m = 'O' ∨ m = 'o' := by
  have hup := toNat_toUpper m
  simp only [Bool.or_eq_true, beq_iff_eq] at hm
  simp only [← Char.toNat_inj, Char.reduceToNat]
  rcases hm with h | h <;> rw [h] at hup <;> simp only [Char.reduceToNat] at hup <;> split at hup
  all_goals omega

theorem mem_radixMarkers_iff {m : Char} {kind : LiteralKind} :
    (m, kind) ∈ radixMarkers ↔
      (m.toUpper == 'H' || m.toUpper == 'O') = true ∧
        kind = if m.toUpper == 'H' then .hex else .octal := by
  constructor
  · intro h
    simp only [radixMarkers, List.mem_cons, Prod.mk.injEq, List.not_mem_nil, or_false] at h
    rcases h with ⟨rfl, rfl⟩ | ⟨rfl, rfl⟩ | ⟨rfl, rfl⟩ | ⟨rfl, rfl⟩ <;> exact ⟨rfl, rfl⟩
  · rintro ⟨hm, rfl⟩
    rcases radix_marker hm with rfl | rfl | rfl | rfl <;> simp [radixMarkers]

/-! ## Exponents -/

theorem Exponent.head {x : List Char} (h : Exponent x) :
    ∃ e t, x = e :: t ∧ e.isDigit = false ∧ e ≠ '.' := by
  obtain ⟨e, sign, ds, rfl, he, -, -⟩ := h
  exact ⟨e, _, rfl, by rcases he with rfl | rfl <;> rfl, by rcases he with rfl | rfl <;> decide⟩

theorem Exponent.le_exponentLength {x : List Char} (h : Exponent x) (more : List Char) :
    x.length ≤ exponentLength (x ++ more) := by
  obtain ⟨e, sign, ds, rfl, he, hsign, hne, hds⟩ := h
  obtain ⟨d, ds', rfl⟩ := List.exists_cons_of_ne_nil hne
  have hd : d.isDigit = true := hds d List.mem_cons_self
  have hds' : ∀ c ∈ ds', c.isDigit = true := fun c hc => hds c (List.mem_cons_of_mem d hc)
  have hmark : (e == 'e' || e == 'E') = true := by rcases he with rfl | rfl <;> rfl
  have hrun := length_le_run hds' (List.prefix_append ds' more)
  rcases hsign with rfl | rfl | rfl
  · have hsign : (d == '+' || d == '-') = false := by
      cases h1 : d == '+' <;> cases h2 : d == '-' <;> simp_all
    simp only [List.nil_append, List.cons_append, List.length_cons]
    cases hrest : ds' ++ more with
    | nil =>
      rw [List.append_eq_nil_iff] at hrest
      simp [exponentLength, hmark, hd, hrest.1]
    | cons y z =>
      rw [hrest] at hrun
      simp only [exponentLength, hmark, hsign, hd, Bool.and_false, Bool.false_and,
        Bool.false_eq_true, if_false, Bool.and_self, if_true]
      omega
  all_goals
    simp only [List.cons_append, List.nil_append, List.length_cons]
    simp [exponentLength, hmark, hd]
    omega

theorem digits_cons_take_run {d : Char} (hd : d.isDigit = true) (cs : List Char) :
    Digits (d :: cs.take (run Char.isDigit cs)) := by
  refine ⟨List.cons_ne_nil _ _, fun c hc => ?_⟩
  rcases List.mem_cons.mp hc with rfl | hc
  · exact hd
  · exact take_run_all _ cs c hc

theorem exponent_take {z : List Char} (h : 0 < exponentLength z) :
    Exponent (z.take (exponentLength z)) := by
  have hmark : ∀ e : Char, (e == 'e' || e == 'E') = true → e = 'e' ∨ e = 'E' := by
    intro e he
    simpa using he
  unfold exponentLength at h ⊢
  split
  · rename_i e s d more
    split
    · rename_i h1
      simp only [Bool.and_eq_true] at h1
      obtain ⟨⟨he, hs⟩, hd⟩ := h1
      refine ⟨e, [s], d :: more.take (run Char.isDigit more), ?_, hmark e he, ?_,
        digits_cons_take_run hd more⟩
      · simp [Nat.add_comm 3, List.take_succ_cons]
      · simp only [Bool.or_eq_true, beq_iff_eq] at hs
        rcases hs with rfl | rfl <;> simp
    · split
      · rename_i _ h2
        simp only [Bool.and_eq_true] at h2
        obtain ⟨he, hs⟩ := h2
        refine ⟨e, [], s :: (d :: more).take (run Char.isDigit (d :: more)), ?_, hmark e he,
          .inl rfl, digits_cons_take_run hs _⟩
        simp [Nat.add_comm 2, List.take_succ_cons]
      · simp_all
  · rename_i e s
    split
    · rename_i h2
      simp only [Bool.and_eq_true] at h2
      obtain ⟨he, hs⟩ := h2
      exact ⟨e, [], [s], rfl, hmark e he, .inl rfl, List.cons_ne_nil _ _, by simpa using hs⟩
    · simp_all
  · simp at h

theorem pointFraction_of_not_point {x : Char} (hx : x ≠ '.') (rest : List Char) :
    pointFraction (x :: rest) = 0 := by
  rcases rest with _ | ⟨y, w⟩
  · exact pointFraction_short [x] (by simp)
  · rw [pointFraction_cons_cons, if_neg (fun h => hx h.1)]

/-! ## Numbers -/

theorem fraction_take (a : List Char) :
    a.take (pointFraction a) = [] ∨ ∃ fs, Digits fs ∧ a.take (pointFraction a) = '.' :: fs := by
  rcases a with _ | ⟨x, _ | ⟨y, w⟩⟩
  · exact .inl rfl
  · exact .inl (by rw [pointFraction_short [x] (by simp)]; rfl)
  · rw [pointFraction_cons_cons]
    by_cases hxy : x = '.' ∧ y.isDigit = true
    · obtain ⟨rfl, hy⟩ := hxy
      rw [if_pos ⟨rfl, hy⟩, run_cons, if_pos hy]
      refine .inr ⟨y :: w.take (run Char.isDigit w), digits_cons_take_run hy w, ?_⟩
      simp [Nat.add_comm 1, List.take_succ_cons]
    · rw [if_neg hxy]
      exact .inl rfl

theorem digits_exponent_le {ds x z : List Char} (hds : ∀ c ∈ ds, c.isDigit = true)
    (hx : x = [] ∨ Exponent x) (h : ds ++ x <+: z) :
    (ds ++ x).length ≤ run Char.isDigit z + exponentLength (z.drop (run Char.isDigit z)) := by
  rcases hx with rfl | hx
  · rw [List.append_nil] at h ⊢
    have := length_le_run hds h
    omega
  · obtain ⟨u, rfl⟩ := h
    obtain ⟨e, t, hxe, he, -⟩ := hx.head
    have hrun : run Char.isDigit (ds ++ x ++ u) = ds.length := by
      rw [List.append_assoc]
      exact run_append hds (by rw [hxe]; intro c hc; cases hc; exact he)
    rw [hrun, List.append_assoc, List.drop_left, List.length_append]
    have := hx.le_exponentLength u
    omega

theorem integer_le_number {c : Char} (hc : c.isDigit = true) {ds rest : List Char}
    (hds : Digits ds) (h : ds <+: c :: rest) : ds.length ≤ (number false rest).2 + 1 := by
  have hle := length_le_run hds.2 h
  rw [run_cons, if_pos hc] at hle
  rw [number_eq]
  dsimp only
  omega

theorem fraction_exponent_head {fraction exponent : List Char}
    (hf : fraction = [] ∨ ∃ fs, Digits fs ∧ fraction = '.' :: fs)
    (hx : exponent = [] ∨ Exponent exponent) (hne : fraction ≠ [] ∨ exponent ≠ []) :
    ∃ e t, fraction ++ exponent = e :: t ∧ e.isDigit = false := by
  rcases hf with rfl | ⟨fs, -, rfl⟩
  · rcases hx with rfl | hx
    · simp at hne
    · obtain ⟨e, t, rfl, he, -⟩ := hx.head
      exact ⟨e, t, rfl, he⟩
  · exact ⟨'.', fs ++ exponent, rfl, rfl⟩

theorem float_le_number {c : Char} (hc : c.isDigit = true)
    {whole fraction exponent rest : List Char}
    (hw : Digits whole) (hf : fraction = [] ∨ ∃ fs, Digits fs ∧ fraction = '.' :: fs)
    (hx : exponent = [] ∨ Exponent exponent) (hne : fraction ≠ [] ∨ exponent ≠ [])
    (h : whole ++ fraction ++ exponent <+: c :: rest) :
    (whole ++ fraction ++ exponent).length ≤ (number false rest).2 + 1 := by
  obtain ⟨d, whole', rfl⟩ := List.exists_cons_of_ne_nil hw.1
  have hwhole' : ∀ c ∈ whole', c.isDigit = true := fun c hc => hw.2 c (List.mem_cons_of_mem d hc)
  obtain ⟨u, hu⟩ := h
  simp only [List.cons_append, List.append_assoc, List.cons.injEq] at hu
  obtain ⟨rfl, rfl⟩ := hu
  have hstop : ∀ c ∈ (fraction ++ (exponent ++ u)).head?, c.isDigit = false := by
    obtain ⟨e, t, het, he⟩ := fraction_exponent_head hf hx hne
    rw [← List.append_assoc, het]
    intro c hc
    cases hc
    exact he
  have hrun := run_append hwhole' hstop
  rw [number_eq]
  dsimp only
  rw [hrun, List.drop_left]
  rcases hf with rfl | ⟨fs, hfs, rfl⟩
  · rcases hx with rfl | hx
    · simp at hne
    obtain ⟨e, t, he, -, hpoint⟩ := hx.head
    have hfrac : pointFraction (exponent ++ u) = 0 := by
      rw [he]
      exact pointFraction_of_not_point hpoint _
    simp only [List.nil_append, hfrac, Bool.false_eq_true, ite_self, List.drop_zero,
      List.length_append, List.length_cons, List.length_nil]
    have := hx.le_exponentLength u
    omega
  · obtain ⟨f, fs', rfl⟩ := List.exists_cons_of_ne_nil hfs.1
    have hf : f.isDigit = true := hfs.2 f List.mem_cons_self
    have hfrac : pointFraction ('.' :: (f :: fs' ++ (exponent ++ u))) =
        1 + run Char.isDigit (f :: fs' ++ (exponent ++ u)) := by
      rw [List.cons_append, pointFraction_cons_cons, if_pos ⟨rfl, hf⟩]
    have hexp := digits_exponent_le hfs.2 hx (List.prefix_append (f :: fs' ++ exponent) u)
    rw [List.append_assoc] at hexp
    simp only [Bool.false_eq_true, if_false, List.cons_append] at hfrac ⊢
    rw [hfrac, Nat.add_comm 1, List.drop_succ_cons]
    simp only [List.cons_append, List.length_append, List.length_cons] at hexp ⊢
    omega

theorem pointFloat_le_number {fs x rest : List Char} (hfs : Digits fs)
    (hx : x = [] ∨ Exponent x) (h : fs ++ x <+: rest) :
    (fs ++ x).length ≤ (number true rest).2 := by
  rw [number_eq]
  dsimp only
  simp only [if_true, List.drop_zero, Nat.add_zero]
  exact digits_exponent_le hfs.2 hx h

theorem take_number (b : Bool) (rest : List Char) :
    rest.take (number b rest).2 =
      rest.take (run Char.isDigit rest) ++
        (rest.drop (run Char.isDigit rest)).take
          (if b then 0 else pointFraction (rest.drop (run Char.isDigit rest))) ++
        ((rest.drop (run Char.isDigit rest)).drop
          (if b then 0 else pointFraction (rest.drop (run Char.isDigit rest)))).take
          (exponentLength ((rest.drop (run Char.isDigit rest)).drop
            (if b then 0 else pointFraction (rest.drop (run Char.isDigit rest))))) := by
  rw [number_eq]
  dsimp only
  rw [List.take_add, List.take_add, List.drop_drop]

theorem exponent_or_nil (z : List Char) :
    z.take (exponentLength z) = [] ∨ Exponent (z.take (exponentLength z)) := by
  by_cases h : exponentLength z = 0
  · exact .inl (by rw [h]; rfl)
  · exact .inr (exponent_take (Nat.pos_of_ne_zero h))

theorem number_lexeme {c : Char} (hc : c.isDigit = true) {rest : List Char} {k : TokenKind}
    {n : Nat} (h : number false rest = (.token k, n)) : Lexeme (c :: rest.take n) k := by
  have hk : Piece.token k = (number false rest).1 := by rw [h]
  have hn : n = (number false rest).2 := by rw [h]
  rw [hn, take_number]
  rw [number_eq] at hk
  simp only [Bool.false_eq_true, if_false, Bool.false_or] at hk ⊢
  generalize hW : run Char.isDigit rest = W at hk ⊢
  generalize hA : rest.drop W = A at hk ⊢
  have hwhole : Digits (c :: rest.take W) := hW ▸ digits_cons_take_run hc rest
  have hF : (A.take (pointFraction A)).length = pointFraction A :=
    List.length_take_of_le (pointFraction_le A)
  have hE : ((A.drop (pointFraction A)).take (exponentLength (A.drop (pointFraction A)))).length =
      exponentLength (A.drop (pointFraction A)) :=
    List.length_take_of_le (exponentLength_le _)
  rw [← List.cons_append, ← List.cons_append]
  by_cases hkind : pointFraction A > 0 ∨ exponentLength (A.drop (pointFraction A)) > 0
  · have hflt : k = .literal .float := by
      cases hk
      simp only [Bool.or_eq_true, decide_eq_true_eq]
      rw [if_pos hkind]
    rw [hflt]
    refine .float hwhole (fraction_take A) (exponent_or_nil _) ?_
    rcases hkind with hkind | hkind
    · exact .inl (List.ne_nil_of_length_pos (by omega))
    · exact .inr (List.ne_nil_of_length_pos (by omega))
  · have hint : k = .literal .integer := by
      cases hk
      simp only [Bool.or_eq_true, decide_eq_true_eq]
      rw [if_neg hkind]
    have hnil1 : A.take (pointFraction A) = [] := List.eq_nil_of_length_eq_zero (by omega)
    have hnil2 : (A.drop (pointFraction A)).take (exponentLength (A.drop (pointFraction A))) = [] :=
      List.eq_nil_of_length_eq_zero (by omega)
    rw [hint, hnil1, hnil2, List.append_nil, List.append_nil]
    exact .integer hwhole

theorem pointNumber_lexeme {d : Char} (hd : d.isDigit = true) {t : List Char} {k : TokenKind}
    {n : Nat} (h : number true (d :: t) = (.token k, n)) : Lexeme ('.' :: (d :: t).take n) k := by
  have hk : Piece.token k = (number true (d :: t)).1 := by rw [h]
  have hn : n = (number true (d :: t)).2 := by rw [h]
  rw [hn, take_number]
  rw [number_eq] at hk
  simp only [if_true, Bool.true_or, List.take_zero, List.append_nil, List.drop_zero] at hk ⊢
  cases hk
  have hfs : Digits ((d :: t).take (run Char.isDigit (d :: t))) := by
    rw [run_cons, if_pos hd, List.take_succ_cons]
    exact digits_cons_take_run hd t
  exact .pointFloat hfs (exponent_or_nil _)

/-! ## `&H` and `&O` numbers -/

theorem ampersand_take (a : List Char) :
    a.take (ampersandSuffix a) = [] ∨ a.take (ampersandSuffix a) = ['&'] := by
  rcases a with _ | ⟨x, w⟩
  · exact .inl rfl
  · rw [ampersandSuffix_cons]
    by_cases hx : x = '&'
    · subst hx
      exact .inr rfl
    · rw [if_neg hx]
      exact .inl rfl

theorem radixNumber_lexeme {m d : Char} {more : List Char}
    (hm : (m.toUpper == 'H' || m.toUpper == 'O') = true) (hd : d.isAlphanum = true)
    {k : TokenKind} {n : Nat} (h : radixNumber m (d :: more) = (.token k, n)) :
    Lexeme ('&' :: (m :: d :: more).take n) k := by
  rw [radixNumber_eq] at h
  obtain ⟨hk, rfl⟩ := Prod.mk.inj h
  cases hk
  generalize hR : run Char.isAlphanum (d :: more) = R
  have hpos : 1 ≤ R := by
    rw [← hR, run_cons, if_pos hd]
    omega
  have hds : ∀ c ∈ (d :: more).take R, c.isAlphanum = true := hR ▸ take_run_all _ _
  have hne : (d :: more).take R ≠ [] := by
    apply List.ne_nil_of_length_pos
    simp only [List.length_take, List.length_cons]
    have := run_le Char.isAlphanum (d :: more)
    simp only [List.length_cons] at this
    omega
  rw [show 1 + R + ampersandSuffix ((d :: more).drop R) =
      (R + ampersandSuffix ((d :: more).drop R)) + 1 by omega, List.take_succ_cons, List.take_add]
  exact .radix (mem_radixMarkers_iff.mpr ⟨hm, rfl⟩) hne hds (ampersand_take _)

theorem radix_le_radixNumber (m : Char) {ds suffix rest : List Char}
    (hds : ∀ c ∈ ds, c.isAlphanum = true) (hs : suffix = [] ∨ suffix = ['&'])
    (h : ds ++ suffix <+: rest) : (ds ++ suffix).length + 1 ≤ (radixNumber m rest).2 := by
  rw [radixNumber_eq]
  dsimp only
  rcases hs with rfl | rfl
  · rw [List.append_nil] at h ⊢
    have := length_le_run hds h
    omega
  · obtain ⟨u, rfl⟩ := h
    have hrun : run Char.isAlphanum (ds ++ ['&'] ++ u) = ds.length := by
      rw [List.append_assoc]
      exact run_append hds (by intro c hc; cases hc; rfl)
    rw [hrun, List.append_assoc, List.drop_left, List.singleton_append, ampersandSuffix_cons,
      if_pos rfl, List.length_append, List.length_singleton]
    omega

/-! ## Strings -/

theorem stringBody_append {body : List Char} (h : StringBody body) (z : List Char) :
    stringBody (body ++ z) = (stringBody z).map (· + body.length) := by
  induction h with
  | nil => simp
  | @char c body hq hn _ ih =>
    rw [List.cons_append, Scan.stringBody_cons_of_ne hn hq, ih, Option.map_map]
    rfl
  | @doubled body _ ih =>
    simp only [List.cons_append, stringBody, ih, Option.map_map, List.length_cons]
    rfl

theorem stringBody_lexeme {rest : List Char} {n : Nat} (h : stringBody rest = some n) :
    ∃ body, StringBody body ∧ rest.take n = body ++ ['"'] ∧ (rest.drop n).head? ≠ some '"' := by
  fun_induction stringBody rest generalizing n with
  | case1 => cases h
  | case2 => cases h
  | case3 more ih =>
    obtain ⟨k, hk, rfl⟩ := Option.map_eq_some_iff.mp h
    obtain ⟨body, hb, htake, hnext⟩ := ih hk
    refine ⟨'"' :: '"' :: body, .doubled hb, ?_, ?_⟩
    · simp [List.take_succ_cons, htake]
    · simpa using hnext
  | case4 tail htail =>
    cases h
    refine ⟨[], .nil, rfl, ?_⟩
    rcases tail with _ | ⟨x, t⟩
    · simp
    · simpa using fun hx => htail t (by rw [hx])
  | case5 c more hnl _ hq ih =>
    obtain ⟨k, hk, rfl⟩ := Option.map_eq_some_iff.mp h
    obtain ⟨body, hb, htake, hnext⟩ := ih hk
    refine ⟨c :: body, .char hq hnl hb, ?_, ?_⟩
    · simp [List.take_succ_cons, htake]
    · simpa using hnext

theorem string_le_stringBody {body rest : List Char} (hb : StringBody body)
    (h : body ++ ['"'] <+: rest) :
    (∃ n, stringBody rest = some n ∧ body.length + 1 ≤ n) ∨
      (stringBody rest = none ∧ (rest.drop (body.length + 1)).head? = some '"') := by
  obtain ⟨u, rfl⟩ := h
  have hdrop : (body ++ ['"'] ++ u).drop (body.length + 1) = u :=
    List.drop_left' (by simp)
  rw [hdrop, List.append_assoc, stringBody_append hb]
  rcases u with _ | ⟨x, u⟩
  · exact .inl ⟨1 + body.length, by simp [stringBody], by omega⟩
  · by_cases hx : x = '"'
    · subst hx
      cases hu : stringBody u with
      | none => exact .inr ⟨by simp [stringBody, hu], by simp⟩
      | some k => exact .inl ⟨k + 2 + body.length, by simp [stringBody, hu], by omega⟩
    · exact .inl ⟨1 + body.length, by simp [stringBody, hx], by omega⟩

/-! ## Dates and bracketed names -/

theorem delimited_lexeme {close : Char} {kind k : TokenKind} {p : ScanProblem} {rest : List Char}
    {n : Nat} (h : delimited close kind p rest = (.token k, n)) :
    k = kind ∧ ∃ body, (∀ c ∈ body, c ≠ close ∧ c ≠ '\n') ∧ rest.take n = body ++ [close] := by
  unfold delimited at h
  dsimp only at h
  generalize hB : run (fun c => c != close && c != '\n') rest = B at h
  have hbody : ∀ c ∈ rest.take B, c ≠ close ∧ c ≠ '\n' := fun c hc => by
    rw [← hB] at hc
    simpa using take_run_all _ rest c hc
  rcases hd : rest.drop B with _ | ⟨c, tail⟩
  · rw [hd] at h
    cases h
  · rw [hd] at h
    dsimp only at h
    split at h
    · rename_i hc
      obtain ⟨hk, rfl⟩ := Prod.mk.inj h
      cases hk
      refine ⟨rfl, rest.take B, hbody, ?_⟩
      rw [List.take_add, hd]
      simp only [beq_iff_eq] at hc
      simp [hc]
    · cases h

/-! ## Words -/

theorem isNameChar_iff (d : Char) : isNameChar d = true ↔ d.isAlphanum = true ∨ d = '_' := by
  simp [isNameChar]

theorem wordKind_spec (w : List Char) :
    (lowerWord w, wordKind w) ∈ keywords ∨
      (wordKind w = .identifier ∧ ∀ k, (lowerWord w, k) ∉ keywords) := by
  unfold wordKind lowerWord
  generalize String.ofList (w.map Char.toLower) = s
  split
  case h_12 => exact .inr ⟨rfl, fun k hk => by simp_all [keywords]⟩
  all_goals exact .inl (by simp [keywords])

theorem wordKind_lexeme {c : Char} {cs : List Char} (hc : c.isAlpha = true)
    (hcs : ∀ d ∈ cs, isNameChar d = true) : Lexeme (c :: cs) (wordKind (c :: cs)) := by
  have hname : ∀ d ∈ cs, d.isAlphanum = true ∨ d = '_' :=
    fun d hd => (isNameChar_iff d).mp (hcs d hd)
  rcases wordKind_spec (c :: cs) with hk | ⟨hk, hnone⟩
  · exact .keyword hc hname hk
  · rw [hk]
    exact .identifier hc hname hnone

theorem step_of_isAlpha {c : Char} (hc : c.isAlpha = true) (rest : List Char) :
    step c rest = (.token (wordKind (c :: rest.take (run isNameChar rest))),
      run isNameChar rest) := by
  obtain ⟨w, r, rfl, hrun, hw, hr⟩ := run_split isNameChar rest
  rw [hrun, List.take_left, step_word hc hw hr]

theorem word_le_run {cs rest : List Char} (hcs : ∀ d ∈ cs, d.isAlphanum = true ∨ d = '_')
    (h : cs <+: rest) :
    cs.length ≤ run isNameChar rest :=
  length_le_run (fun d hd => (isNameChar_iff d).mpr (hcs d hd)) h

end Scan

end ScriptFold
