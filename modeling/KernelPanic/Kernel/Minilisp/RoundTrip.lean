import KernelPanic.Kernel.Minilisp.Names
import KernelPanic.Kernel.Minilisp.Printer

/-!
# KernelPanic.Kernel.Minilisp.RoundTrip

Whether what is printed is read as what it was.

Every atom is one lexeme, for as long as it is printed in full, and a list is read back
element by element (`parses`).  The buffer of `lispPrintf` is shorter than the longest
name that the reader accepts, and a name that begins with a zero byte is printed as
nothing: data with such a symbol is not read back (`print_read_iff`).
-/

namespace KernelPanic.Minilisp

open Machine Prog

/-! ## lexemes of what is printed -/

/-- A name or a number would end here. -/
def Delimited (s : List UInt8) : Prop := ∃ c rest, s = c :: rest ∧ isNameChar c = false

/-- The digits of a number. -/
def digits (n : ℕ) : List UInt8 := (Nat.toDigits 10 n).map char

section lexemes

variable {s rest name : List UInt8} {c : UInt8} {d : Char} {cs : List Char} {n : ℕ}

/-- A digit can be in a name. -/
theorem isDigit_isNameChar (h : isDigit c) : isNameChar c := by
  simp [isNameChar, isAlnum, h]

/-- What is spelt with characters of names ends where the delimiter comes. -/
theorem Delimited.takeWhile {p : UInt8 → Bool} (h : Delimited rest) (hs : ∀ c ∈ s, p c)
    (hp : ∀ c, p c → isNameChar c) :
    (s ++ rest).takeWhile p = s ∧ (s ++ rest).dropWhile p = rest ∧ rest ≠ [] := by
  obtain ⟨c, rest, rfl, hc⟩ := h
  have hnot : ¬ p c := fun hp' => by simp [hp c hp'] at hc
  rw [List.takeWhile_append_of_pos hs, List.dropWhile_append_of_pos hs,
    List.takeWhile_cons_of_neg hnot, List.dropWhile_cons_of_neg hnot, List.append_nil]
  exact ⟨rfl, rfl, List.cons_ne_nil c rest⟩

/-- A readable name is one lexeme. -/
theorem lex_name (hname : Readable name) (hrest : Delimited rest) :
    lex (name ++ rest) = (.symbol name, rest) := by
  cases name with
  | nil => cases hname
  | cons c s =>
      obtain ⟨hstart, hminus, hall, hlength⟩ := hname
      obtain ⟨htake, hdrop, hne⟩ := hrest.takeWhile (s := s) (p := isNameChar)
        (fun d hd => (hall d (List.mem_cons_of_mem _ hd)).1) fun _ => id
      have hstring : cString (c :: s) = c :: s :=
        List.takeWhile_eq_self_iff.mpr fun d hd => by simpa using (hall d hd).2
      have hminus' : ¬ (c = char '-' ∧ (s ++ rest).head?.any isDigit) := by
        cases s with
        | cons d s => exact hminus
        | nil =>
            obtain ⟨d, rest, rfl, hd⟩ := hrest
            refine fun h => ?_
            have hdigit : isDigit d := by simpa using h.2
            simp [isDigit_isNameChar hdigit] at hd
      rw [List.cons_append, lex_nameStart hstart (by simp [hne]) hminus', lexSymbol, htake, hdrop,
        hstring, if_neg (by omega), if_neg hne]

/-- A character is a digit, by its number. -/
theorem digit_cases {P : ℕ → Prop} (h : d.isDigit) (hP : ∀ n < 58, 48 ≤ n → P n) : P d.toNat := by
  simp only [Char.isDigit, Bool.and_eq_true, decide_eq_true_eq] at h
  have hlow : 48 ≤ d.toNat := UInt32.le_iff_toNat_le.mp h.1
  have hhigh : d.toNat ≤ 57 := UInt32.le_iff_toNat_le.mp h.2
  exact hP d.toNat (by omega) hlow

/-- A decimal digit is a digit of the reader. -/
theorem isDigit_char (h : d.isDigit) : isDigit (char d) :=
  digit_cases (P := fun n => isDigit (.ofNat n)) h (by decide)

/-- One digit is read. -/
theorem digit_char {val : ℕ} (h : d.isDigit) :
    digit (BitVec.ofNat 32 val) (char d) = BitVec.ofNat 32 (10 * val + (d.toNat - '0'.toNat)) := by
  have hvalue : ((char d).toBitVec - (char '0').toBitVec).setWidth 32 =
      BitVec.ofNat 32 (d.toNat - '0'.toNat) :=
    digit_cases (P := fun n => ((UInt8.ofNat n).toBitVec - (char '0').toBitVec).setWidth 32 =
      BitVec.ofNat 32 (n - '0'.toNat)) h (by decide)
  rw [digit, hvalue, BitVec.ofNat_add, BitVec.ofNat_mul, BitVec.mul_comm]
  rfl

/-- The digits are read one after the other. -/
theorem foldl_digit {val : ℕ} (h : ∀ d ∈ cs, d.isDigit) :
    (cs.map char).foldl digit (BitVec.ofNat 32 val) = BitVec.ofNat 32 (Nat.ofDigitChars 10 cs val) := by
  induction cs generalizing val with
  | nil => rfl
  | cons d cs ih =>
      rw [List.map_cons, List.foldl_cons, digit_char (h d List.mem_cons_self),
        ih fun d hd => h d (List.mem_cons_of_mem _ hd), Nat.ofDigitChars_cons]

/-- A number is printed with digits. -/
theorem isDigit_of_mem_digits (h : c ∈ digits n) : isDigit c := by
  obtain ⟨d, hd, rfl⟩ := List.mem_map.mp h
  exact isDigit_char (Nat.isDigit_of_mem_toDigits (by decide) (by decide) hd)

/-- The number that is printed is read. -/
theorem foldl_digits : (digits n).foldl digit 0 = BitVec.ofNat 32 n := by
  have hall : ∀ d ∈ Nat.toDigits 10 n, d.isDigit := fun d hd =>
    Nat.isDigit_of_mem_toDigits (by decide) (by decide) hd
  calc (digits n).foldl digit 0
      = BitVec.ofNat 32 (Nat.ofDigitChars 10 (Nat.toDigits 10 n) 0) := foldl_digit hall
    _ = BitVec.ofNat 32 n := by rw [Nat.ofDigitChars_ten_toDigits]

/-- The digits of a number are one lexeme, with the sign before them. -/
theorem lexNumber_digits {sign : BitVec 32 → BitVec 32} (hrest : Delimited rest) :
    lexNumber sign 0 (digits n ++ rest) = (.int (sign (BitVec.ofNat 32 n)), rest) := by
  obtain ⟨htake, hdrop, hne⟩ := hrest.takeWhile (s := digits n) (p := isDigit)
    (fun c hc => isDigit_of_mem_digits hc) fun c hc => isDigit_isNameChar hc
  rw [lexNumber, htake, hdrop, if_neg hne, foldl_digits]

/-- The first digit is read with the others. -/
theorem lexNumber_cons {sign : BitVec 32 → BitVec 32} (hc : isDigit c) :
    lexNumber sign 0 (c :: s) = lexNumber sign (digit 0 c) s := by
  rw [lexNumber, lexNumber, List.takeWhile_cons_of_pos hc, List.dropWhile_cons_of_pos hc,
    List.foldl_cons]

/-- A digit begins a number. -/
theorem lex_digit (hc : isDigit c) : lex (c :: s) = lexNumber id 0 (c :: s) := by
  have hne {d : UInt8} (hd : isDigit d = false) : c ≠ d := by
    rintro rfl
    rw [hc] at hd
    cases hd
  simp only [lex, hne (d := char ' ') (by decide), hne (d := char '\n') (by decide),
    hne (d := char '\r') (by decide), hne (d := char '\t') (by decide), hne (d := eof) (by decide),
    hne (d := char ';') (by decide), hne (d := char '(') (by decide),
    hne (d := char ')') (by decide), hne (d := char '.') (by decide),
    hne (d := char '\'') (by decide), hc, lexNumber_cons hc, or_self, ↓reduceIte]

/-- A minus and a digit begin a negative number. -/
theorem lex_minus (hc : isDigit c) :
    lex (char '-' :: c :: s) = lexNumber Neg.neg 0 (c :: s) := by
  have hminus : char '-' = char '-' ∧ (c :: s).head?.any isDigit := ⟨rfl, hc⟩
  rw [lex, if_neg (by decide), if_neg (by decide), if_neg (by decide), if_neg (by decide),
    if_neg (by decide), if_neg (by decide), if_neg (by decide), if_neg (by decide),
    if_neg (by simp), if_pos hminus]

/-- A number has a first digit. -/
theorem digits_cons : ∃ c s, digits n = c :: s ∧ isDigit c := by
  cases hdigits : digits n with
  | nil => exact absurd (List.map_eq_nil_iff.mp hdigits) Nat.toDigits_ne_nil
  | cons c s => exact ⟨c, s, rfl, isDigit_of_mem_digits (hdigits ▸ List.mem_cons_self)⟩

/-- A number that is not negative is printed by its digits. -/
theorem decimal_of_nonneg {k : BitVec 32} (h : k.toInt = (n : ℤ)) : decimal k = digits n := by
  rw [decimal, h]
  exact congrArg (List.map char) Nat.toList_repr

/-- A negative number is printed with a minus. -/
theorem decimal_of_neg {k : BitVec 32} (h : k.toInt = Int.negSucc n) :
    decimal k = char '-' :: digits (n + 1) := by
  have hstring : toString k.toInt = "-" ++ (n + 1).repr := by rw [h]; rfl
  rw [decimal, hstring, chars, String.toList_append, Nat.toList_repr]
  rfl

/-- A number is one lexeme, and stands for itself. -/
theorem lex_decimal {k : BitVec 32} (hrest : Delimited rest) :
    lex (decimal k ++ rest) = (.int k, rest) := by
  have hvalue := BitVec.ofInt_toInt (x := k)
  cases hk : k.toInt with
  | ofNat n =>
      obtain ⟨c, s, hdigits, hc⟩ := digits_cons (n := n)
      rw [hk, Int.ofNat_eq_natCast, BitVec.ofInt_natCast] at hvalue
      rw [decimal_of_nonneg hk, hdigits, List.cons_append, lex_digit hc, ← List.cons_append,
        ← hdigits, lexNumber_digits hrest, hvalue]
      rfl
  | negSucc n =>
      obtain ⟨c, s, hdigits, hc⟩ := digits_cons (n := n + 1)
      rw [hk, Int.negSucc_eq, BitVec.ofInt_neg] at hvalue
      rw [decimal_of_neg hk, hdigits, List.cons_append, List.cons_append, lex_minus hc,
        ← List.cons_append, ← hdigits, lexNumber_digits hrest, ← hvalue]
      rfl

/-- No number takes more than 11 characters. -/
theorem decimal_length {k : BitVec 32} : (decimal k).length ≤ 11 := by
  have hlength {n : ℕ} (hn : n < 10 ^ 10) : (digits n).length ≤ 10 := by
    rw [digits, List.length_map]
    exact (Nat.length_toDigits_le_iff (by decide) (by decide)).mpr hn
  have hlow := k.le_toInt
  have hhigh := k.toInt_lt
  cases hk : k.toInt with
  | ofNat n =>
      rw [hk, Int.ofNat_eq_natCast] at hhigh
      rw [decimal_of_nonneg hk]
      have hdigits := hlength (n := n) (by omega)
      omega
  | negSucc n =>
      rw [decimal_of_neg hk, List.length_cons]
      have hdigits := hlength (n := n + 1) (by omega)
      omega

end lexemes

/-! ## what is printed is read -/

/-- Names that are printed in full. -/
def Printable (name : List UInt8) : Prop := Readable name ∧ name.length ≤ 99

section reads

variable {w : World} {s rest : List UInt8} {x y z : Sexp} {n m : ℕ} {hs : List Sexp}

/-- A character that is in no name delimits. -/
theorem delimited_cons {c : UInt8} (hc : isNameChar c = false) : Delimited (c :: s) :=
  ⟨c, s, rfl, hc⟩

/-- After an element of a list. -/
theorem delimited_renderTail : Delimited (y.renderTail ++ char ')' :: rest) := by
  cases y <;> exact delimited_cons (by decide)

/-- The first lexeme, when there are turns for all the text. -/
theorem eval_lexeme {lexeme : Lexeme} (hlex : lex s = (lexeme, rest)) (hn : s.length < n) :
    eval (parseExpr n) (w.feed s) = lexed (n - 1) (w.feed rest) lexeme := by
  cases n with
  | zero => cases hn
  | succ n => rw [eval_parseExpr (Nat.le_of_lt_succ hn), hlex, Nat.add_sub_cancel]

/-- A blank is skipped. -/
theorem eval_blank (hn : (char ' ' :: s).length < n) :
    eval (parseExpr n) (w.feed (char ' ' :: s)) = eval (parseExpr (n - 1)) (w.feed s) :=
  (eval_lexeme rfl hn :)

/-- A closing parenthesis is read. -/
theorem eval_closing (hn : (char ')' :: s).length < n) :
    eval (parseExpr n) (w.feed (char ')' :: s)) = (.ok .cparen, w.feed s) :=
  eval_lexeme rfl hn

/-- A dot is read. -/
theorem eval_dot (hn : (char '.' :: s).length < n) :
    eval (parseExpr n) (w.feed (char '.' :: s)) = (.ok .dot, w.feed s) :=
  eval_lexeme rfl hn

/-- An opening parenthesis begins a list. -/
theorem eval_opening (hn : (char '(' :: s).length < n) :
    eval (parseExpr n) (w.feed (char '(' :: s)) =
      eval (parseListLoop (parseExpr (n - 1)) (n - 1) []) (w.feed s) :=
  eval_lexeme rfl hn

/-- An element of a list, or what ends it, has been read. -/
theorem eval_parseListLoop {expr : Code Sexp} {w' : World} (hm : 0 < m)
    (hx : eval expr w = (.ok x, w')) : eval (parseListLoop expr m hs) w =
      eval (parseListNext expr hs (fun x => parseListLoop expr (m - 1) (x :: hs)) x) w' := by
  cases m with
  | zero => cases hm
  | succ m => rw [parseListLoop, eval_bind_ok hx, Nat.add_sub_cancel]

/-- The expression is read from what is printed for it. -/
def Parses (x : Sexp) : Prop :=
  ∀ (n : ℕ) (w : World) rest, Delimited rest → (x.render ++ rest).length < n →
    eval (parseExpr n) (w.feed (x.render ++ rest)) = (.ok x, w.feed rest)

/-- The rest of a list is, after the elements in `hs`. -/
def ParsesTail (y : Sexp) : Prop :=
  ∀ (n m : ℕ) hs (w : World) rest, hs ≠ [] → (y.renderTail ++ char ')' :: rest).length < n →
    (y.renderTail ++ char ')' :: rest).length ≤ m →
    eval (parseListLoop (parseExpr n) m hs) (w.feed (y.renderTail ++ char ')' :: rest)) =
      (.ok (.list hs.reverse y), w.feed rest)

/-- A number that is printed is read. -/
theorem parses_int {k : BitVec 32} : Parses (.int k) := by
  intro n w rest hrest hn
  have hprinted : (Sexp.int k).render = decimal k :=
    List.take_of_length_le (decimal_length.trans (by decide))
  rw [hprinted] at hn ⊢
  exact eval_lexeme (lex_decimal hrest) hn

/-- A symbol that is printed is read, if its name can be. -/
theorem parses_symbol {name : List UInt8} (hname : Printable name) : Parses (.symbol name) := by
  intro n w rest hrest hn
  have hprinted : (Sexp.symbol name).render = name := List.take_of_length_le hname.2
  rw [hprinted] at hn ⊢
  exact eval_lexeme (lex_name hname.1 hrest) hn

/-- The empty list that is printed is read. -/
theorem parses_nil : Parses .nil := by
  intro n w rest _ hn
  have hprinted : Sexp.nil.render ++ rest = char '(' :: char ')' :: rest := rfl
  rw [hprinted] at hn ⊢
  have hclosing : (char ')' :: rest).length < n - 1 := by
    simp only [List.length_cons] at hn ⊢
    omega
  rw [eval_opening hn, eval_parseListLoop (Nat.zero_lt_of_lt hclosing) (eval_closing hclosing)]
  rfl

/-- An element of a list is not a marker. -/
theorem parseListNext_proper {expr : Code Sexp} {loop : Sexp → Code Sexp} (hx : x.proper) :
    parseListNext expr hs loop x = loop x := by
  cases x <;> first | rfl | cases hx

/-- An expression is read behind a blank. -/
theorem Parses.blank (hparses : Parses x) (hrest : Delimited rest)
    (hn : (char ' ' :: (x.render ++ rest)).length < n) :
    eval (parseExpr n) (w.feed (char ' ' :: (x.render ++ rest))) = (.ok x, w.feed rest) := by
  rw [eval_blank hn]
  refine hparses (n - 1) w rest hrest ?_
  rw [List.length_cons] at hn
  omega

/-- A list ends. -/
theorem parsesTail_nil : ParsesTail .nil := by
  intro n m hs w rest _ hn hm
  have hpos : 0 < m := (Nat.succ_pos _).trans_le hm
  exact (eval_parseListLoop hpos (eval_closing hn)).trans rfl

/-- A list goes on. -/
theorem parsesTail_cell (hx : x.proper) (hparses : Parses x) (htail : ParsesTail y) :
    ParsesTail (.cell x y) := by
  intro n m hs w rest _ hn hm
  have hprinted : (Sexp.cell x y).renderTail ++ char ')' :: rest =
      char ' ' :: (x.render ++ (y.renderTail ++ char ')' :: rest)) := by
    rw [Sexp.renderTail, List.append_assoc, List.append_assoc]
    rfl
  rw [hprinted] at hn hm ⊢
  have hpos : 0 < m := (Nat.succ_pos _).trans_le hm
  rw [eval_parseListLoop hpos (hparses.blank delimited_renderTail hn),
    parseListNext_proper hx]
  rw [List.length_cons, List.length_append] at hn hm
  rw [htail n (m - 1) (x :: hs) w rest (List.cons_ne_nil x hs) (by omega) (by omega),
    List.reverse_cons, Sexp.list_append]
  rfl

/-- The end of a dotted list. -/
theorem parsesTail_atom (hprinted : x.renderTail = chars " . " ++ x.render) (hparses : Parses x) :
    ParsesTail x := by
  intro n m hs w rest hne hn hm
  have hdotted : x.renderTail ++ char ')' :: rest =
      char ' ' :: char '.' :: char ' ' :: (x.render ++ char ')' :: rest) := by
    rw [hprinted, List.append_assoc]
    rfl
  rw [hdotted] at hn hm ⊢
  have hpos : 0 < m := (Nat.succ_pos _).trans_le hm
  simp only [List.length_cons, List.length_append] at hn
  have hdot {s : List UInt8} (hs : s.length + 2 < n) :
      eval (parseExpr n) (w.feed (char ' ' :: char '.' :: s)) = (.ok .dot, w.feed s) := by
    rw [eval_blank (by simp only [List.length_cons]; omega)]
    exact eval_dot (by simp only [List.length_cons]; omega)
  have hlast : eval (parseExpr n) (w.feed (char ' ' :: (x.render ++ char ')' :: rest))) =
      (.ok x, w.feed (char ')' :: rest)) :=
    hparses.blank (delimited_cons (by decide))
      (by simp only [List.length_cons, List.length_append]; omega)
  have hclosing : eval (parseExpr n) (w.feed (char ')' :: rest)) = (.ok .cparen, w.feed rest) :=
    eval_closing (by simp only [List.length_cons]; omega)
  rw [eval_parseListLoop hpos
    (hdot (by simp only [List.length_cons, List.length_append]; omega)), parseListNext,
    eval_bind_ok hlast, eval_bind_ok hclosing, parseListEnd, if_pos rfl, if_neg hne]
  rfl

/-- A list, or a pair, that is printed is read. -/
theorem parses_cell (hx : x.proper) (hparses : Parses x) (htail : ParsesTail y) :
    Parses (.cell x y) := by
  intro n w rest _ hn
  have hprinted : (Sexp.cell x y).render ++ rest =
      char '(' :: (x.render ++ (y.renderTail ++ char ')' :: rest)) := by
    rw [Sexp.render, List.append_assoc, List.append_assoc, List.append_assoc]
    rfl
  rw [hprinted] at hn ⊢
  rw [eval_opening hn]
  rw [List.length_cons, List.length_append] at hn
  have hfirst := hparses (n - 1) w (y.renderTail ++ char ')' :: rest) delimited_renderTail
    (by rw [List.length_append]; omega)
  rw [eval_parseListLoop (by omega) hfirst, parseListNext_proper hx]
  exact htail (n - 1) (n - 1 - 1) [x] w rest (List.cons_ne_nil x []) (by omega) (by omega)

/-- **What is printed is read** as what it was. -/
theorem parses (hproper : x.proper) (hnames : x.Names Printable) : Parses x := by
  suffices h : Parses x ∧ ParsesTail x from h.1
  induction x with
  | int k => exact ⟨parses_int, parsesTail_atom rfl parses_int⟩
  | symbol name => exact ⟨parses_symbol hnames, parsesTail_atom rfl (parses_symbol hnames)⟩
  | nil => exact ⟨parses_nil, parsesTail_nil⟩
  | cell x y ihx ihy =>
      obtain ⟨hx, hy⟩ : x.proper ∧ y.proper := by simpa [Sexp.proper] using hproper
      have hparses := (ihx hx hnames.1).1
      have htail := (ihy hy hnames.2).2
      exact ⟨parses_cell hx hparses htail, parsesTail_cell hx hparses htail⟩
  | dot => cases hproper
  | cparen => cases hproper
  | null => cases hproper

end reads

/-! ## names in what is printed -/

/-- A name that neither is empty nor fills the buffer of `lispPrintf`. -/
def Short (name : List UInt8) : Prop := 1 ≤ name.length ∧ name.length ≤ 99

/-- No name in the text begins with a zero byte or would fill the buffer. -/
def Plain (s : List UInt8) : Prop :=
  ∀ t, t <:+ s → (t.takeWhile isNameChar).length ≤ 99 ∧ t.head? ≠ some 0

section plain

variable {s rest a : List UInt8} {c : UInt8} {x : Sexp} {w : World} {n : ℕ}

theorem Plain.spells (h : Plain s) : Spells Short s := by
  intro t ht name hname
  obtain ⟨hlength, hzero⟩ := h t ht
  obtain ⟨c, rest, rfl, hstart, -, -, rfl⟩ := lex_symbol hname
  have hc : c ≠ 0 := fun h => hzero (congrArg some h)
  refine ⟨?_, (List.takeWhile_prefix _).length_le.trans hlength⟩
  rw [List.takeWhile_cons_of_pos (isNameStart_isNameChar hstart), cString,
    List.takeWhile_cons_of_pos (by simpa using hc), List.length_cons]
  exact Nat.succ_pos _

theorem plain_nil : Plain [] := by
  intro t ht
  rw [List.suffix_nil.mp ht]
  exact ⟨Nat.zero_le _, by simp⟩

/-- A character that is in no name is spelt as it is. -/
theorem plain_cons (hc : isNameChar c = false) (h : Plain s) : Plain (c :: s) := by
  intro t ht
  rcases List.suffix_cons_iff.mp ht with rfl | ht
  · rw [List.takeWhile_cons_of_neg (by simp [hc])]
    refine ⟨Nat.zero_le _, fun heq => ?_⟩
    obtain rfl : c = 0 := Option.some.inj heq
    cases hc
  · exact h t ht

/-- A word short enough is spelt as it is. -/
theorem plain_append (ha : ∀ d ∈ a, isNameChar d ∧ d ≠ 0) (hlength : a.length ≤ 99)
    (hrest : Delimited rest) (h : Plain rest) : Plain (a ++ rest) := by
  induction a with
  | nil => exact h
  | cons d a ih =>
      have hplain := ih (fun d hd => ha d (List.mem_cons_of_mem _ hd))
        ((Nat.le_succ _).trans hlength)
      rw [List.cons_append]
      intro t ht
      rcases List.suffix_cons_iff.mp ht with rfl | ht
      · have htake := (hrest.takeWhile (s := d :: a) (fun d hd => (ha d hd).1) fun _ => id).1
        rw [List.cons_append] at htake
        rw [htake]
        refine ⟨hlength, fun heq => ?_⟩
        exact (ha d List.mem_cons_self).2 (Option.some.inj heq)
      · exact hplain t ht

/-- The characters of a number can be in a name. -/
theorem decimal_chars {k : BitVec 32} : ∀ c ∈ decimal k, isNameChar c ∧ c ≠ 0 := by
  have hdigits {n : ℕ} : ∀ c ∈ digits n, isNameChar c ∧ c ≠ 0 := by
    intro c hc
    have hdigit := isDigit_of_mem_digits hc
    refine ⟨isDigit_isNameChar hdigit, ?_⟩
    rintro rfl
    cases hdigit
  cases hk : k.toInt with
  | ofNat n =>
      rw [decimal_of_nonneg hk]
      exact hdigits
  | negSucc n =>
      rw [decimal_of_neg hk]
      exact List.forall_mem_cons.mpr ⟨by decide, hdigits⟩

/-- What is printed is spelt as it is when its names are readable. -/
theorem plain_render (hnames : x.Names fun name => name = [] ∨ Readable name) :
    (∀ rest, Delimited rest → Plain rest → Plain (x.render ++ rest)) ∧
      ∀ rest, Plain rest → Plain (x.renderTail ++ char ')' :: rest) := by
  have hatom {a : List UInt8} (ha : ∀ d ∈ a, isNameChar d ∧ d ≠ 0) :
      (∀ rest, Delimited rest → Plain rest → Plain (a.take 99 ++ rest)) ∧
        ∀ rest, Plain rest → Plain (chars " . " ++ a.take 99 ++ char ')' :: rest) := by
    have htake : ∀ rest, Delimited rest → Plain rest → Plain (a.take 99 ++ rest) := by
      intro rest hrest h
      exact plain_append (fun d hd => ha d (List.mem_of_mem_take hd)) (List.length_take_le ..)
        hrest h
    refine ⟨htake, fun rest h => ?_⟩
    have hclosed := htake _ (delimited_cons (by decide)) (plain_cons (c := char ')') (by decide) h)
    exact plain_cons (by decide) (plain_cons (by decide) (plain_cons (by decide) hclosed))
  induction x with
  | int k => exact hatom decimal_chars
  | symbol name =>
      refine hatom fun d hd => ?_
      cases name with
      | nil => cases hd
      | cons c s =>
          obtain ⟨-, -, hall, -⟩ := hnames.resolve_left (List.cons_ne_nil c s)
          exact hall d hd
  | nil =>
      refine ⟨fun rest _ h => ?_, fun rest h => plain_cons (by decide) h⟩
      exact plain_cons (by decide) (plain_cons (by decide) h)
  | cell x y ihx ihy =>
      have hcell : ∀ rest, Plain rest → Plain (x.render ++ (y.renderTail ++ char ')' :: rest)) :=
        fun rest h => (ihx hnames.1).1 _ delimited_renderTail ((ihy hnames.2).2 rest h)
      refine ⟨fun rest _ h => ?_, fun rest h => ?_⟩
      · rw [Sexp.render, List.append_assoc, List.append_assoc, List.append_assoc]
        exact plain_cons (by decide) (hcell rest h)
      · rw [Sexp.renderTail, List.append_assoc, List.append_assoc]
        exact plain_cons (by decide) (hcell rest h)
  | dot => exact hatom (a := []) (by simp)
  | cparen => exact hatom (a := []) (by simp)
  | null => exact hatom (a := []) (by simp)

/-- **The text of an expression is read as the expression** exactly if its names are
short. -/
theorem eval_render_iff (hproper : x.proper) (hnames : x.Names Producible)
    (hn : (x.render ++ chars "\n").length < n) :
    (eval (parseExpr n) (w.feed (x.render ++ chars "\n"))).1 = .ok x ∧
        (eval (parseExpr n) (w.feed (x.render ++ chars "\n"))).2.input = chars "\n" ↔
      x.Names Short := by
  have hreadable := hnames.mono fun _ => Producible.readable
  have hnewline : Delimited (chars "\n") := delimited_cons (by decide)
  constructor
  · rintro ⟨hok, -⟩
    have hplain := (plain_render hreadable).1 _ hnewline (plain_cons (by decide) plain_nil)
    exact parseExpr_names ⟨by decide, by decide⟩ hplain.spells hn x hok
  · intro hshort
    have hprintable : x.Names Printable := (hreadable.and hshort).mono fun name h => by
      refine ⟨h.1.resolve_left fun hnil => ?_, h.2.2⟩
      rw [hnil] at h
      cases h.2.1
    rw [parses hproper hprintable n w _ hnewline hn]
    exact ⟨rfl, rfl⟩

end plain

/-! ## data on the heap -/

section data

variable {c : Statics} {tbl : List Entry} {h : Ideal} {lo hi a : ℕ} {x y : Sexp}
  {objs : List ℕ} {D : Set ℕ} {ρ : ℕ → ℕ} {i : Machine Ideal} {m : Machine State}

/-- There is nothing at NULL. -/
theorem SymbolTable.ne_null {payload : Payload} (htbl : SymbolTable c tbl h)
    (hread : h.read a = some payload) : a ≠ Minilisp.null := by
  rintro rfl
  rw [htbl.null] at hread
  cases hread

/-- The data that have been built show what they stand for. -/
theorem Rep.shows (hrep : Rep c tbl h.read lo hi a x) (htbl : SymbolTable c tbl h) :
    Shows c h.read a x := by
  induction x generalizing a with
  | int n => exact ⟨htbl.ne_null hrep.1, hrep.1⟩
  | symbol name =>
      obtain ⟨e, he, rfl, rfl⟩ := hrep
      have hread := (htbl.listed.entry he).1
      exact ⟨htbl.ne_null hread, hread⟩
  | cell x y ihx ihy =>
      obtain ⟨-, -, p, q, hread, hx, hy⟩ := hrep
      exact ⟨htbl.ne_null hread, p, q, hread, ihx hx, ihy hy⟩
  | _ => exact hrep

/-- The type of what shows the expression. -/
theorem Shows.map_type (hx : Shows c h.read a x) (htbl : SymbolTable c tbl h) :
    (h.read a).map Payload.type = x.type := by
  cases x with
  | dot =>
      obtain rfl : a = c.constDot := hx
      rw [htbl.read_dot]
      rfl
  | cparen =>
      obtain rfl : a = c.constCparen := hx
      rw [htbl.read_cparen]
      rfl
  | null =>
      obtain rfl : a = null := hx
      rw [htbl.null]
      rfl
  | _ => exact hx.type htbl.read_nil rfl

/-- Data shows one expression. -/
theorem Shows.unique (hx : Shows c h.read a x) (hy : Shows c h.read a y)
    (htbl : SymbolTable c tbl h) : x = y := by
  induction x generalizing a y with
  | int n =>
      have htype := (hx.map_type htbl).symm.trans (hy.map_type htbl)
      cases y with
      | int k =>
          have hread := hx.2.symm.trans hy.2
          cases hread
          rfl
      | _ => simp [Sexp.type, Payload.type, tInt, tSymbol, tNil, tCell] at htype
  | symbol name =>
      have htype := (hx.map_type htbl).symm.trans (hy.map_type htbl)
      cases y with
      | symbol name' =>
          have hread := hx.2.symm.trans hy.2
          cases hread
          rfl
      | _ => simp [Sexp.type, Payload.type, tInt, tSymbol, tNil, tCell] at htype
  | cell x₁ x₂ ih₁ ih₂ =>
      have htype := (hx.map_type htbl).symm.trans (hy.map_type htbl)
      cases y with
      | cell y₁ y₂ =>
          obtain ⟨-, p, q, hread, hx₁, hx₂⟩ := hx
          obtain ⟨-, p', q', hread', hy₁, hy₂⟩ := hy
          rw [hread] at hread'
          cases hread'
          rw [ih₁ hx₁ hy₁, ih₂ hx₂ hy₂]
      | _ => simp [Sexp.type, Payload.type, tInt, tSymbol, tNil, tCell] at htype
  | _ =>
      have htype := (hx.map_type htbl).symm.trans (hy.map_type htbl)
      cases y <;> first
        | rfl
        | simp [Sexp.type, Payload.type, tInt, tSymbol, tNil, tCell] at htype

/-- An object without pointers is the same on both heaps. -/
theorem Sim.read_leaf {payload : Payload} (hsim : Sim c objs D ρ i m) (ha : Known c D a)
    (hleaf : payload.pointers = []) :
    ρ a ≠ Minilisp.null ∧ (concrete c).read m.heap (ρ a) = some payload ↔
      a ≠ Minilisp.null ∧ i.heap.read a = some payload := by
  rw [ne_eq, hsim.eq_null ha]
  refine and_congr_right fun hnull => ?_
  obtain ⟨payload', hread⟩ := hsim.read_some ha hnull
  rw [(hsim.read ha hread).1, hread, Option.some.injEq, Option.some.injEq]
  constructor
  · rintro rfl
    cases payload' <;> first | rfl | cases hleaf
  · rintro rfl
    cases payload' <;> first | rfl | cases hleaf

/-- Data that has been moved still shows the same. -/
theorem Sim.shows (hsim : Sim c objs D ρ i m) (ha : Known c D a) :
    Shows c ((concrete c).read m.heap) (ρ a) x ↔ Shows c i.heap.read a x := by
  have hfixed {b : ℕ} (hb : b ∈ c.addresses) : ρ a = b ↔ a = b := by
    have hinj := hsim.inj ha (.inr (.inr hb))
    rwa [hsim.fixed b (.inr hb)] at hinj
  induction x generalizing a with
  | int n => exact hsim.read_leaf ha rfl
  | symbol name => exact hsim.read_leaf ha rfl
  | cell x y ihx ihy =>
      have hnext {p : ℕ} (hp : Known c D p) : ∀ {b : ℕ}, b ∈ c.addresses → (ρ p = b ↔ p = b) := by
        intro b hb
        have hinj := hsim.inj hp (.inr (.inr hb))
        rwa [hsim.fixed b (.inr hb)] at hinj
      rw [Shows, Shows, ne_eq, ne_eq, hsim.eq_null ha]
      refine and_congr_right fun hnull => ?_
      obtain ⟨payload, hread⟩ := hsim.read_some ha hnull
      obtain ⟨hmem, hpointers, -⟩ := hsim.read ha hread
      rw [hmem, hread]
      constructor
      · rintro ⟨p', q', heq, hx, hy⟩
        cases payload with
        | cell p q =>
            cases heq
            have hp := hpointers p (by simp [Payload.pointers])
            have hq := hpointers q (by simp [Payload.pointers])
            exact ⟨p, q, rfl, (ihx hp (hnext hp)).mp hx, (ihy hq (hnext hq)).mp hy⟩
        | _ => cases heq
      · rintro ⟨p, q, heq, hx, hy⟩
        cases heq
        have hp := hpointers p (by simp [Payload.pointers])
        have hq := hpointers q (by simp [Payload.pointers])
        exact ⟨ρ p, ρ q, rfl, (ihx hp (hnext hp)).mpr hx, (ihy hq (hnext hq)).mpr hy⟩
  | nil => exact hfixed (by simp)
  | dot => exact hfixed (by simp)
  | cparen => exact hfixed (by simp)
  | null => exact hsim.eq_null ha

end data

/-! ## `print` and `read_expr` -/

/-- A call of `print`. -/
def printing (c : Statics) (m : Machine State) (k : ℕ) (p : Ptr) : Except Fault Unit × Machine State :=
  (print k p).run (handle (concrete c) c) m

/-- The call has returned data that shows the expression. -/
def ReadAs (c : Statics) (x : Sexp) (r : Except Fault Ptr × Machine State) : Prop :=
  ∃ q a, r.1 = .ok q ∧ r.2.address (concrete c) c q = .ok a ∧
    Shows c ((concrete c).read r.2.heap) a x

/-- It has, and only the newline is left. -/
def RoundTrips (c : Statics) (x : Sexp) (r : Except Fault Ptr × Machine State) : Prop :=
  ReadAs c x r ∧ r.2.world.input = chars "\n"

section roundTrip

variable {c : Statics} {s : State} {root : Frames} {objs : List ℕ} {tbl : List Entry} {w : World}
  {limit n k a : ℕ} {gc : Bool} {x : Sexp} {m : Machine State} {p : Ptr}

/-- What has been read is what the parser says. -/
theorem Reads.readAs_iff {heap : Ideal} {frames : Frames} {budget : ℕ}
    {out : Except Fault Sexp × World} {res : Except Fault Ptr} {i : Machine Ideal}
    (hreads : Reads c tbl heap frames budget out res i) (h : Related c i m) :
    ReadAs c x (res, m) ↔ out.1 = .ok x := by
  obtain ⟨objs, D, ρ, hsim⟩ := h
  rcases out with ⟨e | y, w'⟩
  · obtain ⟨rfl, -⟩ := hreads
    constructor
    · rintro ⟨q, a, hq, -⟩
      cases hq
    · intro hout
      cases hout
  obtain ⟨q, heap', t', a, rfl, rfl, hq, tbl', hgrows, -, hrep⟩ := hreads
  obtain ⟨hknown, haddr⟩ := hsim.address hq
  have hshows := hrep.shows hgrows.table
  constructor
  · rintro ⟨q', b, hq', hb, hx⟩
    cases hq'
    obtain rfl : ρ a = b := by
      rw [haddr, Except.ok.injEq] at hb
      exact hb
    rw [hshows.unique ((hsim.shows hknown).mp hx) hgrows.table]
  · intro hout
    cases hout
    exact ⟨q, ρ a, rfl, haddr, (hsim.shows hknown).mpr hshows⟩

/-- What has been read is what the parser says, unless memory has run out. -/
theorem reading_readAs (hwf : WellFormed c s root objs) (hstatic : null ∉ c.addresses)
    (htbl : Interned c s tbl) (hn : w.input.length < n)
    (hlimit : tbl.length + w.input.length < limit)
    (hmemory : (reading c s root w limit n gc).1 ≠ .error (.error "Memory exhausted")) :
    (ReadAs c x (reading c s root w limit n gc) ↔ (eval (parseExpr n) w).1 = .ok x) ∧
      (reading c s root w limit n gc).2.world = (eval (parseExpr n) w).2 ∧
      ∃ objs', WellFormed c (reading c s root w limit n gc).2.heap
        (reading c s root w limit n gc).2.frames objs' := by
  obtain ⟨hreads, hrun⟩ := readExpr_run (i := ⟨s.still c objs, root, ⟨[], []⟩, w⟩)
    ⟨objs, _, _, (hwf.setAlwaysGc gc).sim (w := w) hstatic⟩ (hwf.symbolTable hstatic htbl) hn hlimit
  obtain ⟨heq, hrel⟩ := hrun.resolve_left fun h => hmemory h.1
  have hread := hreads.readAs_iff (x := x) hrel
  rw [← heq] at hread
  refine ⟨hread, ?_, ?_⟩
  · obtain ⟨objs', D, ρ, hsim⟩ := hrel
    exact hsim.world.trans hreads.world
  · obtain ⟨objs', D, ρ, hsim⟩ := hrel
    exact ⟨objs', hsim.wellFormed⟩

/-- On a well-formed heap the call writes the text of the expression and does nothing else. -/
theorem printing_spec (hwf : WellFormed c m.heap m.frames objs)
    (hp : m.address (concrete c) c p = .ok a) (hshows : Shows c ((concrete c).read m.heap) a x)
    (hproper : x.proper) (hk : x.size ≤ k) :
    (printing c m k p).1 = .ok () ∧ ∃ t', (printing c m k p).2 =
      ⟨m.heap, m.frames, t', { m.world with output := m.world.output ++ x.render }⟩ := by
  have hnil : (concrete c).read m.heap c.constNil = some .constNil := by
    have hconst := (hwf.statics c.constNil ⟨0, .constNil⟩ (by simp [Statics.objects])).1
    exact congrArg (Option.map Obj.payload) hconst
  have hprint : wp (handle (concrete c) c) (print k p)
      (Writes (concrete c) c m.heap m.frames m.table m.world x.render) m :=
    print_spec hnil hp hshows hproper hk
  obtain ⟨hok, t', -, hm'⟩ := hprint
  exact ⟨hok, t', hm'⟩

/-- **Printing and reading are inverse** exactly on the data whose symbols all have names
of 1 to 99 characters. -/
theorem print_read_iff (hwf : WellFormed c m.heap m.frames objs) (hstatic : null ∉ c.addresses)
    (hp : m.address (concrete c) c p = .ok a) (hshows : Shows c ((concrete c).read m.heap) a x)
    (hproper : x.proper) (hnames : x.Names Producible) (hk : x.size ≤ k) :
    ∃ printed, (printing c m k p).1 = .ok () ∧ (printing c m k p).2.heap = m.heap ∧
      (printing c m k p).2.frames = m.frames ∧
      (printing c m k p).2.world = { m.world with output := m.world.output ++ printed } ∧
      ∀ s root objs tbl w limit n gc, WellFormed c s root objs → Interned c s tbl →
        w.input = printed ++ chars "\n" → w.input.length < n →
        tbl.length + w.input.length < limit →
        (reading c s root w limit n gc).1 ≠ .error (.error "Memory exhausted") →
        (RoundTrips c x (reading c s root w limit n gc) ↔ x.Names Short) := by
  obtain ⟨hok, t', hprinted⟩ := printing_spec hwf hp hshows hproper hk
  refine ⟨x.render, hok, ?_⟩
  rw [hprinted]
  refine ⟨rfl, rfl, rfl, ?_⟩
  intro s root objs tbl w limit n gc hwf htbl hinput hn hlimit hmemory
  obtain ⟨hreadAs, hworld, -⟩ := reading_readAs (x := x) hwf hstatic htbl hn hlimit hmemory
  have hfeed : w = w.feed (x.render ++ chars "\n") := by
    rw [← hinput]
    rfl
  rw [RoundTrips, hreadAs, hworld, hfeed]
  exact eval_render_iff hproper hnames (hinput ▸ hn)

/-- A heap with room for long names. -/
def promptStart : State :=
  { sampleHeap with
    mem := fun a => sampleStatics.objects.lookup a
    block := { lispInit sampleHeap.block 1024 4096 2048 false false with symbols := 16 } }

/-- A line that is typed there, and what is read from it. -/
def typed (line : List UInt8) : Except Fault Ptr × Machine State :=
  reading sampleStatics promptStart [] ⟨line ++ chars "\n", [], [], 0, []⟩ 200 200 false

/-- A symbol that the reader accepts and the buffer of `lispPrintf` cuts off. -/
def longName : List UInt8 := List.replicate 100 (char 'a')

theorem longName_lost :
    Producible longName ∧ ReadAs sampleStatics (.symbol longName) (typed longName) ∧
      (typed longName).1 = .ok (.var 3) ∧
      (printing sampleStatics (typed longName).2 9 (.var 3)).1 = .ok () ∧
      (printing sampleStatics (typed longName).2 9 (.var 3)).2.world.output = longName.take 99 ∧
      ¬ RoundTrips sampleStatics (.symbol longName) (typed (longName.take 99)) := by
  have hproducible : Producible longName :=
    ⟨200, ⟨longName ++ chars "\n", [], [], 0, []⟩, by decide +kernel, by decide +kernel⟩
  have htyped : (typed longName).1 = .ok (.var 3) := by decide +kernel
  refine ⟨hproducible, ⟨.var 3, 1024, htyped, by decide +kernel, by decide, by decide +kernel⟩,
    htyped, by decide +kernel, by decide +kernel, ?_⟩
  rintro ⟨⟨q, a, hq, ha, -, hread⟩, -⟩
  have htyped' : (typed (longName.take 99)).1 = .ok (.var 3) := by decide +kernel
  obtain rfl : q = .var 3 := Except.ok.inj (hq.symm.trans htyped')
  have haddr : (typed (longName.take 99)).2.address (concrete sampleStatics) sampleStatics (.var 3) =
      .ok 1024 := by decide +kernel
  obtain rfl : a = 1024 := Except.ok.inj (ha.symm.trans haddr)
  have hshort : (concrete sampleStatics).read (typed (longName.take 99)).2.heap 1024 =
      some (.symbol (longName.take 99)) := by decide +kernel
  rw [hshort] at hread
  revert hread
  decide +kernel

theorem promptStart_start : Client.Start sampleStatics promptStart [] where
  init := ⟨{ sampleHeap.block with symbols := 16 }, 1024, 4096, 2048, false, false, rfl⟩
  idle := rfl
  symbols := by decide
  roots := by simp
  apart := by decide
  notNull := by decide
  statics := by
    intro x o ho
    simp only [Statics.objects, List.mem_cons, Prod.mk.injEq, List.not_mem_nil, or_false] at ho
    rcases ho with ⟨rfl, rfl⟩ | ⟨rfl, rfl⟩ | ⟨rfl, rfl⟩ | ⟨rfl, rfl⟩ <;>
      exact ⟨rfl, .inl (by decide), .inl (by decide)⟩

/-- A dotted pair of a symbol and a negative number. -/
def samplePair : Sexp := .cell (.symbol (chars "a")) (.int (-5))

theorem print_read_iff_sample : (typed (chars "(a . -5)")).1 = .ok (.var 12) ∧
    (printing sampleStatics (typed (chars "(a . -5)")).2 9 (.var 12)).1 = .ok () ∧
    (printing sampleStatics (typed (chars "(a . -5)")).2 9 (.var 12)).2.world.output =
      chars "(a . -5)" ∧
    RoundTrips sampleStatics samplePair (typed (chars "(a . -5)")) := by
  obtain ⟨objs, halign⟩ := promptStart_start.inv
  have hwf : WellFormed sampleStatics promptStart [] objs := halign.toWellFormed
  have htbl : Interned sampleStatics promptStart [] := ⟨rfl, List.nodup_nil, by simp⟩
  have hlength : (chars "(a . -5)" ++ chars "\n").length < 200 := by decide
  have htyped : (typed (chars "(a . -5)")).1 = .ok (.var 12) := by decide +kernel
  have hmemory : (typed (chars "(a . -5)")).1 ≠ .error (.error "Memory exhausted") := by
    simp [htyped]
  obtain ⟨hreadAs, -, objs', hwf'⟩ := reading_readAs (x := samplePair) hwf (by decide) htbl hlength
    hlength hmemory
  obtain ⟨p, a, hp, ha, hshows⟩ := hreadAs.mpr (by decide +kernel)
  obtain rfl : p = .var 12 := Except.ok.inj (hp.symm.trans htyped)
  have hproducible : Producible (chars "a") :=
    ⟨9, ⟨chars "a ", [], [], 0, []⟩, by decide, by decide +kernel⟩
  obtain ⟨printed, hok, -, -, hworld, hreads⟩ := print_read_iff (k := 9) hwf' (by decide) ha hshows
    (by decide) ⟨hproducible, trivial⟩ (by decide)
  have houtput : (printing sampleStatics (typed (chars "(a . -5)")).2 9 (.var 12)).2.world.output =
      chars "(a . -5)" := by decide +kernel
  have hempty : (typed (chars "(a . -5)")).2.world.output = [] := by decide +kernel
  obtain rfl : printed = chars "(a . -5)" := by
    have hprinted := congrArg World.output hworld
    change _ = (typed (chars "(a . -5)")).2.world.output ++ printed at hprinted
    rw [hempty, List.nil_append] at hprinted
    exact hprinted.symm.trans houtput
  have hshort : samplePair.Names Short := ⟨⟨by decide, by decide⟩, trivial⟩
  have hback := hreads promptStart [] objs [] ⟨chars "(a . -5)" ++ chars "\n", [], [], 0, []⟩ 200 200
    false hwf htbl rfl hlength (by decide) hmemory
  exact ⟨htyped, hok, houtput, hback.mpr hshort⟩

end roundTrip

end KernelPanic.Minilisp
