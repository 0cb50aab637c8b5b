import KernelPanic.Kernel.Minilisp.Markers
import Mathlib.Data.List.TakeWhile

/-!
# KernelPanic.Kernel.Minilisp.Names

The names of the symbols that the parser makes.

A symbol comes from a lexeme somewhere in the text, or is `quote`; what holds of the
names of all of these holds of every name in what has been read (`parseExpr_names`).
-/

namespace KernelPanic.Minilisp

open Prog

/-- Every symbol in the expression has a name like that. -/
def Sexp.Names (P : List UInt8 → Prop) : Sexp → Prop
  | .symbol name => P name
  | .cell x y => x.Names P ∧ y.Names P
  | _ => True

/-- The first character of a name. -/
def isNameStart (c : UInt8) : Bool := isAlpha c || isSymbolChar c

/-- A name without a zero byte that the parser reads as it is. -/
def Readable : List UInt8 → Prop
  | [] => False
  | c :: s => isNameStart c ∧ ¬ (c = char '-' ∧ s.head?.any isDigit) ∧
      (∀ d ∈ c :: s, isNameChar d ∧ d ≠ 0) ∧ s.length < symbolMaxLen

/-- The parser returns a symbol with the name for some input. -/
def Producible (name : List UInt8) : Prop :=
  ∃ n w, w.input.length < n ∧ (eval (parseExpr n) w).1 = .ok (.symbol name)

/-! ## characters -/

section characters

variable {c d : UInt8}

/-- What holds of the 256 bytes holds of a character. -/
theorem byte_cases {P : UInt8 → Prop} (h : ∀ n < 256, P (.ofNat n)) : P c := by
  have hc := h c.toNat c.toNat_lt
  rwa [UInt8.ofNat_toNat] at hc

/-- What begins a name can be in one. -/
theorem isNameStart_isNameChar (h : isNameStart c) : isNameChar c := by
  simp only [isNameStart, Bool.or_eq_true] at h
  rcases h with h | h <;> simp [isNameChar, isAlnum, h]

/-- No digit begins a name. -/
theorem isNameStart_isDigit (h : isNameStart c) : isDigit c = false := by
  revert h
  refine byte_cases (P := fun c => isNameStart c → isDigit c = false) ?_
  decide +kernel

end characters

/-! ## lexemes -/

section lex

variable {s t : List UInt8} {c : UInt8} {name : List UInt8}

/-- A character that begins a name begins a symbol. -/
theorem lex_nameStart (hc : isNameStart c) (hs : s ≠ [])
    (hminus : ¬ (c = char '-' ∧ s.head?.any isDigit)) : lex (c :: s) = lexSymbol c s := by
  have hne {d : UInt8} (hd : isNameStart d = false) : c ≠ d := by
    rintro rfl
    rw [hc] at hd
    cases hd
  have hblank : ¬ (c = char ' ' ∨ c = char '\n' ∨ c = char '\r' ∨ c = char '\t') :=
    not_or.mpr ⟨hne (by decide), not_or.mpr ⟨hne (by decide), not_or.mpr
      ⟨hne (by decide), hne (by decide)⟩⟩⟩
  have hdigit : ¬ isDigit c := by
    rw [isNameStart_isDigit hc]
    exact Bool.false_ne_true
  rw [lex, if_neg hblank, if_neg (hne (by decide)), if_neg (hne (by decide)),
    if_neg (hne (by decide)), if_neg (hne (by decide)), if_neg (hne (by decide)),
    if_neg (hne (by decide)), if_neg hdigit, if_neg fun h => hs h.2, if_neg hminus]
  exact if_pos hc

/-- What is behind a line is the end of the text. -/
theorem lineEnd_suffix {rest : List UInt8} (h : lineEnd s = some rest) : rest <:+ s := by
  induction s with
  | nil => cases h
  | cons c s ih =>
      unfold lineEnd at h
      split at h
      · cases h
        exact List.suffix_cons ..
      split at h
      · cases s with
        | nil => cases h
        | cons d s =>
            simp only [List.head?_cons, Option.map_some, List.tail_cons, Option.some.injEq] at h
            split at h
            · rw [← h]
              exact (List.suffix_cons ..).trans (List.suffix_cons ..)
            · rw [← h]
              exact List.suffix_cons ..
      · exact (ih h).trans (List.suffix_cons ..)

/-- A lexeme is taken from the front of the text. -/
theorem lex_suffix : (lex s).2 <:+ s := by
  cases s with
  | nil => exact List.suffix_rfl
  | cons c s =>
      have hself : s <:+ c :: s := List.suffix_cons ..
      have hnil : [] <:+ c :: s := List.nil_suffix
      have hnumber {sign val} : (lexNumber sign val s).2 <:+ c :: s := by
        rw [lexNumber]
        split
        · exact hnil
        · exact (List.dropWhile_suffix _).trans hself
      have hsymbol : (lexSymbol c s).2 <:+ c :: s := by
        rw [lexSymbol]
        split
        · exact (List.drop_suffix _ _).trans hself
        split
        · exact hnil
        · exact (List.dropWhile_suffix _).trans hself
      have hite {b : Prop} [Decidable b] {x y : Lexeme × List UInt8} (hx : x.2 <:+ c :: s)
          (hy : y.2 <:+ c :: s) : (if b then x else y).2 <:+ c :: s := by
        split
        · exact hx
        · exact hy
      rw [lex]
      refine hite hself (hite hself (hite ?_ (hite hself (hite hself (hite hself (hite hself
        (hite hnumber (hite hnil (hite hnumber (hite hsymbol hself))))))))))
      cases h : lineEnd s with
      | none => exact hnil
      | some rest => exact (lineEnd_suffix h).trans hself

/-- A branch that makes no symbol has not been taken. -/
theorem ite_symbol {b : Prop} [Decidable b] {x y : Lexeme × List UInt8}
    (h : (if b then x else y).1 = .symbol name) (hx : x.1 ≠ .symbol name) :
    ¬ b ∧ y.1 = .symbol name := by
  by_cases hb : b
  · rw [if_pos hb] at h
    exact absurd h hx
  · rw [if_neg hb] at h
    exact ⟨hb, h⟩

/-- Where a name comes from. -/
theorem lex_symbol (h : (lex s).1 = .symbol name) : ∃ c rest, s = c :: rest ∧ isNameStart c ∧
    ¬ (c = char '-' ∧ rest.head?.any isDigit) ∧
    (rest.takeWhile isNameChar).length < symbolMaxLen ∧
    name = cString (s.takeWhile isNameChar) := by
  have hnumber {sign val s} : (lexNumber sign val s).1 ≠ .symbol name := by
    rw [lexNumber]
    split <;> exact Lexeme.noConfusion
  cases s with
  | nil => cases h
  | cons c s =>
      obtain ⟨-, h⟩ := ite_symbol h Lexeme.noConfusion
      obtain ⟨-, h⟩ := ite_symbol h Lexeme.noConfusion
      obtain ⟨-, h⟩ := ite_symbol h (by cases lineEnd s <;> exact Lexeme.noConfusion)
      obtain ⟨-, h⟩ := ite_symbol h Lexeme.noConfusion
      obtain ⟨-, h⟩ := ite_symbol h Lexeme.noConfusion
      obtain ⟨-, h⟩ := ite_symbol h Lexeme.noConfusion
      obtain ⟨-, h⟩ := ite_symbol h Lexeme.noConfusion
      obtain ⟨-, h⟩ := ite_symbol h hnumber
      obtain ⟨-, h⟩ := ite_symbol h Lexeme.noConfusion
      obtain ⟨hminus, h⟩ := ite_symbol h hnumber
      by_cases hchar : isAlpha c || isSymbolChar c
      · have hstart : isNameStart c := hchar
        rw [if_pos hchar] at h
        obtain ⟨hlength, h⟩ := ite_symbol h Lexeme.noConfusion
        obtain ⟨-, h⟩ := ite_symbol h Lexeme.noConfusion
        cases h
        refine ⟨c, s, rfl, hstart, hminus, by omega, ?_⟩
        rw [List.takeWhile_cons_of_pos (isNameStart_isNameChar hstart)]
      · rw [if_neg hchar] at h
        cases h

/-- The first character taken is the first of the text. -/
theorem any_head_takeWhile {p q : UInt8 → Bool} (h : (s.takeWhile p).head?.any q) :
    s.head?.any q := by
  cases s with
  | nil => exact h
  | cons c s =>
      rw [List.takeWhile_cons] at h
      split at h
      · exact h
      · cases h

/-- A name that the parser makes is readable, unless its first character is zero. -/
theorem lex_readable (h : (lex s).1 = .symbol name) : name = [] ∨ Readable name := by
  obtain ⟨c, rest, rfl, hstart, hminus, hlength, rfl⟩ := lex_symbol h
  rw [List.takeWhile_cons_of_pos (isNameStart_isNameChar hstart), cString]
  by_cases hzero : c = 0
  · exact .inl (List.takeWhile_cons_of_neg (by simp [hzero]))
  rw [List.takeWhile_cons_of_pos (by simpa using hzero)]
  refine .inr ⟨hstart, fun h => hminus ⟨h.1, ?_⟩, ?_, ?_⟩
  · exact any_head_takeWhile (any_head_takeWhile h.2)
  · refine List.forall_mem_cons.mpr ⟨⟨isNameStart_isNameChar hstart, hzero⟩, fun d hd => ?_⟩
    have hname := List.mem_takeWhile_imp ((List.takeWhile_prefix _).mem hd)
    have hnonzero := List.mem_takeWhile_imp hd
    exact ⟨hname, by simpa using hnonzero⟩
  · exact (List.takeWhile_prefix _).length_le.trans_lt hlength

end lex

/-! ## names in what is read -/

/-- What is left of the input is its end. -/
def Remains (w w' : World) : Prop := w'.input <:+ w.input

/-- What is left is an end of the text. -/
theorem Remains.advances : Advances Remains where
  refl _ := List.suffix_rfl
  trans h h' := h'.trans h
  read w c s h := by
    rw [Remains, h]
    exact List.suffix_cons ..
  damage _ _ := List.suffix_rfl

/-- Every name in the text is like that. -/
def Spells (P : List UInt8 → Prop) (s : List UInt8) : Prop :=
  ∀ t, t <:+ s → ∀ name, (lex t).1 = .symbol name → P name

/-- So is every name in what the code returns. -/
def Named (P : List UInt8 → Prop) (code : Code Sexp) (w : World) : Prop :=
  ∀ x, (eval code w).1 = .ok x → x.Names P

section named

variable {P : List UInt8 → Prop} {w : World} {n m : ℕ} {expr p : Code Sexp} {f : Sexp → Code Sexp}
  {head : List Sexp} {x tail : Sexp} {xs : List Sexp}

/-- All names have a weaker property. -/
theorem Sexp.Names.mono {Q : List UInt8 → Prop} (h : x.Names P) (hPQ : ∀ name, P name → Q name) :
    x.Names Q := by
  induction x with
  | symbol name => exact hPQ name h
  | cell x y ihx ihy => exact ⟨ihx h.1, ihy h.2⟩
  | _ => trivial

/-- All names have two properties. -/
theorem Sexp.Names.and {Q : List UInt8 → Prop} (hP : x.Names P) (hQ : x.Names Q) :
    x.Names fun name => P name ∧ Q name := by
  induction x with
  | symbol name => exact ⟨hP, hQ⟩
  | cell x y ihx ihy => exact ⟨ihx hP.1 hQ.1, ihy hP.2 hQ.2⟩
  | _ => trivial

/-- An end of the text spells its names as well. -/
theorem Spells.mono {s t : List UInt8} (h : Spells P s) (ht : t <:+ s) : Spells P t :=
  fun u hu => h u (hu.trans ht)

/-- The names of a list are those of its elements and of its end. -/
theorem names_list : (Sexp.list xs tail).Names P ↔ (∀ x ∈ xs, x.Names P) ∧ tail.Names P := by
  induction xs with
  | nil => simp
  | cons x xs ih => simp [Sexp.Names, ih, and_assoc]

/-- The parts of an expression bring its names. -/
theorem Named.bind (hp : Named P p w)
    (hf : ∀ x w', eval p w = (.ok x, w') → x.Names P → Named P (f x) w') : Named P (p >>= f) w := by
  intro y hy
  rw [eval_bind] at hy
  rcases hout : eval p w with ⟨e | x, w'⟩
  · rw [hout] at hy
    cases hy
  · rw [hout] at hy
    exact hf x w' hout (hp x (by rw [hout])) y hy

/-- The names of a dotted list are those of its parts. -/
theorem named_parseListEnd {y z : Sexp} (hhead : ∀ x ∈ head, x.Names P) (hy : y.Names P) :
    Named P (parseListEnd head y z) w := by
  intro x hx
  rw [parseListEnd] at hx
  split at hx
  · split at hx
    · cases hx
      trivial
    · cases hx
      exact names_list.mpr ⟨by simpa using hhead, hy⟩
  · cases hx

/-- The elements bring the names of a list. -/
theorem named_parseListLoop
    (hexpr : ∀ w, Spells P w.input → w.input.length < n → Named P expr w)
    (hremains : Along Remains expr) (hw : Spells P w.input) (hn : w.input.length < n)
    (hhead : ∀ x ∈ head, x.Names P) : Named P (parseListLoop expr m head) w := by
  induction m generalizing w head with
  | zero => exact fun _ h => by cases h
  | succ m ih =>
      have hrest {w w' : World} {x : Sexp} (hout : eval expr w = (.ok x, w')) :
          w'.input <:+ w.input := by
        have h := hremains w
        rwa [hout] at h
      refine (hexpr w hw hn).bind fun x w₁ hout hx => ?_
      have hw₁ := hw.mono (hrest hout)
      have hn₁ := (hrest hout).length_le.trans_lt hn
      have hnext := ih hw₁ hn₁ (List.forall_mem_cons.mpr ⟨hx, hhead⟩)
      cases x with
      | null => exact fun _ h => by cases h
      | cparen =>
          intro y hy
          cases hy
          exact names_list.mpr ⟨by simpa using hhead, trivial⟩
      | dot =>
          refine (hexpr w₁ hw₁ hn₁).bind fun y w₂ hout₂ hy => ?_
          refine (hexpr w₂ (hw₁.mono (hrest hout₂))
            ((hrest hout₂).length_le.trans_lt hn₁)).bind fun z w₃ _ _ => ?_
          exact named_parseListEnd hhead hy
      | _ => exact hnext

/-- **The names in what is read** are those in the text, and `quote`. -/
theorem parseExpr_names (hquote : P (chars "quote")) (hw : Spells P w.input)
    (hn : w.input.length < n) : Named P (parseExpr n) w := by
  induction n generalizing w with
  | zero => cases hn
  | succ n ih =>
      have heval := eval_parseExpr (w := w) (s := w.input) (Nat.le_of_lt_succ hn)
      rw [World.feed_self] at heval
      have hspell := hw w.input List.suffix_rfl
      have hrest := hw.mono lex_suffix
      have hlength : (∀ e, (lex w.input).1 ≠ .stop e) → (lex w.input).2.length < n := by
        intro hstop
        have hs : w.input ≠ [] := fun hs => hstop .blocked (by rw [hs]; rfl)
        exact (lex_length hs).trans_le (Nat.le_of_lt_succ hn)
      intro x hx
      rw [heval] at hx
      rcases hlex : lex w.input with ⟨lexeme, rest⟩
      rw [hlex] at hx hrest hlength hspell
      cases lexeme with
      | stop e => cases hx
      | skip => exact ih (w := w.feed rest) hrest (hlength (by simp)) x hx
      | eof =>
          cases hx
          trivial
      | opening =>
          exact named_parseListLoop (w := w.feed rest) (fun w => ih) (Remains.advances.parseExpr n)
            hrest (hlength (by simp)) (by simp) x hx
      | closing =>
          cases hx
          trivial
      | dot =>
          cases hx
          trivial
      | int k =>
          cases hx
          trivial
      | symbol name =>
          cases hx
          exact hspell name rfl
      | quote =>
          refine (ih (w := w.feed rest) hrest (hlength (by simp))).bind (f := fun x =>
            Pure.pure (Sexp.list [.symbol (chars "quote"), x] .nil)) (fun y w' _ hy => ?_) x hx
          intro z hz
          cases hz
          exact ⟨hquote, hy, trivial⟩

end named

/-- A name that some input produces is readable, unless it is empty. -/
theorem Producible.readable {name : List UInt8} (h : Producible name) :
    name = [] ∨ Readable name := by
  obtain ⟨n, w, hn, heval⟩ := h
  have hquote : Readable (chars "quote") := by
    refine ⟨?_, ?_, ?_, ?_⟩ <;> decide +kernel
  exact parseExpr_names (P := fun name => name = [] ∨ Readable name) (.inr hquote)
    (fun t _ name hname => lex_readable hname) hn _ heval

end KernelPanic.Minilisp
