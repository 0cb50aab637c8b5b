import KernelPanic.Kernel.Minilisp.Independence
import KernelPanic.Kernel.Minilisp.Lexer

/-!
# KernelPanic.Kernel.Minilisp.Markers

When the parser keeps its markers out of the data and leaves the constants alone.

`readExpr` returns `Dot`, `Cparen` and NULL where there is no expression, and not every
caller asks.  `checkText` goes over the lexemes of the text, with a stack of what has
been begun, and fails where a quote or a dot takes a marker for an expression, or where
a list has nothing before its dot.
-/

namespace KernelPanic.Minilisp

open Prog

/-! ## going over the text -/

/-- What the reader has at hand: an expression that is proper or not, or a marker. -/
inductive Piece
  | datum (proper : Bool)
  | closing
  | dot
  | eof
  deriving DecidableEq, Repr

/-- What has been begun: after a quote, in a list, after its dot, and before the
parenthesis that must follow.  A list may have no element yet, and be proper so far. -/
inductive Unfinished
  | quote
  | list (empty proper : Bool)
  | tail (empty proper : Bool)
  | close (empty proper : Bool)
  deriving DecidableEq, Repr

/-- The innermost thing that has been begun gets a piece.  On the left is a verdict: an
error is no harm, the end of the whole text none if the expression is proper. -/
def deliver : Piece → List Unfinished → Bool ⊕ List Unfinished
  | p, [] => .inl (p ≠ .datum false)
  | p, .quote :: st => deliver (.datum (p = .datum true)) st
  | .eof, .list .. :: _ => .inl true
  | .closing, .list _ proper :: st => deliver (.datum proper) st
  | .dot, .list empty proper :: st => .inr (.tail empty proper :: st)
  | .datum x, .list _ proper :: st => .inr (.list false (x && proper) :: st)
  | p, .tail empty proper :: st => .inr (.close empty (proper && p = .datum true) :: st)
  | .closing, .close empty proper :: st => if empty then .inl false else deliver (.datum proper) st
  | _, .close .. :: _ => .inl true

/-- What a lexeme does to the unfinished expressions; a verdict ends the scan. -/
def checkStep (st : List Unfinished) : Lexeme → Bool ⊕ List Unfinished
  | .stop _ => .inl true
  | .skip => .inr st
  | .eof => deliver .eof st
  | .opening => .inr (.list true true :: st)
  | .closing => deliver .closing st
  | .dot => deliver .dot st
  | .quote => .inr (.quote :: st)
  | .int _ => deliver (.datum true) st
  | .symbol _ => deliver (.datum true) st

/-- The scan of the text. -/
def checkTurns : ℕ → List Unfinished → List UInt8 → Bool
  | 0, _, _ => true
  | n + 1, st, s =>
    match checkStep st (lex s).1 with
    | .inl verdict => verdict
    | .inr st' => checkTurns n st' (lex s).2

/-- The rest of the text, with what has been begun. -/
def check (st : List Unfinished) (s : List UInt8) : Bool := checkTurns s.length st s

/-- The rest of the text, unless there is a verdict. -/
def checkOn (s : List UInt8) : Bool ⊕ List Unfinished → Bool
  | .inl verdict => verdict
  | .inr st => check st s

/-- The first expression of the text is proper, as far as it goes. -/
def checkText (s : List UInt8) : Bool := check [] s

/-! ## one lexeme -/

section lex

variable {s : List UInt8} {st : List Unfinished} {n : ℕ}

/-- A line ends before the text does. -/
theorem lineEnd_length {rest : List UInt8} (h : lineEnd s = some rest) : rest.length < s.length := by
  induction s with
  | nil => cases h
  | cons c s ih =>
      unfold lineEnd at h
      split at h
      · cases h
        exact Nat.lt_succ_self _
      split at h
      · cases s with
        | nil => cases h
        | cons d s =>
            simp only [List.head?_cons, Option.map_some, List.tail_cons, Option.some.injEq] at h
            split at h
            · rw [← h, List.length_cons, List.length_cons]
              omega
            · rw [← h]
              exact Nat.lt_succ_self _
      · exact (ih h).trans (Nat.lt_succ_self _)

/-- A number is taken from the text. -/
theorem lexNumber_length {sign : BitVec 32 → BitVec 32} {val : BitVec 32} :
    (lexNumber sign val s).2.length ≤ s.length := by
  unfold lexNumber
  split
  · exact Nat.zero_le _
  · exact (List.dropWhile_suffix _).length_le

/-- A symbol is taken from the text. -/
theorem lexSymbol_length {c : UInt8} : (lexSymbol c s).2.length ≤ s.length := by
  unfold lexSymbol
  split
  · exact (List.drop_suffix _ _).length_le
  split
  · exact Nat.zero_le _
  · exact (List.dropWhile_suffix _).length_le

theorem ite_length {P : Prop} [Decidable P] {x y : Lexeme × List UInt8} (hx : x.2.length ≤ n)
    (hy : y.2.length ≤ n) : (if P then x else y).2.length ≤ n := by
  split
  · exact hx
  · exact hy

/-- A lexeme has a character at least. -/
theorem lex_length (hs : s ≠ []) : (lex s).2.length < s.length := by
  cases s with
  | nil => exact absurd rfl hs
  | cons c s =>
      rw [lex, List.length_cons, Nat.lt_succ_iff]
      refine ite_length le_rfl (ite_length le_rfl (ite_length ?_ (ite_length le_rfl
        (ite_length le_rfl (ite_length le_rfl (ite_length le_rfl (ite_length lexNumber_length
          (ite_length (Nat.zero_le _) (ite_length lexNumber_length
            (ite_length lexSymbol_length le_rfl))))))))))
      cases h : lineEnd s with
      | none => exact Nat.zero_le _
      | some rest => exact (lineEnd_length h).le

/-- Without text there is nothing to object to. -/
theorem checkTurns_nil : checkTurns n st [] = true := by
  cases n <;> rfl

/-- More turns than characters make no difference. -/
theorem checkTurns_eq (hn : s.length ≤ n) : checkTurns n st s = check st s := by
  induction n using Nat.strong_induction_on generalizing s st with
  | _ n ih =>
      cases s with
      | nil => rw [check, checkTurns_nil, checkTurns_nil]
      | cons c s =>
          obtain ⟨n, rfl⟩ : ∃ k, n = k + 1 := ⟨n - 1, by simp at hn; omega⟩
          have hlex := lex_length (List.cons_ne_nil c s)
          rw [List.length_cons] at hn hlex
          rw [check, List.length_cons, checkTurns, checkTurns]
          cases checkStep st (lex (c :: s)).1 with
          | inl verdict => rfl
          | inr st' =>
              have hleft : checkTurns n st' (lex (c :: s)).2 = check st' (lex (c :: s)).2 :=
                ih n (Nat.lt_succ_self _) (by omega)
              have hright : checkTurns s.length st' (lex (c :: s)).2 = check st' (lex (c :: s)).2 :=
                ih s.length (by omega) (by omega)
              exact hleft.trans hright.symm

/-- The scan takes one lexeme after the other. -/
theorem check_eq : check st s = checkOn (lex s).2 (checkStep st (lex s).1) := by
  cases s with
  | nil => rfl
  | cons c s =>
      have hlex := lex_length (List.cons_ne_nil c s)
      rw [List.length_cons] at hlex
      rw [check, List.length_cons, checkTurns]
      cases checkStep st (lex (c :: s)).1 with
      | inl verdict => rfl
      | inr st' => exact checkTurns_eq (by omega)

end lex

/-! ## what the parser does -/

/-- No marker is in the expression, and the expression is none. -/
def Sexp.proper : Sexp → Bool
  | .int _ => true
  | .symbol _ => true
  | .nil => true
  | .cell x y => x.proper && y.proper
  | .dot => false
  | .cparen => false
  | .null => false

/-- What the parser has returned. -/
def Sexp.piece : Sexp → Piece
  | .null => .eof
  | .cparen => .closing
  | .dot => .dot
  | x => .datum x.proper

/-- Assignments to the constants are only added. -/
def Appends (w w' : World) : Prop := w.damaged <+: w'.damaged

/-- Damage is noted, and never taken back. -/
theorem Appends.advances : Advances Appends where
  refl _ := List.prefix_rfl
  trans h h' := h.trans h'
  read _ _ _ _ := List.prefix_rfl
  damage _ _ := List.prefix_append ..

/-- `ok` is the verdict that suits the outcome, if `damaged` are the assignments before
and the rest of the text is read with what has been begun. -/
def Judges (damaged : List (Payload × Field)) (st : List Unfinished) (ok : Bool) :
    Except Fault Sexp × World → Prop
  | (.ok x, w') =>
    if w'.damaged = damaged then ok = checkOn w'.input (deliver x.piece st) else ok = false
  | (.error _, w') => ok = decide (w'.damaged = damaged)

/-- The text is judged by what the code does. -/
def Checks (code : Code Sexp) (w : World) : Prop :=
  ∀ st, Judges w.damaged st (check st w.input) (eval code w)

section checks

variable {w w' : World} {n m : ℕ} {expr : Code Sexp} {head : List Sexp} {st : List Unfinished}
  {x tail : Sexp} {xs : List Sexp} {ok : Bool} {res : Except Fault Sexp}

/-- A list is proper when its elements and its end are. -/
theorem proper_list : (Sexp.list xs tail).proper = (xs.all Sexp.proper && tail.proper) := by
  induction xs with
  | nil => rfl
  | cons x xs ih => rw [Sexp.list_cons, Sexp.proper, ih, List.all_cons, Bool.and_assoc]

/-- A list is a datum, proper or not. -/
theorem piece_list (hxs : xs ≠ []) :
    (Sexp.list xs tail).piece = .datum (xs.all Sexp.proper && tail.proper) := by
  rw [← proper_list]
  cases xs with
  | nil => exact absurd rfl hxs
  | cons x xs => rfl

theorem piece_list_nil : (Sexp.list xs .nil).piece = .datum (xs.all Sexp.proper) := by
  cases xs with
  | nil => rfl
  | cons x xs => rw [piece_list (List.cons_ne_nil x xs), Sexp.proper, Bool.and_true]

/-- A proper datum is a proper expression. -/
theorem piece_eq_datum : decide (x.piece = .datum true) = x.proper := by
  cases x <;> simp [Sexp.piece, Sexp.proper]

/-- Where there is damage the verdict is bad. -/
theorem Judges.of_damaged {damaged : List (Payload × Field)} (hok : ok = false)
    (hw : w'.damaged ≠ damaged) : Judges damaged st ok (res, w') := by
  cases res with
  | ok x => exact (if_neg hw).mpr hok
  | error e => rw [Judges, hok, decide_eq_false hw]

/-- Where the constants are damaged, nothing makes up for it. -/
theorem Judges.of_appends {damaged : List (Payload × Field)} {code : Code Sexp} (hok : ok = false)
    (hw : damaged <+: w.damaged) (hne : w.damaged ≠ damaged) (happends : Along Appends code) :
    Judges damaged st ok (eval code w) := by
  have hprefix := happends w
  rcases hout : eval code w with ⟨res, w'⟩
  refine of_damaged hok fun heq => hne ?_
  rw [hout] at hprefix
  change _ <+: w'.damaged at hprefix
  rw [heq] at hprefix
  exact (hw.eq_of_length_le hprefix.length_le).symm

/-- A piece is read, and then more. -/
theorem Judges.bind {code : Code Sexp} {f : Sexp → Code Sexp} {st' : List Unfinished}
    (hcode : Judges w.damaged st' ok (eval code w)) (happends : Along Appends code)
    (hf : ∀ x, Along Appends (f x))
    (hnext : ∀ x w', eval code w = (.ok x, w') → w'.damaged = w.damaged →
      Judges w.damaged st (checkOn w'.input (deliver x.piece st')) (eval (f x) w')) :
    Judges w.damaged st ok (eval (code >>= f) w) := by
  have hprefix := happends w
  rcases hout : eval code w with ⟨e | x, w'⟩
  · rw [hout] at hcode
    rw [eval_bind_error hout]
    exact hcode
  rw [hout] at hcode hprefix
  rw [eval_bind_ok hout]
  by_cases hdamaged : w'.damaged = w.damaged
  · rw [(if_pos hdamaged).mp hcode]
    exact hnext x w' hout hdamaged
  · exact .of_appends ((if_neg hdamaged).mp hcode) hprefix hdamaged (hf x)

/-- The parenthesis after the tail of a list. -/
theorem checks_close {y z : Sexp} {damaged : List (Payload × Field)}
    (hdamaged : w.damaged = damaged) :
    Judges damaged st
      (checkOn w.input (deliver z.piece
        (.close (head = []) (head.all Sexp.proper && y.proper) :: st)))
      (eval (parseListEnd head y z) w) := by
  subst hdamaged
  rw [parseListEnd]
  by_cases hcparen : z = .cparen
  · subst hcparen
    rw [if_pos rfl]
    by_cases hhead : head = []
    · subst hhead
      rw [if_pos rfl]
      exact .of_damaged rfl (by simp)
    · have hpiece : (Sexp.list head.reverse y).piece = .datum (head.all Sexp.proper && y.proper) := by
        rw [piece_list (by simpa using hhead), List.all_reverse]
      rw [if_neg hhead, decide_eq_false hhead]
      refine (if_pos rfl).mpr ?_
      rw [hpiece]
      rfl
  · have hverdict : deliver z.piece
        (.close (head = []) (head.all Sexp.proper && y.proper) :: st) = .inl true := by
      cases z <;> first | rfl | exact absurd rfl hcparen
    rw [if_neg hcparen, hverdict]
    exact (decide_eq_true rfl).symm

/-- A list after its dot. -/
theorem checks_dotted {loop : Sexp → Code Sexp} (hexpr : ∀ w, w.input.length < n → Checks expr w)
    (hconsumes : Consumes expr) (happends : Along Appends expr) (hn : w.input.length < n) :
    Judges w.damaged st (check (.tail (head = []) (head.all Sexp.proper) :: st) w.input)
      (eval (parseListNext expr head loop .dot) w) := by
  rw [parseListNext]
  refine Judges.bind (hexpr w hn _) happends (fun y =>
      Appends.advances.bind happends fun z => Appends.advances.parseListEnd head y z) fun y w₁ hout hdamaged => ?_
  have hdeliver : deliver y.piece (.tail (head = []) (head.all Sexp.proper) :: st) =
      .inr (.close (head = []) (head.all Sexp.proper && y.proper) :: st) := by
    rw [← piece_eq_datum]
    cases y <;> rfl
  rw [hdeliver, checkOn, ← hdamaged]
  refine Judges.bind (hexpr w₁ ((hconsumes _ _ _ hout).trans hn) _) happends
    (fun z => Appends.advances.parseListEnd head y z) fun z w₂ _ hdamaged₁ => ?_
  exact checks_close hdamaged₁

/-- A list that has been begun. -/
theorem checks_list (hexpr : ∀ w, w.input.length < n → Checks expr w) (hconsumes : Consumes expr)
    (happends : Along Appends expr) (hn : w.input.length < n) (hm : w.input.length < m) :
    Judges w.damaged st (check (.list (head = []) (head.all Sexp.proper) :: st) w.input)
      (eval (parseListLoop expr m head) w) := by
  induction m generalizing w head with
  | zero => cases hm
  | succ m ih =>
      rw [parseListLoop]
      refine Judges.bind (hexpr w hn _) happends
        (Appends.advances.parseListNext
        happends fun _ => Appends.advances.parseListLoop happends m _) fun x w₁ hout hdamaged => ?_
      have hshorter := hconsumes _ _ _ hout
      rw [← hdamaged]
      cases x with
      | null => exact (decide_eq_true rfl).symm
      | cparen =>
          refine (if_pos rfl).mpr ?_
          rw [piece_list_nil, List.all_reverse]
          rfl
      | dot => exact checks_dotted hexpr hconsumes happends (by omega)
      | int k => exact @ih _ (.int k :: head) (by omega) (by omega)
      | symbol name => exact @ih _ (.symbol name :: head) (by omega) (by omega)
      | nil => exact @ih _ (.nil :: head) (by omega) (by omega)
      | cell y z => exact @ih _ (.cell y z :: head) (by omega) (by omega)

/-- **The text is judged** by what the parser does with it. -/
theorem checks_parseExpr (hn : w.input.length < n) : Checks (parseExpr n) w := by
  induction n generalizing w with
  | zero => cases hn
  | succ n ih =>
      intro st
      have heval := eval_parseExpr (w := w) (s := w.input) (Nat.le_of_lt_succ hn)
      rw [World.feed_self] at heval
      rw [heval, check_eq]
      have hlength : (∀ e, (lex w.input).1 ≠ .stop e) → (lex w.input).2.length < n := by
        intro hstop
        have hs : w.input ≠ [] := fun hs => hstop .blocked (by rw [hs]; rfl)
        exact (lex_length hs).trans_le (Nat.le_of_lt_succ hn)
      rcases hlex : lex w.input with ⟨lexeme, rest⟩
      rw [hlex] at hlength
      cases lexeme with
      | stop e => exact (decide_eq_true rfl).symm
      | skip => exact ih (w := w.feed rest) (hlength (by simp)) st
      | eof => exact (if_pos rfl).mpr rfl
      | opening =>
          exact checks_list (w := w.feed rest) (fun w => ih) (.parseExpr n)
            (Appends.advances.parseExpr n) (hlength (by simp)) (hlength (by simp))
      | closing => exact (if_pos rfl).mpr rfl
      | dot => exact (if_pos rfl).mpr rfl
      | int k => exact (if_pos rfl).mpr rfl
      | symbol name => exact (if_pos rfl).mpr rfl
      | quote =>
          refine Judges.bind (w := w.feed rest) (ih (hlength (by simp)) (.quote :: st))
            (Appends.advances.parseExpr n) (fun _ => Appends.advances.pure) fun x w' _ hdamaged => ?_
          have hpiece : (Sexp.list [.symbol (chars "quote"), x] .nil).piece = .datum x.proper := by
            rw [piece_list_nil]
            simp [Sexp.proper]
          refine (if_pos hdamaged).mpr ?_
          rw [hpiece, ← piece_eq_datum, deliver]

end checks

/-! ## data without markers -/

/-- No object of the data points to a marker of the parser. -/
def MarkerFree (c : Statics) (rd : ℕ → Option Payload) (a : ℕ) : Prop :=
  ∀ x payload, Part rd a x → rd x = some payload →
    ∀ p ∈ payload.pointers, p ≠ null ∧ p ≠ c.constDot ∧ p ≠ c.constCparen

section data

variable {c : Statics} {tbl : List Entry} {h : Ideal} {lo hi a p q : ℕ} {x : Sexp}
  {objs : List ℕ} {D : Set ℕ} {ρ : ℕ → ℕ} {i : Machine Ideal} {m : Machine State}

/-- An object without pointers. -/
theorem MarkerFree.of_leaf {rd : ℕ → Option Payload}
    (hleaf : ∀ payload, rd a = some payload → payload.pointers = []) : MarkerFree c rd a := by
  intro x payload hpart hread p hp
  rcases hpart.split with rfl | ⟨b, hb, -⟩
  · rw [hleaf payload hread] at hp
    cases hp
  · cases hroot : rd a with
    | none => simp [children, hroot] at hb
    | some payload => simp [mem_children hroot, hleaf payload hroot] at hb

/-- A cell is free of markers when what it points to is. -/
theorem markerFree_cell {rd : ℕ → Option Payload} (ha : a ≠ null)
    (hread : rd a = some (.cell p q)) :
    MarkerFree c rd a ↔ (p ≠ null ∧ p ≠ c.constDot ∧ p ≠ c.constCparen ∧ MarkerFree c rd p) ∧
      q ≠ null ∧ q ≠ c.constDot ∧ q ≠ c.constCparen ∧ MarkerFree c rd q := by
  have hchild : ∀ b ∈ [p, q], b ≠ null → MarkerFree c rd a → MarkerFree c rd b := by
    intro b hb hnull hfree x payload hx
    have hstep : Part rd a b := .next (Part.refl ha) ((mem_children hread).mpr ⟨hb, hnull⟩)
    exact hfree x payload (hstep.trans hx)
  constructor
  · intro hfree
    obtain ⟨hp₁, hp₂, hp₃⟩ := hfree a _ (Part.refl ha) hread p List.mem_cons_self
    obtain ⟨hq₁, hq₂, hq₃⟩ := hfree a _ (Part.refl ha) hread q (by simp [Payload.pointers])
    exact ⟨⟨hp₁, hp₂, hp₃, hchild p (by simp) hp₁ hfree⟩, hq₁, hq₂, hq₃, hchild q (by simp) hq₁ hfree⟩
  · rintro ⟨⟨hp₁, hp₂, hp₃, hp⟩, hq₁, hq₂, hq₃, hq⟩ x payload hx hpayload r hr
    rcases hx.split with rfl | ⟨b, hb, hx⟩
    · rw [hread, Option.some.injEq] at hpayload
      subst hpayload
      rcases List.mem_pair.mp hr with rfl | rfl
      · exact ⟨hp₁, hp₂, hp₃⟩
      · exact ⟨hq₁, hq₂, hq₃⟩
    · rcases List.mem_pair.mp ((mem_children hread).mp hb).1 with rfl | rfl
      · exact hp x payload hx hpayload r hr
      · exact hq x payload hx hpayload r hr

/-- A proper expression is no marker, and has none in it. -/
theorem proper_iff : x.proper = true ↔
    x ≠ .null ∧ x ≠ .dot ∧ x ≠ .cparen ∧ x.piece ≠ .datum false := by
  cases x <;> simp [Sexp.proper, Sexp.piece]

/-- What the parser built has no marker in it exactly if the expression is proper, or a
marker itself. -/
theorem Rep.markerFree (hrep : Rep c tbl h.read lo hi a x) (htbl : SymbolTable c tbl h) :
    MarkerFree c h.read a ↔ x.piece ≠ .datum false := by
  induction x generalizing a with
  | cell y z ihy ihz =>
      obtain ⟨-, -, p, q, hread, hy, hz⟩ := hrep
      have ha : a ≠ null := fun heq => by
        rw [heq, htbl.null] at hread
        cases hread
      have hpart {p : ℕ} {y : Sexp} (hy : Rep c tbl h.read lo hi p y)
          (ih : MarkerFree c h.read p ↔ y.piece ≠ .datum false) :
          (p ≠ null ∧ p ≠ c.constDot ∧ p ≠ c.constCparen ∧ MarkerFree c h.read p) ↔
            y.proper = true := by
        rw [ih, proper_iff]
        simp only [ne_eq, hy.eq_null htbl, hy.eq_dot htbl, hy.eq_cparen htbl]
      rw [markerFree_cell ha hread, hpart hy (ihy hy), hpart hz (ihz hz)]
      simp [Sexp.piece, Sexp.proper]
  | _ =>
      refine iff_of_true (.of_leaf fun payload hread => ?_) (by simp [Sexp.piece, Sexp.proper])
      have htype := hrep.type htbl
      rw [hread] at htype
      cases payload <;> first | rfl | cases htype

/-- The image of what the data consists of. -/
theorem Sim.part_map {y : ℕ} (hsim : Sim c objs D ρ i m) (ha : Known c D a)
    (hpart : Part i.heap.read a y) : Part ((concrete c).read m.heap) (ρ a) (ρ y) := by
  induction hpart with
  | root hy =>
      obtain ⟨hy, hnull⟩ := List.mem_filter.mp hy
      obtain rfl := List.mem_singleton.mp hy
      exact Part.refl fun heq => of_decide_eq_true hnull ((hsim.eq_null ha).mp heq)
  | @next y z hy hz ih =>
      have hknown := hsim.known_part ha hy
      obtain ⟨payload, hread⟩ := hsim.read_some hknown (Part.ne_null hy)
      obtain ⟨hmem, hpointers, -⟩ := hsim.read hknown hread
      obtain ⟨hchild, hnull⟩ := (mem_children hread).mp hz
      refine .next ih ((mem_children hmem).mpr ⟨?_, ?_⟩)
      · rw [Payload.pointers_mapPointers]
        exact List.mem_map_of_mem hchild
      · exact fun heq => hnull ((hsim.eq_null (hpointers z hchild)).mp heq)

/-- The data are free of markers on both heaps, or on neither. -/
theorem Sim.markerFree (hsim : Sim c objs D ρ i m) (ha : Known c D a) :
    MarkerFree c ((concrete c).read m.heap) (ρ a) ↔ MarkerFree c i.heap.read a := by
  have hfixed {p b : ℕ} (hp : Known c D p) (hb : Fixed c b) : ρ p = b ↔ p = b := by
    have hinj := hsim.inj hp (.inr hb)
    rwa [hsim.fixed b hb] at hinj
  have hmarker {p : ℕ} (hp : Known c D p) :
      (ρ p ≠ Minilisp.null ∧ ρ p ≠ c.constDot ∧ ρ p ≠ c.constCparen) ↔
        p ≠ Minilisp.null ∧ p ≠ c.constDot ∧ p ≠ c.constCparen := by
    rw [ne_eq, hfixed hp (.inl rfl), ne_eq, hfixed hp (.inr (by simp)), ne_eq,
      hfixed hp (.inr (by simp))]
  constructor
  · intro hfree x payload hx hread p hp
    have hknown := hsim.known_part ha hx
    obtain ⟨hmem, hpointers, -⟩ := hsim.read hknown hread
    refine (hmarker (hpointers p hp)).mp (hfree _ _ (hsim.part_map ha hx) hmem _ ?_)
    rw [Payload.pointers_mapPointers]
    exact List.mem_map_of_mem hp
  · intro hfree y payload hy hread p hp
    obtain ⟨x, hx, hknown, rfl⟩ := hsim.part ha hy
    obtain ⟨payload', hread'⟩ := hsim.read_some hknown hx.ne_null
    obtain ⟨hmem, hpointers, -⟩ := hsim.read hknown hread'
    rw [hread, Option.some.injEq] at hmem
    subst hmem
    rw [Payload.pointers_mapPointers] at hp
    obtain ⟨r, hr, rfl⟩ := List.mem_map.mp hp
    exact (hmarker (hpointers r hr)).mpr (hfree x _ hx hread' r hr)

end data

/-! ## assignments to the constants -/

/-- An operation that at most adds to the assignments. -/
def Op.Tame : ∀ ⦃β : Type⦄, Op β → Prop
  | _, .io f => ∀ w x w', f w = .ok (x, w') → w.damaged <+: w'.damaged
  | _, _ => True

/-- The same of what a program does to a machine. -/
def Appended {H : Type} (m m' : Machine H) : Prop := Appends m.world m'.world

section tame

variable {α β : Type} {H : Type} {b : Backend H} {c : Statics} {m m' : Machine H} {o : Op β} {x : β}
  {p q : Ptr} {limit n d : ℕ} {obj head last : Ref} {name : List UInt8} {code : Code Ptr}

theorem Except.bind_eq_ok {ε γ δ : Type} {y : Except ε γ} {f : γ → Except ε δ} {r : δ}
    (h : y >>= f = .ok r) : ∃ a, y = .ok a ∧ f a = .ok r := by
  cases y with
  | error e => cases h
  | ok a => exact ⟨a, rfl, h⟩

/-- An operation keeps the damage that has been noted. -/
theorem handle_appends (ho : o.Tame) (h : handle b c o m = .ok (x, m')) : Appended m m' := by
  cases o with
  | deref r =>
      cases h
      exact List.prefix_rfl
  | assign r p =>
      obtain ⟨a, -, h⟩ := Except.bind_eq_ok h
      cases r with
      | slot depth j =>
          cases h
          exact List.prefix_rfl
      | symbols =>
          simp only at h
          split at h
          · cases h
          · cases h
            exact List.prefix_rfl
      | nil => cases h
      | constTrue => cases h
  | look p view =>
      obtain ⟨a, -, h⟩ := Except.bind_eq_ok h
      obtain ⟨payload, -, h⟩ := Except.bind_eq_ok h
      split at h
      · cases h
      · cases h
        exact List.prefix_rfl
  | load p f =>
      obtain ⟨a, -, h⟩ := Except.bind_eq_ok h
      obtain ⟨payload, -, h⟩ := Except.bind_eq_ok h
      split at h
      · cases h
      · cases h
        exact List.prefix_rfl
  | store p f q =>
      obtain ⟨a, -, h⟩ := Except.bind_eq_ok h
      obtain ⟨a', -, h⟩ := Except.bind_eq_ok h
      obtain ⟨payload, -, h⟩ := Except.bind_eq_ok h
      split at h
      · cases h
        exact List.prefix_rfl
      · split at h
        · cases h
          exact List.prefix_append ..
        · cases h
  | same p q =>
      obtain ⟨a, -, h⟩ := Except.bind_eq_ok h
      obtain ⟨a', -, h⟩ := Except.bind_eq_ok h
      cases h
      exact List.prefix_rfl
  | make req =>
      obtain ⟨r, -, h⟩ := Except.bind_eq_ok h
      cases h
      exact List.prefix_rfl
  | push n =>
      cases h
      exact List.prefix_rfl
  | pop =>
      cases h
      exact List.prefix_rfl
  | io f =>
      obtain ⟨r, hr, h⟩ := Except.bind_eq_ok h
      cases h
      exact ho _ _ _ hr

/-- Taking a character keeps the damage. -/
theorem tame_get1char : get1char.Forall Op.Tame := by
  refine ⟨fun w x w' h => ?_, fun _ => trivial⟩
  simp only at h
  split at h
  · cases h
  · cases h
    exact List.prefix_rfl

theorem tame_peek : peek.Forall Op.Tame := by
  refine ⟨fun w x w' h => ?_, fun _ => trivial⟩
  simp only at h
  split at h
  · cases h
  · cases h
    exact List.prefix_rfl

/-- A scope keeps the damage when its body does. -/
theorem tame_define {body : ℕ → Code α} (h : ∀ d, (body d).Forall Op.Tame) :
    (define n body).Forall Op.Tame :=
  ⟨trivial, fun d => (h d).bind fun _ => ⟨trivial, fun _ => trivial⟩⟩

/-- Skipping a comment keeps the damage. -/
theorem tame_skipLine (n : ℕ) : (skipLine n).Forall Op.Tame := by
  induction n with
  | zero => trivial
  | succ n ih =>
      exact tame_get1char.bind fun c => .ite trivial (.ite (tame_peek.bind fun d =>
        .ite (tame_get1char.bind fun _ => trivial) trivial) ih)

/-- Reading a number keeps the damage. -/
theorem tame_readNumber (n : ℕ) (val : BitVec 32) : (readNumber n val).Forall Op.Tame := by
  induction n generalizing val with
  | zero => trivial
  | succ n ih =>
      exact tame_peek.bind fun c => .ite (tame_get1char.bind fun _ => ih _) trivial

/-- Reading a name keeps the damage. -/
theorem tame_readName (n : ℕ) (buf : List UInt8) : (readName n buf).Forall Op.Tame := by
  induction n generalizing buf with
  | zero => trivial
  | succ n ih =>
      exact tame_peek.bind fun c =>
        .ite (.ite trivial (tame_get1char.bind fun _ => ih _)) trivial

/-- `reverse` keeps the damage. -/
theorem tame_reverse (limit : ℕ) (p : Ptr) : (reverse limit p).Forall Op.Tame := by
  unfold reverse
  generalize Ptr.nil = ret
  induction limit generalizing p ret with
  | zero => trivial
  | succ limit ih =>
      refine ⟨trivial, fun d => .ite trivial ?_⟩
      exact ⟨trivial, fun next => ⟨trivial, fun _ => ih next p⟩⟩

/-- The search for a symbol keeps the damage. -/
theorem tame_findSymbol (limit : ℕ) (p : Ptr) : (findSymbol name limit p).Forall Op.Tame := by
  induction limit generalizing p with
  | zero => trivial
  | succ limit ih =>
      refine ⟨trivial, fun d => .ite trivial ⟨trivial, fun sym => ⟨trivial, fun _ => .ite ?_ ?_⟩⟩⟩
      · exact ⟨trivial, fun _ => trivial⟩
      · exact ⟨trivial, fun next => ih next⟩

/-- `intern` keeps the damage. -/
theorem tame_intern : (intern limit name).Forall Op.Tame := by
  refine ⟨trivial, fun p => (tame_findSymbol limit p).bind fun found => ?_⟩
  cases found with
  | some p => trivial
  | none =>
      exact tame_define fun d => ⟨trivial, fun _ => ⟨trivial, fun _ => ⟨trivial, fun _ =>
        ⟨trivial, fun _ => ⟨trivial, fun _ => trivial⟩⟩⟩⟩⟩

/-- The loop of `read_list` keeps the damage. -/
theorem tame_readListLoop (hcode : code.Forall Op.Tame) :
    (readListLoop code limit obj head last n).Forall Op.Tame := by
  induction n with
  | zero => trivial
  | succ n ih =>
      refine hcode.bind fun _ => ⟨trivial, fun _ => ⟨trivial, fun _ => ⟨trivial, fun _ => ?_⟩⟩⟩
      refine .ite trivial ⟨trivial, fun _ => ⟨trivial, fun _ => .ite ?_ ?_⟩⟩
      · exact ⟨trivial, fun p => tame_reverse limit p⟩
      refine ⟨trivial, fun _ => ⟨trivial, fun _ => .ite ?_ ?_⟩⟩
      · refine hcode.bind fun _ => ⟨trivial, fun _ => hcode.bind fun _ => ⟨trivial, fun _ => ?_⟩⟩
        refine .ite ⟨trivial, fun p => (tame_reverse limit p).bind fun _ => ?_⟩ trivial
        exact ⟨trivial, fun _ => ⟨trivial, fun _ => ⟨trivial, fun _ => trivial⟩⟩⟩
      · exact ⟨trivial, fun _ => ⟨trivial, fun _ => ih⟩⟩

/-- **The reader** keeps the damage that has been noted. -/
theorem tame_readExpr (limit n : ℕ) : (readExpr limit n).Forall Op.Tame := by
  induction n with
  | zero => trivial
  | succ n ih =>
      refine tame_get1char.bind fun c => .ite ih (.ite trivial (.ite ?_ (.ite ?_ (.ite trivial
        (.ite trivial (.ite ?_ (.ite ?_ ?_)))))))
      · exact (tame_skipLine n).bind fun _ => ih
      · exact tame_define fun d => ⟨trivial, fun _ => tame_readListLoop ih⟩
      · exact tame_define fun d => tame_intern.bind fun _ => ⟨trivial, fun _ => ih.bind fun _ =>
          ⟨trivial, fun _ => ⟨trivial, fun _ => ⟨trivial, fun _ => ⟨trivial, fun _ =>
            ⟨trivial, fun _ => ⟨trivial, fun _ => trivial⟩⟩⟩⟩⟩⟩⟩
      · exact (tame_readNumber n _).bind fun _ => ⟨trivial, fun _ => trivial⟩
      · have hminus : (isMinus c).Forall Op.Tame := by
          unfold isMinus
          exact .ite (tame_peek.bind fun _ => trivial) trivial
        refine hminus.bind fun _ => .ite ?_ (.ite ?_ trivial)
        · exact (tame_readNumber n _).bind fun _ => ⟨trivial, fun _ => trivial⟩
        · exact (tame_readName n _).bind fun _ => tame_intern

end tame

/-! ## `read_expr` -/

/-- The call leaves the constants alone, and returns a marker or data without any. -/
structure ReadsWell (c : Statics) (w : World) (r : Except Fault Ptr × Machine State) : Prop where
  constants : r.2.world.damaged = w.damaged
  data : ∀ q a, r.1 = .ok q → r.2.address (concrete c) c q = .ok a →
    a = null ∨ a = c.constDot ∨ a = c.constCparen ∨ MarkerFree c ((concrete c).read r.2.heap) a

section read

variable {c : Statics} {s : State} {root : Frames} {objs : List ℕ} {tbl : List Entry} {w : World}
  {limit n : ℕ} {gc : Bool}

/-- The scan accepts what is parsed without damage into a proper datum. -/
theorem checkText_iff (hn : w.input.length < n) : checkText w.input = true ↔
    (eval (parseExpr n) w).2.damaged = w.damaged ∧
      ∀ x, (eval (parseExpr n) w).1 = .ok x → x.piece ≠ .datum false := by
  have hjudge := checks_parseExpr hn []
  rw [checkText]
  rcases hout : eval (parseExpr n) w with ⟨e | x, w'⟩ <;> rw [hout] at hjudge
  · have hverdict : check [] w.input = decide (w'.damaged = w.damaged) := hjudge
    simp [hverdict]
  · by_cases hdamaged : w'.damaged = w.damaged
    · have hverdict : check [] w.input = decide (x.piece ≠ .datum false) := (if_pos hdamaged).mp hjudge
      simp [hverdict, hdamaged]
    · have hverdict : check [] w.input = false := (if_neg hdamaged).mp hjudge
      simp [hverdict, hdamaged]

/-- The reader leaves the world that the parser leaves. -/
theorem Reads.world {heap : Ideal} {frames : Frames} {budget : ℕ}
    {out : Except Fault Sexp × World} {res : Except Fault Ptr} {i : Machine Ideal}
    (hreads : Reads c tbl heap frames budget out res i) : i.world = out.2 := by
  rcases out with ⟨e | x, w'⟩
  · exact hreads.2.1
  · obtain ⟨q, heap', t', a, -, rfl, -⟩ := hreads
    rfl

/-- What has been read is all right exactly if the expression is. -/
theorem Reads.readsWell_iff {heap : Ideal} {frames : Frames} {budget : ℕ}
    {out : Except Fault Sexp × World} {res : Except Fault Ptr} {i : Machine Ideal} {m : Machine State}
    (hreads : Reads c tbl heap frames budget out res i) (h : Related c i m) :
    ReadsWell c w (res, m) ↔
      out.2.damaged = w.damaged ∧ ∀ x, out.1 = .ok x → x.piece ≠ .datum false := by
  obtain ⟨objs, D, ρ, hsim⟩ := h
  rcases out with ⟨e | x, w'⟩
  · obtain ⟨rfl, rfl, -⟩ := hreads
    rw [← hsim.world]
    constructor
    · exact fun hwell => ⟨hwell.constants, by simp⟩
    · exact fun h => ⟨h.1, by simp⟩
  obtain ⟨q, heap', t', a, rfl, rfl, hq, tbl', hgrows, -, hrep⟩ := hreads
  obtain ⟨hknown, haddr⟩ := hsim.address hq
  have hfixed {b : ℕ} (hb : Fixed c b) : ρ a = b ↔ a = b := by
    have hinj := hsim.inj hknown (.inr hb)
    rwa [hsim.fixed b hb] at hinj
  have hdata : (ρ a = null ∨ ρ a = c.constDot ∨ ρ a = c.constCparen ∨
      MarkerFree c ((concrete c).read m.heap) (ρ a)) ↔ x.piece ≠ .datum false := by
    rw [hfixed (.inl rfl), hfixed (.inr (by simp)), hfixed (.inr (by simp)), hsim.markerFree hknown,
      hrep.eq_null hgrows.table, hrep.eq_dot hgrows.table, hrep.eq_cparen hgrows.table,
      hrep.markerFree hgrows.table]
    cases x <;> simp [Sexp.piece]
  have hworld : m.world = w' := hsim.world
  constructor
  · intro hwell
    refine ⟨hworld ▸ hwell.constants, fun y hy => ?_⟩
    cases hy
    exact hdata.mp (hwell.data q (ρ a) rfl haddr)
  · rintro ⟨hconstants, hpiece⟩
    refine ⟨hworld ▸ hconstants, fun q' b hq' hb => ?_⟩
    cases hq'
    obtain rfl : ρ a = b := by
      rw [haddr, Except.ok.injEq] at hb
      exact hb
    exact hdata.mpr (hpiece x rfl)

/-- **The reader keeps its markers out of the data** and the constants as they are exactly
if the text is proper, as far as it goes; a call that runs out of memory before the place
where the text is not does no harm either. -/
theorem readsWell_iff_checkText (hwf : WellFormed c s root objs) (hstatic : null ∉ c.addresses)
    (htbl : Interned c s tbl) (hn : w.input.length < n)
    (hlimit : tbl.length + w.input.length < limit) :
    (checkText w.input = true → ReadsWell c w (reading c s root w limit n gc)) ∧
      ((reading c s root w limit n gc).1 ≠ .error (.error "Memory exhausted") →
        ReadsWell c w (reading c s root w limit n gc) → checkText w.input = true) := by
  obtain ⟨hreads, hrun⟩ := readExpr_run (i := ⟨s.still c objs, root, ⟨[], []⟩, w⟩)
    ⟨objs, _, _, (hwf.setAlwaysGc gc).sim (w := w) hstatic⟩ (hwf.symbolTable hstatic htbl) hn hlimit
  rcases hrun with ⟨hgc, i', hvisits, objs', D, ρ, hsim⟩ | ⟨heq, hrel⟩
  · refine ⟨fun htext => ⟨?_, fun q a hq => ?_⟩, fun hno => absurd hgc hno⟩
    · -- What has been assigned so far is a part of what is assigned in the end.
      obtain ⟨hbefore, hafter⟩ := hvisits.along (R := Appended) (tame_readExpr limit n)
        (fun _ => List.prefix_rfl) List.IsPrefix.trans fun _ _ _ _ _ => handle_appends
      have hend := (congrArg World.damaged hreads.world).trans ((checkText_iff hn).mp htext).1
      have hsame : i'.world.damaged = w.damaged :=
        (hbefore.eq_of_length_le (hafter.length_le.trans (congrArg List.length hend).le)).symm
      exact (congrArg World.damaged hsim.world).trans hsame
    · cases hgc.symm.trans hq
  · have hwell := (hreads.readsWell_iff (w := w) hrel).trans (checkText_iff hn).symm
    rw [← heq] at hwell
    exact ⟨hwell.mpr, fun _ => hwell.mp⟩

/-- A list with nothing before its dot: the empty list is assigned to. -/
def dottedInput : World := ⟨chars "( . x) ", [], [], 0, []⟩

theorem dotted_damages : ¬ ReadsWell sampleStatics dottedInput
    (reading sampleStatics Client.sampleStart [] dottedInput 9 9 false) := by
  intro hwell
  have hdamaged : (reading sampleStatics Client.sampleStart [] dottedInput 9 9 false).2.world.damaged =
      [(.constNil, .cdr)] := by decide +kernel
  rw [hwell.constants] at hdamaged
  cases hdamaged

theorem readsWell_iff_checkText_sample :
    ReadsWell sampleStatics sampleInput
      (reading sampleStatics Client.sampleStart [] sampleInput 9 9 true) := by
  obtain ⟨objs, halign⟩ := Client.sampleStart_start.inv
  have hwf : WellFormed sampleStatics Client.sampleStart [] objs := halign.toWellFormed
  have htbl : Interned sampleStatics Client.sampleStart [] := ⟨rfl, List.nodup_nil, by simp⟩
  have hlength : sampleInput.input.length < 9 := by decide
  exact (readsWell_iff_checkText hwf (by decide) htbl hlength hlength).1 (by decide +kernel)

end read

end KernelPanic.Minilisp
