import MiniPascal.Proofs.Lexemes
import MiniPascal.Proofs.Numeral
import MiniPascal.Proofs.Reading
import MiniPascal.Tree.Printer

/-! What a printed tree scans to. Its tokens are derived from a tree that differs from it in the
tokens it keeps and in nothing else. -/

namespace MiniPascal

/-- There is no letter and no digit at the front. -/
def Breaks (cs : List Char) : Prop := ∀ c ∈ cs.head?, Token.IsBreak c

/-- The lexemes of a text make tokens with the property `P`, whatever stands behind the text, or, if
its last lexeme is `exposed`, whatever cannot go on with a word or a number. -/
def Prints (exposed : Bool) (t : Text) (P : List Token → Prop) : Prop :=
  ∃ ws, (∀ rest, (exposed = true → Breaks rest) → Lexes rest t.chars ws) ∧
    ∀ ts : List Token, ts.map Token.shape = ws → P ts

/-- Tokens with one property and behind them tokens with another. -/
def Then (P Q : List Token → Prop) (ts : List Token) : Prop :=
  ∃ us vs, ts = us ++ vs ∧ P us ∧ Q vs

/-- A single token with a property. -/
def Single (p : Token → Prop) (ts : List Token) : Prop := ∃ t, ts = [t] ∧ p t

section Prints

open Token

variable {exposed : Bool} {a b t : Text} {P Q : List Token → Prop} {k : Kind} {w : List Char}

theorem Prints.mono (h : Prints exposed t P) (hPQ : ∀ ts, P ts → Q ts) : Prints exposed t Q := by
  obtain ⟨ws, hlexes, hP⟩ := h
  exact ⟨ws, hlexes, fun ts hts => hPQ ts (hP ts hts)⟩

theorem Prints.expose (h : Prints false t P) : Prints true t P := by
  obtain ⟨ws, hlexes, hP⟩ := h
  exact ⟨ws, fun rest _ => hlexes rest (fun hf => absurd hf Bool.false_ne_true), hP⟩

theorem Prints.append (ha : Prints false a P) (hb : Prints exposed b Q) :
    Prints exposed (a ++ b) (Then P Q) := by
  obtain ⟨ws, hws, hP⟩ := ha
  obtain ⟨vs, hvs, hQ⟩ := hb
  refine ⟨ws ++ vs, fun rest hrest => ?_, fun ts hts => ?_⟩
  · rw [Text.chars_append]
    exact (hws _ fun hf => absurd hf Bool.false_ne_true).append (hvs rest hrest)
  · obtain ⟨us, us', rfl, hus, hus'⟩ := List.map_eq_append_iff.mp hts
    exact ⟨us, us', rfl, hP us hus, hQ us' hus'⟩

theorem Prints.append_break (ha : Prints true a P) (hb : Prints exposed b Q)
    (hbreak : ∃ c cs, b.chars = c :: cs ∧ IsBreak c) : Prints exposed (a ++ b) (Then P Q) := by
  obtain ⟨ws, hws, hP⟩ := ha
  obtain ⟨vs, hvs, hQ⟩ := hb
  obtain ⟨c, cs, hcs, hc⟩ := hbreak
  refine ⟨ws ++ vs, fun rest hrest => ?_, fun ts hts => ?_⟩
  · rw [Text.chars_append]
    refine (hws _ fun _ => ?_).append (hvs rest hrest)
    rw [hcs]
    intro d hd
    cases hd
    exact hc
  · obtain ⟨us, us', rfl, hus, hus'⟩ := List.map_eq_append_iff.mp hts
    exact ⟨us, us', rfl, hP us hus, hQ us' hus'⟩

theorem prints_nil : Prints false [] fun ts => ts = [] :=
  ⟨[], fun _ _ => .nil, fun _ hts => List.map_eq_nil_iff.mp hts⟩

theorem prints_blank {c : Char} (hc : Gap.isSpace c = true) :
    Prints false [.char c] fun ts => ts = [] :=
  ⟨[], fun _ _ => .blank hc .nil, fun _ hts => List.map_eq_nil_iff.mp hts⟩

theorem single_of_shape {s : Kind × Text} {ts : List Token} (h : ts.map shape = [s]) :
    Single (fun t => t.shape = s) ts := by
  obtain ⟨t, us, rfl, ht, hus⟩ := List.map_eq_cons_iff.mp h
  rw [List.map_eq_nil_iff.mp hus]
  exact ⟨t, rfl, ht⟩

theorem prints_lexeme (hw : IsLexeme k w) (hk : k ≠ .operator) :
    Prints true (Text.ofChars w) (Single fun t => t.shape = (k, Text.ofChars w)) := by
  refine ⟨[(k, Text.ofChars w)], fun rest hrest => ?_, fun ts => single_of_shape⟩
  rw [Text.chars_ofChars]
  have hlexes : Lexes rest (w ++ []) [(k, Text.ofChars w)] :=
    .lexeme hw (fun c hc => not_extends_word hk (hrest rfl c hc)) .nil
  rwa [List.append_nil] at hlexes

theorem prints_word {w : Text} (hw : w ∈ keywords) :
    Prints true w (Single fun t => t.isWord w) := by
  obtain ⟨c, cs, rfl, hc, hcs⟩ := exists_of_mem_keywords hw
  refine (prints_lexeme (.identifier hc hcs) (by decide)).mono ?_
  rintro _ ⟨t, rfl, ht⟩
  exact ⟨t, rfl, isWord_iff.mpr (shape_eq_iff.mp ht)⟩

/-- A symbol that no other one starts with can stand in front of anything. -/
theorem prints_symbol {w : Text} (hw : w ∈ symbols)
    (halone : ∀ v ∈ operators, w.chars <+: v → v = w.chars) :
    Prints false w (Single fun t => t.isSymbol w) := by
  obtain ⟨cs, rfl, -, hlexeme⟩ := exists_of_mem_symbols hw
  rw [Text.chars_ofChars] at halone
  refine ⟨[(.operator, Text.ofChars cs)], fun rest _ => ?_, fun ts hts => ?_⟩
  · rw [Text.chars_ofChars]
    have hlexes : Lexes rest (cs ++ []) [(.operator, Text.ofChars cs)] :=
      .lexeme hlexeme (fun c _ => not_extends_alone halone) .nil
    rwa [List.append_nil] at hlexes
  · obtain ⟨t, rfl, ht⟩ := single_of_shape hts
    exact ⟨t, rfl, isSymbol_iff.mpr (shape_eq_iff.mp ht)⟩

theorem prints_open : Prints false "(" (Single fun t => t.isSymbol "(") :=
  prints_symbol (by decide) (by decide)

theorem prints_close : Prints false ")" (Single fun t => t.isSymbol ")") :=
  prints_symbol (by decide) (by decide)

theorem prints_comma : Prints false "," (Single fun t => t.isSymbol ",") :=
  prints_symbol (by decide) (by decide)

theorem prints_semi : Prints false ";" (Single fun t => t.isSymbol ";") :=
  prints_symbol (by decide) (by decide)

/-- Any symbol can stand in front of a blank. -/
theorem prints_spaced {w : Text} (hw : w ∈ symbols) :
    Prints false (" " ++ (w ++ " ")) (Single fun t => t.isSymbol w) := by
  obtain ⟨cs, rfl, -, hlexeme⟩ := exists_of_mem_symbols hw
  refine ⟨[(.operator, Text.ofChars cs)], fun rest _ => ?_, fun ts hts => ?_⟩
  · rw [Text.chars_append, Text.chars_append, Text.chars_ofChars]
    refine .blank (by decide) (.lexeme hlexeme (fun c hc => ?_) (.blank (by decide) .nil))
    cases hc
    exact not_extends_blank (by decide)
  · obtain ⟨t, rfl, ht⟩ := single_of_shape hts
    exact ⟨t, rfl, isSymbol_iff.mpr (shape_eq_iff.mp ht)⟩

theorem prints_wordBlank {w : Text} (hw : w ∈ keywords) :
    Prints false (w ++ " ") (Single fun t => t.isWord w) := by
  refine ((prints_word hw).append_break (prints_blank (c := ' ') (by decide))
    ⟨' ', [], rfl, by decide, by decide⟩).mono ?_
  rintro _ ⟨us, _, rfl, hus, rfl⟩
  rwa [List.append_nil]

theorem prints_spacedWord {w : Text} (hw : w ∈ keywords) :
    Prints false (" " ++ (w ++ " ")) (Single fun t => t.isWord w) := by
  refine ((prints_blank (c := ' ') (by decide)).append (prints_wordBlank hw)).mono ?_
  rintro _ ⟨_, us, rfl, rfl, hus⟩
  exact hus

end Prints

section Lists

variable {α β : Type} {item : α → List Token → Prop} {text : α → Text} {bare : α → β} {a : α}
  {as : List α}

/-- The tokens are those of items that are the given ones as far as `bare` tells. -/
def Same (group : List α → List Token → Prop) (bare : α → β) (as : List α) (ts : List Token) :
    Prop :=
  ∃ as', group as' ts ∧ as'.map bare = as.map bare

theorem prints_separator : Prints false ", " (Single fun t => t.isSymbol ",") := by
  refine (prints_comma.append (prints_blank (c := ' ') (by decide))).mono ?_
  rintro _ ⟨us, _, rfl, hus, rfl⟩
  rwa [List.append_nil]

theorem prints_one (ha : Prints true (text a) fun ts => ∃ a', item a' ts ∧ bare a' = bare a) :
    Prints true (Text.join ", " ([a].map text)) (Same (Listed item) bare [a]) := by
  have htext : Text.join ", " ([a].map text) = text a := List.intercalate_singleton
  rw [htext]
  refine ha.mono ?_
  rintro ts ⟨a', hitem, hbare⟩
  exact ⟨[a'], .one hitem, by rw [List.map_singleton, List.map_singleton, hbare]⟩

theorem prints_more (ha : Prints true (text a) fun ts => ∃ a', item a' ts ∧ bare a' = bare a)
    (hne : as ≠ []) (has : Prints true (Text.join ", " (as.map text)) (Same (Listed item) bare as)) :
    Prints true (Text.join ", " ((a :: as).map text)) (Same (Listed item) bare (a :: as)) := by
  have htext : Text.join ", " ((a :: as).map text) = text a ++ ", " ++ Text.join ", " (as.map text) :=
    List.intercalate_cons_of_ne_nil fun hnil => hne (List.map_eq_nil_iff.mp hnil)
  rw [htext]
  have hfront := ha.append_break prints_separator ⟨',', [' '], rfl, by decide, by decide⟩
  refine (hfront.append has).mono ?_
  rintro _ ⟨_, vs, rfl, ⟨us, _, rfl, ⟨a', hitem, hbare⟩, comma, rfl, hcomma⟩, as', hitems, hbares⟩
  refine ⟨a' :: as', ?_, by rw [List.map_cons, List.map_cons, hbare, hbares]⟩
  simpa using Listed.more hitem hcomma hitems

theorem prints_noItems : Prints false ("(" ++ (Text.join ", " (([] : List α).map text) ++ ")"))
    (Same (Parenthesized item) bare []) := by
  have htext : Text.join ", " (([] : List α).map text) = [] := rfl
  rw [htext, List.nil_append]
  refine (prints_open.append prints_close).mono ?_
  rintro _ ⟨_, _, rfl, ⟨l, rfl, hl⟩, r, rfl, hr⟩
  exact ⟨[], .none hl hr, rfl⟩

theorem prints_items (has : Prints true (Text.join ", " (as.map text)) (Same (Listed item) bare as)) :
    Prints false ("(" ++ (Text.join ", " (as.map text) ++ ")"))
      (Same (Parenthesized item) bare as) := by
  have hback := has.append_break prints_close ⟨')', [], rfl, by decide, by decide⟩
  refine (prints_open.append hback).mono ?_
  rintro _ ⟨_, _, rfl, ⟨l, rfl, hl⟩, us, _, rfl, ⟨as', hitems, hbare⟩, r, rfl, hr⟩
  exact ⟨as', .some hl hitems hr, hbare⟩

end Lists

def Variable.erase (v : Variable) : Variable := { v with token := {} }

mutual

/-- An expression without its tokens. -/
def Expr.erase : Expr → Expr
  | .literal _ value tag isBool => .literal {} value tag isBool
  | .var v => .var v.erase
  | .binary _ op left right => .binary {} op left.erase right.erase
  | .call _ name args => .call {} name (Expr.eraseAll args)
  | .missing => .missing

def Expr.eraseAll : List Expr → List Expr
  | [] => []
  | e :: es => e.erase :: Expr.eraseAll es

end

mutual

/-- A statement without its tokens. -/
def Stmt.erase : Stmt → Stmt
  | .assign _ target value => .assign {} target.erase value.erase
  | .block _ body => .block {} (Stmt.eraseAll body)
  | .ifThen _ cond body => .ifThen {} cond.erase body.erase
  | .ifElse _ cond body alternative => .ifElse {} cond.erase body.erase alternative.erase
  | .loop _ cond body => .loop {} cond.erase body.erase
  | .writeLn _ value => .writeLn {} value.erase
  | .readLn _ target => .readLn {} target.erase
  | .call _ name args => .call {} name (Expr.eraseAll args)
  | .declare _ name params body => .declare {} name (params.map Variable.erase) body.erase
  | .missing => .missing

def Stmt.eraseAll : List Stmt → List Stmt
  | [] => []
  | s :: ss => s.erase :: Stmt.eraseAll ss

end

section Expressions

open Token

variable {e left right : Expr} {es : List Expr} {t : Token} {us : List Token} {k : Nat}
  {P Q : List Token → Prop}

theorem Derives.climb_le {j : Nat} (h : Derives (.term j e) us) (hjk : j ≤ k) (hk : k ≤ 4) :
    Derives (.term k e) us := by
  induction k with
  | zero =>
    cases Nat.le_zero.mp hjk
    exact h
  | succ k ih =>
    rcases Nat.lt_or_eq_of_le hjk with hlt | rfl
    · exact .climb (by omega) (ih (by omega) (by omega))
    · exact h

theorem prints_name (ht : t.IsName) (hlexed : t.Lexed) :
    Prints true t.literal (Single fun u => u.IsName ∧ u.literal = t.literal) := by
  obtain ⟨w, hw, hliteral⟩ := hlexed
  rw [ht.1] at hw
  rw [hliteral]
  refine (prints_lexeme hw (by decide)).mono ?_
  rintro _ ⟨u, rfl, hu⟩
  obtain ⟨hkind, hspelled⟩ := shape_eq_iff.mp hu
  refine ⟨u, rfl, ⟨hkind, ?_⟩, hspelled⟩
  rw [hspelled, ← hliteral]
  exact ht.2

theorem decimal_toDigits (n : Nat) : decimal (Nat.toDigits 10 n) = n :=
  Nat.ofDigitChars_toDigits (by decide) (by decide)

theorem isLexeme_toDigits (n : Nat) : IsLexeme .number (Nat.toDigits 10 n) := by
  have hdigits : ∀ c ∈ Nat.toDigits 10 n, Source.isDigit c = true := by
    intro c hc
    have hdigit := Nat.isDigit_of_mem_toDigits (by decide) (by decide) hc
    simpa [Source.isDigit, Char.isDigit, Char.le_def] using hdigit
  cases hcs : Nat.toDigits 10 n with
  | nil => exact absurd hcs Nat.toDigits_ne_nil
  | cons c cs =>
    rw [hcs] at hdigits
    exact .number (hdigits c List.mem_cons_self) fun d hd => hdigits d (List.mem_cons_of_mem c hd)

theorem prints_number {n : Nat} (hn : n ≤ 2147483647) :
    Prints true (Numeral.ofWord (Int32.ofNat n)) (Single fun u => u.IsNumeral (Int32.ofNat n)) := by
  have htext : Numeral.ofWord (Int32.ofNat n) = Text.ofChars (Nat.toDigits 10 n) := by
    rw [Numeral.ofWord, Int32.toInt_ofNat_of_lt (by omega)]
    rfl
  rw [htext]
  refine (prints_lexeme (isLexeme_toDigits n) (by decide)).mono ?_
  rintro _ ⟨u, rfl, hu⟩
  obtain ⟨hkind, hliteral⟩ := shape_eq_iff.mp hu
  refine ⟨u, rfl, hkind, ?_⟩
  rw [hliteral, Text.chars_ofChars, decimal_toDigits]
  exact ⟨hn, rfl⟩

/-- The tokens are those of an operand that is the expression up to its tokens. -/
def Expr.Recovers (e : Expr) (ts : List Token) : Prop :=
  ∃ e', Derives (.term 0 e') ts ∧ e'.erase = e.erase

theorem Expr.renderAll_eq (es : List Expr) : Expr.renderAll es = es.map Expr.render := by
  induction es with
  | nil => rfl
  | cons e es ih => rw [Expr.renderAll, ih, List.map_cons]

theorem Expr.eraseAll_eq (es : List Expr) : Expr.eraseAll es = es.map Expr.erase := by
  induction es with
  | nil => rfl
  | cons e es ih => rw [Expr.eraseAll, ih, List.map_cons]

/-- The tokens are those of arguments that are the expressions up to their tokens. -/
def Expr.RecoverArguments (es : List Expr) (ts : List Token) : Prop :=
  Same (Parenthesized fun e us => Derives (.term 4 e) us) Expr.erase es ts

theorem prints_literal {n : Nat} {value : Int32} (hn : n ≤ 2147483647)
    (hvalue : value = Int32.ofNat n) :
    Prints true (Expr.literal t value .int false).render (Expr.literal t value .int false).Recovers := by
  rw [hvalue]
  refine (prints_number hn).mono ?_
  rintro _ ⟨u, rfl, hu⟩
  exact ⟨_, .number hu, rfl⟩

theorem prints_operator {op : Operator} (hop : op.rank ≠ 0) :
    Prints false (" " ++ (op.symbol ++ " ")) (Single fun u => u.Spells op) := by
  have hsymbol : op = .mod ∨ op ≠ .mod ∧ op.symbol ∈ symbols := by
    cases op <;> first | exact absurd rfl hop | decide
  rcases hsymbol with rfl | ⟨hmod, hmem⟩
  · refine (prints_spacedWord (by decide)).mono ?_
    rintro _ ⟨u, rfl, hu⟩
    obtain ⟨hkind, hliteral⟩ := isWord_iff.mp hu
    exact ⟨u, rfl, hliteral, hkind⟩
  · refine (prints_spaced hmem).mono ?_
    rintro _ ⟨u, rfl, hu⟩
    obtain ⟨hkind, hliteral⟩ := isSymbol_iff.mp hu
    exact ⟨u, rfl, hliteral, by rw [hkind, if_neg hmod]⟩

theorem prints_binary {op : Operator} (hop : op.rank = k + 1)
    (hleft : Prints true left.render left.Recovers) (hright : Prints true right.render right.Recovers) :
    Prints true (Expr.binary t op left right).render (Expr.binary t op left right).Recovers := by
  have htext : (Expr.binary t op left right).render =
      "(" ++ left.render ++ (" " ++ (op.symbol ++ " ")) ++ right.render ++ ")" := by
    simp only [Expr.render, List.append_assoc]
  have hk : k < 4 := by
    cases op <;> simp [Operator.rank] at hop <;> omega
  have hspelled : Prints false (" " ++ (op.symbol ++ " ")) _ := prints_operator (by omega)
  have hall := (((prints_open.append hleft).append_break hspelled ⟨' ', _, rfl, by decide, by decide⟩).append
    hright).append_break prints_close ⟨')', [], rfl, by decide, by decide⟩
  rw [htext]
  refine hall.expose.mono ?_
  rintro _ ⟨_, _, rfl, ⟨_, vs, rfl, ⟨_, _, rfl, ⟨_, us, rfl, ⟨l, rfl, hl⟩, left', hleft', heleft⟩,
    u, rfl, hu⟩, right', hright', heright⟩, r, rfl, hr⟩
  refine ⟨.binary u op left' right', ?_, by rw [Expr.erase, Expr.erase, heleft, heright]⟩
  have hbinary := Derives.binary hop (hleft'.climb_le (Nat.zero_le _) hk) hu
    (hright'.climb_le (Nat.zero_le _) (by omega))
  simpa using Derives.parens hl (hbinary.climb_le (by omega) (Nat.le_refl 4)) hr

/-- A name and its arguments. -/
theorem prints_application {name : Text} (hname : Prints true name P)
    (hargs : Prints false ("(" ++ (Text.join ", " (es.map Expr.render) ++ ")")) Q) :
    Prints false (Expr.call t name es).render (Then P Q) := by
  have htext : (Expr.call t name es).render =
      name ++ ("(" ++ (Text.join ", " (es.map Expr.render) ++ ")")) := by
    simp only [Expr.render, Expr.renderAll_eq, List.append_assoc]
  rw [htext]
  exact hname.append_break hargs ⟨'(', _, rfl, by decide, by decide⟩

theorem prints_call (ht : t.IsName) (hlexed : t.Lexed)
    (hargs : Prints false ("(" ++ (Text.join ", " (es.map Expr.render) ++ ")"))
      (Expr.RecoverArguments es)) :
    Prints true (Expr.call t t.literal es).render (Expr.call t t.literal es).Recovers := by
  refine (prints_application (prints_name ht hlexed) hargs).expose.mono ?_
  rintro _ ⟨_, us, rfl, ⟨u, rfl, hname, hliteral⟩, es', hderives, herase⟩
  refine ⟨.call u u.literal es', .call hname (Parser.derives_arguments hderives), ?_⟩
  rw [Expr.erase, Expr.erase, hliteral, Expr.eraseAll_eq, Expr.eraseAll_eq, herase]

theorem prints_var (ht : t.IsName) (hlexed : t.Lexed) :
    Prints true (Expr.var (Parser.variableOf t)).render (Expr.var (Parser.variableOf t)).Recovers := by
  refine (prints_name ht hlexed).mono ?_
  rintro _ ⟨u, rfl, hname, hliteral⟩
  refine ⟨.var (Parser.variableOf u), .var hname, ?_⟩
  simp [Expr.erase, Variable.erase, Parser.variableOf, hliteral]

theorem prints_truth (w : Text) (value : Int32)
    (hw : w ∈ keywords) (htext : (Expr.literal t value .int true).render = w)
    (hrule : ∀ u : Token, u.isWord w → Derives (.term 0 (.literal u value .int true)) [u]) :
    Prints true (Expr.literal t value .int true).render (Expr.literal t value .int true).Recovers := by
  rw [htext]
  refine (prints_word hw).mono ?_
  rintro _ ⟨u, rfl, hu⟩
  exact ⟨_, hrule u hu, rfl⟩

end Expressions

mutual

/-- Whether there is a call whose value is dropped. -/
def Stmt.hasCall : Stmt → Bool
  | .call .. => true
  | .block _ body => Stmt.hasCallAll body
  | .ifThen _ _ body => body.hasCall
  | .ifElse _ _ body alternative => body.hasCall || alternative.hasCall
  | .loop _ _ body => body.hasCall
  | .declare _ _ _ body => body.hasCall
  | .assign .. => false
  | .writeLn .. => false
  | .readLn .. => false
  | .missing => false

def Stmt.hasCallAll : List Stmt → Bool
  | [] => false
  | s :: ss => s.hasCall || Stmt.hasCallAll ss

end

/-- The words that can stand behind a closing parenthesis. -/
def Token.continuers : List Text := ["mod", "THEN", "DO", "TO"]

/-- The end of the text, or a word that cannot stand behind a closing parenthesis. -/
def Token.Halts (t : Token) : Prop :=
  t.kind = .eof ∨ t.kind = .identifier ∧ t.literal ∉ continuers

/-- The second token can stand behind the first one if that is a closing parenthesis. -/
def Token.Meets (t u : Token) : Prop := t.isSymbol ")" → ¬ u.Halts

/-- The tokens are those of a statement that is the given one up to its tokens, unless they lack the
semicolon of a call. Then they cannot stand in front of what stands behind a statement. -/
structure Stmt.Recovers (ending : Ending) (s : Stmt) (ts : List Token) : Prop where
  halts : ∃ t us, ts = t :: us ∧ t.Halts
  derives : s.hasCall = false → ∃ ending' s', Derives (.statement ending' s') ts ∧
    ending' ≠ .bare ∧ (ending = .closed → ending' = .closed) ∧ s'.erase = s.erase
  clashes : s.hasCall = true → ∀ t us, t.Halts → ¬ (ts ++ t :: us).IsChain Token.Meets

/-- The same of statements in turn. -/
structure Stmt.RecoverAll (ss : List Stmt) (ts : List Token) : Prop where
  halts : ∀ t us, t.Halts → ∃ u vs, ts ++ t :: us = u :: vs ∧ u.Halts
  derives : Stmt.hasCallAll ss = false → ∃ ss', Derives (.statements ss') ts ∧
    Stmt.eraseAll ss' = Stmt.eraseAll ss
  clashes : Stmt.hasCallAll ss = true → ∀ t us, t.Halts → ¬ (ts ++ t :: us).IsChain Token.Meets

section Statements

open Token

variable {e : Expr} {es : List Expr} {s s' : Stmt} {ss : List Stmt} {t v : Token} {ts us : List Token}
  {ending ending' : Ending}

theorem Token.IsName.halts (h : t.IsName) : t.Halts := by
  refine .inr ⟨h.1, fun hmem => ?_⟩
  have hkeywords : ∀ w ∈ continuers, isKeyword w = true := by decide
  exact h.literal_ne (hkeywords _ hmem) rfl

theorem Token.halts_of_isWord {w : Text} (h : t.isWord w) (hw : w ∉ continuers) : t.Halts := by
  obtain ⟨hkind, rfl⟩ := isWord_iff.mp h
  exact .inr ⟨hkind, hw⟩

theorem not_isChain_of_suffix {l l' : List Token} (h : ¬ l'.IsChain Meets) (hl : l' <:+ l) :
    ¬ l.IsChain Meets :=
  fun hchain => h (hchain.suffix hl)

theorem prints_assign (ht : t.IsName) (hlexed : t.Lexed) (he : Prints true e.render e.Recovers) :
    Prints false (Stmt.assign v (Parser.variableOf t) e).render
      ((Stmt.assign v (Parser.variableOf t) e).Recovers ending) := by
  have hsign : Prints false " := " _ := prints_spaced (w := ":=") (by decide)
  have hfront := (prints_name ht hlexed).append_break hsign ⟨' ', _, rfl, by decide, by decide⟩
  refine ((hfront.append he).append_break prints_semi ⟨';', [], rfl, by decide, by decide⟩).mono ?_
  rintro _ ⟨_, _, rfl, ⟨_, us, rfl, ⟨_, _, rfl, ⟨u, rfl, hname, hliteral⟩, sign, rfl, hsign⟩,
    e', hderives, herase⟩, semi, rfl, hsemi⟩
  refine ⟨⟨u, _, rfl, hname.halts⟩, fun _ => ?_, fun hcall => by cases hcall⟩
  have hassign := Derives.assign hname hsign (hderives.climb_le (Nat.zero_le 4) (Nat.le_refl 4)) hsemi
  refine ⟨.closed, _, by simpa using hassign, by decide, fun _ => rfl, ?_⟩
  simp [Stmt.erase, Variable.erase, Parser.variableOf, hliteral, herase]

theorem prints_callStatement (ht : t.IsName) (hlexed : t.Lexed)
    (hargs : Prints false ("(" ++ (Text.join ", " (es.map Expr.render) ++ ")"))
      (Expr.RecoverArguments es)) :
    Prints false (Stmt.call t t.literal es).render ((Stmt.call t t.literal es).Recovers ending) := by
  refine (prints_application (prints_name ht hlexed) hargs).mono ?_
  rintro _ ⟨_, us, rfl, ⟨u, rfl, hname, hliteral⟩, es', hargs, herase⟩
  refine ⟨⟨u, _, rfl, hname.halts⟩, fun hcall => (by cases hcall), fun _ w ws hw => ?_⟩
  obtain ⟨vs, r, rfl, hr⟩ : ∃ vs r, us = vs ++ [r] ∧ r.isSymbol ")" := by
    cases hargs with
    | @none l r hl hr => exact ⟨[l], r, rfl, hr⟩
    | @some l r as us hl has hr => exact ⟨l :: us, r, rfl, hr⟩
  have hclash : ¬ (r :: w :: ws).IsChain Meets :=
    fun hchain => (List.isChain_cons_cons.mp hchain).1 hr hw
  exact not_isChain_of_suffix hclash ⟨u :: vs, by simp⟩

theorem prints_writeLn (he : Prints true e.render e.Recovers) :
    Prints false (Stmt.writeLn t e).render ((Stmt.writeLn t e).Recovers ending) := by
  have hhead : Prints false "WRITELN(" _ := (prints_word (w := "WRITELN") (by decide)).append_break
    prints_open ⟨'(', [], rfl, by decide, by decide⟩
  have hback : Prints false ");" _ := prints_close.append prints_semi
  refine ((hhead.append he).append_break hback ⟨')', [';'], rfl, by decide, by decide⟩).mono ?_
  rintro _ ⟨_, _, rfl, ⟨_, us, rfl, ⟨_, _, rfl, ⟨u, rfl, hu⟩, l, rfl, hl⟩, e', hderives, herase⟩,
    _, _, rfl, ⟨r, rfl, hr⟩, semi, rfl, hsemi⟩
  refine ⟨⟨u, _, rfl, halts_of_isWord hu (by decide)⟩, fun _ => ?_, fun hcall => by cases hcall⟩
  have hwrite := Derives.writeLn hu hl (hderives.climb_le (Nat.zero_le 4) (Nat.le_refl 4)) hr hsemi
  refine ⟨.closed, _, by simpa using hwrite, by decide, fun _ => rfl, ?_⟩
  rw [Stmt.erase, Stmt.erase, herase]

theorem prints_readLn (hv : v.IsName) (hlexed : v.Lexed) :
    Prints false (Stmt.readLn t (Parser.variableOf v)).render
      ((Stmt.readLn t (Parser.variableOf v)).Recovers ending) := by
  have hhead : Prints false "READLN(" _ := (prints_word (w := "READLN") (by decide)).append_break
    prints_open ⟨'(', [], rfl, by decide, by decide⟩
  have hback : Prints false ");" _ := prints_close.append prints_semi
  refine ((hhead.append (prints_name hv hlexed)).append_break hback
    ⟨')', [';'], rfl, by decide, by decide⟩).mono ?_
  rintro _ ⟨_, _, rfl, ⟨_, _, rfl, ⟨_, _, rfl, ⟨u, rfl, hu⟩, l, rfl, hl⟩, x, rfl, hname, hliteral⟩,
    _, _, rfl, ⟨r, rfl, hr⟩, semi, rfl, hsemi⟩
  refine ⟨⟨u, _, rfl, halts_of_isWord hu (by decide)⟩, fun _ => ?_, fun hcall => by cases hcall⟩
  refine ⟨.closed, _, .readLn hu hl hname hr hsemi, by decide, fun _ => rfl, ?_⟩
  simp [Stmt.erase, Variable.erase, Parser.variableOf, hliteral]

theorem prints_block (hss : Prints false (Stmt.renderAll ss) (Stmt.RecoverAll ss)) :
    Prints false (Stmt.block t ss).render ((Stmt.block t ss).Recovers ending) := by
  have hhead : Prints false "BEGIN " _ := prints_wordBlank (w := "BEGIN") (by decide)
  have hback : Prints false "END;" _ := (prints_word (w := "END") (by decide)).append_break
    prints_semi ⟨';', [], rfl, by decide, by decide⟩
  refine ((hhead.append hss).append hback).mono ?_
  rintro _ ⟨_, _, rfl, ⟨_, us, rfl, ⟨u, rfl, hu⟩, hss⟩, _, _, rfl, ⟨final, rfl, hfinal⟩,
    semi, rfl, hsemi⟩
  refine ⟨⟨u, _, rfl, halts_of_isWord hu (by decide)⟩, fun hcall => ?_, fun hcall w ws hw => ?_⟩
  · obtain ⟨ss', hderives, herase⟩ := hss.derives hcall
    refine ⟨.closed, _, by simpa using Derives.block hu hderives hfinal hsemi, by decide,
      fun _ => rfl, ?_⟩
    rw [Stmt.erase, Stmt.erase, herase]
  · have hclash := hss.clashes hcall final (semi :: w :: ws) (halts_of_isWord hfinal (by decide))
    exact not_isChain_of_suffix hclash ⟨[u], by simp⟩

theorem prints_ifThen (he : Prints true e.render e.Recovers)
    (hs : Prints false s.render (s.Recovers ending)) :
    Prints false (Stmt.ifThen t e s).render ((Stmt.ifThen t e s).Recovers ending.unmatched) := by
  have hhead : Prints false "IF " _ := prints_wordBlank (w := "IF") (by decide)
  have hthen : Prints false " THEN " _ := prints_spacedWord (w := "THEN") (by decide)
  refine (((hhead.append he).append_break hthen ⟨' ', _, rfl, by decide, by decide⟩).append hs).mono ?_
  rintro _ ⟨_, vs, rfl, ⟨_, _, rfl, ⟨_, us, rfl, ⟨u, rfl, hu⟩, e', hderives, herase⟩,
    thenT, rfl, hthen⟩, hs⟩
  refine ⟨⟨u, _, rfl, halts_of_isWord hu (by decide)⟩, fun hcall => ?_, fun hcall w ws hw => ?_⟩
  · obtain ⟨ending', s', hbody, hbare, -, herase'⟩ := hs.derives hcall
    have hif := Derives.ifThen hu (hderives.climb_le (Nat.zero_le 4) (Nat.le_refl 4)) hthen hbody
    refine ⟨ending'.unmatched, _, by simpa using hif, mt Ending.unmatched_eq_bare.mp hbare,
      fun hclosed => ?_, by rw [Stmt.erase, Stmt.erase, herase, herase']⟩
    cases ending <;> cases hclosed
  · exact not_isChain_of_suffix (hs.clashes hcall w ws hw) ⟨u :: (us ++ [thenT]), by simp⟩

theorem prints_ifElse (he : Prints true e.render e.Recovers)
    (hs : Prints false s.render (s.Recovers .closed)) (hs' : Prints false s'.render (s'.Recovers ending)) :
    Prints false (Stmt.ifElse t e s s').render ((Stmt.ifElse t e s s').Recovers ending) := by
  have hhead : Prints false "IF " _ := prints_wordBlank (w := "IF") (by decide)
  have hthen : Prints false " THEN " _ := prints_spacedWord (w := "THEN") (by decide)
  have helse : Prints false " ELSE " _ := prints_spacedWord (w := "ELSE") (by decide)
  refine (((((hhead.append he).append_break hthen ⟨' ', _, rfl, by decide, by decide⟩).append hs).append
    helse).append hs').mono ?_
  rintro _ ⟨_, ws', rfl, ⟨_, _, rfl, ⟨_, vs, rfl, ⟨_, _, rfl, ⟨_, us, rfl, ⟨u, rfl, hu⟩,
    e', hderives, herase⟩, thenT, rfl, hthen⟩, hs⟩, elseT, rfl, helse⟩, hs'⟩
  refine ⟨⟨u, _, rfl, halts_of_isWord hu (by decide)⟩, fun hcall => ?_, fun hcall w ws hw => ?_⟩
  · rw [Stmt.hasCall, Bool.or_eq_false_iff] at hcall
    obtain ⟨_, body, hbody, -, hclosed, hebody⟩ := hs.derives hcall.1
    obtain ⟨ending', alternative, halternative, hbare, hending, healternative⟩ := hs'.derives hcall.2
    cases hclosed rfl
    have hif := Derives.ifElse hu (hderives.climb_le (Nat.zero_le 4) (Nat.le_refl 4)) hthen hbody helse
      halternative
    refine ⟨ending', _, by simpa using hif, hbare, hending, ?_⟩
    rw [Stmt.erase, Stmt.erase, herase, hebody, healternative]
  · rw [Stmt.hasCall, Bool.or_eq_true] at hcall
    rcases hcall with hcall | hcall
    · have hclash := hs.clashes hcall elseT (ws' ++ w :: ws) (halts_of_isWord helse (by decide))
      exact not_isChain_of_suffix hclash ⟨u :: (us ++ [thenT]), by simp⟩
    · exact not_isChain_of_suffix (hs'.clashes hcall w ws hw)
        ⟨u :: (us ++ thenT :: (vs ++ [elseT])), by simp⟩

theorem prints_loop (he : Prints true e.render e.Recovers)
    (hs : Prints false s.render (s.Recovers ending)) :
    Prints false (Stmt.loop t e s).render ((Stmt.loop t e s).Recovers ending) := by
  have hhead : Prints false "WHILE " _ := prints_wordBlank (w := "WHILE") (by decide)
  have hdo : Prints false " DO " _ := prints_spacedWord (w := "DO") (by decide)
  refine (((hhead.append he).append_break hdo ⟨' ', _, rfl, by decide, by decide⟩).append hs).mono ?_
  rintro _ ⟨_, vs, rfl, ⟨_, _, rfl, ⟨_, us, rfl, ⟨u, rfl, hu⟩, e', hderives, herase⟩,
    doT, rfl, hdo⟩, hs⟩
  refine ⟨⟨u, _, rfl, halts_of_isWord hu (by decide)⟩, fun hcall => ?_, fun hcall w ws hw => ?_⟩
  · obtain ⟨ending', s', hbody, hbare, hending, herase'⟩ := hs.derives hcall
    have hloop := Derives.loop hu (hderives.climb_le (Nat.zero_le 4) (Nat.le_refl 4)) hdo hbody
    refine ⟨ending', _, by simpa using hloop, hbare, hending, ?_⟩
    rw [Stmt.erase, Stmt.erase, herase, herase']
  · exact not_isChain_of_suffix (hs.clashes hcall w ws hw) ⟨u :: (us ++ [doT]), by simp⟩

theorem prints_parameters {params : List Variable} (h : Parenthesized IsParameter params us)
    (hlexed : ∀ u ∈ us, u.Lexed) :
    Prints false ("(" ++ (Text.join ", " (params.map Variable.name) ++ ")"))
      (Same (Parenthesized IsParameter) Variable.erase params) := by
  have hitem : ∀ {x : Variable} {vs : List Token}, IsParameter x vs → (∀ u ∈ vs, u.Lexed) →
      Prints true x.name fun ts => ∃ x', IsParameter x' ts ∧ x'.erase = x.erase := by
    rintro _ _ ⟨u, hu, rfl, rfl⟩ hlexed
    refine (prints_name hu (hlexed u List.mem_cons_self)).mono ?_
    rintro _ ⟨u', rfl, hname, hliteral⟩
    refine ⟨_, ⟨u', hname, rfl, rfl⟩, ?_⟩
    simp [Variable.erase, Parser.variableOf, hliteral]
  have hlisted : ∀ {xs : List Variable} {vs : List Token}, Listed IsParameter xs vs →
      (∀ u ∈ vs, u.Lexed) → xs ≠ [] ∧ Prints true (Text.join ", " (xs.map Variable.name))
        (Same (Listed IsParameter) Variable.erase xs) := by
    intro xs vs h hlexed
    induction h with
    | one hx => exact ⟨List.cons_ne_nil _ _, prints_one (hitem hx hlexed)⟩
    | more hx _ _ ih =>
      obtain ⟨hne, hxs⟩ := ih fun u hu => hlexed u (by simp [hu])
      exact ⟨List.cons_ne_nil _ _, prints_more (hitem hx fun u hu => hlexed u (by simp [hu])) hne hxs⟩
  cases h with
  | none _ _ => exact prints_noItems
  | some _ has _ => exact prints_items (hlisted has fun u hu => hlexed u (by simp [hu])).2

theorem prints_declare {called : Token} {params : List Variable} (hcalled : called.IsName)
    (hlexed : called.Lexed) (hparams : Parenthesized IsParameter params us)
    (hus : ∀ u ∈ us, u.Lexed) (hs : Prints false s.render (s.Recovers ending)) :
    Prints false (Stmt.declare t called.literal params s).render
      ((Stmt.declare t called.literal params s).Recovers ending) := by
  have htext : (Stmt.declare t called.literal params s).render = "PROCEDURE " ++ (called.literal ++
      ("(" ++ (Text.join ", " (params.map Variable.name) ++ ")"))) ++ "; " ++ s.render := by
    have hsplit : ("); " : Text) = ")" ++ "; " := rfl
    simp only [Stmt.render, renderHead, hsplit, List.append_assoc]
  have hhead : Prints false "PROCEDURE " _ := prints_wordBlank (w := "PROCEDURE") (by decide)
  have hname := (prints_name hcalled hlexed).append_break (prints_parameters hparams hus)
    ⟨'(', _, rfl, by decide, by decide⟩
  have hback : Prints false "; " _ := prints_semi.append (prints_blank (c := ' ') (by decide))
  rw [htext]
  refine (((hhead.append hname).append hback).append hs).mono ?_
  rintro _ ⟨_, ws', rfl, ⟨_, _, rfl, ⟨_, _, rfl, ⟨u, rfl, hu⟩, _, vs, rfl, ⟨c, rfl, hc, hliteral⟩,
    params', hparams', heparams⟩, _, _, rfl, ⟨semi, rfl, hsemi⟩, rfl⟩, hs⟩
  refine ⟨⟨u, _, rfl, halts_of_isWord hu (by decide)⟩, fun hcall => ?_, fun hcall w ws hw => ?_⟩
  · obtain ⟨ending', s', hbody, hbare, hending, herase⟩ := hs.derives hcall
    have hdeclare := Derives.declare hu hc hparams' hsemi hbody
    refine ⟨ending', _, by simpa using hdeclare, hbare, hending, ?_⟩
    rw [Stmt.erase, Stmt.erase, hliteral, heparams, herase]
  · exact not_isChain_of_suffix (hs.clashes hcall w ws hw) ⟨u :: c :: (vs ++ [semi]), by simp⟩

theorem prints_noStatements : Prints false (Stmt.renderAll []) (Stmt.RecoverAll []) := by
  refine prints_nil.mono ?_
  rintro _ rfl
  exact ⟨fun t us ht => ⟨t, us, rfl, ht⟩, fun _ => ⟨[], .noStatements, rfl⟩,
    fun hcall => by cases hcall⟩

/-- A statement with a blank behind it, and then more of them. -/
theorem prints_before {c : Char} {rest : Text} (hs : Prints false s.render (s.Recovers ending))
    (hc : Gap.isSpace c = true) (hss : Prints false rest (Stmt.RecoverAll ss)) :
    Prints false (s.render ++ [.char c] ++ rest) (Stmt.RecoverAll (s :: ss)) := by
  refine ((hs.append (prints_blank hc)).append hss).mono ?_
  rintro _ ⟨_, vs, rfl, ⟨us, _, rfl, hs, rfl⟩, hss⟩
  rw [List.append_nil]
  refine ⟨fun w ws hw => ?_, fun hcall => ?_, fun hcall w ws hw => ?_⟩
  · obtain ⟨u, us', rfl, hu⟩ := hs.halts
    exact ⟨u, _, rfl, hu⟩
  · rw [Stmt.hasCallAll, Bool.or_eq_false_iff] at hcall
    obtain ⟨ending', s', hderives, hbare, -, herase⟩ := hs.derives hcall.1
    obtain ⟨ss', hderives', herase'⟩ := hss.derives hcall.2
    refine ⟨s' :: ss', .statements hderives hbare hderives', ?_⟩
    rw [Stmt.eraseAll, Stmt.eraseAll, herase, herase']
  · rw [Stmt.hasCallAll, Bool.or_eq_true] at hcall
    rw [List.append_assoc]
    rcases hcall with hcall | hcall
    · obtain ⟨u, us', heq, hu⟩ := hss.halts w ws hw
      rw [heq]
      exact hs.clashes hcall u us' hu
    · exact not_isChain_of_suffix (hss.clashes hcall w ws hw) ⟨us, rfl⟩

theorem prints_statements (hs : Prints false s.render (s.Recovers ending))
    (hss : Prints false (Stmt.renderAll ss) (Stmt.RecoverAll ss)) :
    Prints false (Stmt.renderAll (s :: ss)) (Stmt.RecoverAll (s :: ss)) :=
  prints_before hs (c := ' ') (by decide) hss

/-- A counting loop prints as the statements it is made of. -/
theorem prints_forLoop {first last : Expr} (hv : v.IsName) (hlexed : v.Lexed)
    (hfirst : Prints true first.render first.Recovers) (hlast : Prints true last.render last.Recovers)
    (hs : Prints false s.render (s.Recovers ending)) :
    Prints false (Stmt.forLoop t (Parser.variableOf v) first last s).render
      ((Stmt.forLoop t (Parser.variableOf v) first last s).Recovers ending') := by
  have hassign : ∀ {x : Expr}, Prints true x.render x.Recovers →
      Prints false (Stmt.assign t (Parser.variableOf v) x).render
        ((Stmt.assign t (Parser.variableOf v) x).Recovers .closed) := prints_assign hv hlexed
  have hvar := prints_var hv hlexed
  have hone := prints_literal (t := { kind := .number, literal := "1" }) (n := 1) (by decide) rfl
  have hadd : Operator.add.rank = 1 + 1 := rfl
  have hle : Operator.le.rank = 2 + 1 := rfl
  have hnext := prints_binary (t := { kind := .operator, literal := "+" }) hadd hvar hone
  have hcond := prints_binary (t := { kind := .operator, literal := "<=" }) hle hvar hlast
  have hround := prints_statements hs (prints_statements (hassign hnext) prints_noStatements)
  have hbody : Prints false _ (Stmt.Recovers .closed _) := prints_block (t := t) hround
  have hloop := prints_loop (t := t) hcond hbody
  exact prints_block (prints_statements (hassign hfirst) (prints_statements hloop prints_noStatements))

end Statements

/-- How the tree of a phrase prints. -/
def Phrase.Prints : Phrase → Prop
  | .term _ e => MiniPascal.Prints true e.render e.Recovers
  | .items es => es ≠ [] ∧ MiniPascal.Prints true (Text.join ", " (es.map Expr.render))
    (Same (Listed fun e us => Derives (.term 4 e) us) Expr.erase es)
  | .arguments es =>
    MiniPascal.Prints false ("(" ++ (Text.join ", " (es.map Expr.render) ++ ")")) (Expr.RecoverArguments es)
  | .statement ending s => MiniPascal.Prints false s.render (s.Recovers ending)
  | .statements ss => MiniPascal.Prints false (Stmt.renderAll ss) (Stmt.RecoverAll ss)

theorem Expr.Recovers.exists_term {e : Expr} {ts : List Token} (h : e.Recovers ts) :
    ∃ e', Derives (.term 4 e') ts ∧ e'.erase = e.erase := by
  obtain ⟨e', hderives, herase⟩ := h
  exact ⟨e', hderives.climb_le (Nat.zero_le 4) (Nat.le_refl 4), herase⟩

theorem prints_of_derives {p : Phrase} {ts : List Token} (h : Derives p ts)
    (hlexed : ∀ t ∈ ts, t.Lexed) : p.Prints := by
  induction h with
  | number ht => exact prints_literal ht.2.1 ht.2.2
  | trueWord _ => exact prints_truth "True" 1 (by decide) rfl fun _ hu => .trueWord hu
  | falseWord _ => exact prints_truth "False" 0 (by decide) rfl fun _ hu => .falseWord hu
  | var ht => exact prints_var ht (hlexed _ List.mem_cons_self)
  | call ht _ ih =>
    exact prints_call ht (hlexed _ List.mem_cons_self) (ih fun u hu => hlexed u (by simp [hu]))
  | parens _ _ _ ih => exact ih fun u hu => hlexed u (by simp [hu])
  | minus _ _ ih =>
    exact prints_binary (k := 1) rfl (prints_literal (n := 0) (by decide) rfl)
      (ih fun u hu => hlexed u (by simp [hu]))
  | climb _ _ ih => exact ih hlexed
  | binary hop _ _ _ ihl ihr =>
    exact prints_binary hop (ihl fun u hu => hlexed u (by simp [hu]))
      (ihr fun u hu => hlexed u (by simp [hu]))
  | item _ ih => exact ⟨List.cons_ne_nil _ _, prints_one ((ih hlexed).mono fun _ h => h.exists_term)⟩
  | items _ _ _ ihe ihes =>
    obtain ⟨hne, hes⟩ := ihes fun u hu => hlexed u (by simp [hu])
    have he := ihe fun u hu => hlexed u (by simp [hu])
    exact ⟨List.cons_ne_nil _ _, prints_more (he.mono fun _ h => h.exists_term) hne hes⟩
  | noArguments _ _ => exact prints_noItems
  | arguments _ _ _ ih => exact prints_items (ih fun u hu => hlexed u (by simp [hu])).2
  | assign ht _ _ _ ih =>
    exact prints_assign ht (hlexed _ List.mem_cons_self) (ih fun u hu => hlexed u (by simp [hu]))
  | callStatement ht _ _ ih =>
    exact prints_callStatement ht (hlexed _ List.mem_cons_self) (ih fun u hu => hlexed u (by simp [hu]))
  | writeLn _ _ _ _ _ ih => exact prints_writeLn (ih fun u hu => hlexed u (by simp [hu]))
  | readLn _ _ hv _ _ => exact prints_readLn hv (hlexed _ (by simp))
  | block _ _ _ _ ih => exact prints_block (ih fun u hu => hlexed u (by simp [hu]))
  | bareBlock _ _ _ ih => exact prints_block (ih fun u hu => hlexed u (by simp [hu]))
  | ifThen _ _ _ _ ihe ihs =>
    exact prints_ifThen (ihe fun u hu => hlexed u (by simp [hu])) (ihs fun u hu => hlexed u (by simp [hu]))
  | ifElse _ _ _ _ _ _ ihe ihs ihs' =>
    exact prints_ifElse (ihe fun u hu => hlexed u (by simp [hu]))
      (ihs fun u hu => hlexed u (by simp [hu])) (ihs' fun u hu => hlexed u (by simp [hu]))
  | loop _ _ _ _ ihe ihs =>
    exact prints_loop (ihe fun u hu => hlexed u (by simp [hu])) (ihs fun u hu => hlexed u (by simp [hu]))
  | forLoop _ hv _ _ _ _ _ _ ihfirst ihlast ihbody =>
    exact prints_forLoop hv (hlexed _ (by simp)) (ihfirst fun u hu => hlexed u (by simp [hu]))
      (ihlast fun u hu => hlexed u (by simp [hu])) (ihbody fun u hu => hlexed u (by simp [hu]))
  | declare _ hcalled hparams _ _ ih =>
    exact prints_declare hcalled (hlexed _ (by simp)) hparams (fun u hu => hlexed u (by simp [hu]))
      (ih fun u hu => hlexed u (by simp [hu]))
  | noStatements => exact prints_noStatements
  | statements _ _ _ ihs ihss =>
    exact prints_statements (ihs fun u hu => hlexed u (by simp [hu]))
      (ihss fun u hu => hlexed u (by simp [hu]))

end MiniPascal
