import MiniPascal.Proofs.Identifiers
import MiniPascal.Proofs.Reading

/-! What the grammar derives is parsed. With what is known of the tokens that are read, a text holds a
program if and only if its tokens are derived from one, and it holds only that one. -/

namespace MiniPascal

namespace Parser

section Takes

variable {α β : Type}

/-- In front of the token `next`, a parser takes the tokens `us` and returns `a`. -/
def Takes (x : Parser α) (us : List Token) (next : Token) (a : α) : Prop :=
  ∀ r s : State, r.Scanned → Reads r us s → s.current = next → x r = .ok a s

variable {x : Parser α} {f : α → Parser β} {us vs : List Token} {t next : Token} {a : α} {b : β}
  {r s : State}

theorem Reads.split (h : Reads r (us ++ vs) s) : ∃ m, Reads r us m ∧ Reads m vs s := by
  generalize hts : us ++ vs = ts at h
  induction h generalizing us with
  | nil =>
    obtain ⟨rfl, rfl⟩ := List.append_eq_nil_iff.mp hts
    exact ⟨_, .nil, .nil⟩
  | cons hkind hadvance h ih =>
    cases us with
    | nil =>
      rw [List.nil_append] at hts
      subst hts
      exact ⟨_, .nil, .cons hkind hadvance h⟩
    | cons u us =>
      obtain ⟨rfl, hrest⟩ := List.cons.inj hts
      obtain ⟨m, hm, hs⟩ := ih hrest
      exact ⟨m, .cons hkind hadvance hm, hs⟩

theorem Reads.current_eq (h : Reads r (t :: us) s) : r.current = t := by
  cases h
  rfl

theorem takes_pure : Takes (pure a) [] next a := by
  intro r s _ hus _
  cases hus
  rfl

theorem Takes.bind_of_forall (hx : ∀ u, Takes x us u a) (hf : Takes (f a) vs next b) :
    Takes (x >>= f) (us ++ vs) next b := by
  intro r s hr hreads hnext
  obtain ⟨m, hus, hvs⟩ := hreads.split
  have hrun := hx m.current r m hr hus rfl
  rw [bind_of_ok hrun]
  exact hf m s (hus.scanned hr) hvs hnext

theorem Takes.bind (hx : Takes x us t a) (hf : Takes (f a) (t :: vs) next b) :
    Takes (x >>= f) (us ++ t :: vs) next b := by
  intro r s hr hreads hnext
  obtain ⟨m, hus, hvs⟩ := hreads.split
  have hrun := hx r m hr hus hvs.current_eq
  rw [bind_of_ok hrun]
  exact hf m s (hus.scanned hr) hvs hnext

theorem Takes.bind_nil (hx : Takes x us next a) (hf : Takes (f a) [] next b) :
    Takes (x >>= f) us next b := by
  intro r s hr hus hnext
  have hrun := hx r s hr hus hnext
  rw [bind_of_ok hrun]
  exact hf s s (hus.scanned hr) .nil hnext

theorem takes_current {f : Token → Parser β} (hf : Takes (f t) (t :: us) next b) :
    Takes (current >>= f) (t :: us) next b := by
  intro r s hr hus hnext
  rw [current_bind, hus.current_eq]
  exact hf r s hr hus hnext

theorem takes_current_nil {f : Token → Parser β} (hf : Takes (f next) [] next b) :
    Takes (current >>= f) [] next b := by
  intro r s hr hus hnext
  have hcurrent : r.current = next := by
    cases hus
    exact hnext
  rw [current_bind, hcurrent]
  exact hf r s hr hus hnext

theorem takes_advance {f : Unit → Parser β} (hf : Takes (f ()) us next b) :
    Takes (advance >>= f) (t :: us) next b := by
  intro r s hr hus hnext
  cases hus with
  | cons hkind hadvance h =>
    rw [bind_of_ok hadvance]
    exact hf _ s (hr.advance hadvance) h hnext

theorem takes_expect {f : Token → Parser β} {l : Text} (ht : t.literal = l)
    (hf : Takes (f t) us next b) : Takes (expect l >>= f) (t :: us) next b := by
  have hexpect : ∀ u, Takes (expect l) [t] u t := by
    intro u
    refine takes_current ?_
    rw [if_pos ht]
    exact takes_advance takes_pure
  exact Takes.bind_of_forall hexpect hf

theorem takes_symbol {f : Token → Parser β} {l : Text} (ht : t.isSymbol l)
    (hf : Takes (f t) us next b) : Takes (expect l >>= f) (t :: us) next b :=
  takes_expect (Token.isSymbol_iff.mp ht).2 hf

theorem takes_word {f : Token → Parser β} {l : Text} (ht : t.isWord l)
    (hf : Takes (f t) us next b) : Takes (expect l >>= f) (t :: us) next b :=
  takes_expect (Token.isWord_iff.mp ht).2 hf

theorem takes_name {f : Token → Parser β} {role : Role} (ht : t.IsName)
    (hf : Takes (f t) us next b) : Takes (name role >>= f) (t :: us) next b := by
  have hname : ∀ u, Takes (name role) [t] u t := by
    intro u
    refine takes_current ?_
    simp only [ht.1, ht.2, ne_eq, not_true_eq_false, Bool.false_eq_true, if_false]
    exact takes_advance takes_pure
  exact Takes.bind_of_forall hname hf

theorem takes_variableName {f : Variable → Parser β} (ht : t.IsName)
    (hf : Takes (f (variableOf t)) us next b) : Takes (variableName >>= f) (t :: us) next b := by
  have hvariable : ∀ u, Takes variableName [t] u (variableOf t) := fun u => takes_name ht takes_pure
  exact Takes.bind_of_forall hvariable hf

end Takes

section Items

variable {α : Type} {item : Parser α} {P : α → List Token → Prop} {n k : Nat} {as : List α}
  {us : List Token} {next : Token}

/-- A parser takes the items that `P` describes, up to the given number of tokens. -/
def TakesItems (item : Parser α) (P : α → List Token → Prop) (n : Nat) : Prop :=
  ∀ a us next, P a us → us.length ≤ n → (next.isSymbol "," ∨ next.isSymbol ")") →
    Takes item us next a

theorem takes_moreItems_nil (hnext : next.isSymbol "," = false) :
    Takes (moreItems item k) [] next [] := by
  cases k with
  | zero => exact takes_pure
  | succ k =>
    refine takes_current_nil ?_
    simp only [hnext, Bool.false_eq_true, if_false]
    exact takes_pure

theorem not_comma_of_paren (h : next.isSymbol ")") : next.isSymbol "," = false :=
  Token.not_isSymbol_of_ne h (by decide)

theorem takes_moreItems (hitem : TakesItems item P n) (has : Listed P as us)
    (hnext : next.isSymbol ")") (hn : us.length ≤ n) (hk : us.length < k) {comma : Token}
    (hcomma : comma.isSymbol ",") : Takes (moreItems item k) (comma :: us) next as := by
  induction has generalizing k comma with
  | one ha =>
    cases k with
    | zero => omega
    | succ k =>
      refine takes_current ?_
      simp only [hcomma, if_true]
      refine takes_advance ((hitem _ _ _ ha hn (.inr hnext)).bind_nil ?_)
      exact (takes_moreItems_nil (not_comma_of_paren hnext)).bind_nil takes_pure
  | more ha hcomma' _ ih =>
    simp only [List.length_append, List.length_cons] at hn hk
    cases k with
    | zero => omega
    | succ k =>
      refine takes_current ?_
      simp only [hcomma, if_true]
      refine takes_advance ((hitem _ _ _ ha (by omega) (.inl hcomma')).bind ?_)
      exact (ih (by omega) (by omega) hcomma').bind_nil takes_pure

theorem takes_itemList (hitem : TakesItems item P n)
    (hhead : ∀ a us, P a us → ∃ t vs, us = t :: vs ∧ t.isSymbol ")" = false)
    (has : Parenthesized P as us) (hn : us.length ≤ n) : Takes (itemList item n) us next as := by
  cases has with
  | none hl hr =>
    refine takes_symbol hl (takes_current ?_)
    simp only [hr, if_true]
    exact takes_symbol hr takes_pure
  | @some l r as us hl has hr =>
    simp only [List.length_cons, List.length_append, List.length_nil] at hn
    refine takes_symbol hl ?_
    cases has with
    | one ha =>
      obtain ⟨t, vs, rfl, ht⟩ := hhead _ _ ha
      refine takes_current ?_
      simp only [ht, Bool.false_eq_true, if_false]
      refine (hitem _ _ _ ha (by omega) (.inr hr)).bind ?_
      refine (takes_moreItems_nil (not_comma_of_paren hr)).bind ?_
      exact takes_symbol hr takes_pure
    | @more a as comma us vs ha hcomma has =>
      obtain ⟨t, ws, rfl, ht⟩ := hhead _ _ ha
      simp only [List.length_append, List.length_cons] at hn
      rw [List.append_assoc, List.cons_append]
      refine takes_current ?_
      simp only [ht, Bool.false_eq_true, if_false]
      refine (hitem _ _ _ ha (by simp only [List.length_cons]; omega) (.inl hcomma)).bind ?_
      refine (takes_moreItems hitem has hr (by omega) (by omega) hcomma).bind ?_
      exact takes_symbol hr takes_pure

theorem takesItems_variableName (n : Nat) : TakesItems variableName IsParameter n := by
  rintro v us next ⟨t, ht, rfl, rfl⟩ - -
  exact takes_name ht takes_pure

end Items

section Expressions

variable {n k : Nat} {level : List (Text × Operator)} {e : Expr} {us : List Token} {t next : Token}

/-- The parser of the terms of a rank. -/
def terms (n k : Nat) : Parser Expr := (levels.take k).foldl (binaryLevel n) (factor n)

theorem terms_succ (hk : levels[k]? = some level) :
    terms n (k + 1) = binaryLevel n (terms n k) level := by
  rw [terms, List.take_add_one, List.foldl_append, hk]
  rfl

/-- A token that goes on with no term of a rank: neither does it open arguments, nor is it an operator
that binds as tight. -/
def Follows (k : Nat) (t : Token) : Prop :=
  t.isSymbol "(" = false ∧ ∀ j < k, ∀ level, levels[j]? = some level → operatorAmong level t = none

theorem Follows.mono {j : Nat} (h : Follows k t) (hj : j ≤ k) : Follows j t :=
  ⟨h.1, fun i hi => h.2 i (by omega)⟩

theorem follows_of_literal {w : Text} (ht : t.literal = w) (hparen : w ≠ "(")
    (hw : ∀ level ∈ levels, level.lookup w = none) (k : Nat) : Follows k t := by
  refine ⟨by simp [Token.isSymbol, ht, hparen], fun j _ level hlevel => ?_⟩
  rw [operatorAmong, ht, hw level (List.mem_of_getElem? hlevel), ite_self]

theorem follows_of_isSymbol {w : Text} (ht : t.isSymbol w) (hparen : w ≠ "(")
    (hw : ∀ level ∈ levels, level.lookup w = none) (k : Nat) : Follows k t :=
  follows_of_literal (Token.isSymbol_iff.mp ht).2 hparen hw k

theorem follows_of_isWord {w : Text} (ht : t.isWord w) (hparen : w ≠ "(")
    (hw : ∀ level ∈ levels, level.lookup w = none) (k : Nat) : Follows k t :=
  follows_of_literal (Token.isWord_iff.mp ht).2 hparen hw k

theorem mem_all_of_rank {op : Operator} (h : op.rank ≠ 0) : op ∈ Operator.all := by
  cases op <;> first | exact absurd rfl h | decide

theorem symbol_injective {op op' : Operator} (h : op.symbol = op'.symbol) (hop : op.rank ≠ 0)
    (hop' : op'.rank ≠ 0) : op = op' := by
  have hall : ∀ a ∈ Operator.all, ∀ b ∈ Operator.all, a.symbol = b.symbol → a = b := by decide
  exact hall op (mem_all_of_rank hop) op' (mem_all_of_rank hop') h

theorem symbol_ne_paren {op : Operator} (hop : op.rank ≠ 0) : op.symbol ≠ "(" := by
  cases op <;> first | exact absurd rfl hop | decide

theorem follows_of_spells {op : Operator} (ht : t.Spells op) (hop : op.rank = k + 1) :
    Follows k t := by
  have hne : op.rank ≠ 0 := by omega
  refine ⟨by simp [Token.isSymbol, ht.1, symbol_ne_paren hne], fun j hj level hlevel => ?_⟩
  rw [operatorAmong]
  split
  · cases hlookup : level.lookup t.literal with
    | none => rfl
    | some op' =>
      obtain ⟨hsymbol, hrank⟩ := spells_of_mem_level hlevel (mem_of_lookup_eq_some hlookup)
      have heq := symbol_injective (ht.1.symm.trans hsymbol) hne (by omega)
      subst heq
      omega
  · rfl

theorem operatorAmong_of_spells {op : Operator} (ht : t.Spells op) (hop : op.rank = k + 1)
    (hk : levels[k]? = some level) : operatorAmong level t = some op := by
  have hkind : (t.kind = .operator || t.isWord "mod") = true := by
    rw [Bool.or_eq_true, decide_eq_true_eq, Token.isWord_iff]
    by_cases hmod : op = .mod
    · subst hmod
      exact .inr ⟨ht.2, ht.1⟩
    · exact .inl (ht.2.trans (if_neg hmod))
  rw [operatorAmong, if_pos hkind, ht.1]
  have hall : ∀ i < 4, ∀ level ∈ levels[i]?, ∀ op ∈ Operator.all, op.rank = i + 1 →
      level.lookup op.symbol = some op := by decide
  have hlt : k < 4 := (List.getElem?_eq_some_iff.mp hk).1
  exact hall k hlt level hk op (mem_all_of_rank (by omega)) hop

/-- The tokens of a term are parsed. For a rank above 0 the operators of that rank may follow; then
the parser has got to the point where it folds them to the left. -/
def ParsesTerm : Nat → Expr → List Token → Prop
  | 0, e, us => ∀ n next, us.length ≤ n → next.isSymbol "(" = false → Takes (factor n) us next e
  | k + 1, e, us => ∀ n next level, us.length ≤ n → Follows k next → levels[k]? = some level →
    ∃ m, n ≤ m + us.length ∧ ∀ r s : State, r.Scanned → Reads r us s → s.current = next →
      terms n (k + 1) r = foldLevel level (terms n k) m e s

theorem foldLevel_eq {operand : Parser Expr} {m : Nat} {s : State} (hs : s.Scanned)
    (hnone : operatorAmong level s.current = none) : foldLevel level operand m e s = .ok e s := by
  have hlook : Takes (foldLevel level operand m e) [] s.current e := by
    cases m with
    | zero => exact takes_pure
    | succ m =>
      refine takes_current_nil ?_
      simp only [hnone]
      exact takes_pure
  exact hlook s s hs .nil rfl

theorem takes_terms (hk : k ≤ 4) (h : ParsesTerm k e us) (hn : us.length ≤ n)
    (hnext : Follows k next) : Takes (terms n k) us next e := by
  cases k with
  | zero => exact h n next hn hnext.1
  | succ k =>
    have hlevel : levels[k]? = some (levels.get ⟨k, hk⟩) := List.getElem?_eq_getElem hk
    obtain ⟨m, -, hrun⟩ := h n next _ hn (hnext.mono (by omega)) hlevel
    intro r s hr hus hs
    rw [hrun r s hr hus hs]
    refine foldLevel_eq (hus.scanned hr) ?_
    rw [hs]
    exact hnext.2 k (by omega) _ hlevel

theorem takes_expression (h : ParsesTerm 4 e us) (hn : us.length ≤ n) (hnext : Follows 4 next) :
    Takes (expression n) us next e := takes_terms (Nat.le_refl 4) h hn hnext

theorem parsesTerm_climb (hk : k < 4) (h : ParsesTerm k e us) : ParsesTerm (k + 1) e us := by
  intro n next level hn hnext hlevel
  refine ⟨n, by omega, fun r s hr hus hs => ?_⟩
  have hrun := takes_terms (by omega) h hn hnext r s hr hus hs
  rw [terms_succ hlevel, binaryLevel, bind_of_ok hrun]

theorem parsesTerm_binary {op : Operator} {left right : Expr} {vs : List Token}
    (hop : op.rank = k + 1) (hk : k < 4) (hleft : ParsesTerm (k + 1) left us) (ht : t.Spells op)
    (hright : ParsesTerm k right vs) : ParsesTerm (k + 1) (.binary t op left right) (us ++ t :: vs) := by
  intro n next level hn hnext hlevel
  simp only [List.length_append, List.length_cons] at hn ⊢
  obtain ⟨m, hm, hrun⟩ := hleft n t level (by omega) (follows_of_spells ht hop) hlevel
  cases m with
  | zero => omega
  | succ m =>
    refine ⟨m, by omega, fun r s hr hreads hs => ?_⟩
    obtain ⟨s', hus, hvs⟩ := hreads.split
    rw [hrun r s' hr hus hvs.current_eq]
    have hs' := hus.scanned hr
    have hoperator := operatorAmong_of_spells ht hop hlevel
    have hcurrent := hvs.current_eq
    cases hvs with
    | @cons _ s'' _ _ hkind hadvance hvs =>
      have hoperand : terms n k s'' = .ok right s :=
        takes_terms (by omega) hright (by omega) hnext s'' s (hs'.advance hadvance) hvs hs
      rw [foldLevel, current_bind]
      simp only [hoperator]
      rw [bind_of_ok hadvance, bind_of_ok hoperand]

theorem Takes.of_lexed {α : Type} {x : Parser α} {a : α}
    (h : (∀ u ∈ us, u.Lexed) → Takes x us next a) : Takes x us next a :=
  fun r s hr hus hs => h (hus.lexed hr) r s hr hus hs

theorem parsesTerm_number {value : Int32} (ht : t.IsNumeral value) :
    ParsesTerm 0 (.literal t value .int false) [t] := by
  intro n next hn _
  cases n with
  | zero => simp at hn
  | succ n =>
    refine Takes.of_lexed fun hlexed => takes_current ?_
    have hread := ((hlexed t List.mem_cons_self).readWord?_eq_some_iff ht.1).mpr ht
    simp only [ht.1]
    refine takes_current ?_
    simp only [hread]
    exact takes_advance takes_pure

theorem takes_truth (value : Int32) : Takes (truth value) [t] next (.literal t value .int true) :=
  takes_current (takes_advance takes_pure)

theorem parsesTerm_true (ht : t.isWord "True") : ParsesTerm 0 (.literal t 1 .int true) [t] := by
  obtain ⟨hkind, hliteral⟩ := Token.isWord_iff.mp ht
  intro n next hn _
  cases n with
  | zero => simp at hn
  | succ n =>
    refine takes_current ?_
    simp only [hkind]
    rw [if_pos hliteral]
    exact takes_truth 1

theorem parsesTerm_false (ht : t.isWord "False") : ParsesTerm 0 (.literal t 0 .int true) [t] := by
  obtain ⟨hkind, hliteral⟩ := Token.isWord_iff.mp ht
  have htrue : ¬ t.literal = "True" := by
    rw [hliteral]
    decide
  intro n next hn _
  cases n with
  | zero => simp at hn
  | succ n =>
    refine takes_current ?_
    simp only [hkind]
    rw [if_neg htrue, if_pos hliteral]
    exact takes_truth 0

theorem takes_factor_name (ht : t.IsName)
    (h : Takes (reference n (expression n)) (t :: us) next e) :
    Takes (factor (n + 1)) (t :: us) next e := by
  refine takes_current ?_
  simp only [ht.1]
  rw [if_neg (ht.literal_ne (by decide)), if_neg (ht.literal_ne (by decide))]
  exact h

theorem parsesTerm_var (ht : t.IsName) : ParsesTerm 0 (.var (variableOf t)) [t] := by
  intro n next hn hnext
  cases n with
  | zero => simp at hn
  | succ n =>
    refine takes_factor_name ht (takes_name ht (takes_current_nil ?_))
    simp only [hnext, Bool.false_eq_true, if_false]
    exact takes_pure

/-- An expression whose tokens are derived and parsed. -/
def IsParsed (e : Expr) (us : List Token) : Prop := Derives (.term 4 e) us ∧ ParsesTerm 4 e us

theorem takes_arguments {args : List Expr} (h : Parenthesized IsParsed args us)
    (hn : us.length ≤ n) : Takes (itemList (expression n) n) us next args := by
  refine takes_itemList (fun e us next he hus hnext => ?_) (fun e us he => ?_) h hn
  · refine takes_expression he.2 hus ?_
    rcases hnext with hnext | hnext
    · exact follows_of_isSymbol hnext (by decide) (by decide) 4
    · exact follows_of_isSymbol hnext (by decide) (by decide) 4
  · exact he.1.exists_starts fun ss hss => by cases hss

theorem isSymbol_of_parenthesized {args : List Expr} (h : Parenthesized IsParsed args us) :
    ∃ l vs, us = l :: vs ∧ l.isSymbol "(" := by
  cases h with
  | none hl hr => exact ⟨_, _, rfl, hl⟩
  | some hl _ _ => exact ⟨_, _, rfl, hl⟩

theorem parsesTerm_call {args : List Expr} (ht : t.IsName) (h : Parenthesized IsParsed args us) :
    ParsesTerm 0 (.call t t.literal args) (t :: us) := by
  intro n next hn _
  obtain ⟨l, vs, rfl, hl⟩ := isSymbol_of_parenthesized h
  simp only [List.length_cons] at hn
  cases n with
  | zero => omega
  | succ n =>
    refine takes_factor_name ht (takes_name ht (takes_current ?_))
    simp only [hl, if_true]
    exact (takes_arguments h (by simp only [List.length_cons]; omega)).bind_nil takes_pure

theorem parsesTerm_parens {l r : Token} (hl : l.isSymbol "(") (he : ParsesTerm 4 e us)
    (hr : r.isSymbol ")") : ParsesTerm 0 e (l :: (us ++ [r])) := by
  intro n next hn _
  obtain ⟨hkind, hliteral⟩ := Token.isSymbol_iff.mp hl
  simp only [List.length_cons, List.length_append, List.length_nil] at hn
  cases n with
  | zero => omega
  | succ n =>
    refine takes_current ?_
    simp only [hkind]
    rw [if_pos hliteral]
    have hexpr := takes_expression he (n := n) (by omega)
      (follows_of_isSymbol hr (by decide) (by decide) 4)
    exact takes_advance (hexpr.bind (takes_symbol hr takes_pure))

theorem parsesTerm_minus (ht : t.isSymbol "-") (he : ParsesTerm 0 e us) :
    ParsesTerm 0 (.binary t .sub (.literal t 0 .int false) e) (t :: us) := by
  intro n next hn hnext
  obtain ⟨hkind, hliteral⟩ := Token.isSymbol_iff.mp ht
  have hparen : ¬ t.literal = "(" := by
    rw [hliteral]
    decide
  simp only [List.length_cons] at hn
  cases n with
  | zero => omega
  | succ n =>
    refine takes_current ?_
    simp only [hkind]
    rw [if_neg hparen, if_pos hliteral]
    exact takes_advance ((he n next (by omega) hnext).bind_nil takes_pure)

end Expressions

section Statements

open Token

variable {n k : Nat} {e : Expr} {s : Stmt} {ending : Ending} {us vs ws : List Token}
  {t semi next : Token}

/-- The tokens of a statement are parsed. -/
def ParsesStatement (ending : Ending) (s : Stmt) (us : List Token) : Prop :=
  ∀ n next, us.length ≤ n → ending.Allows next → Takes (statement n) us next s

theorem follows_semi (h : semi.isSymbol ";") : Follows 4 semi :=
  follows_of_isSymbol h (by decide) (by decide) 4

theorem follows_paren (h : t.isSymbol ")") : Follows 4 t :=
  follows_of_isSymbol h (by decide) (by decide) 4

theorem takes_statement_name (ht : t.IsName) (h : Takes (assignOrCall n) (t :: us) next s) :
    Takes (statement (n + 1)) (t :: us) next s := by
  refine takes_current ?_
  rw [if_neg (ht.not_isWord (by decide)), if_neg (ht.not_isWord (by decide)),
    if_neg (ht.not_isWord (by decide)), if_neg (ht.not_isWord (by decide)),
    if_neg (ht.not_isWord (by decide)), if_neg (ht.not_isWord (by decide)),
    if_neg (ht.not_isWord (by decide))]
  exact h

theorem parsesStatement_assign {sign : Token} (ht : t.IsName) (hsign : sign.isSymbol ":=")
    (he : ParsesTerm 4 e us) (hsemi : semi.isSymbol ";") :
    ParsesStatement .closed (.assign sign (variableOf t) e) (t :: sign :: (us ++ [semi])) := by
  intro n next hn _
  simp only [List.length_cons, List.length_append, List.length_nil] at hn
  cases n with
  | zero => omega
  | succ n =>
    have hexpr := takes_expression he (n := n) (by omega) (follows_semi hsemi)
    refine takes_statement_name ht (takes_current ?_)
    simp only [ht.1, ht.2, ne_eq, not_true_eq_false, decide_false, Bool.or_false, Bool.false_eq_true,
      if_false]
    refine takes_name ht (takes_current ?_)
    rw [if_pos hsign]
    exact takes_advance (hexpr.bind (takes_symbol hsemi takes_pure))

theorem parsesStatement_call {args : List Expr} (ht : t.IsName)
    (h : Parenthesized IsParsed args us) (hsemi : semi.isSymbol ";") :
    ParsesStatement .closed (.call t t.literal args) (t :: (us ++ [semi])) := by
  intro n next hn _
  simp only [List.length_cons, List.length_append, List.length_nil] at hn
  cases n with
  | zero => omega
  | succ n =>
    have hargs : Takes (itemList (expression n) n) us semi args := takes_arguments h (by omega)
    obtain ⟨l, vs, rfl, hl⟩ := isSymbol_of_parenthesized h
    refine takes_statement_name ht (takes_current ?_)
    simp only [ht.1, ht.2, ne_eq, not_true_eq_false, decide_false, Bool.or_false, Bool.false_eq_true,
      if_false]
    refine takes_name ht (takes_current ?_)
    simp only [not_isSymbol_of_ne hl (show ("(" : Text) ≠ ":=" by decide), hl, Bool.false_eq_true,
      if_false, if_true]
    exact hargs.bind (takes_symbol hsemi takes_pure)

/-- The statements that a word opens. -/
def forms : List (Text × (Nat → Parser Stmt)) := [
  ("BEGIN", fun n => block n (statement n)),
  ("PROCEDURE", fun n => do return (← declaration n (statement n)).toStmt),
  ("WRITELN", writeLn),
  ("READLN", fun _ => readLn),
  ("IF", fun n => conditional n (statement n)),
  ("WHILE", fun n => whileLoop n (statement n)),
  ("FOR", fun n => forLoop n (statement n))]

theorem takes_statement_word {w : Text} {x : Nat → Parser Stmt} (hform : (w, x) ∈ forms)
    (ht : t.isWord w) (h : Takes (x n) (t :: us) next s) :
    Takes (statement (n + 1)) (t :: us) next s := by
  have hnot {v : Text} (hv : w ≠ v) : ¬ t.isWord v = true := not_isWord_of_ne ht hv
  refine takes_current ?_
  simp only [forms, List.mem_cons, Prod.mk.injEq, List.not_mem_nil, or_false] at hform
  obtain ⟨rfl, rfl⟩ | ⟨rfl, rfl⟩ | ⟨rfl, rfl⟩ | ⟨rfl, rfl⟩ | ⟨rfl, rfl⟩ | ⟨rfl, rfl⟩ | ⟨rfl, rfl⟩ :=
    hform
  · rwa [if_pos ht]
  · rwa [if_neg (hnot (by decide)), if_pos ht]
  · rwa [if_neg (hnot (by decide)), if_neg (hnot (by decide)), if_pos ht]
  · rwa [if_neg (hnot (by decide)), if_neg (hnot (by decide)), if_neg (hnot (by decide)), if_pos ht]
  · rwa [if_neg (hnot (by decide)), if_neg (hnot (by decide)), if_neg (hnot (by decide)),
      if_neg (hnot (by decide)), if_pos ht]
  · rwa [if_neg (hnot (by decide)), if_neg (hnot (by decide)), if_neg (hnot (by decide)),
      if_neg (hnot (by decide)), if_neg (hnot (by decide)), if_pos ht]
  · rwa [if_neg (hnot (by decide)), if_neg (hnot (by decide)), if_neg (hnot (by decide)),
      if_neg (hnot (by decide)), if_neg (hnot (by decide)), if_neg (hnot (by decide)), if_pos ht]

/-- A statement is parsed if what its first word opens is, with the tokens behind that word as the
bound. -/
theorem parsesStatement_of_form {w : Text} {x : Nat → Parser Stmt} (hform : (w, x) ∈ forms)
    (ht : t.isWord w)
    (h : ∀ n next, us.length ≤ n → ending.Allows next → Takes (x n) (t :: us) next s) :
    ParsesStatement ending s (t :: us) := by
  intro n next hn hallows
  cases n with
  | zero => cases hn
  | succ n => exact takes_statement_word hform ht (h n next (Nat.le_of_succ_le_succ hn) hallows)

theorem parsesStatement_writeLn {l r : Token} (ht : t.isWord "WRITELN") (hl : l.isSymbol "(")
    (he : ParsesTerm 4 e us) (hr : r.isSymbol ")") (hsemi : semi.isSymbol ";") :
    ParsesStatement .closed (.writeLn t e) (t :: l :: (us ++ [r, semi])) := by
  refine parsesStatement_of_form (List.mem_of_getElem? (i := 2) rfl) ht fun n next hn _ => ?_
  simp only [List.length_cons, List.length_append] at hn
  have hexpr := takes_expression he (n := n) (by omega) (follows_paren hr)
  exact takes_word ht (takes_symbol hl (hexpr.bind (takes_symbol hr (takes_symbol hsemi takes_pure))))

theorem parsesStatement_readLn {l v r : Token} (ht : t.isWord "READLN") (hl : l.isSymbol "(")
    (hv : v.IsName) (hr : r.isSymbol ")") (hsemi : semi.isSymbol ";") :
    ParsesStatement .closed (.readLn t (variableOf v)) [t, l, v, r, semi] := by
  refine parsesStatement_of_form (List.mem_of_getElem? (i := 3) rfl) ht fun n next _ _ => ?_
  exact takes_word ht (takes_symbol hl (takes_variableName hv (takes_symbol hr
    (takes_symbol hsemi takes_pure))))

/-- The tokens of statements are parsed up to `END`. -/
def ParseStatements (ss : List Stmt) (us : List Token) : Prop :=
  ∀ n k next, us.length ≤ n → us.length ≤ k → next.isWord "END" →
    Takes (statements (statement n) k) us next ss

theorem parsesStatement_block {final : Token} {ss : List Stmt} (ht : t.isWord "BEGIN")
    (hss : ParseStatements ss us) (hfinal : final.isWord "END") (hsemi : semi.isSymbol ";") :
    ParsesStatement .closed (.block t ss) (t :: (us ++ [final, semi])) := by
  refine parsesStatement_of_form (List.mem_of_getElem? (i := 0) rfl) ht fun n next hn _ => ?_
  rw [List.length_append] at hn
  have hbody := hss n n final (by omega) (by omega) hfinal
  refine takes_word ht (hbody.bind (takes_word hfinal (takes_current ?_)))
  rw [not_isSymbol_of_ne hsemi (show (";" : Text) ≠ "." by decide), if_neg Bool.false_ne_true]
  exact takes_symbol hsemi takes_pure

theorem parsesStatement_bareBlock {final : Token} {ss : List Stmt} (ht : t.isWord "BEGIN")
    (hss : ParseStatements ss us) (hfinal : final.isWord "END") :
    ParsesStatement .bare (.block t ss) (t :: (us ++ [final])) := by
  refine parsesStatement_of_form (List.mem_of_getElem? (i := 0) rfl) ht fun n next hn hperiod => ?_
  rw [Ending.Allows] at hperiod
  rw [List.length_append] at hn
  have hbody := hss n n final (by omega) (by omega) hfinal
  refine takes_word ht (hbody.bind (takes_word hfinal (takes_current_nil ?_)))
  rw [if_pos hperiod]
  exact takes_pure

theorem parsesStatement_ifThen {thenT : Token} (ht : t.isWord "IF") (he : ParsesTerm 4 e us)
    (hthen : thenT.isWord "THEN") (hs : ParsesStatement ending s vs) :
    ParsesStatement ending.unmatched (.ifThen t e s) (t :: (us ++ thenT :: vs)) := by
  refine parsesStatement_of_form (List.mem_of_getElem? (i := 4) rfl) ht fun n next hn hallows => ?_
  simp only [List.length_cons, List.length_append] at hn
  have hnext : ending.Allows next ∧ ¬ next.isWord "ELSE" = true := by
    cases ending with
    | closed => exact ⟨trivial, by rw [show next.isWord "ELSE" = false from hallows]; decide⟩
    | dangling => exact ⟨hallows, by rw [show next.isWord "ELSE" = false from hallows]; decide⟩
    | bare =>
      refine ⟨hallows, ?_⟩
      rw [not_isWord_of_kind (not_identifier_of_isSymbol hallows)]
      decide
  have hexpr := takes_expression he (n := n) (by omega)
    (follows_of_isWord hthen (by decide) (by decide) 4)
  have hbody := hs n next (by omega) hnext.1
  refine takes_word ht (hexpr.bind (takes_word hthen (hbody.bind_nil (takes_current_nil ?_))))
  rw [if_neg hnext.2]
  exact takes_pure

theorem parsesStatement_ifElse {thenT elseT : Token} {s' : Stmt} (ht : t.isWord "IF")
    (he : ParsesTerm 4 e us) (hthen : thenT.isWord "THEN") (hs : ParsesStatement .closed s vs)
    (helse : elseT.isWord "ELSE") (hs' : ParsesStatement ending s' ws) :
    ParsesStatement ending (.ifElse t e s s') (t :: (us ++ thenT :: (vs ++ elseT :: ws))) := by
  refine parsesStatement_of_form (List.mem_of_getElem? (i := 4) rfl) ht fun n next hn hallows => ?_
  simp only [List.length_cons, List.length_append] at hn
  have hexpr := takes_expression he (n := n) (by omega)
    (follows_of_isWord hthen (by decide) (by decide) 4)
  have hbody := hs n elseT (by omega) trivial
  have halternative := hs' n next (by omega) hallows
  refine takes_word ht (hexpr.bind (takes_word hthen (hbody.bind (takes_current ?_))))
  rw [if_pos helse]
  exact takes_advance (halternative.bind_nil takes_pure)

theorem parsesStatement_loop {doT : Token} (ht : t.isWord "WHILE") (he : ParsesTerm 4 e us)
    (hdo : doT.isWord "DO") (hs : ParsesStatement ending s vs) :
    ParsesStatement ending (.loop t e s) (t :: (us ++ doT :: vs)) := by
  refine parsesStatement_of_form (List.mem_of_getElem? (i := 5) rfl) ht fun n next hn hallows => ?_
  simp only [List.length_cons, List.length_append] at hn
  have hexpr := takes_expression he (n := n) (by omega)
    (follows_of_isWord hdo (by decide) (by decide) 4)
  have hbody := hs n next (by omega) hallows
  exact takes_word ht (hexpr.bind (takes_word hdo (hbody.bind_nil takes_pure)))

theorem parsesStatement_forLoop {v sign toT doT : Token} {last : Expr} (ht : t.isWord "FOR")
    (hv : v.IsName) (hsign : sign.isSymbol ":=") (he : ParsesTerm 4 e us) (hto : toT.isWord "TO")
    (hlast : ParsesTerm 4 last vs) (hdo : doT.isWord "DO") (hs : ParsesStatement ending s ws) :
    ParsesStatement ending (.forLoop t (variableOf v) e last s)
      (t :: v :: sign :: (us ++ toT :: (vs ++ doT :: ws))) := by
  refine parsesStatement_of_form (List.mem_of_getElem? (i := 6) rfl) ht fun n next hn hallows => ?_
  simp only [List.length_cons, List.length_append] at hn
  have hfirst := takes_expression he (n := n) (by omega)
    (follows_of_isWord hto (by decide) (by decide) 4)
  have hlast := takes_expression hlast (n := n) (by omega)
    (follows_of_isWord hdo (by decide) (by decide) 4)
  have hbody := hs n next (by omega) hallows
  exact takes_word ht (takes_variableName hv (takes_symbol hsign (hfirst.bind (takes_word hto
    (hlast.bind (takes_word hdo (hbody.bind_nil takes_pure)))))))

theorem takes_declaration {called : Token} {params : List Variable} (ht : t.isWord "PROCEDURE")
    (hcalled : called.IsName) (hparams : Parenthesized IsParameter params us)
    (hsemi : semi.isSymbol ";") (hs : ParsesStatement ending s vs) (hallows : ending.Allows next)
    (hn : us.length + vs.length ≤ n) :
    Takes (declaration n (statement n)) (t :: called :: (us ++ semi :: vs)) next
      ⟨t, ⟨called.literal, params, s⟩⟩ := by
  have hhead : ∀ v us, IsParameter v us → ∃ u vs, us = u :: vs ∧ u.isSymbol ")" = false := by
    rintro v us ⟨u, hu, -, rfl⟩
    exact ⟨u, [], rfl, not_isSymbol_of_kind (by rw [hu.1]; decide)⟩
  have hlist : Takes (itemList variableName n) us semi params :=
    takes_itemList (takesItems_variableName n) hhead hparams (by omega)
  have hbody := hs n next (by omega) hallows
  exact takes_word ht (takes_name hcalled (hlist.bind (takes_symbol hsemi
    (hbody.bind_nil takes_pure))))

theorem parsesStatement_declare {called : Token} {params : List Variable}
    (ht : t.isWord "PROCEDURE") (hcalled : called.IsName)
    (hparams : Parenthesized IsParameter params us) (hsemi : semi.isSymbol ";")
    (hs : ParsesStatement ending s vs) :
    ParsesStatement ending (.declare t called.literal params s)
      (t :: called :: (us ++ semi :: vs)) := by
  refine parsesStatement_of_form (List.mem_of_getElem? (i := 1) rfl) ht fun n next hn hallows => ?_
  simp only [List.length_cons, List.length_append] at hn
  exact (takes_declaration ht hcalled hparams hsemi hs hallows (by omega)).bind_nil takes_pure

theorem parseStatements_nil : ParseStatements [] [] := by
  intro n k next _ _ hnext
  cases k with
  | zero => exact takes_pure
  | succ k =>
    refine takes_current_nil ?_
    simp only [hnext, Bool.true_or, if_true]
    exact takes_pure

theorem parseStatements_cons {ss : List Stmt} (hderives : Derives (.statement ending s) us)
    (hs : ParsesStatement ending s us) (hending : ending ≠ .bare) (hrest : Derives (.statements ss) vs)
    (hss : ParseStatements ss vs) : ParseStatements (s :: ss) (us ++ vs) := by
  intro n k next hn hk hnext
  obtain ⟨t, us, rfl, hkind, hend, -⟩ := hderives.exists_starts fun ss hss => by cases hss
  simp only [List.cons_append, List.length_cons, List.length_append] at hn hk
  cases k with
  | zero => omega
  | succ k =>
    have hgo : ¬ (t.isWord "END" || t.kind = .eof) = true := by
      simp [isWord, hkind, hend]
    -- What stands behind the statement is `END` or starts another one, so it is no `ELSE`.
    have hallows : ∀ u, (u.isWord "ELSE" = false) → ending.Allows u := by
      intro u hu
      cases ending with
      | closed => trivial
      | dangling => exact hu
      | bare => exact absurd rfl hending
    rw [List.cons_append]
    refine takes_current ?_
    rw [if_neg hgo]
    cases hrest with
    | noStatements =>
      have hnot := not_isWord_of_ne hnext (show ("END" : Text) ≠ "ELSE" by decide)
      have hone := hs n next (by simp only [List.length_cons]; omega)
        (hallows next (Bool.eq_false_iff.mpr hnot))
      rw [List.append_nil]
      exact hone.bind_nil ((hss n k next (by simp) (by simp) hnext).bind_nil takes_pure)
    | @statements s' ss' e' us' vs' hs' he' hss' =>
      obtain ⟨u, ws, rfl, -, -, helse⟩ := hs'.exists_starts fun ss hss => by cases hss
      have hone := hs n u (by simp only [List.length_cons]; omega)
        (hallows u (by simp [isWord, helse]))
      exact hone.bind ((hss n k next (by omega) (by omega) hnext).bind_nil takes_pure)

end Statements

/-- The tokens of a phrase are parsed. -/
def Parses : Phrase → List Token → Prop
  | .term k e, us => ParsesTerm k e us
  | .items es, us => Listed IsParsed es us
  | .arguments es, us => Parenthesized IsParsed es us
  | .statement ending s, us => ParsesStatement ending s us
  | .statements ss, us => ParseStatements ss us

/-- What is derived is parsed. -/
theorem parses_of_derives {p : Phrase} {us : List Token} (h : Derives p us) : Parses p us := by
  induction h with
  | number ht => exact parsesTerm_number ht
  | trueWord ht => exact parsesTerm_true ht
  | falseWord ht => exact parsesTerm_false ht
  | var ht => exact parsesTerm_var ht
  | call ht _ ih => exact parsesTerm_call ht ih
  | parens hl _ hr ih => exact parsesTerm_parens hl ih hr
  | minus ht _ ih => exact parsesTerm_minus ht ih
  | climb hk _ ih => exact parsesTerm_climb hk ih
  | @binary k t op left right us vs hop _ ht _ ihleft ihright =>
    have hk : k < 4 := by
      have hle : op.rank ≤ 4 := by cases op <;> simp [Operator.rank]
      omega
    exact parsesTerm_binary hop hk ihleft ht ihright
  | item he ih => exact .one ⟨he, ih⟩
  | items he hcomma _ ih ihs => exact .more ⟨he, ih⟩ hcomma ihs
  | noArguments hl hr => exact .none hl hr
  | arguments hl _ hr ih => exact .some hl ih hr
  | assign ht hsign _ hsemi ih => exact parsesStatement_assign ht hsign ih hsemi
  | callStatement ht _ hsemi ih => exact parsesStatement_call ht ih hsemi
  | writeLn ht hl _ hr hsemi ih => exact parsesStatement_writeLn ht hl ih hr hsemi
  | readLn ht hl hv hr hsemi => exact parsesStatement_readLn ht hl hv hr hsemi
  | block ht _ hfinal hsemi ih => exact parsesStatement_block ht ih hfinal hsemi
  | bareBlock ht _ hfinal ih => exact parsesStatement_bareBlock ht ih hfinal
  | ifThen ht _ hthen _ ihcond ihbody => exact parsesStatement_ifThen ht ihcond hthen ihbody
  | ifElse ht _ hthen _ helse _ ihcond ihbody ihalternative =>
    exact parsesStatement_ifElse ht ihcond hthen ihbody helse ihalternative
  | loop ht _ hdo _ ihcond ihbody => exact parsesStatement_loop ht ihcond hdo ihbody
  | forLoop ht hv hsign _ hto _ hdo _ ihfirst ihlast ihbody =>
    exact parsesStatement_forLoop ht hv hsign ihfirst hto ihlast hdo ihbody
  | declare ht hcalled hparams hsemi _ ih =>
    exact parsesStatement_declare ht hcalled hparams hsemi ih
  | noStatements => exact parseStatements_nil
  | statements hs he hss ih ihs => exact parseStatements_cons hs ih he hss ihs

section Programs

open Token

variable {n k : Nat} {us : List Token} {next : Token}

theorem takes_declarations {ds : List Declaration} (h : Declares ds us) (hn : us.length ≤ n)
    (hk : us.length ≤ k) (hword : next.isWord "PROCEDURE" = false)
    (helse : next.isWord "ELSE" = false) :
    Takes (declarations (statement n) n k) us next ds := by
  induction h generalizing k with
  | nil =>
    cases k with
    | zero => exact takes_pure
    | succ k =>
      refine takes_current_nil ?_
      simp only [hword, Bool.false_eq_true, if_false]
      exact takes_pure
  | @cons d ds e us vs hd he hds ih =>
    have hallows : ∀ u : Token, u.isWord "ELSE" = false → e.Allows u := by
      intro u hu
      cases e with
      | closed => trivial
      | dangling => exact hu
      | bare => exact absurd rfl he
    have hone : ∀ u : Token, u.isWord "ELSE" = false →
        Takes (declaration n (statement n)) us u d := by
      intro u hu
      obtain ⟨token, name, params, body⟩ := d
      generalize hs : Declaration.toStmt ⟨token, name, params, body⟩ = s at hd
      cases hd with
      | @declare t called semi params body e us' vs' ht hcalled hparams hsemi hbody =>
        cases hs
        simp only [List.length_append, List.length_cons] at hn
        exact takes_declaration ht hcalled hparams hsemi (parses_of_derives hbody) (hallows u hu)
          (by omega)
      | _ => cases hs
    obtain ⟨t, us', rfl, ht⟩ := isWord_of_derives_declaration hd
    simp only [List.cons_append, List.length_cons, List.length_append] at hn hk
    cases k with
    | zero => omega
    | succ k =>
      have hrest := ih (k := k) (by omega) (by omega)
      rw [List.cons_append]
      refine takes_current ?_
      rw [if_pos ht]
      cases hds with
      | nil =>
        rw [List.append_nil]
        exact (hone next helse).bind_nil (hrest.bind_nil takes_pure)
      | cons hd' he' hds' =>
        obtain ⟨u, ws, rfl, hu⟩ := isWord_of_derives_declaration hd'
        have hnot := not_isWord_of_ne hu (show ("PROCEDURE" : Text) ≠ "ELSE" by decide)
        exact (hone u (Bool.eq_false_iff.mpr hnot)).bind (hrest.bind_nil takes_pure)

/-- A statement that starts like a declaration is one. -/
theorem exists_declaration_of_isWord {s : Stmt} {e : Ending} {t : Token}
    (h : Derives (.statement e s) (t :: us)) (ht : t.isWord "PROCEDURE") :
    ∃ d : Declaration, s = d.toStmt := by
  cases h with
  | declare ht hcalled hparams hsemi hbody => exact ⟨⟨_, ⟨_, _, _⟩⟩, rfl⟩
  | assign hname _ _ _ => exact absurd ht (hname.not_isWord (by decide))
  | callStatement hname _ _ => exact absurd ht (hname.not_isWord (by decide))
  | writeLn hw _ _ _ _ => exact absurd ht (not_isWord_of_ne hw (by decide))
  | readLn hw _ _ _ _ => exact absurd ht (not_isWord_of_ne hw (by decide))
  | block hw _ _ _ => exact absurd ht (not_isWord_of_ne hw (by decide))
  | bareBlock hw _ _ => exact absurd ht (not_isWord_of_ne hw (by decide))
  | ifThen hw _ _ _ => exact absurd ht (not_isWord_of_ne hw (by decide))
  | ifElse hw _ _ _ _ _ => exact absurd ht (not_isWord_of_ne hw (by decide))
  | loop hw _ _ _ => exact absurd ht (not_isWord_of_ne hw (by decide))
  | forLoop hw _ _ _ _ _ _ _ => exact absurd ht (not_isWord_of_ne hw (by decide))

theorem takes_program {p : Program} (h : p.Describes us) (hn : us.length ≤ n)
    (hnext : next.kind = .eof) : Takes (program n) us next p := by
  obtain ⟨h, hmain⟩ := h
  have hdot : next.isSymbol "." = false := not_isSymbol_of_kind (by rw [hnext]; decide)
  have helse : next.isWord "ELSE" = false := not_isWord_of_kind (by rw [hnext]; decide)
  have hfront : ∀ {ds s e us vs}, Declares ds us → Derives (.statement e s) vs →
      (∀ d : Declaration, s ≠ d.toStmt) → us.length ≤ n →
      ∃ t ws, vs = t :: ws ∧ Takes (declarations (statement n) n n) us t ds := by
    intro ds s e us vs hds hs hmain hlen
    obtain ⟨t, ws, rfl, -, -, hne⟩ := hs.exists_starts fun ss hss => by cases hss
    refine ⟨t, ws, rfl, takes_declarations hds hlen hlen ?_ (by simp [isWord, hne])⟩
    refine Bool.eq_false_iff.mpr fun hword => ?_
    obtain ⟨d, hd⟩ := exists_declaration_of_isWord hs hword
    exact hmain d hd
  cases h with
  | @plain ds s e us vs hds hs he =>
    simp only [List.length_append] at hn
    have hstatement : ParsesStatement e s vs := parses_of_derives hs
    have hallows : e.Allows next := by
      cases e with
      | closed => trivial
      | dangling => exact helse
      | bare => exact absurd rfl he
    have hone := hstatement n next (by omega) hallows
    obtain ⟨t, ws, rfl, hdeclarations⟩ := hfront hds hs (fun d hd => hmain d (congrArg some hd))
      (by omega)
    refine hdeclarations.bind (hone.bind_nil (takes_current_nil ?_))
    rw [hdot, if_neg Bool.false_ne_true]
    refine takes_current_nil ?_
    rw [if_pos hnext]
    exact takes_pure
  | @period ds s e us vs dot hds hs hperiod =>
    simp only [List.length_append, List.length_cons, List.length_nil] at hn
    have hstatement : ParsesStatement e s vs := parses_of_derives hs
    have hallows : e.Allows dot := by
      cases e with
      | closed => trivial
      | dangling => exact not_isWord_of_kind (not_identifier_of_isSymbol hperiod)
      | bare => exact hperiod
    have hone := hstatement n dot (by omega) hallows
    obtain ⟨t, ws, rfl, hdeclarations⟩ := hfront hds hs (fun d hd => hmain d (congrArg some hd))
      (by omega)
    refine hdeclarations.bind (hone.bind (takes_current ?_))
    rw [if_pos hperiod]
    refine takes_advance (takes_current_nil ?_)
    rw [if_pos hnext]
    exact takes_pure

end Programs

section Sources

variable {src : Source} {r s : State} {us ts : List Token}

/-- The state in which the first token of a source has been fetched. -/
def State.Opens (r : State) (src : Source) : Prop :=
  (TokenStream.ofSource src).next = (.ok r.current, r.stream)

theorem State.Opens.cases (h : r.Opens src) :
    (TokenStream.ofSource src).items = .ok r.current :: r.stream.items ∧
      (TokenStream.ofSource src).last = r.stream.last ∨
    (TokenStream.ofSource src).items = [] ∧ r.stream = TokenStream.ofSource src ∧
      (TokenStream.ofSource src).last = .ok r.current := by
  rw [State.Opens, TokenStream.next] at h
  cases hitems : (TokenStream.ofSource src).items with
  | nil =>
    rw [hitems] at h
    obtain ⟨hlast, hstream⟩ := Prod.mk.inj h
    exact .inr ⟨rfl, hstream.symm, hlast⟩
  | cons x rest =>
    rw [hitems] at h
    obtain ⟨hfirst, hstream⟩ := Prod.mk.inj h
    rw [← hstream, hfirst]
    exact .inl ⟨rfl, rfl⟩

theorem State.Opens.scanned (h : r.Opens src) : r.Scanned := by
  have hlexed := TokenStream.lexed_ofSource src
  obtain ⟨hitems, hlast⟩ | ⟨hitems, hstream, hlast⟩ := h.cases
  · refine ⟨.inl (hlexed.items _ (hitems ▸ List.mem_cons_self)), fun t ht => ?_, fun t ht => ?_⟩
    · exact hlexed.items t (hitems ▸ List.mem_cons_of_mem _ ht)
    · exact hlexed.last t (hlast.trans ht)
  · exact ⟨.inr (hlexed.last _ hlast), hstream ▸ hlexed⟩

theorem Reads.exists_answers (h : Reads r us s) (hr : r.Scanned) :
    ∃ more, .ok r.current :: (r.stream.items ++ [r.stream.last]) =
      (us ++ [s.current]).map .ok ++ more := by
  induction h with
  | nil => exact ⟨_, rfl⟩
  | @cons r s s' us hkind hadvance h ih =>
    have hs := hr.advance hadvance
    obtain ⟨more, hmore⟩ := ih hs
    obtain ⟨t, rest, hitems, hnext⟩ | ⟨t, hitems, hlast, hnext⟩ | ⟨e, s', -, hnext⟩ :=
      advance_cases r
    · cases hnext.symm.trans hadvance
      refine ⟨more, ?_⟩
      rw [hitems, List.cons_append, hmore]
      rfl
    · cases hnext.symm.trans hadvance
      cases h with
      | nil =>
        refine ⟨[], ?_⟩
        rw [hitems, hlast]
        rfl
      | cons hkind' _ _ => exact absurd (hr.stream.last t hlast).1 hkind'
    · cases hnext.symm.trans hadvance

/-- What a parser has read are the first answers of the source. -/
theorem State.Opens.answers (h : r.Opens src) (hus : Reads r us s) :
    src.answers (us.length + 1) = (us ++ [s.current]).map .ok := by
  have hinside : ∀ u ∈ us, u.kind ≠ .eof := fun u hu => (hus.lexed h.scanned u hu).ne_eof
  obtain ⟨hitems, hlast⟩ | ⟨hitems, hstream, hlast⟩ := h.cases
  · obtain ⟨more, hmore⟩ := hus.exists_answers h.scanned
    have hall : (TokenStream.ofSource src).items ++ [(TokenStream.ofSource src).last] =
        (us ++ [s.current]).map .ok ++ more := by rw [hitems, hlast, List.cons_append, hmore]
    exact TokenStream.answers_ofSourceWithin (Nat.le_refl _) hinside hall
  · have hend := ((TokenStream.lexed_ofSource src).last _ hlast).1
    cases hus with
    | cons hkind _ _ => exact absurd hend hkind
    | nil =>
      have hall : (TokenStream.ofSource src).items ++ [(TokenStream.ofSource src).last] =
          ([] ++ [r.current]).map .ok ++ [] := by
        rw [hitems, hlast]
        rfl
      exact TokenStream.answers_ofSourceWithin (Nat.le_refl _) hinside hall

theorem State.Opens.scans (h : r.Opens src) (hus : Reads r us s) (hs : s.current.kind = .eof) :
    src.Scans us s.current :=
  ⟨h.answers hus, fun u hu => (hus.lexed h.scanned u hu).ne_eof, hs⟩

/-- The outcome of a run without its final state. -/
def outcome {α : Type} : EStateM.Result SyntaxError State α → Except SyntaxError α
  | .ok a _ => .ok a
  | .error e _ => .error e

/-- A source fails at once, or it has a first token, from which on a program is parsed. -/
theorem ofSource_cases (src : Source) :
    (∃ e, (TokenStream.ofSource src).next.1 = .error e ∧
      Program.ofSource src = .error (.scan e)) ∨
    ∃ r : State, r.Opens src ∧
      Program.ofSource src = outcome (program (r.stream.items.length + 2) r) := by
  have hstart : start { stream := TokenStream.ofSource src } =
      advance { stream := TokenStream.ofSource src, started := true } := rfl
  cases hnext : (TokenStream.ofSource src).next with
  | mk x stream =>
    rw [advance, hnext] at hstart
    cases x with
    | error e =>
      refine .inl ⟨e, rfl, ?_⟩
      rw [Program.ofSource, run, bind_of_error hstart]
    | ok t =>
      refine .inr ⟨⟨stream, t, true⟩, hnext, ?_⟩
      have hrun : run { stream := TokenStream.ofSource src } =
          program (stream.items.length + 2) ⟨stream, t, true⟩ := by
        rw [run, bind_of_ok hstart]
        rfl
      rw [Program.ofSource, hrun]
      cases program (stream.items.length + 2) ⟨stream, t, true⟩ <;> rfl

theorem State.Opens.ends (h : r.Opens src) :
    Ends r IsProgram (program (r.stream.items.length + 2) r) :=
  ends_program h.scanned (by omega)

theorem exists_reads_of_next {e : Token} (hinside : ∀ t ∈ ts, t.kind ≠ .eof)
    (hr : TokenStream.next ⟨ts.map .ok, .ok e⟩ = (.ok r.current, r.stream)) :
    ∃ s, Reads r ts s ∧ s.current = e := by
  induction ts generalizing r with
  | nil =>
    obtain ⟨hfirst, -⟩ := Prod.mk.inj hr
    exact ⟨r, .nil, (Except.ok.inj hfirst).symm⟩
  | cons t ts ih =>
    obtain ⟨hkind, hinside⟩ := List.forall_mem_cons.mp hinside
    obtain ⟨hfirst, hstream⟩ := Prod.mk.inj hr
    obtain ⟨u, stream, hnext⟩ : ∃ u stream,
        TokenStream.next ⟨ts.map .ok, .ok e⟩ = (.ok u, stream) := by
      cases ts with
      | nil => exact ⟨e, _, rfl⟩
      | cons u us => exact ⟨u, _, rfl⟩
    have hadvance : advance r = .ok () { r with stream := stream, current := u } := by
      rw [advance, ← hstream, hnext]
    obtain ⟨s, hreads, hcurrent⟩ := ih (r := { r with stream := stream, current := u }) hinside hnext
    cases Except.ok.inj hfirst
    exact ⟨s, .cons hkind hadvance hreads, hcurrent⟩

theorem exists_reads_of_scans {e : Token} (h : src.Scans ts e) (hr : r.Opens src) :
    ∃ s, Reads r ts s ∧ s.current = e := by
  rw [State.Opens, TokenStream.ofSource_of_scans h] at hr
  exact exists_reads_of_next h.inside hr

/-- A source that scans has a first token, and from there all its tokens can be taken. -/
theorem exists_opens_of_scans {e : Token} (h : src.Scans ts e) :
    ∃ r s : State, r.Opens src ∧ Reads r ts s ∧ s.current = e ∧
      Program.ofSource src = outcome (program (r.stream.items.length + 2) r) := by
  obtain ⟨e', hfirst, -⟩ | ⟨r, hr, hrun⟩ := ofSource_cases src
  · rw [TokenStream.ofSource_of_scans h] at hfirst
    cases ts <;> cases hfirst
  · obtain ⟨s, hreads, hcurrent⟩ := exists_reads_of_scans h hr
    exact ⟨r, s, hr, hreads, hcurrent, hrun⟩

theorem State.Opens.not_fails {e : Token} {err : ScanError} (hr : r.Opens src)
    (h : src.Scans ts e) : ¬ r.Fails err := by
  have hmap : .error err ∉ ts.map (Except.ok : Token → Except ScanError Token) := by
    intro hmem
    obtain ⟨u, -, hu⟩ := List.mem_map.mp hmem
    cases hu
  have hopens := hr.cases
  rw [TokenStream.ofSource_of_scans h] at hopens
  dsimp only at hopens
  rintro (hmem | hlast)
  · obtain ⟨hitems, -⟩ | ⟨-, hstream, -⟩ := hopens
    · rw [hitems] at hmap
      exact hmap (List.mem_cons_of_mem _ hmem)
    · rw [hstream] at hmem
      exact hmap hmem
  · obtain ⟨-, hok⟩ | ⟨-, hstream, -⟩ := hopens
    · cases hok.trans hlast
    · rw [hstream] at hlast
      cases hlast

end Sources

end Parser

section Program

open MiniPascal.Parser

variable {t : Text} {ts : List Token} {e : Token}

/-- The tokens of a text that holds a program. -/
theorem Program.exists_scans {p : Program} (h : Program.ofText t = .ok p) :
    ∃ ts e, (Source.ofText t none).Scans ts e ∧ p.Describes ts := by
  obtain ⟨e, -, herror⟩ | ⟨r, hr, hrun⟩ := ofSource_cases (Source.ofText t none)
  · cases herror.symm.trans h
  · have hends := hr.ends
    have houtcome := hrun.symm.trans h
    cases hp : program (r.stream.items.length + 2) r with
    | error e s =>
      rw [hp] at houtcome
      cases houtcome
    | ok q s =>
      rw [hp] at houtcome hends
      cases houtcome
      obtain ⟨us, hus, hdescribes, hend⟩ := hends
      exact ⟨us, s.current, hr.scans hus hend, hdescribes⟩

theorem Program.ofText_of_describes {p : Program} (h : (Source.ofText t none).Scans ts e)
    (hp : p.Describes ts) : Program.ofText t = .ok p := by
  obtain ⟨r, s, hr, hreads, hcurrent, hrun⟩ := exists_opens_of_scans h
  have hlen := hreads.length_le hr.scanned
  have htakes := takes_program hp (n := r.stream.items.length + 2) (by omega) h.atEnd
  have hok := htakes r s hr.scanned hreads hcurrent
  exact hrun.trans (by rw [hok]; rfl)

theorem Program.exists_parse_error (h : (Source.ofText t none).Scans ts e)
    (hnone : ∀ p : Program, Program.ofText t ≠ .ok p) :
    ∃ cause found, Program.ofText t = .error (.parse cause found) := by
  obtain ⟨r, s, hr, hreads, hcurrent, hrun⟩ := exists_opens_of_scans h
  have hends := hr.ends
  cases hp : program (r.stream.items.length + 2) r with
  | ok p s => exact absurd (hrun.trans (by rw [hp]; rfl)) (hnone p)
  | error err s =>
    cases err with
    | parse cause found => exact ⟨cause, found, hrun.trans (by rw [hp]; rfl)⟩
    | scan err =>
      rw [hp] at hends
      exact absurd hends (hr.not_fails h)

/-- A text that scans holds a program exactly if its tokens describe one, which is then the only one,
and otherwise it is a token that is rejected. -/
theorem ofText_eq_ok_iff_describes (t : Text) (ts : List Token) (e : Token)
    (h : (Source.ofText t none).Scans ts e) :
    (∀ p, Program.ofText t = .ok p ↔ p.Describes ts) ∧
    (∀ p q : Program, p.Describes ts → q.Describes ts → p = q) ∧
    ((∀ p : Program, ¬ p.Describes ts) →
      ∃ cause found, Program.ofText t = .error (.parse cause found)) := by
  have hiff : ∀ p, Program.ofText t = .ok p ↔ p.Describes ts := by
    intro p
    refine ⟨fun hp => ?_, Program.ofText_of_describes h⟩
    obtain ⟨ts', e', hscans, hdescribes⟩ := Program.exists_scans hp
    rwa [h.unique hscans]
  refine ⟨hiff, fun p q hp hq => ?_, fun hnone => ?_⟩
  · exact Except.ok.inj (((hiff p).mpr hp).symm.trans ((hiff q).mpr hq))
  · exact Program.exists_parse_error h fun p hp => hnone p ((hiff p).mp hp)

/-- A final period in place of the semicolon, an `ELSE` with two `IF`s in front, and all ranks. -/
theorem conditional_describes : ∃ ts e, (Source.ofText
      "PROCEDURE p(a); WRITELN(a); IF x < 1 && y THEN IF -y THEN z := 1 + 2 * 3; ELSE BEGIN p(0); END."
      none).Scans ts e ∧ ∃ p : Program, p.Describes ts ∧ ∀ q : Program, q.Describes ts → q = p := by
  obtain ⟨p, hp, -⟩ : ∃ p, Program.ofText
      "PROCEDURE p(a); WRITELN(a); IF x < 1 && y THEN IF -y THEN z := 1 + 2 * 3; ELSE BEGIN p(0); END."
      = .ok p ∧ (p.main.isSome) = true := Program.exists_of_passes (by decide +kernel)
  obtain ⟨ts, e, hscans, -⟩ := Program.exists_scans hp
  obtain ⟨hiff, hunique, -⟩ := ofText_eq_ok_iff_describes _ ts e hscans
  have hdescribes := (hiff p).mp hp
  exact ⟨ts, e, hscans, p, hdescribes, fun q hq => hunique q p hq hdescribes⟩

theorem derives_declaration {w called l r semi v sign one last : Token} (hw : w.isWord "PROCEDURE")
    (hcalled : called.IsName) (hl : l.isSymbol "(") (hr : r.isSymbol ")") (hsemi : semi.isSymbol ";")
    (hv : v.IsName) (hsign : sign.isSymbol ":=") (hone : one.IsNumeral 1) (hlast : last.isSymbol ";") :
    ∃ p : Program, p.Derives [w, called, l, r, semi, v, sign, one, last] := by
  have hterm : Derives (.term 4 (.literal one 1 .int false)) [one] :=
    .climb (by decide) (.climb (by decide) (.climb (by decide) (.climb (by decide) (.number hone))))
  have hassign := Derives.assign hv hsign hterm hlast
  have hdeclare := Derives.declare hw hcalled (.none hl hr) hsemi hassign
  exact ⟨_, .plain .nil hdeclare (by decide)⟩

/-- Without the condition on the statement of a program, the grammar has more programs than are
parsed: a declaration alone is derived, as the statement behind no declarations. -/
theorem declaration_alone_rejected : ∃ (ts : List Token) (e : Token) (p : Program),
    (Source.ofText "PROCEDURE p(); x := 1;" none).Scans ts e ∧ p.Derives ts ∧
      ∀ q, Program.ofText "PROCEDURE p(); x := 1;" ≠ .ok q := by
  obtain ⟨ts, hts⟩ : ∃ ts : List Token, ts =
      [⟨.identifier, "PROCEDURE", ⟨1, 1⟩⟩, ⟨.identifier, "p", ⟨1, 11⟩⟩, ⟨.operator, "(", ⟨1, 12⟩⟩,
        ⟨.operator, ")", ⟨1, 13⟩⟩, ⟨.operator, ";", ⟨1, 14⟩⟩, ⟨.identifier, "x", ⟨1, 16⟩⟩,
        ⟨.operator, ":=", ⟨1, 18⟩⟩, ⟨.number, "1", ⟨1, 21⟩⟩, ⟨.operator, ";", ⟨1, 22⟩⟩] := ⟨_, rfl⟩
  have hscans : (Source.ofText "PROCEDURE p(); x := 1;" none).Scans ts ⟨.eof, [], ⟨1, 23⟩⟩ := by
    rw [hts]
    exact ⟨by decide +kernel, by decide, rfl⟩
  have hderives : ∃ p : Program, p.Derives ts := by
    rw [hts]
    exact derives_declaration rfl ⟨rfl, by decide⟩ rfl rfl rfl ⟨rfl, by decide⟩ rfl
      ⟨rfl, by decide, by decide⟩ rfl
  obtain ⟨p, hp⟩ := hderives
  refine ⟨ts, _, p, hscans, hp, fun q hq => ?_⟩
  have hnot : (Program.ofText "PROCEDURE p(); x := 1;").isOk = false := by decide +kernel
  rw [hq] at hnot
  cases hnot

end Program

end MiniPascal
