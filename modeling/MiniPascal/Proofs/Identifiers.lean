import Mathlib
import MiniPascal.Assembly.Generator
import MiniPascal.Tree.Parser

/-! Every name in a program that was read from a text is an identifier: a letter, then letters and
digits. -/

namespace MiniPascal

/-- A letter, then letters and digits. -/
def Text.isIdentifier (t : Text) : Bool :=
  match t.chars with
  | [] => false
  | c :: cs => Source.isLetter c && cs.all (fun d => Source.isLetter d || Source.isDigit d) &&
    t = Text.ofChars t.chars

/-- The name of the return address's word is none of the program's. -/
theorem ne_ra_of_isIdentifier {x : Text} (h : x.isIdentifier = true) : x ≠ Text.ofString "$ra" := by
  rintro rfl
  exact absurd h (by decide)

/-- A token of the kind of identifiers is one. -/
def Token.Named (t : Token) : Prop := t.kind = .identifier → t.literal.isIdentifier = true

mutual

/-- Every name in an expression is an identifier. -/
def Expr.Named : Expr → Prop
  | .literal .. => True
  | .var v => v.name.isIdentifier = true
  | .binary _ _ left right => left.Named ∧ right.Named
  | .call _ name args => name.isIdentifier = true ∧ Expr.NamedAll args
  | .missing => True

def Expr.NamedAll : List Expr → Prop
  | [] => True
  | e :: es => e.Named ∧ Expr.NamedAll es

end

mutual

/-- Every name in a statement is an identifier. -/
def Stmt.Named : Stmt → Prop
  | .assign _ target value => target.name.isIdentifier = true ∧ value.Named
  | .block _ body => Stmt.NamedAll body
  | .ifThen _ cond body => cond.Named ∧ body.Named
  | .ifElse _ cond body alternative => cond.Named ∧ body.Named ∧ alternative.Named
  | .loop _ cond body => cond.Named ∧ body.Named
  | .writeLn _ value => value.Named
  | .readLn _ target => target.name.isIdentifier = true
  | .call _ name args => name.isIdentifier = true ∧ Expr.NamedAll args
  | .declare _ name params body =>
    name.isIdentifier = true ∧ (∀ v ∈ params, v.name.isIdentifier = true) ∧ body.Named
  | .missing => True

def Stmt.NamedAll : List Stmt → Prop
  | [] => True
  | s :: ss => s.Named ∧ Stmt.NamedAll ss

end

structure Procedure.Named (p : Procedure) : Prop where
  name : p.name.isIdentifier = true
  params : ∀ v ∈ p.params, v.name.isIdentifier = true
  body : p.body.Named

structure Program.Named (p : Program) : Prop where
  procedures : ∀ d ∈ p.procedures, d.procedure.Named
  main : ∀ s, p.main = some s → s.Named

theorem Expr.namedAll_iff (es : List Expr) : Expr.NamedAll es ↔ ∀ e ∈ es, e.Named := by
  induction es with
  | nil => simp [Expr.NamedAll]
  | cons e es ih => simp [Expr.NamedAll, ih]

theorem Stmt.namedAll_iff (ss : List Stmt) : Stmt.NamedAll ss ↔ ∀ s ∈ ss, s.Named := by
  induction ss with
  | nil => simp [Stmt.NamedAll]
  | cons s ss ih => simp [Stmt.NamedAll, ih]

namespace Source

theorem isIdentifier_run {c : Char} {cs : List Char} (hc : isLetter c = true) :
    (Text.ofChars ((c :: cs).takeWhile fun d => isLetter d || isDigit d)).isIdentifier = true := by
  have htake : (c :: cs).takeWhile (fun d => isLetter d || isDigit d) =
      c :: cs.takeWhile fun d => isLetter d || isDigit d :=
    List.takeWhile_cons_of_pos (by rw [hc, Bool.true_or])
  rw [htake]
  simp only [Text.isIdentifier, Text.chars_ofChars, hc, Bool.true_and, decide_true, Bool.and_true]
  exact List.all_takeWhile

theorem named_nextHere {s : Source} {t : Token} (h : s.nextHere.1 = .ok t) : t.Named := by
  unfold nextHere at h
  split at h
  · split at h
    · exact nomatch h
    · cases h
      exact fun hkind => nomatch hkind
  · rename_i c cs hrest
    split at h
    · unfold nextOperator at h
      dsimp only at h
      split at h
      · cases h
        exact fun hkind => nomatch hkind
      · exact nomatch h
    · split at h
      · cases h
        exact fun hkind => nomatch hkind
      · split at h
        · rename_i hletter
          cases h
          intro _
          show (Text.ofChars (s.rest.takeWhile _)).isIdentifier = true
          rw [hrest]
          exact isIdentifier_run hletter
        · exact nomatch h

theorem named_next {s : Source} {t : Token} (h : s.next.1 = .ok t) : t.Named := by
  unfold next at h
  dsimp only at h
  split at h
  · exact nomatch h
  · exact named_nextHere h

end Source

/-- Every token that a stream answers with is named. -/
structure TokenStream.Named (ts : TokenStream) : Prop where
  items : ∀ t, .ok t ∈ ts.items → t.Named
  last : ∀ t, ts.last = .ok t → t.Named

namespace TokenStream

theorem named_ofSourceWithin (n : Nat) (s : Source) : (ofSourceWithin n s).Named := by
  induction n generalizing s with
  | zero => exact ⟨fun t ht => absurd ht List.not_mem_nil, fun t ht => Source.named_next ht⟩
  | succ n ih =>
    unfold ofSourceWithin
    dsimp only
    split
    · exact ⟨fun t ht => absurd ht List.not_mem_nil, fun t ht => Source.named_next ht⟩
    · refine ⟨fun t ht => ?_, (ih _).last⟩
      rcases List.mem_cons.mp ht with hfirst | hrest
      · exact Source.named_next hfirst.symm
      · exact (ih _).items t hrest

theorem Named.next {ts : TokenStream} (h : ts.Named) :
    ts.next.2.Named ∧ ∀ t, ts.next.1 = .ok t → t.Named := by
  unfold TokenStream.next
  split
  · exact ⟨h, h.last⟩
  · rename_i r rest hitems
    refine ⟨⟨fun t ht => h.items t ?_, h.last⟩, fun t ht => h.items t ?_⟩
    · rw [hitems]
      exact List.mem_cons_of_mem _ ht
    · rw [hitems]
      exact ht ▸ List.mem_cons_self

end TokenStream

namespace Parser

/-- The tokens at hand and to come are named. -/
structure State.Named (s : State) : Prop where
  stream : s.stream.Named
  current : s.current.Named

/-- A parser that keeps the tokens named, and whose results have the property `Q`. -/
def Yields {α : Type} (x : Parser α) (Q : α → Prop) : Prop :=
  ∀ s : State, s.Named → match x s with
    | .ok a s' => s'.Named ∧ Q a
    | .error _ _ => True

section Yields

variable {α β : Type} {x : Parser α} {Q : α → Prop} {R : β → Prop}

theorem yields_pure {a : α} (h : Q a) : Yields (pure a) Q := fun _ hs => ⟨hs, h⟩

theorem Yields.bind {f : α → Parser β} (hx : Yields x Q) (hf : ∀ a, Q a → Yields (f a) R) :
    Yields (x >>= f) R := by
  intro s hs
  have hxs := hx s hs
  show match EStateM.bind x f s with
    | .ok b s' => s'.Named ∧ R b
    | .error _ _ => True
  unfold EStateM.bind
  cases h : x s with
  | ok a s' =>
    rw [h] at hxs
    exact hf a hxs.2 s' hxs.1
  | error e s' => trivial

theorem Yields.ite {c : Prop} [Decidable c] {y : Parser α} (hx : c → Yields x Q)
    (hy : ¬ c → Yields y Q) : Yields (if c then x else y) Q := by
  by_cases hc : c
  · rw [if_pos hc]
    exact hx hc
  · rw [if_neg hc]
    exact hy hc

theorem yields_current : Yields current Token.Named := fun _ hs => ⟨hs, hs.current⟩

theorem yields_reject {cause : ParseCause} : Yields (reject cause : Parser α) Q :=
  fun _ _ => trivial

theorem yields_advance : Yields advance fun _ => True := by
  intro s hs
  obtain ⟨hstream, htoken⟩ := hs.stream.next
  unfold advance
  rcases hnext : s.stream.next with ⟨t | t, stream⟩
  · trivial
  · rw [hnext] at hstream htoken
    exact ⟨⟨hstream, htoken t rfl⟩, trivial⟩

theorem yields_expect (literal : Text) : Yields (expect literal) Token.Named :=
  yields_current.bind fun _ ht => Yields.ite
    (fun _ => yields_advance.bind fun _ _ => yields_pure ht) fun _ => yields_reject

theorem yields_name (role : Role) :
    Yields (name role) fun t => t.literal.isIdentifier = true := by
  refine yields_current.bind fun t ht => Yields.ite (fun _ => yields_reject) fun hkind => ?_
  refine Yields.ite (fun _ => yields_reject) fun _ => yields_advance.bind fun _ _ => ?_
  exact yields_pure (ht (not_not.mp hkind))

theorem yields_variableName : Yields variableName fun v => v.name.isIdentifier = true :=
  (yields_name .var).bind fun _ ht => yields_pure ht

theorem yields_moreItems (hx : Yields x Q) (n : Nat) :
    Yields (moreItems x n) fun xs => ∀ a ∈ xs, Q a := by
  induction n with
  | zero => exact yields_pure fun a ha => absurd ha List.not_mem_nil
  | succ n ih =>
    refine yields_current.bind fun t _ => Yields.ite (fun _ => ?_) fun _ => ?_
    · refine yields_advance.bind fun _ _ => hx.bind fun a ha => ih.bind fun as has => ?_
      exact yields_pure (List.forall_mem_cons.mpr ⟨ha, has⟩)
    · exact yields_pure fun a ha => absurd ha List.not_mem_nil

theorem yields_itemList (hx : Yields x Q) (n : Nat) :
    Yields (itemList x n) fun xs => ∀ a ∈ xs, Q a := by
  refine (yields_expect "(").bind fun _ _ => yields_current.bind fun t _ =>
    Yields.ite (fun _ => ?_) fun _ => ?_
  · refine (yields_expect ")").bind fun _ _ => ?_
    exact yields_pure fun a ha => absurd ha List.not_mem_nil
  · refine hx.bind fun a ha => (yields_moreItems hx n).bind fun as has =>
      (yields_expect ")").bind fun _ _ => ?_
    exact yields_pure (List.forall_mem_cons.mpr ⟨ha, has⟩)

end Yields

section Expressions

variable {operand : Parser Expr}

theorem yields_foldLevel (level : List (Text × Operator)) (h : Yields operand Expr.Named) (n : Nat)
    {left : Expr} (hleft : left.Named) : Yields (foldLevel level operand n left) Expr.Named := by
  induction n generalizing left with
  | zero => exact yields_pure hleft
  | succ n ih =>
    refine yields_current.bind fun t _ => ?_
    cases operatorAmong level t with
    | none => exact yields_pure hleft
    | some op => exact yields_advance.bind fun _ _ => h.bind fun right hright => ih ⟨hleft, hright⟩

theorem yields_expressionOver (n : Nat) (h : Yields operand Expr.Named) :
    Yields (expressionOver n operand) Expr.Named := by
  have hlevel : ∀ level {x : Parser Expr}, Yields x Expr.Named →
      Yields (binaryLevel n x level) Expr.Named :=
    fun level x hx => hx.bind fun left hleft => yields_foldLevel level hx n hleft
  exact hlevel _ (hlevel _ (hlevel _ (hlevel _ h)))

theorem yields_reference (n : Nat) (h : Yields operand Expr.Named) :
    Yields (reference n operand) Expr.Named := by
  refine (yields_name .var).bind fun t ht => yields_current.bind fun _ _ =>
    Yields.ite (fun _ => ?_) fun _ => yields_pure ht
  refine (yields_itemList h n).bind fun args hargs => ?_
  exact yields_pure ⟨ht, (Expr.namedAll_iff args).mpr hargs⟩

theorem yields_number : Yields number Expr.Named := by
  refine yields_current.bind fun t _ => ?_
  cases Numeral.readWord? .decimal t.literal with
  | none => exact yields_reject
  | some value => exact yields_advance.bind fun _ _ => yields_pure trivial

theorem yields_truth (value : Int32) : Yields (truth value) Expr.Named :=
  yields_current.bind fun _ _ => yields_advance.bind fun _ _ => yields_pure trivial

theorem yields_factor (n : Nat) : Yields (factor n) Expr.Named := by
  induction n with
  | zero => exact yields_reject
  | succ n ih =>
    have hexpr := yields_expressionOver n ih
    refine yields_current.bind fun t _ => ?_
    cases t.kind with
    | operator =>
      refine Yields.ite (fun _ => ?_) fun _ => Yields.ite (fun _ => ?_) fun _ => yields_reject
      · exact yields_advance.bind fun _ _ => hexpr.bind fun e he =>
          (yields_expect ")").bind fun _ _ => yields_pure he
      · exact yields_advance.bind fun _ _ => ih.bind fun e he => yields_pure ⟨trivial, he⟩
    | number => exact yields_number
    | identifier =>
      refine Yields.ite (fun _ => yields_truth 1) fun _ => ?_
      exact Yields.ite (fun _ => yields_truth 0) fun _ => yields_reference n hexpr
    | eof => exact yields_reject
    | any => exact yields_reject
    | other name => exact yields_reject

theorem yields_expression (n : Nat) : Yields (expression n) Expr.Named :=
  yields_expressionOver n (yields_factor n)

end Expressions

section Statements

variable {body : Parser Stmt}

theorem yields_statements (h : Yields body Stmt.Named) (n : Nat) :
    Yields (statements body n) Stmt.NamedAll := by
  induction n with
  | zero => exact yields_pure trivial
  | succ n ih =>
    refine yields_current.bind fun t _ => Yields.ite (fun _ => yields_pure trivial) fun _ => ?_
    exact h.bind fun s hs => ih.bind fun ss hss => yields_pure ⟨hs, hss⟩

theorem yields_block (n : Nat) (h : Yields body Stmt.Named) :
    Yields (block n body) Stmt.Named := by
  refine (yields_expect "BEGIN").bind fun t _ => (yields_statements h n).bind fun ss hss =>
    (yields_expect "END").bind fun _ _ => yields_current.bind fun _ _ => ?_
  refine Yields.ite (fun _ => yields_pure hss) fun _ => ?_
  exact (yields_expect ";").bind fun _ _ => yields_pure hss

theorem yields_declaration (n : Nat) (h : Yields body Stmt.Named) :
    Yields (declaration n body) fun d => d.procedure.Named := by
  refine (yields_expect "PROCEDURE").bind fun t _ => (yields_name .procedure).bind fun called hc =>
    (yields_itemList yields_variableName n).bind fun params hparams =>
    (yields_expect ";").bind fun _ _ => h.bind fun s hs => ?_
  exact yields_pure ⟨hc, hparams, hs⟩

theorem yields_writeLn (n : Nat) : Yields (writeLn n) Stmt.Named := by
  refine (yields_expect "WRITELN").bind fun t _ => (yields_expect "(").bind fun _ _ =>
    (yields_expression n).bind fun e he => (yields_expect ")").bind fun _ _ =>
    (yields_expect ";").bind fun _ _ => ?_
  exact yields_pure he

theorem yields_readLn : Yields readLn Stmt.Named := by
  refine (yields_expect "READLN").bind fun t _ => (yields_expect "(").bind fun _ _ =>
    yields_variableName.bind fun v hv => (yields_expect ")").bind fun _ _ =>
    (yields_expect ";").bind fun _ _ => ?_
  exact yields_pure hv

theorem yields_conditional (n : Nat) (h : Yields body Stmt.Named) :
    Yields (conditional n body) Stmt.Named := by
  refine (yields_expect "IF").bind fun t _ => (yields_expression n).bind fun e he =>
    (yields_expect "THEN").bind fun _ _ => h.bind fun s hs => yields_current.bind fun _ _ => ?_
  refine Yields.ite (fun _ => ?_) fun _ => yields_pure ⟨he, hs⟩
  exact yields_advance.bind fun _ _ => h.bind fun s' hs' => yields_pure ⟨he, hs, hs'⟩

theorem yields_whileLoop (n : Nat) (h : Yields body Stmt.Named) :
    Yields (whileLoop n body) Stmt.Named := by
  refine (yields_expect "WHILE").bind fun t _ => (yields_expression n).bind fun e he =>
    (yields_expect "DO").bind fun _ _ => h.bind fun s hs => ?_
  exact yields_pure ⟨he, hs⟩

theorem named_forLoop {token : Token} {v : Variable} {first last : Expr} {s : Stmt}
    (hv : v.name.isIdentifier = true) (hfirst : first.Named) (hlast : last.Named) (hs : s.Named) :
    (Stmt.forLoop token v first last s).Named :=
  ⟨⟨hv, hfirst⟩, ⟨⟨hv, hlast⟩, hs, ⟨hv, hv, trivial⟩, trivial⟩, trivial⟩

theorem yields_forLoop (n : Nat) (h : Yields body Stmt.Named) :
    Yields (forLoop n body) Stmt.Named := by
  refine (yields_expect "FOR").bind fun t _ => yields_variableName.bind fun v hv =>
    (yields_expect ":=").bind fun _ _ => (yields_expression n).bind fun first hfirst =>
    (yields_expect "TO").bind fun _ _ => (yields_expression n).bind fun last hlast =>
    (yields_expect "DO").bind fun _ _ => h.bind fun s hs => ?_
  exact yields_pure (named_forLoop hv hfirst hlast hs)

theorem yields_assignOrCall (n : Nat) : Yields (assignOrCall n) Stmt.Named := by
  refine yields_current.bind fun t _ => Yields.ite (fun _ => yields_reject) fun _ => ?_
  refine (yields_name .var).bind fun target ht => yields_current.bind fun sign _ =>
    Yields.ite (fun _ => ?_) fun _ => Yields.ite (fun _ => ?_) fun _ => yields_reject
  · exact yields_advance.bind fun _ _ => (yields_expression n).bind fun e he =>
      (yields_expect ";").bind fun _ _ => yields_pure ⟨ht, he⟩
  · exact (yields_itemList (yields_expression n) n).bind fun args hargs =>
      (yields_expect ";").bind fun _ _ =>
      yields_pure ⟨ht, (Expr.namedAll_iff args).mpr hargs⟩

theorem yields_statement (n : Nat) : Yields (statement n) Stmt.Named := by
  induction n with
  | zero => exact yields_reject
  | succ n ih =>
    refine yields_current.bind fun t _ => ?_
    refine Yields.ite (fun _ => yields_block n ih) fun _ => Yields.ite (fun _ => ?_) fun _ => ?_
    · exact (yields_declaration n ih).bind fun d hd =>
        yields_pure ⟨hd.name, hd.params, hd.body⟩
    · exact Yields.ite (fun _ => yields_writeLn n) fun _ =>
        Yields.ite (fun _ => yields_readLn) fun _ =>
        Yields.ite (fun _ => yields_conditional n ih) fun _ =>
        Yields.ite (fun _ => yields_whileLoop n ih) fun _ =>
        Yields.ite (fun _ => yields_forLoop n ih) fun _ => yields_assignOrCall n

theorem yields_declarations (h : Yields body Stmt.Named) (n k : Nat) :
    Yields (declarations body n k) fun ds => ∀ d ∈ ds, d.procedure.Named := by
  induction k with
  | zero => exact yields_pure fun d hd => absurd hd List.not_mem_nil
  | succ k ih =>
    refine yields_current.bind fun t _ => Yields.ite (fun _ => ?_) fun _ => ?_
    · exact (yields_declaration n h).bind fun d hd => ih.bind fun ds hds =>
        yields_pure (List.forall_mem_cons.mpr ⟨hd, hds⟩)
    · exact yields_pure fun d hd => absurd hd List.not_mem_nil

end Statements

theorem yields_program (n : Nat) : Yields (program n) Program.Named := by
  refine (yields_declarations (yields_statement n) n n).bind fun ds hds =>
    (yields_statement n).bind fun s hs => yields_current.bind fun _ _ => ?_
  have hend : Yields (do
      if (← current).kind = .eof then return (⟨ds, some s⟩ : Program)
      else reject .expectedEnd) Program.Named := by
    refine yields_current.bind fun t _ => Yields.ite (fun _ => ?_) fun _ => yields_reject
    exact yields_pure ⟨hds, fun t ht => Option.some.inj ht ▸ hs⟩
  exact Yields.ite (fun _ => yields_advance.bind fun _ _ => hend) fun _ => hend

theorem yields_start : Yields start fun _ => True := by
  intro s hs
  have hadvance := yields_advance { s with started := true } ⟨hs.stream, hs.current⟩
  unfold start
  by_cases hstarted : s.started = true
  · simp only [bind, EStateM.bind, get, getThe, MonadStateOf.get, EStateM.get, hstarted, if_true]
    exact ⟨hs, trivial⟩
  · simp only [bind, EStateM.bind, get, getThe, MonadStateOf.get, EStateM.get, hstarted]
    exact hadvance

theorem yields_run : Yields run Program.Named :=
  yields_start.bind fun _ _ s hs => yields_program (s.stream.items.length + 2) s hs

end Parser

/-- The names of a program read from a text are identifiers. -/
theorem Program.named_of_ofText {t : Text} {p : Program} (h : Program.ofText t = .ok p) :
    p.Named := by
  unfold ofText ofSource at h
  have hrun := Parser.yields_run { stream := TokenStream.ofSource (.ofText t none) }
    ⟨TokenStream.named_ofSourceWithin _ _, fun hkind => nomatch hkind⟩
  split at h
  · rename_i q s hq
    rw [hq] at hrun
    exact Except.ok.inj h ▸ hrun.2
  · exact nomatch h

/-- Whether a text holds a program that passes a check. -/
def Program.passes (t : Text) (check : Program → Bool) : Bool :=
  match Program.ofText t with
  | .ok p => check p
  | .error _ => false

theorem Program.exists_of_passes {t : Text} {check : Program → Bool}
    (h : Program.passes t check = true) : ∃ p, Program.ofText t = .ok p ∧ check p = true := by
  unfold passes at h
  split at h
  · exact ⟨_, by assumption, h⟩
  · exact nomatch h

mutual

theorem Stmt.named_declarations (s : Stmt) (h : s.Named) :
    ∀ d ∈ s.declarations, d.procedure.Named := by
  match s with
  | .declare token name params body =>
    intro d hd
    rw [Stmt.declarations] at hd
    rcases List.mem_cons.mp hd with rfl | hd
    · exact ⟨h.1, h.2.1, h.2.2⟩
    · exact Stmt.named_declarations body h.2.2 d hd
  | .block _ body => exact Stmt.named_declarationsAll body h
  | .ifThen _ _ body => exact Stmt.named_declarations body h.2
  | .ifElse _ _ body alternative =>
    intro d hd
    rw [Stmt.declarations] at hd
    rcases List.mem_append.mp hd with hd | hd
    · exact Stmt.named_declarations body h.2.1 d hd
    · exact Stmt.named_declarations alternative h.2.2 d hd
  | .loop _ _ body => exact Stmt.named_declarations body h.2
  | .assign .. => exact fun d hd => absurd hd List.not_mem_nil
  | .writeLn .. => exact fun d hd => absurd hd List.not_mem_nil
  | .readLn .. => exact fun d hd => absurd hd List.not_mem_nil
  | .call .. => exact fun d hd => absurd hd List.not_mem_nil
  | .missing => exact fun d hd => absurd hd List.not_mem_nil

theorem Stmt.named_declarationsAll (ss : List Stmt) (h : Stmt.NamedAll ss) :
    ∀ d ∈ Stmt.declarationsAll ss, d.procedure.Named := by
  match ss with
  | [] => exact fun d hd => absurd hd List.not_mem_nil
  | s :: ss =>
    intro d hd
    rw [Stmt.declarationsAll] at hd
    rcases List.mem_append.mp hd with hd | hd
    · exact Stmt.named_declarations s h.1 d hd
    · exact Stmt.named_declarationsAll ss h.2 d hd

end

theorem Program.Named.declarations {p : Program} (h : p.Named) :
    ∀ d ∈ p.declarations, d.procedure.Named := by
  intro d hd
  rcases List.mem_append.mp hd with hd | hd
  · refine Stmt.named_declarationsAll _ ((Stmt.namedAll_iff _).mpr fun s hs => ?_) d hd
    obtain ⟨c, hc, rfl⟩ := List.mem_map.mp hs
    have hnamed := h.procedures c hc
    exact ⟨hnamed.name, hnamed.params, hnamed.body⟩
  · cases hmain : p.main with
    | none =>
      rw [hmain] at hd
      exact absurd hd List.not_mem_nil
    | some s =>
      rw [hmain] at hd
      exact Stmt.named_declarations s (h.main s hmain) d hd

end MiniPascal
