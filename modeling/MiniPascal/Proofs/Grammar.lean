import MiniPascal.Proofs.Scanning
import MiniPascal.Tree.Parser

/-! The grammar of the language. A phrase is a tree together with what the tree is to stand for, and
the rules say which tokens it is derived from. Nothing here refers to how the tokens are read. -/

namespace MiniPascal

/-- How tight an operator binds; 1 is the tightest. -/
def Operator.rank : Operator → Nat
  | mul | div | mod => 1
  | add | sub => 2
  | eq | ne | lt | gt | le | ge => 3
  | and | or => 4
  | other _ => 0

namespace Token

def IsName (t : Token) : Prop := t.kind = .identifier ∧ isKeyword t.literal = false

/-- The number that decimal digits stand for. -/
def decimal (cs : List Char) : Nat := cs.foldl (fun n c => 10 * n + (c.toNat - '0'.toNat)) 0

def IsNumeral (t : Token) (value : Int32) : Prop :=
  t.kind = .number ∧ decimal t.literal.chars ≤ 2147483647 ∧
    value = Int32.ofNat (decimal t.literal.chars)

def Spells (t : Token) (op : Operator) : Prop :=
  t.literal = op.symbol ∧ t.kind = if op = .mod then .identifier else .operator

end Token

/-- How a statement ends. A `dangling` one ends in an `IF` without `ELSE`, and a `bare` one in a block
without the semicolon behind it. -/
inductive Ending where
  | closed
  | dangling
  | bare
  deriving DecidableEq

namespace Ending

/-- The ending of an `IF` without `ELSE` whose body has the given one. -/
def unmatched : Ending → Ending
  | closed => dangling
  | dangling => dangling
  | bare => bare

/-- The tokens that may stand behind a statement: no `ELSE` behind a dangling one, to which it would
belong, and only the period that stands for the missing semicolon behind a bare one. -/
def Allows (next : Token) : Ending → Prop
  | closed => True
  | dangling => next.isWord "ELSE" = false
  | bare => next.isSymbol "."

theorem unmatched_eq_bare {e : Ending} : e.unmatched = bare ↔ e = bare := by
  cases e <;> simp [unmatched]

end Ending

/-- Items with commas between them. -/
inductive Listed {α : Type} (item : α → List Token → Prop) : List α → List Token → Prop where
  | one {a : α} {us : List Token} (ha : item a us) : Listed item [a] us
  | more {a : α} {as : List α} {comma : Token} {us vs : List Token} (ha : item a us)
    (hcomma : comma.isSymbol ",") (has : Listed item as vs) : Listed item (a :: as) (us ++ comma :: vs)

/-- Items between parentheses. -/
inductive Parenthesized {α : Type} (item : α → List Token → Prop) : List α → List Token → Prop where
  | none {l r : Token} (hl : l.isSymbol "(") (hr : r.isSymbol ")") : Parenthesized item [] [l, r]
  | some {l r : Token} {as : List α} {us : List Token} (hl : l.isSymbol "(") (has : Listed item as us)
    (hr : r.isSymbol ")") : Parenthesized item as (l :: (us ++ [r]))

/-- A parameter, which is a name. -/
def IsParameter (v : Variable) (ts : List Token) : Prop :=
  ∃ t : Token, t.IsName ∧ v = Parser.variableOf t ∧ ts = [t]

/-- What is derived. The terms of rank 0 are the operands of the tightest operators and those of rank 4
all expressions. -/
inductive Phrase where
  | term (rank : Nat) (e : Expr)
  | items (es : List Expr)
  | arguments (es : List Expr)
  | statement (ending : Ending) (s : Stmt)
  | statements (ss : List Stmt)

inductive Derives : Phrase → List Token → Prop where
  | number {t : Token} {value : Int32} (ht : t.IsNumeral value) :
    Derives (.term 0 (.literal t value .int false)) [t]
  | trueWord {t : Token} (ht : t.isWord "True") : Derives (.term 0 (.literal t 1 .int true)) [t]
  | falseWord {t : Token} (ht : t.isWord "False") : Derives (.term 0 (.literal t 0 .int true)) [t]
  | var {t : Token} (ht : t.IsName) : Derives (.term 0 (.var (Parser.variableOf t))) [t]
  | call {t : Token} {args : List Expr} {us : List Token} (ht : t.IsName)
    (hargs : Derives (.arguments args) us) : Derives (.term 0 (.call t t.literal args)) (t :: us)
  | parens {l r : Token} {e : Expr} {us : List Token} (hl : l.isSymbol "(")
    (he : Derives (.term 4 e) us) (hr : r.isSymbol ")") : Derives (.term 0 e) (l :: (us ++ [r]))
  | minus {t : Token} {e : Expr} {us : List Token} (ht : t.isSymbol "-")
    (he : Derives (.term 0 e) us) :
    Derives (.term 0 (.binary t .sub (.literal t 0 .int false) e)) (t :: us)
  | climb {k : Nat} {e : Expr} {us : List Token} (hk : k < 4) (he : Derives (.term k e) us) :
    Derives (.term (k + 1) e) us
  | binary {k : Nat} {t : Token} {op : Operator} {left right : Expr} {us vs : List Token}
    (hop : op.rank = k + 1) (hleft : Derives (.term (k + 1) left) us) (ht : t.Spells op)
    (hright : Derives (.term k right) vs) :
    Derives (.term (k + 1) (.binary t op left right)) (us ++ t :: vs)
  | item {e : Expr} {us : List Token} (he : Derives (.term 4 e) us) : Derives (.items [e]) us
  | items {e : Expr} {es : List Expr} {comma : Token} {us vs : List Token}
    (he : Derives (.term 4 e) us) (hcomma : comma.isSymbol ",") (hes : Derives (.items es) vs) :
    Derives (.items (e :: es)) (us ++ comma :: vs)
  | noArguments {l r : Token} (hl : l.isSymbol "(") (hr : r.isSymbol ")") :
    Derives (.arguments []) [l, r]
  | arguments {l r : Token} {es : List Expr} {us : List Token} (hl : l.isSymbol "(")
    (hes : Derives (.items es) us) (hr : r.isSymbol ")") : Derives (.arguments es) (l :: (us ++ [r]))
  | assign {t sign semi : Token} {e : Expr} {us : List Token} (ht : t.IsName)
    (hsign : sign.isSymbol ":=") (he : Derives (.term 4 e) us) (hsemi : semi.isSymbol ";") :
    Derives (.statement .closed (.assign sign (Parser.variableOf t) e)) (t :: sign :: (us ++ [semi]))
  | callStatement {t semi : Token} {args : List Expr} {us : List Token} (ht : t.IsName)
    (hargs : Derives (.arguments args) us) (hsemi : semi.isSymbol ";") :
    Derives (.statement .closed (.call t t.literal args)) (t :: (us ++ [semi]))
  | writeLn {t l r semi : Token} {e : Expr} {us : List Token} (ht : t.isWord "WRITELN")
    (hl : l.isSymbol "(") (he : Derives (.term 4 e) us) (hr : r.isSymbol ")")
    (hsemi : semi.isSymbol ";") :
    Derives (.statement .closed (.writeLn t e)) (t :: l :: (us ++ [r, semi]))
  | readLn {t l v r semi : Token} (ht : t.isWord "READLN") (hl : l.isSymbol "(") (hv : v.IsName)
    (hr : r.isSymbol ")") (hsemi : semi.isSymbol ";") :
    Derives (.statement .closed (.readLn t (Parser.variableOf v))) [t, l, v, r, semi]
  | block {t final semi : Token} {ss : List Stmt} {us : List Token} (ht : t.isWord "BEGIN")
    (hss : Derives (.statements ss) us) (hfinal : final.isWord "END") (hsemi : semi.isSymbol ";") :
    Derives (.statement .closed (.block t ss)) (t :: (us ++ [final, semi]))
  | bareBlock {t final : Token} {ss : List Stmt} {us : List Token} (ht : t.isWord "BEGIN")
    (hss : Derives (.statements ss) us) (hfinal : final.isWord "END") :
    Derives (.statement .bare (.block t ss)) (t :: (us ++ [final]))
  | ifThen {t thenT : Token} {cond : Expr} {body : Stmt} {e : Ending} {us vs : List Token}
    (ht : t.isWord "IF") (hcond : Derives (.term 4 cond) us) (hthen : thenT.isWord "THEN")
    (hbody : Derives (.statement e body) vs) :
    Derives (.statement e.unmatched (.ifThen t cond body)) (t :: (us ++ thenT :: vs))
  | ifElse {t thenT elseT : Token} {cond : Expr} {body alternative : Stmt} {e : Ending}
    {us vs ws : List Token} (ht : t.isWord "IF") (hcond : Derives (.term 4 cond) us)
    (hthen : thenT.isWord "THEN") (hbody : Derives (.statement .closed body) vs)
    (helse : elseT.isWord "ELSE") (halternative : Derives (.statement e alternative) ws) :
    Derives (.statement e (.ifElse t cond body alternative))
      (t :: (us ++ thenT :: (vs ++ elseT :: ws)))
  | loop {t doT : Token} {cond : Expr} {body : Stmt} {e : Ending} {us vs : List Token}
    (ht : t.isWord "WHILE") (hcond : Derives (.term 4 cond) us) (hdo : doT.isWord "DO")
    (hbody : Derives (.statement e body) vs) :
    Derives (.statement e (.loop t cond body)) (t :: (us ++ doT :: vs))
  | forLoop {t v sign toT doT : Token} {first last : Expr} {body : Stmt} {e : Ending}
    {us vs ws : List Token} (ht : t.isWord "FOR") (hv : v.IsName) (hsign : sign.isSymbol ":=")
    (hfirst : Derives (.term 4 first) us) (hto : toT.isWord "TO") (hlast : Derives (.term 4 last) vs)
    (hdo : doT.isWord "DO") (hbody : Derives (.statement e body) ws) :
    Derives (.statement e (.forLoop t (Parser.variableOf v) first last body))
      (t :: v :: sign :: (us ++ toT :: (vs ++ doT :: ws)))
  | declare {t called semi : Token} {params : List Variable} {body : Stmt} {e : Ending}
    {us vs : List Token} (ht : t.isWord "PROCEDURE") (hcalled : called.IsName)
    (hparams : Parenthesized IsParameter params us) (hsemi : semi.isSymbol ";")
    (hbody : Derives (.statement e body) vs) :
    Derives (.statement e (.declare t called.literal params body))
      (t :: called :: (us ++ semi :: vs))
  | noStatements : Derives (.statements []) []
  | statements {s : Stmt} {ss : List Stmt} {e : Ending} {us vs : List Token}
    (hs : Derives (.statement e s) us) (he : e ≠ .bare) (hss : Derives (.statements ss) vs) :
    Derives (.statements (s :: ss)) (us ++ vs)

/-- Declarations one after another. -/
inductive Declares : List Declaration → List Token → Prop where
  | nil : Declares [] []
  | cons {d : Declaration} {ds : List Declaration} {e : Ending} {us vs : List Token}
    (hd : Derives (.statement e d.toStmt) us) (he : e ≠ .bare) (hds : Declares ds vs) :
    Declares (d :: ds) (us ++ vs)

/-- Declarations, a statement and perhaps a period. A bare statement needs the period. -/
inductive Program.Derives : Program → List Token → Prop where
  | plain {ds : List Declaration} {s : Stmt} {e : Ending} {us vs : List Token} (hds : Declares ds us)
    (hs : MiniPascal.Derives (.statement e s) vs) (he : e ≠ .bare) :
    Program.Derives ⟨ds, some s⟩ (us ++ vs)
  | period {ds : List Declaration} {s : Stmt} {e : Ending} {us vs : List Token} {dot : Token}
    (hds : Declares ds us) (hs : MiniPascal.Derives (.statement e s) vs) (hdot : dot.isSymbol ".") :
    Program.Derives ⟨ds, some s⟩ (us ++ (vs ++ [dot]))

/-- A program is derived, and its statement is not a declaration, which would be one more of those in
front of it. -/
def Program.Describes (p : Program) (ts : List Token) : Prop :=
  p.Derives ts ∧ ∀ d : Declaration, p.main ≠ some d.toStmt

namespace Token

variable {t : Token}

theorem isWord_iff {w : Text} : t.isWord w = true ↔ t.kind = .identifier ∧ t.literal = w := by
  simp [isWord]

theorem isSymbol_iff {w : Text} : t.isSymbol w = true ↔ t.kind = .operator ∧ t.literal = w := by
  simp [isSymbol]

theorem not_isSymbol_of_kind {w : Text} (h : t.kind ≠ .operator) : t.isSymbol w = false := by
  simp [isSymbol, h]

theorem not_isWord_of_kind {w : Text} (h : t.kind ≠ .identifier) : t.isWord w = false := by
  simp [isWord, h]

theorem not_isSymbol_of_ne {w v : Text} (h : t.isSymbol w) (hne : w ≠ v) : t.isSymbol v = false := by
  obtain ⟨hkind, rfl⟩ := isSymbol_iff.mp h
  simp [isSymbol, hne]

theorem not_isWord_of_ne {w v : Text} (h : t.isWord w) (hne : w ≠ v) : ¬ t.isWord v = true := by
  obtain ⟨hkind, rfl⟩ := isWord_iff.mp h
  simp [isWord, hne]

theorem IsName.literal_ne (h : t.IsName) {w : Text} (hw : isKeyword w = true) : t.literal ≠ w := by
  rintro rfl
  rw [h.2] at hw
  cases hw

theorem IsName.not_isWord (h : t.IsName) {w : Text} (hw : isKeyword w = true) :
    ¬ t.isWord w = true := by
  simp [isWord, h.literal_ne hw]

/-- A scanned token that is spelled like an operator is one. -/
theorem Scanned.isSymbol (h : t.Scanned) {w : List Char} (hw : w ∈ operators)
    (ht : t.literal = Text.ofChars w) : t.isSymbol (Text.ofChars w) = true := by
  obtain ⟨c, cs, rfl, -, hletter, hdigit⟩ := operator_head hw
  rw [isSymbol_iff]
  refine ⟨?_, ht⟩
  obtain ⟨v, hv, hliteral⟩ | ⟨-, hliteral⟩ := h
  · have hspelled := Text.ofChars_injective (hliteral.symm.trans ht)
    generalize t.kind = k at hv
    cases hv with
    | identifier hc _ =>
      cases hspelled
      rw [hletter] at hc
      cases hc
    | number hc _ =>
      cases hspelled
      rw [hdigit] at hc
      cases hc
    | operator _ _ _ => rfl
  · cases hliteral.symm.trans ht

/-- A scanned token that is spelled with a letter in front is a word. -/
theorem Scanned.isWord (h : t.Scanned) {c : Char} {cs : List Char} (hc : Source.isLetter c = true)
    (ht : t.literal = Text.ofChars (c :: cs)) : t.isWord (Text.ofChars (c :: cs)) = true := by
  rw [isWord_iff]
  refine ⟨?_, ht⟩
  obtain ⟨v, hv, hliteral⟩ | ⟨-, hliteral⟩ := h
  · have hspelled := Text.ofChars_injective (hliteral.symm.trans ht)
    generalize t.kind = k at hv
    cases hv with
    | identifier _ _ => rfl
    | number hdigit _ =>
      cases hspelled
      rw [not_isDigit_of_isLetter hc] at hdigit
      cases hdigit
    | operator hw _ _ =>
      obtain ⟨d, ds, rfl, -, hletter, -⟩ := operator_head hw
      cases hspelled
      rw [hc] at hletter
      cases hletter
  · cases hliteral.symm.trans ht

end Token

/-- The tokens that a phrase can start with. -/
def Phrase.Starts (t : Token) : Phrase → Prop
  | .term _ _ => t.isSymbol ")" = false
  | .items _ => t.isSymbol ")" = false
  | .arguments _ => t.isSymbol "("
  | .statement _ _ => t.kind = .identifier ∧ t.literal ≠ "END" ∧ t.literal ≠ "ELSE"
  | .statements _ => True

section Starts

open Token

variable {p : Phrase} {ts : List Token}

theorem Token.IsName.starts {t : Token} (h : t.IsName) (e : Ending) (s : Stmt) :
    (Phrase.statement e s).Starts t :=
  ⟨h.1, h.literal_ne (by decide), h.literal_ne (by decide)⟩

theorem Phrase.starts_of_isWord {t : Token} {w : Text} (h : t.isWord w)
    (hend : w ≠ "END") (helse : w ≠ "ELSE") (e : Ending) (s : Stmt) :
    (Phrase.statement e s).Starts t := by
  obtain ⟨hkind, rfl⟩ := isWord_iff.mp h
  exact ⟨hkind, hend, helse⟩

theorem Derives.exists_starts (h : Derives p ts) (hp : ∀ ss, p ≠ .statements ss) :
    ∃ t us, ts = t :: us ∧ p.Starts t := by
  induction h with
  | number ht => exact ⟨_, _, rfl, not_isSymbol_of_kind (by rw [ht.1]; decide)⟩
  | trueWord ht => exact ⟨_, _, rfl, not_isSymbol_of_kind (by rw [(isWord_iff.mp ht).1]; decide)⟩
  | falseWord ht => exact ⟨_, _, rfl, not_isSymbol_of_kind (by rw [(isWord_iff.mp ht).1]; decide)⟩
  | var ht => exact ⟨_, _, rfl, not_isSymbol_of_kind (by rw [ht.1]; decide)⟩
  | call ht _ _ => exact ⟨_, _, rfl, not_isSymbol_of_kind (by rw [ht.1]; decide)⟩
  | parens hl _ _ _ => exact ⟨_, _, rfl, not_isSymbol_of_ne hl (by decide)⟩
  | minus ht _ _ => exact ⟨_, _, rfl, not_isSymbol_of_ne ht (by decide)⟩
  | climb _ _ ih => exact ih fun ss hss => by cases hss
  | binary _ _ _ _ ih _ =>
    obtain ⟨t, us, rfl, ht⟩ := ih fun ss hss => by cases hss
    exact ⟨t, _, rfl, ht⟩
  | item _ ih => exact ih fun ss hss => by cases hss
  | items _ _ _ ih _ =>
    obtain ⟨t, us, rfl, ht⟩ := ih fun ss hss => by cases hss
    exact ⟨t, _, rfl, ht⟩
  | noArguments hl _ => exact ⟨_, _, rfl, hl⟩
  | arguments hl _ _ _ => exact ⟨_, _, rfl, hl⟩
  | assign ht _ _ _ _ => exact ⟨_, _, rfl, ht.starts _ _⟩
  | callStatement ht _ _ _ => exact ⟨_, _, rfl, ht.starts _ _⟩
  | writeLn ht _ _ _ _ _ => exact ⟨_, _, rfl, Phrase.starts_of_isWord ht (by decide) (by decide) _ _⟩
  | readLn ht _ _ _ _ => exact ⟨_, _, rfl, Phrase.starts_of_isWord ht (by decide) (by decide) _ _⟩
  | block ht _ _ _ _ => exact ⟨_, _, rfl, Phrase.starts_of_isWord ht (by decide) (by decide) _ _⟩
  | bareBlock ht _ _ _ => exact ⟨_, _, rfl, Phrase.starts_of_isWord ht (by decide) (by decide) _ _⟩
  | ifThen ht _ _ _ _ _ =>
    exact ⟨_, _, rfl, Phrase.starts_of_isWord ht (by decide) (by decide) _ _⟩
  | ifElse ht _ _ _ _ _ _ _ _ =>
    exact ⟨_, _, rfl, Phrase.starts_of_isWord ht (by decide) (by decide) _ _⟩
  | loop ht _ _ _ _ _ => exact ⟨_, _, rfl, Phrase.starts_of_isWord ht (by decide) (by decide) _ _⟩
  | forLoop ht _ _ _ _ _ _ _ _ _ _ =>
    exact ⟨_, _, rfl, Phrase.starts_of_isWord ht (by decide) (by decide) _ _⟩
  | declare ht _ _ _ _ _ =>
    exact ⟨_, _, rfl, Phrase.starts_of_isWord ht (by decide) (by decide) _ _⟩
  | noStatements => exact absurd rfl (hp _)
  | statements _ _ _ _ _ => exact absurd rfl (hp _)

end Starts

/-- The semicolon that a bare statement lacks. -/
theorem Derives.exists_closed {s : Stmt} {us : List Token} {semi : Token}
    (h : Derives (.statement .bare s) us) (hsemi : semi.isSymbol ";") :
    ∃ e, e ≠ .bare ∧ Derives (.statement e s) (us ++ [semi]) := by
  generalize hp : Phrase.statement .bare s = p at h
  induction h generalizing s with
  | bareBlock ht hss hfinal =>
    cases hp
    refine ⟨.closed, by decide, ?_⟩
    simpa using Derives.block ht hss hfinal hsemi
  | @ifThen t thenT cond body e us vs ht hcond hthen hbody _ ih =>
    cases e <;> cases hp
    obtain ⟨e, he, hclosed⟩ := ih rfl
    refine ⟨e.unmatched, mt Ending.unmatched_eq_bare.mp he, ?_⟩
    simpa using Derives.ifThen ht hcond hthen hclosed
  | ifElse ht hcond hthen hbody helse halternative _ _ ih =>
    cases hp
    obtain ⟨e, he, hclosed⟩ := ih rfl
    refine ⟨e, he, ?_⟩
    simpa using Derives.ifElse ht hcond hthen hbody helse hclosed
  | loop ht hcond hdo hbody _ ih =>
    cases hp
    obtain ⟨e, he, hclosed⟩ := ih rfl
    refine ⟨e, he, ?_⟩
    simpa using Derives.loop ht hcond hdo hclosed
  | forLoop ht hv hsign hfirst hto hlast hdo hbody _ _ ih =>
    cases hp
    obtain ⟨e, he, hclosed⟩ := ih rfl
    refine ⟨e, he, ?_⟩
    simpa using Derives.forLoop ht hv hsign hfirst hto hlast hdo hclosed
  | declare ht hcalled hparams hsemi' hbody ih =>
    cases hp
    obtain ⟨e, he, hclosed⟩ := ih rfl
    refine ⟨e, he, ?_⟩
    simpa using Derives.declare ht hcalled hparams hsemi' hclosed
  | _ => cases hp

end MiniPascal
