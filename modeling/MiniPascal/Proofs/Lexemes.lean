import MiniPascal.Proofs.Scanning

/-! Texts that are written lexeme by lexeme. The scanner gives back the lexemes they were made of. -/

namespace MiniPascal

@[simp] theorem Text.chars_append (a b : Text) : (a ++ b).chars = a.chars ++ b.chars :=
  List.map_append

@[simp] theorem Text.chars_cons (g : Glyph) (t : Text) :
    Text.chars (g :: t) = g.toChar :: t.chars := rfl

/-- What a token is, apart from where it stands. -/
def Token.shape (t : Token) : Token.Kind × Text := (t.kind, t.literal)

theorem Token.shape_eq_iff {t : Token} {k : Token.Kind} {l : Text} :
    t.shape = (k, l) ↔ t.kind = k ∧ t.literal = l := Iff.of_eq (Prod.mk.injEq ..)

namespace Token

variable {k : Kind} {w rest : List Char} {c : Char}

/-- A character that is no part of any lexeme of its neighbours. -/
def IsBreak (c : Char) : Prop := Source.isLetter c = false ∧ Source.isDigit c = false

theorem not_extends_word (hk : k ≠ .operator) (hc : IsBreak c) : ¬ Extends k w c := by
  obtain ⟨hletter, hdigit⟩ := hc
  cases k <;> simp_all [Extends]

theorem not_extends_blank (hc : Gap.isSpace c = true) : ¬ Extends k w c := by
  have hbreak : IsBreak c := by
    simp only [Gap.isSpace, Bool.or_eq_true, beq_iff_eq] at hc
    rcases hc with ((rfl | rfl) | rfl) | rfl <;> exact ⟨by decide, by decide⟩
  by_cases hk : k = .operator
  · subst hk
    rintro ⟨v, hv, hprefix⟩
    have hmem : c ∈ v := hprefix.subset (by simp)
    have hnone : ∀ v ∈ operators, (v.all fun d => !Gap.isSpace d) = true := by decide
    have hc' := List.all_eq_true.mp (hnone v hv) c hmem
    rw [hc] at hc'
    cases hc'
  · exact not_extends_word hk hbreak

/-- No operator goes on behind one that is no front of another. -/
theorem not_extends_alone (hw : ∀ v ∈ operators, w <+: v → v = w) : ¬ Extends .operator w c := by
  rintro ⟨v, hv, hprefix⟩
  have heq := hw v hv ((List.prefix_append w [c]).trans hprefix)
  have hlen := hprefix.length_le
  rw [heq, List.length_append, List.length_singleton] at hlen
  omega

theorem IsLexeme.ne_sentinel (h : IsLexeme k w) : '$' ∉ w := by
  cases h with
  | identifier hc hcs =>
    intro hmem
    rcases List.mem_cons.mp hmem with heq | hmem
    · exact absurd (heq ▸ hc) (by decide)
    · exact absurd (hcs _ hmem) (by decide)
  | number hc hcs =>
    intro hmem
    rcases List.mem_cons.mp hmem with heq | hmem
    · exact absurd (heq ▸ hc) (by decide)
    · exact absurd (hcs _ hmem) (by decide)
  | operator hw _ _ =>
    have hnone : ∀ v ∈ operators, '$' ∉ v := by decide
    exact hnone _ hw

end Token

/-- In front of the characters `rest`, a text is made of blanks and of lexemes, none of which goes on
with the character behind it. -/
inductive Lexes (rest : List Char) : List Char → List (Token.Kind × Text) → Prop where
  | nil : Lexes rest [] []
  | blank {c : Char} {cs : List Char} {ws : List (Token.Kind × Text)}
    (hc : Gap.isSpace c = true) (h : Lexes rest cs ws) : Lexes rest (c :: cs) ws
  | lexeme {k : Token.Kind} {w cs : List Char} {ws : List (Token.Kind × Text)}
    (hw : Token.IsLexeme k w) (hmax : ∀ c ∈ (cs ++ rest).head?, ¬ Token.Extends k w c)
    (h : Lexes rest cs ws) : Lexes rest (w ++ cs) ((k, Text.ofChars w) :: ws)

namespace Lexes

variable {rest cs ds : List Char} {ws vs : List (Token.Kind × Text)}

theorem append (h : Lexes (ds ++ rest) cs ws) (h' : Lexes rest ds vs) :
    Lexes rest (cs ++ ds) (ws ++ vs) := by
  induction h with
  | nil => exact h'
  | blank hc _ ih => exact .blank hc ih
  | lexeme hw hmax _ ih =>
    rw [List.append_assoc]
    refine .lexeme hw ?_ ih
    rwa [List.append_assoc]

theorem sentinel_not_mem (h : Lexes rest cs ws) : '$' ∉ cs := by
  induction h with
  | nil => exact List.not_mem_nil
  | blank hc _ ih =>
    intro hmem
    rcases List.mem_cons.mp hmem with heq | hmem
    · exact absurd (heq ▸ hc) (by decide)
    · exact ih hmem
  | lexeme hw _ _ ih =>
    exact fun hmem => (List.mem_append.mp hmem).elim hw.ne_sentinel ih

/-- The blanks belong to the gap in front of the next lexeme, or to the last one. -/
theorem exists_pieces (h : Lexes [] cs ws) : ∃ ps last, Piece.Fit ps last ∧
    Piece.text ps last = cs ∧ ps.map (fun p => (p.kind, Text.ofChars p.lexeme)) = ws := by
  induction h with
  | nil => exact ⟨[], [], .nil, rfl, rfl⟩
  | @blank c cs ws hc _ ih =>
    obtain ⟨ps, last, hfit, htext, hws⟩ := ih
    cases ps with
    | nil =>
      refine ⟨[], c :: last, .blank hc hfit, ?_, hws⟩
      rw [← htext]
      rfl
    | cons p ps =>
      obtain ⟨hgap, hlexeme, hmax, hfit⟩ := hfit
      refine ⟨{ p with gap := c :: p.gap } :: ps, last, ⟨.blank hc hgap, hlexeme, hmax, hfit⟩, ?_, hws⟩
      rw [← htext]
      rfl
  | @lexeme k w cs ws hw hmax _ ih =>
    obtain ⟨ps, last, hfit, htext, hws⟩ := ih
    rw [List.append_nil, ← htext] at hmax
    refine ⟨⟨[], k, w⟩ :: ps, last, ⟨.nil, hw, hmax, hfit⟩, ?_, ?_⟩
    · rw [Piece.text, htext, List.nil_append]
    · rw [List.map_cons, hws]

end Lexes

theorem Piece.map_shape_tokens (ps : List Piece) (before : List Char) :
    (Piece.tokens before ps).map Token.shape =
      ps.map fun p => (p.kind, Text.ofChars p.lexeme) := by
  induction ps generalizing before with
  | nil => rfl
  | cons p ps ih =>
    rw [Piece.tokens, List.map_cons, List.map_cons, ih]
    rfl

/-- A text that is written lexeme by lexeme scans to them. -/
theorem Lexes.exists_scans {t : Text} {ws : List (Token.Kind × Text)} (h : Lexes [] t.chars ws) :
    ∃ ts e, (Source.ofText t none).Scans ts e ∧ ts.map Token.shape = ws := by
  obtain ⟨ps, last, hfit, htext, hws⟩ := h.exists_pieces
  have hrest : (Source.ofText t none).rest = Piece.text ps last := by
    have hall : ∀ c ∈ t.chars, decide (c ≠ '$') = true := by
      intro c hc
      refine decide_eq_true ?_
      rintro rfl
      exact h.sentinel_not_mem hc
    have hnone : ∀ c ∈ ([] : List Char).head?, decide (c ≠ '$') = false := by
      intro c hc
      cases hc
    have hwhole := Source.takeWhile_eq hall hnone
    rw [List.append_nil] at hwhole
    rw [htext]
    exact hwhole
  have hfailure : (Source.ofText t none).failure = none := by simp [Source.ofText]
  refine ⟨_, _, Piece.scans Position.start_eq hfailure hfit hrest, ?_⟩
  rw [Piece.map_shape_tokens, hws]

/-- The lexemes of some tokens, each with a space in front. -/
def Token.spaced (us : List Token) : Text := us.flatMap fun u => .char ' ' :: u.literal

theorem Lexes.spaced {us : List Token} (hus : ∀ u ∈ us, u.Lexed) :
    Lexes [] (Token.spaced us).chars (us.map Token.shape) := by
  induction us with
  | nil => exact .nil
  | cons u us ih =>
    obtain ⟨⟨w, hw, hliteral⟩, hus⟩ := List.forall_mem_cons.mp hus
    have hchars : (Token.spaced (u :: us)).chars = ' ' :: (w ++ (Token.spaced us).chars) := by
      rw [Token.spaced, List.flatMap_cons, hliteral, Text.chars_append, Text.chars_cons,
        Text.chars_ofChars, List.cons_append]
      rfl
    have hshape : u.shape = (u.kind, Text.ofChars w) := by rw [Token.shape, hliteral]
    rw [hchars, List.map_cons, hshape]
    refine .blank (by decide) (.lexeme hw (fun c hc => ?_) (ih hus))
    cases us with
    | nil => cases hc
    | cons v vs =>
      cases hc
      exact Token.not_extends_blank (by decide)

end MiniPascal
