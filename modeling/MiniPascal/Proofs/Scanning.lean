import MiniPascal.Proofs.Spelling
import MiniPascal.Token.Scanner

/-! What the scanner makes of a text. The text is cut into lexemes and the gaps between them in one
way only, and the scanner finds it: its tokens are the lexemes, each at the position of its first
character. -/

namespace MiniPascal

/-- The position behind some characters, counted in the text itself. -/
def Position.behind (cs : List Char) : Position :=
  ⟨1 + cs.count '\n', 1 + (cs.reverse.takeWhile (· ≠ '\n')).length⟩

theorem Position.start_eq : Position.start = .behind [] := rfl

theorem Position.start_advance (cs : List Char) : Position.start.advance cs = .behind cs := by
  induction cs using List.reverseRecOn with
  | nil => rfl
  | append_singleton cs c ih =>
    rw [advance_append, ih, advance_cons, advance_nil, next, behind, behind, List.count_append,
      List.reverse_append, List.reverse_singleton, List.singleton_append, List.takeWhile_cons]
    by_cases hc : c = '\n'
    · simp [hc]
      omega
    · simp [hc]
      omega

namespace Token

/-- The spellings of a kind of tokens. -/
inductive IsLexeme : Kind → List Char → Prop where
  | identifier {c : Char} {cs : List Char} (hc : Source.isLetter c = true)
    (hcs : ∀ d ∈ cs, (Source.isLetter d || Source.isDigit d) = true) : IsLexeme .identifier (c :: cs)
  | number {c : Char} {cs : List Char} (hc : Source.isDigit c = true)
    (hcs : ∀ d ∈ cs, Source.isDigit d = true) : IsLexeme .number (c :: cs)
  | operator {w : List Char} (hw : w ∈ operators) (hline : w ≠ ['/', '/']) (hblock : w ≠ ['/', '*']) :
    IsLexeme .operator w

/-- Behind the spelling `w`, the character `c` would belong to it: it goes on with an identifier or a
number, or with the front of an operator or of the opener of a comment. -/
def Extends : Kind → List Char → Char → Prop
  | .identifier, _, c => (Source.isLetter c || Source.isDigit c) = true
  | .number, _, c => Source.isDigit c = true
  | .operator, w, c => ∃ v ∈ operators, w ++ [c] <+: v
  | _, _, _ => False

end Token

namespace Gap

/-- The rest of a comment inside `n` openers, through the end of the outermost: from left to right,
every opener adds a comment and every closer ends one. -/
inductive Commented : Nat → List Char → Prop where
  | done : Commented 0 []
  | close {n : Nat} {cs : List Char} (h : Commented n cs) : Commented (n + 1) ('*' :: '/' :: cs)
  | nest {n : Nat} {cs : List Char} (h : Commented (n + 2) cs) : Commented (n + 1) ('/' :: '*' :: cs)
  | other {n : Nat} {c : Char} {cs : List Char} (hcloser : ∀ ds, c = '*' → cs ≠ '/' :: ds)
    (hopener : ∀ ds, c = '/' → cs ≠ '*' :: ds) (h : Commented (n + 1) cs) : Commented (n + 1) (c :: cs)

/-- Blanks and comments. A line comment goes on through the end of its line, or of the text if the
gap is the `last` one. -/
inductive IsGap (last : Bool) : List Char → Prop where
  | nil : IsGap last []
  | blank {c : Char} {cs : List Char} (hc : isSpace c = true) (h : IsGap last cs) :
    IsGap last (c :: cs)
  | line {body cs : List Char} (hbody : '\n' ∉ body) (h : IsGap last cs) :
    IsGap last ('/' :: '/' :: (body ++ '\n' :: cs))
  | block {body cs : List Char} (hbody : Commented 1 body) (h : IsGap last cs) :
    IsGap last ('/' :: '*' :: (body ++ cs))
  | lastLine {body : List Char} (hlast : last = true) (hbody : '\n' ∉ body) :
    IsGap last ('/' :: '/' :: body)

/-- A text at whose front there is no gap. -/
structure Stops (c : Char) (cs : List Char) : Prop where
  space : isSpace c ≠ true
  line : ∀ ds, c = '/' → cs ≠ '/' :: ds
  block : ∀ ds, c = '/' → cs ≠ '*' :: ds

section Skip

variable {p : Position} {n : Nat} {last : Bool} {c : Char} {cs rest body g : List Char}

theorem Commented.ne_nil (h : Commented (n + 1) body) : body ≠ [] := by
  cases h <;> exact List.cons_ne_nil _ _

theorem skip_stops (h : Stops c cs) : plain.skip p (c :: cs) = ⟨c :: cs, p, none⟩ := by
  rw [skip, if_neg h.space]
  · exact h.line
  · exact h.block

theorem ne_append_of_ne_nil {d : Char} (hbody : body ≠ []) (h : ∀ ds, body ≠ d :: ds) :
    ∀ ds, body ++ rest ≠ d :: ds := by
  intro ds heq
  cases body with
  | nil => exact hbody rfl
  | cons e body =>
    rw [List.cons_append, List.cons.injEq] at heq
    exact h body (by rw [heq.1])

theorem skip_commented (h : Commented n body) (ps : List Position) (hn : ps.length = n) :
    (close ps).skip p (body ++ rest) = plain.skip (p.advance body) rest := by
  induction h generalizing ps p with
  | done =>
    rw [List.eq_nil_of_length_eq_zero hn]
    rfl
  | close h ih =>
    cases ps with
    | nil => cases hn
    | cons opened outer =>
      rw [close, List.cons_append, List.cons_append, skip, ih outer (Nat.succ.inj hn)]
      rfl
  | nest h ih =>
    cases ps with
    | nil => cases hn
    | cons opened outer =>
      rw [close, List.cons_append, List.cons_append, skip]
      exact ih (p :: opened :: outer) (congrArg (· + 1) hn)
  | other hcloser hopener h ih =>
    cases ps with
    | nil => cases hn
    | cons opened outer =>
      rw [close, List.cons_append, skip]
      · exact ih (opened :: outer) hn
      · exact fun ds hc => ne_append_of_ne_nil h.ne_nil (fun ds => hcloser ds hc) ds
      · exact fun ds hc => ne_append_of_ne_nil h.ne_nil (fun ds => hopener ds hc) ds

theorem skip_line (hbody : '\n' ∉ body) :
    line.skip p (body ++ rest) = line.skip (p.advance body) rest := by
  induction body generalizing p with
  | nil => rfl
  | cons c body ih =>
    obtain ⟨hc, hbody⟩ := not_or.mp (mt List.mem_cons.mpr hbody)
    rw [List.cons_append, skip, if_neg (Ne.symm hc), ih hbody]
    rfl

theorem stops_blank (hc : isSpace c = true) : c ≠ '/' := by
  rintro rfl
  cases hc

/-- A gap is passed over. -/
theorem skip_gap (h : IsGap false g) : plain.skip p (g ++ rest) = plain.skip (p.advance g) rest := by
  induction h generalizing p with
  | nil => rfl
  | blank hc h ih =>
    rw [List.cons_append, skip, if_pos hc, ih]
    · rfl
    · exact fun _ heq => absurd heq (stops_blank hc)
    · exact fun _ heq => absurd heq (stops_blank hc)
  | line hbody h ih =>
    rw [List.cons_append, List.cons_append, skip, List.append_assoc, skip_line hbody,
      List.cons_append, skip, if_pos rfl, ih]
    simp
  | @block body cs hbody h ih =>
    rw [List.cons_append, List.cons_append, skip, List.append_assoc]
    have hclosed : (block p []).skip (p.advance ['/', '*']) (body ++ (cs ++ rest)) = _ :=
      skip_commented hbody [p] rfl
    rw [hclosed, ih]
    simp
  | lastLine hlast hbody => cases hlast

theorem skip_lastGap (h : IsGap true g) : plain.skip p g = ⟨[], p.advance g, none⟩ := by
  induction h generalizing p with
  | nil => rfl
  | blank hc h ih =>
    rw [skip, if_pos hc, ih]
    · rfl
    · exact fun _ heq => absurd heq (stops_blank hc)
    · exact fun _ heq => absurd heq (stops_blank hc)
  | line hbody h ih =>
    rw [skip, skip_line hbody, skip, if_pos rfl, ih]
    simp
  | @block body cs hbody h ih =>
    have hclosed : (block p []).skip (p.advance ['/', '*']) (body ++ cs) = _ :=
      skip_commented hbody [p] rfl
    rw [skip, hclosed, ih]
    simp
  | @lastLine body hlast hbody =>
    have hline : line.skip (p.advance ['/', '/']) (body ++ []) = _ := skip_line hbody
    rw [List.append_nil] at hline
    rw [skip, hline]
    rfl

/-- What has been passed over from inside a gap to its end. -/
def Completes (last : Bool) (cs : List Char) : Gap → Prop
  | plain => IsGap last cs
  | line => IsGap last ('/' :: '/' :: cs)
  | block _ outer => ∃ body g, cs = body ++ g ∧ Commented (outer.length + 1) body ∧ IsGap last g

theorem Completes.exists_commented {ps : List Position} (h : (close ps).Completes last cs) :
    ∃ body g, cs = body ++ g ∧ Commented ps.length body ∧ IsGap last g := by
  cases ps with
  | nil => exact ⟨[], cs, rfl, .done, h⟩
  | cons opened outer => exact h

theorem isGap_line_cons (hc : c ≠ '\n') (h : IsGap last ('/' :: '/' :: cs)) :
    IsGap last ('/' :: '/' :: c :: cs) := by
  cases h with
  | blank hspace h => cases hspace
  | @line body cs hbody h =>
    rw [← List.cons_append]
    exact .line (fun hmem => (List.mem_cons.mp hmem).elim (fun heq => hc heq.symm) hbody) h
  | lastLine hlast hbody =>
    exact .lastLine hlast fun hmem => (List.mem_cons.mp hmem).elim (fun heq => hc heq.symm) hbody

/-- What is passed over is a gap, and there is none at the front of what is left. -/
theorem completes_skip (gap : Gap) (p : Position) (cs : List Char)
    (h : (gap.skip p cs).unclosed = none) :
    ∃ front, cs = front ++ (gap.skip p cs).rest ∧ (gap.skip p cs).pos = p.advance front ∧
      gap.Completes (gap.skip p cs).rest.isEmpty front ∧
      ∀ c ds, (gap.skip p cs).rest = c :: ds → Stops c ds := by
  fun_induction skip gap p cs with
  | case1 p cs ih =>
    obtain ⟨front, hcs, hpos, hcompletes, hstops⟩ := ih h
    exact ⟨'/' :: '/' :: front, congrArg (fun ds => '/' :: '/' :: ds) hcs, hpos, hcompletes, hstops⟩
  | case2 p cs ih =>
    obtain ⟨front, hcs, hpos, ⟨body, g, rfl, hbody, hg⟩, hstops⟩ := ih h
    exact ⟨'/' :: '*' :: (body ++ g), congrArg (fun ds => '/' :: '*' :: ds) hcs, hpos, .block hbody hg,
      hstops⟩
  | case3 p c cs _ _ hc ih =>
    obtain ⟨front, hcs, hpos, hcompletes, hstops⟩ := ih h
    exact ⟨c :: front, congrArg (c :: ·) hcs, hpos, .blank hc hcompletes, hstops⟩
  | case4 p c cs hline hblock hc =>
    refine ⟨[], rfl, rfl, .nil, fun d ds heq => ?_⟩
    cases heq
    exact ⟨hc, hline, hblock⟩
  | case5 p c cs ih =>
    obtain ⟨front, hcs, hpos, hcompletes, hstops⟩ := ih h
    refine ⟨c :: front, congrArg (c :: ·) hcs, hpos, ?_, hstops⟩
    by_cases hc : c = '\n'
    · subst hc
      rw [if_pos rfl] at hcompletes ⊢
      exact .line (show '\n' ∉ [] from List.not_mem_nil) hcompletes
    · rw [if_neg hc] at hcompletes ⊢
      exact isGap_line_cons hc hcompletes
  | case6 opened outer p cs ih =>
    obtain ⟨front, hcs, hpos, hcompletes, hstops⟩ := ih h
    obtain ⟨body, g, rfl, hbody, hg⟩ := hcompletes.exists_commented
    exact ⟨'*' :: '/' :: (body ++ g), congrArg (fun ds => '*' :: '/' :: ds) hcs, hpos,
      ⟨'*' :: '/' :: body, g, rfl, .close hbody, hg⟩, hstops⟩
  | case7 opened outer p cs ih =>
    obtain ⟨front, hcs, hpos, ⟨body, g, rfl, hbody, hg⟩, hstops⟩ := ih h
    exact ⟨'/' :: '*' :: (body ++ g), congrArg (fun ds => '/' :: '*' :: ds) hcs, hpos,
      ⟨'/' :: '*' :: body, g, rfl, .nest hbody, hg⟩, hstops⟩
  | case8 opened outer p c cs hcloser hopener ih =>
    obtain ⟨front, hcs, hpos, ⟨body, g, rfl, hbody, hg⟩, hstops⟩ := ih h
    refine ⟨c :: (body ++ g), congrArg (c :: ·) hcs, hpos, ⟨c :: body, g, rfl, .other ?_ ?_ hbody, hg⟩,
      hstops⟩
    · rintro ds hc rfl
      exact hcloser _ hc hcs
    · rintro ds hc rfl
      exact hopener _ hc hcs
  | case9 opened outer p => cases h
  | case10 p => exact ⟨[], rfl, rfl, .nil, fun c ds heq => by cases heq⟩
  | case11 p => exact ⟨[], rfl, rfl, .lastLine rfl List.not_mem_nil, fun c ds heq => by cases heq⟩

theorem skip_unclosed {gap : Gap} {q : Position} (h : (gap.skip p cs).unclosed = some q) :
    (gap.skip p cs).rest = [] := by
  fun_induction skip gap p cs with
  | case4 => cases h
  | case9 => rfl
  | case10 => cases h
  | case11 => cases h
  | _ => rename_i ih; exact ih h

end Skip

end Gap

namespace Token

variable {k : Kind} {w rest : List Char}

theorem operator_head {v : List Char} (hv : v ∈ operators) : ∃ c cs, v = c :: cs ∧
    Gap.isSpace c = false ∧ Source.isLetter c = false ∧ Source.isDigit c = false := by
  have hall : ∀ v ∈ operators, v.head?.any (fun c =>
      !(Gap.isSpace c || Source.isLetter c || Source.isDigit c)) = true := by decide
  have hclass := hall v hv
  cases v with
  | nil => cases hclass
  | cons c cs =>
    simp only [List.head?_cons, Option.any_some, Bool.not_eq_true', Bool.or_eq_false_iff] at hclass
    exact ⟨c, cs, rfl, hclass.1.1, hclass.1.2, hclass.2⟩

theorem operator_slash {v : List Char} (hv : v ∈ operators) (hslash : v.head? = some '/') :
    v = ['/'] ∨ v = ['/', '/'] ∨ v = ['/', '*'] := by
  revert v
  decide

theorem not_isDigit_of_isLetter {c : Char} (hc : Source.isLetter c = true) :
    Source.isDigit c = false := by
  by_contra hdigit
  simp only [Source.isLetter, Source.isDigit, Bool.or_eq_true, Bool.and_eq_true, decide_eq_true_eq,
    Bool.not_eq_false, Char.le_def, UInt32.le_iff_toNat_le] at hc hdigit
  have hnine : '9'.val.toNat < 'A'.val.toNat := by decide
  have hnine' : '9'.val.toNat < 'a'.val.toNat := by decide
  omega

theorem isSpace_eq_false {c : Char} (hc : Source.isLetter c = true ∨ Source.isDigit c = true) :
    Gap.isSpace c = false ∧ c ≠ '/' := by
  refine ⟨by_contra fun hspace => ?_, ?_⟩
  · simp only [Gap.isSpace, Bool.not_eq_false, Bool.or_eq_true, beq_iff_eq] at hspace
    rcases hspace with ((rfl | rfl) | rfl) | rfl <;> revert hc <;> decide
  · rintro rfl
    revert hc
    decide

/-- In front of a lexeme that is not extended there is no gap. -/
theorem IsLexeme.stops (h : IsLexeme k w) (hmax : ∀ c ∈ rest.head?, ¬ Extends k w c) :
    ∃ c cs, w = c :: cs ∧ Gap.Stops c (cs ++ rest) := by
  cases h with
  | @identifier c cs hc hcs =>
    obtain ⟨hspace, hslash⟩ := isSpace_eq_false (.inl hc)
    exact ⟨c, cs, rfl, by simp [hspace], fun _ heq => absurd heq hslash,
      fun _ heq => absurd heq hslash⟩
  | @number c cs hc hcs =>
    obtain ⟨hspace, hslash⟩ := isSpace_eq_false (.inr hc)
    exact ⟨c, cs, rfl, by simp [hspace], fun _ heq => absurd heq hslash,
      fun _ heq => absurd heq hslash⟩
  | operator hw hline hblock =>
    obtain ⟨c, cs, rfl, hspace, -, -⟩ := operator_head hw
    have hnext : ∀ d ds, [c, d] ∈ operators → c = '/' → cs ++ rest ≠ d :: ds := by
      intro d ds hd hc heq
      subst hc
      obtain hcs | hcs | hcs := operator_slash hw rfl
      · cases hcs
        exact hmax d (by rw [show rest = d :: ds from heq]; rfl) ⟨_, hd, List.prefix_refl _⟩
      · exact hline hcs
      · exact hblock hcs
    exact ⟨c, cs, rfl, by simp [hspace], fun ds hc => hnext '/' ds (by rw [hc]; decide) hc,
      fun ds hc => hnext '*' ds (by rw [hc]; decide) hc⟩

end Token

namespace Source

open Token

variable {s : Source} {k : Kind} {g w rest : List Char}

theorem starts_operatorTrie (c : Char) :
    operatorTrie.starts c = true ↔ ∃ v ∈ operators, v.head? = some c := by
  rw [Trie.starts, ← Trie.isSome_walk?_singleton, operatorTrie, Trie.isSome_walk?_ofList]
  simp only [List.cons_ne_nil, false_or]
  refine exists_congr fun v => and_congr_right fun _ => ?_
  cases v with
  | nil => simp
  | cons d v => simp [List.cons_prefix_cons, eq_comm]

/-- An operator that is not extended is the longest one. -/
theorem longest_operatorTrie (hw : w ∈ operators)
    (hmax : ∀ c ∈ rest.head?, ¬ Extends .operator w c) :
    operatorTrie.longest (w ++ rest) = (w, true) := by
  obtain ⟨c, cs, hcons, -⟩ := operator_head hw
  refine Trie.longest_ofList hw (hcons ▸ List.cons_ne_nil c cs) fun c hc v hv hprefix => ?_
  exact hmax c hc ⟨v, hv, hprefix⟩

theorem drop_append (hs : s.rest = w ++ rest) :
    s.drop w = { s with rest := rest, pos := s.pos.advance w } := by
  rw [drop, hs, List.drop_left]

/-- Taking characters one after the other gets to the furthest node, and takes the walk to it. -/
theorem exists_follow (failure : Option Text) (t : Trie) (p : Position) (cs : List Char) :
    ∃ w rest, cs = w ++ rest ∧ t.walk? w = some (t.furthest cs) ∧
      follow failure t p cs = (t.furthest cs, ⟨rest, p.advance w, failure⟩) := by
  induction cs generalizing t p with
  | nil => exact ⟨[], [], rfl, rfl, rfl⟩
  | cons c cs ih =>
    rw [Trie.furthest, follow]
    cases hc : t.child? c with
    | none => exact ⟨[], c :: cs, rfl, rfl, rfl⟩
    | some u =>
      obtain ⟨w, rest, hcs, hwalk, hfollow⟩ := ih u (p.next c)
      exact ⟨c :: w, rest, congrArg (c :: ·) hcs, by rw [Trie.walk?_cons, hc]; exact hwalk, hfollow⟩

/-- The scanner takes the longest beginning of an operator, and no more. -/
theorem nextOperator_eq (s : Source) :
    s.nextOperator =
      (if (operatorTrie.longest s.rest).2 then
          .ok ⟨.operator, Text.ofChars (operatorTrie.longest s.rest).1, s.pos⟩
        else .error (.invalidOperator (operatorTrie.longest s.rest).1 s.pos),
        s.drop (operatorTrie.longest s.rest).1) := by
  obtain ⟨w, rest, hs, hwalk, hfollow⟩ := exists_follow s.failure operatorTrie s.pos s.rest
  obtain ⟨hlabelled, hroot⟩ := Trie.labelled_ofList operators
  have hw : (operatorTrie.longest s.rest).1 = w :=
    (hlabelled w _ hwalk).trans (by rw [hroot, List.nil_append])
  have hdrop : s.drop (operatorTrie.longest s.rest).1 = ⟨rest, s.pos.advance w, s.failure⟩ := by
    rw [hw, drop_append hs]
  rw [hdrop, nextOperator, hfollow]
  rfl

theorem takeWhile_eq {p : Char → Bool} (hw : ∀ c ∈ w, p c = true)
    (hmax : ∀ c ∈ rest.head?, p c = false) : (w ++ rest).takeWhile p = w := by
  rw [List.takeWhile_append_of_pos hw]
  cases rest with
  | nil => simp
  | cons c rest => simp [hmax c rfl]

theorem nextRun_eq {p : Char → Bool} (hs : s.rest = w ++ rest) (hw : ∀ c ∈ w, p c = true)
    (hmax : ∀ c ∈ rest.head?, p c = false) :
    s.nextRun k p = (.ok ⟨k, Text.ofChars w, s.pos⟩,
      { s with rest := rest, pos := s.pos.advance w }) := by
  rw [nextRun, hs, takeWhile_eq hw hmax, drop_append hs]

theorem not_starts_operatorTrie {c : Char} (hc : isLetter c = true ∨ isDigit c = true) :
    operatorTrie.starts c = false := by
  by_contra h
  obtain ⟨v, hv, hhead⟩ := (starts_operatorTrie c).mp (Bool.not_eq_false _ ▸ h)
  obtain ⟨d, ds, rfl, -, hletter, hdigit⟩ := operator_head hv
  cases hhead
  simp [hletter, hdigit] at hc

/-- A lexeme that is not extended is the next token. -/
theorem nextHere_eq (hs : s.rest = w ++ rest) (hw : IsLexeme k w)
    (hmax : ∀ c ∈ rest.head?, ¬ Extends k w c) :
    s.nextHere = (.ok ⟨k, Text.ofChars w, s.pos⟩,
      { s with rest := rest, pos := s.pos.advance w }) := by
  cases hw with
  | @identifier c cs hc hcs =>
    have hoperator := not_starts_operatorTrie (.inl hc)
    have hdigit := not_isDigit_of_isLetter hc
    have hrun := nextRun_eq (k := .identifier) (p := fun d => isLetter d || isDigit d) hs
      (by simpa [hc] using hcs) (fun d hd => by simpa [Extends] using hmax d hd)
    rw [nextHere, hs]
    simp only [List.cons_append, hoperator, hdigit, hc, if_true, Bool.false_eq_true, if_false]
    exact hrun
  | @number c cs hc hcs =>
    have hoperator := not_starts_operatorTrie (.inr hc)
    have hrun := nextRun_eq (k := .number) (p := isDigit) hs (by simpa [hc] using hcs)
      (fun d hd => by simpa [Extends] using hmax d hd)
    rw [nextHere, hs]
    simp only [List.cons_append, hoperator, hc, if_true, Bool.false_eq_true, if_false]
    exact hrun
  | operator hw hline hblock =>
    obtain ⟨c, cs, rfl, -⟩ := operator_head hw
    have hoperator := (starts_operatorTrie c).mpr ⟨c :: cs, hw, rfl⟩
    have hlongest := longest_operatorTrie hw hmax
    rw [nextHere, hs]
    simp only [List.cons_append, hoperator, if_true]
    rw [nextOperator_eq, hs, hlongest]
    simp only [if_true, drop_append hs]

theorem next_eq (hs : s.rest = g ++ (w ++ rest)) (hg : Gap.IsGap false g) (hw : IsLexeme k w)
    (hmax : ∀ c ∈ rest.head?, ¬ Extends k w c) :
    s.next = (.ok ⟨k, Text.ofChars w, s.pos.advance g⟩,
      { s with rest := rest, pos := s.pos.advance (g ++ w) }) := by
  obtain ⟨c, cs, rfl, hstops⟩ := hw.stops hmax
  rw [next, hs, Gap.skip_gap hg, List.cons_append, Gap.skip_stops hstops]
  refine (nextHere_eq rfl hw hmax).trans ?_
  rw [Position.advance_append]

theorem next_eof (hg : Gap.IsGap true s.rest) (hfailure : s.failure = none) :
    s.next = (.ok ⟨.eof, [], s.pos.advance s.rest⟩,
      { s with rest := [], pos := s.pos.advance s.rest }) := by
  rw [next, Gap.skip_lastGap hg]
  simp only [nextHere, hfailure]

theorem exists_nextOperator {t : Token} {s' : Source} {c : Char} {cs : List Char}
    (hs : s.rest = c :: cs) (hstops : Gap.Stops c cs) (h : s.nextOperator = (.ok t, s')) :
    ∃ w rest, s.rest = w ++ rest ∧ IsLexeme .operator w ∧
      (∀ c ∈ rest.head?, ¬ Extends .operator w c) ∧ t = ⟨.operator, Text.ofChars w, s.pos⟩ ∧
      s' = { s with rest := rest, pos := s.pos.advance w } := by
  obtain ⟨rest, hsplit, -, hstop, haccepts⟩ := Trie.exists_longest_ofList operators s.rest
  change s.rest = (operatorTrie.longest s.rest).1 ++ rest at hsplit
  change ∀ c ∈ rest.head?, ∀ v ∈ operators, ¬ (operatorTrie.longest s.rest).1 ++ [c] <+: v at hstop
  change (operatorTrie.longest s.rest).2 = true ↔ (operatorTrie.longest s.rest).1 ∈ operators ∧
    (operatorTrie.longest s.rest).1 ≠ [] at haccepts
  rw [nextOperator_eq] at h
  generalize operatorTrie.longest s.rest = found at hsplit hstop haccepts h
  obtain ⟨w, accepted⟩ := found
  cases accepted with
  | false => cases h
  | true =>
    obtain ⟨hw, -⟩ := haccepts.mp rfl
    dsimp only [if_true] at hw hsplit hstop h
    rw [drop_append hsplit] at h
    cases h
    have hfront : c :: cs = w ++ rest := hs.symm.trans hsplit
    refine ⟨w, rest, hsplit, .operator hw ?_ ?_, fun c hc ⟨v, hv, hprefix⟩ => hstop c hc v hv hprefix,
      rfl, rfl⟩
    · rintro rfl
      cases hfront
      exact hstops.line rest rfl rfl
    · rintro rfl
      cases hfront
      exact hstops.block rest rfl rfl

/-- What stands at the front of a source if the next answer is a token. -/
inductive Front (s : Source) : Token → Source → Prop where
  | lexeme {k : Kind} {g w rest : List Char} (hs : s.rest = g ++ (w ++ rest))
    (hg : Gap.IsGap false g) (hw : IsLexeme k w) (hmax : ∀ c ∈ rest.head?, ¬ Extends k w c) :
    Front s ⟨k, Text.ofChars w, s.pos.advance g⟩ { s with rest := rest, pos := s.pos.advance (g ++ w) }
  | eof (hg : Gap.IsGap true s.rest) (hfailure : s.failure = none) :
    Front s ⟨.eof, [], s.pos.advance s.rest⟩ { s with rest := [], pos := s.pos.advance s.rest }

theorem exists_nextRun {p : Char → Bool} {c : Char} {cs : List Char} (hs : s.rest = c :: cs)
    (hc : p c = true) : ∃ ds rest, s.rest = c :: ds ++ rest ∧ (∀ d ∈ ds, p d = true) ∧
      (∀ d ∈ rest.head?, p d = false) ∧
      s.nextRun k p = (.ok ⟨k, Text.ofChars (c :: ds), s.pos⟩,
        { s with rest := rest, pos := s.pos.advance (c :: ds) }) := by
  have hsplit : s.rest = c :: cs.takeWhile p ++ cs.dropWhile p := by
    rw [List.cons_append, List.takeWhile_append_dropWhile, hs]
  have hds : ∀ d ∈ cs.takeWhile p, p d = true := List.all_eq_true.mp List.all_takeWhile
  have hrest : ∀ d ∈ (cs.dropWhile p).head?, p d = false := fun d hd => by
    have := List.head?_dropWhile_not p cs
    rw [hd] at this
    simpa using this
  exact ⟨_, _, hsplit, hds, hrest, nextRun_eq hsplit (by simpa [hc] using hds) hrest⟩

theorem exists_nextHere {t : Token} {s' : Source} (h : s.nextHere = (.ok t, s'))
    (hstops : ∀ c cs, s.rest = c :: cs → Gap.Stops c cs) :
    (s.rest = [] ∧ s.failure = none ∧ t = ⟨.eof, [], s.pos⟩ ∧ s' = s) ∨
      ∃ k w rest, s.rest = w ++ rest ∧ IsLexeme k w ∧ (∀ c ∈ rest.head?, ¬ Extends k w c) ∧
        t = ⟨k, Text.ofChars w, s.pos⟩ ∧ s' = { s with rest := rest, pos := s.pos.advance w } := by
  rw [nextHere] at h
  cases hs : s.rest with
  | nil =>
    rw [hs] at h
    cases hfailure : s.failure with
    | some reason =>
      rw [hfailure] at h
      cases h
    | none =>
      rw [hfailure] at h
      cases h
      exact .inl ⟨rfl, rfl, rfl, rfl⟩
  | cons c cs =>
    rw [hs] at h
    refine .inr ?_
    by_cases hoperator : operatorTrie.starts c = true
    · simp only [hoperator, if_true] at h
      exact ⟨.operator, hs ▸ exists_nextOperator hs (hstops c cs hs) h⟩
    by_cases hdigit : isDigit c = true
    · simp only [hoperator, hdigit, if_true] at h
      obtain ⟨ds, rest, hsplit, hds, hrest, hrun⟩ := exists_nextRun (k := .number) hs hdigit
      rw [hrun] at h
      cases h
      exact ⟨_, _, rest, hs ▸ hsplit, .number hdigit hds, fun d hd => by simp [Extends, hrest d hd],
        rfl, rfl⟩
    by_cases hletter : isLetter c = true
    · simp only [hoperator, hdigit, hletter, if_true] at h
      obtain ⟨ds, rest, hsplit, hds, hrest, hrun⟩ := exists_nextRun (k := .identifier)
        (p := fun d => isLetter d || isDigit d) hs (by rw [hletter, Bool.true_or])
      rw [hrun] at h
      cases h
      exact ⟨_, _, rest, hs ▸ hsplit, .identifier hletter hds,
        fun d hd => by simpa [Extends] using hrest d hd, rfl, rfl⟩
    · simp only [hoperator, hdigit, hletter] at h
      cases h

theorem front_of_next {t : Token} {s' : Source} (h : s.next = (.ok t, s')) : s.Front t s' := by
  rw [next] at h
  have hskip := Gap.completes_skip .plain s.pos s.rest
  rcases hgap : Gap.plain.skip s.pos s.rest with ⟨rest, q, unclosed⟩
  rw [hgap] at h hskip
  cases unclosed with
  | some opened => cases h
  | none =>
    obtain ⟨g, hs, hpos, hcompletes, hstops⟩ := hskip rfl
    dsimp only at hs hpos hcompletes hstops h
    subst hpos
    obtain ⟨hrest, hfailure, rfl, rfl⟩ | ⟨k, w, after, hrest, hw, hmax, rfl, rfl⟩ :=
      exists_nextHere h hstops
    · dsimp only at hrest
      subst hrest
      rw [List.append_nil] at hs
      subst hs
      exact .eof hcompletes hfailure
    · dsimp only at hrest
      obtain ⟨c, cs, rfl, -⟩ := hw.stops hmax
      rw [hrest] at hs hcompletes
      have hfront := Front.lexeme hs hcompletes hw hmax
      rwa [Position.advance_append] at hfront

theorem next_of_front {t : Token} {s' : Source} (h : s.Front t s') : s.next = (.ok t, s') := by
  cases h with
  | lexeme hs hg hw hmax => exact next_eq hs hg hw hmax
  | eof hg hfailure => exact next_eof hg hfailure

/-- The answers to the first `n` requests for a token. -/
def answers : Nat → Source → List (Except ScanError Token)
  | 0, _ => []
  | n + 1, s => s.next.1 :: answers n s.next.2

/-- The requests are answered with the tokens `ts` and then with the token `e` at the end. -/
structure Scans (s : Source) (ts : List Token) (e : Token) : Prop where
  answers_eq : s.answers (ts.length + 1) = (ts ++ [e]).map .ok
  inside : ∀ t ∈ ts, t.kind ≠ .eof
  atEnd : e.kind = .eof

theorem scans_nil_iff {e : Token} :
    s.Scans [] e ↔ ∃ s', s.next = (.ok e, s') ∧ e.kind = .eof := by
  constructor
  · intro h
    have hanswer := (List.cons.inj h.answers_eq).1
    exact ⟨s.next.2, Prod.ext hanswer rfl, h.atEnd⟩
  · rintro ⟨s', hnext, hend⟩
    exact ⟨by rw [List.length_nil, answers, hnext]; rfl, fun t ht => absurd ht List.not_mem_nil, hend⟩

theorem scans_cons_iff {t e : Token} {ts : List Token} :
    s.Scans (t :: ts) e ↔ ∃ s', s.next = (.ok t, s') ∧ t.kind ≠ .eof ∧ s'.Scans ts e := by
  constructor
  · intro h
    obtain ⟨hanswer, hrest⟩ := List.cons.inj h.answers_eq
    obtain ⟨hkind, hinside⟩ := List.forall_mem_cons.mp h.inside
    exact ⟨s.next.2, Prod.ext hanswer rfl, hkind, hrest, hinside, h.atEnd⟩
  · rintro ⟨s', hnext, hkind, hscans⟩
    refine ⟨?_, List.forall_mem_cons.mpr ⟨hkind, hscans.inside⟩, hscans.atEnd⟩
    rw [List.length_cons, answers, hnext, hscans.answers_eq]
    rfl

end Source

/-- A gap and the lexeme behind it. -/
structure Piece where
  gap : List Char
  kind : Token.Kind
  lexeme : List Char

namespace Piece

/-- The text that is made of pieces and a last gap. -/
def text : List Piece → List Char → List Char
  | [], last => last
  | p :: ps, last => p.gap ++ (p.lexeme ++ text ps last)

/-- The pieces and the last gap are what they are said to be, and no lexeme is extended by the
character behind it. -/
def Fit : List Piece → List Char → Prop
  | [], last => Gap.IsGap true last
  | p :: ps, last => Gap.IsGap false p.gap ∧ Token.IsLexeme p.kind p.lexeme ∧
    (∀ c ∈ (text ps last).head?, ¬ Token.Extends p.kind p.lexeme c) ∧ Fit ps last

/-- The tokens of pieces that follow the characters `before`. -/
def tokens (before : List Char) : List Piece → List Token
  | [] => []
  | p :: ps => ⟨p.kind, Text.ofChars p.lexeme, .behind (before ++ p.gap)⟩ ::
    tokens (before ++ p.gap ++ p.lexeme) ps

end Piece

section Layout

open Source Token

variable {s : Source} {before : List Char}

theorem Token.IsLexeme.ne_eof {k : Kind} {w : List Char} (h : IsLexeme k w) : k ≠ .eof := by
  cases h <;> exact fun heq => by cases heq

theorem Source.Front.of_fit {p : Piece} {ps : List Piece} {last : List Char}
    (hpos : s.pos = .behind before) (hfit : Piece.Fit (p :: ps) last)
    (hs : s.rest = Piece.text (p :: ps) last) :
    s.Front ⟨p.kind, Text.ofChars p.lexeme, .behind (before ++ p.gap)⟩
      { s with rest := Piece.text ps last, pos := .behind (before ++ p.gap ++ p.lexeme) } := by
  obtain ⟨hgap, hlexeme, hmax, -⟩ := hfit
  have hfront := Front.lexeme hs hgap hlexeme hmax
  rw [hpos, ← Position.start_advance, ← Position.advance_append, ← Position.advance_append,
    Position.start_advance, Position.start_advance] at hfront
  rwa [List.append_assoc]

theorem Piece.scans {ps : List Piece} {last : List Char} (hpos : s.pos = .behind before)
    (hfailure : s.failure = none) (hfit : Piece.Fit ps last) (hs : s.rest = Piece.text ps last) :
    s.Scans (Piece.tokens before ps) ⟨.eof, [], .behind (before ++ s.rest)⟩ := by
  induction ps generalizing s before with
  | nil =>
    rw [Piece.text] at hs
    have hnext := next_eof (s := s) (hs ▸ hfit) hfailure
    rw [hpos, ← Position.start_advance, ← Position.advance_append, Position.start_advance] at hnext
    exact scans_nil_iff.mpr ⟨_, hnext, rfl⟩
  | cons p ps ih =>
    have hnext := next_of_front (Front.of_fit hpos hfit hs)
    refine scans_cons_iff.mpr ⟨_, hnext, hfit.2.1.ne_eof, ?_⟩
    have hrest := ih (s := { s with rest := Piece.text ps last, pos := .behind (before ++ p.gap ++ p.lexeme) })
      rfl hfailure hfit.2.2.2 rfl
    rw [hs, Piece.text, ← List.append_assoc, ← List.append_assoc]
    exact hrest

theorem Source.Scans.exists_pieces {ts : List Token} {e : Token} (h : s.Scans ts e)
    (hpos : s.pos = .behind before) : ∃ ps last, Piece.Fit ps last ∧ s.rest = Piece.text ps last ∧
      ts = Piece.tokens before ps ∧ e = ⟨.eof, [], .behind (before ++ s.rest)⟩ := by
  induction ts generalizing s before with
  | nil =>
    obtain ⟨s', hnext, hend⟩ := scans_nil_iff.mp h
    cases front_of_next hnext with
    | lexeme hs hg hw hmax => exact absurd hend hw.ne_eof
    | eof hg hfailure =>
      refine ⟨[], s.rest, hg, rfl, rfl, ?_⟩
      rw [hpos, ← Position.start_advance, ← Position.advance_append, Position.start_advance]
  | cons t ts ih =>
    obtain ⟨s', hnext, hkind, hscans⟩ := scans_cons_iff.mp h
    cases front_of_next hnext with
    | @lexeme k g w rest hs hg hw hmax =>
      have hafter : s.pos.advance (g ++ w) = .behind (before ++ g ++ w) := by
        rw [hpos, ← Position.start_advance, ← Position.advance_append, Position.start_advance,
          List.append_assoc]
      obtain ⟨ps, last, hfit, htext, hts, he⟩ := ih hscans hafter
      dsimp only at htext he
      refine ⟨⟨g, k, w⟩ :: ps, last, ⟨hg, hw, htext ▸ hmax, hfit⟩, ?_, ?_, ?_⟩
      · rw [hs, htext, Piece.text]
      · rw [hts, Piece.tokens, hpos, ← Position.start_advance, ← Position.advance_append,
          Position.start_advance]
      · rw [he, hs, List.append_assoc, List.append_assoc]
    | eof hg hfailure => exact absurd rfl hkind

section Unique

variable {p q : Piece} {ps qs : List Piece} {last last' : List Char}

theorem Piece.text_ne_of_fit (hlast : Gap.IsGap true last) (hqs : Piece.Fit (q :: qs) last') :
    last ≠ Piece.text (q :: qs) last' := by
  intro htext
  have hend := next_eof (s := ⟨last, .start, none⟩) hlast rfl
  have hlexeme := next_of_front (Front.of_fit (s := ⟨last, .start, none⟩) Position.start_eq hqs htext)
  have hanswer := congrArg Prod.fst (hlexeme.symm.trans hend)
  exact hqs.2.1.ne_eof (congrArg Token.kind (Except.ok.inj hanswer))

theorem Piece.head_eq_of_fit (hps : Piece.Fit (p :: ps) last) (hqs : Piece.Fit (q :: qs) last')
    (htext : Piece.text (p :: ps) last = Piece.text (q :: qs) last') :
    p = q ∧ Piece.text ps last = Piece.text qs last' := by
  have hp := next_of_front (Front.of_fit (s := ⟨Piece.text (p :: ps) last, .start, none⟩)
    Position.start_eq hps rfl)
  have hq := next_of_front (Front.of_fit (s := ⟨Piece.text (p :: ps) last, .start, none⟩)
    Position.start_eq hqs htext)
  obtain ⟨hanswer, hsource⟩ := Prod.mk.inj (hp.symm.trans hq)
  have hkind := congrArg Token.kind (Except.ok.inj hanswer)
  have hlexeme := Text.ofChars_injective (congrArg Token.literal (Except.ok.inj hanswer))
  have hrest := congrArg Source.rest hsource
  dsimp only at hkind hlexeme hrest
  rw [Piece.text, Piece.text, hlexeme, hrest] at htext
  have hgap := List.append_cancel_right htext
  cases p
  cases q
  cases hkind
  cases hlexeme
  cases hgap
  exact ⟨rfl, hrest⟩

/-- A text is cut into pieces in one way. -/
theorem Piece.fit_unique (hps : Piece.Fit ps last) (hqs : Piece.Fit qs last')
    (htext : Piece.text ps last = Piece.text qs last') : ps = qs ∧ last = last' := by
  induction ps generalizing qs with
  | nil =>
    cases qs with
    | nil => exact ⟨rfl, htext⟩
    | cons q qs => exact absurd htext (text_ne_of_fit hps hqs)
  | cons p ps ih =>
    cases qs with
    | nil => exact absurd htext.symm (text_ne_of_fit hqs hps)
    | cons q qs =>
      obtain ⟨rfl, hrest⟩ := head_eq_of_fit hps hqs htext
      obtain ⟨rfl, hlast⟩ := ih hps.2.2.2 hqs.2.2.2 hrest
      exact ⟨rfl, hlast⟩

end Unique

/-- The tokens of a text are the lexemes of the pieces that its characters before the first `$` are cut
into, each at the position of its first character, and there is one way to cut them. -/
theorem scans_iff_exists_pieces (t : Text) (ts : List Token) (e : Token) :
    ((Source.ofText t none).Scans ts e ↔ ∃ ps last, Piece.Fit ps last ∧
      Piece.text ps last = t.chars.takeWhile (· ≠ '$') ∧ ts = Piece.tokens [] ps ∧
      e = ⟨.eof, [], .behind (t.chars.takeWhile (· ≠ '$'))⟩) ∧
    ∀ ps qs last last', Piece.Fit ps last → Piece.Fit qs last' →
      Piece.text ps last = t.chars.takeWhile (· ≠ '$') →
      Piece.text qs last' = t.chars.takeWhile (· ≠ '$') → ps = qs ∧ last = last' := by
  refine ⟨⟨fun h => ?_, ?_⟩, fun ps qs last last' hps hqs hp hq =>
    Piece.fit_unique hps hqs (hp.trans hq.symm)⟩
  · obtain ⟨ps, last, hfit, htext, hts, he⟩ := h.exists_pieces Position.start_eq
    exact ⟨ps, last, hfit, htext.symm, hts, he⟩
  · rintro ⟨ps, last, hfit, htext, rfl, rfl⟩
    have hfailure : (Source.ofText t none).failure = none := by simp [Source.ofText]
    exact Piece.scans Position.start_eq hfailure hfit htext.symm

end Layout

section Stream

variable {s : Source} {n : Nat}

theorem Gap.length_skip_le (gap : Gap) (p : Position) (cs : List Char) :
    (gap.skip p cs).rest.length ≤ cs.length := by
  fun_induction Gap.skip gap p cs with
  | case4 => exact Nat.le_refl _
  | case9 => exact Nat.le_refl _
  | case10 => exact Nat.le_refl _
  | case11 => exact Nat.le_refl _
  | _ => simp only [List.length_cons] at *; omega

theorem Source.length_drop_lt {w : List Char} (hrest : s.rest ≠ []) (hw : w ≠ []) :
    (s.drop w).rest.length < s.rest.length := by
  have hpos := List.length_pos_iff.mpr hrest
  have hlen := List.length_pos_iff.mpr hw
  rw [drop, List.length_drop]
  omega

theorem Source.longest_ne_nil {c : Char} {cs : List Char} (hs : s.rest = c :: cs)
    (hc : operatorTrie.starts c = true) : (operatorTrie.longest s.rest).1 ≠ [] := by
  intro hnil
  obtain ⟨rest, hsplit, -, hstop, -⟩ := Trie.exists_longest_ofList Token.operators s.rest
  change s.rest = (operatorTrie.longest s.rest).1 ++ rest at hsplit
  change ∀ c ∈ rest.head?, ∀ v ∈ Token.operators, ¬ (operatorTrie.longest s.rest).1 ++ [c] <+: v
    at hstop
  rw [hnil] at hsplit hstop
  obtain ⟨v, hv, hhead⟩ := (starts_operatorTrie c).mp hc
  cases v with
  | nil => cases hhead
  | cons d v =>
    cases hhead
    exact hstop c (by rw [← show s.rest = rest from hsplit, hs]; rfl) _ hv (by simp)

theorem Source.length_nextHere_lt (h : TokenStream.isFinal s.nextHere.1 = false) :
    s.nextHere.2.rest.length < s.rest.length := by
  rw [nextHere] at h ⊢
  cases hs : s.rest with
  | nil =>
    rw [hs] at h
    cases hfailure : s.failure <;> rw [hfailure] at h <;> cases h
  | cons c cs =>
    rw [hs] at h
    have hne : s.rest ≠ [] := hs ▸ List.cons_ne_nil c cs
    rw [← hs]
    by_cases hoperator : operatorTrie.starts c = true
    · simp only [hs, hoperator, if_true]
      rw [← hs, nextOperator_eq]
      exact length_drop_lt hne (longest_ne_nil hs hoperator)
    by_cases hdigit : isDigit c = true
    · simp only [hs, hoperator, hdigit, if_true]
      rw [← hs]
      exact length_drop_lt hne (by rw [hs, List.takeWhile_cons_of_pos hdigit]; exact List.cons_ne_nil _ _)
    by_cases hletter : isLetter c = true
    · simp only [hs, hoperator, hdigit, hletter, if_true]
      rw [← hs]
      exact length_drop_lt hne (by
        rw [hs, List.takeWhile_cons_of_pos (by rw [hletter, Bool.true_or])]
        exact List.cons_ne_nil _ _)
    · simp only [hoperator, hdigit, hletter] at h
      cases h

/-- Every answer but a final one uses up a character. -/
theorem Source.length_next_lt (h : TokenStream.isFinal s.next.1 = false) :
    s.next.2.rest.length < s.rest.length := by
  have hskip := Gap.length_skip_le .plain s.pos s.rest
  rw [next] at h ⊢
  cases hunclosed : (Gap.plain.skip s.pos s.rest).unclosed with
  | some opened =>
    have hend := Gap.skip_unclosed hunclosed
    have hne : s.rest ≠ [] := by
      intro hnil
      rw [hnil] at hunclosed
      cases hunclosed
    simp only [hend]
    exact List.length_pos_iff.mpr hne
  | none =>
    simp only [hunclosed] at h ⊢
    exact Nat.lt_of_lt_of_le (length_nextHere_lt h) hskip

/-- A token with the spelling of its kind. -/
def Token.Lexed (t : Token) : Prop := ∃ w, IsLexeme t.kind w ∧ t.literal = Text.ofChars w

/-- A token as the scanner makes them. -/
def Token.Scanned (t : Token) : Prop := t.Lexed ∨ t.kind = .eof ∧ t.literal = []

theorem Token.Lexed.ne_eof {t : Token} (h : t.Lexed) : t.kind ≠ .eof := by
  obtain ⟨w, hw, -⟩ := h
  exact hw.ne_eof

theorem Token.Scanned.lexed {t : Token} (h : t.Scanned) (hkind : t.kind ≠ .eof) : t.Lexed :=
  h.resolve_right fun hend => hkind hend.1

theorem Source.scanned_of_next {t : Token} (h : s.next.1 = .ok t) : t.Scanned := by
  obtain ⟨s', hnext⟩ : ∃ s', s.next = (.ok t, s') := ⟨s.next.2, Prod.ext h rfl⟩
  cases front_of_next hnext with
  | lexeme hs hg hw hmax => exact .inl ⟨_, hw, rfl⟩
  | eof hg hfailure => exact .inr ⟨rfl, rfl⟩

namespace TokenStream

/-- The tokens in turn are lexed, and the last one, if there is one, is at the end. -/
structure Lexed (ts : TokenStream) : Prop where
  items : ∀ t, .ok t ∈ ts.items → t.Lexed
  last : ∀ t, ts.last = .ok t → t.kind = .eof ∧ t.literal = []

theorem isFinal_ok {t : Token} : isFinal (.ok t) = true ↔ t.kind = .eof := by
  rw [isFinal, decide_eq_true_eq]

theorem lexed_ofSourceWithin (hn : s.rest.length ≤ n) : (ofSourceWithin n s).Lexed := by
  have hfinal : ∀ {s : Source} {t : Token}, s.next.1 = .ok t → isFinal s.next.1 = true →
      t.kind = .eof ∧ t.literal = [] := by
    intro s t ht hend
    rw [ht, isFinal_ok] at hend
    exact (Source.scanned_of_next ht).resolve_left fun hlexed => hlexed.ne_eof hend
  induction n generalizing s with
  | zero =>
    refine ⟨fun t ht => absurd ht List.not_mem_nil, fun t ht => hfinal ht ?_⟩
    by_contra hnot
    have hlt := Source.length_next_lt (Bool.not_eq_true _ ▸ hnot)
    omega
  | succ n ih =>
    rw [ofSourceWithin]
    by_cases hend : isFinal s.next.1 = true
    · simp only [hend, if_true]
      exact ⟨fun t ht => absurd ht List.not_mem_nil, fun t ht => hfinal ht hend⟩
    · have hlt := Source.length_next_lt (Bool.not_eq_true _ ▸ hend)
      have hafter := ih (s := s.next.2) (by omega)
      simp only [hend]
      refine ⟨fun t ht => ?_, hafter.last⟩
      rcases List.mem_cons.mp ht with hfirst | hrest
      · refine (Source.scanned_of_next hfirst.symm).lexed fun hkind => hend ?_
        rw [← hfirst, isFinal_ok]
        exact hkind
      · exact hafter.items t hrest

theorem lexed_ofSource (s : Source) : (ofSource s).Lexed := lexed_ofSourceWithin (Nat.le_refl _)

/-- The first answers of a stream are those of its source, as long as they are tokens. -/
theorem answers_ofSourceWithin {us : List Token} {t : Token} {r : List (Except ScanError Token)}
    (hn : s.rest.length ≤ n) (hinside : ∀ u ∈ us, u.kind ≠ .eof)
    (h : (ofSourceWithin n s).items ++ [(ofSourceWithin n s).last] = (us ++ [t]).map .ok ++ r) :
    s.answers (us.length + 1) = (us ++ [t]).map .ok := by
  induction us generalizing n s with
  | nil =>
    have hfirst : s.next.1 = .ok t := by
      cases n with
      | zero => exact (List.cons.inj h).1
      | succ n =>
        rw [ofSourceWithin] at h
        by_cases hend : isFinal s.next.1 = true
        · simp only [hend, if_true] at h
          exact (List.cons.inj h).1
        · simp only [hend] at h
          exact (List.cons.inj h).1
    rw [List.length_nil, Source.answers, hfirst]
    rfl
  | cons u us ih =>
    obtain ⟨hkind, hinside⟩ := List.forall_mem_cons.mp hinside
    cases n with
    | zero => cases us <;> cases (List.cons.inj h).2
    | succ n =>
      rw [ofSourceWithin] at h
      by_cases hend : isFinal s.next.1 = true
      · simp only [hend, if_true] at h
        cases us <;> cases (List.cons.inj h).2
      · have hlt := Source.length_next_lt (Bool.not_eq_true _ ▸ hend)
        simp only [hend] at h
        obtain ⟨hfirst, hrest⟩ := List.cons.inj h
        have hanswers := ih (s := s.next.2) (by omega) hinside hrest
        rw [List.length_cons, Source.answers, hfirst, hanswers]
        rfl

theorem ofSource_of_scans {ts : List Token} {e : Token} (h : s.Scans ts e) :
    ofSource s = ⟨ts.map .ok, .ok e⟩ := by
  have hwithin : ∀ n, s.rest.length ≤ n → ofSourceWithin n s = ⟨ts.map .ok, .ok e⟩ := by
    induction ts generalizing s with
    | nil =>
      intro n hn
      obtain ⟨s', hnext, hend⟩ := Source.scans_nil_iff.mp h
      cases n with
      | zero => rw [ofSourceWithin, hnext]; rfl
      | succ n =>
        rw [ofSourceWithin, hnext]
        simp only [isFinal_ok.mpr hend, if_true]
        rfl
    | cons t ts ih =>
      intro n hn
      obtain ⟨s', hnext, hkind, hscans⟩ := Source.scans_cons_iff.mp h
      have hmore : isFinal s.next.1 = false := by
        rw [hnext, ← Bool.not_eq_true]
        exact mt isFinal_ok.mp hkind
      have hlt := Source.length_next_lt hmore
      rw [hnext] at hlt
      dsimp only at hlt
      cases n with
      | zero => omega
      | succ n =>
        have hafter := ih hscans n (by omega)
        rw [hnext] at hmore
        rw [ofSourceWithin, hnext]
        simp only [hmore, hafter, Bool.false_eq_true, if_false]
        rfl
  exact hwithin _ (Nat.le_refl _)

end TokenStream

theorem Source.Scans.unique {ts ts' : List Token} {e e' : Token} (h : s.Scans ts e)
    (h' : s.Scans ts' e') : ts = ts' := by
  have hstream := (TokenStream.ofSource_of_scans h).symm.trans (TokenStream.ofSource_of_scans h')
  have hitems := congrArg TokenStream.items hstream
  exact (List.map_inj_right fun a b hab => Except.ok.inj hab).mp hitems

end Stream

end MiniPascal
