import MiniPascal.Proofs.Scanning

/-! Nested block comments. Read from left to right, a comment is a sequence of openers, closers and other
characters, and the depth behind them is a count. A comment ends with the first closer that brings the
depth to zero; without one, what is missing is the end of the innermost comment that is still open. -/

namespace MiniPascal

namespace Gap

/-- What a block comment is made of. -/
inductive Mark where
  | opener
  | closer
  | other (c : Char)
  deriving DecidableEq

/-- Reads a text from left to right; no character belongs to two marks. -/
def marks : List Char → List Mark
  | '/' :: '*' :: cs => .opener :: marks cs
  | '*' :: '/' :: cs => .closer :: marks cs
  | c :: cs => .other c :: marks cs
  | [] => []

namespace Mark

def chars : Mark → List Char
  | opener => ['/', '*']
  | closer => ['*', '/']
  | other c => [c]

/-- The text that marks were read from. -/
def text (ms : List Mark) : List Char := ms.flatMap chars

def change : Mark → Int
  | opener => 1
  | closer => -1
  | other _ => 0

/-- The depth behind some marks that stand inside one comment. -/
def depth : List Mark → Int
  | [] => 1
  | m :: ms => m.change + depth ms

/-- Marks that do not end the comment they stand in. -/
def Open (ms : List Mark) : Prop := ∀ front, front <+: ms → depth front ≠ 0

/-- The comment that some marks stand in ends with the closer behind `body`: it is the first that brings
the depth to zero. -/
structure Closed (ms body rest : List Mark) : Prop where
  split : ms = body ++ .closer :: rest
  zero : depth (body ++ [.closer]) = 0
  first : Open body

/-- The innermost comment that is still open behind some marks is the one whose opener stands behind
`front`: it is not ended, and every comment that is opened later is. -/
structure Innermost (ms front inside : List Mark) : Prop where
  split : ms = front ++ .opener :: inside
  unclosed : Open inside
  last : ∀ a b, inside = a ++ .opener :: b → ¬ Open b

section Depth

variable {ms a b front inside : List Mark}

@[simp] theorem text_cons (m : Mark) (ms : List Mark) : text (m :: ms) = m.chars ++ text ms :=
  List.flatMap_cons

theorem text_marks (cs : List Char) : text (marks cs) = cs := by
  fun_induction marks cs with
  | case1 cs ih => rw [text_cons, ih]; rfl
  | case2 cs ih => rw [text_cons, ih]; rfl
  | case3 c cs _ _ ih => rw [text_cons, ih]; rfl
  | case4 => rfl

theorem depth_append (a b : List Mark) : depth (a ++ b) = depth a + depth b - 1 := by
  induction a with
  | nil => rw [List.nil_append, depth]; omega
  | cons m a ih => rw [List.cons_append, depth, depth, ih]; omega

theorem depth_concat (ms : List Mark) (m : Mark) : depth (ms ++ [m]) = depth ms + m.change := by
  rw [depth_append, depth, depth]
  omega

theorem Open.of_prefix (h : Open ms) (hfront : front <+: ms) : Open front :=
  fun part hpart => h part (hpart.trans hfront)

theorem Open.depth_pos (h : Open ms) : 1 ≤ depth ms := by
  induction ms using List.reverseRecOn with
  | nil => exact Int.le_refl 1
  | append_singleton ms m ih =>
    have hbefore := ih (h.of_prefix (List.prefix_append ms [m]))
    have hne := h _ (List.prefix_refl _)
    rw [depth_concat] at hne ⊢
    cases m <;> simp only [change] at hne ⊢ <;> omega

theorem open_concat {m : Mark} (h : Open ms) (hm : depth (ms ++ [m]) ≠ 0) : Open (ms ++ [m]) := by
  intro front hfront
  rcases List.prefix_concat_iff.mp hfront with rfl | hfront
  · exact hm
  · exact h front hfront

/-- Marks that end their comment do so at some first closer. -/
theorem exists_closed (h : ¬ Open ms) : ∃ body rest, Closed ms body rest := by
  induction ms using List.reverseRecOn with
  | nil => exact absurd (fun front hfront => by rw [List.prefix_nil.mp hfront]; decide) h
  | append_singleton ms m ih =>
    by_cases hopen : Open ms
    · have hzero : depth (ms ++ [m]) = 0 := by
        by_contra hne
        exact h (open_concat hopen hne)
      have hpos := hopen.depth_pos
      rw [depth_concat] at hzero
      cases m with
      | closer => exact ⟨ms, [], rfl, by rw [depth_concat]; exact hzero, hopen⟩
      | opener => simp only [change] at hzero; omega
      | other c => simp only [change] at hzero; omega
    · obtain ⟨body, rest, hclosed⟩ := ih hopen
      refine ⟨body, rest ++ [m], ?_, hclosed.zero, hclosed.first⟩
      rw [hclosed.split, List.append_assoc, List.cons_append]

end Depth

/-- Marks that end just the comments that they begin. -/
structure Balanced (ms : List Mark) : Prop where
  inside : Open ms
  depth_eq : depth ms = 1

section Balanced

variable {a b ms : List Mark}

theorem balanced_nil : Balanced [] :=
  ⟨fun front hfront => by rw [List.prefix_nil.mp hfront]; decide, rfl⟩

theorem Balanced.concat_other (h : Balanced ms) (c : Char) : Balanced (ms ++ [.other c]) := by
  have hdepth : depth (ms ++ [.other c]) = 1 := by
    rw [depth_concat, h.depth_eq]
    rfl
  exact ⟨open_concat h.inside (by rw [hdepth]; decide), hdepth⟩

/-- A whole comment behind balanced marks. -/
theorem Balanced.comment (ha : Balanced a) (hb : Balanced b) :
    Balanced (a ++ .opener :: b ++ [.closer]) := by
  have hdepth : depth (a ++ .opener :: b) = 2 := by
    rw [depth_append, depth, ha.depth_eq, hb.depth_eq]
    rfl
  have hopen : Open (a ++ .opener :: b) := by
    intro front hfront
    rcases List.prefix_or_prefix_of_prefix hfront (List.prefix_append a _) with hshort | ⟨part, rfl⟩
    · exact ha.inside front hshort
    · have hpart := (List.prefix_append_right_inj a).mp hfront
      cases part with
      | nil =>
        rw [List.append_nil]
        exact ha.inside a (List.prefix_refl a)
      | cons m part =>
        obtain ⟨rfl, hinside⟩ := List.cons_prefix_cons.mp hpart
        have hpos := (hb.inside.of_prefix hinside).depth_pos
        rw [depth_append, depth, ha.depth_eq, change]
        omega
  have hclosed : depth (a ++ .opener :: b ++ [.closer]) = 1 := by
    rw [depth_concat, hdepth]
    rfl
  exact ⟨open_concat hopen (by rw [hclosed]; decide), hclosed⟩

end Balanced

/-- The openers of the comments that are open behind some marks, the innermost first, if those in `ps`
are open before them. -/
def openers (ps : List Position) (p : Position) : List Mark → List Position
  | [] => ps
  | .opener :: ms => openers (p :: ps) (p.advance ['/', '*']) ms
  | .closer :: ms => openers ps.tail (p.advance ['*', '/']) ms
  | .other c :: ms => openers ps (p.next c) ms

section Openers

variable {ms : List Mark}

theorem openers_append (ps : List Position) (p : Position) (a b : List Mark) :
    openers ps p (a ++ b) = openers (openers ps p a) (p.advance (text a)) b := by
  induction a generalizing ps p with
  | nil => rfl
  | cons m a ih =>
    rw [text_cons, Position.advance_append]
    cases m <;> exact ih _ _

/-- As long as some comment is open, the depth counts those that are. -/
theorem length_openers (ps : List Position) (p : Position)
    (h : ∀ front, front <+: ms → front ≠ ms → depth front + ps.length ≠ 1) :
    ((openers ps p ms).length : Int) = ps.length + depth ms - 1 := by
  induction ms generalizing ps p with
  | nil => rw [openers, depth]; omega
  | cons m ms ih =>
    have hnonempty : (ps.length : Int) ≠ 0 := by
      have hnil := h [] List.nil_prefix (List.cons_ne_nil m ms).symm
      rw [depth] at hnil
      omega
    have hrest : ∀ ps' : List Position, (ps'.length : Int) = ps.length + m.change →
        ∀ front, front <+: ms → front ≠ ms → depth front + ps'.length ≠ 1 := by
      intro ps' hlength front hfront hne
      have hcons := h (m :: front) (List.cons_prefix_cons.mpr ⟨rfl, hfront⟩) fun heq =>
        hne (List.cons.inj heq).2
      rw [depth] at hcons
      omega
    rw [depth]
    cases m with
    | opener =>
      have hlength : ((p :: ps).length : Int) = ps.length + change .opener := rfl
      rw [openers, ih _ _ (hrest _ hlength), hlength]
      omega
    | closer =>
      have hlength : (ps.tail.length : Int) = ps.length + change .closer := by
        rw [List.length_tail, change]
        omega
      rw [openers, ih _ _ (hrest _ hlength), hlength]
      omega
    | other c =>
      have hlength : (ps.length : Int) = ps.length + change (.other c) := (Int.add_zero _).symm
      rw [openers, ih _ _ (hrest _ hlength), change]
      omega

end Openers

/-- The comments that are open behind some marks, the innermost first, each with what stands inside it
up to the next one. -/
inductive Nested (p : Position) : List Mark → List Position → Prop where
  | nil : Nested p [] []
  | cons {front inside : List Mark} {ps : List Position} (h : Nested p front ps)
    (hinside : Balanced inside) :
    Nested p (front ++ .opener :: inside) (p.advance (text front) :: ps)

section Nested

variable {p q : Position} {qs : List Position} {ms : List Mark}

theorem Nested.other (h : Nested p ms (q :: qs)) (c : Char) : Nested p (ms ++ [.other c]) (q :: qs) := by
  cases h with
  | cons h hinside =>
    rw [List.append_assoc, List.cons_append]
    exact .cons h (hinside.concat_other c)

theorem Nested.closer {q' : Position} (h : Nested p ms (q :: q' :: qs)) :
    Nested p (ms ++ [.closer]) (q' :: qs) := by
  cases h with
  | @cons front inside ps h hinside =>
    cases h with
    | @cons front' inside' ps h hinside' =>
      have hsplit : front' ++ .opener :: inside' ++ .opener :: inside ++ [.closer] =
          front' ++ .opener :: (inside' ++ .opener :: inside ++ [.closer]) := by
        simp only [List.append_assoc, List.cons_append]
      rw [hsplit]
      exact .cons h (hinside'.comment hinside)

theorem nested_openers (h : ∀ front, front <+: ms → front ≠ [] → openers [] p front ≠ []) :
    Nested p ms (openers [] p ms) := by
  induction ms using List.reverseRecOn with
  | nil => exact .nil
  | append_singleton ms m ih =>
    have hbefore := ih fun front hfront => h front (hfront.trans (List.prefix_append ms [m]))
    have hafter := h _ (List.prefix_refl _) (List.append_ne_nil_of_right_ne_nil ms (List.cons_ne_nil m []))
    rw [openers_append] at hafter ⊢
    generalize openers [] p ms = ps at hbefore hafter
    cases m with
    | opener => exact .cons hbefore balanced_nil
    | closer =>
      rcases ps with _ | ⟨q, _ | ⟨q', qs⟩⟩
      · exact absurd rfl hafter
      · exact absurd rfl hafter
      · exact hbefore.closer
    | other c =>
      rcases ps with _ | ⟨q, qs⟩
      · exact absurd rfl hafter
      · exact hbefore.other c

theorem Nested.innermost (h : Nested p ms (q :: qs)) :
    ∃ front inside, Innermost ms front inside ∧ q = p.advance (text front) := by
  cases h with
  | @cons front inside ps h hinside =>
    refine ⟨front, inside, ⟨rfl, hinside.inside, fun a b hsplit hopen => ?_⟩, rfl⟩
    -- the depth at the end is that of an opener inside, unless something closes it
    have ha := (hinside.inside.of_prefix ⟨.opener :: b, hsplit.symm⟩).depth_pos
    have hb := hopen.depth_pos
    have hdepth := hinside.depth_eq
    rw [hsplit, depth_append, depth, change] at hdepth
    omega

end Nested

end Mark

open Mark

/-- Marks inside comments are passed over one after the other. -/
theorem skip_marks (ps : List Position) (p : Position) {cs : List Char} {ms rest : List Mark}
    (hms : marks cs = ms ++ rest)
    (h : ∀ front, front <+: ms → front ≠ ms → openers ps p front ≠ []) :
    (close ps).skip p cs = (close (openers ps p ms)).skip (p.advance (text ms)) (text rest) := by
  induction ms generalizing ps p cs with
  | nil =>
    rw [List.nil_append] at hms
    rw [← hms, text_marks]
    rfl
  | cons m ms ih =>
    obtain ⟨opened, outer, rfl⟩ : ∃ opened outer, ps = opened :: outer :=
      List.exists_cons_of_ne_nil (h [] List.nil_prefix (List.cons_ne_nil m ms).symm)
    have hrest : ∀ front, front <+: ms → front ≠ ms → openers (opened :: outer) p (m :: front) ≠ [] :=
      fun front hfront hne => h (m :: front) (List.cons_prefix_cons.mpr ⟨rfl, hfront⟩) fun heq =>
        hne (List.cons.inj heq).2
    rw [close, text_cons, Position.advance_append]
    fun_cases marks cs with
    | case1 cs =>
      rw [marks, List.cons_append] at hms
      obtain ⟨rfl, htail⟩ := List.cons.inj hms
      rw [skip]
      exact ih _ _ htail hrest
    | case2 cs =>
      rw [marks, List.cons_append] at hms
      obtain ⟨rfl, htail⟩ := List.cons.inj hms
      rw [skip]
      exact ih _ _ htail hrest
    | case3 c cs hopener hcloser =>
      rw [marks, List.cons_append] at hms
      · obtain ⟨rfl, htail⟩ := List.cons.inj hms
        rw [skip]
        · exact ih (opened :: outer) _ htail hrest
        · exact hcloser
        · exact hopener
      · exact hopener
      · exact hcloser
    | case4 => cases hms

variable {p : Position} {cs : List Char}

theorem openers_ne_nil {ms front : List Mark} (h : Open ms) (hfront : front <+: ms) (q : Position) :
    openers [p] q front ≠ [] := by
  have hlength : ((openers [p] q front).length : Int) = depth front := by
    rw [length_openers [p] q fun part hpart _ => ?_]
    · simp only [List.length_singleton]
      omega
    · have hne := h part (hpart.trans hfront)
      simp only [List.length_singleton]
      omega
  intro hnil
  rw [hnil] at hlength
  exact h front hfront hlength.symm

/-- A comment is passed over through the closer that ends it. -/
theorem skip_closed {body rest : List Mark} (h : Closed (marks cs) body rest) (q : Position) :
    (block p []).skip q cs =
      plain.skip (q.advance (text (body ++ [.closer]))) (text rest) := by
  have hms : marks cs = (body ++ [.closer]) ++ rest := by
    rw [h.split, List.append_assoc]
    rfl
  have hinside : ∀ front, front <+: body ++ [.closer] → front ≠ body ++ [.closer] →
      openers [p] q front ≠ [] := by
    intro front hfront hne
    exact openers_ne_nil h.first ((List.prefix_concat_iff.mp hfront).resolve_left hne) q
  have hend : openers [p] q (body ++ [.closer]) = [] := by
    have hlength : ((openers [p] q (body ++ [.closer])).length : Int) = 1 + depth (body ++ [.closer]) - 1 := by
      refine length_openers [p] q fun front hfront hne => ?_
      have hdepth := h.first front ((List.prefix_concat_iff.mp hfront).resolve_left hne)
      simp only [List.length_singleton]
      omega
    rw [h.zero] at hlength
    exact List.eq_nil_of_length_eq_zero (by simpa using hlength)
  have hskip := skip_marks [p] q hms hinside
  rw [hend] at hskip
  exact hskip

/-- A comment that does not end is passed over to the end of the text, and the opener of the innermost
one that is open there is known. -/
theorem skip_open (h : Open (marks cs)) :
    ∃ front inside, Innermost (.opener :: marks cs) front inside ∧
      (block p []).skip (p.advance ['/', '*']) cs =
        ⟨[], p.advance ('/' :: '*' :: cs), some (p.advance (text front))⟩ := by
  have hskip := skip_marks [p] (p.advance ['/', '*']) (List.append_nil (marks cs)).symm
    fun front hfront _ => openers_ne_nil h hfront _
  have hnested : Nested p (.opener :: marks cs) (openers [] p (.opener :: marks cs)) := by
    refine nested_openers fun front hfront hne => ?_
    cases front with
    | nil => exact absurd rfl hne
    | cons m front =>
      obtain ⟨rfl, hinside⟩ := List.cons_prefix_cons.mp hfront
      exact openers_ne_nil h hinside _
  obtain ⟨q, qs, hopeners⟩ : ∃ q qs, openers [p] (p.advance ['/', '*']) (marks cs) = q :: qs :=
    List.exists_cons_of_ne_nil (openers_ne_nil h (List.prefix_refl _) _)
  rw [openers, hopeners] at hnested
  rw [hopeners] at hskip
  obtain ⟨front, inside, hinnermost, rfl⟩ := hnested.innermost
  refine ⟨front, inside, hinnermost, hskip.trans ?_⟩
  rw [text_marks]
  rfl

end Gap

namespace Source

open Gap Gap.Mark

/-- Behind an opener, a comment is passed over through the first closer that brings the depth to zero. If
there is none, all of the text is passed over, and the answer is an error at the opener of the innermost
comment that is open at the end. -/
theorem blockComment_skipped (p : Position) (failure : Option Text) (after : List Char) :
    let cs := after.takeWhile (· ≠ sentinel)
    text (marks cs) = cs ∧
      ((∃ body rest, Closed (marks cs) body rest ∧
        (block p []).skip (p.advance ['/', '*']) cs =
          plain.skip (p.advance ('/' :: '*' :: text (body ++ [.closer]))) (text rest) ∧
        next ⟨'/' :: '*' :: cs, p, failure⟩ =
          next ⟨text rest, p.advance ('/' :: '*' :: text (body ++ [.closer])), failure⟩) ∨
      Open (marks cs) ∧ ∃ front inside, Innermost (.opener :: marks cs) front inside ∧
        (block p []).skip (p.advance ['/', '*']) cs =
          ⟨[], p.advance ('/' :: '*' :: cs), some (p.advance (text front))⟩ ∧
        next ⟨'/' :: '*' :: cs, p, failure⟩ =
          (.error (.unterminatedComment (p.advance (text front))),
            ⟨[], p.advance ('/' :: '*' :: cs), failure⟩)) := by
  intro cs
  have hplain : plain.skip p ('/' :: '*' :: cs) = (block p []).skip (p.advance ['/', '*']) cs := by
    rw [skip]
  refine ⟨text_marks cs, ?_⟩
  by_cases hopen : Open (marks cs)
  · obtain ⟨front, inside, hinnermost, hskip⟩ := skip_open (p := p) hopen
    refine .inr ⟨hopen, front, inside, hinnermost, hskip, ?_⟩
    simp only [next, hplain, hskip]
  · obtain ⟨body, rest, hclosed⟩ := exists_closed hopen
    have hskip := skip_closed (p := p) hclosed (p.advance ['/', '*'])
    refine .inl ⟨body, rest, hclosed, hskip, ?_⟩
    simp only [next, hplain, hskip]
    rfl

end Source

end MiniPascal
