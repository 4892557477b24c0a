import MiniPascal.Proofs.Generation
import MiniPascal.Proofs.Parsing
import MiniPascal.Proofs.Pictures
import MiniPascal.Proofs.Tasks

/-! Where diagnostics come from. The scanner answers with positions of its source, the tree of a program
keeps them wherever a run or the generator can stop, and so every diagnostic points into the source. -/

namespace MiniPascal

theorem Position.behind_advance (cs ds : List Char) :
    (Position.behind cs).advance ds = .behind (cs ++ ds) := by
  rw [← start_advance, ← advance_append, start_advance]

/-- The position is that of a character that is not blank, or that behind all of them. -/
def Position.Picks (cs : List Char) (p : Position) : Prop :=
  (∃ before c after, cs = before ++ c :: after ∧ Gap.isSpace c = false ∧ p = .behind before) ∨
    p = .behind cs

/-- The positions in the characters before the sentinel are places of the text. That behind them is the
place of the sentinel, if there is one. -/
theorem Position.Picks.marks {t : Text} {p : Position}
    (h : p.Picks (t.chars.takeWhile (· ≠ Source.sentinel))) : p.Marks t := by
  have hsplit := List.takeWhile_append_dropWhile (p := (· ≠ Source.sentinel)) (l := t.chars)
  have hplace : ∀ before c after, t.chars = before ++ c :: after → Gap.isSpace c = false →
      p = .behind before → p.Marks t := by
    rintro before c after hchars hc rfl
    obtain ⟨front, back, ht, rfl, hback⟩ := List.map_eq_append_iff.mp hchars
    obtain ⟨g, rest, rfl, rfl, -⟩ := List.map_eq_cons_iff.mp hback
    exact .inl ⟨front, g, rest, ht, hc, rfl⟩
  rcases h with ⟨before, c, after, hcs, hc, hp⟩ | hp
  · rw [hcs, List.append_assoc, List.cons_append] at hsplit
    exact hplace before c _ hsplit.symm hc hp
  · cases hrest : t.chars.dropWhile (· ≠ Source.sentinel) with
    | nil =>
      rw [hrest, List.append_nil] at hsplit
      exact .inr (hp.trans (congrArg Position.behind hsplit))
    | cons c after =>
      have hc : c = Source.sentinel := by
        have hne : t.chars.dropWhile (· ≠ Source.sentinel) ≠ [] := hrest ▸ List.cons_ne_nil c after
        have hhead := List.head_dropWhile_not _ hne
        simpa only [hrest, List.head_cons, decide_eq_false_iff_not, not_not] using hhead
      rw [hrest] at hsplit
      exact hplace _ c after hsplit.symm (hc ▸ rfl) hp

/-- A source is what is left of some characters, at its position in them. -/
def Source.Part (cs : List Char) (s : Source) : Prop :=
  ∃ before, cs = before ++ s.rest ∧ s.pos = .behind before

namespace Gap

variable {cs : List Char}

/-- The comments around a place were opened at places of the source. -/
def Opened (cs : List Char) : Gap → Prop
  | plain => True
  | line => True
  | block opened outer => ∀ q ∈ opened :: outer, q.Picks cs

theorem Opened.close {outer : List Position} (h : ∀ q ∈ outer, q.Picks cs) :
    (Gap.close outer).Opened cs := by
  cases outer with
  | nil => trivial
  | cons opened outer => exact h

/-- What is passed over, whether it ends or not. -/
theorem exists_front (gap : Gap) (p : Position) (rest : List Char) :
    ∃ front, rest = front ++ (gap.skip p rest).rest ∧
      (gap.skip p rest).pos = p.advance front := by
  fun_induction skip gap p rest with
  | case1 p ds ih =>
    obtain ⟨front, hfront, hpos⟩ := ih
    exact ⟨'/' :: '/' :: front, congrArg (fun ds => '/' :: '/' :: ds) hfront, hpos⟩
  | case2 p ds ih =>
    obtain ⟨front, hfront, hpos⟩ := ih
    exact ⟨'/' :: '*' :: front, congrArg (fun ds => '/' :: '*' :: ds) hfront, hpos⟩
  | case3 p c ds _ _ hc ih =>
    obtain ⟨front, hfront, hpos⟩ := ih
    exact ⟨c :: front, congrArg (c :: ·) hfront, hpos⟩
  | case4 => exact ⟨[], rfl, rfl⟩
  | case5 p c ds ih =>
    obtain ⟨front, hfront, hpos⟩ := ih
    exact ⟨c :: front, congrArg (c :: ·) hfront, hpos⟩
  | case6 opened outer p ds ih =>
    obtain ⟨front, hfront, hpos⟩ := ih
    exact ⟨'*' :: '/' :: front, congrArg (fun ds => '*' :: '/' :: ds) hfront, hpos⟩
  | case7 opened outer p ds ih =>
    obtain ⟨front, hfront, hpos⟩ := ih
    exact ⟨'/' :: '*' :: front, congrArg (fun ds => '/' :: '*' :: ds) hfront, hpos⟩
  | case8 opened outer p c ds _ _ ih =>
    obtain ⟨front, hfront, hpos⟩ := ih
    exact ⟨c :: front, congrArg (c :: ·) hfront, hpos⟩
  | case9 => exact ⟨[], rfl, rfl⟩
  | case10 => exact ⟨[], rfl, rfl⟩
  | case11 => exact ⟨[], rfl, rfl⟩

/-- A comment that is not closed was opened at a place of the source. -/
theorem picks_unclosed {gap : Gap} {p : Position} {rest before : List Char}
    (hcs : cs = before ++ rest) (hp : p = .behind before) (hgap : gap.Opened cs) :
    ∀ q ∈ (gap.skip p rest).unclosed, q.Picks cs := by
  fun_induction skip gap p rest generalizing before with
  | case1 p ds ih =>
    exact ih (hcs.trans (List.append_assoc before ['/', '/'] ds).symm)
      (by rw [hp, Position.behind_advance]) trivial
  | case2 p ds ih =>
    have hpicks : p.Picks cs := .inl ⟨before, '/', '*' :: ds, hcs, rfl, hp⟩
    exact ih (hcs.trans (List.append_assoc before ['/', '*'] ds).symm)
      (by rw [hp, Position.behind_advance]) (by simpa [Opened] using hpicks)
  | case3 p c ds _ _ hc ih =>
    exact ih (hcs.trans (List.append_assoc before [c] ds).symm)
      (by rw [hp, ← Position.behind_advance]; rfl) trivial
  | case4 => simp
  | case5 p c ds ih =>
    refine ih (hcs.trans (List.append_assoc before [c] ds).symm)
      (by rw [hp, ← Position.behind_advance]; rfl) ?_
    by_cases hc : c = '\n'
    · rw [if_pos hc]
      trivial
    · rw [if_neg hc]
      trivial
  | case6 opened outer p ds ih =>
    exact ih (hcs.trans (List.append_assoc before ['*', '/'] ds).symm)
      (by rw [hp, Position.behind_advance]) (.close (List.forall_mem_cons.mp hgap).2)
  | case7 opened outer p ds ih =>
    have hpicks : p.Picks cs := .inl ⟨before, '/', '*' :: ds, hcs, rfl, hp⟩
    exact ih (hcs.trans (List.append_assoc before ['/', '*'] ds).symm)
      (by rw [hp, Position.behind_advance]) (List.forall_mem_cons.mpr ⟨hpicks, hgap⟩)
  | case8 opened outer p c ds _ _ ih =>
    exact ih (hcs.trans (List.append_assoc before [c] ds).symm)
      (by rw [hp, ← Position.behind_advance]; rfl) hgap
  | case9 opened outer p =>
    intro q hq
    cases hq
    exact (List.forall_mem_cons.mp hgap).1
  | case10 => simp
  | case11 => simp

end Gap

/-- Where an error of the scanner is, unless the source could not be read. -/
def ScanError.pos? : ScanError → Option Position
  | .invalidCharacter _ p => some p
  | .invalidOperator _ p => some p
  | .unterminatedComment p => some p
  | .unreadable _ => none

/-- Where an answer of the scanner is. -/
def TokenStream.pos? : Except ScanError Token → Option Position
  | .ok t => some t.pos
  | .error e => e.pos?

namespace Source

variable {cs : List Char} {s : Source}

theorem Part.drop (h : s.Part cs) {w : List Char} (hw : w <+: s.rest) : (s.drop w).Part cs := by
  obtain ⟨before, hcs, hpos⟩ := h
  obtain ⟨rest, hrest⟩ := hw
  refine ⟨before ++ w, ?_, ?_⟩
  · rw [Source.drop, ← hrest, List.drop_left, hcs, ← hrest, List.append_assoc]
  · rw [Source.drop, hpos, Position.behind_advance]

theorem Part.picks (h : s.Part cs) (hstops : ∀ c ds, s.rest = c :: ds → Gap.isSpace c = false) :
    s.pos.Picks cs := by
  obtain ⟨before, hcs, hpos⟩ := h
  cases hrest : s.rest with
  | nil =>
    rw [hrest, List.append_nil] at hcs
    exact .inr (hcs ▸ hpos)
  | cons c ds =>
    rw [hrest] at hcs
    exact .inl ⟨before, c, ds, hcs, hstops c ds hrest, hpos⟩

theorem pos?_nextOperator (s : Source) :
    TokenStream.pos? s.nextOperator.1 = some s.pos := by
  rw [nextOperator_eq]
  cases (operatorTrie.longest s.rest).2 <;> rfl

/-- The answer at a place is about that place, and what is left then is a part of the source too. -/
theorem Part.nextHere (h : s.Part cs) :
    (∀ q ∈ TokenStream.pos? s.nextHere.1, q = s.pos) ∧ s.nextHere.2.Part cs := by
  have hhere : ∀ q ∈ some s.pos, q = s.pos := fun q hq => (Option.some.inj hq).symm
  unfold Source.nextHere
  cases hrest : s.rest with
  | nil =>
    cases s.failure with
    | none => exact ⟨hhere, h⟩
    | some reason => exact ⟨by simp [TokenStream.pos?, ScanError.pos?], h⟩
  | cons c ds =>
    dsimp only
    by_cases hoperator : operatorTrie.starts c = true
    · obtain ⟨rest, hsplit, -⟩ := Trie.exists_longest_ofList Token.operators s.rest
      rw [if_pos hoperator, pos?_nextOperator, nextOperator_eq]
      exact ⟨hhere, h.drop ⟨rest, hsplit.symm⟩⟩
    · by_cases hdigit : isDigit c = true
      · rw [if_neg hoperator, if_pos hdigit]
        exact ⟨hhere, h.drop (List.takeWhile_prefix _)⟩
      · by_cases hletter : isLetter c = true
        · rw [if_neg hoperator, if_neg hdigit, if_pos hletter]
          exact ⟨hhere, h.drop (List.takeWhile_prefix _)⟩
        · rw [if_neg hoperator, if_neg hdigit, if_neg hletter]
          exact ⟨hhere, h⟩

/-- Every answer is about a place of the source. -/
theorem Part.next (h : s.Part cs) :
    (∀ q ∈ TokenStream.pos? s.next.1, q.Picks cs) ∧ s.next.2.Part cs := by
  obtain ⟨before, hcs, hpos⟩ := h
  have hplain : Gap.plain.Opened cs := trivial
  have hunclosed := Gap.picks_unclosed hcs hpos hplain
  have hskip := Gap.completes_skip .plain s.pos s.rest
  obtain ⟨front, hfront, hq⟩ := Gap.exists_front .plain s.pos s.rest
  unfold Source.next
  rcases hgap : Gap.plain.skip s.pos s.rest with ⟨rest, q, unclosed⟩
  rw [hgap] at hunclosed hskip hfront hq
  dsimp only at hfront hq
  have hpart : Source.Part cs { s with rest := rest, pos := q } := by
    refine ⟨before ++ front, ?_, ?_⟩
    · rw [hcs, hfront, List.append_assoc]
    · rw [hq, hpos, Position.behind_advance]
  cases unclosed with
  | some opened => exact ⟨hunclosed, hpart⟩
  | none =>
    obtain ⟨-, -, -, -, hstops⟩ := hskip rfl
    obtain ⟨hhere, hafter⟩ := hpart.nextHere
    refine ⟨fun p hp => ?_, hafter⟩
    rw [hhere p hp]
    exact hpart.picks fun c ds hc => eq_false_of_ne_true (hstops c ds hc).space

end Source

namespace TokenStream

variable {cs : List Char}

/-- Every answer of a stream is about a place of the source. -/
def Picks (cs : List Char) (ts : TokenStream) : Prop :=
  ∀ a ∈ ts.last :: ts.items, ∀ p ∈ pos? a, p.Picks cs

theorem picks_ofSourceWithin (n : Nat) {s : Source} (h : s.Part cs) :
    (ofSourceWithin n s).Picks cs := by
  induction n generalizing s with
  | zero =>
    intro a ha
    rw [List.mem_singleton.mp ha]
    exact h.next.1
  | succ n ih =>
    obtain ⟨hfirst, hafter⟩ := h.next
    have hrest := ih hafter
    unfold ofSourceWithin
    by_cases hfinal : isFinal s.next.1 = true
    · simp only [hfinal, if_true]
      intro a ha
      rw [List.mem_singleton.mp ha]
      exact hfirst
    · simp only [hfinal]
      intro a ha
      rcases List.mem_cons.mp ha with rfl | ha
      · exact hrest _ List.mem_cons_self
      · rcases List.mem_cons.mp ha with rfl | ha
        · exact hfirst
        · exact hrest a (List.mem_cons_of_mem _ ha)

theorem picks_ofSource (t : Text) (failure : Option Text) :
    (ofSource (Source.ofText t failure)).Picks (t.chars.takeWhile (· ≠ Source.sentinel)) :=
  picks_ofSourceWithin _ ⟨[], rfl, rfl⟩

theorem next_mem (ts : TokenStream) : ts.next.1 ∈ ts.last :: ts.items := by
  unfold next
  cases hitems : ts.items with
  | nil => exact List.mem_cons_self
  | cons a rest => exact List.mem_cons_of_mem _ List.mem_cons_self

end TokenStream

/-- A failure that the library blames on a place in the source. -/
def Diagnostic.isLocated : Diagnostic → Bool
  | .scan .. => true
  | .parse .. => true
  | .undefinedProcedure .. => true
  | .unsupported .. => true
  | .runtime .. => true
  | .other _ => false
  | .during _ cause => cause.isLocated

section Parsed

open MiniPascal.Parser

variable {t : Text}

theorem ScanError.marks {e : ScanError}
    (h : ∀ p ∈ e.pos?, p.Picks (t.chars.takeWhile (· ≠ Source.sentinel)))
    (hlocated : e.toDiagnostic.isLocated = true) : e.toDiagnostic.position.Marks t := by
  cases e with
  | invalidCharacter c p => exact (h p rfl).marks
  | invalidOperator label p => exact (h p rfl).marks
  | unterminatedComment p => exact (h p rfl).marks
  | unreadable reason => cases hlocated

theorem Parser.State.Opens.picks {r : State} (h : r.Opens (Source.ofText t none)) :
    ∀ a ∈ .ok r.current :: (r.stream.items ++ [r.stream.last]), ∀ p ∈ TokenStream.pos? a,
      p.Picks (t.chars.takeWhile (· ≠ Source.sentinel)) := by
  have hpicks := TokenStream.picks_ofSource t none
  intro a ha
  apply hpicks
  obtain ⟨hitems, hlast⟩ | ⟨hitems, hstream, hlast⟩ := h.cases
  · rw [hitems, hlast]
    simpa [or_comm, or_assoc, or_left_comm] using ha
  · rw [hstream, hitems, hlast] at ha
    rw [hitems, hlast]
    simpa using ha

/-- A text that is rejected is rejected at a place in it. -/
theorem SyntaxError.marks {err : SyntaxError} (h : Program.ofText t = .error err)
    (hlocated : err.toDiagnostic.isLocated = true) : err.toDiagnostic.position.Marks t := by
  obtain ⟨e, hfirst, hfails⟩ | ⟨r, hr, hrun⟩ := ofSource_cases (Source.ofText t none)
  · cases hfails.symm.trans h
    have hmem := TokenStream.next_mem (TokenStream.ofSource (Source.ofText t none))
    rw [hfirst] at hmem
    exact ScanError.marks (TokenStream.picks_ofSource t none _ hmem) hlocated
  · have hends := hr.ends
    have houtcome := hrun.symm.trans h
    cases hres : program (r.stream.items.length + 2) r with
    | ok p s =>
      rw [hres] at houtcome
      cases houtcome
    | error err s =>
      rw [hres] at houtcome hends
      cases houtcome
      cases err with
      | scan e =>
        refine ScanError.marks (hr.picks (.error e) ?_) hlocated
        rcases hends with hmem | hlast
        · simp [hmem]
        · simp [hlast]
      | parse cause found =>
        obtain ⟨us, hus, rfl, -⟩ := hends
        obtain ⟨more, hmore⟩ := hus.exists_answers hr.scanned
        refine (hr.picks (.ok s.current) ?_ s.current.pos rfl).marks
        rw [hmore]
        simp

/-- The tokens of a program stand at places in its text. -/
theorem Program.exists_marks {p : Program} (h : Program.ofText t = .ok p) :
    ∃ ts, p.Describes ts ∧ ∀ u ∈ ts, u.pos.Marks t := by
  obtain ⟨ts, e, hscans, hdescribes⟩ := Program.exists_scans h
  have hpicks := TokenStream.picks_ofSource t none
  rw [TokenStream.ofSource_of_scans hscans] at hpicks
  refine ⟨ts, hdescribes, fun u hu => ?_⟩
  exact (hpicks (.ok u) (List.mem_cons_of_mem _ (List.mem_map_of_mem hu)) u.pos rfl).marks

end Parsed

section Placed

variable (good : Position → Prop)

mutual

/-- Wherever evaluating an expression or making its code can stop, there is a good position. -/
def Expr.Placed : Expr → Prop
  | .literal _ _ tag _ => tag = .int
  | .var v => v.tag = .int
  | .binary token op left right =>
    (∀ a b e, op.apply a b = .error e → good token.pos) ∧ (Assembly.operatorLines? op).isSome ∧
      left.Placed ∧ right.Placed
  | .call token _ args => good token.pos ∧ Expr.PlacedAll args
  | .missing => False

def Expr.PlacedAll : List Expr → Prop
  | [] => True
  | e :: es => e.Placed ∧ Expr.PlacedAll es

end

mutual

/-- The same for executing a statement. -/
def Stmt.Placed : Stmt → Prop
  | .assign token target value => good token.pos ∧ target.tag = .int ∧ value.Placed good
  | .block token body => good token.pos ∧ Stmt.PlacedAll body
  | .ifThen token cond body => good token.pos ∧ cond.Placed good ∧ body.Placed
  | .ifElse token cond body alternative =>
    good token.pos ∧ cond.Placed good ∧ body.Placed ∧ alternative.Placed
  | .loop token cond body => good token.pos ∧ cond.Placed good ∧ body.Placed
  | .writeLn token value => good token.pos ∧ value.Placed good
  | .readLn token _ => good token.pos
  | .call token _ args => good token.pos ∧ Expr.PlacedAll good args
  | .declare token _ _ body => good token.pos ∧ body.Placed
  | .missing => False

def Stmt.PlacedAll : List Stmt → Prop
  | [] => True
  | st :: sts => st.Placed ∧ Stmt.PlacedAll sts

end

/-- The phrases whose parts are at good positions. -/
def Phrase.Placed : Phrase → Prop
  | .term _ e => e.Placed good
  | .items es => Expr.PlacedAll good es
  | .arguments es => Expr.PlacedAll good es
  | .statement _ st => st.Placed good
  | .statements sts => Stmt.PlacedAll good sts

end Placed

variable {good : Position → Prop}

theorem Operator.isSome_operatorLines {op : Operator} {k : Nat} (h : op.rank = k + 1) :
    (Assembly.operatorLines? op).isSome := by
  cases op with
  | other symbol => cases h
  | _ => rfl

/-- The counter of a counting loop adds and compares, which never fails. -/
theorem Stmt.placed_forLoop {token : Token} {v : Variable} {first last : Expr} {body : Stmt}
    (ht : good token.pos) (hv : v.tag = .int) (hfirst : first.Placed good)
    (hlast : last.Placed good) (hbody : body.Placed good) :
    (Stmt.forLoop token v first last body).Placed good := by
  have hcond : (Expr.binary { kind := .operator, literal := "<=" } .le (.var v) last).Placed good := by
    refine ⟨fun a b e h => ?_, rfl, hv, hlast⟩
    cases h
  have hnext : (Expr.binary { kind := .operator, literal := "+" } .add (.var v)
      (.literal { kind := .number, literal := "1" } 1 .int false)).Placed good := by
    refine ⟨fun a b e h => ?_, rfl, hv, rfl⟩
    cases h
  exact ⟨ht, ⟨ht, hv, hfirst⟩, ⟨ht, hcond, ht, hbody, ⟨ht, hv, hnext⟩, trivial⟩, trivial⟩

/-- A phrase that is derived from tokens at good positions has its parts at good positions. -/
theorem Derives.placed {phrase : Phrase} {ts : List Token} (h : Derives phrase ts)
    (hts : ∀ t ∈ ts, good t.pos) : phrase.Placed good := by
  induction h with
  | number _ => exact rfl
  | trueWord _ => exact rfl
  | falseWord _ => exact rfl
  | var _ => exact rfl
  | call _ _ ih =>
    obtain ⟨ht, hus⟩ := List.forall_mem_cons.mp hts
    exact ⟨ht, ih hus⟩
  | parens _ _ _ ih => exact ih fun t ht => hts t (by simp [ht])
  | minus _ _ ih =>
    obtain ⟨ht, hus⟩ := List.forall_mem_cons.mp hts
    exact ⟨fun _ _ _ _ => ht, rfl, rfl, ih hus⟩
  | climb _ _ ih => exact ih hts
  | binary hop _ _ _ ihleft ihright =>
    refine ⟨fun _ _ _ _ => hts _ (by simp), Operator.isSome_operatorLines hop, ?_, ?_⟩
    · exact ihleft fun t ht => hts t (by simp [ht])
    · exact ihright fun t ht => hts t (by simp [ht])
  | item _ ih => exact ⟨ih hts, trivial⟩
  | items _ _ _ ihfirst ihrest =>
    exact ⟨ihfirst fun t ht => hts t (by simp [ht]), ihrest fun t ht => hts t (by simp [ht])⟩
  | noArguments _ _ => trivial
  | arguments _ _ _ ih => exact ih fun t ht => hts t (by simp [ht])
  | assign _ _ _ _ ih =>
    exact ⟨hts _ (by simp), rfl, ih fun t ht => hts t (by simp [ht])⟩
  | callStatement _ _ _ ih => exact ⟨hts _ (by simp), ih fun t ht => hts t (by simp [ht])⟩
  | writeLn _ _ _ _ _ ih => exact ⟨hts _ (by simp), ih fun t ht => hts t (by simp [ht])⟩
  | readLn _ _ _ _ _ => exact hts _ (by simp)
  | block _ _ _ _ ih => exact ⟨hts _ (by simp), ih fun t ht => hts t (by simp [ht])⟩
  | bareBlock _ _ _ ih => exact ⟨hts _ (by simp), ih fun t ht => hts t (by simp [ht])⟩
  | ifThen _ _ _ _ ihcond ihbody =>
    exact ⟨hts _ (by simp), ihcond fun t ht => hts t (by simp [ht]),
      ihbody fun t ht => hts t (by simp [ht])⟩
  | ifElse _ _ _ _ _ _ ihcond ihbody ihalternative =>
    exact ⟨hts _ (by simp), ihcond fun t ht => hts t (by simp [ht]),
      ihbody fun t ht => hts t (by simp [ht]), ihalternative fun t ht => hts t (by simp [ht])⟩
  | loop _ _ _ _ ihcond ihbody =>
    exact ⟨hts _ (by simp), ihcond fun t ht => hts t (by simp [ht]),
      ihbody fun t ht => hts t (by simp [ht])⟩
  | forLoop _ _ _ _ _ _ _ _ ihfirst ihlast ihbody =>
    exact Stmt.placed_forLoop (hts _ (by simp)) rfl (ihfirst fun t ht => hts t (by simp [ht]))
      (ihlast fun t ht => hts t (by simp [ht])) (ihbody fun t ht => hts t (by simp [ht]))
  | declare _ _ _ _ _ ih => exact ⟨hts _ (by simp), ih fun t ht => hts t (by simp [ht])⟩
  | noStatements => trivial
  | statements _ _ _ ihfirst ihrest =>
    exact ⟨ihfirst fun t ht => hts t (by simp [ht]), ihrest fun t ht => hts t (by simp [ht])⟩

theorem Expr.PlacedAll.mem {es : List Expr} (h : Expr.PlacedAll good es) :
    ∀ e ∈ es, e.Placed good := by
  induction es with
  | nil => simp
  | cons e es ih => exact List.forall_mem_cons.mpr ⟨h.1, ih h.2⟩

theorem Stmt.placedAll_iff {sts : List Stmt} :
    Stmt.PlacedAll good sts ↔ ∀ st ∈ sts, st.Placed good := by
  induction sts with
  | nil => simp [Stmt.PlacedAll]
  | cons st sts ih => rw [Stmt.PlacedAll, ih, List.forall_mem_cons]

theorem Stmt.Placed.token {st : Stmt} (h : st.Placed good) : good st.token.pos := by
  cases st with
  | assign token target value => exact h.1
  | block token body => exact h.1
  | ifThen token cond body => exact h.1
  | ifElse token cond body alternative => exact h.1
  | loop token cond body => exact h.1
  | writeLn token value => exact h.1
  | readLn token target => exact h
  | call token name args => exact h.1
  | declare token name params body => exact h.1
  | missing => exact h.elim

theorem Declares.placed {ds : List Declaration} {ts : List Token} (h : Declares ds ts)
    (hts : ∀ t ∈ ts, good t.pos) : ∀ d ∈ ds, d.toStmt.Placed good := by
  induction h with
  | nil => simp
  | cons hd _ _ ih =>
    refine List.forall_mem_cons.mpr ⟨?_, ?_⟩
    · exact Derives.placed hd fun t ht => hts t (by simp [ht])
    · exact ih fun t ht => hts t (by simp [ht])

/-- The declarations and the main statement of a program have their parts at good positions. -/
structure Program.Placed (good : Position → Prop) (p : Program) : Prop where
  procedures : ∀ d ∈ p.procedures, d.toStmt.Placed good
  main : ∀ st, p.main = some st → st.Placed good

theorem Program.Describes.placed {p : Program} {ts : List Token} (h : p.Describes ts)
    (hts : ∀ t ∈ ts, good t.pos) : p.Placed good := by
  obtain ⟨hderives, -⟩ := h
  cases hderives with
  | plain hds hs _ =>
    refine ⟨hds.placed fun t ht => hts t (by simp [ht]), fun st hst => ?_⟩
    cases hst
    exact hs.placed fun t ht => hts t (by simp [ht])
  | period hds hs _ =>
    refine ⟨hds.placed fun t ht => hts t (by simp [ht]), fun st hst => ?_⟩
    cases hst
    exact hs.placed fun t ht => hts t (by simp [ht])

section Run

/-- The bodies of the procedures that are bound have their parts at good positions. -/
def Env.Placed (good : Position → Prop) (env : Env) : Prop :=
  ∀ procs ∈ env.map Scope.procs, ∀ entry ∈ procs, entry.2.body.Placed good

theorem Env.Placed.getProc? {env : Env} {name : Text} {q : Procedure} (h : env.Placed good)
    (hq : env.getProc? name = some q) : q.body.Placed good := by
  induction env with
  | nil => cases hq
  | cons scope outer ih =>
    obtain ⟨hscope, houter⟩ := List.forall_mem_cons.mp h
    rw [Env.getProc?] at hq
    cases hget : scope.procs.get? name with
    | none =>
      rw [hget] at hq
      exact ih houter hq
    | some r =>
      rw [hget] at hq
      cases hq
      exact hscope _ (Table.mem_of_get? hget)

theorem Env.Placed.set {env : Env} (h : env.Placed good) (x : Text) (v : Int32) :
    (env.set x v).Placed good := by
  cases env with
  | nil =>
    intro procs hprocs entry hentry
    rw [List.mem_singleton.mp hprocs] at hentry
    cases hentry
  | cons scope outer =>
    rw [Env.Placed, Env.procs_set (List.cons_ne_nil scope outer)]
    exact h

theorem Table.mem_set {α : Type} {t : Table α} {name : Text} {v : α} {entry : Text × α}
    (h : entry ∈ t.set name v) : entry = (name, v) ∨ entry ∈ t := by
  induction t with
  | nil => exact .inl (List.mem_singleton.mp h)
  | cons first rest ih =>
    obtain ⟨other, w⟩ := first
    rw [Table.set] at h
    by_cases hname : other = name
    · rw [if_pos hname] at h
      rcases List.mem_cons.mp h with h | h
      · exact .inl h
      · exact .inr (List.mem_cons_of_mem _ h)
    · rw [if_neg hname] at h
      rcases List.mem_cons.mp h with h | h
      · exact .inr (h ▸ List.mem_cons_self)
      · exact (ih h).imp_right (List.mem_cons_of_mem _)

theorem Env.Placed.setProc {env : Env} (h : env.Placed good) {name : Text} {q : Procedure}
    (hq : q.body.Placed good) : (env.setProc name q).Placed good := by
  cases env with
  | nil =>
    intro procs hprocs entry hentry
    rw [List.mem_singleton.mp hprocs] at hentry
    rw [List.mem_singleton.mp hentry]
    exact hq
  | cons scope outer =>
    obtain ⟨hscope, houter⟩ := List.forall_mem_cons.mp h
    refine List.forall_mem_cons.mpr ⟨fun entry hentry => ?_, houter⟩
    rcases Table.mem_set hentry with rfl | hold
    · exact hq
    · exact hscope entry hold

theorem Env.Placed.push {env : Env} (h : env.Placed good) (q : Procedure) (values : List Int32) :
    (env.push (Run.callScope q values)).Placed good := by
  refine List.forall_mem_cons.mpr ⟨fun entry hentry => ?_, h⟩
  cases hentry

theorem Env.Placed.pop {env : Env} (h : env.Placed good) : env.pop.Placed good := by
  intro procs hprocs
  rw [Env.pop, List.map_tail] at hprocs
  exact h procs (List.mem_of_mem_tail hprocs)

/-- Runs stop at good positions. -/
def Guard.places (good : Position → Prop) : Guard where
  expr := Expr.Placed good
  stmt := Stmt.Placed good
  env _ env := env.Placed good
  fault _ pos := good pos
  binary h := h.2.2
  args h := h.2.mem
  assign h := h.2.2
  block h := Stmt.placedAll_iff.mp h.2
  ifThen h := h.2
  ifElse h := h.2
  loop h := h.2
  writeLn h := h.2
  call h := h
  body _ henv hq := henv.getProc? hq
  set x v henv := henv.set x v
  push q values henv := henv.push q values
  pop henv := henv.pop
  declare h henv := henv.setProc h.2
  step _ h := h.token
  operator _ h hop := h.1 _ _ _ hop
  undefined h _ _ := h.1
  arity h _ _ _ := h.1
  depth _ _ h := h.1
  noInput h := h
  input _ h := h
  noStmt h := h.elim
  noExpr h := h.elim

theorem RunCause.position_toDiagnostic (cause : RunCause) (pos : Position) :
    (cause.toDiagnostic pos).position = pos := by
  cases cause with
  | input error => cases error <;> rfl
  | _ => rfl

/-- A program that is stopped is stopped at a good position. -/
theorem Program.Placed.stopped {p : Program} (h : p.Placed good) {limits : Limits} {fuel : Nat}
    {s s' : RunState} {e : RunError} (hrun : Run.program limits fuel p s = .error e s')
    (hlocated : e.toDiagnostic.isLocated = true) : good e.toDiagnostic.position := by
  have hlasts := (Guard.places good).lasts limits fuel
  have hstart : (Guard.places good).env 0 s.atStart.env := by
    intro procs hprocs entry hentry
    rw [List.mem_singleton.mp hprocs] at hentry
    cases hentry
  have hdeclare : ∀ st ∈ p.procedures.map Declaration.toStmt, (Guard.places good).stmt st :=
    List.forall_mem_map.mpr h.procedures
  have hkeeps : (Guard.places good).Keeps 0 (Run.statements limits fuel p) s.atStart := by
    unfold Run.statements
    refine (hlasts.execAll hdeclare hstart).bind fun _ t ht => ?_
    cases hmain : p.main with
    | none => exact ht
    | some st => exact hlasts.exec (h.main st hmain) ht
  cases e with
  | stopped cause pos =>
    have hgood : good pos := hkeeps.fault_of_stopped hrun
    exact (RunCause.position_toDiagnostic cause pos).symm ▸ hgood
  | output reason => cases hlocated
  | outOfFuel => cases hlocated

end Run

theorem Expr.Placed.tag {e : Expr} (h : e.Placed good) : e.tag = .int := by
  cases e with
  | literal token value tag isBool => exact h
  | var v => exact h
  | binary token op left right => rfl
  | call token name args => rfl
  | missing => exact h.elim

theorem firstRepeated_mem {seen : List Text} {ds : List Declaration} {d : Declaration}
    (h : firstRepeated seen ds = some d) : d ∈ ds := by
  induction ds generalizing seen with
  | nil => cases h
  | cons first ds ih =>
    rw [firstRepeated] at h
    by_cases hseen : seen.contains first.procedure.name = true
    · rw [if_pos hseen] at h
      cases h
      exact List.mem_cons_self
    · rw [if_neg hseen] at h
      exact List.mem_cons_of_mem _ (ih h)

mutual

/-- The declarations in a statement have their parts at good positions too. -/
theorem Stmt.Placed.declarations {st : Stmt} (h : st.Placed good) :
    ∀ d ∈ st.declarations, d.toStmt.Placed good := by
  match st with
  | .declare token name params body => exact List.forall_mem_cons.mpr ⟨h, h.2.declarations⟩
  | .block token body => exact h.2.declarationsAll
  | .ifThen token cond body => exact h.2.2.declarations
  | .ifElse token cond body alternative =>
    exact List.forall_mem_append.mpr ⟨h.2.2.1.declarations, h.2.2.2.declarations⟩
  | .loop token cond body => exact h.2.2.declarations
  | .assign token target value => exact fun _ hd => absurd hd List.not_mem_nil
  | .writeLn token value => exact fun _ hd => absurd hd List.not_mem_nil
  | .readLn token target => exact fun _ hd => absurd hd List.not_mem_nil
  | .call token name args => exact fun _ hd => absurd hd List.not_mem_nil
  | .missing => exact h.elim

theorem Stmt.PlacedAll.declarationsAll {sts : List Stmt} (h : Stmt.PlacedAll good sts) :
    ∀ d ∈ Stmt.declarationsAll sts, d.toStmt.Placed good := by
  match sts with
  | [] => exact fun _ hd => absurd hd List.not_mem_nil
  | st :: sts => exact List.forall_mem_append.mpr ⟨h.1.declarations, h.2.declarationsAll⟩

end

theorem Program.Placed.declarations {p : Program} (h : p.Placed good) :
    ∀ d ∈ p.declarations, d.toStmt.Placed good := by
  refine List.forall_mem_append.mpr ⟨?_, ?_⟩
  · have hall : Stmt.PlacedAll good (p.procedures.map Declaration.toStmt) :=
      Stmt.placedAll_iff.mpr (List.forall_mem_map.mpr h.procedures)
    exact hall.declarationsAll
  · cases hmain : p.main with
    | none => exact fun _ hd => absurd hd List.not_mem_nil
    | some st => exact (h.main st hmain).declarations

namespace Assembly

namespace Gen

variable {α β : Type} {procs : Table Procedure}

/-- A computation that rejects a part of a program rejects it at a good position. -/
def Blames (good : Position → Prop) (x : Gen α) : Prop :=
  ∀ b cause pos b', x b = .error (.unsupported cause pos) b' → good pos

theorem blames_pure (a : α) : Blames good (pure a : Gen α) := by
  intro b cause pos b' h
  cases h

theorem blames_modify (f : Builder → Builder) : Blames good (modify f : Gen Unit) := by
  intro b cause pos b' h
  cases h

theorem blames_reject {cause : UnsupportedCause} {pos : Position} (h : good pos) :
    Blames good (reject cause pos : Gen α) := by
  intro b cause' pos' b' hx
  cases hx
  exact h

theorem Blames.bind {x : Gen α} {f : α → Gen β} (hx : Blames good x)
    (hf : ∀ a, Blames good (f a)) : Blames good (x >>= f) := by
  intro b cause pos b' h
  change EStateM.bind x f b = _ at h
  unfold EStateM.bind at h
  cases hrun : x b with
  | ok a c =>
    rw [hrun] at h
    exact hf a c cause pos b' h
  | error e c =>
    rw [hrun] at h
    cases h
    exact hx b cause pos b' hrun

theorem blames_newLabel : Blames good newLabel := by
  intro b cause pos b' h
  cases h

theorem blames_checkCall {token : Token} (name : Text) (count : Nat) (h : good token.pos) :
    Blames good (checkCall procs token name count) := by
  unfold checkCall
  cases procs.get? name with
  | none => exact blames_modify _
  | some p =>
    by_cases hcount : p.params.length ≠ count
    · simp only [if_pos hcount]
      exact blames_reject h
    · simp only [if_neg hcount]
      exact blames_pure ()

mutual

theorem blames_expr (e : Expr) (h : e.Placed good) : Blames good (expr procs e) := by
  match e with
  | .literal token value tag isBool =>
    have htag : tag = .int := h
    unfold expr
    rw [if_neg (not_not.mpr htag)]
    exact blames_modify _
  | .var v =>
    have htag : v.tag = .int := h
    unfold expr
    rw [if_neg (not_not.mpr htag)]
    exact blames_modify _
  | .binary token op left right =>
    obtain ⟨-, hlines, hleft, hright⟩ := h
    obtain ⟨ls, hls⟩ := Option.isSome_iff_exists.mp hlines
    unfold expr
    rw [hleft.tag, hright.tag, if_neg (not_not.mpr rfl), if_pos rfl, hls]
    exact (blames_expr left hleft).bind fun _ => (blames_modify _).bind fun _ =>
      (blames_expr right hright).bind fun _ => (blames_modify _).bind fun _ => blames_modify _
  | .call token name args =>
    unfold expr
    exact (blames_checkCall name args.length h.1).bind fun _ => (blames_modify _).bind fun _ =>
      (blames_arguments args h.2).bind fun _ => (blames_modify _).bind fun _ => blames_modify _
  | .missing => exact h.elim

theorem blames_arguments (es : List Expr) (h : Expr.PlacedAll good es) :
    Blames good (arguments procs es) := by
  match es with
  | [] => exact blames_pure ()
  | e :: es =>
    unfold arguments
    exact (blames_expr e h.1).bind fun _ => (blames_modify _).bind fun _ =>
      blames_arguments es h.2

end

theorem Blames.inScope {x : Gen Unit} (h : Blames good x) : Blames good (inScope x) :=
  (blames_modify _).bind fun _ => h.bind fun _ => blames_modify _

theorem blames_printValue : Blames good printValue := by
  intro b cause pos b' h
  cases h

mutual

theorem blames_stmt (st : Stmt) (h : st.Placed good) : Blames good (stmt procs st) := by
  match st with
  | .assign token target value =>
    unfold stmt
    refine (blames_expr value h.2.2).bind fun _ => ?_
    rw [if_neg (not_not.mpr h.2.1)]
    exact blames_modify _
  | .block token body => exact blames_stmts body h.2
  | .ifThen token cond body =>
    unfold stmt
    exact blames_newLabel.bind fun _ => blames_newLabel.bind fun _ =>
      (blames_expr cond h.2.1).bind fun _ => (blames_modify _).bind fun _ =>
      (blames_stmt body h.2.2).inScope.bind fun _ => (blames_modify _).bind fun _ =>
      (blames_modify _).bind fun _ => blames_modify _
  | .ifElse token cond body alternative =>
    unfold stmt
    exact blames_newLabel.bind fun _ => blames_newLabel.bind fun _ =>
      (blames_expr cond h.2.1).bind fun _ => (blames_modify _).bind fun _ =>
      (blames_stmt body h.2.2.1).inScope.bind fun _ => (blames_modify _).bind fun _ =>
      (blames_modify _).bind fun _ => (blames_stmt alternative h.2.2.2).inScope.bind fun _ =>
      blames_modify _
  | .loop token cond body =>
    unfold stmt
    exact blames_newLabel.bind fun _ => blames_newLabel.bind fun _ =>
      (blames_modify _).bind fun _ => (blames_expr cond h.2.1).bind fun _ =>
      (blames_modify _).bind fun _ => (blames_stmt body h.2.2).inScope.bind fun _ =>
      (blames_modify _).bind fun _ => blames_modify _
  | .writeLn token value =>
    unfold stmt
    refine (blames_expr value h.2).bind fun _ => ?_
    rw [if_neg (not_not.mpr h.2.tag)]
    exact blames_printValue
  | .readLn token target => exact blames_reject h
  | .call token name args => exact blames_expr (.call token name args) h
  | .declare token name params body => exact blames_pure ()
  | .missing => exact h.elim

theorem blames_stmts (sts : List Stmt) (h : Stmt.PlacedAll good sts) :
    Blames good (stmts procs sts) := by
  match sts with
  | [] => exact blames_pure ()
  | st :: sts =>
    unfold stmts
    exact (blames_stmt st h.1).bind fun _ => blames_stmts sts h.2

end

theorem blames_balanced (part : Text) : Blames good (balanced part) := by
  refine Blames.bind (fun b cause pos b' h => ?_) fun b => ?_
  · cases h
  · cases b.checkBalanced with
    | ok _ => exact blames_pure ()
    | error imbalance =>
      intro b cause pos b' h
      cases h

theorem blames_procedure {q : Procedure} (h : q.body.Placed good) :
    Blames good (procedure procs q) := by
  unfold procedure
  exact (blames_modify _).bind fun _ => (blames_modify _).bind fun _ =>
    (blames_modify _).bind fun _ => (blames_modify _).bind fun _ => (blames_modify _).bind fun _ =>
    (blames_stmt q.body h).bind fun _ => (blames_modify _).bind fun _ =>
    (blames_modify _).bind fun _ => (blames_modify _).bind fun _ => (blames_modify _).bind fun _ =>
    blames_balanced _

theorem blames_procedures {ds : List Declaration} (h : ∀ d ∈ ds, d.procedure.body.Placed good) :
    Blames good (procedures procs ds) := by
  induction ds with
  | nil => exact blames_pure ()
  | cons d ds ih =>
    obtain ⟨hd, hds⟩ := List.forall_mem_cons.mp h
    exact (blames_procedure hd).bind fun _ => ih hds

theorem blames_mainPart {body : Option Stmt} (h : ∀ st, body = some st → st.Placed good) :
    Blames good (mainPart procs body) := by
  have hexit : Blames good (do
      balanced "main"
      instr "li" ["$v0", "10"]
      instr "syscall" []) :=
    (blames_balanced _).bind fun _ => (blames_modify _).bind fun _ => blames_modify _
  refine (blames_modify _).bind fun _ => (blames_modify _).bind fun _ => (blames_modify _).bind fun _ =>
    (Blames.inScope ?_).bind fun _ => hexit
  cases body with
  | none => exact blames_pure ()
  | some st => exact blames_stmt st (h st rfl)

theorem blames_program {p : Program} (h : p.Placed good) : Blames good (program p) := by
  unfold program
  cases hrep : firstRepeated [] p.declarations with
  | some d => exact blames_reject (h.declarations d (firstRepeated_mem hrep)).1
  | none =>
    exact (blames_mainPart h.main).bind fun _ =>
      blames_procedures fun d hd => (h.declarations d hd).2

end Gen

theorem Generated.marks {p : Program} (h : p.Placed good) {e : GenerateError}
    (herror : (generate p).error = some e) (hlocated : e.toDiagnostic.isLocated = true) :
    good e.toDiagnostic.position := by
  unfold generate at herror
  cases hrun : Gen.program p {} with
  | ok _ b =>
    rw [hrun] at herror
    cases herror
  | error _ b =>
    rw [hrun] at herror
    cases herror
    cases e with
    | unsupported cause pos => exact Gen.blames_program h _ cause pos b hrun
    | internal part imbalance => cases hlocated

/-- Whatever a text is rejected for, and whatever its program is stopped for or has no machine code
for, is shown in the text. -/
theorem diagnostics_point_into_source (t : Text) :
    (∀ e, Program.ofText t = .error e → e.toDiagnostic.isLocated = true →
      e.toDiagnostic.PointsInto t) ∧
    ∀ p, Program.ofText t = .ok p →
      (∀ limits fuel s e s', Run.program limits fuel p s = .error e s' →
        e.toDiagnostic.isLocated = true → e.toDiagnostic.PointsInto t) ∧
      ∀ e, (generate p).error = some e → e.toDiagnostic.isLocated = true →
        e.toDiagnostic.PointsInto t := by
  refine ⟨fun e he hlocated => ?_, fun p hp => ?_⟩
  · exact Diagnostic.pointsInto_of_marks (SyntaxError.marks he hlocated)
  · obtain ⟨ts, hdescribes, hts⟩ := Program.exists_marks hp
    have hplaced := hdescribes.placed hts
    refine ⟨fun limits fuel s e s' hrun hlocated => ?_, fun e he hlocated => ?_⟩
    · exact Diagnostic.pointsInto_of_marks (hplaced.stopped hrun hlocated)
    · exact Diagnostic.pointsInto_of_marks (Generated.marks hplaced he hlocated)

end Assembly

end MiniPascal
