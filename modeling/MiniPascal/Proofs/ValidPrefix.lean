import MiniPascal.Proofs.Lockstep

/-! Where a text is rejected. The tokens in front of the rejected one begin some program, and with
it they begin none: it is the first token that cannot stand where it does. -/

namespace MiniPascal

open MiniPascal.Parser

section Transport

variable {t : Text} {ts us : List Token} {e : Token} {r r' s s' : State}

theorem Token.Scanned.shape_of_eof (h : e.Scanned) (hkind : e.kind = .eof) :
    e.shape = Token.eof.shape := by
  rcases h with h | ⟨-, hliteral⟩
  · exact absurd hkind h.ne_eof
  · rw [Token.shape, hkind, hliteral]
    rfl

/-- Tokens of a scanner, with nothing behind them. -/
theorem exists_reads_of_lexed (hts : ∀ t ∈ ts, t.Lexed) :
    ∃ r s : State, r.Scanned ∧ Reads r ts s ∧ s.current = Token.eof := by
  obtain ⟨r, hr, hnext⟩ : ∃ r : State, r.Scanned ∧
      TokenStream.next ⟨ts.map .ok, .ok Token.eof⟩ = (.ok r.current, r.stream) := by
    have hlast : ∀ t : Token, (.ok Token.eof : Except ScanError Token) = .ok t →
        t.kind = .eof ∧ t.literal = [] := by
      intro t ht
      cases ht
      exact ⟨rfl, rfl⟩
    cases ts with
    | nil =>
      refine ⟨⟨⟨[], .ok Token.eof⟩, Token.eof, true⟩, ⟨Token.scanned_eof, ⟨?_, hlast⟩⟩, rfl⟩
      exact fun t ht => absurd ht List.not_mem_nil
    | cons t ts =>
      obtain ⟨ht, hts⟩ := List.forall_mem_cons.mp hts
      refine ⟨⟨⟨ts.map .ok, .ok Token.eof⟩, t, true⟩, ⟨.inl ht, ⟨fun u hu => ?_, hlast⟩⟩, rfl⟩
      obtain ⟨v, hv, heq⟩ := List.mem_map.mp hu
      exact Except.ok.inj heq ▸ hts v hv
  obtain ⟨s, hreads, hcurrent⟩ := exists_reads_of_next (fun t ht => (hts t ht).ne_eof) hnext
  exact ⟨r, s, hr, hreads, hcurrent⟩

/-- A text with tokens like those of a program holds a program. -/
theorem Program.exists_of_shapes {p : Program} (hp : p.Describes us) (hus : ∀ u ∈ us, u.Lexed)
    (h : (Source.ofText t none).Scans ts e) (hshapes : us.map Token.shape = ts.map Token.shape) :
    ∃ q, Program.ofText t = .ok q := by
  obtain ⟨r', s', hr', hreads', hs', hrun⟩ := exists_opens_of_scans h
  obtain ⟨r, s, hr, hreads, hs⟩ := exists_reads_of_lexed hus
  have hlen := hreads'.length_le hr'.scanned
  have hsame := congrArg List.length hshapes
  rw [List.length_map, List.length_map] at hsame
  have hend : s.current.kind = .eof := by rw [hs]; rfl
  have hleft := hreads.left_add hr
  rw [State.left_of_eof hend] at hleft
  have hok := takes_program hp (n := r'.stream.items.length + 2) (by omega) rfl r s hr hreads hs
  have hend' : s'.current.kind = .eof := by rw [hs']; exact h.atEnd
  have hnext : s.current.shape = s'.current.shape := by
    rw [hs, (hreads'.scanned hr'.scanned).current.shape_of_eof hend']
  have hpair : Paired (r'.stream.items.length + 2) r us s r' ts s' :=
    ⟨hr, by omega, hreads, hreads', hshapes, hnext⟩
  have hcurrent := hreads.shape_current hreads' hshapes hnext
  have hecho := (lockstep_program (Nat.le_refl _) _ _ hcurrent).echoes hpair rfl rfl
    (congrArg verdict hok)
  obtain ⟨q, hq⟩ := exists_ok_of_verdict hecho
  exact ⟨q, hrun.trans (by rw [hq]; rfl)⟩

/-- The tokens of a program can be written down, each with a space in front. -/
theorem Program.exists_text {p : Program} (hp : p.Describes us) (hus : ∀ u ∈ us, u.Lexed) :
    ∃ t ts e q, (Source.ofText t none).Scans ts e ∧ Program.ofText t = .ok q ∧
      ts.map Token.shape = us.map Token.shape := by
  obtain ⟨ts, e, hscans, hshapes⟩ := (Lexes.spaced hus).exists_scans
  obtain ⟨q, hq⟩ := Program.exists_of_shapes hp hus hscans hshapes.symm
  exact ⟨Token.spaced us, ts, e, q, hscans, hq, hshapes⟩

/-- Tokens at the front of a stretch, with one of it behind them. -/
theorem Parser.Reads.exists_of_isPrefix {found : Token} (hreads : Reads r' ts s')
    (h : (us ++ [found]).map Token.shape <+: (ts ++ [s'.current]).map Token.shape) :
    ∃ us' m, Reads r' us' m ∧ us.map Token.shape = us'.map Token.shape ∧
      found.shape = m.current.shape := by
  induction hreads generalizing us with
  | nil =>
    cases us with
    | nil => exact ⟨[], _, .nil, rfl, (List.cons_prefix_cons.mp h).1⟩
    | cons u us =>
      have hrest := (List.cons_prefix_cons.mp h).2
      simp at hrest
  | cons hkind hadvance _ ih =>
    cases us with
    | nil => exact ⟨[], _, .nil, rfl, (List.cons_prefix_cons.mp h).1⟩
    | cons u us =>
      obtain ⟨hshape, hrest⟩ := List.cons_prefix_cons.mp h
      obtain ⟨us', m, hreads, hshapes, hfound⟩ := ih hrest
      refine ⟨_ :: us', m, .cons hkind hadvance hreads, ?_, hfound⟩
      rw [List.map_cons, List.map_cons, hshape, hshapes]

/-- Where a run rejects a token, no text that holds a program begins with tokens like those read and
the rejected one. -/
theorem not_isPrefix_of_rejects {n : Nat} {cause : ParseCause} {found : Token} {t : Text}
    {p : Program} (hr : r.Scanned) (hn : r.left < n) (hreads : Reads r us s)
    (hrejects : program n r = .error (.parse cause found) s)
    (h : (Source.ofText t none).Scans ts e) (hp : Program.ofText t = .ok p) :
    ¬ (us ++ [s.current]).map Token.shape <+: (ts ++ [e]).map Token.shape := by
  intro hfront
  obtain ⟨ts', e', hscans, hdescribes⟩ := Program.exists_scans hp
  rw [← h.unique hscans] at hdescribes
  obtain ⟨r', s', hr', hreads', rfl, -⟩ := exists_opens_of_scans h
  -- The bound of this run is raised to that of the other, which does not change what it accepts.
  have hok := takes_program hdescribes (n := max n ts.length) (by omega) h.atEnd r' s' hr'.scanned
    hreads' rfl
  obtain ⟨us', m, hus', hshapes, hnext⟩ := hreads'.exists_of_isPrefix hfront
  have hpair : Paired n r us s r' us' m := ⟨hr, hn, hreads, hus', hshapes, hnext⟩
  have hcurrent := hreads.shape_current hus' hshapes hnext
  have hle : n ≤ max n ts.length := by omega
  have hecho := (lockstep_program hle _ _ hcurrent).echoes hpair rfl rfl (congrArg verdict hrejects)
  rw [hok] at hecho
  cases hecho

end Transport

/-- A text is rejected at the first token that cannot stand where it does: the tokens before it
begin a text that holds a program, and together with it, which may be the end of the text, they
begin none. Tokens are compared by kind and spelling. -/
theorem rejected_at_first_offence (t : Text) (err : SyntaxError) (message : Text) (pos : Position)
    (h : Program.ofText t = .error err) (hreport : err.toDiagnostic = .parse message pos) :
    ∃ (us : List Token) (found : Token),
      (Source.ofText t none).answers (us.length + 1) = (us ++ [found]).map .ok ∧ found.pos = pos ∧
      (∃ t' ts e p, (Source.ofText t' none).Scans ts e ∧ Program.ofText t' = .ok p ∧
        us.map Token.shape <+: ts.map Token.shape) ∧
      ∀ t' ts e p, (Source.ofText t' none).Scans ts e → Program.ofText t' = .ok p →
        ¬ (us ++ [found]).map Token.shape <+: (ts ++ [e]).map Token.shape := by
  cases err with
  | scan err => cases err <;> cases hreport
  | parse cause found =>
    cases hreport
    obtain ⟨e, -, hfails⟩ | ⟨r, hr, hrun⟩ := ofSource_cases (Source.ofText t none)
    · cases hfails.symm.trans h
    · have hends := hr.ends
      have houtcome := hrun.symm.trans h
      cases hres : program (r.stream.items.length + 2) r with
      | ok p s =>
        rw [hres] at houtcome
        cases houtcome
      | error err s =>
        rw [hres] at houtcome hends
        cases houtcome
        obtain ⟨us, hus, rfl, vs, p, next, hvs, -, hp, -⟩ := hends
        have hlexed : ∀ u ∈ us ++ vs, u.Lexed := by
          intro u hu
          exact (List.mem_append.mp hu).elim (hus.lexed hr.scanned u) (hvs u)
        obtain ⟨t', ts, e, q, hscans, hq, hshapes⟩ := Program.exists_text hp hlexed
        refine ⟨us, s.current, hr.answers hus, rfl, ⟨t', ts, e, q, hscans, hq, ?_⟩, ?_⟩
        · rw [hshapes, List.map_append]
          exact List.prefix_append _ _
        · intro t' ts e p hscans hp
          have hleft := r.left_le
          exact not_isPrefix_of_rejects hr.scanned (by omega) hus hres hscans hp

theorem exists_error_of_report {t : Text} {d : Diagnostic}
    (h : ((Program.ofText t).mapError SyntaxError.toDiagnostic).map (fun _ => ()) = .error d) :
    ∃ err, Program.ofText t = .error err ∧ err.toDiagnostic = d := by
  cases hp : Program.ofText t with
  | ok p =>
    rw [hp] at h
    cases h
  | error err =>
    rw [hp] at h
    cases h
    exact ⟨err, rfl, rfl⟩

/-- A period may stand in place of the semicolon of a block, but then nothing may follow it. -/
theorem else_behind_period_rejected : ∃ err,
    Program.ofText "IF x THEN BEGIN END. ELSE y := 1;" = .error err ∧
    err.toDiagnostic = .parse "expected end of input, got \"ELSE\"" ⟨1, 22⟩ ∧
    ∃ (us : List Token) (found : Token),
      (Source.ofText "IF x THEN BEGIN END. ELSE y := 1;" none).answers (us.length + 1) =
        (us ++ [found]).map .ok ∧ found.pos = ⟨1, 22⟩ ∧
      (∃ t' ts e p, (Source.ofText t' none).Scans ts e ∧ Program.ofText t' = .ok p ∧
        us.map Token.shape <+: ts.map Token.shape) ∧
      ∀ t' ts e p, (Source.ofText t' none).Scans ts e → Program.ofText t' = .ok p →
        ¬ (us ++ [found]).map Token.shape <+: (ts ++ [e]).map Token.shape := by
  obtain ⟨err, herror, hreport⟩ := exists_error_of_report (t := "IF x THEN BEGIN END. ELSE y := 1;")
    (d := .parse "expected end of input, got \"ELSE\"" ⟨1, 22⟩) (by decide +kernel)
  exact ⟨err, herror, hreport, rejected_at_first_offence _ err _ _ herror hreport⟩

end MiniPascal
