import MiniPascal.Proofs.Parsing
import MiniPascal.Proofs.Printing

/-! Printing a program and parsing it again. A printed call that is a statement lacks its semicolon,
and nothing that is printed behind it makes up for that. Any other program is found again, up to the
tokens its tree keeps. -/

namespace MiniPascal

section Adjacency

open Token

variable {t : Token} {ts us vs : List Token}

theorem isChain_cons (ht : t.isSymbol ")" = false) (h : us.IsChain Meets) :
    (t :: us).IsChain Meets := by
  refine h.cons fun u _ hparen => ?_
  rw [ht] at hparen
  cases hparen

theorem isChain_append (hus : us.IsChain Meets) (ht : ¬ t.Halts) (hvs : (t :: vs).IsChain Meets) :
    (us ++ t :: vs).IsChain Meets := by
  refine List.isChain_append.mpr ⟨hus, hvs, fun u _ w hw _ => ?_⟩
  cases hw
  exact ht

/-- No closing parenthesis at the end. -/
def Sealed (ts : List Token) : Prop := ∃ us t, ts = us ++ [t] ∧ t.isSymbol ")" = false

/-- Tokens behind which a statement can follow. -/
structure Closes (ts : List Token) : Prop where
  isChain : ts.IsChain Meets
  isSealed : Sealed ts

theorem Sealed.prepend (h : Sealed vs) (us : List Token) : Sealed (us ++ vs) := by
  obtain ⟨ws, t, rfl, ht⟩ := h
  exact ⟨us ++ ws, t, (List.append_assoc us ws [t]).symm, ht⟩

theorem closes_singleton (ht : t.isSymbol ")" = false) : Closes [t] :=
  ⟨List.isChain_singleton t, [], t, rfl, ht⟩

theorem Closes.cons (ht : t.isSymbol ")" = false) (h : Closes us) : Closes (t :: us) :=
  ⟨isChain_cons ht h.isChain, h.isSealed.prepend [t]⟩

theorem Closes.append (hus : us.IsChain Meets) (ht : ¬ t.Halts) (h : Closes (t :: vs)) :
    Closes (us ++ t :: vs) :=
  ⟨isChain_append hus ht h.isChain, h.isSealed.prepend us⟩

theorem Closes.after (hus : us = [] ∨ Closes us) (hvs : Closes vs) : Closes (us ++ vs) := by
  refine ⟨?_, hvs.isSealed.prepend us⟩
  rcases hus with rfl | ⟨hchain, ws, t, rfl, ht⟩
  · exact hvs.isChain
  · refine List.isChain_append.mpr ⟨hchain, hvs.isChain, fun u hu w _ hparen => ?_⟩
    rw [List.getLast?_append, List.getLast?_singleton] at hu
    cases hu
    rw [ht] at hparen
    cases hparen

theorem not_halts_of_isSymbol {w : Text} (h : t.isSymbol w) : ¬ t.Halts := by
  have hkind := (isSymbol_iff.mp h).1
  rintro (heof | ⟨hidentifier, -⟩)
  · cases hkind.symm.trans heof
  · cases hkind.symm.trans hidentifier

theorem not_halts_of_isWord {w : Text} (h : t.isWord w) (hw : w ∈ continuers) : ¬ t.Halts := by
  obtain ⟨hkind, rfl⟩ := isWord_iff.mp h
  rintro (heof | ⟨-, hnot⟩)
  · cases hkind.symm.trans heof
  · exact hnot hw

theorem not_close_of_isWord {w : Text} (h : t.isWord w) : t.isSymbol ")" = false :=
  not_isSymbol_of_kind (by rw [(isWord_iff.mp h).1]; decide)

theorem Token.IsName.not_close (h : t.IsName) : t.isSymbol ")" = false :=
  not_isSymbol_of_kind (by rw [h.1]; decide)

theorem Token.Spells.not_close {op : Operator} (h : t.Spells op) (hop : op.rank ≠ 0) :
    t.isSymbol ")" = false := by
  have hsymbol : op.symbol ≠ ")" := by
    cases op <;> first | exact absurd rfl hop | decide
  simp [isSymbol, h.1, hsymbol]

theorem Token.Spells.not_halts {op : Operator} (h : t.Spells op) : ¬ t.Halts := by
  rintro (heof | ⟨hkind, hnot⟩)
  · rw [h.2] at heof
    split at heof <;> cases heof
  · rw [h.2] at hkind
    split at hkind
    · rename_i hmod
      rw [h.1, hmod] at hnot
      exact hnot (by decide)
    · cases hkind

theorem closes_semi (h : t.isSymbol ";") : Closes [t] :=
  closes_singleton (not_isSymbol_of_ne h (by decide))

theorem closes_closeSemi {r : Token} (h : t.isSymbol ";") : Closes [r, t] := by
  have happend : Closes ([r] ++ t :: []) :=
    .append (List.isChain_singleton r) (not_halts_of_isSymbol h) (closes_semi h)
  exact happend

/-- What the tokens of a phrase have in common: behind a closing parenthesis there are only some
words, and no statement ends with one. -/
def Phrase.Joins : Phrase → List Token → Prop
  | .term _ _, ts => ts.IsChain Meets
  | .items _, ts => ts.IsChain Meets
  | .arguments _, ts => ts.IsChain Meets
  | .statement _ _, ts => Closes ts
  | .statements _, ts => ts = [] ∨ Closes ts

theorem isChain_parameters {params : List Variable} (h : Parenthesized IsParameter params ts) :
    ts.IsChain Meets := by
  have hlisted : ∀ {xs : List Variable} {us : List Token}, Listed IsParameter xs us →
      us.IsChain Meets := by
    intro xs us h
    induction h with
    | one hx =>
      obtain ⟨u, -, -, rfl⟩ := hx
      exact List.isChain_singleton u
    | more hx hcomma _ ih =>
      obtain ⟨u, -, -, rfl⟩ := hx
      refine isChain_append (List.isChain_singleton u) (not_halts_of_isSymbol hcomma) ?_
      exact isChain_cons (not_isSymbol_of_ne hcomma (by decide)) ih
  cases h with
  | none hl hr => exact isChain_cons (not_isSymbol_of_ne hl (by decide)) (List.isChain_singleton _)
  | some hl has hr =>
    refine isChain_cons (not_isSymbol_of_ne hl (by decide)) ?_
    exact isChain_append (hlisted has) (not_halts_of_isSymbol hr) (List.isChain_singleton _)

theorem joins_of_derives {p : Phrase} (h : Derives p ts) : p.Joins ts := by
  induction h with
  | number _ => exact List.isChain_singleton _
  | trueWord _ => exact List.isChain_singleton _
  | falseWord _ => exact List.isChain_singleton _
  | var _ => exact List.isChain_singleton _
  | call ht _ ih => exact isChain_cons ht.not_close ih
  | parens hl _ hr ih =>
    refine isChain_cons (not_isSymbol_of_ne hl (by decide)) ?_
    exact isChain_append ih (not_halts_of_isSymbol hr) (List.isChain_singleton _)
  | minus ht _ ih => exact isChain_cons (not_isSymbol_of_ne ht (by decide)) ih
  | climb _ _ ih => exact ih
  | binary hop _ ht _ ihl ihr =>
    exact isChain_append ihl ht.not_halts (isChain_cons (ht.not_close (by omega)) ihr)
  | item _ ih => exact ih
  | items _ hcomma _ ihe ihes =>
    refine isChain_append ihe (not_halts_of_isSymbol hcomma) ?_
    exact isChain_cons (not_isSymbol_of_ne hcomma (by decide)) ihes
  | noArguments hl _ =>
    exact isChain_cons (not_isSymbol_of_ne hl (by decide)) (List.isChain_singleton _)
  | arguments hl _ hr ih =>
    refine isChain_cons (not_isSymbol_of_ne hl (by decide)) ?_
    exact isChain_append ih (not_halts_of_isSymbol hr) (List.isChain_singleton _)
  | assign ht hsign _ hsemi ih =>
    refine .cons ht.not_close (.cons (not_isSymbol_of_ne hsign (by decide)) ?_)
    exact .append ih (not_halts_of_isSymbol hsemi) (closes_semi hsemi)
  | callStatement ht _ hsemi ih =>
    exact .cons ht.not_close (.append ih (not_halts_of_isSymbol hsemi) (closes_semi hsemi))
  | writeLn ht hl _ hr hsemi ih =>
    refine .cons (not_close_of_isWord ht) (.cons (not_isSymbol_of_ne hl (by decide)) ?_)
    exact .append ih (not_halts_of_isSymbol hr) (closes_closeSemi hsemi)
  | readLn ht hl hv hr hsemi =>
    refine .cons (not_close_of_isWord ht) (.cons (not_isSymbol_of_ne hl (by decide)) ?_)
    exact .cons hv.not_close (closes_closeSemi hsemi)
  | block ht _ hfinal hsemi ih =>
    refine .cons (not_close_of_isWord ht) (.after ih ?_)
    exact .cons (not_close_of_isWord hfinal) (closes_semi hsemi)
  | bareBlock ht _ hfinal ih =>
    exact .cons (not_close_of_isWord ht) (.after ih (closes_singleton (not_close_of_isWord hfinal)))
  | ifThen ht _ hthen _ ihe ihs =>
    refine .cons (not_close_of_isWord ht) (.append ihe (not_halts_of_isWord hthen (by decide)) ?_)
    exact .cons (not_close_of_isWord hthen) ihs
  | ifElse ht _ hthen _ helse _ ihe ihs ihs' =>
    refine .cons (not_close_of_isWord ht) (.append ihe (not_halts_of_isWord hthen (by decide)) ?_)
    refine .cons (not_close_of_isWord hthen) (.after (.inr ihs) ?_)
    exact .cons (not_close_of_isWord helse) ihs'
  | loop ht _ hdo _ ihe ihs =>
    refine .cons (not_close_of_isWord ht) (.append ihe (not_halts_of_isWord hdo (by decide)) ?_)
    exact .cons (not_close_of_isWord hdo) ihs
  | forLoop ht hv hsign _ hto _ hdo _ ihfirst ihlast ihbody =>
    refine .cons (not_close_of_isWord ht) (.cons hv.not_close ?_)
    refine .cons (not_isSymbol_of_ne hsign (by decide)) ?_
    refine .append ihfirst (not_halts_of_isWord hto (by decide)) (.cons (not_close_of_isWord hto) ?_)
    refine .append ihlast (not_halts_of_isWord hdo (by decide)) ?_
    exact .cons (not_close_of_isWord hdo) ihbody
  | declare ht hcalled hparams hsemi _ ih =>
    refine .cons (not_close_of_isWord ht) (.cons hcalled.not_close ?_)
    refine .append (isChain_parameters hparams) (not_halts_of_isSymbol hsemi) ?_
    exact .cons (not_isSymbol_of_ne hsemi (by decide)) ih
  | noStatements => exact .inl rfl
  | @statements s ss e us vs _ _ _ ihs ihss =>
    refine .inr ?_
    rcases ihss with rfl | hvs
    · rwa [List.append_nil]
    · exact .after (.inr ihs) hvs

end Adjacency

theorem Declares.closes {ds : List Declaration} {us : List Token} (h : Declares ds us) :
    us = [] ∨ Closes us := by
  induction h with
  | nil => exact .inl rfl
  | @cons d ds e us vs hd _ _ ih =>
    have hclosed : Closes us := joins_of_derives hd
    refine .inr ?_
    rcases ih with rfl | hvs
    · rwa [List.append_nil]
    · exact .after (.inr hclosed) hvs

theorem Program.Derives.closes {p : Program} {ts : List Token} (h : p.Derives ts) : Closes ts := by
  cases h with
  | plain hds hs _ => exact .after hds.closes (joins_of_derives hs)
  | @period ds s e us vs dot hds hs hdot =>
    have hend := closes_singleton (Token.not_isSymbol_of_ne hdot (show "." ≠ (")" : Text) by decide))
    have hmain : Closes vs := joins_of_derives hs
    exact .after hds.closes (.after (.inr hmain) hend)

def Declaration.erase (d : Declaration) : Declaration :=
  ⟨{}, d.procedure.name, d.procedure.params.map Variable.erase, d.procedure.body.erase⟩

/-- A program without its tokens. -/
def Program.erase (p : Program) : Program :=
  ⟨p.procedures.map Declaration.erase, p.main.map Stmt.erase⟩

/-- Whether there is a call whose value is dropped, in a procedure or in the statement. -/
def Program.hasCall (p : Program) : Bool :=
  p.procedures.any (fun d => d.procedure.body.hasCall) || p.main.any Stmt.hasCall

section Declarations

variable {ds : List Declaration} {ss : List Stmt} {s : Stmt} {ts us : List Token}

theorem hasCallAll_map_toStmt (ds : List Declaration) :
    Stmt.hasCallAll (ds.map Declaration.toStmt) = ds.any fun d => d.procedure.body.hasCall := by
  induction ds with
  | nil => rfl
  | cons d ds ih =>
    rw [List.map_cons, Stmt.hasCallAll, ih, List.any_cons]
    rfl

theorem exists_toStmt_of_erase {d : Declaration} (h : s.erase = d.toStmt.erase) :
    ∃ d' : Declaration, s = d'.toStmt ∧ d'.erase = d.erase := by
  cases s with
  | declare token name params body =>
    rw [Declaration.toStmt, Stmt.erase, Stmt.erase] at h
    obtain ⟨-, hname, hparams, hbody⟩ := Stmt.declare.inj h
    refine ⟨⟨token, name, params, body⟩, rfl, ?_⟩
    rw [Declaration.erase, Declaration.erase, hname, hparams, hbody]
  | _ =>
    rw [Declaration.toStmt, Stmt.erase, Stmt.erase] at h
    cases h

/-- Statements that are declarations up to their tokens are declarations. -/
theorem exists_declares (h : Derives (.statements ss) ts)
    (herase : Stmt.eraseAll ss = Stmt.eraseAll (ds.map Declaration.toStmt)) :
    ∃ ds', Declares ds' ts ∧ ds'.map Declaration.erase = ds.map Declaration.erase := by
  induction ds generalizing ss ts with
  | nil =>
    cases h with
    | noStatements => exact ⟨[], .nil, rfl⟩
    | statements _ _ _ => cases herase
  | cons d ds ih =>
    cases h with
    | noStatements => cases herase
    | statements hs hbare hss =>
      obtain ⟨hhead, htail⟩ := List.cons.inj herase
      obtain ⟨d', rfl, hd'⟩ := exists_toStmt_of_erase hhead
      obtain ⟨ds', hds', heds'⟩ := ih hss htail
      exact ⟨d' :: ds', .cons hs hbare hds', by rw [List.map_cons, List.map_cons, hd', heds']⟩

theorem prints_declarations (h : Declares ds us) (hlexed : ∀ u ∈ us, u.Lexed) :
    Prints false (ds.flatMap fun d => (d.procedure.render ++ "\n" : Text))
      (Stmt.RecoverAll (ds.map Declaration.toStmt)) := by
  induction h with
  | nil => exact prints_noStatements
  | @cons d ds e us vs hd _ _ ih =>
    have hprints : Prints false d.toStmt.render (d.toStmt.Recovers e) :=
      prints_of_derives hd fun u hu => hlexed u (List.mem_append_left _ hu)
    rw [List.flatMap_cons, List.map_cons]
    exact prints_before hprints (c := '\n') (by decide)
      (ih fun u hu => hlexed u (List.mem_append_right _ hu))

end Declarations

/-- The tokens are those of a program that is the given one up to its tokens, unless they lack the
semicolon of a call. Then they are the tokens of no program. -/
structure Program.Recovers (p : Program) (ts : List Token) : Prop where
  describes : p.hasCall = false → ∃ q : Program, q.Describes ts ∧ q.erase = p.erase
  clashes : p.hasCall = true → ∀ e : Token, e.kind = .eof → ¬ (ts ++ [e]).IsChain Token.Meets

theorem Program.Describes.prints {p : Program} {ts : List Token} (h : p.Describes ts)
    (hlexed : ∀ t ∈ ts, t.Lexed) : Prints false p.render p.Recovers := by
  obtain ⟨ds, s, ending, us, vs, hp, hds, hs, hus, hvs⟩ : ∃ ds s ending us vs,
      p = ⟨ds, some s⟩ ∧ Declares ds us ∧ MiniPascal.Derives (.statement ending s) vs ∧
      (∀ u ∈ us, u.Lexed) ∧ ∀ u ∈ vs, u.Lexed := by
    cases h.1 with
    | plain hds hs _ =>
      exact ⟨_, _, _, _, _, rfl, hds, hs, fun u hu => hlexed u (by simp [hu]),
        fun u hu => hlexed u (by simp [hu])⟩
    | period hds hs _ =>
      exact ⟨_, _, _, _, _, rfl, hds, hs, fun u hu => hlexed u (by simp [hu]),
        fun u hu => hlexed u (by simp [hu])⟩
  subst hp
  have hmain : Prints false s.render (s.Recovers ending) := prints_of_derives hs hvs
  refine ((prints_declarations hds hus).append hmain).mono ?_
  rintro _ ⟨us', vs', rfl, hds', hs'⟩
  refine ⟨fun hcall => ?_, fun hcall e he => ?_⟩
  · rw [Program.hasCall, ← hasCallAll_map_toStmt, Bool.or_eq_false_iff] at hcall
    obtain ⟨ss, hss, hess⟩ := hds'.derives hcall.1
    obtain ⟨ds', hderives, heds⟩ := exists_declares hss hess
    obtain ⟨ending', s', hderives', hbare, -, hes⟩ := hs'.derives hcall.2
    refine ⟨⟨ds', some s'⟩, ⟨.plain hderives hderives' hbare, fun d hd => ?_⟩, ?_⟩
    · cases hd
      obtain ⟨d', rfl, -⟩ := exists_toStmt_of_erase hes.symm
      exact h.2 d' rfl
    · simp only [Program.erase, heds, Option.map_some, hes]
  · rw [Program.hasCall, ← hasCallAll_map_toStmt, Bool.or_eq_true] at hcall
    have hhalts : e.Halts := .inl he
    rw [List.append_assoc]
    rcases hcall with hcall | hcall
    · obtain ⟨u, ws, rfl, hu⟩ := hs'.halts
      exact hds'.clashes hcall u (ws ++ [e]) hu
    · exact not_isChain_of_suffix (hs'.clashes hcall e [] hhalts) ⟨us', rfl⟩

mutual

theorem Expr.render_erase (e : Expr) : e.erase.render = e.render := by
  match e with
  | .literal .. => rfl
  | .var _ => rfl
  | .binary _ op left right =>
    rw [Expr.erase, Expr.render, Expr.render, Expr.render_erase left, Expr.render_erase right]
  | .call _ name args => rw [Expr.erase, Expr.render, Expr.render, Expr.renderAll_erase args]
  | .missing => rfl

theorem Expr.renderAll_erase (es : List Expr) :
    Expr.renderAll (Expr.eraseAll es) = Expr.renderAll es := by
  match es with
  | [] => rfl
  | e :: es =>
    rw [Expr.eraseAll, Expr.renderAll, Expr.renderAll, Expr.render_erase e, Expr.renderAll_erase es]

end

theorem renderHead_erase (name : Text) (params : List Variable) :
    renderHead name (params.map Variable.erase) = renderHead name params := by
  rw [renderHead, renderHead, List.map_map]
  rfl

mutual

theorem Stmt.render_erase (s : Stmt) : s.erase.render = s.render := by
  match s with
  | .assign _ _ value => rw [Stmt.erase, Stmt.render, Stmt.render, value.render_erase]; rfl
  | .block _ body => rw [Stmt.erase, Stmt.render, Stmt.render, Stmt.renderAll_erase body]
  | .ifThen _ cond body =>
    rw [Stmt.erase, Stmt.render, Stmt.render, cond.render_erase, Stmt.render_erase body]
  | .ifElse _ cond body alternative =>
    rw [Stmt.erase, Stmt.render, Stmt.render, cond.render_erase, Stmt.render_erase body,
      Stmt.render_erase alternative]
  | .loop _ cond body =>
    rw [Stmt.erase, Stmt.render, Stmt.render, cond.render_erase, Stmt.render_erase body]
  | .writeLn _ value => rw [Stmt.erase, Stmt.render, Stmt.render, value.render_erase]
  | .readLn .. => rfl
  | .call _ name args =>
    rw [Stmt.erase, Stmt.render, Stmt.render, Expr.render, Expr.render, Expr.renderAll_erase]
  | .declare _ name params body =>
    rw [Stmt.erase, Stmt.render, Stmt.render, renderHead_erase, Stmt.render_erase body]
  | .missing => rfl

theorem Stmt.renderAll_erase (ss : List Stmt) :
    Stmt.renderAll (Stmt.eraseAll ss) = Stmt.renderAll ss := by
  match ss with
  | [] => rfl
  | s :: ss =>
    rw [Stmt.eraseAll, Stmt.renderAll, Stmt.renderAll, Stmt.render_erase s, Stmt.renderAll_erase ss]

end

theorem Procedure.render_erase (d : Declaration) :
    d.erase.procedure.render = d.procedure.render := by
  rw [Procedure.render, Procedure.render, Declaration.erase, renderHead_erase, Stmt.render_erase]

theorem Program.render_erase (p : Program) : p.erase.render = p.render := by
  obtain ⟨ds, main⟩ := p
  have hds : (ds.map Declaration.erase).flatMap (fun d => (d.procedure.render ++ "\n" : Text)) =
      ds.flatMap fun d => (d.procedure.render ++ "\n" : Text) := by
    rw [List.flatMap_map]
    exact List.flatMap_congr fun d _ => by rw [Procedure.render_erase]
  rw [Program.render, Program.render, Program.erase]
  cases main with
  | none => exact congrArg (· ++ []) hds
  | some s =>
    rw [hds, Option.map_some]
    exact congrArg (_ ++ ·) s.render_erase

theorem Program.exists_lexed {t : Text} {p : Program} (h : Program.ofText t = .ok p) :
    ∃ ts, p.Describes ts ∧ ∀ u ∈ ts, u.Lexed := by
  obtain ⟨ts, e, hscans, hdescribes⟩ := Program.exists_scans h
  obtain ⟨r, s, hr, hreads, -, -⟩ := Parser.exists_opens_of_scans hscans
  exact ⟨ts, hdescribes, hreads.lexed hr.scanned⟩

/-- How a printed program scans. -/
theorem Program.exists_scans_render {t : Text} {p : Program} (h : Program.ofText t = .ok p) :
    ∃ ts e, (Source.ofText p.render none).Scans ts e ∧ p.Recovers ts := by
  obtain ⟨us, hdescribes, hlexed⟩ := Program.exists_lexed h
  obtain ⟨ws, hlexes, hrecovers⟩ := hdescribes.prints hlexed
  obtain ⟨ts, e, hscans, hshapes⟩ := (hlexes [] fun hf => absurd hf Bool.false_ne_true).exists_scans
  exact ⟨ts, e, hscans, hrecovers ts hshapes⟩

/-- A program that was parsed is found again where it is printed, up to the tokens its tree keeps,
unless it has a call whose value is dropped. Then what is printed is no program. -/
theorem ofText_render_iff (t : Text) (p : Program) (h : Program.ofText t = .ok p) :
    ((∃ q, Program.ofText p.render = .ok q) ↔ p.hasCall = false) ∧
      ∀ q, Program.ofText p.render = .ok q → q.erase = p.erase ∧ q.render = p.render := by
  obtain ⟨ts, e, hscans, hrecovers⟩ := Program.exists_scans_render h
  have hnone : ∀ q, Program.ofText p.render = .ok q → p.hasCall = false := by
    intro q hq
    obtain ⟨ts', e', hscans', hdescribes⟩ := Program.exists_scans hq
    rw [← hscans.unique hscans'] at hdescribes
    have hend : e.isSymbol ")" = false := Token.not_isSymbol_of_kind (by rw [hscans.atEnd]; decide)
    have hchain := (Closes.after (.inr hdescribes.1.closes) (closes_singleton hend)).isChain
    by_contra hcall
    exact hrecovers.clashes (Bool.not_eq_false _ ▸ hcall) e hscans.atEnd hchain
  have hfound : p.hasCall = false → ∃ q, Program.ofText p.render = .ok q ∧ q.erase = p.erase := by
    intro hcall
    obtain ⟨q, hdescribes, herase⟩ := hrecovers.describes hcall
    exact ⟨q, Program.ofText_of_describes hscans hdescribes, herase⟩
  refine ⟨⟨?_, fun hcall => ?_⟩, fun q hq => ?_⟩
  · rintro ⟨q, hq⟩
    exact hnone q hq
  · obtain ⟨q, hq, -⟩ := hfound hcall
    exact ⟨q, hq⟩
  · obtain ⟨q', hq', herase⟩ := hfound (hnone q hq)
    cases hq.symm.trans hq'
    refine ⟨herase, ?_⟩
    rw [← q.render_erase, herase, p.render_erase]

/-- A counting loop, a minus sign, a leading zero, a truth value and an `ELSE` behind two `IF`s. -/
theorem counting_found_again : ∃ p, Program.ofText "PROCEDURE f(a, b); f := a * b - 1 mod 2;
      FOR i := 007 TO -x DO IF True THEN IF i < 2 THEN y := i; ELSE y := f(i, 3);" = .ok p ∧
    p.hasCall = false ∧
    ∃ q, Program.ofText p.render = .ok q ∧ q.erase = p.erase ∧ q.render = p.render := by
  obtain ⟨p, hp, hcheck⟩ : ∃ p, Program.ofText "PROCEDURE f(a, b); f := a * b - 1 mod 2;
      FOR i := 007 TO -x DO IF True THEN IF i < 2 THEN y := i; ELSE y := f(i, 3);" = .ok p ∧
      (!p.hasCall) = true := Program.exists_of_passes (by decide +kernel)
  have hcall : p.hasCall = false := by simpa using hcheck
  obtain ⟨hiff, hsame⟩ := ofText_render_iff _ p hp
  obtain ⟨q, hq⟩ := hiff.mpr hcall
  exact ⟨p, hp, hcall, q, hq, hsame q hq⟩

end MiniPascal
