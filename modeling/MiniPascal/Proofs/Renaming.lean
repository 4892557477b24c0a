import MiniPascal.Proofs.Emission
import MiniPascal.Proofs.Grammar
import MiniPascal.Proofs.Identifiers

/-! Programs under other names. A renaming replaces the names of variables, parameters and procedures
alike, and the tokens that spell them; positions stay. -/

namespace MiniPascal

section Rename

variable (r : Text → Text)

def Variable.rename (v : Variable) : Variable :=
  { v with token := { v.token with literal := r v.name }, name := r v.name }

mutual

def Expr.rename : Expr → Expr
  | .literal token value tag isBool => .literal token value tag isBool
  | .var v => .var (v.rename r)
  | .binary token op left right => .binary token op left.rename right.rename
  | .call token name args => .call { token with literal := r name } (r name) (Expr.renameAll args)
  | .missing => .missing

def Expr.renameAll : List Expr → List Expr
  | [] => []
  | e :: es => e.rename :: Expr.renameAll es

end

mutual

def Stmt.rename : Stmt → Stmt
  | .assign token target value => .assign token (target.rename r) (value.rename r)
  | .block token body => .block token (Stmt.renameAll body)
  | .ifThen token cond body => .ifThen token (cond.rename r) body.rename
  | .ifElse token cond body alternative =>
    .ifElse token (cond.rename r) body.rename alternative.rename
  | .loop token cond body => .loop token (cond.rename r) body.rename
  | .writeLn token value => .writeLn token (value.rename r)
  | .readLn token target => .readLn token (target.rename r)
  | .call token name args =>
    .call { token with literal := r name } (r name) (Expr.renameAll r args)
  | .declare token name params body =>
    .declare token (r name) (params.map (Variable.rename r)) body.rename
  | .missing => .missing

def Stmt.renameAll : List Stmt → List Stmt
  | [] => []
  | s :: ss => s.rename :: Stmt.renameAll ss

end

def Procedure.rename (q : Procedure) : Procedure :=
  ⟨r q.name, q.params.map (Variable.rename r), q.body.rename r⟩

def Declaration.rename (d : Declaration) : Declaration := ⟨d.token, d.procedure.rename r⟩

def Program.rename (p : Program) : Program :=
  ⟨p.procedures.map (Declaration.rename r), p.main.map (Stmt.rename r)⟩

end Rename

mutual

/-- The names in an expression. -/
def Expr.names : Expr → List Text
  | .literal .. => []
  | .var v => [v.name]
  | .binary _ _ left right => left.names ++ right.names
  | .call _ name args => name :: Expr.namesAll args
  | .missing => []

def Expr.namesAll : List Expr → List Text
  | [] => []
  | e :: es => e.names ++ Expr.namesAll es

end

mutual

def Stmt.names : Stmt → List Text
  | .assign _ target value => target.name :: value.names
  | .block _ body => Stmt.namesAll body
  | .ifThen _ cond body => cond.names ++ body.names
  | .ifElse _ cond body alternative => cond.names ++ body.names ++ alternative.names
  | .loop _ cond body => cond.names ++ body.names
  | .writeLn _ value => value.names
  | .readLn _ target => [target.name]
  | .call _ name args => name :: Expr.namesAll args
  | .declare _ name params body => name :: (params.map Variable.name ++ body.names)
  | .missing => []

def Stmt.namesAll : List Stmt → List Text
  | [] => []
  | s :: ss => s.names ++ Stmt.namesAll ss

end

/-- The names of variables, parameters and procedures in a program. -/
def Program.names (p : Program) : List Text :=
  Stmt.namesAll (p.procedures.map Declaration.toStmt) ++ p.main.elim [] Stmt.names

/-- What the names of a program may become: identifiers that are not reserved, and no two of them the
same. -/
structure Program.Renaming (p : Program) (r : Text → Text) : Prop where
  injective : ∀ x ∈ p.names, ∀ y ∈ p.names, r x = r y → x = y
  identifier : ∀ x ∈ p.names, (r x).isIdentifier = true
  unreserved : ∀ x ∈ p.names, Token.isKeyword (r x) = false

section Trees

variable {r σ : Text → Text}

@[simp] theorem Expr.length_renameAll (es : List Expr) : (Expr.renameAll r es).length = es.length := by
  induction es with
  | nil => rfl
  | cons e es ih => simp [Expr.renameAll, ih]

@[simp] theorem Expr.tag_rename (e : Expr) : (e.rename r).tag = e.tag := by
  cases e with
  | binary token op left right => rfl
  | _ => rfl

@[simp] theorem Stmt.pos_rename (s : Stmt) : (s.rename r).token.pos = s.token.pos := by
  cases s with
  | call token name args => rfl
  | _ => rfl

theorem Stmt.renameAll_eq_map (ss : List Stmt) : Stmt.renameAll r ss = ss.map (Stmt.rename r) := by
  induction ss with
  | nil => rfl
  | cons s ss ih => rw [Stmt.renameAll, ih, List.map_cons]

theorem Stmt.renameAll_toStmt (ds : List Declaration) :
    Stmt.renameAll r (ds.map Declaration.toStmt) =
      (ds.map (Declaration.rename r)).map Declaration.toStmt := by
  rw [Stmt.renameAll_eq_map, List.map_map, List.map_map]
  rfl

theorem Variable.rename_congr {v : Variable} (h : σ v.name = r v.name) : v.rename σ = v.rename r := by
  rw [Variable.rename, Variable.rename, h]

mutual

/-- Renamings that agree on the names of an expression rename it alike. -/
theorem Expr.rename_congr (e : Expr) (h : ∀ x ∈ e.names, σ x = r x) : e.rename σ = e.rename r := by
  match e with
  | .literal .. => rfl
  | .var v => exact congrArg Expr.var (Variable.rename_congr (h v.name List.mem_cons_self))
  | .binary token op left right =>
    obtain ⟨hleft, hright⟩ := List.forall_mem_append.mp h
    rw [Expr.rename, Expr.rename, left.rename_congr hleft, right.rename_congr hright]
  | .call token name args =>
    obtain ⟨hname, hargs⟩ := List.forall_mem_cons.mp h
    rw [Expr.rename, Expr.rename, hname, Expr.renameAll_congr args hargs]
  | .missing => rfl

theorem Expr.renameAll_congr (es : List Expr) (h : ∀ x ∈ Expr.namesAll es, σ x = r x) :
    Expr.renameAll σ es = Expr.renameAll r es := by
  match es with
  | [] => rfl
  | e :: es =>
    obtain ⟨he, hes⟩ := List.forall_mem_append.mp h
    rw [Expr.renameAll, Expr.renameAll, e.rename_congr he, Expr.renameAll_congr es hes]

end

mutual

theorem Stmt.rename_congr (s : Stmt) (h : ∀ x ∈ s.names, σ x = r x) : s.rename σ = s.rename r := by
  match s with
  | .assign token target value =>
    obtain ⟨htarget, hvalue⟩ := List.forall_mem_cons.mp h
    rw [Stmt.rename, Stmt.rename, Variable.rename_congr htarget, value.rename_congr hvalue]
  | .block token body => rw [Stmt.rename, Stmt.rename, Stmt.renameAll_congr body h]
  | .ifThen token cond body =>
    obtain ⟨hcond, hbody⟩ := List.forall_mem_append.mp h
    rw [Stmt.rename, Stmt.rename, cond.rename_congr hcond, body.rename_congr hbody]
  | .ifElse token cond body alternative =>
    obtain ⟨hfront, halternative⟩ := List.forall_mem_append.mp h
    obtain ⟨hcond, hbody⟩ := List.forall_mem_append.mp hfront
    rw [Stmt.rename, Stmt.rename, cond.rename_congr hcond, body.rename_congr hbody,
      alternative.rename_congr halternative]
  | .loop token cond body =>
    obtain ⟨hcond, hbody⟩ := List.forall_mem_append.mp h
    rw [Stmt.rename, Stmt.rename, cond.rename_congr hcond, body.rename_congr hbody]
  | .writeLn token value => rw [Stmt.rename, Stmt.rename, value.rename_congr h]
  | .readLn token target =>
    rw [Stmt.rename, Stmt.rename, Variable.rename_congr (h target.name List.mem_cons_self)]
  | .call token name args =>
    obtain ⟨hname, hargs⟩ := List.forall_mem_cons.mp h
    rw [Stmt.rename, Stmt.rename, hname, Expr.renameAll_congr args hargs]
  | .declare token name params body =>
    obtain ⟨hname, hrest⟩ := List.forall_mem_cons.mp h
    obtain ⟨hparams, hbody⟩ := List.forall_mem_append.mp hrest
    have hmap : params.map (Variable.rename σ) = params.map (Variable.rename r) :=
      List.map_congr_left fun v hv => Variable.rename_congr (hparams v.name (List.mem_map_of_mem hv))
    rw [Stmt.rename, Stmt.rename, hname, hmap, body.rename_congr hbody]
  | .missing => rfl

theorem Stmt.renameAll_congr (ss : List Stmt) (h : ∀ x ∈ Stmt.namesAll ss, σ x = r x) :
    Stmt.renameAll σ ss = Stmt.renameAll r ss := by
  match ss with
  | [] => rfl
  | s :: ss =>
    obtain ⟨hs, hss⟩ := List.forall_mem_append.mp h
    rw [Stmt.renameAll, Stmt.renameAll, s.rename_congr hs, Stmt.renameAll_congr ss hss]

end

mutual

theorem Expr.names_rename (e : Expr) : (e.rename r).names = e.names.map r := by
  match e with
  | .literal .. => rfl
  | .var v => rfl
  | .binary token op left right =>
    rw [Expr.rename, Expr.names, Expr.names, left.names_rename, right.names_rename, List.map_append]
  | .call token name args =>
    rw [Expr.rename, Expr.names, Expr.names, Expr.namesAll_renameAll args, List.map_cons]
  | .missing => rfl

theorem Expr.namesAll_renameAll (es : List Expr) :
    Expr.namesAll (Expr.renameAll r es) = (Expr.namesAll es).map r := by
  match es with
  | [] => rfl
  | e :: es =>
    rw [Expr.renameAll, Expr.namesAll, Expr.namesAll, e.names_rename, Expr.namesAll_renameAll es,
      List.map_append]

end

theorem Variable.names_rename (params : List Variable) :
    (params.map (Variable.rename r)).map Variable.name = (params.map Variable.name).map r := by
  rw [List.map_map, List.map_map]
  rfl

mutual

theorem Stmt.names_rename (s : Stmt) : (s.rename r).names = s.names.map r := by
  match s with
  | .assign token target value => simp [Stmt.rename, Stmt.names, value.names_rename, Variable.rename]
  | .block token body => exact Stmt.namesAll_renameAll body
  | .ifThen token cond body => simp [Stmt.rename, Stmt.names, cond.names_rename, body.names_rename]
  | .ifElse token cond body alternative =>
    simp [Stmt.rename, Stmt.names, cond.names_rename, body.names_rename, alternative.names_rename]
  | .loop token cond body => simp [Stmt.rename, Stmt.names, cond.names_rename, body.names_rename]
  | .writeLn token value => exact value.names_rename
  | .readLn token target => rfl
  | .call token name args => simp [Stmt.rename, Stmt.names, Expr.namesAll_renameAll]
  | .declare token name params body =>
    rw [Stmt.rename, Stmt.names, Stmt.names, Variable.names_rename, body.names_rename, List.map_cons,
      List.map_append]
  | .missing => rfl

theorem Stmt.namesAll_renameAll (ss : List Stmt) :
    Stmt.namesAll (Stmt.renameAll r ss) = (Stmt.namesAll ss).map r := by
  match ss with
  | [] => rfl
  | s :: ss =>
    rw [Stmt.renameAll, Stmt.namesAll, Stmt.namesAll, s.names_rename, Stmt.namesAll_renameAll ss,
      List.map_append]

end

mutual

theorem Expr.named_iff (e : Expr) : e.Named ↔ ∀ x ∈ e.names, x.isIdentifier = true := by
  match e with
  | .literal .. => simp [Expr.Named, Expr.names]
  | .var v => simp [Expr.Named, Expr.names]
  | .binary token op left right =>
    rw [Expr.Named, Expr.names, left.named_iff, right.named_iff, List.forall_mem_append]
  | .call token name args =>
    rw [Expr.Named, Expr.names, Expr.namedAll_iff_names args, List.forall_mem_cons]
  | .missing => simp [Expr.Named, Expr.names]

theorem Expr.namedAll_iff_names (es : List Expr) :
    Expr.NamedAll es ↔ ∀ x ∈ Expr.namesAll es, x.isIdentifier = true := by
  match es with
  | [] => simp [Expr.NamedAll, Expr.namesAll]
  | e :: es =>
    rw [Expr.NamedAll, Expr.namesAll, e.named_iff, Expr.namedAll_iff_names es, List.forall_mem_append]

end

mutual

theorem Stmt.named_iff (s : Stmt) : s.Named ↔ ∀ x ∈ s.names, x.isIdentifier = true := by
  match s with
  | .assign token target value =>
    rw [Stmt.Named, Stmt.names, value.named_iff, List.forall_mem_cons]
  | .block token body => exact Stmt.namedAll_iff_names body
  | .ifThen token cond body =>
    rw [Stmt.Named, Stmt.names, cond.named_iff, body.named_iff, List.forall_mem_append]
  | .ifElse token cond body alternative =>
    rw [Stmt.Named, Stmt.names, cond.named_iff, body.named_iff, alternative.named_iff,
      List.forall_mem_append, List.forall_mem_append, and_assoc]
  | .loop token cond body =>
    rw [Stmt.Named, Stmt.names, cond.named_iff, body.named_iff, List.forall_mem_append]
  | .writeLn token value => exact value.named_iff
  | .readLn token target => simp [Stmt.Named, Stmt.names]
  | .call token name args =>
    rw [Stmt.Named, Stmt.names, Expr.namedAll_iff_names args, List.forall_mem_cons]
  | .declare token name params body =>
    rw [Stmt.Named, Stmt.names, body.named_iff, List.forall_mem_cons, List.forall_mem_append,
      List.forall_mem_map]
  | .missing => simp [Stmt.Named, Stmt.names]

theorem Stmt.namedAll_iff_names (ss : List Stmt) :
    Stmt.NamedAll ss ↔ ∀ x ∈ Stmt.namesAll ss, x.isIdentifier = true := by
  match ss with
  | [] => simp [Stmt.NamedAll, Stmt.namesAll]
  | s :: ss =>
    rw [Stmt.NamedAll, Stmt.namesAll, s.named_iff, Stmt.namedAll_iff_names ss, List.forall_mem_append]

end

mutual

theorem Expr.calls_rename (e : Expr) : (e.rename r).calls = e.calls.map r := by
  match e with
  | .literal .. => rfl
  | .var v => rfl
  | .binary token op left right =>
    rw [Expr.rename, Expr.calls, Expr.calls, left.calls_rename, right.calls_rename, List.map_append]
  | .call token name args =>
    rw [Expr.rename, Expr.calls, Expr.calls, Expr.callsAll_renameAll args, List.map_cons]
  | .missing => rfl

theorem Expr.callsAll_renameAll (es : List Expr) :
    Expr.callsAll (Expr.renameAll r es) = (Expr.callsAll es).map r := by
  match es with
  | [] => rfl
  | e :: es =>
    rw [Expr.renameAll, Expr.callsAll, Expr.callsAll, e.calls_rename, Expr.callsAll_renameAll es,
      List.map_append]

end

mutual

theorem Stmt.calls_rename (s : Stmt) : (s.rename r).calls = s.calls.map r := by
  match s with
  | .assign token target value => exact value.calls_rename
  | .block token body => exact Stmt.callsAll_renameAll body
  | .ifThen token cond body => simp [Stmt.rename, Stmt.calls, cond.calls_rename, body.calls_rename]
  | .ifElse token cond body alternative =>
    simp [Stmt.rename, Stmt.calls, cond.calls_rename, body.calls_rename, alternative.calls_rename]
  | .loop token cond body => simp [Stmt.rename, Stmt.calls, cond.calls_rename, body.calls_rename]
  | .writeLn token value => exact value.calls_rename
  | .readLn token target => rfl
  | .call token name args => simp [Stmt.rename, Stmt.calls, Expr.callsAll_renameAll]
  | .declare token name params body => rfl
  | .missing => rfl

theorem Stmt.callsAll_renameAll (ss : List Stmt) :
    Stmt.callsAll (Stmt.renameAll r ss) = (Stmt.callsAll ss).map r := by
  match ss with
  | [] => rfl
  | s :: ss =>
    rw [Stmt.renameAll, Stmt.callsAll, Stmt.callsAll, s.calls_rename, Stmt.callsAll_renameAll ss,
      List.map_append]

end

mutual

theorem Stmt.declarations_rename (s : Stmt) :
    (s.rename r).declarations = s.declarations.map (Declaration.rename r) := by
  match s with
  | .declare token name params body =>
    rw [Stmt.rename, Stmt.declarations, Stmt.declarations, body.declarations_rename, List.map_cons]
    rfl
  | .block token body => exact Stmt.declarationsAll_renameAll body
  | .ifThen token cond body => exact body.declarations_rename
  | .ifElse token cond body alternative =>
    rw [Stmt.rename, Stmt.declarations, Stmt.declarations, body.declarations_rename,
      alternative.declarations_rename, List.map_append]
  | .loop token cond body => exact body.declarations_rename
  | .assign token target value => rfl
  | .writeLn token value => rfl
  | .readLn token target => rfl
  | .call token name args => rfl
  | .missing => rfl

theorem Stmt.declarationsAll_renameAll (ss : List Stmt) :
    Stmt.declarationsAll (Stmt.renameAll r ss) =
      (Stmt.declarationsAll ss).map (Declaration.rename r) := by
  match ss with
  | [] => rfl
  | s :: ss =>
    rw [Stmt.renameAll, Stmt.declarationsAll, Stmt.declarationsAll, s.declarations_rename,
      Stmt.declarationsAll_renameAll ss, List.map_append]

end

theorem Declaration.toStmt_injective : Function.Injective Declaration.toStmt := by
  rintro ⟨token, name, params, body⟩ ⟨token', name', params', body'⟩ h
  cases h
  rfl

/-- A function that keeps some names apart agrees on them with one that keeps all names apart. -/
theorem Text.exists_injective (xs : List Text) (h : ∀ x ∈ xs, ∀ y ∈ xs, r x = r y → x = y) :
    ∃ σ : Text → Text, Function.Injective σ ∧ ∀ x ∈ xs, σ x = r x := by
  obtain ⟨n, hn⟩ : ∃ n, ∀ x ∈ xs, (r x).length ≤ n := by
    refine ⟨(xs.map fun x => (r x).length).sum, fun x hx => ?_⟩
    exact List.single_le_sum (by simp) _ (List.mem_map_of_mem hx)
  -- All other names become longer than any of these.
  let pad : Text := List.replicate (n + 1) (.char 'x')
  have hlong : ∀ x ∈ xs, ∀ y, r x ≠ pad ++ y := by
    intro x hx y hxy
    have hlength := congrArg List.length hxy
    have hle := hn x hx
    rw [List.length_append, List.length_replicate] at hlength
    omega
  refine ⟨fun x => if x ∈ xs then r x else pad ++ x, fun x y hxy => ?_, fun x hx => if_pos hx⟩
  dsimp only at hxy
  by_cases hx : x ∈ xs
  · by_cases hy : y ∈ xs
    · rw [if_pos hx, if_pos hy] at hxy
      exact h x hx y hy hxy
    · rw [if_pos hx, if_neg hy] at hxy
      exact absurd hxy (hlong x hx y)
  · by_cases hy : y ∈ xs
    · rw [if_neg hx, if_pos hy] at hxy
      exact absurd hxy.symm (hlong y hy x)
    · rw [if_neg hx, if_neg hy] at hxy
      exact List.append_cancel_left hxy

namespace Program

variable {p : Program}

theorem rename_congr (h : ∀ x ∈ p.names, σ x = r x) : p.rename σ = p.rename r := by
  obtain ⟨hprocedures, hmain⟩ := List.forall_mem_append.mp h
  have hall := Stmt.renameAll_congr _ hprocedures
  rw [Stmt.renameAll_toStmt, Stmt.renameAll_toStmt] at hall
  have hdeclarations := List.map_injective_iff.mpr Declaration.toStmt_injective hall
  rw [rename, rename, hdeclarations]
  congr 1
  cases hbody : p.main with
  | none => rfl
  | some s =>
    rw [hbody] at hmain
    exact congrArg some (s.rename_congr hmain)

theorem names_rename : (p.rename r).names = p.names.map r := by
  rw [names, names, List.map_append, ← Stmt.namesAll_renameAll, Stmt.renameAll_toStmt]
  congr 1
  change (p.main.map (Stmt.rename r)).elim [] Stmt.names = _
  cases p.main with
  | none => rfl
  | some s => exact s.names_rename

theorem named_iff : p.Named ↔ ∀ x ∈ p.names, x.isIdentifier = true := by
  have hprocedure : ∀ d : Declaration, d.procedure.Named ↔ d.toStmt.Named := by
    intro d
    exact ⟨fun h => ⟨h.name, h.params, h.body⟩, fun h => ⟨h.1, h.2.1, h.2.2⟩⟩
  have hmain : (∀ s, p.main = some s → s.Named) ↔
      ∀ x ∈ p.main.elim [] Stmt.names, x.isIdentifier = true := by
    cases p.main with
    | none => simp
    | some s => simp [s.named_iff]
  rw [names, List.forall_mem_append, ← Stmt.namedAll_iff_names, Stmt.namedAll_iff,
    List.forall_mem_map, ← hmain]
  constructor
  · exact fun h => ⟨fun d hd => (hprocedure d).mp (h.procedures d hd), h.main⟩
  · exact fun h => ⟨fun d hd => (hprocedure d).mpr (h.1 d hd), h.2⟩

theorem Renaming.named (h : p.Renaming r) : (p.rename r).Named := by
  rw [named_iff, names_rename, List.forall_mem_map]
  exact h.identifier

theorem declarations_rename :
    (p.rename r).declarations = p.declarations.map (Declaration.rename r) := by
  rw [declarations, declarations, List.map_append, ← Stmt.declarationsAll_renameAll,
    Stmt.renameAll_toStmt]
  congr 1
  rw [rename]
  cases p.main with
  | none => rfl
  | some s => exact s.declarations_rename

theorem calls_rename : (p.rename r).calls = p.calls.map r := by
  rw [calls, calls, List.map_append, declarations_rename, List.flatMap_map, List.map_flatMap]
  congr 1
  · rw [rename]
    cases p.main with
    | none => rfl
    | some s => exact s.calls_rename
  · congr 1
    funext d
    exact d.procedure.body.calls_rename

/-- A renaming of a program can be had from one of all names, which leaves that of the return address
alone. -/
theorem Renaming.exists_injective (h : p.Renaming r) (hn : p.Named) :
    ∃ σ : Text → Text, Function.Injective σ ∧ σ "$ra" = "$ra" ∧ p.rename σ = p.rename r := by
  have hra : ∀ x ∈ p.names, x ≠ Text.ofString "$ra" :=
    fun x hx => ne_ra_of_isIdentifier (named_iff.mp hn x hx)
  have hra' : ∀ x ∈ p.names, r x ≠ Text.ofString "$ra" :=
    fun x hx => ne_ra_of_isIdentifier (h.identifier x hx)
  let s : Text → Text := fun x => if x = Text.ofString "$ra" then x else r x
  have hs : ∀ x ∈ p.names, s x = r x := fun x hx => if_neg (hra x hx)
  have hfixed : s "$ra" = "$ra" := if_pos rfl
  have hinjective : ∀ x ∈ Text.ofString "$ra" :: p.names, ∀ y ∈ Text.ofString "$ra" :: p.names,
      s x = s y → x = y := by
    intro x hx y hy hxy
    rcases List.mem_cons.mp hx with rfl | hx
    · rcases List.mem_cons.mp hy with rfl | hy
      · rfl
      · rw [hfixed, hs y hy] at hxy
        exact absurd hxy.symm (hra' y hy)
    · rcases List.mem_cons.mp hy with rfl | hy
      · rw [hfixed, hs x hx] at hxy
        exact absurd hxy (hra' x hx)
      · rw [hs x hx, hs y hy] at hxy
        exact h.injective x hx y hy hxy
  obtain ⟨σ, hσ, hagree⟩ := Text.exists_injective _ hinjective
  obtain ⟨hσra, hσnames⟩ := List.forall_mem_cons.mp hagree
  refine ⟨σ, hσ, hσra.trans hfixed, rename_congr fun x hx => ?_⟩
  rw [hσnames x hx, hs x hx]

end Program

end Trees

/-- A table under other names, with its values changed along. -/
def Table.rename {α β : Type} (σ : Text → Text) (f : α → β) (t : Table α) : Table β :=
  t.map fun entry => (σ entry.1, f entry.2)

namespace Table

variable {α β : Type} {σ : Text → Text} (hσ : Function.Injective σ) (f : α → β) (t : Table α)
  (name : Text)

include hσ

theorem get?_rename : (t.rename σ f).get? (σ name) = (t.get? name).map f := by
  induction t with
  | nil => rfl
  | cons entry t ih =>
    change get? ((σ entry.1, f entry.2) :: rename σ f t) (σ name) = _
    rw [get?_cons, get?_cons, ih]
    by_cases h : name = entry.1
    · rw [if_pos h, if_pos (congrArg σ h), Option.map_some]
    · rw [if_neg h, if_neg (hσ.ne h)]

theorem contains_rename : (t.rename σ f).contains (σ name) = t.contains name := by
  rw [contains, contains, get?_rename hσ, Option.isSome_map]

theorem set_rename (v : α) : (t.set name v).rename σ f = (t.rename σ f).set (σ name) (f v) := by
  induction t with
  | nil => rfl
  | cons entry t ih =>
    change _ = set ((σ entry.1, f entry.2) :: rename σ f t) (σ name) (f v)
    rw [set, set]
    by_cases h : entry.1 = name
    · rw [if_pos h, if_pos (congrArg σ h)]
      rfl
    · rw [if_neg h, if_neg (hσ.ne h), ← ih]
      rfl

theorem setAll_rename (entries : List (Text × α)) :
    (t.setAll entries).rename σ f = (t.rename σ f).setAll (Table.rename σ f entries) := by
  induction entries generalizing t with
  | nil => rfl
  | cons entry entries ih =>
    rw [setAll, ih, set_rename hσ]
    rfl

theorem erase_rename : (t.erase name).rename σ f = (t.rename σ f).erase (σ name) := by
  rw [erase, erase, rename, rename, List.filter_map]
  congr 1
  refine List.filter_congr fun entry _ => ?_
  simp [hσ.eq_iff]

end Table

section Tokens

variable {r : Text → Text}

/-- A token that spells a name, under the other name. -/
def Token.rename (r : Text → Text) (t : Token) : Token :=
  if t.kind = .identifier ∧ Token.isKeyword t.literal = false then { t with literal := r t.literal }
  else t

namespace Token

variable {t : Token}

theorem IsName.rename_eq (h : t.IsName) : t.rename r = { t with literal := r t.literal } := if_pos h

theorem IsName.rename (h : t.IsName) (hr : isKeyword (r t.literal) = false) : (t.rename r).IsName := by
  rw [h.rename_eq]
  exact ⟨h.1, hr⟩

theorem rename_of_kind (h : t.kind ≠ .identifier) : t.rename r = t := if_neg fun hname => h hname.1

theorem rename_of_isSymbol {w : Text} (h : t.isSymbol w) : t.rename r = t :=
  rename_of_kind (by rw [(isSymbol_iff.mp h).1]; decide)

theorem rename_of_isKeyword (h : isKeyword t.literal = true) : t.rename r = t := by
  refine if_neg fun hname => ?_
  rw [h] at hname
  cases hname.2

theorem rename_of_isWord {w : Text} (h : t.isWord w) (hw : isKeyword w = true) : t.rename r = t := by
  apply rename_of_isKeyword
  rw [(isWord_iff.mp h).2]
  exact hw

theorem isSymbol_rename {w : Text} (h : t.isSymbol w) : (t.rename r).isSymbol w := by
  rw [rename_of_isSymbol h]
  exact h

theorem isWord_rename {w : Text} (h : t.isWord w) (hw : isKeyword w = true) :
    (t.rename r).isWord w := by
  rw [rename_of_isWord h hw]
  exact h

theorem IsNumeral.rename_eq {value : Int32} (h : t.IsNumeral value) : t.rename r = t :=
  rename_of_kind (by rw [h.1]; decide)

theorem Spells.rename_eq {op : Operator} (h : t.Spells op) : t.rename r = t := by
  obtain ⟨hliteral, hkind⟩ := h
  by_cases hop : op = .mod
  · subst hop
    exact rename_of_isKeyword (by rw [hliteral]; decide)
  · rw [if_neg hop] at hkind
    exact rename_of_kind (by rw [hkind]; decide)

end Token

theorem Parser.variableOf_rename {t : Token} (h : t.IsName) :
    variableOf (t.rename r) = (variableOf t).rename r := by
  rw [h.rename_eq]
  rfl

theorem Listed.rename {params : List Variable} {us : List Token} (h : Listed IsParameter params us)
    (hr : ∀ v ∈ params, Token.isKeyword (r v.name) = false) :
    Listed IsParameter (params.map (Variable.rename r)) (us.map (Token.rename r)) := by
  have hparameter : ∀ v us, IsParameter v us → Token.isKeyword (r v.name) = false →
      IsParameter (v.rename r) (us.map (Token.rename r)) := by
    rintro v us ⟨t, ht, rfl, rfl⟩ hv
    exact ⟨t.rename r, ht.rename hv, (Parser.variableOf_rename ht).symm, rfl⟩
  induction h with
  | one ha => exact .one (hparameter _ _ ha (hr _ List.mem_cons_self))
  | more ha hcomma _ ih =>
    obtain ⟨hv, hrest⟩ := List.forall_mem_cons.mp hr
    rw [List.map_append, List.map_cons, List.map_cons]
    exact .more (hparameter _ _ ha hv) (Token.isSymbol_rename hcomma) (ih hrest)

theorem Parenthesized.rename {params : List Variable} {us : List Token}
    (h : Parenthesized IsParameter params us) (hr : ∀ v ∈ params, Token.isKeyword (r v.name) = false) :
    Parenthesized IsParameter (params.map (Variable.rename r)) (us.map (Token.rename r)) := by
  cases h with
  | none hl hrp => exact .none (Token.isSymbol_rename hl) (Token.isSymbol_rename hrp)
  | some hl has hrp =>
    rw [List.map_cons, List.map_append]
    exact .some (Token.isSymbol_rename hl) (has.rename hr) (Token.isSymbol_rename hrp)

theorem Stmt.rename_forLoop (token : Token) (v : Variable) (first last : Expr) (body : Stmt) :
    (Stmt.forLoop token v first last body).rename r =
      Stmt.forLoop token (v.rename r) (first.rename r) (last.rename r) (body.rename r) := rfl

theorem Stmt.mem_names_forLoop {token : Token} {v : Variable} {first last : Expr} {body : Stmt}
    {x : Text} : x ∈ (Stmt.forLoop token v first last body).names ↔
      x = v.name ∨ x ∈ first.names ∨ x ∈ last.names ∨ x ∈ body.names := by
  simp only [Stmt.forLoop, Stmt.names, Stmt.namesAll, Expr.names, List.mem_cons, List.mem_append,
    List.not_mem_nil]
  tauto

def Phrase.rename (r : Text → Text) : Phrase → Phrase
  | .term rank e => .term rank (e.rename r)
  | .items es => .items (Expr.renameAll r es)
  | .arguments es => .arguments (Expr.renameAll r es)
  | .statement ending s => .statement ending (s.rename r)
  | .statements ss => .statements (Stmt.renameAll r ss)

def Phrase.names : Phrase → List Text
  | .term _ e => e.names
  | .items es => Expr.namesAll es
  | .arguments es => Expr.namesAll es
  | .statement _ s => s.names
  | .statements ss => Stmt.namesAll ss

/-- A phrase under other names is derived from the tokens that spell them. -/
theorem Derives.rename {phrase : Phrase} {ts : List Token} (h : Derives phrase ts)
    (hr : ∀ x ∈ phrase.names, Token.isKeyword (r x) = false) :
    Derives (phrase.rename r) (ts.map (Token.rename r)) := by
  induction h with
  | number ht =>
    rw [List.map_singleton, ht.rename_eq]
    exact .number ht
  | trueWord ht =>
    rw [List.map_singleton, Token.rename_of_isWord ht (by decide)]
    exact .trueWord ht
  | falseWord ht =>
    rw [List.map_singleton, Token.rename_of_isWord ht (by decide)]
    exact .falseWord ht
  | var ht =>
    have hname := hr _ List.mem_cons_self
    rw [List.map_singleton, Phrase.rename, Expr.rename, ← Parser.variableOf_rename ht]
    exact .var (ht.rename hname)
  | call ht _ ih =>
    obtain ⟨hname, hargs⟩ := List.forall_mem_cons.mp hr
    have hcall := Derives.call (ht.rename hname) (ih hargs)
    rw [ht.rename_eq] at hcall
    rw [List.map_cons, ht.rename_eq]
    exact hcall
  | parens hl _ hclose ih =>
    rw [List.map_cons, List.map_append]
    exact .parens (Token.isSymbol_rename hl) (ih hr) (Token.isSymbol_rename hclose)
  | minus ht _ ih =>
    rw [List.map_cons, Token.rename_of_isSymbol ht]
    exact .minus ht (ih hr)
  | climb hk _ ih => exact .climb hk (ih hr)
  | binary hop _ ht _ ihleft ihright =>
    obtain ⟨hleft, hright⟩ := List.forall_mem_append.mp hr
    rw [List.map_append, List.map_cons, ht.rename_eq]
    exact .binary hop (ihleft hleft) ht (ihright hright)
  | item _ ih => exact .item (ih fun x hx => hr x (List.mem_append_left _ hx))
  | items _ hcomma _ ihfirst ihrest =>
    obtain ⟨hfirst, hrest⟩ := List.forall_mem_append.mp hr
    rw [List.map_append, List.map_cons]
    exact .items (ihfirst hfirst) (Token.isSymbol_rename hcomma) (ihrest hrest)
  | noArguments hl hclose =>
    exact .noArguments (Token.isSymbol_rename hl) (Token.isSymbol_rename hclose)
  | arguments hl _ hclose ih =>
    rw [List.map_cons, List.map_append]
    exact .arguments (Token.isSymbol_rename hl) (ih hr) (Token.isSymbol_rename hclose)
  | assign ht hsign _ hsemi ih =>
    obtain ⟨hname, hvalue⟩ := List.forall_mem_cons.mp hr
    rw [List.map_cons, List.map_cons, List.map_append, Token.rename_of_isSymbol hsign, Phrase.rename,
      Stmt.rename, ← Parser.variableOf_rename ht]
    exact .assign (ht.rename hname) hsign (ih hvalue) (Token.isSymbol_rename hsemi)
  | callStatement ht _ hsemi ih =>
    obtain ⟨hname, hargs⟩ := List.forall_mem_cons.mp hr
    have hend : (Token.rename r _).isSymbol ";" := Token.isSymbol_rename hsemi
    have hcall := Derives.callStatement (ht.rename hname) (ih hargs) hend
    rw [ht.rename_eq] at hcall
    rw [List.map_cons, List.map_append, ht.rename_eq]
    exact hcall
  | writeLn ht hl _ hclose hsemi ih =>
    rw [List.map_cons, List.map_cons, List.map_append, Token.rename_of_isWord ht (by decide)]
    exact .writeLn ht (Token.isSymbol_rename hl) (ih hr) (Token.isSymbol_rename hclose)
      (Token.isSymbol_rename hsemi)
  | readLn ht hl hv hclose hsemi =>
    have hname := hr _ List.mem_cons_self
    rw [List.map_cons, Token.rename_of_isWord ht (by decide), Phrase.rename, Stmt.rename,
      ← Parser.variableOf_rename hv]
    exact .readLn ht (Token.isSymbol_rename hl) (hv.rename hname) (Token.isSymbol_rename hclose)
      (Token.isSymbol_rename hsemi)
  | block ht _ hfinal hsemi ih =>
    rw [List.map_cons, List.map_append, Token.rename_of_isWord ht (by decide)]
    exact .block ht (ih hr) (Token.isWord_rename hfinal (by decide)) (Token.isSymbol_rename hsemi)
  | bareBlock ht _ hfinal ih =>
    rw [List.map_cons, List.map_append, Token.rename_of_isWord ht (by decide)]
    exact .bareBlock ht (ih hr) (Token.isWord_rename hfinal (by decide))
  | ifThen ht _ hthen _ ihcond ihbody =>
    obtain ⟨hcond, hbody⟩ := List.forall_mem_append.mp hr
    rw [List.map_cons, List.map_append, List.map_cons, Token.rename_of_isWord ht (by decide)]
    exact .ifThen ht (ihcond hcond) (Token.isWord_rename hthen (by decide)) (ihbody hbody)
  | ifElse ht _ hthen _ helse _ ihcond ihbody ihalternative =>
    obtain ⟨hfront, halternative⟩ := List.forall_mem_append.mp hr
    obtain ⟨hcond, hbody⟩ := List.forall_mem_append.mp hfront
    rw [List.map_cons, List.map_append, List.map_cons, List.map_append, List.map_cons,
      Token.rename_of_isWord ht (by decide)]
    exact .ifElse ht (ihcond hcond) (Token.isWord_rename hthen (by decide)) (ihbody hbody)
      (Token.isWord_rename helse (by decide)) (ihalternative halternative)
  | loop ht _ hdo _ ihcond ihbody =>
    obtain ⟨hcond, hbody⟩ := List.forall_mem_append.mp hr
    rw [List.map_cons, List.map_append, List.map_cons, Token.rename_of_isWord ht (by decide)]
    exact .loop ht (ihcond hcond) (Token.isWord_rename hdo (by decide)) (ihbody hbody)
  | forLoop ht hv hsign _ hto _ hdo _ ihfirst ihlast ihbody =>
    have hname := hr _ (Stmt.mem_names_forLoop.mpr (.inl rfl))
    rw [List.map_cons, List.map_cons, List.map_cons, List.map_append, List.map_cons, List.map_append,
      List.map_cons, Token.rename_of_isWord ht (by decide), Phrase.rename, Stmt.rename_forLoop,
      ← Parser.variableOf_rename hv]
    refine .forLoop ht (hv.rename hname) (Token.isSymbol_rename hsign) (ihfirst fun x hx => ?_)
      (Token.isWord_rename hto (by decide)) (ihlast fun x hx => ?_)
      (Token.isWord_rename hdo (by decide)) (ihbody fun x hx => ?_)
    · exact hr x (Stmt.mem_names_forLoop.mpr (.inr (.inl hx)))
    · exact hr x (Stmt.mem_names_forLoop.mpr (.inr (.inr (.inl hx))))
    · exact hr x (Stmt.mem_names_forLoop.mpr (.inr (.inr (.inr hx))))
  | declare ht hcalled hparams hsemi _ ih =>
    obtain ⟨hname, hrest⟩ := List.forall_mem_cons.mp hr
    obtain ⟨hnames, hbody⟩ := List.forall_mem_append.mp hrest
    have hend : (Token.rename r _).isSymbol ";" := Token.isSymbol_rename hsemi
    have hdeclare := Derives.declare ht (hcalled.rename hname)
      (hparams.rename (List.forall_mem_map.mp hnames)) hend (ih hbody)
    rw [hcalled.rename_eq] at hdeclare
    rw [List.map_cons, List.map_cons, List.map_append, List.map_cons,
      Token.rename_of_isWord ht (by decide), hcalled.rename_eq]
    exact hdeclare
  | noStatements => exact .noStatements
  | statements _ he _ ihfirst ihrest =>
    obtain ⟨hfirst, hrest⟩ := List.forall_mem_append.mp hr
    rw [List.map_append]
    exact .statements (ihfirst hfirst) he (ihrest hrest)

theorem Declares.rename {ds : List Declaration} {ts : List Token} (h : Declares ds ts)
    (hr : ∀ x ∈ Stmt.namesAll (ds.map Declaration.toStmt), Token.isKeyword (r x) = false) :
    Declares (ds.map (Declaration.rename r)) (ts.map (Token.rename r)) := by
  induction h with
  | nil => exact .nil
  | cons hd he _ ih =>
    obtain ⟨hfirst, hrest⟩ := List.forall_mem_append.mp hr
    rw [List.map_append]
    exact .cons (Derives.rename hd hfirst) he (ih hrest)

/-- A program under other names is read from the tokens that spell them. -/
theorem Program.Renaming.describes {p : Program} {ts : List Token} (h : p.Renaming r)
    (hp : p.Describes ts) : (p.rename r).Describes (ts.map (Token.rename r)) := by
  obtain ⟨hderives, hmain⟩ := hp
  refine ⟨?_, fun d hd => ?_⟩
  · obtain ⟨hprocedures, hbody⟩ := List.forall_mem_append.mp h.unreserved
    cases hderives with
    | plain hds hs he =>
      rw [List.map_append]
      exact .plain (hds.rename hprocedures) (hs.rename hbody) he
    | period hds hs hdot =>
      rw [List.map_append, List.map_append]
      exact .period (hds.rename hprocedures) (hs.rename hbody) (Token.isSymbol_rename hdot)
  · obtain ⟨s, hs, hrename⟩ := Option.map_eq_some_iff.mp hd
    cases s with
    | declare token name params body => exact hmain ⟨token, name, params, body⟩ hs
    | _ => cases hrename

end Tokens

end MiniPascal
