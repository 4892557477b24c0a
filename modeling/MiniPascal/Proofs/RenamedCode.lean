import MiniPascal.Proofs.Linking
import MiniPascal.Proofs.RenamedRuns

/-! Code of a program under other names. Line by line the two texts differ in remarks and in the labels
of procedures, and the assembler makes the same instructions of them. -/

namespace MiniPascal

/-- The cause without the names that its text mentions. -/
def UnsupportedCause.nameless : UnsupportedCause → UnsupportedCause
  | duplicateProcedure _ => duplicateProcedure []
  | assignmentType _ tag => assignmentType [] tag
  | variableType _ tag => variableType [] tag
  | arity _ expected found => arity [] expected found
  | unprintable tag => unprintable tag
  | consoleInput => consoleInput
  | literalType tag => literalType tag
  | operandTypes op left right => operandTypes op left right
  | operandType op tag => operandType op tag
  | missingStatement => missingStatement
  | missingExpression => missingExpression

namespace Assembly

def Slip.nameless : Slip → Slip
  | storeOutsideScope _ => storeOutsideScope []
  | popBelowBase => popBelowBase
  | releasedTooMany => releasedTooMany
  | freeWithoutScope => freeWithoutScope
  | linkedInsideFrame => linkedInsideFrame

def Imbalance.nameless : Imbalance → Imbalance
  | slip s => slip s.nameless
  | unbalanced delta openScopes => unbalanced delta openScopes

end Assembly

def GenerateError.nameless : GenerateError → GenerateError
  | unsupported cause pos => unsupported cause.nameless pos
  | internal _ imbalance => internal [] imbalance.nameless

/-- An instruction and the number of its line, whatever the text of the line is. -/
def Located.bare (l : Located) : Instr Int × Int := (l.instr, l.line)

/-- The instructions of code and where it begins, whatever the labels are. -/
def Code.shape (code : Code) : List (Instr Int × Int) × Int :=
  (code.instrs.toList.map Located.bare, code.entry)

namespace Assembly

variable {σ : Text → Text}

/-- A label, and what it is under other names. -/
inductive LabelTwin (σ : Text → Text) : Text → Text → Prop where
  | main : LabelTwin σ "main" "main"
  | branch (k : Nat) : LabelTwin σ (labelName k) (labelName k)
  | procedure (f : Text) : LabelTwin σ (procedureLabel f) (procedureLabel (σ f))

/-- Whether a line is a label or leads to one. -/
def Line.leads : Line → Bool
  | .instr mnemonic _ =>
    mnemonic = "beqz" || mnemonic = "bnez" || mnemonic = "j" || mnemonic = "jal"
  | .label _ => true
  | .marked .. => true
  | .comment _ => false
  | .plain _ => false

/-- A line, and what it is under other names. -/
inductive Line.Twin (σ : Text → Text) : Line → Line → Prop where
  | same {l : Line} (h : l.leads = false) : Twin σ l l
  | beqz {a a' : Text} (h : LabelTwin σ a a') :
    Twin σ (.instr "beqz" ["$v0", a]) (.instr "beqz" ["$v0", a'])
  | jump {a a' : Text} (h : LabelTwin σ a a') : Twin σ (.instr "j" [a]) (.instr "j" [a'])
  | jal {a a' : Text} (h : LabelTwin σ a a') : Twin σ (.instr "jal" [a]) (.instr "jal" [a'])
  | label {a a' : Text} (h : LabelTwin σ a a') : Twin σ (.label a) (.label a')
  | marked {a a' : Text} (h : LabelTwin σ a a') (remark : Text) :
    Twin σ (.marked a remark) (.marked a' remark)
  | comment (remark remark' : Text) : Twin σ (.comment remark) (.comment remark')

/-- A builder, and what it is under other names. -/
structure Builder.Twin (σ : Text → Text) (b b' : Builder) : Prop where
  lines : List.Forall₂ (Line.Twin σ) b.lines b'.lines
  delta : b'.delta = b.delta
  offsets : b'.offsets = b.offsets.rename σ id
  scopes : b'.scopes = b.scopes.map (List.map σ)
  labels : b'.labels = b.labels
  unresolved : b'.unresolved = b.unresolved.map σ
  slip : b'.slip.map Slip.nameless = b.slip.map Slip.nameless

theorem contains_map (hσ : Function.Injective σ) (xs : List Text) (x : Text) :
    (xs.map σ).contains (σ x) = xs.contains x := by
  rw [Bool.eq_iff_iff, List.contains_iff_mem, List.contains_iff_mem, List.mem_map_of_injective hσ]

namespace Builder

theorem Twin.empty : Twin σ {} {} := ⟨.nil, rfl, rfl, rfl, rfl, rfl, rfl⟩

variable {b b' : Builder}

theorem Twin.emit {l l' : Line} (h : b.Twin σ b') (hl : l.Twin σ l') :
    (b.emit l).Twin σ (b'.emit l') :=
  { h with lines := .cons hl h.lines }

theorem Twin.emitAll {ls : List Line} (h : b.Twin σ b') (hls : ls.all (fun l => !l.leads) = true) :
    (b.emitAll ls).Twin σ (b'.emitAll ls) := by
  induction ls generalizing b b' with
  | nil => exact h
  | cons l ls ih =>
    simp only [List.all_cons, Bool.and_eq_true, Bool.not_eq_true'] at hls
    exact ih (h.emit (.same hls.1)) hls.2

theorem Twin.note {s s' : Slip} (h : b.Twin σ b') (wrong : Bool) (hs : s'.nameless = s.nameless) :
    (b.note wrong s).Twin σ (b'.note wrong s') := by
  unfold Builder.note
  by_cases hwrong : wrong = true
  · rw [if_pos hwrong, if_pos hwrong]
    refine { h with slip := ?_ }
    have hslip := h.slip
    dsimp only
    cases hb : b.slip with
    | none =>
      rw [hb, Option.map_none, Option.map_eq_none_iff] at hslip
      simp [hslip, hs]
    | some t =>
      rw [hb] at hslip
      obtain ⟨t', ht', hname⟩ := Option.map_eq_some_iff.mp hslip
      simp [ht', hname]
  · rw [if_neg hwrong, if_neg hwrong]
    exact h

theorem Twin.push (h : b.Twin σ b') (reg : Text) : (b.push reg).Twin σ (b'.push reg) := by
  have hemit : (b.emitAll (pushLines reg)).Twin σ (b'.emitAll (pushLines reg)) := h.emitAll rfl
  exact { hemit with delta := congrArg (· + wordSize) hemit.delta }

theorem Twin.lower (h : b.Twin σ b') (size : Int) (s : Slip) :
    ({ b with delta := b.delta - size }.note (b.delta - size < 0) s).Twin σ
      ({ b' with delta := b'.delta - size }.note (b'.delta - size < 0) s) := by
  rw [h.delta]
  refine Twin.note ?_ _ rfl
  exact { h with delta := rfl }

theorem Twin.pop (h : b.Twin σ b') (reg : Text) : (b.pop reg).Twin σ (b'.pop reg) := by
  have hemit : (b.emitAll (popLines reg)).Twin σ (b'.emitAll (popLines reg)) := h.emitAll rfl
  exact hemit.lower wordSize .popBelowBase

theorem Twin.release (h : b.Twin σ b') (n : Int) : (b.release n).Twin σ (b'.release n) :=
  h.lower (n * wordSize) .releasedTooMany

theorem Twin.beginScope (h : b.Twin σ b') : b.beginScope.Twin σ b'.beginScope :=
  { h with scopes := congrArg ([] :: ·) h.scopes }

theorem Twin.noteUnresolved (h : b.Twin σ b') (hσ : Function.Injective σ) (name : Text) :
    (b.noteUnresolved name).Twin σ (b'.noteUnresolved (σ name)) := by
  unfold Builder.noteUnresolved
  rw [h.unresolved, contains_map hσ]
  by_cases hname : b.unresolved.contains name = true
  · rw [if_pos hname, if_pos hname]
    exact h
  · rw [if_neg hname, if_neg hname]
    refine { h with unresolved := ?_ }
    rw [List.map_append, List.map_singleton]

theorem Twin.get?_offsets (h : b.Twin σ b') (hσ : Function.Injective σ) (name : Text) :
    b'.offsets.get? (σ name) = b.offsets.get? name := by
  rw [h.offsets, Table.get?_rename hσ, Option.map_id_fun, id]

theorem Twin.retrieve (h : b.Twin σ b') (hσ : Function.Injective σ) (reg name : Text) :
    (b.retrieve reg name).Twin σ (b'.retrieve reg (σ name)) := by
  unfold Builder.retrieve
  rw [h.get?_offsets hσ, h.delta]
  cases b.offsets.get? name with
  | none => exact h.emit (.same rfl)
  | some offset => exact h.emit (.same rfl)

theorem Twin.store (h : b.Twin σ b') (hσ : Function.Injective σ) (reg name : Text) :
    (b.store reg name).Twin σ (b'.store reg (σ name)) := by
  unfold Builder.store
  rw [h.get?_offsets hσ, h.delta, h.scopes]
  cases b.offsets.get? name with
  | some offset => exact h.emit (.same rfl)
  | none =>
    cases b.scopes with
    | nil => exact h.note true rfl
    | cons owned outer =>
      have hpush := (h.emit (.comment ("new variable " ++ name) ("new variable " ++ σ name))).push reg
      refine { hpush with offsets := ?_, scopes := rfl }
      dsimp only
      rw [hpush.offsets, hpush.delta, Table.set_rename hσ]
      rfl

theorem foldl_erase_rename (hσ : Function.Injective σ) (xs : List Text) (t : Table Int) :
    (xs.map σ).foldl Table.erase (t.rename σ id) = (xs.foldl Table.erase t).rename σ id := by
  induction xs generalizing t with
  | nil => rfl
  | cons x xs ih => rw [List.map_cons, List.foldl_cons, List.foldl_cons, ← Table.erase_rename hσ, ih]

theorem Twin.freeScope (h : b.Twin σ b') (hσ : Function.Injective σ) :
    b.freeScope.Twin σ b'.freeScope := by
  unfold Builder.freeScope
  rw [h.scopes]
  cases b.scopes with
  | nil => exact h.note true rfl
  | cons owned outer =>
    cases owned with
    | nil => exact { h with scopes := rfl }
    | cons name owned =>
      have hfree : Line.Twin σ (.instr "addu" ["$sp", "$sp",
        Numeral.ofInt (wordSize * ((name :: owned).length : Nat))]) _ := .same rfl
      have hemit := h.emit hfree
      have herase := foldl_erase_rename hσ (name :: owned) b.offsets
      have hlength : (σ name :: owned.map σ).length = (name :: owned).length := by simp
      rw [← h.offsets] at herase
      rw [List.map_cons, List.map_cons]
      dsimp only
      rw [hlength]
      exact { hemit with
        delta := congrArg (· - _) hemit.delta
        offsets := herase
        scopes := rfl }

theorem Twin.busy_eq (h : b.Twin σ b') :
    (b'.scopes ≠ [] || b'.delta ≠ 0) = (b.scopes ≠ [] || b.delta ≠ 0) := by
  rw [h.scopes, h.delta]
  simp

theorem paramOffsets_map (offset : Int) (names : List Text) :
    paramOffsets offset (names.map σ) = Table.rename σ id (paramOffsets offset names) := by
  induction names generalizing offset with
  | nil => rfl
  | cons name names ih =>
    rw [List.map_cons, paramOffsets, paramOffsets, ih]
    rfl

theorem Twin.linkProcedure (h : b.Twin σ b') (hσ : Function.Injective σ) (params : List Text) :
    (b.linkProcedure params).Twin σ (b'.linkProcedure (params.map σ)) := by
  have hnote := h.note (s := .linkedInsideFrame) (b.scopes ≠ [] || b.delta ≠ 0) rfl
  unfold Builder.linkProcedure
  rw [h.busy_eq]
  refine { hnote with delta := ?_, offsets := ?_, scopes := ?_ }
  · dsimp only
    rw [List.length_map]
  · dsimp only
    rw [hnote.offsets, Table.setAll_rename hσ, paramOffsets_map]
  · dsimp only
    rw [hnote.scopes, List.map_cons, List.map_reverse]

theorem Twin.checkBalanced (h : b.Twin σ b') :
    b'.checkBalanced.mapError Imbalance.nameless = b.checkBalanced.mapError Imbalance.nameless := by
  have hslip := h.slip
  have hlength : b'.scopes.length = b.scopes.length := by rw [h.scopes, List.length_map]
  unfold Builder.checkBalanced
  cases hb : b.slip with
  | none =>
    rw [hb, Option.map_none, Option.map_eq_none_iff] at hslip
    rw [hslip]
    dsimp only
    rw [h.busy_eq, h.delta, hlength]
  | some s =>
    rw [hb] at hslip
    obtain ⟨s', hs', hname⟩ := Option.map_eq_some_iff.mp hslip
    rw [hs']
    dsimp only [Except.mapError, Imbalance.nameless]
    rw [hname]

end Builder

theorem leads_operatorLines {op : Operator} {ls : List Line} (h : operatorLines? op = some ls) :
    ls.all (fun l => !l.leads) = true := by
  cases op <;> cases h <;> rfl

theorem firstRepeated_rename (hσ : Function.Injective σ) (seen : List Text) (ds : List Declaration) :
    firstRepeated (seen.map σ) (ds.map (Declaration.rename σ)) =
      (firstRepeated seen ds).map (Declaration.rename σ) := by
  induction ds generalizing seen with
  | nil => rfl
  | cons d ds ih =>
    have hname : (d.rename σ).procedure.name = σ d.procedure.name := rfl
    rw [List.map_cons, firstRepeated, firstRepeated, hname, contains_map hσ]
    by_cases h : seen.contains d.procedure.name = true
    · rw [if_pos h, if_pos h, Option.map_some]
    · rw [if_neg h, if_neg h]
      exact ih (d.procedure.name :: seen)

namespace Gen

/-- Two results that differ in names only. -/
inductive Same (σ : Text → Text) {α : Type} :
    EStateM.Result GenerateError Builder α → EStateM.Result GenerateError Builder α → Prop where
  | ok (a : α) {b b' : Builder} (h : b.Twin σ b') : Same σ (.ok a b) (.ok a b')
  | error {e e' : GenerateError} {b b' : Builder} (he : e'.nameless = e.nameless)
    (h : b.Twin σ b') : Same σ (.error e b) (.error e' b')

/-- Two computations whose results differ in names only where their builders do. -/
def Alike (σ : Text → Text) {α : Type} (x y : Gen α) : Prop :=
  ∀ b b', b.Twin σ b' → Same σ (x b) (y b')

variable {α β : Type}

theorem Alike.bind {x y : Gen α} {f g : α → Gen β} (h : Alike σ x y)
    (hrest : ∀ a, Alike σ (f a) (g a)) : Alike σ (x >>= f) (y >>= g) := by
  intro b b' hb
  have hfirst := h b b' hb
  change Same σ (EStateM.bind x f b) (EStateM.bind y g b')
  unfold EStateM.bind
  generalize x b = first, y b' = second at hfirst
  cases hfirst with
  | ok a hc => exact hrest a _ _ hc
  | error he hc => exact .error he hc

theorem alike_pure (a : α) : Alike σ (pure a : Gen α) (pure a) := fun _ _ hb => .ok a hb

theorem alike_modify {f g : Builder → Builder} (h : ∀ b b', b.Twin σ b' → (f b).Twin σ (g b')) :
    Alike σ (modify f : Gen Unit) (modify g) :=
  fun b b' hb => .ok () (h b b' hb)

theorem alike_reject {cause cause' : UnsupportedCause} (h : cause'.nameless = cause.nameless)
    (pos : Position) : Alike σ (reject cause pos : Gen α) (reject cause' pos) := by
  intro b b' hb
  have he : (GenerateError.unsupported cause' pos).nameless =
      (GenerateError.unsupported cause pos).nameless := by
    rw [GenerateError.nameless, GenerateError.nameless, h]
  exact .error he hb

theorem alike_emit {l l' : Line} (h : l.Twin σ l') : Alike σ (emit l) (emit l') :=
  alike_modify fun _ _ hb => hb.emit h

/-- The two computations get the same labels. -/
theorem Alike.newLabel_bind {f g : Text → Gen β}
    (h : ∀ k, Alike σ (f (labelName k)) (g (labelName k))) :
    Alike σ (newLabel >>= f) (newLabel >>= g) := by
  intro b b' hb
  have hrest := h b.labels { b with labels := b.labels + 1 } { b' with labels := b.labels + 1 }
    { hb with labels := rfl }
  change Same σ _ (g (labelName b'.labels) { b' with labels := b'.labels + 1 })
  rw [hb.labels]
  exact hrest

theorem Alike.inScope (hσ : Function.Injective σ) {x y : Gen Unit} (h : Alike σ x y) :
    Alike σ (inScope x) (inScope y) :=
  (alike_modify fun _ _ hb => hb.beginScope).bind fun _ => h.bind fun _ =>
    alike_modify fun _ _ hb => hb.freeScope hσ

theorem get_bind (f : Builder → Gen α) (b : Builder) : (get >>= f) b = f b b := rfl

theorem alike_balanced (part part' : Text) : Alike σ (balanced part) (balanced part') := by
  intro b b' hb
  have hcheck := hb.checkBalanced
  unfold balanced
  rw [get_bind, get_bind]
  generalize b.checkBalanced = result, b'.checkBalanced = result' at hcheck
  cases result with
  | ok _ =>
    cases result' with
    | ok _ => exact .ok () hb
    | error _ => cases hcheck
  | error imbalance =>
    cases result' with
    | ok _ => cases hcheck
    | error imbalance' =>
      refine .error ?_ hb
      rw [GenerateError.nameless, GenerateError.nameless, Except.error.inj hcheck]

variable {procs : Table Procedure}

theorem alike_checkCall (hσ : Function.Injective σ) {token token' : Token}
    (hpos : token'.pos = token.pos) (name : Text) (count : Nat) :
    Alike σ (checkCall procs token name count)
      (checkCall (procs.rename σ (Procedure.rename σ)) token' (σ name) count) := by
  unfold checkCall
  rw [Table.get?_rename hσ, hpos]
  cases procs.get? name with
  | none => exact alike_modify fun _ _ hb => hb.noteUnresolved hσ name
  | some q =>
    have hparams : (q.rename σ).params.length = q.params.length := List.length_map _
    dsimp only [Option.map_some]
    rw [hparams]
    by_cases hcount : q.params.length ≠ count
    · rw [if_pos hcount, if_pos hcount]
      apply alike_reject
      rfl
    · rw [if_neg hcount, if_neg hcount]
      exact alike_pure ()

mutual

theorem alike_expr (hσ : Function.Injective σ) (e : Expr) :
    Alike σ (expr procs e) (expr (procs.rename σ (Procedure.rename σ)) (e.rename σ)) := by
  match e with
  | .literal token value tag isBool =>
    rw [Expr.rename]
    unfold expr
    by_cases htag : tag ≠ .int
    · rw [if_pos htag]
      exact alike_reject rfl _
    · rw [if_neg htag]
      exact alike_emit (.same rfl)
  | .var v =>
    have htag' : (v.rename σ).tag = v.tag := rfl
    rw [Expr.rename]
    unfold expr
    rw [htag']
    by_cases htag : v.tag ≠ .int
    · rw [if_pos htag, if_pos htag]
      apply alike_reject
      rfl
    · rw [if_neg htag, if_neg htag]
      exact alike_modify fun _ _ hb => hb.retrieve hσ "$v0" v.name
  | .binary token op left right =>
    rw [Expr.rename]
    unfold expr
    rw [Expr.tag_rename, Expr.tag_rename]
    by_cases htags : left.tag ≠ right.tag
    · rw [if_pos htags, if_pos htags]
      exact alike_reject rfl _
    · rw [if_neg htags, if_neg htags]
      cases hlines : (if left.tag = .int then operatorLines? op else none) with
      | none => exact alike_reject rfl _
      | some ls =>
        have hleads : ls.all (fun l => !l.leads) = true := by
          by_cases htag : left.tag = .int
          · rw [if_pos htag] at hlines
            exact leads_operatorLines hlines
          · rw [if_neg htag] at hlines
            cases hlines
        exact (alike_expr hσ left).bind fun _ =>
          (alike_modify fun _ _ hb => hb.push "$v0").bind fun _ => (alike_expr hσ right).bind fun _ =>
          (alike_modify fun _ _ hb => hb.pop "$t0").bind fun _ =>
          alike_modify fun _ _ hb => hb.emitAll hleads
  | .call token name args =>
    rw [Expr.rename]
    unfold expr
    rw [Expr.length_renameAll]
    exact (alike_checkCall hσ rfl name args.length).bind fun _ =>
      (alike_emit (.comment _ _)).bind fun _ => (alike_arguments hσ args).bind fun _ =>
      (alike_emit (.jal (.procedure name))).bind fun _ =>
      alike_modify fun _ _ hb => hb.release args.length
  | .missing => exact alike_reject rfl _

theorem alike_arguments (hσ : Function.Injective σ) (es : List Expr) :
    Alike σ (arguments procs es)
      (arguments (procs.rename σ (Procedure.rename σ)) (Expr.renameAll σ es)) := by
  match es with
  | [] => exact alike_pure ()
  | e :: es =>
    rw [Expr.renameAll]
    unfold arguments
    exact (alike_expr hσ e).bind fun _ => (alike_modify fun _ _ hb => hb.push "$v0").bind fun _ =>
      alike_arguments hσ es

end

theorem alike_printValue : Alike σ printValue printValue :=
  (alike_emit (.same rfl)).bind fun _ => (alike_emit (.same rfl)).bind fun _ =>
    (alike_emit (.same rfl)).bind fun _ => (alike_emit (.same rfl)).bind fun _ =>
    (alike_emit (.same rfl)).bind fun _ => alike_emit (.same rfl)

mutual

theorem alike_stmt (hσ : Function.Injective σ) (st : Stmt) :
    Alike σ (stmt procs st) (stmt (procs.rename σ (Procedure.rename σ)) (st.rename σ)) := by
  match st with
  | .assign token target value =>
    have htag' : (target.rename σ).tag = target.tag := rfl
    rw [Stmt.rename]
    unfold stmt
    refine (alike_expr hσ value).bind fun _ => ?_
    rw [htag']
    by_cases htag : target.tag ≠ .int
    · rw [if_pos htag, if_pos htag]
      apply alike_reject
      rfl
    · rw [if_neg htag, if_neg htag]
      exact alike_modify fun _ _ hb => hb.store hσ "$v0" target.name
  | .block token body => exact alike_stmts hσ body
  | .ifThen token cond body =>
    rw [Stmt.rename]
    unfold stmt
    refine Alike.newLabel_bind fun j => Alike.newLabel_bind fun k => ?_
    exact (alike_expr hσ cond).bind fun _ => (alike_emit (.beqz (.branch j))).bind fun _ =>
      ((alike_stmt hσ body).inScope hσ).bind fun _ => (alike_emit (.jump (.branch k))).bind fun _ =>
      (alike_emit (.label (.branch j))).bind fun _ => alike_emit (.marked (.branch k) "ENDIF")
  | .ifElse token cond body alternative =>
    rw [Stmt.rename]
    unfold stmt
    refine Alike.newLabel_bind fun j => Alike.newLabel_bind fun k => ?_
    exact (alike_expr hσ cond).bind fun _ => (alike_emit (.beqz (.branch j))).bind fun _ =>
      ((alike_stmt hσ body).inScope hσ).bind fun _ => (alike_emit (.jump (.branch k))).bind fun _ =>
      (alike_emit (.label (.branch j))).bind fun _ =>
      ((alike_stmt hσ alternative).inScope hσ).bind fun _ =>
      alike_emit (.marked (.branch k) "ENDIF")
  | .loop token cond body =>
    rw [Stmt.rename]
    unfold stmt
    refine Alike.newLabel_bind fun j => Alike.newLabel_bind fun k => ?_
    exact (alike_emit (.marked (.branch j) "WHILE")).bind fun _ => (alike_expr hσ cond).bind fun _ =>
      (alike_emit (.beqz (.branch k))).bind fun _ => ((alike_stmt hσ body).inScope hσ).bind fun _ =>
      (alike_emit (.jump (.branch j))).bind fun _ => alike_emit (.marked (.branch k) "ENDWHILE")
  | .writeLn token value =>
    rw [Stmt.rename]
    unfold stmt
    refine (alike_expr hσ value).bind fun _ => ?_
    rw [Expr.tag_rename]
    by_cases htag : value.tag ≠ .int
    · rw [if_pos htag]
      exact alike_reject rfl _
    · rw [if_neg htag]
      exact alike_printValue
  | .readLn token target => exact alike_reject rfl _
  | .call token name args => exact alike_expr hσ (.call token name args)
  | .declare token name params body => exact alike_pure ()
  | .missing => exact alike_reject rfl _

theorem alike_stmts (hσ : Function.Injective σ) (sts : List Stmt) :
    Alike σ (stmts procs sts)
      (stmts (procs.rename σ (Procedure.rename σ)) (Stmt.renameAll σ sts)) := by
  match sts with
  | [] => exact alike_pure ()
  | st :: sts =>
    rw [Stmt.renameAll]
    unfold stmts
    exact (alike_stmt hσ st).bind fun _ => alike_stmts hσ sts

end

theorem alike_procedure (hσ : Function.Injective σ) (hra : σ "$ra" = "$ra") (q : Procedure) :
    Alike σ (procedure procs q) (procedure (procs.rename σ (Procedure.rename σ)) (q.rename σ)) := by
  have hname : (q.rename σ).name = σ q.name := rfl
  have hparams : (q.rename σ).params.map Variable.name = (q.params.map Variable.name).map σ :=
    Variable.names_rename q.params
  have hstore : ∀ b b' : Builder, b.Twin σ b' → (b.store "$ra" "$ra").Twin σ (b'.store "$ra" "$ra") := by
    intro b b' hb
    have h := hb.store hσ "$ra" "$ra"
    rwa [hra] at h
  have hretrieve : ∀ b b' : Builder, b.Twin σ b' →
      (b.retrieve "$ra" "$ra").Twin σ (b'.retrieve "$ra" "$ra") := by
    intro b b' hb
    have h := hb.retrieve hσ "$ra" "$ra"
    rwa [hra] at h
  unfold procedure
  rw [hname, hparams]
  exact (alike_modify fun _ _ hb => hb.linkProcedure hσ _).bind fun _ =>
    (alike_emit (.label (.procedure q.name))).bind fun _ => (alike_emit (.same rfl)).bind fun _ =>
    (alike_modify fun _ _ hb => hb.store hσ "$v0" q.name).bind fun _ =>
    (alike_modify hstore).bind fun _ => (alike_stmt hσ q.body).bind fun _ =>
    (alike_modify fun _ _ hb => hb.retrieve hσ "$v0" q.name).bind fun _ =>
    (alike_modify hretrieve).bind fun _ => (alike_modify fun _ _ hb => hb.freeScope hσ).bind fun _ =>
    (alike_emit (.same rfl)).bind fun _ => alike_balanced _ _

theorem alike_procedures (hσ : Function.Injective σ) (hra : σ "$ra" = "$ra") (ds : List Declaration) :
    Alike σ (procedures procs ds)
      (procedures (procs.rename σ (Procedure.rename σ)) (ds.map (Declaration.rename σ))) := by
  induction ds with
  | nil => exact alike_pure ()
  | cons d ds ih => exact (alike_procedure hσ hra d.procedure).bind fun _ => ih

theorem alike_mainPart (hσ : Function.Injective σ) (body : Option Stmt) :
    Alike σ (mainPart procs body)
      (mainPart (procs.rename σ (Procedure.rename σ)) (body.map (Stmt.rename σ))) := by
  unfold mainPart
  refine (alike_emit (.same rfl)).bind fun _ => (alike_emit (.same rfl)).bind fun _ =>
    (alike_emit (.label .main)).bind fun _ => (Alike.inScope hσ ?_).bind fun _ =>
    (alike_balanced _ _).bind fun _ => (alike_emit (.same rfl)).bind fun _ => alike_emit (.same rfl)
  cases body with
  | none => exact alike_pure ()
  | some st => exact alike_stmt hσ st

theorem alike_program (hσ : Function.Injective σ) (hra : σ "$ra" = "$ra") (p : Program) :
    Alike σ (program p) (program (p.rename σ)) := by
  have hrepeated := firstRepeated_rename hσ [] p.declarations
  have htable : ((p.declarations.map (Declaration.rename σ)).map
      fun d => (d.procedure.name, d.procedure)) =
        Table.rename σ (Procedure.rename σ)
          (p.declarations.map fun d => (d.procedure.name, d.procedure)) := by
    rw [Table.rename, List.map_map, List.map_map]
    rfl
  unfold program
  rw [Program.declarations_rename]
  rw [List.map_nil] at hrepeated
  rw [hrepeated, htable]
  cases firstRepeated [] p.declarations with
  | some d =>
    apply alike_reject
    rfl
  | none =>
    exact (alike_mainPart hσ p.main).bind fun _ => alike_procedures hσ hra p.declarations

end Gen

/-- The generator on a program and on the program under other names. -/
theorem generate_rename (hσ : Function.Injective σ) (hra : σ "$ra" = "$ra") (p : Program) :
    (generate p).builder.Twin σ (generate (p.rename σ)).builder ∧
      (generate (p.rename σ)).error.map GenerateError.nameless =
        (generate p).error.map GenerateError.nameless := by
  have hsame := Gen.alike_program hσ hra p {} {} .empty
  unfold generate
  generalize Gen.program p {} = result, Gen.program (p.rename σ) {} = result' at hsame
  cases hsame with
  | ok _ hb => exact ⟨hb, rfl⟩
  | error he hb => exact ⟨hb, congrArg some he⟩

section Assembled

variable {a a' c c' : Text}

theorem LabelTwin.eq_iff (hσ : Function.Injective σ) (ha : LabelTwin σ a a') (hc : LabelTwin σ c c') :
    a' = c' ↔ a = c := by
  cases ha with
  | main =>
    cases hc with
    | main => exact Iff.rfl
    | branch k => exact Iff.rfl
    | procedure f => exact iff_of_false (procedureLabel_ne_main _).symm (procedureLabel_ne_main _).symm
  | branch j =>
    cases hc with
    | main => exact Iff.rfl
    | branch k => exact Iff.rfl
    | procedure f =>
      exact iff_of_false (labelName_ne_procedureLabel _ _) (labelName_ne_procedureLabel _ _)
  | procedure f =>
    cases hc with
    | main => exact iff_of_false (procedureLabel_ne_main _) (procedureLabel_ne_main _)
    | branch k =>
      exact iff_of_false (labelName_ne_procedureLabel _ _).symm (labelName_ne_procedureLabel _ _).symm
    | procedure g =>
      constructor
      · exact fun h => congrArg procedureLabel (hσ (procedureLabel_injective h))
      · exact fun h => congrArg (procedureLabel ∘ σ) (procedureLabel_injective h)

theorem Line.Twin.isInstr_eq {l l' : Line} (h : l.Twin σ l') : l'.isInstr = l.isInstr := by
  cases h <;> rfl

/-- A label has its place where its twin has it. -/
theorem get?_labelPlaces_twin (hσ : Function.Injective σ) {ls ls' : List Line}
    (h : List.Forall₂ (Line.Twin σ) ls ls') (ha : LabelTwin σ a a') (index : Nat) :
    (labelPlaces index ls').get? a' = (labelPlaces index ls).get? a := by
  induction h generalizing index with
  | nil => rfl
  | @cons l l' ls ls' hl _ ih =>
    have hdefines : Table.get? (l'.defines.map (·, index)) a' =
        Table.get? (l.defines.map (·, index)) a := by
      have hplace : ∀ c c', LabelTwin σ c c' →
          Table.get? [(c', index)] a' = Table.get? [(c, index)] a := by
        intro c c' hc
        rw [Table.get?_cons, Table.get?_cons]
        by_cases hac : a = c
        · rw [if_pos hac, if_pos ((ha.eq_iff hσ hc).mpr hac)]
        · rw [if_neg hac, if_neg (mt (ha.eq_iff hσ hc).mp hac)]
          rfl
      cases hl with
      | label hc => exact hplace _ _ hc
      | marked hc remark => exact hplace _ _ hc
      | same hleads =>
        cases l with
        | label name => cases hleads
        | marked name remark => cases hleads
        | _ => rfl
      | _ => rfl
    rw [labelPlaces, labelPlaces, Table.get?_append, Table.get?_append, hdefines, hl.isInstr_eq, ih]

/-- The instructions of a result lead nowhere. -/
def Straight (x : Except AssemblyError (Instr Text)) : Prop := ∀ i, x = .ok i → i.target? = none

theorem straight_bind {α : Type} {x : Except AssemblyError α} {f : α → Except AssemblyError (Instr Text)}
    (h : ∀ a, Straight (f a)) : Straight (x >>= f) := by
  cases x with
  | error e =>
    intro i hi
    cases hi
  | ok v => exact h v

theorem straight_ok {i : Instr Text} (h : i.target? = none) : Straight (.ok i) := by
  intro j hj
  cases hj
  exact h

theorem straight_map {α : Type} {x : Except AssemblyError α} {f : α → Instr Text}
    (h : ∀ a, (f a).target? = none) : Straight (x.map f) := by
  cases x with
  | error e =>
    intro i hi
    cases hi
  | ok v => exact straight_ok (h v)

theorem straight_fail (l : AsmLine) (cause : LineCause) : Straight (l.fail cause) := by
  intro i hi
  cases hi

theorem straight_ite {P : Prop} [Decidable P] {x y : Except AssemblyError (Instr Text)}
    (hx : P → Straight x) (hy : ¬ P → Straight y) : Straight (if P then x else y) := by
  by_cases h : P
  · rw [if_pos h]
    exact hx h
  · rw [if_neg h]
    exact hy h

theorem straight_one {l : AsmLine} {f : Text → Except AssemblyError (Instr Text)}
    (h : ∀ u, Straight (f u)) : Straight (l.one f) := by
  unfold AsmLine.one
  split
  · exact h _
  · exact straight_fail l _

theorem straight_two {l : AsmLine} {f : Text → Text → Except AssemblyError (Instr Text)}
    (h : ∀ u v, Straight (f u v)) : Straight (l.two f) := by
  unfold AsmLine.two
  split
  · exact h _ _
  · exact straight_fail l _

theorem straight_three {l : AsmLine} {f : Text → Text → Text → Except AssemblyError (Instr Text)}
    (h : ∀ u v w, Straight (f u v w)) : Straight (l.three f) := by
  unfold AsmLine.three
  split
  · exact h _ _ _
  · exact straight_fail l _

theorem straight_decodeDiv (l : AsmLine) : Straight l.decodeDiv := by
  unfold AsmLine.decodeDiv
  split
  · exact straight_bind fun _ => straight_bind fun _ => straight_ok rfl
  · exact straight_bind fun _ => straight_bind fun _ => straight_bind fun _ => straight_ok rfl
  · exact straight_fail l _

theorem straight_decodeAlu (l : AsmLine) : Straight l.decodeAlu := by
  unfold AsmLine.decodeAlu
  split
  · exact straight_three fun _ _ _ => straight_bind fun _ => straight_bind fun _ =>
      straight_bind fun _ => straight_ok rfl
  · exact straight_three fun _ _ _ => straight_bind fun _ => straight_bind fun _ =>
      straight_bind fun _ => straight_ok rfl
  · exact straight_fail l _

/-- Only the mnemonics of branches and jumps make an instruction that leads somewhere. -/
theorem straight_decode {l : AsmLine} (hbeqz : l.mnemonic ≠ "beqz") (hbnez : l.mnemonic ≠ "bnez")
    (hj : l.mnemonic ≠ "j") (hjal : l.mnemonic ≠ "jal") : Straight l.decode := by
  refine straight_ite (fun _ => ?_) fun _ => straight_ite (fun _ => ?_) fun _ =>
    straight_ite (fun _ => ?_) fun _ => straight_ite (fun _ => ?_) fun _ =>
    straight_ite (fun _ => straight_decodeDiv l) fun _ =>
    straight_ite (fun _ => straight_one fun _ => straight_map fun _ => rfl) fun _ =>
    straight_ite (fun _ => straight_one fun _ => straight_map fun _ => rfl) fun _ =>
    straight_ite (fun h => absurd h hbeqz) fun _ => straight_ite (fun h => absurd h hbnez) fun _ =>
    straight_ite (fun h => absurd h hj) fun _ => straight_ite (fun h => absurd h hjal) fun _ =>
    straight_ite (fun _ => straight_one fun _ => straight_map fun _ => rfl) fun _ =>
    straight_ite (fun _ => ?_) fun _ => straight_decodeAlu l
  · exact straight_two fun _ _ => straight_bind fun _ => straight_bind fun _ => straight_ok rfl
  · exact straight_two fun _ _ => straight_bind fun _ => straight_bind fun _ => straight_ok rfl
  · exact straight_two fun _ _ => straight_bind fun _ => straight_bind fun _ => straight_ok rfl
  · exact straight_two fun _ _ => straight_bind fun _ => straight_bind fun _ => straight_ok rfl
  · exact straight_ite (fun _ => straight_ok rfl) fun _ => straight_fail l _

theorem resolve_congr {α β ε : Type} {i : Instr α} (h : i.target? = none) (f g : α → Except ε β) :
    i.resolve f = i.resolve g := by
  cases i with
  | beqz r t => cases h
  | bnez r t => cases h
  | jump t => cases h
  | jal t => cases h
  | _ => rfl

variable {labels labels' : Table Nat}

theorem bare_assemble {l : AsmLine} {i : Instr Text} (h : l.decode = .ok i) :
    (l.assemble labels).toOption.map Located.bare =
      (i.resolve (l.target labels)).toOption.map (·, (l.number : Int)) := by
  have hassemble : l.assemble labels = (do
      let instr ← i.resolve (l.target labels)
      return { instr, line := l.number, text := l.text }) := by
    rw [AsmLine.assemble, h]
    rfl
  rw [hassemble]
  cases i.resolve (l.target labels) with
  | error e => rfl
  | ok j => rfl

theorem bare_assemble_target {l : AsmLine} {i : Instr Text} {t : Text} {f : Int → Instr Int}
    (h : l.decode = .ok i) (hi : i.resolve (l.target labels) = (l.target labels t).map f) :
    (l.assemble labels).toOption.map Located.bare =
      (labels.get? t).map fun n => (f n, (l.number : Int)) := by
  rw [bare_assemble h, hi, AsmLine.target]
  cases labels.get? t with
  | none => rfl
  | some n => rfl

/-- Twin lines make the same instruction if twin labels have the same places. -/
theorem Line.Twin.bare_assemble_eq {l l' : Line} (h : l.Twin σ l') (hl : l.isInstr = true)
    (hlabels : ∀ a a', LabelTwin σ a a' → labels'.get? a' = labels.get? a) (number : Nat) :
    ((l'.toAsm number).assemble labels').toOption.map Located.bare =
      ((l.toAsm number).assemble labels).toOption.map Located.bare := by
  cases h with
  | same hleads =>
    cases l with
    | instr mnemonic operands =>
      simp only [Line.leads, Bool.or_eq_false_iff, decide_eq_false_iff_not] at hleads
      obtain ⟨⟨⟨hbeqz, hbnez⟩, hj⟩, hjal⟩ := hleads
      have hstraight : Straight ((Line.instr mnemonic operands).toAsm number).decode :=
        straight_decode hbeqz hbnez hj hjal
      cases hdecode : ((Line.instr mnemonic operands).toAsm number).decode with
      | error e => rw [AsmLine.assemble, AsmLine.assemble, hdecode]; rfl
      | ok i =>
        rw [bare_assemble hdecode, bare_assemble hdecode,
          resolve_congr (hstraight i hdecode) _ (AsmLine.target _ labels)]
    | _ => cases hl
  | @beqz a a' ha =>
    have hdecode : ∀ t, ((Line.instr "beqz" ["$v0", t]).toAsm number).decode = .ok (.beqz Reg.v0 t) :=
      fun _ => rfl
    rw [bare_assemble_target (hdecode a) rfl, bare_assemble_target (hdecode a') rfl, hlabels a a' ha]
    rfl
  | @jump a a' ha =>
    have hdecode : ∀ t, ((Line.instr "j" [t]).toAsm number).decode = .ok (.jump t) := fun _ => rfl
    rw [bare_assemble_target (hdecode a) rfl, bare_assemble_target (hdecode a') rfl, hlabels a a' ha]
    rfl
  | @jal a a' ha =>
    have hdecode : ∀ t, ((Line.instr "jal" [t]).toAsm number).decode = .ok (.jal t) := fun _ => rfl
    rw [bare_assemble_target (hdecode a) rfl, bare_assemble_target (hdecode a') rfl, hlabels a a' ha]
    rfl
  | _ => cases hl

theorem bare_mapM_cons (f : AsmLine → Except AssemblyError Located) (l : AsmLine) (ls : List AsmLine) :
    ((l :: ls).mapM f).toOption.map (List.map Located.bare) =
      ((f l).toOption.map Located.bare).bind fun i =>
        ((ls.mapM f).toOption.map (List.map Located.bare)).map (i :: ·) := by
  rw [List.mapM_cons]
  cases f l with
  | error e => rfl
  | ok located =>
    cases ls.mapM f with
    | error e => rfl
    | ok made => rfl

theorem bare_instrLines {ls ls' : List Line} (h : List.Forall₂ (Line.Twin σ) ls ls')
    (hlabels : ∀ a a', LabelTwin σ a a' → labels'.get? a' = labels.get? a) (number : Nat) :
    ((instrLines number ls').mapM (AsmLine.assemble labels')).toOption.map (List.map Located.bare) =
      ((instrLines number ls).mapM (AsmLine.assemble labels)).toOption.map (List.map Located.bare) := by
  induction h generalizing number with
  | nil => rfl
  | @cons l l' ls ls' hl _ ih =>
    rw [instrLines, instrLines, hl.isInstr_eq]
    by_cases hinstr : l.isInstr = true
    · rw [if_pos hinstr, if_pos hinstr, bare_mapM_cons, bare_mapM_cons,
        hl.bare_assemble_eq hinstr hlabels, ih]
    · rw [if_neg hinstr, if_neg hinstr, ih]

/-- The assembler makes the same of twin lines. -/
theorem shape_twin (hσ : Function.Injective σ) {ls ls' : List Line}
    (h : List.Forall₂ (Line.Twin σ) ls ls') (hclean : ∀ l ∈ ls, l.Clean)
    (hclean' : ∀ l ∈ ls', l.Clean) (hnodup : (ls.flatMap Line.defines).Nodup)
    (hnodup' : (ls'.flatMap Line.defines).Nodup) :
    (Code.ofText (ls'.flatMap Line.render)).toOption.map Code.shape =
      (Code.ofText (ls.flatMap Line.render)).toOption.map Code.shape := by
  have hlabels : ∀ a a', LabelTwin σ a a' →
      (labelPlaces 0 ls').get? a' = (labelPlaces 0 ls).get? a :=
    fun a a' ha => get?_labelPlaces_twin hσ h ha 0
  have hmade := bare_instrLines h hlabels 1
  rw [Code.ofText_render hclean hnodup, Code.ofText_render hclean' hnodup', hlabels _ _ .main]
  generalize (instrLines 1 ls).mapM (AsmLine.assemble (labelPlaces 0 ls)) = result,
    (instrLines 1 ls').mapM (AsmLine.assemble (labelPlaces 0 ls')) = result' at hmade
  cases result with
  | error e =>
    cases result' with
    | error e' => rfl
    | ok made' => cases hmade
  | ok made =>
    cases result' with
    | error e' => cases hmade
    | ok made' =>
      have hbare : made'.map Located.bare = made.map Located.bare := Option.some.inj hmade
      cases (labelPlaces 0 ls).get? "main" with
      | none => rfl
      | some entry =>
        have hshape : ∀ table, Code.shape ⟨made'.toArray, table, entry⟩ =
            Code.shape ⟨made.toArray, labelPlaces 0 ls, entry⟩ := by
          intro table
          rw [Code.shape, Code.shape, hbare]
        exact congrArg some (hshape _)

end Assembled

theorem Compiles.rename {p : Program} (h : Compiles p) (hσ : Function.Injective σ)
    (hra : σ "$ra" = "$ra") : Compiles (p.rename σ) := by
  have herror := (generate_rename hσ hra p).2
  unfold Compiles at h ⊢
  rw [h, Option.map_none, Option.map_eq_none_iff] at herror
  exact herror

theorem Compiles.mem_calls {p : Program} (h : Compiles p) {f : Text}
    (hf : f ∈ (generate p).builder.unresolved) : f ∈ p.calls := by
  rw [h.unresolved_eq, unresolvedAfter_eq, List.nil_append, List.mem_eraseDups] at hf
  exact (List.mem_filter.mp hf).1

theorem Compiles.shape_rename {p : Program} (h : Compiles p) (hn : p.Named)
    (hσ : Function.Injective σ) (hra : σ "$ra" = "$ra") (hn' : (p.rename σ).Named) :
    (Code.ofText (generate (p.rename σ)).builder.render).toOption.map Code.shape =
      (Code.ofText (generate p).builder.render).toOption.map Code.shape := by
  have h' := h.rename hσ hra
  have htwin := List.forall₂_reverse_iff.mpr (generate_rename hσ hra p).1.lines
  have hlines : (generate p).builder.lines.reverse = programLines p := by
    simpa using congrArg List.reverse h.extends.2.lines
  have hlines' : (generate (p.rename σ)).builder.lines.reverse = programLines (p.rename σ) := by
    simpa using congrArg List.reverse h'.extends.2.lines
  rw [hlines, hlines'] at htwin
  rw [h.render_eq, h'.render_eq]
  exact shape_twin hσ htwin (clean_program hn) (clean_program hn') (nodup_defines h.supported)
    (nodup_defines h'.supported)

/-- Names do not matter. A program under other names is read from the tokens that spell them. Its runs
show the same, its code fails to be made for the same cause at the same place, and if there is code,
it leads to the same instructions, with the unresolved calls under their other names. -/
theorem names_do_not_matter {source : Text} {p : Program} {r : Text → Text}
    (hparse : Program.ofText source = .ok p) (hr : p.Renaming r) :
    (∀ ts, p.Describes ts → (p.rename r).Describes (ts.map (Token.rename r))) ∧
    (∀ limits fuel s,
      Run.shown (Run.program limits fuel (p.rename r) s) = Run.shown (Run.program limits fuel p s)) ∧
    (generate (p.rename r)).error.map GenerateError.nameless =
      (generate p).error.map GenerateError.nameless ∧
    (Compiles p →
      (generate (p.rename r)).builder.unresolved = (generate p).builder.unresolved.map r ∧
      (Code.ofText (generate (p.rename r)).builder.render).toOption.map Code.shape =
        (Code.ofText (generate p).builder.render).toOption.map Code.shape) := by
  have hn := Program.named_of_ofText hparse
  have hn' := hr.named
  obtain ⟨σ, hσ, hra, hrename⟩ := hr.exists_injective hn
  have hcalls : p.calls.map σ = p.calls.map r := by
    rw [← Program.calls_rename, ← Program.calls_rename, hrename]
  obtain ⟨htwin, herror⟩ := generate_rename hσ hra p
  refine ⟨fun ts hts => hr.describes hts, ?_, ?_, fun hcompiles => ⟨?_, ?_⟩⟩
  · intro limits fuel s
    rw [← hrename]
    exact Run.shown_rename hσ limits fuel p s
  · rw [← hrename]
    exact herror
  · rw [← hrename, htwin.unresolved]
    exact List.map_congr_left fun f hf => List.map_inj_left.mp hcalls f (hcompiles.mem_calls hf)
  · rw [← hrename] at hn' ⊢
    exact hcompiles.shape_rename hn hσ hra hn'

/-- A procedure with a parameter that shadows a variable. -/
def doublingSource : Text := "PROCEDURE twice(x); twice := x + x; BEGIN x := 3; WRITELN(twice(x + 1)); END."

/-- The variable and the procedure change their names. -/
def exchange (name : Text) : Text :=
  if name = "x" then "twice" else if name = "twice" then "x" else name

theorem doubling_exchanged :
    ∃ p, Program.ofText doublingSource = .ok p ∧ p.Renaming exchange ∧ Compiles p ∧
      (generate (p.rename exchange)).builder.unresolved = [] ∧
      Run.shown (Run.program {} 100 (p.rename exchange) {}) = Run.shown (Run.program {} 100 p {}) := by
  obtain ⟨p, hparse, hcheck⟩ : ∃ p, Program.ofText doublingSource = .ok p ∧
      ((generate p).error = none && (generate p).builder.unresolved = [] &&
        p.names.all fun x => x = "x" || x = "twice") = true :=
    Program.exists_of_passes (by decide +kernel)
  simp only [Bool.and_eq_true, decide_eq_true_eq, List.all_eq_true, Bool.or_eq_true] at hcheck
  obtain ⟨⟨hcompiles, hunresolved⟩, hnames⟩ := hcheck
  have hrenaming : p.Renaming exchange := by
    refine ⟨fun x hx y hy hxy => ?_, fun x hx => ?_, fun x hx => ?_⟩
    · rcases hnames x hx with rfl | rfl
      · rcases hnames y hy with rfl | rfl
        · rfl
        · exact absurd hxy (by decide)
      · rcases hnames y hy with rfl | rfl
        · exact absurd hxy (by decide)
        · rfl
    · rcases hnames x hx with rfl | rfl
      · decide
      · decide
    · rcases hnames x hx with rfl | rfl
      · decide
      · decide
  obtain ⟨-, hrun, -, hcode⟩ := names_do_not_matter hparse hrenaming
  refine ⟨p, hparse, hrenaming, hcompiles, ?_, hrun {} 100 {}⟩
  rw [(hcode hcompiles).1, hunresolved]
  rfl

end Assembly

end MiniPascal
