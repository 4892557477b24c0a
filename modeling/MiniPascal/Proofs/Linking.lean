import MiniPascal.Proofs.Decoding
import MiniPascal.Proofs.Generation

/-! The labels of generated code, and the calls that have none. The assembler takes the code of a
program if and only if every procedure that is called is declared. -/

namespace MiniPascal

namespace Assembly

section Defines

variable (names : List Text)

theorem defines_push (reg : Text) : (pushLines reg).flatMap Line.defines = [] := rfl

theorem defines_pop (reg : Text) : (popLines reg).flatMap Line.defines = [] := rfl

theorem defines_retrieve (parked : Nat) (reg name : Text) :
    (retrieveLine names parked reg name).defines = [] := by
  unfold retrieveLine
  split <;> rfl

theorem defines_store (reg name : Text) : (storeLines names reg name).flatMap Line.defines = [] := by
  unfold storeLines
  split <;> rfl

theorem defines_free (count : Nat) : (freeLines count).flatMap Line.defines = [] := by
  unfold freeLines
  split <;> rfl

theorem defines_operator (op : Operator) :
    ((operatorLines? op).getD []).flatMap Line.defines = [] := by
  cases op <;> rfl

mutual

theorem defines_expr (e : Expr) (parked : Nat) :
    (exprLines names parked e).flatMap Line.defines = [] := by
  match e with
  | .literal .. => rfl
  | .var v => simp [exprLines, defines_retrieve]
  | .binary _ op left right =>
    simp only [exprLines, List.flatMap_append, defines_expr left parked, defines_push,
      defines_expr right (parked + 1), defines_pop, defines_operator, List.append_nil]
  | .call _ name args =>
    simp only [exprLines, List.cons_append, List.flatMap_cons, List.flatMap_append,
      defines_arguments args parked]
    rfl
  | .missing => rfl

theorem defines_arguments (es : List Expr) (parked : Nat) :
    (argumentLines names parked es).flatMap Line.defines = [] := by
  match es with
  | [] => rfl
  | e :: es =>
    simp only [argumentLines, List.flatMap_append, defines_expr e parked, defines_push,
      defines_arguments es (parked + 1), List.append_nil]

end

end Defines

/-- The labels with the numbers from `k` on, `count` of them. -/
def labelNames (k count : Nat) : List Text := (List.range' k count).map labelName

theorem labelNames_two_add (k count : Nat) :
    labelNames k (2 + count) = labelName k :: labelName (k + 1) :: labelNames (k + 2) count := by
  have hrange : List.range' k (2 + count) = k :: (k + 1) :: List.range' (k + 2) count := by
    rw [Nat.add_comm, List.range'_succ, List.range'_succ]
  rw [labelNames, hrange]
  rfl

theorem labelNames_append (k m n : Nat) :
    labelNames k (m + n) = labelNames k m ++ labelNames (k + m) n := by
  rw [labelNames, labelNames, labelNames, ← List.map_append, List.range'_append_1]

mutual

/-- The labels of a statement are those handed out for it. -/
theorem defines_stmt (s : Stmt) (names : List Text) (k : Nat) :
    ((stmtLines names k s).flatMap Line.defines).Perm (labelNames k s.labelCount) := by
  match s with
  | .assign _ target value =>
    simp [stmtLines, defines_expr, defines_store, Stmt.labelCount, labelNames]
  | .block _ body => exact defines_stmts body names k
  | .ifThen _ cond body =>
    simp only [stmtLines, List.flatMap_append, List.flatMap_cons, List.flatMap_nil, Line.defines,
      defines_expr, defines_free, Stmt.labelCount, labelNames_two_add, List.nil_append,
      List.append_nil, List.singleton_append]
    exact List.perm_append_comm.trans
      ((defines_stmt body names (k + 2)).append_left [labelName k, labelName (k + 1)])
  | .ifElse _ cond body alternative =>
    simp only [stmtLines, List.flatMap_append, List.flatMap_cons, List.flatMap_nil, Line.defines,
      defines_expr, defines_free, Stmt.labelCount, Nat.add_assoc 2,
      labelNames_append, List.nil_append, List.append_nil, List.append_assoc, List.singleton_append]
    refine List.perm_middle.trans (List.Perm.cons _ ?_)
    rw [← List.append_assoc]
    refine (List.perm_append_singleton _ _).trans (List.Perm.cons _ ?_)
    exact (defines_stmt body names (k + 2)).append (defines_stmt alternative names _)
  | .loop _ cond body =>
    simp only [stmtLines, List.flatMap_append, List.flatMap_cons, List.flatMap_nil, Line.defines,
      defines_expr, defines_free, Stmt.labelCount, labelNames_two_add, List.nil_append,
      List.append_nil]
    exact ((List.perm_append_comm.trans (List.Perm.cons _ (defines_stmt body names (k + 2))))).cons _
  | .writeLn _ value =>
    simp [stmtLines, defines_expr, printLines, Line.defines, Stmt.labelCount, labelNames]
  | .readLn .. => exact List.Perm.refl _
  | .call token name args => simp [stmtLines, defines_expr, Stmt.labelCount, labelNames]
  | .declare .. => exact List.Perm.refl _
  | .missing => exact List.Perm.refl _

theorem defines_stmts (ss : List Stmt) (names : List Text) (k : Nat) :
    ((stmtsLines names k ss).flatMap Line.defines).Perm
      (labelNames k (Stmt.labelCountAll ss)) := by
  match ss with
  | [] => exact List.Perm.refl _
  | s :: ss =>
    simp only [stmtsLines, List.flatMap_append, Stmt.labelCountAll, labelNames_append]
    exact (defines_stmt s names k).append (defines_stmts ss _ _)

end

theorem defines_procedure (k : Nat) (p : Procedure) :
    ((procedureLines k p).flatMap Line.defines).Perm
      (procedureLabel p.name :: labelNames k p.body.labelCount) := by
  simp only [procedureLines, List.flatMap_append, List.flatMap_cons, List.flatMap_nil,
    defines_store, defines_retrieve, defines_free, List.append_nil]
  simp only [Line.defines, List.append_nil, List.singleton_append]
  exact (defines_stmt p.body (entryNames p) k).cons _

theorem defines_procedures (k : Nat) (ds : List Declaration) :
    ((proceduresLines k ds).flatMap Line.defines).Perm
      ((ds.map fun d => procedureLabel d.procedure.name) ++
        labelNames k (ds.map fun d => d.procedure.body.labelCount).sum) := by
  induction ds generalizing k with
  | nil => exact List.Perm.refl _
  | cons d ds ih =>
    simp only [proceduresLines, List.flatMap_append, List.map_cons, List.sum_cons,
      labelNames_append, List.cons_append]
    refine ((defines_procedure k d.procedure).append (ih _)).trans ?_
    rw [List.cons_append]
    refine List.Perm.cons _ ?_
    rw [← List.append_assoc, ← List.append_assoc]
    exact List.perm_append_comm.append_right _

theorem defines_main (body : Option Stmt) :
    ((mainLines body).flatMap Line.defines).Perm
      (Text.ofString "main" :: labelNames 0 (body.elim 0 Stmt.labelCount)) := by
  cases body with
  | none => exact List.Perm.refl _
  | some s =>
    simp only [mainLines, scopeLines, Option.elim, List.flatMap_append, List.flatMap_cons,
      List.flatMap_nil, Line.defines, defines_free, List.nil_append, List.append_nil]
    exact (defines_stmt s [] 0).cons _

/-- The labels that the code of a program should have. -/
def linkLabels (p : Program) : List Text :=
  Text.ofString "main" :: (p.table.names.map procedureLabel ++ labelNames 0 p.labelCount)

theorem defines_program (p : Program) :
    ((programLines p).flatMap Line.defines).Perm (linkLabels p) := by
  have htable : p.table.names.map procedureLabel =
      p.declarations.map fun d => procedureLabel d.procedure.name := by
    simp [Program.table, Table.names, Function.comp_def]
  rw [programLines, List.flatMap_append, linkLabels, Program.labelCount, labelNames_append,
    Nat.zero_add, htable]
  refine ((defines_main p.main).append (defines_procedures _ p.declarations)).trans ?_
  rw [List.cons_append]
  refine List.Perm.cons _ ?_
  rw [← List.append_assoc, ← List.append_assoc]
  exact List.perm_append_comm.append_right _

theorem labelName_injective {i j : Nat} (h : labelName i = labelName j) : i = j :=
  Numeral.ofNat_injective (List.append_cancel_left h)

theorem procedureLabel_injective {f g : Text} (h : procedureLabel f = procedureLabel g) : f = g :=
  List.append_cancel_left h

theorem procedureLabel_ne_main (f : Text) : procedureLabel f ≠ Text.ofString "main" := by
  intro h
  have hhead : some (Glyph.char 'p') = some (.char 'm') := congrArg List.head? h
  cases hhead

theorem labelName_ne_main (j : Nat) : labelName j ≠ Text.ofString "main" := by
  intro h
  have hhead : some (Glyph.char 'l') = some (.char 'm') := congrArg List.head? h
  cases hhead

theorem labelName_ne_procedureLabel (j : Nat) (f : Text) : labelName j ≠ procedureLabel f := by
  intro h
  have hhead : some (Glyph.char 'l') = some (.char 'p') := congrArg List.head? h
  cases hhead

theorem nodup_labels {p : Program} (h : p.table.names.Nodup) : (linkLabels p).Nodup := by
  have hprocs : (p.table.names.map procedureLabel).Nodup :=
    h.map fun _ _ => procedureLabel_injective
  have hlabels : (labelNames 0 p.labelCount).Nodup :=
    List.Nodup.map (fun _ _ => labelName_injective) List.nodup_range'
  refine List.nodup_cons.mpr ⟨fun hmem => ?_, List.nodup_append'.mpr ⟨hprocs, hlabels, ?_⟩⟩
  · rcases List.mem_append.mp hmem with hmem | hmem
    · obtain ⟨f, -, hf⟩ := List.mem_map.mp hmem
      exact procedureLabel_ne_main f hf
    · obtain ⟨j, -, hj⟩ := List.mem_map.mp hmem
      exact labelName_ne_main j hj
  · intro t hf hj
    obtain ⟨f, -, rfl⟩ := List.mem_map.mp hf
    obtain ⟨j, -, hj⟩ := List.mem_map.mp hj
    exact labelName_ne_procedureLabel j f hj

/-- The procedure whose call a remark announces. -/
def Line.callee? : Line → Option Text
  | .comment remark => if (Text.ofString "call ").isPrefixOf remark then some (remark.drop 5) else none
  | _ => none

@[simp] theorem callee?_instr (mnemonic : Text) (operands : List Text) :
    (Line.instr mnemonic operands).callee? = none := rfl

@[simp] theorem callee?_label (name : Text) : (Line.label name).callee? = none := rfl

@[simp] theorem callee?_marked (name remark : Text) : (Line.marked name remark).callee? = none := rfl

@[simp] theorem callee?_plain (t : Text) : (Line.plain t).callee? = none := rfl

section Calls

variable (names : List Text)

theorem callees_store (reg name : Text) :
    (storeLines names reg name).filterMap Line.callee? = [] := by
  unfold storeLines
  split <;> rfl

theorem callees_retrieve (parked : Nat) (reg name : Text) :
    (retrieveLine names parked reg name).callee? = none := by
  unfold retrieveLine
  split <;> rfl

theorem callees_free (count : Nat) : (freeLines count).filterMap Line.callee? = [] := by
  unfold freeLines
  split <;> rfl

theorem callees_operator (op : Operator) :
    ((operatorLines? op).getD []).filterMap Line.callee? = [] := by
  cases op <;> rfl

theorem callee?_call (name : Text) :
    (Line.comment (Text.ofString "call " ++ name)).callee? = some name := by
  have hpre : (Text.ofString "call ").isPrefixOf (Text.ofString "call " ++ name) = true :=
    List.isPrefixOf_iff_prefix.mpr (List.prefix_append _ _)
  rw [Line.callee?, if_pos hpre]
  rfl

mutual

theorem callees_expr (e : Expr) (parked : Nat) :
    (exprLines names parked e).filterMap Line.callee? = e.calls := by
  match e with
  | .literal .. => rfl
  | .var v => simp [exprLines, callees_retrieve, Expr.calls]
  | .binary _ op left right =>
    simp only [exprLines, List.filterMap_append, callees_expr left parked,
      callees_expr right (parked + 1), callees_operator, Expr.calls]
    simp [pushLines, popLines, List.filterMap_cons]
  | .call _ name args =>
    rw [exprLines, List.cons_append, List.filterMap_cons_some (callee?_call name),
      List.filterMap_append, callees_arguments args parked]
    simp [List.filterMap_cons, Expr.calls]
  | .missing => rfl

theorem callees_arguments (es : List Expr) (parked : Nat) :
    (argumentLines names parked es).filterMap Line.callee? = Expr.callsAll es := by
  match es with
  | [] => rfl
  | e :: es =>
    simp only [argumentLines, List.filterMap_append, callees_expr e parked,
      callees_arguments es (parked + 1), Expr.callsAll]
    simp [pushLines, List.filterMap_cons]

end

end Calls

mutual

theorem callees_stmt (s : Stmt) (names : List Text) (k : Nat) :
    (stmtLines names k s).filterMap Line.callee? = s.calls := by
  match s with
  | .assign _ target value => simp [stmtLines, callees_expr, callees_store, Stmt.calls]
  | .block _ body => exact callees_stmts body names k
  | .ifThen _ cond body =>
    simp [stmtLines, callees_expr, callees_free, callees_stmt body, List.filterMap_cons,
      Stmt.calls]
  | .ifElse _ cond body alternative =>
    simp [stmtLines, callees_expr, callees_free, callees_stmt body, callees_stmt alternative,
      List.filterMap_cons, Stmt.calls]
  | .loop _ cond body =>
    simp [stmtLines, callees_expr, callees_free, callees_stmt body, List.filterMap_cons,
      Stmt.calls]
  | .writeLn _ value => simp [stmtLines, callees_expr, printLines, List.filterMap_cons, Stmt.calls]
  | .readLn .. => rfl
  | .call token name args => simp [stmtLines, callees_expr, Expr.calls, Stmt.calls]
  | .declare .. => rfl
  | .missing => rfl

theorem callees_stmts (ss : List Stmt) (names : List Text) (k : Nat) :
    (stmtsLines names k ss).filterMap Line.callee? = Stmt.callsAll ss := by
  match ss with
  | [] => rfl
  | s :: ss => simp [stmtsLines, callees_stmt s, callees_stmts ss, Stmt.callsAll]

end

theorem callees_procedures (k : Nat) (ds : List Declaration) :
    (proceduresLines k ds).filterMap Line.callee? =
      ds.flatMap fun d => d.procedure.body.calls := by
  induction ds generalizing k with
  | nil => rfl
  | cons d ds ih =>
    simp [proceduresLines, procedureLines, ih, callees_stmt, callees_store, callees_retrieve,
      callees_free, List.filterMap_cons]

/-- The calls of a program are announced in their order. -/
theorem callees_program (p : Program) :
    (programLines p).filterMap Line.callee? = p.calls := by
  rw [programLines, List.filterMap_append, callees_procedures, Program.calls]
  congr 1
  cases p.main with
  | none => rfl
  | some s =>
    simp [mainLines, scopeLines, callees_stmt, callees_free, List.filterMap_cons]

/-- The instruction that calls a procedure. -/
def jalLine (name : Text) : Line := .instr "jal" [procedureLabel name]

mutual

theorem jal_mem_expr (e : Expr) {f : Text} (hf : f ∈ e.calls) (names : List Text)
    (parked : Nat) : jalLine f ∈ exprLines names parked e := by
  match e with
  | .literal .. => exact absurd hf List.not_mem_nil
  | .var _ => exact absurd hf List.not_mem_nil
  | .binary _ op left right =>
    rcases List.mem_append.mp hf with hf | hf
    · simp [exprLines, jal_mem_expr left hf names parked]
    · simp [exprLines, jal_mem_expr right hf names (parked + 1)]
  | .call _ name args =>
    rcases List.mem_cons.mp hf with rfl | hf
    · simp [exprLines, jalLine]
    · simp [exprLines, jal_mem_arguments args hf names parked]
  | .missing => exact absurd hf List.not_mem_nil

theorem jal_mem_arguments (es : List Expr) {f : Text} (hf : f ∈ Expr.callsAll es)
    (names : List Text) (parked : Nat) : jalLine f ∈ argumentLines names parked es := by
  match es with
  | [] => exact absurd hf List.not_mem_nil
  | e :: es =>
    rcases List.mem_append.mp hf with hf | hf
    · simp [argumentLines, jal_mem_expr e hf names parked]
    · simp [argumentLines, jal_mem_arguments es hf names (parked + 1)]

end

mutual

theorem jal_mem_stmt (s : Stmt) {f : Text} (hf : f ∈ s.calls) (names : List Text) (k : Nat) :
    jalLine f ∈ stmtLines names k s := by
  match s with
  | .assign _ target value => simp [stmtLines, jal_mem_expr value hf names 0]
  | .block _ body => exact jal_mem_stmts body hf names k
  | .ifThen _ cond body =>
    rcases List.mem_append.mp hf with hf | hf
    · simp [stmtLines, jal_mem_expr cond hf names 0]
    · simp [stmtLines, jal_mem_stmt body hf names (k + 2)]
  | .ifElse _ cond body alternative =>
    rcases List.mem_append.mp hf with hf | hf
    · rcases List.mem_append.mp hf with hf | hf
      · simp [stmtLines, jal_mem_expr cond hf names 0]
      · simp [stmtLines, jal_mem_stmt body hf names (k + 2)]
    · simp [stmtLines, jal_mem_stmt alternative hf names (k + 2 + body.labelCount)]
  | .loop _ cond body =>
    rcases List.mem_append.mp hf with hf | hf
    · simp [stmtLines, jal_mem_expr cond hf names 0]
    · simp [stmtLines, jal_mem_stmt body hf names (k + 2)]
  | .writeLn _ value => simp [stmtLines, jal_mem_expr value hf names 0]
  | .readLn .. => exact absurd hf List.not_mem_nil
  | .call token name args => exact jal_mem_expr (.call token name args) hf names 0
  | .declare .. => exact absurd hf List.not_mem_nil
  | .missing => exact absurd hf List.not_mem_nil

theorem jal_mem_stmts (ss : List Stmt) {f : Text} (hf : f ∈ Stmt.callsAll ss) (names : List Text)
    (k : Nat) : jalLine f ∈ stmtsLines names k ss := by
  match ss with
  | [] => exact absurd hf List.not_mem_nil
  | s :: ss =>
    rcases List.mem_append.mp hf with hf | hf
    · exact List.mem_append_left _ (jal_mem_stmt s hf names k)
    · exact List.mem_append_right _ (jal_mem_stmts ss hf _ _)

end

theorem jal_mem_procedures (ds : List Declaration) {d : Declaration} (hd : d ∈ ds) {f : Text}
    (hf : f ∈ d.procedure.body.calls) (k : Nat) : jalLine f ∈ proceduresLines k ds := by
  induction ds generalizing k with
  | nil => exact absurd hd List.not_mem_nil
  | cons c ds ih =>
    rcases List.mem_cons.mp hd with rfl | hd
    · refine List.mem_append_left _ ?_
      simp [procedureLines, jal_mem_stmt d.procedure.body hf (entryNames d.procedure) k]
    · exact List.mem_append_right _ (ih hd _)

theorem jal_mem_program (p : Program) {f : Text} (hf : f ∈ p.calls) :
    jalLine f ∈ programLines p := by
  rcases List.mem_append.mp hf with hf | hf
  · refine List.mem_append_left _ ?_
    cases hmain : p.main with
    | none =>
      rw [hmain] at hf
      exact absurd hf List.not_mem_nil
    | some s =>
      rw [hmain] at hf
      simp [mainLines, scopeLines, jal_mem_stmt s hf [] 0]
  · obtain ⟨d, hd, hf⟩ := List.mem_flatMap.mp hf
    exact List.mem_append_right _ (jal_mem_procedures p.declarations hd hf _)

section Unresolved

variable (procs : Table Procedure)

theorem unresolvedAfter_eq (seen calls : List Text) :
    unresolvedAfter procs seen calls =
      seen ++ (calls.filter fun f => !procs.contains f && !seen.contains f).eraseDups := by
  induction calls generalizing seen with
  | nil => simp [unresolvedAfter]
  | cons f calls ih =>
    rw [unresolvedAfter, List.foldl_cons, ← unresolvedAfter, ih]
    by_cases hf : (procs.contains f || seen.contains f) = true
    · have hskip : (!procs.contains f && !seen.contains f) = false := by
        rw [← Bool.not_or, hf]
        rfl
      rw [if_pos hf, List.filter_cons, hskip, if_neg Bool.false_ne_true]
    · have hkeep : (!procs.contains f && !seen.contains f) = true := by
        rw [← Bool.not_or, eq_false_of_ne_true hf]
        rfl
      rw [if_neg hf, List.filter_cons, hkeep, if_pos rfl, List.eraseDups_cons, List.filter_filter,
        List.append_assoc, List.singleton_append]
      congr 3
      refine List.filter_congr fun g _ => ?_
      by_cases hg : g = f <;> simp [hg, and_comm]

theorem nodup_unresolvedAfter {seen : List Text} (h : seen.Nodup) (calls : List Text) :
    (unresolvedAfter procs seen calls).Nodup := by
  induction calls generalizing seen with
  | nil => exact h
  | cons f calls ih =>
    refine ih ?_
    dsimp only
    split
    · exact h
    · rename_i hf
      have hfresh : f ∉ seen := by
        intro hmem
        exact hf (by simp [hmem])
      exact List.nodup_append'.mpr ⟨h, List.nodup_singleton f, by simpa using hfresh⟩

end Unresolved

section Link

theorem mapM_ok {α β ε : Type} {f : α → Except ε β} {as : List α}
    (h : ∀ a ∈ as, ∃ b, f a = .ok b) : ∃ bs, as.mapM f = .ok bs := by
  induction as with
  | nil => exact ⟨[], rfl⟩
  | cons a as ih =>
    obtain ⟨⟨b, hb⟩, has⟩ := List.forall_mem_cons.mp h
    obtain ⟨bs, hbs⟩ := ih has
    exact ⟨b :: bs, by rw [List.mapM_cons, hb, hbs]; rfl⟩

theorem resolve_ok {α β ε : Type} {f : α → Except ε β} (i : Instr α)
    (h : ∀ t, i.target? = some t → ∃ n, f t = .ok n) : ∃ j, i.resolve f = .ok j := by
  have htarget : ∀ t (g : β → Instr β), i.target? = some t →
      ∃ j, (f t).map g = .ok j := by
    intro t g ht
    obtain ⟨n, hn⟩ := h t ht
    exact ⟨g n, by rw [hn]; rfl⟩
  cases i with
  | beqz r t => exact htarget t _ rfl
  | bnez r t => exact htarget t _ rfl
  | jump t => exact htarget t _ rfl
  | jal t => exact htarget t _ rfl
  | _ => exact ⟨_, rfl⟩

theorem exists_of_mem_instrLines {ls : List Line} {number : Nat} {l : AsmLine}
    (h : l ∈ instrLines number ls) :
    ∃ mnemonic operands n, .instr mnemonic operands ∈ ls ∧
      l = (Line.instr mnemonic operands).toAsm n := by
  induction ls generalizing number with
  | nil => exact absurd h List.not_mem_nil
  | cons k ls ih =>
    have hrest : l ∈ instrLines (number + 1) ls →
        ∃ mnemonic operands n, .instr mnemonic operands ∈ k :: ls ∧
          l = (Line.instr mnemonic operands).toAsm n := by
      intro hl
      obtain ⟨m, ops, n, hmem, hl⟩ := ih hl
      exact ⟨m, ops, n, List.mem_cons_of_mem _ hmem, hl⟩
    cases k with
    | instr m ops =>
      rcases List.mem_cons.mp h with rfl | h
      · exact ⟨m, ops, number, List.mem_cons_self, rfl⟩
      · exact hrest h
    | _ => exact hrest h

variable {ls : List Line} {p : Program}

/-- Clean lines that can be decoded and name only their own labels are assembled. -/
theorem exists_code_of_decodes (hclean : ∀ l ∈ ls, l.Clean)
    (hnodup : (ls.flatMap Line.defines).Nodup)
    (hdecodes : ∀ m ops, .instr m ops ∈ ls → ∃ i, AsmLine.Decodes m ops i ∧
      ∀ t, i.target? = some t → t ∈ ls.flatMap Line.defines)
    (hmain : Text.ofString "main" ∈ ls.flatMap Line.defines) :
    ∃ code, Code.ofText (ls.flatMap Line.render) = .ok code := by
  have hdefined : ∀ t ∈ ls.flatMap Line.defines, ∃ n, (labelPlaces 0 ls).get? t = some n := by
    intro t ht
    refine Option.ne_none_iff_exists'.mp fun hnone => ?_
    exact Table.get?_eq_none_iff.mp hnone (by rw [names_labelPlaces]; exact ht)
  obtain ⟨made, hmade⟩ : ∃ made,
      (instrLines 1 ls).mapM (·.assemble (labelPlaces 0 ls)) = .ok made := by
    refine mapM_ok fun l hl => ?_
    obtain ⟨m, ops, n, hmem, rfl⟩ := exists_of_mem_instrLines hl
    obtain ⟨i, hi, ht⟩ := hdecodes m ops hmem
    obtain ⟨j, hj⟩ := resolve_ok (f := ((Line.instr m ops).toAsm n).target (labelPlaces 0 ls)) i
      (by
        intro t htarget
        obtain ⟨place, hplace⟩ := hdefined t (ht t htarget)
        exact ⟨place, by rw [AsmLine.target, hplace]⟩)
    have hdecode : ((Line.instr m ops).toAsm n).decode = .ok i := hi n _
    refine ⟨⟨j, n, ((Line.instr m ops).toAsm n).text⟩, ?_⟩
    rw [AsmLine.assemble, hdecode]
    show (do
      let instr ← i.resolve (((Line.instr m ops).toAsm n).target (labelPlaces 0 ls))
      return Located.mk instr n ((Line.instr m ops).toAsm n).text) = _
    rw [hj]
    rfl
  obtain ⟨entry, hentry⟩ := hdefined _ hmain
  rw [Code.ofText_render hclean hnodup, hmade, hentry]
  exact ⟨_, rfl⟩

/-- Sound lines whose labels are all defined are assembled. -/
theorem exists_code_of_sound {targets : Text → Prop} (hsound : SoundAll targets ls)
    (hnodup : (ls.flatMap Line.defines).Nodup) (hfits : ∀ l ∈ ls, l.Fits)
    (htargets : ∀ t, targets t → t ∈ ls.flatMap Line.defines)
    (hmain : Text.ofString "main" ∈ ls.flatMap Line.defines) :
    ∃ code, Code.ofText (ls.flatMap Line.render) = .ok code := by
  refine exists_code_of_decodes (fun l hl => (hsound l hl).clean) hnodup (fun m ops hmem => ?_) hmain
  obtain ⟨i, hi, ht⟩ := (hsound _ hmem).decodes m ops rfl (hfits _ hmem)
  exact ⟨i, hi, fun t htarget => htargets t (ht t htarget)⟩

theorem clean_program (hn : p.Named) : ∀ l ∈ programLines p, l.Clean :=
  fun l hl => (sound_program p hn l hl).clean

theorem nodup_defines (hs : p.Supported) : ((programLines p).flatMap Line.defines).Nodup :=
  (defines_program p).nodup_iff.mpr (nodup_labels hs.nodup)

theorem mem_defines (t : Text) :
    t ∈ (programLines p).flatMap Line.defines ↔ t ∈ linkLabels p :=
  (defines_program p).mem_iff

/-- Code that the assembler takes calls declared procedures only. -/
theorem declared_of_assembles {code : Code} (h : Code.Assembles (programLines p) code) {f : Text}
    (hf : f ∈ p.calls) : f ∈ p.table.names := by
  obtain ⟨pc, hjal⟩ := h.holds.has_of_mem (jal_mem_program p hf)
  obtain ⟨n, hn, -⟩ := hjal.jal
  have hmem : procedureLabel f ∈ linkLabels p := by
    rw [← mem_defines, ← names_labelPlaces 0, ← h.labels]
    exact Table.contains_iff.mp (by rw [Table.contains, hn]; rfl)
  rcases List.mem_cons.mp hmem with hmain | hmem
  · exact absurd hmain (procedureLabel_ne_main f)
  · rcases List.mem_append.mp hmem with hmem | hmem
    · obtain ⟨g, hg, hfg⟩ := List.mem_map.mp hmem
      exact procedureLabel_injective hfg ▸ hg
    · obtain ⟨j, -, hj⟩ := List.mem_map.mp hmem
      exact absurd hj (labelName_ne_procedureLabel j f)

/-- The assembler takes the code of a program if and only if every call has a declaration. -/
theorem exists_code_iff (hn : p.Named) (hs : p.Supported)
    (hfits : ∀ l ∈ programLines p, l.Fits) :
    (∃ code, Code.ofText ((programLines p).flatMap Line.render) = .ok code) ↔
      ∀ f ∈ p.calls, f ∈ p.table.names := by
  constructor
  · rintro ⟨code, hcode⟩ f hf
    exact declared_of_assembles
      (Code.assembles_of_ofText (clean_program hn) (nodup_defines hs) hcode) hf
  · intro hdeclared
    refine exists_code_of_sound (sound_program p hn) (nodup_defines hs) hfits ?_ ?_
    · rintro t (⟨j, -, hj, rfl⟩ | ⟨f, hf, rfl⟩)
      · refine (mem_defines _).mpr (List.mem_cons_of_mem _ (List.mem_append_right _ ?_))
        exact List.mem_map.mpr ⟨j, List.mem_range'_1.mpr ⟨Nat.zero_le _, hj⟩, rfl⟩
      · refine (mem_defines _).mpr (List.mem_cons_of_mem _ (List.mem_append_left _ ?_))
        exact List.mem_map.mpr ⟨f, hdeclared f hf, rfl⟩
    · exact (mem_defines _).mpr List.mem_cons_self

end Link

/-- No operand beside another is long. -/
def Line.isShort : Line → Bool
  | .instr _ operands => operands.length = 1 || operands.all (·.length ≤ 9)
  | _ => true

/-- Numbers of few digits fit; an operand that stands alone is no number. -/
theorem Line.fits_of_isShort {l : Line} (h : l.isShort = true) : l.Fits := by
  have hsmall : ∀ n : Int, (Numeral.ofInt n).length ≤ 9 → n < 2 ^ 31 := by
    intro n hn
    cases n with
    | ofNat n =>
      have hlen : (Nat.toDigits 10 n).length ≤ 9 := by
        simpa [Numeral.ofInt, Numeral.ofNat, Text.ofChars] using hn
      have hlt := (Nat.length_toDigits_le_iff (by decide) (by decide)).mp hlen
      simp only [Int.ofNat_eq_natCast]
      omega
    | negSucc n => omega
  refine ⟨fun mnemonic reg n he => hsmall n ?_, fun n he => hsmall n ?_⟩
  · subst he
    have hlen : reg.length ≤ 9 ∧ (slot n).length ≤ 9 := by simpa [isShort] using h
    rw [slot, List.length_append] at hlen
    omega
  · subst he
    have hlen : (Numeral.ofInt n).length ≤ 9 := by
      simpa [isShort, Text.ofString, Text.ofChars] using h
    exact hlen

/-- The generator and the assembler agree. The text of a program, whose numbers fit, is assembled if
and only if no call is unresolved; the unresolved calls are those without a declaration, each once
and in the order in which their first calls are emitted; and the labels of the code are `main`, one
for every procedure and those handed out to branches and loops, each once. -/
theorem assembled_iff_unresolved_eq_nil {source : Text} {p : Program}
    (hparse : Program.ofText source = .ok p) (hcompiles : Compiles p)
    (hfits : ∀ l ∈ (generate p).builder.lines, l.Fits) :
    ((∃ code, Code.ofText (generate p).builder.render = .ok code) ↔
      (generate p).builder.unresolved = []) ∧
    (generate p).builder.unresolved.Nodup ∧
    (∀ f, f ∈ (generate p).builder.unresolved ↔
      f ∈ p.calls ∧ ∀ d ∈ p.declarations, d.procedure.name ≠ f) ∧
    (generate p).builder.unresolved = (p.calls.filter fun f => !p.table.contains f).eraseDups ∧
    (generate p).builder.lines.reverse.filterMap Line.callee? = p.calls ∧
    ∀ code, Code.ofText (generate p).builder.render = .ok code →
      code.labels.names.Nodup ∧
      code.labels.names.Perm (Text.ofString "main" ::
        ((p.declarations.map fun d => procedureLabel d.procedure.name) ++
          (List.range p.labelCount).map labelName)) := by
  have hn := Program.named_of_ofText hparse
  have hs := hcompiles.supported
  have hlines : (generate p).builder.lines.reverse = programLines p := by
    simpa using congrArg List.reverse hcompiles.extends.2.lines
  have hunresolved : (generate p).builder.unresolved =
      (p.calls.filter fun f => !p.table.contains f).eraseDups := by
    rw [hcompiles.unresolved_eq, unresolvedAfter_eq]
    simp
  have hmem : ∀ f, f ∈ (generate p).builder.unresolved ↔ f ∈ p.calls ∧ f ∉ p.table.names := by
    intro f
    rw [hunresolved, List.mem_eraseDups, List.mem_filter, Bool.not_eq_true',
      Table.contains_eq_false_iff]
  have hfits' : ∀ l ∈ programLines p, l.Fits := by
    rw [← hlines]
    exact fun l hl => hfits l (List.mem_reverse.mp hl)
  refine ⟨?_, ?_, fun f => ?_, hunresolved, ?_, fun code hcode => ?_⟩
  · rw [hcompiles.render_eq, exists_code_iff hn hs hfits', List.eq_nil_iff_forall_not_mem]
    refine forall_congr' fun f => ?_
    rw [hmem, not_and, not_not]
  · rw [hcompiles.unresolved_eq]
    exact nodup_unresolvedAfter _ List.nodup_nil _
  · rw [hmem]
    simp [Program.table, Table.names]
  · rw [hlines, callees_program]
  · rw [hcompiles.render_eq] at hcode
    have hlabels := (Code.assembles_of_ofText (clean_program hn) (nodup_defines hs) hcode).labels
    rw [hlabels, names_labelPlaces]
    refine ⟨nodup_defines hs, (defines_program p).trans (List.Perm.of_eq ?_)⟩
    simp [linkLabels, Program.table, Table.names, labelNames, Function.comp_def,
      List.range_eq_range']

/-- A program that calls two procedures without a declaration, one of them as an argument. -/
def danglingSource : Text :=
  "PROCEDURE f(n); BEGIN PROCEDURE g(m); g := m; IF n THEN f := g(n); ELSE h(n); END;
  WHILE f(0) DO h(k(1));"

theorem dangling_not_assembled :
    ∃ p, Program.ofText danglingSource = .ok p ∧ Compiles p ∧
      (generate p).builder.unresolved = ["h", "k"] ∧
      ¬ ∃ code, Code.ofText (generate p).builder.render = .ok code := by
  obtain ⟨p, hparse, hcheck⟩ : ∃ p, Program.ofText danglingSource = .ok p ∧
      ((generate p).error = none && (generate p).builder.unresolved = ["h", "k"] &&
        (generate p).builder.lines.all Line.isShort) = true :=
    Program.exists_of_passes (by decide +kernel)
  simp only [Bool.and_eq_true, decide_eq_true_eq, List.all_eq_true] at hcheck
  obtain ⟨⟨hcompiles, hunresolved⟩, hshort⟩ := hcheck
  have hfits : ∀ l ∈ (generate p).builder.lines, l.Fits :=
    fun l hl => Line.fits_of_isShort (hshort l hl)
  have hall := assembled_iff_unresolved_eq_nil hparse hcompiles hfits
  refine ⟨p, hparse, hcompiles, hunresolved, fun hcode => ?_⟩
  rw [hall.1.mp hcode] at hunresolved
  cases hunresolved

end Assembly

end MiniPascal
