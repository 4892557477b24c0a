import MiniPascal.Proofs.Simulation

/-! The code of a whole program on the stack machine. It follows the lexical reading of the program
from the entry to the exit, and is never stuck on the way. -/

namespace MiniPascal

/-- More than the size of any procedure. -/
def Program.cost (p : Program) : Nat :=
  (p.declarations.map fun d => d.procedure.body.size).sum + 1

/-- A bound on the fuel that a program needs between two calls or rounds of loops. -/
def Program.size (p : Program) : Nat :=
  Stmt.sizeAll (p.procedures.map Declaration.toStmt) + p.main.elim 0 Stmt.size

/-- Code that was made of a program. -/
structure Program.Builds (p : Program) (code : Code) : Prop where
  named : p.Named
  supported : p.Supported
  assembles : Code.Assembles (Assembly.programLines p) code
  small : code.instrs.size < 2 ^ 31

namespace Assembly

theorem Compiles.builds {source : Text} {p : Program} {code : Code}
    (hparse : Program.ofText source = .ok p) (hcompiles : Compiles p)
    (hcode : Code.ofText (generate p).builder.render = .ok code)
    (hsmall : code.instrs.size < 2 ^ 31) : p.Builds code := by
  have hn := Program.named_of_ofText hparse
  have hs := hcompiles.supported
  rw [hcompiles.render_eq] at hcode
  exact ⟨hn, hs, Code.assembles_of_ofText (clean_program hn) (nodup_defines hs) hcode, hsmall⟩

theorem holds_procedure {code : Code} {pc k : Nat} {ds : List Declaration}
    (h : code.Holds pc (proceduresLines k ds)) {d : Declaration} (hd : d ∈ ds) :
    ∃ pc k, code.Holds pc (procedureLines k d.procedure) := by
  induction ds generalizing pc k with
  | nil => cases hd
  | cons e ds ih =>
    obtain ⟨hfirst, hrest⟩ := Code.holds_append.mp h
    rcases List.mem_cons.mp hd with rfl | hd
    · exact ⟨pc, k, hfirst⟩
    · exact ih hrest hd

end Assembly

namespace StackMachine

open Assembly

variable {p : Program} {code : Code}

theorem size_lt_cost {d : Declaration} (hd : d ∈ p.declarations) :
    d.procedure.body.size < p.cost := by
  have hle : d.procedure.body.size ≤ (p.declarations.map fun d => d.procedure.body.size).sum :=
    List.le_sum_of_mem (List.mem_map.mpr ⟨d, hd, rfl⟩)
  rw [Program.cost]
  omega

theorem linked_of_builds (h : p.Builds code) : Linked code p.table p.cost where
  small := h.small
  cost_pos := Nat.succ_pos _
  placed name q hq := by
    obtain ⟨d, hd, heq⟩ := List.mem_map.mp (Table.mem_of_get? hq)
    cases heq
    have hcode := (Code.holds_append.mp h.assembles.holds).2
    have hcalls : ∀ f ∈ d.procedure.body.calls, f ∈ p.table.names := fun f hf =>
      declared_of_assembles h.assembles
        (List.mem_append_right _ (List.mem_flatMap.mpr ⟨d, hd, hf⟩))
    have hn := h.named.declarations d hd
    exact ⟨rfl, hn, ⟨h.supported.bodies d hd, hn.body, hcalls⟩, size_lt_cost hd,
      holds_procedure hcode hd⟩

theorem entry_eq_zero (h : p.Builds code) : code.entry = 0 := by
  have hmain : code.labels.get? "main" = some 0 := (Code.holds_append.mp h.assembles.holds).1.1
  obtain ⟨entry, hentry, heq⟩ := h.assembles.entry
  obtain rfl : entry = 0 := Option.some.inj (hentry.symm.trans hmain)
  exact heq

section Declarations

variable (ds : List Declaration) (names : List Text)

/-- Declarations are statements without code. -/
theorem stmtsLines_declarations (k : Nat) :
    stmtsLines names k (ds.map Declaration.toStmt) = [] := by
  induction ds with
  | nil => rfl
  | cons d ds ih => exact ih

theorem madeAll_declarations : Stmt.madeAll names (ds.map Declaration.toStmt) = [] := by
  induction ds with
  | nil => rfl
  | cons d ds ih => exact List.append_eq_nil_iff.mpr ⟨ih, rfl⟩

theorem compiledAll_declarations (procs : Table Procedure)
    (hn : ∀ d ∈ ds, d.procedure.Named) : Stmt.CompiledAll procs (ds.map Declaration.toStmt) := by
  induction ds with
  | nil => exact ⟨trivial, trivial, fun f hf => absurd hf List.not_mem_nil⟩
  | cons d ds ih =>
    obtain ⟨hd, hds⟩ := List.forall_mem_cons.mp hn
    obtain ⟨hsupported, hnamed, hcalls⟩ := ih hds
    exact ⟨⟨trivial, hsupported⟩, ⟨⟨hd.name, hd.params, hd.body⟩, hnamed⟩, hcalls⟩

end Declarations

theorem compiled_main (h : p.Builds code) {st : Stmt} (hst : p.main = some st) :
    st.Compiled p.table := by
  refine ⟨h.supported.main st hst, h.named.main st hst, fun f hf => ?_⟩
  refine declared_of_assembles h.assembles (List.mem_append_left _ ?_)
  rw [hst]
  exact hf

/-- The last lines of the main code halt the machine once the stack is empty. -/
theorem runs_to_exit {pc : Nat} {s : State}
    (hcode : code.Holds pc [.instr "li" ["$v0", "10"], .instr "syscall" []]) (hpc : s.pc = pc)
    (hstack : s.stack = []) :
    ∃ t, Runs code 1 s t ∧ t.out = s.out ∧ step? code t = some .exit := by
  obtain ⟨hli, hsyscall, -⟩ := hcode
  have hruns := runs_li regName_v0 (hli.instr?_eq fun _ _ => rfl) hpc
  refine ⟨_, hruns, rfl, (step?_eq rfl (hsyscall.instr?_eq fun _ _ => rfl)).trans ?_⟩
  exact if_pos ⟨rfl, hstack⟩

theorem lexicalProgram_eq (n : Nat) (p : Program) (r : RunState) :
    Lexical.program n p r =
      (Lexical.execAll p.table n (p.procedures.map Declaration.toStmt) >>= fun _ =>
        p.main.elim (pure ()) (Lexical.exec p.table n))
        { r with env := .root, steps := 0, depth := 0 } := by
  unfold Lexical.program
  cases p.main with
  | none => rfl
  | some st => rfl

/-- The code of a program follows its lexical reading to the exit. -/
theorem follows_program (h : p.Builds code) {r : RunState} (hroom : r.sink.room = none)
    (hempty : r.sink.written = []) (n : Nat) :
    Follows code p.cost (n - p.size) (start code) (fun _ _ t => step? code t = some .exit)
      (Lexical.program n p r) := by
  have hsim := simulates (linked_of_builds h) n
  obtain ⟨⟨hhead, hbody⟩, hend⟩ : (code.Holds 0 [.plain ".text", .plain ".globl main", .label "main"] ∧
      code.Holds 0 (p.main.elim [] (scopeLines [] 0))) ∧
      code.Holds (codeSize (p.main.elim [] (scopeLines [] 0)))
        [.instr "li" ["$v0", "10"], .instr "syscall" []] := by
    have hmain := (Code.holds_append.mp h.assembles.holds).1
    rw [mainLines] at hmain
    simpa only [Code.holds_append, codeSize_append, codeSize_plain, codeSize_label, codeSize_nil,
      Nat.zero_add] using hmain
  have hsite : Site 0 [[]] [] [] [] 0 { r with env := .root, steps := 0, depth := 0 } (start code) :=
    ⟨entry_eq_zero h, rfl, .cons .empty .nil, hempty.symm, hroom⟩
  have hdeclarations := hsim.execAll 0 (p.procedures.map Declaration.toStmt)
    (compiledAll_declarations _ _ h.named.procedures)
    (by rw [stmtsLines_declarations]; trivial) hsite
  rw [stmtsLines_declarations, madeAll_declarations] at hdeclarations
  rw [lexicalProgram_eq, Program.size]
  refine .bind (hdeclarations.mono (by omega)) ?_
  rintro _ r₁ t₁ hout ⟨words, h₁⟩
  cases hmain : p.main with
  | none =>
    rw [hmain] at hend
    have hwords : words = [] := List.eq_nil_of_length_eq_zero h₁.frame.length
    have hstack : t₁.stack = [] := by rw [h₁.stack_eq, hwords]; rfl
    obtain ⟨t, hruns, hout', hexit⟩ := runs_to_exit hend h₁.pc_eq hstack
    exact .after_mono hruns (follows_ok (hout'.trans hout) hexit)
  | some st =>
    rw [hmain] at hbody hend
    obtain ⟨hcode, hfree⟩ := Code.holds_append.mp hbody
    have hexec := hsim.exec 0 st (compiled_main h hmain) hcode h₁
    refine (hexec.mono (by rw [Option.elim_some]; omega)).extend ?_
    rintro _ r₂ t₂ ⟨words', h₂⟩ hout₂
    have hlen : words'.length = (st.made []).length := by simpa using h₂.frame.length
    have hstack : t₂.stack = words'.map some := by simpa using h₂.stack_eq
    have hpc : t₂.pc = (codeSize (stmtLines [] 0 st) : Nat) := by simpa using h₂.pc_eq
    rw [Nat.zero_add] at hfree
    have hclear := runs_free hfree hpc (by rw [hstack, List.length_map, hlen])
    have hempty : t₂.stack.drop (st.made []).length = [] := by
      rw [List.drop_eq_nil_iff, hstack, List.length_map, hlen]
    rw [Option.elim_some, scopeLines, codeSize_append] at hend
    obtain ⟨t, hruns, hout', hexit⟩ := runs_to_exit hend (s := { t₂ with
      stack := t₂.stack.drop (st.made []).length, pc := _ }) rfl hempty
    exact ⟨_, t, hclear.trans hruns, hout'.trans hout₂, hexit⟩

/-- How the code of a program may go on: to an end of its own, or beyond any number of steps. -/
theorem runs_or_ends (h : p.Builds code) (k : Nat) :
    ∃ j t, Runs code j (start code) t ∧
      (k ≤ j ∨ step? code t = some .exit ∨ step? code t = some .divisionByZero) := by
  have hfollows := follows_program h (r := {}) rfl rfl (p.size + p.cost * k)
  rw [Nat.add_sub_cancel_left] at hfollows
  cases hresult : Lexical.program (p.size + p.cost * k) p {} with
  | ok a r =>
    rw [hresult] at hfollows
    obtain ⟨j, t, hruns, -, hexit⟩ := hfollows
    exact ⟨j, t, hruns, .inr (.inl hexit)⟩
  | error e r =>
    rw [hresult] at hfollows
    obtain ⟨j, t, hruns, -, ⟨-, hfuel⟩ | ⟨-, hdivides⟩⟩ := hfollows
    · exact ⟨j, t, hruns, .inl (Nat.le_of_mul_le_mul_left hfuel (Nat.succ_pos _))⟩
    · exact ⟨j, t, hruns, .inr (.inr hdivides)⟩

/-- The code of a program is never stuck. -/
theorem exists_turn (h : p.Builds code) {k : Nat} {s : State} (hs : Runs code k (start code) s) :
    ∃ turn, step? code s = some turn := by
  obtain ⟨j, t, ht, hend⟩ := runs_or_ends h (k + 1)
  have hends : k < j ∨ ∃ turn, step? code t = some turn ∧ ∀ u, turn ≠ .next u := by
    rcases hend with hlt | hexit | hdivides
    · exact .inl hlt
    · exact .inr ⟨_, hexit, fun u hu => by cases hu⟩
    · exact .inr ⟨_, hdivides, fun u hu => by cases hu⟩
  rcases hends with hlt | ⟨turn, hturn, hne⟩
  · obtain ⟨u, hu⟩ := (hs.between ht (Nat.le_of_lt hlt)).exists_next (by omega)
    exact ⟨_, hu⟩
  · have hle := hs.le_of_ends ht hturn hne
    rcases Nat.eq_or_lt_of_le hle with rfl | hlt
    · exact ⟨turn, hs.unique ht ▸ hturn⟩
    · obtain ⟨u, hu⟩ := (hs.between ht hle).exists_next (by omega)
      exact ⟨_, hu⟩

end StackMachine

end MiniPascal
