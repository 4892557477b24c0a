import MiniPascal.Proofs.Generation

/-! The generator as a sequence of operations on the builder. The operations depend on the tree alone,
and they follow a discipline of parked words and open scopes that keeps the account of the stack right
after every one of them. -/

namespace MiniPascal

namespace Table

variable {α : Type}

theorem foldl_erase_eq_filter (names : List Text) (t : Table α) :
    names.foldl erase t = t.filter fun entry => !names.contains entry.1 := by
  induction names generalizing t with
  | nil => simp
  | cons name names ih =>
    rw [List.foldl_cons, ih, erase, List.filter_filter]
    congr 1
    funext entry
    by_cases h : entry.1 = name <;> simp [h]

/-- Erasing names that were added gives the table back. -/
theorem foldl_erase_append {names : List Text} {t added : Table α}
    (hfresh : ∀ x ∈ names, t.contains x = false) (hadded : ∀ x ∈ added.names, x ∈ names) :
    names.foldl erase (t ++ added) = t := by
  have hkept : ∀ entry ∈ t, !names.contains entry.1 := by
    intro entry hentry
    by_contra h
    have hmem : entry.1 ∈ names := by simpa using h
    have hnone := contains_eq_false_iff.mp (hfresh entry.1 hmem)
    exact hnone (List.mem_map_of_mem hentry)
  have hgone : ∀ entry ∈ added, ¬ !names.contains entry.1 := by
    intro entry hentry
    simpa using hadded entry.1 (List.mem_map_of_mem hentry)
  rw [foldl_erase_eq_filter, List.filter_append, List.filter_eq_self.mpr hkept,
    List.filter_eq_nil_iff.mpr hgone, List.append_nil]

end Table

namespace Assembly

/-- What the generator asks of the builder. -/
inductive Op where
  | emit (l : Line)
  | push (reg : Text)
  | pop (reg : Text)
  | release (count : Nat)
  | store (reg name : Text)
  | retrieve (reg name : Text)
  | beginScope
  | freeScope
  | link (params : List Text)
  | newLabel
  | noteUnresolved (name : Text)

def Op.apply (b : Builder) : Op → Builder
  | emit l => b.emit l
  | push reg => b.push reg
  | pop reg => b.pop reg
  | release count => b.release count
  | store reg name => b.store reg name
  | retrieve reg name => b.retrieve reg name
  | beginScope => b.beginScope
  | freeScope => b.freeScope
  | link params => b.linkProcedure params
  | newLabel => b.newLabel.2
  | noteUnresolved name => b.noteUnresolved name

/-- The builder after operations in turn. -/
def Builder.run (b : Builder) (ops : List Op) : Builder := ops.foldl Op.apply b

theorem Builder.run_append (b : Builder) (ops ops' : List Op) :
    b.run (ops ++ ops') = (b.run ops).run ops' := List.foldl_append

theorem Builder.run_cons (b : Builder) (op : Op) (ops : List Op) :
    b.run (op :: ops) = (op.apply b).run ops := rfl

theorem Builder.run_emits (b : Builder) (ls : List Line) :
    b.run (ls.map .emit) = b.emitAll ls := List.foldl_map

mutual

def exprOps (procs : Table Procedure) : Expr → List Op
  | .literal _ value _ _ => [.emit (.instr "li" ["$v0", Numeral.ofWord value])]
  | .var v => [.retrieve "$v0" v.name]
  | .binary _ op left right =>
    exprOps procs left ++ ([.push "$v0"] ++ (exprOps procs right ++
      ([.pop "$t0"] ++ ((operatorLines? op).getD []).map .emit)))
  | .call _ name args =>
    (if procs.contains name then [] else [.noteUnresolved name]) ++
      ([.emit (.comment ("call " ++ name))] ++ (argumentOps procs args ++
        [.emit (.instr "jal" [procedureLabel name]), .release args.length]))
  | .missing => []

def argumentOps (procs : Table Procedure) : List Expr → List Op
  | [] => []
  | e :: es => exprOps procs e ++ ([.push "$v0"] ++ argumentOps procs es)

end

/-- Operations in a scope of their own. -/
def scopeOps (ops : List Op) : List Op := [.beginScope] ++ (ops ++ [.freeScope])

mutual

def stmtOps (procs : Table Procedure) (k : Nat) : Stmt → List Op
  | .assign _ target value => exprOps procs value ++ [.store "$v0" target.name]
  | .block _ body => stmtsOps procs k body
  | .ifThen _ cond body =>
    [.newLabel, .newLabel] ++ (exprOps procs cond ++
      ([.emit (.instr "beqz" ["$v0", labelName k])] ++ (scopeOps (stmtOps procs (k + 2) body) ++
        [.emit (.instr "j" [labelName (k + 1)]), .emit (.label (labelName k)),
          .emit (.marked (labelName (k + 1)) "ENDIF")])))
  | .ifElse _ cond body alternative =>
    [.newLabel, .newLabel] ++ (exprOps procs cond ++
      ([.emit (.instr "beqz" ["$v0", labelName k])] ++ (scopeOps (stmtOps procs (k + 2) body) ++
        ([.emit (.instr "j" [labelName (k + 1)]), .emit (.label (labelName k))] ++
          (scopeOps (stmtOps procs (k + 2 + body.labelCount) alternative) ++
            [.emit (.marked (labelName (k + 1)) "ENDIF")])))))
  | .loop _ cond body =>
    [.newLabel, .newLabel] ++ ([.emit (.marked (labelName k) "WHILE")] ++ (exprOps procs cond ++
      ([.emit (.instr "beqz" ["$v0", labelName (k + 1)])] ++
        (scopeOps (stmtOps procs (k + 2) body) ++
          [.emit (.instr "j" [labelName k]), .emit (.marked (labelName (k + 1)) "ENDWHILE")]))))
  | .writeLn _ value => exprOps procs value ++ printLines.map .emit
  | .readLn .. => []
  | .call token name args => exprOps procs (.call token name args)
  | .declare .. => []
  | .missing => []

def stmtsOps (procs : Table Procedure) (k : Nat) : List Stmt → List Op
  | [] => []
  | s :: ss => stmtOps procs k s ++ stmtsOps procs (k + s.labelCount) ss

end

/-- A line that loads or stores a word. -/
def Line.isAccess : Line → Bool
  | .instr mnemonic _ => mnemonic = "lw" || mnemonic = "sw"
  | _ => false

/-- How many words are parked above the named ones, and how many scopes are open. -/
structure Stage where
  parked : Nat
  scopes : Nat

/-- The discipline: names come and go only while no word is parked, and a frame begins where no scope
is open. -/
inductive Stage.Step : Stage → Op → Stage → Prop
  | emit {s : Stage} {l : Line} (h : l.isAccess = false) : Step s (.emit l) s
  | push {k n : Nat} {reg : Text} : Step ⟨k, n⟩ (.push reg) ⟨k + 1, n⟩
  | pop {k n : Nat} {reg : Text} : Step ⟨k + 1, n⟩ (.pop reg) ⟨k, n⟩
  | release {k n count : Nat} : Step ⟨k + count, n⟩ (.release count) ⟨k, n⟩
  | store {n : Nat} {reg name : Text} : Step ⟨0, n + 1⟩ (.store reg name) ⟨0, n + 1⟩
  | retrieve {s : Stage} {reg name : Text} : Step s (.retrieve reg name) s
  | beginScope {n : Nat} : Step ⟨0, n⟩ .beginScope ⟨0, n + 1⟩
  | freeScope {n : Nat} : Step ⟨0, n + 1⟩ .freeScope ⟨0, n⟩
  | link {params : List Text} : Step ⟨0, 0⟩ (.link params) ⟨0, 1⟩
  | newLabel {s : Stage} : Step s .newLabel s
  | noteUnresolved {s : Stage} {name : Text} : Step s (.noteUnresolved name) s

/-- Operations that keep to the discipline. -/
inductive Stage.Walk : Stage → List Op → Stage → Prop
  | nil (s : Stage) : Walk s [] s
  | cons {s t u : Stage} {op : Op} {ops : List Op} (h : s.Step op t) (hw : t.Walk ops u) :
      Walk s (op :: ops) u

namespace Stage

variable {s t u : Stage} {op : Op} {ops ops' : List Op}

theorem Step.walk (h : s.Step op t) : s.Walk [op] t := .cons h (.nil t)

theorem Walk.append (h : s.Walk ops t) (h' : t.Walk ops' u) : s.Walk (ops ++ ops') u := by
  induction h with
  | nil s => exact h'
  | cons hop hw ih => exact .cons hop (ih h')

theorem Walk.split (h : s.Walk (ops ++ ops') u) : ∃ t, s.Walk ops t ∧ t.Walk ops' u := by
  induction ops generalizing s with
  | nil => exact ⟨s, .nil s, h⟩
  | cons op ops ih =>
    cases h with
    | cons hop hw =>
      obtain ⟨t, hfirst, hrest⟩ := ih hw
      exact ⟨t, .cons hop hfirst, hrest⟩

theorem walk_emits (s : Stage) (ls : List Line) (h : ls.all fun l => !l.isAccess) :
    s.Walk (ls.map .emit) s := by
  induction ls with
  | nil => exact .nil s
  | cons l ls ih =>
    simp only [List.all_cons, Bool.and_eq_true, Bool.not_eq_true'] at h
    exact .cons (.emit h.1) (ih h.2)

theorem walk_operatorLines (s : Stage) (op : Operator) :
    s.Walk (((operatorLines? op).getD []).map .emit) s := by
  apply walk_emits
  cases op <;> rfl

theorem walk_note (s : Stage) (procs : Table Procedure) (name : Text) :
    s.Walk (if procs.contains name then [] else [.noteUnresolved name]) s := by
  by_cases h : procs.contains name = true
  · rw [if_pos h]
    exact .nil s
  · rw [if_neg h]
    exact Step.noteUnresolved.walk

mutual

theorem walk_exprOps (procs : Table Procedure) (e : Expr) (k n : Nat) :
    Walk ⟨k, n⟩ (exprOps procs e) ⟨k, n⟩ := by
  match e with
  | .literal .. => exact (Step.emit rfl).walk
  | .var _ => exact Step.retrieve.walk
  | .binary _ op left right =>
    have hright := walk_exprOps procs right (k + 1) n
    have hoperator := walk_operatorLines ⟨k, n⟩ op
    exact (walk_exprOps procs left k n).append
      (Step.push.walk.append (hright.append (Step.pop.walk.append hoperator)))
  | .call _ name args =>
    have hleave : Walk ⟨k + args.length, n⟩
        [.emit (.instr "jal" [procedureLabel name]), .release args.length] ⟨k, n⟩ :=
      .cons (.emit rfl) Step.release.walk
    have hargs := (walk_argumentOps procs args k n).append hleave
    exact (walk_note _ procs name).append ((Step.emit rfl).walk.append hargs)
  | .missing => exact .nil _

theorem walk_argumentOps (procs : Table Procedure) (es : List Expr) (k n : Nat) :
    Walk ⟨k, n⟩ (argumentOps procs es) ⟨k + es.length, n⟩ := by
  match es with
  | [] => exact .nil _
  | e :: es =>
    have hrest := walk_argumentOps procs es (k + 1) n
    have hlength : k + 1 + es.length = k + (e :: es).length := by
      rw [List.length_cons]
      omega
    rw [hlength] at hrest
    exact (walk_exprOps procs e k n).append (Step.push.walk.append hrest)

end

theorem walk_labels (s : Stage) : s.Walk [.newLabel, .newLabel] s :=
  .cons .newLabel Step.newLabel.walk

theorem Walk.scope {n : Nat} (h : Walk ⟨0, n + 1⟩ ops ⟨0, n + 1⟩) :
    Walk ⟨0, n⟩ (scopeOps ops) ⟨0, n⟩ :=
  Step.beginScope.walk.append (h.append Step.freeScope.walk)

mutual

theorem walk_stmtOps (procs : Table Procedure) (s : Stmt) (k n : Nat) :
    Walk ⟨0, n + 1⟩ (stmtOps procs k s) ⟨0, n + 1⟩ := by
  match s with
  | .assign _ _ value => exact (walk_exprOps procs value 0 _).append Step.store.walk
  | .block _ body => exact walk_stmtsOps procs body k n
  | .ifThen _ cond body =>
    have hbody := (walk_stmtOps procs body (k + 2) (n + 1)).scope
    have hends := walk_emits ⟨0, n + 1⟩ [.instr "j" [labelName (k + 1)],
      .label (labelName k), .marked (labelName (k + 1)) "ENDIF"] rfl
    have hcond := walk_exprOps procs cond 0 (n + 1)
    exact (walk_labels _).append
      (hcond.append ((Step.emit rfl).walk.append (hbody.append hends)))
  | .ifElse _ cond body alternative =>
    have hbody := (walk_stmtOps procs body (k + 2) (n + 1)).scope
    have halternative :=
      (walk_stmtOps procs alternative (k + 2 + body.labelCount) (n + 1)).scope
    have hmiddle := walk_emits ⟨0, n + 1⟩
      [.instr "j" [labelName (k + 1)], .label (labelName k)] rfl
    have hcond := walk_exprOps procs cond 0 (n + 1)
    exact (walk_labels _).append (hcond.append ((Step.emit rfl).walk.append
      (hbody.append (hmiddle.append (halternative.append (Step.emit rfl).walk)))))
  | .loop _ cond body =>
    have hbody := (walk_stmtOps procs body (k + 2) (n + 1)).scope
    have hends := walk_emits ⟨0, n + 1⟩
      [.instr "j" [labelName k], .marked (labelName (k + 1)) "ENDWHILE"] rfl
    have hcond := walk_exprOps procs cond 0 (n + 1)
    exact (walk_labels _).append ((Step.emit rfl).walk.append
      (hcond.append ((Step.emit rfl).walk.append (hbody.append hends))))
  | .writeLn _ value => exact (walk_exprOps procs value 0 _).append (walk_emits _ _ rfl)
  | .readLn .. => exact .nil _
  | .call token name args => exact walk_exprOps procs (.call token name args) 0 _
  | .declare .. => exact .nil _
  | .missing => exact .nil _

theorem walk_stmtsOps (procs : Table Procedure) (ss : List Stmt) (k n : Nat) :
    Walk ⟨0, n + 1⟩ (stmtsOps procs k ss) ⟨0, n + 1⟩ := by
  match ss with
  | [] => exact .nil _
  | s :: ss => exact (walk_stmtOps procs s k n).append (walk_stmtsOps procs ss _ n)

end

end Stage

namespace Builder

variable {b b' b'' : Builder} {s t : Stage} {op : Op} {ops : List Op} {parked : Nat}

/-- The account is right at a stage. -/
structure At (b : Builder) (s : Stage) : Prop where
  accounts : b.Accounts s.parked
  scopes : b.scopes.length = s.scopes

theorem At.emit (h : b.At s) (l : Line) : (b.emit l).At s :=
  ⟨h.accounts.grow [] [l] [], h.scopes⟩

theorem At.push {k n : Nat} (h : b.At ⟨k, n⟩) (reg : Text) : (b.push reg).At ⟨k + 1, n⟩ := by
  rw [push_eq []]
  exact ⟨(h.accounts.grow [] _ _).park 1, h.scopes⟩

theorem Accounts.unpark {words : Nat} (h : b.Accounts (parked + words)) :
    (b.park (-words)).Accounts parked := by
  refine ⟨h.slip, ?_, h.offset, h.disjoint⟩
  have hdelta := h.delta
  simp only [Builder.park, names] at hdelta ⊢
  push_cast at hdelta
  omega

theorem At.pop {k n : Nat} (h : b.At ⟨k + 1, n⟩) (reg : Text) : (b.pop reg).At ⟨k, n⟩ := by
  rw [pop_eq [] h.accounts]
  exact ⟨(h.accounts.grow [] _ _).unpark, h.scopes⟩

theorem At.release {k n count : Nat} (h : b.At ⟨k + count, n⟩) : (b.release count).At ⟨k, n⟩ := by
  rw [release_eq count h.accounts]
  exact ⟨h.accounts.unpark, h.scopes⟩

theorem At.store {n : Nat} (h : b.At ⟨0, n + 1⟩) (reg name : Text) :
    (b.store reg name).At ⟨0, n + 1⟩ := by
  have hinside : b.scopes ≠ [] := List.ne_nil_of_length_eq_add_one h.scopes
  have hstore : Extends [] b (b.store reg name) _ _ 0 [] := h.accounts.extends_store hinside reg name
  refine ⟨hstore.accounts, ?_⟩
  rw [hstore.scopes, List.length_modifyHead]
  exact h.scopes

theorem At.retrieve (h : b.At s) (reg name : Text) : (b.retrieve reg name).At s := by
  rw [retrieve_eq [] h.accounts]
  exact ⟨h.accounts.grow [] _ _, h.scopes⟩

theorem At.freeScope {n : Nat} (h : b.At ⟨0, n + 1⟩) : b.freeScope.At ⟨0, n⟩ := by
  obtain ⟨owned, outer, hs⟩ := List.exists_cons_of_length_eq_add_one h.scopes
  obtain ⟨haccounts, -, hscopes, -⟩ := h.accounts.freeScope hs
  have hlength := h.scopes
  rw [hs, List.length_cons] at hlength
  refine ⟨haccounts, ?_⟩
  rw [hscopes]
  exact Nat.succ.inj hlength

theorem At.link (h : b.At ⟨0, 0⟩) (params : List Text) : (b.linkProcedure params).At ⟨0, 1⟩ := by
  have hs : b.scopes = [] := List.eq_nil_of_length_eq_zero h.scopes
  refine ⟨(Ready.linkProcedure h.accounts hs params).accounts, ?_⟩
  rw [linkProcedure_eq h.accounts hs]
  rfl

theorem noteUnresolved_eq (b : Builder) (name : Text) :
    b.noteUnresolved name = b.grow [] [] [name] := by
  unfold noteUnresolved
  by_cases hseen : name ∈ b.unresolved <;> simp [grow, unresolvedAfter, Table.contains, hseen]

/-- One operation within the discipline keeps the account right. -/
theorem At.apply (h : b.At s) (hop : s.Step op t) : (op.apply b).At t := by
  cases hop with
  | emit hl => exact h.emit _
  | push => exact h.push _
  | pop => exact h.pop _
  | release => exact h.release
  | store => exact h.store _ _
  | retrieve => exact h.retrieve _ _
  | beginScope => exact ⟨h.accounts.beginScope, congrArg (· + 1) h.scopes⟩
  | freeScope => exact h.freeScope
  | link => exact h.link _
  | newLabel => exact ⟨h.accounts.relabel _, h.scopes⟩
  | noteUnresolved =>
    rw [Op.apply, noteUnresolved_eq]
    exact ⟨h.accounts.grow [] _ _, h.scopes⟩

/-- Operations within the discipline keep the account right. -/
theorem At.run (h : b.At s) (hw : s.Walk ops t) : (b.run ops).At t := by
  induction hw generalizing b with
  | nil s => exact h
  | cons hop _ ih => exact ih (h.apply hop)

/-- What the account says at any moment: the live names are those that open scopes own, and each has a
word of its own in the frame. -/
structure Sound (b : Builder) : Prop where
  slip : b.slip = none
  owned : ∀ x, b.offsets.contains x = true ↔ ∃ owned ∈ b.scopes, x ∈ owned
  aligned : ∀ x o, b.offsets.get? x = some o → 4 ∣ o ∧ 4 ≤ o ∧ o ≤ b.delta
  distinct : ∀ x y o, b.offsets.get? x = some o → b.offsets.get? y = some o → x = y

theorem Accounts.exists_index (h : b.Accounts parked) {x : Text} {o : Int}
    (hx : b.offsets.get? x = some o) :
    ∃ i, b.names[i]? = some x ∧ i < b.names.length ∧ o = 4 * ((b.names.length : Int) - i) := by
  rw [h.offset] at hx
  obtain ⟨i, hi, ho⟩ := Option.map_eq_some_iff.mp hx
  obtain ⟨hlt, hget, -⟩ := List.findIdx?_eq_some_iff_getElem.mp hi
  refine ⟨i, ?_, hlt, ho.symm⟩
  rw [List.getElem?_eq_getElem hlt]
  exact congrArg some (beq_iff_eq.mp hget)

theorem Accounts.sound (h : b.Accounts parked) : b.Sound where
  slip := h.slip
  owned := by
    intro x
    rw [Table.contains, h.offset, Option.isSome_map, List.isSome_idxOf?, names, List.mem_flatten]
  aligned := by
    intro x o hx
    obtain ⟨i, -, hlt, ho⟩ := h.exists_index hx
    have hdelta := h.delta
    refine ⟨?_, ?_, ?_⟩
    · rw [ho]
      exact Int.dvd_mul_right 4 _
    · omega
    · omega
  distinct := by
    intro x y o hx hy
    obtain ⟨i, hi, -, ho⟩ := h.exists_index hx
    obtain ⟨j, hj, -, ho'⟩ := h.exists_index hy
    have hij : i = j := by omega
    rw [hij, hj] at hi
    exact (Option.some.inj hi).symm

end Builder

/-- How an operation addresses the stack: an access to a live variable goes to its word in the frame,
and a line that is emitted as it is accesses none. -/
def Op.Addresses (b : Builder) : Op → Prop
  | .store reg x => ∀ o, b.offsets.get? x = some o →
    b.store reg x = b.emit (.instr "sw" [reg, slot (b.delta - o)]) ∧
      0 ≤ b.delta - o ∧ b.delta - o ≤ b.delta - 4
  | .retrieve reg x => ∀ o, b.offsets.get? x = some o →
    b.retrieve reg x = b.emit (.instr "lw" [reg, slot (b.delta - o)]) ∧
      0 ≤ b.delta - o ∧ b.delta - o ≤ b.delta - 4
  | .emit l => l.isAccess = false
  | _ => True

namespace Builder

variable {b b' b'' : Builder}

@[simp] theorem note_delta (wrong : Bool) (s : Slip) : (b.note wrong s).delta = b.delta := by
  cases wrong <;> rfl

@[simp] theorem note_scopes (wrong : Bool) (s : Slip) : (b.note wrong s).scopes = b.scopes := by
  cases wrong <;> rfl

@[simp] theorem note_offsets (wrong : Bool) (s : Slip) :
    (b.note wrong s).offsets = b.offsets := by
  cases wrong <;> rfl

@[simp] theorem note_labels (wrong : Bool) (s : Slip) : (b.note wrong s).labels = b.labels := by
  cases wrong <;> rfl

/-- Only the number of pushed bytes differs. -/
structure Shifts (b b' : Builder) (bytes : Int) : Prop where
  delta : b'.delta = b.delta + bytes
  scopes : b'.scopes = b.scopes
  offsets : b'.offsets = b.offsets
  labels : b'.labels = b.labels

theorem Shifts.refl (b : Builder) : b.Shifts b 0 := ⟨(Int.add_zero _).symm, rfl, rfl, rfl⟩

theorem Shifts.trans {m n : Int} (h : b.Shifts b' m) (h' : b'.Shifts b'' n) :
    b.Shifts b'' (m + n) where
  delta := by rw [h'.delta, h.delta, Int.add_assoc]
  scopes := h'.scopes.trans h.scopes
  offsets := h'.offsets.trans h.offsets
  labels := h'.labels.trans h.labels

theorem shifts_emitAll (b : Builder) (ls : List Line) : b.Shifts (b.emitAll ls) 0 := by
  rw [emitAll_eq_grow []]
  exact ⟨(Int.add_zero _).symm, rfl, rfl, rfl⟩

theorem shifts_push (b : Builder) (reg : Text) : b.Shifts (b.push reg) 4 := ⟨rfl, rfl, rfl, rfl⟩

theorem shifts_pop (b : Builder) (reg : Text) : b.Shifts (b.pop reg) (-4) where
  delta := by
    simp only [pop, note_delta]
    rfl
  scopes := by simp only [pop, note_scopes]; rfl
  offsets := by simp only [pop, note_offsets]; rfl
  labels := by simp only [pop, note_labels]; rfl

theorem shifts_release (b : Builder) (count : Nat) :
    b.Shifts (b.release count) (-(4 * count)) where
  delta := by
    simp only [release, note_delta, wordSize]
    omega
  scopes := note_scopes _ _
  offsets := note_offsets _ _
  labels := note_labels _ _

theorem shifts_retrieve (b : Builder) (reg x : Text) : b.Shifts (b.retrieve reg x) 0 := by
  unfold retrieve
  cases b.offsets.get? x <;> exact shifts_emitAll b [_]

theorem shifts_note (b : Builder) (procs : Table Procedure) (name : Text) :
    b.Shifts (b.run (if procs.contains name then [] else [.noteUnresolved name])) 0 := by
  by_cases h : procs.contains name = true
  · rw [if_pos h]
    exact .refl b
  · rw [if_neg h]
    show b.Shifts (b.noteUnresolved name) 0
    rw [noteUnresolved_eq]
    exact ⟨(Int.add_zero _).symm, rfl, rfl, rfl⟩

mutual

/-- Whatever the account is, the code of an expression leaves it as it was. -/
theorem shifts_exprOps (procs : Table Procedure) (e : Expr) (b : Builder) :
    b.Shifts (b.run (exprOps procs e)) 0 := by
  match e with
  | .literal .. => exact shifts_emitAll b [_]
  | .var v => exact shifts_retrieve b "$v0" v.name
  | .binary _ op left right =>
    have hleft := (shifts_exprOps procs left b).trans (shifts_push _ "$v0")
    have hright := hleft.trans (shifts_exprOps procs right _)
    have hall := (hright.trans (shifts_pop _ "$t0")).trans
      (shifts_emitAll _ ((operatorLines? op).getD []))
    simpa [exprOps, run_append, run_cons, run_emits, Op.apply] using hall
  | .call _ name args =>
    have hnoted := (shifts_note b procs name).trans
      (shifts_emitAll _ [.comment ("call " ++ name)])
    have hargs := (hnoted.trans (shifts_argumentOps procs args _)).trans
      (shifts_emitAll _ [.instr "jal" [procedureLabel name]])
    have hall := hargs.trans (shifts_release _ args.length)
    rw [show (0 + 0 + 4 * (args.length : Int) + 0 + -(4 * (args.length : Int))) = 0 by omega] at hall
    rw [exprOps, run_append, run_append, run_append]
    exact hall
  | .missing => exact .refl b

theorem shifts_argumentOps (procs : Table Procedure) (es : List Expr) (b : Builder) :
    b.Shifts (b.run (argumentOps procs es)) (4 * es.length) := by
  match es with
  | [] => exact .refl b
  | e :: es =>
    have hfirst := (shifts_exprOps procs e b).trans (shifts_push _ "$v0")
    have hall := hfirst.trans (shifts_argumentOps procs es _)
    rw [show (0 + 4 + 4 * (es.length : Int)) = 4 * ((e :: es).length : Int) by
      rw [List.length_cons]; omega] at hall
    rw [argumentOps, run_append, run_append]
    exact hall

end

/-- The innermost scope gets names, with a word and an offset for each. -/
structure Gains (b b' : Builder) (made : List Text) (labels : Nat) : Prop where
  scopes : b'.scopes = b.scopes.modifyHead (made ++ ·)
  delta : b'.delta = b.delta + 4 * made.length
  offsets : ∃ added : Table Int, b'.offsets = b.offsets ++ added ∧ added.names = made.reverse
  fresh : ∀ x ∈ made, b.offsets.contains x = false
  labels : b'.labels = b.labels + labels

theorem Shifts.gains (h : b.Shifts b' 0) : b.Gains b' [] 0 where
  scopes := by
    rw [h.scopes]
    cases b.scopes <;> rfl
  delta := h.delta
  offsets := ⟨[], by rw [h.offsets, List.append_nil], rfl⟩
  fresh := by simp
  labels := h.labels

theorem Gains.trans {made made' : List Text} {k k' : Nat} (h : b.Gains b' made k)
    (h' : b'.Gains b'' made' k') : b.Gains b'' (made' ++ made) (k + k') where
  scopes := by
    rw [h'.scopes, h.scopes]
    cases b.scopes <;> simp
  delta := by
    rw [h'.delta, h.delta, List.length_append]
    push_cast
    omega
  offsets := by
    obtain ⟨added, hadded, hnames⟩ := h.offsets
    obtain ⟨added', hadded', hnames'⟩ := h'.offsets
    refine ⟨added ++ added', by rw [hadded', hadded, List.append_assoc], ?_⟩
    rw [List.reverse_append, ← hnames, ← hnames']
    exact List.map_append
  fresh := by
    intro x hx
    rcases List.mem_append.mp hx with hx | hx
    · -- the later builder knows every name that the earlier one knows
      obtain ⟨added, hadded, -⟩ := h.offsets
      have hlater := h'.fresh x hx
      rw [hadded, Table.contains, Table.get?_append] at hlater
      rw [Table.contains]
      cases hget : b.offsets.get? x with
      | none => rfl
      | some o => simp [hget] at hlater
    · exact h.fresh x hx
  labels := by rw [h'.labels, h.labels, Nat.add_assoc]

theorem gains_store (b : Builder) (reg x : Text) : ∃ made, b.Gains (b.store reg x) made 0 := by
  unfold store
  cases hx : b.offsets.get? x with
  | some o => exact ⟨[], (shifts_emitAll b [_]).gains⟩
  | none =>
    cases hs : b.scopes with
    | nil => exact ⟨[], Shifts.gains ⟨(Int.add_zero _).symm, rfl, rfl, rfl⟩⟩
    | cons owned outer =>
      refine ⟨[x], ?_, rfl, ⟨[(x, b.delta + 4)], ?_, rfl⟩, ?_, rfl⟩
      · rw [hs]
        rfl
      · exact Table.set_of_get?_eq_none hx (b.delta + 4)
      · simp [Table.contains, hx]

theorem Gains.freeScope {made : List Text} {k : Nat} (h : b.beginScope.Gains b' made k) :
    b.Gains b'.freeScope [] k := by
  have hscopes : b'.scopes = made :: b.scopes := by
    rw [h.scopes]
    exact congrArg (· :: b.scopes) (List.append_nil made)
  have hdelta := h.delta
  obtain ⟨added, hadded, hnames⟩ := h.offsets
  have hsame : b.scopes = b.scopes.modifyHead ([] ++ ·) := by cases b.scopes <;> rfl
  cases made with
  | nil =>
    have hempty : added = [] := List.map_eq_nil_iff.mp hnames
    have hfree : b'.freeScope = { b' with scopes := b.scopes } := by
      simp only [Builder.freeScope, hscopes]
    rw [hfree]
    refine ⟨hsame, hdelta, ⟨[], ?_, rfl⟩, by simp, h.labels⟩
    rw [hempty] at hadded
    exact hadded
  | cons x made =>
    have hfree : b'.freeScope =
        { b'.emit (.instr "addu" ["$sp", "$sp", Numeral.ofInt (4 * (x :: made).length)]) with
          delta := b'.delta - 4 * (x :: made).length
          offsets := (x :: made).foldl Table.erase b'.offsets
          scopes := b.scopes } := by
      simp only [Builder.freeScope, hscopes]
      rfl
    rw [hfree]
    refine ⟨hsame, ?_, ⟨[], ?_, rfl⟩, by simp, h.labels⟩
    · show b'.delta - 4 * ((x :: made).length : Int) = b.delta + 4 * (([] : List Text).length : Int)
      rw [hdelta]
      show b.delta + 4 * ((x :: made).length : Int) - 4 * ((x :: made).length : Int) = b.delta + 0
      omega
    · show (x :: made).foldl Table.erase b'.offsets = b.offsets ++ []
      rw [hadded, List.append_nil]
      refine Table.foldl_erase_append h.fresh fun y hy => ?_
      rw [hnames] at hy
      exact List.mem_reverse.mp hy

theorem gains_scopeOps {ops : List Op} {made : List Text} {k : Nat}
    (h : b.beginScope.Gains (b.beginScope.run ops) made k) :
    b.Gains (b.run (scopeOps ops)) [] k := by
  rw [scopeOps, run_append, run_append]
  exact h.freeScope

theorem gains_emits (b : Builder) (ls : List Line) : b.Gains (b.run (ls.map .emit)) [] 0 := by
  rw [run_emits]
  exact (shifts_emitAll b ls).gains

theorem gains_labels (b : Builder) : b.Gains (b.run [.newLabel, .newLabel]) [] 2 where
  scopes := by cases hs : b.scopes <;> simp [run, Op.apply, newLabel, hs]
  delta := (Int.add_zero _).symm
  offsets := ⟨[], (List.append_nil _).symm, rfl⟩
  fresh := by simp
  labels := rfl

mutual

/-- Whatever the account is, the code of a statement adds names to the innermost scope and nothing
else. -/
theorem gains_stmtOps (procs : Table Procedure) (s : Stmt) (k : Nat) (b : Builder) :
    ∃ made, b.Gains (b.run (stmtOps procs k s)) made s.labelCount := by
  match s with
  | .assign _ target value =>
    obtain ⟨made, hmade⟩ := gains_store (b.run (exprOps procs value)) "$v0" target.name
    have hall := (shifts_exprOps procs value b).gains.trans hmade
    rw [stmtOps, run_append]
    exact ⟨_, hall⟩
  | .block _ body => exact gains_stmtsOps procs body k b
  | .ifThen _ cond body =>
    have hcond := (gains_labels b).trans (shifts_exprOps procs cond _).gains
    have hbranch := hcond.trans (gains_emits _ [.instr "beqz" ["$v0", labelName k]])
    obtain ⟨made, hbody⟩ := gains_stmtOps procs body (k + 2) (Builder.beginScope _)
    have hjoined := hbranch.trans (gains_scopeOps hbody)
    have hall := hjoined.trans (gains_emits _ [.instr "j" [labelName (k + 1)],
      .label (labelName k), .marked (labelName (k + 1)) "ENDIF"])
    rw [stmtOps, run_append, run_append, run_append, run_append]
    exact ⟨_, hall⟩
  | .ifElse _ cond body alternative =>
    have hcond := (gains_labels b).trans (shifts_exprOps procs cond _).gains
    have hbranch := hcond.trans (gains_emits _ [.instr "beqz" ["$v0", labelName k]])
    obtain ⟨made, hbody⟩ := gains_stmtOps procs body (k + 2) (Builder.beginScope _)
    have hjumped := (hbranch.trans (gains_scopeOps hbody)).trans
      (gains_emits _ [.instr "j" [labelName (k + 1)], .label (labelName k)])
    obtain ⟨made', halternative⟩ :=
      gains_stmtOps procs alternative (k + 2 + body.labelCount) (Builder.beginScope _)
    have hjoined := hjumped.trans (gains_scopeOps halternative)
    have hall := hjoined.trans (gains_emits _ [.marked (labelName (k + 1)) "ENDIF"])
    rw [stmtOps, run_append, run_append, run_append, run_append, run_append, run_append]
    exact ⟨_, hall⟩
  | .loop _ cond body =>
    have hmarked := (gains_labels b).trans (gains_emits _ [.marked (labelName k) "WHILE"])
    have hcond := hmarked.trans (shifts_exprOps procs cond _).gains
    have hbranch := hcond.trans (gains_emits _ [.instr "beqz" ["$v0", labelName (k + 1)]])
    obtain ⟨made, hbody⟩ := gains_stmtOps procs body (k + 2) (Builder.beginScope _)
    have hjoined := hbranch.trans (gains_scopeOps hbody)
    have hall := hjoined.trans (gains_emits _ [.instr "j" [labelName k],
      .marked (labelName (k + 1)) "ENDWHILE"])
    rw [stmtOps, run_append, run_append, run_append, run_append, run_append]
    exact ⟨_, hall⟩
  | .writeLn _ value =>
    have hall := (shifts_exprOps procs value b).gains.trans (gains_emits _ printLines)
    rw [stmtOps, run_append]
    exact ⟨_, hall⟩
  | .readLn .. => exact ⟨[], (Shifts.refl b).gains⟩
  | .call token name args => exact ⟨[], (shifts_exprOps procs (.call token name args) b).gains⟩
  | .declare .. => exact ⟨[], (Shifts.refl b).gains⟩
  | .missing => exact ⟨[], (Shifts.refl b).gains⟩

theorem gains_stmtsOps (procs : Table Procedure) (ss : List Stmt) (k : Nat) (b : Builder) :
    ∃ made, b.Gains (b.run (stmtsOps procs k ss)) made (Stmt.labelCountAll ss) := by
  match ss with
  | [] => exact ⟨[], (Shifts.refl b).gains⟩
  | s :: ss =>
    obtain ⟨made, hfirst⟩ := gains_stmtOps procs s k b
    obtain ⟨made', hrest⟩ := gains_stmtsOps procs ss (k + s.labelCount) (Builder.run _ _)
    rw [stmtsOps, run_append]
    exact ⟨_, hfirst.trans hrest⟩

end

end Builder

namespace Gen

variable {α β : Type} {procs : Table Procedure} {b : Builder} {ops ops' : List Op}

/-- A computation carries out operations. It stops before their end only at an unsupported part. -/
def Performs (x : Gen α) (b : Builder) (ops : List Op) : Prop :=
  match x b with
  | .ok _ b' => b' = b.run ops
  | .error e b' => (∃ cause pos, e = .unsupported cause pos) ∧ ∃ done, done <+: ops ∧ b' = b.run done

theorem performs_pure (a : α) : Performs (pure a) b [] := rfl

theorem performs_reject {cause : UnsupportedCause} {pos : Position} :
    Performs (reject cause pos : Gen α) b ops :=
  ⟨⟨cause, pos, rfl⟩, [], List.nil_prefix, rfl⟩

theorem performs_modify (op : Op) : Performs (modify fun b => op.apply b) b [op] := rfl

theorem performs_emit (l : Line) : Performs (emit l) b [.emit l] := rfl

theorem Performs.seq {x : Gen α} {y : Gen β} (hx : Performs x b ops)
    (hy : Performs y (b.run ops) ops') : Performs (x >>= fun _ => y) b (ops ++ ops') := by
  unfold Performs at hx hy
  show Performs (EStateM.bind x fun _ => y) b (ops ++ ops')
  unfold Performs EStateM.bind
  cases hrun : x b with
  | ok a b₁ =>
    rw [hrun] at hx
    subst hx
    dsimp only
    cases hrun' : y (b.run ops) with
    | ok c b₂ =>
      rw [hrun'] at hy
      exact hy.trans (b.run_append ops ops').symm
    | error e b₂ =>
      rw [hrun'] at hy
      obtain ⟨hcause, done, hdone, hb₂⟩ := hy
      refine ⟨hcause, ops ++ done, (List.prefix_append_right_inj ops).mpr hdone, ?_⟩
      rw [b.run_append, hb₂]
  | error e b₁ =>
    rw [hrun] at hx
    obtain ⟨hcause, done, hdone, hb₁⟩ := hx
    exact ⟨hcause, done, hdone.trans (List.prefix_append ops ops'), hb₁⟩

theorem performs_checkCall (token : Token) (name : Text) (count : Nat) :
    Performs (checkCall procs token name count) b
      (if procs.contains name then [] else [.noteUnresolved name]) := by
  unfold checkCall
  cases hp : procs.get? name with
  | some p =>
    by_cases hcount : p.params.length = count
    · simp only [Table.contains, hp, hcount, ne_eq, not_true_eq_false, if_false, Option.isSome_some,
        if_true]
      exact performs_pure ()
    · simp only [ne_eq, hcount, not_false_eq_true, if_true]
      exact performs_reject
  | none =>
    simp only [Table.contains, hp, Option.isSome_none, Bool.false_eq_true, if_false]
    exact performs_modify (.noteUnresolved name)

theorem performs_emits (ls : List Line) : Performs (modify (·.emitAll ls)) b (ls.map .emit) :=
  (b.run_emits ls).symm

mutual

theorem performs_expr (procs : Table Procedure) (e : Expr) (b : Builder) :
    Performs (expr procs e) b (exprOps procs e) := by
  match e with
  | .literal token value tag isBool =>
    unfold expr
    by_cases htag : tag = .int
    · rw [if_neg (not_not.mpr htag)]
      exact performs_emit _
    · rw [if_pos htag]
      exact performs_reject
  | .var v =>
    unfold expr
    by_cases htag : v.tag = .int
    · rw [if_neg (not_not.mpr htag)]
      exact performs_modify (.retrieve "$v0" v.name)
    · rw [if_pos htag]
      exact performs_reject
  | .binary token op left right =>
    unfold expr
    by_cases htags : left.tag = right.tag
    · rw [if_neg (not_not.mpr htags)]
      by_cases htag : left.tag = .int
      · rw [if_pos htag]
        cases hop : operatorLines? op with
        | none => exact performs_reject
        | some ls =>
          have happly := (performs_modify (b := ((b.run (exprOps procs left)).push "$v0").run
            (exprOps procs right)) (.pop "$t0")).seq (performs_emits ls)
          have hright := (performs_expr procs right _).seq happly
          have hall := (performs_expr procs left b).seq
            ((performs_modify (.push "$v0")).seq hright)
          rw [exprOps, hop]
          exact hall
      · rw [if_neg htag]
        exact performs_reject
    · rw [if_pos htags]
      exact performs_reject
  | .call token name args =>
    unfold expr
    refine (performs_checkCall token name args.length).seq ((performs_emit _).seq ?_)
    refine (performs_arguments procs args _).seq ?_
    exact (performs_emit _).seq (performs_modify (.release args.length))
  | .missing => exact performs_reject

theorem performs_arguments (procs : Table Procedure) (es : List Expr) (b : Builder) :
    Performs (arguments procs es) b (argumentOps procs es) := by
  match es with
  | [] => exact performs_pure ()
  | e :: es =>
    unfold arguments
    refine (performs_expr procs e b).seq ((performs_modify (.push "$v0")).seq ?_)
    exact performs_arguments procs es _

end

theorem Performs.scope {x : Gen Unit} (h : Performs x b.beginScope ops) :
    Performs (inScope x) b (scopeOps ops) :=
  (performs_modify .beginScope).seq (h.seq (performs_modify .freeScope))

theorem Performs.labels {f : Text → Text → Gen Unit} {k : Nat} (hk : b.labels = k)
    (h : Performs (f (labelName k) (labelName (k + 1))) (b.run [.newLabel, .newLabel]) ops) :
    Performs (newLabel >>= fun l => newLabel >>= fun l' => f l l') b
      ([.newLabel, .newLabel] ++ ops) := by
  subst hk
  exact (performs_modify .newLabel).seq ((performs_modify .newLabel).seq h)

mutual

theorem performs_stmt (procs : Table Procedure) (s : Stmt) {b : Builder} {k : Nat}
    (hk : b.labels = k) : Performs (stmt procs s) b (stmtOps procs k s) := by
  match s with
  | .assign token target value =>
    unfold stmt
    refine (performs_expr procs value b).seq ?_
    by_cases htag : target.tag = .int
    · rw [if_neg (not_not.mpr htag)]
      exact performs_modify (.store "$v0" target.name)
    · rw [if_pos htag]
      exact performs_reject
  | .block token body => exact performs_stmts procs body hk
  | .ifThen token cond body =>
    unfold stmt
    have hcond := (Builder.shifts_exprOps procs cond (b.run [.newLabel, .newLabel])).labels
    refine Performs.labels hk ((performs_expr procs cond _).seq ((performs_emit _).seq
      ((performs_stmt procs body ?_).scope.seq ?_)))
    · exact hcond.trans (congrArg (· + 2) hk)
    · exact (performs_emit _).seq ((performs_emit _).seq (performs_emit _))
  | .ifElse token cond body alternative =>
    unfold stmt
    have hcond := (Builder.shifts_exprOps procs cond (b.run [.newLabel, .newLabel])).labels
    have hstart : ((b.run [.newLabel, .newLabel]).run (exprOps procs cond)).labels = k + 2 :=
      hcond.trans (congrArg (· + 2) hk)
    refine Performs.labels hk ((performs_expr procs cond _).seq ((performs_emit _).seq
      ((performs_stmt procs body ?_).scope.seq ?_)))
    · exact hstart
    refine (performs_emit _).seq ((performs_emit _).seq
      ((performs_stmt procs alternative ?_).scope.seq (performs_emit _)))
    obtain ⟨made, hbody⟩ := Builder.gains_stmtOps procs body (k + 2) (Builder.beginScope
      (Op.apply ((b.run [.newLabel, .newLabel]).run (exprOps procs cond))
        (.emit (.instr "beqz" ["$v0", labelName k]))))
    have hjoined := (Builder.gains_scopeOps hbody).labels
    exact hjoined.trans (congrArg (· + body.labelCount) hstart)
  | .loop token cond body =>
    unfold stmt
    have hcond := (Builder.shifts_exprOps procs cond
      (b.run [.newLabel, .newLabel, .emit (.marked (labelName k) "WHILE")])).labels
    refine Performs.labels hk ((performs_emit _).seq ((performs_expr procs cond _).seq
      ((performs_emit _).seq ((performs_stmt procs body ?_).scope.seq ?_))))
    · exact hcond.trans (congrArg (· + 2) hk)
    · exact (performs_emit _).seq (performs_emit _)
  | .writeLn token value =>
    unfold stmt
    refine (performs_expr procs value b).seq ?_
    by_cases htag : value.tag = .int
    · rw [if_neg (not_not.mpr htag)]
      exact rfl
    · rw [if_pos htag]
      exact performs_reject
  | .readLn .. => exact performs_reject
  | .call token name args => exact performs_expr procs (.call token name args) b
  | .declare .. => exact performs_pure ()
  | .missing => exact performs_reject

theorem performs_stmts (procs : Table Procedure) (ss : List Stmt) {b : Builder} {k : Nat}
    (hk : b.labels = k) : Performs (stmts procs ss) b (stmtsOps procs k ss) := by
  match ss with
  | [] => exact performs_pure ()
  | s :: ss =>
    refine (performs_stmt procs s hk).seq (performs_stmts procs ss ?_)
    obtain ⟨made, hfirst⟩ := Builder.gains_stmtOps procs s k b
    rw [hfirst.labels, hk]

end

end Gen

end Assembly

end MiniPascal
