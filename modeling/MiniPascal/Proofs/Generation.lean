import MiniPascal.Proofs.Emission

/-! The generator emits the lines of `programLines`. Its account of the stack is kept throughout: the
offset of a name is the place of its word, so nothing but an unsupported part of the program stops it. -/

namespace MiniPascal

namespace Table

variable {α : Type}

theorem get?_erase (t : Table α) (name other : Text) :
    (t.erase name).get? other = if other = name then none else t.get? other := by
  induction t with
  | nil => simp [erase]
  | cons entry rest ih =>
    obtain ⟨first, v⟩ := entry
    rw [erase] at ih ⊢
    by_cases hf : first = name
    · rw [List.filter_cons_of_neg (by simpa using hf), ih, get?_cons]
      by_cases ho : other = name <;> simp [ho, hf]
    · rw [List.filter_cons_of_pos (by simpa using hf), get?_cons, get?_cons, ih]
      by_cases ho : other = name
      · simp [ho, Ne.symm hf]
      · simp [ho]

theorem get?_foldl_erase (names : List Text) (t : Table α) (other : Text) :
    (names.foldl erase t).get? other = if other ∈ names then none else t.get? other := by
  induction names generalizing t with
  | nil => simp
  | cons name names ih =>
    rw [List.foldl_cons, ih, get?_erase]
    by_cases hn : other = name <;> by_cases hm : other ∈ names <;> simp [hn, hm]

end Table

namespace Assembly

/-- The calls without a declaration after further calls. -/
def unresolvedAfter (procs : Table Procedure) (seen calls : List Text) : List Text :=
  calls.foldl
    (fun seen name => if procs.contains name || seen.contains name then seen else seen ++ [name])
    seen

theorem unresolvedAfter_append (procs : Table Procedure) (seen calls others : List Text) :
    unresolvedAfter procs seen (calls ++ others) =
      unresolvedAfter procs (unresolvedAfter procs seen calls) others :=
  List.foldl_append

namespace Builder

/-- The words that the account gives a name, the top of the stack first. -/
def names (b : Builder) : List Text := b.scopes.flatten

/-- The account is right with `parked` words above the named ones. -/
structure Accounts (b : Builder) (parked : Nat) : Prop where
  slip : b.slip = none
  delta : b.delta = 4 * (parked + b.names.length)
  offset : ∀ x, b.offsets.get? x =
    (b.names.idxOf? x).map fun i : Nat => 4 * ((b.names.length : Int) - i)
  disjoint : b.scopes.Pairwise List.Disjoint

/-- Further lines and calls. -/
def grow (procs : Table Procedure) (b : Builder) (ls : List Line) (calls : List Text) : Builder :=
  { b with
    lines := ls.reverse ++ b.lines
    unresolved := unresolvedAfter procs b.unresolved calls }

/-- Further words on the stack. -/
def park (b : Builder) (words : Int) : Builder := { b with delta := b.delta + 4 * words }

variable {procs : Table Procedure} {b : Builder} {parked : Nat}

theorem grow_grow (ls ls' : List Line) (calls calls' : List Text) :
    (b.grow procs ls calls).grow procs ls' calls' = b.grow procs (ls ++ ls') (calls ++ calls') := by
  simp [grow, unresolvedAfter_append]

theorem park_grow (words : Int) (ls : List Line) (calls : List Text) :
    (b.park words).grow procs ls calls = (b.grow procs ls calls).park words := rfl

theorem park_park (m n : Int) : (b.park m).park n = b.park (m + n) := by
  simp only [park, Int.mul_add, Int.add_assoc]

theorem park_zero : b.park 0 = b := by simp [park]

theorem emit_eq_grow (procs : Table Procedure) (l : Line) : b.emit l = b.grow procs [l] [] := rfl

theorem emitAll_eq_grow (procs : Table Procedure) (ls : List Line) :
    b.emitAll ls = b.grow procs ls [] := by
  induction ls generalizing b with
  | nil => rfl
  | cons l ls ih => rw [emitAll, List.foldl_cons, ← emitAll, ih, emit_eq_grow procs, grow_grow]; rfl

theorem names_grow (ls : List Line) (calls : List Text) :
    (b.grow procs ls calls).names = b.names := rfl

theorem names_park (words : Int) : (b.park words).names = b.names := rfl

theorem push_eq (procs : Table Procedure) (reg : Text) :
    b.push reg = (b.grow procs (pushLines reg) []).park 1 := by
  rw [push, emitAll_eq_grow procs]
  rfl

theorem Accounts.grow (procs : Table Procedure) (h : b.Accounts parked) (ls : List Line) (calls : List Text) :
    (b.grow procs ls calls).Accounts parked :=
  ⟨h.slip, h.delta, h.offset, h.disjoint⟩

theorem Accounts.relabel (h : b.Accounts parked) (n : Nat) :
    ({ b with labels := n } : Builder).Accounts parked :=
  ⟨h.slip, h.delta, h.offset, h.disjoint⟩

theorem Accounts.park (h : b.Accounts parked) (words : Nat) :
    (b.park words).Accounts (parked + words) := by
  refine ⟨h.slip, ?_, h.offset, h.disjoint⟩
  have hdelta := h.delta
  simp only [Builder.park, names] at hdelta ⊢
  push_cast
  omega

theorem note_false (s : Slip) : b.note false s = b := rfl

theorem pop_eq (procs : Table Procedure) (h : b.Accounts (parked + 1)) (reg : Text) :
    b.pop reg = (b.grow procs (popLines reg) []).park (-1) := by
  have hdelta := h.delta
  have hpos : ¬ b.delta - wordSize < 0 := by
    simp only [wordSize]
    push_cast at hdelta
    omega
  rw [pop, emitAll_eq_grow procs]
  show (note _ (decide (b.delta - wordSize < 0)) _) = _
  rw [decide_eq_false hpos, note_false]
  rfl

theorem release_eq (count : Nat) (h : b.Accounts (parked + count)) :
    b.release count = b.park (-count) := by
  have hdelta := h.delta
  have hpos : ¬ b.delta - count * wordSize < 0 := by
    simp only [wordSize]
    push_cast at hdelta
    omega
  rw [release]
  show (note _ (decide (b.delta - count * wordSize < 0)) _) = _
  rw [decide_eq_false hpos, note_false]
  simp only [park, wordSize]
  congr 1
  omega

theorem Accounts.slot_eq (h : b.Accounts parked) {x : Text} {i : Nat}
    (hi : b.names.idxOf? x = some i) :
    ∃ offset, b.offsets.get? x = some offset ∧
      slot (b.delta - offset) = slot (4 * (parked + i : Nat)) := by
  refine ⟨_, by rw [h.offset, hi, Option.map_some], ?_⟩
  rw [h.delta]
  congr 1
  push_cast
  omega

theorem retrieve_eq (procs : Table Procedure) (h : b.Accounts parked) (reg x : Text) :
    b.retrieve reg x = b.grow procs [retrieveLine b.names parked reg x] [] := by
  unfold retrieve retrieveLine
  cases hi : b.names.idxOf? x with
  | none =>
    have hx : b.offsets.get? x = none := by rw [h.offset, hi, Option.map_none]
    simp only [hx, emit_eq_grow procs]
  | some i =>
    obtain ⟨offset, hx, hslot⟩ := h.slot_eq hi
    simp only [hx, hslot, emit_eq_grow procs]

/-- The builder `b'` follows `b` after lines, labels and calls that leave new words in the innermost
scope. -/
structure Extends (procs : Table Procedure) (b b' : Builder) (made : List Text) (ls : List Line)
    (labels : Nat) (calls : List Text) : Prop where
  accounts : b'.Accounts 0
  lines : b'.lines = ls.reverse ++ b.lines
  scopes : b'.scopes = b.scopes.modifyHead (made ++ ·)
  labels : b'.labels = b.labels + labels
  unresolved : b'.unresolved = unresolvedAfter procs b.unresolved calls

namespace Extends

variable {b' b'' : Builder} {made made' : List Text} {ls ls' : List Line} {k k' : Nat}
  {calls calls' : List Text}

theorem trans (h : Extends procs b b' made ls k calls)
    (h' : Extends procs b' b'' made' ls' k' calls') :
    Extends procs b b'' (made' ++ made) (ls ++ ls') (k + k') (calls ++ calls') where
  accounts := h'.accounts
  lines := by rw [h'.lines, h.lines, List.reverse_append, List.append_assoc]
  scopes := by
    rw [h'.scopes, h.scopes]
    cases b.scopes <;> simp
  labels := by rw [h'.labels, h.labels, Nat.add_assoc]
  unresolved := by rw [h'.unresolved, h.unresolved, unresolvedAfter_append]

end Extends

/-- A builder inside a scope, with no words above the named ones and `k` labels handed out. -/
structure Ready (b : Builder) (names : List Text) (k : Nat) : Prop where
  accounts : b.Accounts 0
  inside : b.scopes ≠ []
  names_eq : b.names = names
  labels_eq : b.labels = k

theorem Ready.after {b' : Builder} {names made : List Text} {ls : List Line} {k n : Nat}
    {calls : List Text} (h : b.Ready names k) (he : Extends procs b b' made ls n calls) :
    b'.Ready (made ++ names) (k + n) := by
  obtain ⟨owned, outer, hb⟩ := List.exists_cons_of_ne_nil h.inside
  have hb' : b'.scopes = (made ++ owned) :: outer := by rw [he.scopes, hb, List.modifyHead_cons]
  refine ⟨he.accounts, ?_, ?_, ?_⟩
  · rw [hb']
    exact List.cons_ne_nil _ _
  · rw [← h.names_eq, Builder.names, hb', Builder.names, hb, List.flatten_cons, List.flatten_cons,
      List.append_assoc]
  · rw [he.labels, h.labels_eq]

theorem Accounts.extends_grow (procs : Table Procedure) (h : b.Accounts 0) (ls : List Line) (calls : List Text) :
    Extends procs b (b.grow procs ls calls) [] ls 0 calls where
  accounts := h.grow procs ls calls
  lines := rfl
  scopes := by cases hs : b.scopes <;> simp [Builder.grow, hs]
  labels := rfl
  unresolved := rfl

theorem Accounts.extends_store (h : b.Accounts 0) (hs : b.scopes ≠ []) (reg x : Text) :
    Extends procs b (b.store reg x) (if x ∈ b.names then [] else [x]) (storeLines b.names reg x)
      0 [] := by
  unfold store storeLines
  cases hi : b.names.idxOf? x with
  | some i =>
    obtain ⟨offset, hx, hslot⟩ := h.slot_eq hi
    have hmem : x ∈ b.names := List.isSome_idxOf?.mp (by rw [hi]; rfl)
    simp only [hx, hslot, Nat.zero_add, if_pos hmem, emit_eq_grow procs]
    exact h.extends_grow procs _ []
  | none =>
    have hmem : x ∉ b.names := List.idxOf?_eq_none_iff.mp hi
    have hx : b.offsets.get? x = none := by rw [h.offset, hi, Option.map_none]
    obtain ⟨owned, outer, hscopes⟩ := List.exists_cons_of_ne_nil hs
    have hdelta := h.delta
    simp only [hx, hscopes, if_neg hmem]
    have hnames : b.names = owned ++ outer.flatten := by rw [names, hscopes, List.flatten_cons]
    refine ⟨⟨h.slip, ?_, ?_, ?_⟩, rfl, by rw [hscopes]; rfl, rfl, rfl⟩
    · show b.delta + 4 = 4 * (((0 : Nat) : Int) + ((x :: (owned ++ outer.flatten)).length : Int))
      rw [← hnames, List.length_cons]
      push_cast
      omega
    · intro y
      show (b.offsets.set x (b.delta + 4)).get? y =
        ((x :: (owned ++ outer.flatten)).idxOf? y).map fun i : Nat =>
          4 * (((x :: (owned ++ outer.flatten)).length : Int) - i)
      rw [← hnames, Table.get?_set, List.idxOf?_cons, List.length_cons]
      by_cases hy : y = x
      · subst hy
        simp only [BEq.rfl, if_true, Option.map_some, Option.some.injEq, hdelta]
        omega
      · have hbeq : (x == y) = false := by simpa using Ne.symm hy
        simp only [if_neg hy, hbeq, Bool.false_eq_true, if_false, h.offset, Option.map_map]
        congr 1
        funext i
        simp only [Function.comp]
        push_cast
        omega
    · have hpair := h.disjoint
      rw [hscopes, List.pairwise_cons] at hpair
      refine List.pairwise_cons.mpr ⟨fun inner hinner => ?_, hpair.2⟩
      rw [List.disjoint_cons_left]
      refine ⟨fun hxi => hmem ?_, hpair.1 inner hinner⟩
      rw [hnames]
      exact List.mem_append_right _ (List.mem_flatten_of_mem hinner hxi)

theorem Accounts.beginScope (h : b.Accounts 0) : b.beginScope.Accounts 0 where
  slip := h.slip
  delta := by simpa [Builder.beginScope, names] using h.delta
  offset := by simpa [Builder.beginScope, names] using h.offset
  disjoint := by
    refine List.pairwise_cons.mpr ⟨fun _ _ => ?_, h.disjoint⟩
    exact List.disjoint_nil_left _

theorem Ready.beginScope {names : List Text} {k : Nat} (h : b.Accounts 0) (hn : b.names = names)
    (hk : b.labels = k) : b.beginScope.Ready names k :=
  ⟨h.beginScope, List.cons_ne_nil _ _, hn, hk⟩

/-- Closing a scope takes the account back to the scopes around it. -/
theorem Accounts.freeScope (h : b.Accounts 0) {owned : List Text} {outer : List (List Text)}
    (hs : b.scopes = owned :: outer) :
    b.freeScope.Accounts 0 ∧ b.freeScope.lines = (freeLines owned.length).reverse ++ b.lines ∧
      b.freeScope.scopes = outer ∧ b.freeScope.labels = b.labels ∧
      b.freeScope.unresolved = b.unresolved := by
  have hnames : b.names = owned ++ outer.flatten := by rw [names, hs, List.flatten_cons]
  have hdelta := h.delta
  have hpair := h.disjoint
  rw [hs, List.pairwise_cons] at hpair
  cases owned with
  | nil =>
    have hfree : b.freeScope = { b with scopes := outer } := by
      simp only [Builder.freeScope, hs]
    have hsame : ({ b with scopes := outer } : Builder).names = b.names := hnames.symm
    rw [hfree]
    refine ⟨⟨h.slip, ?_, ?_, hpair.2⟩, rfl, rfl, rfl, rfl⟩
    · rw [hsame]
      exact hdelta
    · rw [hsame]
      exact h.offset
  | cons x owned =>
    have hfree : b.freeScope =
        { b.emit (.instr "addu" ["$sp", "$sp", Numeral.ofInt (4 * (x :: owned).length)]) with
          delta := b.delta - 4 * (x :: owned).length
          offsets := (x :: owned).foldl Table.erase b.offsets
          scopes := outer } := by
      simp only [Builder.freeScope, hs]
      rfl
    rw [hfree]
    refine ⟨⟨h.slip, ?_, ?_, hpair.2⟩, rfl, rfl, rfl, rfl⟩
    · show b.delta - 4 * ((x :: owned).length : Nat) = 4 * (_ + (outer.flatten.length : Int))
      rw [hdelta, hnames, List.length_append]
      push_cast
      omega
    · intro y
      show ((x :: owned).foldl Table.erase b.offsets).get? y =
        (outer.flatten.idxOf? y).map fun i : Nat => 4 * ((outer.flatten.length : Int) - i)
      rw [Table.get?_foldl_erase, h.offset, hnames, idxOf?_append]
      by_cases hy : y ∈ x :: owned
      · have hout : y ∉ outer.flatten := by
          intro hmem
          obtain ⟨inner, hinner, hyi⟩ := List.mem_flatten.mp hmem
          exact hpair.1 inner hinner hy hyi
        rw [if_pos hy, List.idxOf?_eq_none_iff.mpr hout, Option.map_none]
      · rw [if_neg hy, List.idxOf?_eq_none_iff.mpr hy, Option.none_or, Option.map_map]
        congr 1
        funext i
        simp only [Function.comp, List.length_append]
        push_cast
        omega

theorem get?_setAll_paramOffsets (params : List Text) (t : Table Int) (first : Int) (x : Text) :
    (t.setAll (paramOffsets first params)).get? x =
      ((params.reverse.idxOf? x).map fun i : Nat =>
        first + 4 * ((params.length : Int) - 1 - i)).or (t.get? x) := by
  induction params generalizing t first with
  | nil => rfl
  | cons param params ih =>
    rw [paramOffsets, Table.setAll, ih, List.reverse_cons, idxOf?_append, Table.get?_set]
    cases params.reverse.idxOf? x with
    | some i =>
      simp only [Option.map_some, Option.some_or, Option.some.injEq, List.length_cons, wordSize]
      push_cast
      omega
    | none =>
      by_cases hx : x = param
      · subst hx
        simp
      · have hbeq : (param == x) = false := by simpa using Ne.symm hx
        simp [hx, hbeq]

theorem linkProcedure_eq (h : b.Accounts 0) (hs : b.scopes = []) (params : List Text) :
    b.linkProcedure params =
      { b with
        delta := params.length * 4
        offsets := b.offsets.setAll (paramOffsets 4 params)
        scopes := [params.reverse] } := by
  have hdelta : b.delta = 0 := by rw [h.delta, names, hs]; rfl
  simp [Builder.linkProcedure, hs, hdelta, note, wordSize]

theorem Ready.linkProcedure (h : b.Accounts 0) (hs : b.scopes = []) (params : List Text) :
    (b.linkProcedure params).Ready params.reverse b.labels := by
  have hlink := linkProcedure_eq h hs params
  have hnames : (b.linkProcedure params).names = params.reverse := by
    rw [hlink]
    exact List.append_nil _
  refine ⟨⟨?_, ?_, ?_, ?_⟩, ?_, hnames, ?_⟩
  · rw [hlink]
    exact h.slip
  · rw [hnames, hlink, List.length_reverse]
    push_cast
    omega
  · intro x
    have hnone : b.offsets.get? x = none := by rw [h.offset, names, hs]; rfl
    rw [hnames, hlink, get?_setAll_paramOffsets, hnone, Option.or_none, List.length_reverse]
    congr 1
    funext i
    omega
  · rw [hlink]
    exact List.pairwise_singleton _ _
  · rw [hlink]
    exact List.cons_ne_nil _ _
  · rw [hlink]

theorem Extends.freeScope {b' : Builder} {made : List Text} {ls : List Line} {k : Nat}
    {calls : List Text} (h : Extends procs b.beginScope b' made ls k calls) :
    Extends procs b b'.freeScope [] (ls ++ freeLines made.length) k calls := by
  have hscopes : b'.scopes = made :: b.scopes := by
    rw [h.scopes]
    simp [Builder.beginScope]
  obtain ⟨haccounts, hlines, houter, hlabels, hunresolved⟩ := h.accounts.freeScope hscopes
  refine ⟨haccounts, ?_, ?_, hlabels.trans h.labels, hunresolved.trans h.unresolved⟩
  · rw [hlines, h.lines, List.reverse_append, List.append_assoc]
    rfl
  · rw [houter]
    cases b.scopes <;> simp

end Builder

namespace Gen

variable {α β : Type} {procs : Table Procedure} {b : Builder} {parked : Nat}

/-- A computation that ends well ends as `Q` says, and fails only at an unsupported part. -/
def Ensures (x : Gen α) (b : Builder) (Q : α → Builder → Prop) : Prop :=
  match x b with
  | .ok a b' => Q a b'
  | .error e _ => ∃ cause pos, e = .unsupported cause pos

theorem ensures_pure {a : α} {Q : α → Builder → Prop} (h : Q a b) :
    Ensures (pure a) b Q := h

theorem ensures_modify {f : Builder → Builder} {Q : Unit → Builder → Prop} (h : Q () (f b)) :
    Ensures (modify f) b Q := h

theorem ensures_reject {cause : UnsupportedCause} {pos : Position} {Q : α → Builder → Prop} :
    Ensures (reject cause pos) b Q := ⟨cause, pos, rfl⟩

theorem Ensures.bind {x : Gen α} {f : α → Gen β} {Q : α → Builder → Prop}
    {R : β → Builder → Prop} (hx : Ensures x b Q) (hf : ∀ a b', Q a b' → Ensures (f a) b' R) :
    Ensures (x >>= f) b R := by
  unfold Ensures at hx
  show Ensures (EStateM.bind x f) b R
  unfold Ensures EStateM.bind
  cases h : x b with
  | ok a b' =>
    rw [h] at hx
    exact hf a b' hx
  | error e b' =>
    rw [h] at hx
    exact hx

theorem Ensures.mono {x : Gen α} {Q R : α → Builder → Prop} (hx : Ensures x b Q)
    (hQR : ∀ a b', Q a b' → R a b') : Ensures x b R := by
  unfold Ensures at hx ⊢
  cases h : x b with
  | ok a b' =>
    rw [h] at hx
    exact hQR a b' hx
  | error e b' =>
    rw [h] at hx
    exact hx

theorem Ensures.modify_bind {f : Builder → Builder} {g : Unit → Gen β} {R : β → Builder → Prop}
    (h : Ensures (g ()) (f b) R) : Ensures (modify f >>= g) b R := h

theorem checkCall_ensures (token : Token) (name : Text) (count : Nat) :
    Ensures (checkCall procs token name count) b fun _ b' =>
      (∀ p, procs.get? name = some p → p.params.length = count) ∧
        b' = b.grow procs [] [name] := by
  unfold checkCall
  cases hp : procs.get? name with
  | some p =>
    by_cases hcount : p.params.length = count
    · have hknown : procs.contains name = true := by rw [Table.contains, hp]; rfl
      simp only [hcount, ne_eq, not_true_eq_false, if_false]
      refine ensures_pure ⟨fun q hq => ?_, ?_⟩
      · rw [← Option.some.inj hq, hcount]
      · simp [Builder.grow, unresolvedAfter, hknown]
    · simp only [ne_eq, hcount, not_false_eq_true, if_true]
      exact ensures_reject
  | none =>
    have hunknown : procs.contains name = false := by rw [Table.contains, hp]; rfl
    refine ensures_modify ⟨fun q hq => absurd hq (Option.some_ne_none q).symm, ?_⟩
    unfold Builder.noteUnresolved
    by_cases hseen : name ∈ b.unresolved
    · simp [Builder.grow, unresolvedAfter, hunknown, hseen]
    · simp [Builder.grow, unresolvedAfter, hunknown, hseen]

mutual

theorem expr_ensures (e : Expr) (b : Builder) (parked : Nat) (h : b.Accounts parked) :
    Ensures (expr procs e) b fun _ b' =>
      e.Supported procs ∧ b' = b.grow procs (exprLines b.names parked e) e.calls := by
  match e with
  | .literal token value tag isBool =>
    unfold expr
    by_cases htag : tag = .int
    · rw [if_neg (not_not.mpr htag)]
      exact ensures_modify ⟨htag, rfl⟩
    · rw [if_pos htag]
      exact ensures_reject
  | .var v =>
    unfold expr
    by_cases htag : v.tag = .int
    · rw [if_neg (not_not.mpr htag)]
      exact ensures_modify ⟨htag, Builder.retrieve_eq procs h "$v0" v.name⟩
    · rw [if_pos htag]
      exact ensures_reject
  | .binary token op left right =>
    unfold expr
    by_cases htags : left.tag = right.tag
    · rw [if_neg (not_not.mpr htags)]
      by_cases htag : left.tag = .int
      · rw [if_pos htag]
        cases hop : operatorLines? op with
        | none => exact ensures_reject
        | some ls =>
          refine (expr_ensures left b parked h).bind fun _ b₁ ⟨hleft, hb₁⟩ => ?_
          subst hb₁
          refine Ensures.modify_bind ?_
          rw [Builder.push_eq procs, Builder.grow_grow]
          have hpushed := (h.grow procs (exprLines b.names parked left ++ pushLines "$v0")
            (left.calls ++ [])).park 1
          refine (expr_ensures right _ (parked + 1) hpushed).bind fun _ b₂ ⟨hright, hb₂⟩ => ?_
          subst hb₂
          refine Ensures.modify_bind ?_
          rw [Builder.pop_eq procs (hpushed.grow procs _ _)]
          refine ensures_modify ⟨?_, ?_⟩
          · exact ⟨htag, htags ▸ htag, by rw [hop]; rfl, hleft, hright⟩
          · rw [Builder.emitAll_eq_grow procs]
            simp only [Builder.park_grow, Builder.grow_grow, Builder.park_park, Builder.names_park,
              Builder.names_grow, exprLines, hop, Expr.calls, Option.getD_some, List.append_nil,
              List.append_assoc]
            exact Builder.park_zero
      · rw [if_neg htag]
        exact ensures_reject
    · rw [if_pos htags]
      exact ensures_reject
  | .call token name args =>
    unfold expr
    refine (checkCall_ensures token name args.length).bind fun _ b₁ ⟨harity, hb₁⟩ => ?_
    subst hb₁
    refine Ensures.modify_bind ?_
    rw [Builder.emit_eq_grow procs, Builder.grow_grow]
    refine (arguments_ensures args _ parked (h.grow procs _ _)).bind fun _ b₂ ⟨hargs, hb₂⟩ => ?_
    subst hb₂
    refine Ensures.modify_bind ?_
    rw [Builder.emit_eq_grow procs]
    refine ensures_modify ⟨⟨harity, hargs⟩, ?_⟩
    rw [Builder.release_eq args.length ((((h.grow procs _ _).grow procs _ _).park _).grow procs _ _)]
    simp only [Builder.park_grow, Builder.grow_grow, Builder.park_park, Builder.names_grow,
      exprLines, Expr.calls, List.append_nil, List.append_assoc]
    rw [Int.add_right_neg, Builder.park_zero]
    rfl
  | .missing => exact ensures_reject

theorem arguments_ensures (es : List Expr) (b : Builder) (parked : Nat) (h : b.Accounts parked) :
    Ensures (arguments procs es) b fun _ b' =>
      Expr.SupportedAll procs es ∧
        b' = (b.grow procs (argumentLines b.names parked es) (Expr.callsAll es)).park es.length := by
  match es with
  | [] => exact ensures_pure ⟨trivial, Builder.park_zero.symm⟩
  | e :: es =>
    unfold arguments
    refine (expr_ensures e b parked h).bind fun _ b₁ ⟨he, hb₁⟩ => ?_
    subst hb₁
    refine Ensures.modify_bind ?_
    rw [Builder.push_eq procs, Builder.grow_grow]
    have hpushed := (h.grow procs (exprLines b.names parked e ++ pushLines "$v0")
      (e.calls ++ [])).park 1
    refine (arguments_ensures es _ (parked + 1) hpushed).mono fun _ b₂ ⟨hes, hb₂⟩ => ?_
    subst hb₂
    refine ⟨⟨he, hes⟩, ?_⟩
    simp only [Builder.park_grow, Builder.grow_grow, Builder.park_park, Builder.names_park,
      Builder.names_grow, argumentLines, Expr.callsAll, List.append_nil, List.append_assoc,
      List.length_cons]
    congr 1
    push_cast
    omega

end

/-- Code that, where the program has the property `P`, extends the builder as given. -/
def Emits (procs : Table Procedure) (x : Gen Unit) (b : Builder) (P : Prop) (made : List Text)
    (ls : List Line) (labels : Nat) (calls : List Text) : Prop :=
  Ensures x b fun _ b' => P ∧ Builder.Extends procs b b' made ls labels calls

section Emits

variable {x y : Gen Unit} {P P' Q : Prop} {names made made' : List Text} {ls ls' : List Line}
  {k k' n : Nat} {calls calls' : List Text}

theorem Emits.seq (h : b.Ready names n) (hx : Emits procs x b P made ls k calls)
    (hy : ∀ b' : Builder, b'.Ready (made ++ names) (n + k) →
      Emits procs y b' Q made' ls' k' calls') :
    Emits procs (x >>= fun _ => y) b (P ∧ Q) (made' ++ made) (ls ++ ls') (k + k')
      (calls ++ calls') := by
  refine Ensures.bind hx fun _ b₁ ⟨hP, h₁⟩ => ?_
  exact (hy b₁ (h.after h₁)).mono fun _ b₂ ⟨hQ, h₂⟩ => ⟨⟨hP, hQ⟩, h₁.trans h₂⟩

theorem Emits.of_eq (hx : Emits procs x b P made ls k calls) (hP : P → P') (hmade : made = made')
    (hls : ls = ls') (hk : k = k') (hcalls : calls = calls') :
    Emits procs x b P' made' ls' k' calls' := by
  subst hmade hls hk hcalls
  exact hx.mono fun _ _ ⟨h, hext⟩ => ⟨hP h, hext⟩

theorem emits_pure (h : b.Ready names n) : Emits procs (pure ()) b True [] [] 0 [] :=
  ensures_pure ⟨trivial, h.accounts.extends_grow procs [] []⟩

theorem emits_emit (h : b.Ready names n) (l : Line) : Emits procs (emit l) b True [] [l] 0 [] :=
  ensures_modify ⟨trivial, h.accounts.extends_grow procs [l] []⟩

theorem emits_printValue (h : b.Ready names n) :
    Emits procs printValue b True [] printLines 0 [] :=
  ensures_modify ⟨trivial, h.accounts.extends_grow procs printLines []⟩

theorem emits_expr (h : b.Ready names n) (e : Expr) :
    Emits procs (expr procs e) b (e.Supported procs) [] (exprLines names 0 e) 0 e.calls := by
  obtain ⟨haccounts, -, rfl, -⟩ := h
  exact (expr_ensures e b 0 haccounts).mono fun _ _ ⟨hsupported, hb⟩ =>
    ⟨hsupported, hb ▸ haccounts.extends_grow procs _ _⟩

theorem emits_store (h : b.Ready names n) (reg name : Text) :
    Emits procs (modify (·.store reg name)) b True (if name ∈ names then [] else [name])
      (storeLines names reg name) 0 [] := by
  obtain ⟨haccounts, hinside, rfl, -⟩ := h
  exact ensures_modify ⟨trivial, haccounts.extends_store hinside reg name⟩

theorem emits_retrieve (h : b.Ready names n) (reg name : Text) :
    Emits procs (modify (·.retrieve reg name)) b True [] [retrieveLine names 0 reg name] 0 [] := by
  obtain ⟨haccounts, -, rfl, -⟩ := h
  have hb := Builder.retrieve_eq procs haccounts reg name
  exact ensures_modify ⟨trivial, hb ▸ haccounts.extends_grow procs _ _⟩

theorem Emits.inScope (hx : Emits procs x b.beginScope P made ls k calls) :
    Emits procs (inScope x) b P [] (ls ++ freeLines made.length) k calls :=
  Ensures.modify_bind (Ensures.bind hx fun _ _ ⟨hP, hext⟩ => ensures_modify ⟨hP, hext.freeScope⟩)

theorem Emits.labels {f : Text → Text → Gen Unit} (h : b.Ready names n)
    (hx : ∀ b' : Builder, b'.Ready names (n + 2) →
      Emits procs (f (labelName n) (labelName (n + 1))) b' P made ls k calls) :
    Emits procs (newLabel >>= fun l => newLabel >>= fun l' => f l l') b P made ls (2 + k)
      calls := by
  obtain ⟨haccounts, hinside, hnames, rfl⟩ := h
  refine Ensures.mono (x := newLabel >>= fun l => newLabel >>= fun l' => f l l')
    (hx { b with labels := b.labels + 2 } ⟨haccounts.relabel _, hinside, hnames, rfl⟩) ?_
  intro _ b' ⟨hP, hext⟩
  refine ⟨hP, hext.accounts, hext.lines, hext.scopes, ?_, hext.unresolved⟩
  rw [hext.labels, Nat.add_assoc]

end Emits

mutual

theorem emits_stmt (s : Stmt) {b : Builder} {names : List Text} {k : Nat} (h : b.Ready names k) :
    Emits procs (stmt procs s) b (s.Supported procs) (s.made names) (stmtLines names k s)
      s.labelCount s.calls := by
  match s with
  | .assign token target value =>
    unfold stmt
    by_cases htag : target.tag = .int
    · simp only [htag, ne_eq, not_true_eq_false, if_false]
      refine (Emits.seq h (emits_expr h value) fun b₁ h₁ => emits_store h₁ "$v0" target.name).of_eq
        (fun hP => ⟨hP.1, htag⟩) (List.append_nil _) rfl rfl (List.append_nil _)
    · simp only [ne_eq, htag, not_false_eq_true, if_true]
      exact Ensures.bind (emits_expr h value) fun _ _ _ => ensures_reject
  | .block token body => exact emits_stmts body h
  | .ifThen token cond body =>
    unfold stmt
    refine (Emits.labels h fun b₀ h₀ => Emits.seq h₀ (emits_expr h₀ cond) fun b₁ h₁ =>
      Emits.seq h₁ (emits_emit h₁ _) fun b₂ h₂ =>
      Emits.seq h₂ (emits_branch body h₂) fun b₃ h₃ =>
      Emits.seq h₃ (emits_emit h₃ _) fun b₄ h₄ =>
      Emits.seq h₄ (emits_emit h₄ _) fun b₅ h₅ => emits_emit h₅ _).of_eq
      (fun hP => ⟨hP.1, hP.2.2.1⟩) rfl ?_ ?_ ?_
    · simp [stmtLines, scopeLines]
    · simp only [Stmt.labelCount]
      omega
    · simp [Stmt.calls]
  | .ifElse token cond body alternative =>
    unfold stmt
    refine (Emits.labels h fun b₀ h₀ => Emits.seq h₀ (emits_expr h₀ cond) fun b₁ h₁ =>
      Emits.seq h₁ (emits_emit h₁ _) fun b₂ h₂ =>
      Emits.seq h₂ (emits_branch body h₂) fun b₃ h₃ =>
      Emits.seq h₃ (emits_emit h₃ _) fun b₄ h₄ =>
      Emits.seq h₄ (emits_emit h₄ _) fun b₅ h₅ =>
      Emits.seq h₅ (emits_branch alternative h₅) fun b₆ h₆ => emits_emit h₆ _).of_eq
      (fun hP => ⟨hP.1, hP.2.2.1, hP.2.2.2.2.2.1⟩) rfl ?_ ?_ ?_
    · simp [stmtLines, scopeLines]
    · simp only [Stmt.labelCount]
      omega
    · simp [Stmt.calls]
  | .loop token cond body =>
    unfold stmt
    refine (Emits.labels h fun b₀ h₀ => Emits.seq h₀ (emits_emit h₀ _) fun b₁ h₁ =>
      Emits.seq h₁ (emits_expr h₁ cond) fun b₂ h₂ =>
      Emits.seq h₂ (emits_emit h₂ _) fun b₃ h₃ =>
      Emits.seq h₃ (emits_branch body h₃) fun b₄ h₄ =>
      Emits.seq h₄ (emits_emit h₄ _) fun b₅ h₅ => emits_emit h₅ _).of_eq
      (fun hP => ⟨hP.2.1, hP.2.2.2.1⟩) rfl ?_ ?_ ?_
    · simp [stmtLines, scopeLines]
    · simp only [Stmt.labelCount]
      omega
    · simp [Stmt.calls]
  | .writeLn token value =>
    unfold stmt
    by_cases htag : value.tag = .int
    · simp only [htag, ne_eq, not_true_eq_false, if_false]
      exact (Emits.seq h (emits_expr h value) fun b₁ h₁ => emits_printValue h₁).of_eq
        (fun hP => ⟨hP.1, htag⟩) rfl rfl rfl (List.append_nil _)
    · simp only [ne_eq, htag, not_false_eq_true, if_true]
      exact Ensures.bind (emits_expr h value) fun _ _ _ => ensures_reject
  | .readLn .. => exact ensures_reject
  | .call token name args => exact (emits_expr h (.call token name args)).of_eq id rfl rfl rfl rfl
  | .declare .. => exact emits_pure h
  | .missing => exact ensures_reject

theorem emits_branch (s : Stmt) {b : Builder} {names : List Text} {k : Nat}
    (h : b.Ready names k) :
    Emits procs (inScope (stmt procs s)) b (s.Supported procs) [] (scopeLines names k s)
      s.labelCount s.calls :=
  (emits_stmt s (.beginScope h.accounts h.names_eq h.labels_eq)).inScope

theorem emits_stmts (ss : List Stmt) {b : Builder} {names : List Text} {k : Nat}
    (h : b.Ready names k) :
    Emits procs (stmts procs ss) b (Stmt.SupportedAll procs ss) (Stmt.madeAll names ss)
      (stmtsLines names k ss) (Stmt.labelCountAll ss) (Stmt.callsAll ss) := by
  match ss with
  | [] => exact emits_pure h
  | s :: ss => exact Emits.seq h (emits_stmt s h) fun b₁ h₁ => emits_stmts ss h₁

end

theorem balanced_eq (part : Text) (h : b.Accounts 0) (hs : b.scopes = []) :
    balanced part b = .ok () b := by
  have hdelta : b.delta = 0 := by rw [h.delta, Builder.names, hs]; rfl
  have hcheck : b.checkBalanced = .ok () := by
    simp [Builder.checkBalanced, h.slip, hs, hdelta]
  simp only [balanced, bind, EStateM.bind, get, getThe, MonadStateOf.get, EStateM.get, hcheck]
  rfl

theorem balanced_ensures {Q : Unit → Builder → Prop} (part : Text) (h : b.Accounts 0)
    (hs : b.scopes = []) (hQ : Q () b) : Ensures (balanced part) b Q := by
  unfold Ensures
  rw [balanced_eq part h hs]
  exact hQ

theorem made_append_eq_bindName (names : List Text) (name : Text) :
    (if name ∈ names then [] else [name]) ++ names = bindName names name := by
  unfold bindName
  by_cases h : name ∈ names <;> simp [h]

theorem emits_procedure (p : Procedure) (h : b.Accounts 0) (hs : b.scopes = []) :
    Emits procs (procedure procs p) b (p.body.Supported procs) [] (procedureLines b.labels p)
      p.body.labelCount p.body.calls := by
  have hsplit : procedure procs p = (do
      modify (·.linkProcedure (p.params.map Variable.name))
      (do
        emit (.label (procedureLabel p.name))
        instr "li" ["$v0", "0"]
        modify (·.store "$v0" p.name)
        modify (·.store "$ra" "$ra")
        stmt procs p.body
        modify (·.retrieve "$v0" p.name)
        modify (·.retrieve "$ra" "$ra"))
      modify (·.freeScope)
      instr "jr" ["$ra"]
      balanced ("procedure " ++ p.name)) := by
    simp only [procedure, bind_assoc]
  rw [hsplit]
  refine Ensures.modify_bind ?_
  have h₀ := Builder.Ready.linkProcedure h hs (p.params.map Variable.name)
  refine Ensures.bind (Emits.seq h₀ (emits_emit h₀ _) fun b₁ h₁ =>
    Emits.seq h₁ (emits_emit h₁ _) fun b₂ h₂ =>
    Emits.seq h₂ (emits_store h₂ "$v0" p.name) fun b₃ h₃ =>
    Emits.seq h₃ (emits_store h₃ "$ra" "$ra") fun b₄ h₄ =>
    Emits.seq h₄ (emits_stmt p.body h₄) fun b₅ h₅ =>
    Emits.seq h₅ (emits_retrieve h₅ "$v0" p.name) fun b₆ h₆ =>
    emits_retrieve h₆ "$ra" "$ra") fun _ b₇ ⟨hP, hext⟩ => ?_
  simp only [List.nil_append, List.append_nil, Nat.add_zero, Nat.zero_add,
    made_append_eq_bindName] at hext
  have hlink := Builder.linkProcedure_eq h hs (p.params.map Variable.name)
  have hscopes : b₇.scopes = [exitNames p] := by
    rw [hext.scopes, hlink, List.modifyHead_cons]
    simp only [List.append_assoc, made_append_eq_bindName]
    rfl
  obtain ⟨haccounts, hlines, houter, hlabels, hunresolved⟩ := hext.accounts.freeScope hscopes
  refine Ensures.modify_bind (Ensures.modify_bind ?_)
  rw [Builder.emit_eq_grow procs]
  refine balanced_ensures _ (haccounts.grow procs _ _) houter ⟨hP.2.2.2.2.1, ?_⟩
  refine ⟨haccounts.grow procs _ _, ?_, ?_, ?_, ?_⟩
  · show [Line.instr "jr" ["$ra"]] ++ b₇.freeScope.lines = _
    rw [hlines, hext.lines, hlink]
    simp only [procedureLines, entryNames, exitNames, paramNames, List.reverse_append,
      List.append_assoc]
    rfl
  · show b₇.freeScope.scopes = _
    rw [houter, hs]
    rfl
  · show b₇.freeScope.labels = _
    rw [hlabels, hext.labels, hlink]
  · show b₇.freeScope.unresolved = _
    rw [hunresolved, hext.unresolved, hlink]

theorem emits_procedures (ds : List Declaration) {b : Builder} (h : b.Accounts 0)
    (hs : b.scopes = []) :
    Emits procs (procedures procs ds) b (∀ d ∈ ds, d.procedure.body.Supported procs) []
      (proceduresLines b.labels ds) (ds.map fun d => d.procedure.body.labelCount).sum
      (ds.flatMap fun d => d.procedure.body.calls) := by
  induction ds generalizing b with
  | nil =>
    exact ensures_pure ⟨fun d hd => absurd hd List.not_mem_nil, h.extends_grow procs [] []⟩
  | cons d ds ih =>
    refine Ensures.bind (emits_procedure d.procedure h hs) fun _ b₁ ⟨hd, h₁⟩ => ?_
    have hs₁ : b₁.scopes = [] := by rw [h₁.scopes, hs]; rfl
    refine (ih h₁.accounts hs₁).mono fun _ b₂ ⟨hds, h₂⟩ => ⟨?_, ?_⟩
    · exact List.forall_mem_cons.mpr ⟨hd, hds⟩
    · have hall := h₁.trans h₂
      rw [h₁.labels] at hall
      exact hall

theorem accounts_empty : ({} : Builder).Accounts 0 :=
  ⟨rfl, rfl, fun _ => rfl, List.Pairwise.nil⟩

theorem emits_mainScope (body : Option Stmt) (h : b.Accounts 0) (hn : b.names = [])
    (hk : b.labels = 0) :
    Emits procs (inScope (match body with
      | none => return
      | some s => stmt procs s)) b (∀ s, body = some s → s.Supported procs) []
      (body.elim [] (scopeLines [] 0)) (body.elim 0 Stmt.labelCount)
      (body.elim [] Stmt.calls) := by
  have hready := Builder.Ready.beginScope h hn hk
  cases body with
  | none => exact (emits_pure hready).inScope.of_eq (fun _ s hs => nomatch hs) rfl rfl rfl rfl
  | some s =>
    exact (emits_stmt s hready).inScope.of_eq (fun h t ht => Option.some.inj ht ▸ h) rfl rfl rfl rfl

theorem emits_mainPart (procs : Table Procedure) (body : Option Stmt) :
    Emits procs (mainPart procs body) {} (∀ s, body = some s → s.Supported procs) []
      (mainLines body) (body.elim 0 Stmt.labelCount) (body.elim [] Stmt.calls) := by
  unfold mainPart
  refine Ensures.modify_bind (Ensures.modify_bind (Ensures.modify_bind ?_))
  have hstart := accounts_empty.extends_grow procs
    [.plain ".text", .plain ".globl main", .label "main"] []
  refine Ensures.bind (emits_mainScope body hstart.accounts rfl rfl) fun _ b₁ ⟨hP, h₁⟩ => ?_
  have hs₁ : b₁.scopes = [] := by rw [h₁.scopes]; rfl
  refine Ensures.bind (balanced_ensures (Q := fun _ b' => b' = b₁) "main" h₁.accounts hs₁ rfl)
    fun _ b₂ hb₂ => ?_
  subst hb₂
  have hend := h₁.accounts.extends_grow procs [.instr "li" ["$v0", "10"], .instr "syscall" []] []
  have hall := hstart.trans (h₁.trans hend)
  simp only [List.append_nil, List.nil_append, Nat.add_zero, Nat.zero_add,
    ← List.append_assoc] at hall
  exact Ensures.modify_bind (ensures_modify ⟨hP, hall⟩)

theorem nodup_of_firstRepeated (ds : List Declaration) (seen : List Text)
    (h : firstRepeated seen ds = none) :
    (ds.map fun d => d.procedure.name).Nodup ∧ ∀ d ∈ ds, d.procedure.name ∉ seen := by
  induction ds generalizing seen with
  | nil => simp
  | cons d ds ih =>
    rw [firstRepeated] at h
    by_cases hd : seen.contains d.procedure.name = true
    · rw [if_pos hd] at h
      exact nomatch h
    · rw [if_neg hd] at h
      obtain ⟨hnodup, hfresh⟩ := ih (d.procedure.name :: seen) h
      have hd' : d.procedure.name ∉ seen := by simpa using hd
      refine ⟨List.nodup_cons.mpr ⟨?_, hnodup⟩, List.forall_mem_cons.mpr ⟨hd', ?_⟩⟩
      · intro hmem
        obtain ⟨c, hc, hname⟩ := List.mem_map.mp hmem
        exact hfresh c hc (hname ▸ List.mem_cons_self)
      · exact fun c hc hseen => hfresh c hc (List.mem_cons_of_mem _ hseen)

theorem emits_program (p : Program) :
    Emits p.table (program p) {} p.Supported [] (programLines p) p.labelCount p.calls := by
  unfold program
  cases hrep : firstRepeated [] p.declarations with
  | some d => exact ensures_reject
  | none =>
    refine Ensures.bind (emits_mainPart p.table p.main) fun _ b₁ ⟨hmain, h₁⟩ => ?_
    have hs₁ : b₁.scopes = [] := by rw [h₁.scopes]; rfl
    refine (emits_procedures p.declarations h₁.accounts hs₁).mono
      fun _ b₂ ⟨hbodies, h₂⟩ => ⟨⟨?_, hmain, hbodies⟩, ?_⟩
    · have hnodup := (nodup_of_firstRepeated p.declarations [] hrep).1
      simpa [Program.table, Table.names, Function.comp_def] using hnodup
    · have hall := h₁.trans h₂
      rw [h₁.labels] at hall
      simpa [programLines, Program.labelCount, Program.calls] using hall

end Gen

/-- A program has machine code. -/
def Compiles (p : Program) : Prop := (generate p).error = none

theorem Compiles.extends {p : Program} (h : Compiles p) :
    p.Supported ∧
      Builder.Extends p.table {} (generate p).builder [] (programLines p) p.labelCount p.calls := by
  have hemits := Gen.emits_program p
  unfold Compiles generate at h
  unfold generate
  unfold Gen.Emits Gen.Ensures at hemits
  cases hrun : Gen.program p {} with
  | ok a b =>
    rw [hrun] at hemits
    exact hemits
  | error e b =>
    rw [hrun] at h
    exact nomatch h

theorem Compiles.supported {p : Program} (h : Compiles p) : p.Supported := h.extends.1

theorem Compiles.render_eq {p : Program} (h : Compiles p) :
    (generate p).builder.render = (programLines p).flatMap Line.render := by
  have hlines := h.extends.2.lines
  simp [Builder.render, hlines]

theorem Compiles.unresolved_eq {p : Program} (h : Compiles p) :
    (generate p).builder.unresolved = unresolvedAfter p.table [] p.calls :=
  h.extends.2.unresolved

end Assembly

end MiniPascal
