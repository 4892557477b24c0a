import MiniPascal.Proofs.Bookkeeping

/-! What the account of the stack notices by itself. A slip stays noted, and a pop or a release that goes
below the base of the frame is noted at once. The end of a scope notes nothing, so the account misses a
stack that went below its base exactly where a scope is freed whose words were taken off before. All this
is about operations that move fewer than 2 ^ 61 words in all: a counter of 64 bits then shows the
balance, and no sum wraps. -/

namespace MiniPascal

namespace Assembly

/-- The words that an operation may put on the stack or take off it by itself. The end of a scope takes
off what other operations have put there. -/
def Op.words : Op → Nat
  | push _ => 1
  | pop _ => 1
  | release count => count
  | store _ _ => 1
  | link params => params.length
  | _ => 0

/-- The words that operations move in all. -/
def volume (ops : List Op) : Nat := (ops.map Op.words).sum

theorem volume_append (ops ops' : List Op) : volume (ops ++ ops') = volume ops + volume ops' := by
  rw [volume, List.map_append, List.sum_append]
  rfl

theorem volume_le_of_isPrefix {ops ops' : List Op} (h : ops <+: ops') : volume ops ≤ volume ops' := by
  obtain ⟨rest, rfl⟩ := h
  rw [volume_append]
  exact Nat.le_add_right _ _

namespace Builder

variable {b b' : Builder} {op : Op} {ops : List Op} {moved : Nat}

/-- The words that the open scopes own. -/
def held (b : Builder) : Nat := (b.scopes.map List.length).sum

/-- After every operation a counter of 64 bits can show the balance. -/
def Counted (b : Builder) (ops : List Op) : Prop :=
  ∀ before, before <+: ops → -2 ^ 63 ≤ (b.run before).delta ∧ (b.run before).delta < 2 ^ 63

/-- The innermost scope owns more words than are on the stack. -/
def Overdrawn (b : Builder) : Prop :=
  ∃ owned outer, b.scopes = owned :: outer ∧ b.delta < wordSize * owned.length

/-- Somewhere a scope is freed that is overdrawn, and nothing was noted before. -/
def FreesOverdrawn (b : Builder) (ops : List Op) : Prop :=
  ∃ before after, ops = before ++ .freeScope :: after ∧ (b.run before).slip = none ∧
    (b.run before).Overdrawn

/-- All that an operation can do to the balance, to what scopes own and to what is noted. -/
inductive Books (b : Builder) : Op → Builder → Prop where
  | rise {op : Op} {b' : Builder} (words : Nat) (hwords : words ≤ op.words)
      (hdelta : b'.delta = b.delta + 4 * words) (hheld : b'.held ≤ b.held + words)
      (hslip : b'.slip = b.slip) : Books b op b'
  | fall {op : Op} {b' : Builder} (s : Slip) (hdelta : b'.delta = b.delta - 4 * op.words)
      (hheld : b'.held = b.held)
      (hslip : b'.slip = if b'.delta < 0 then b.slip.or (some s) else b.slip) : Books b op b'
  | refuse {op : Op} {b' : Builder} (s : Slip) (hdelta : b'.delta = b.delta)
      (hheld : b'.held = b.held) (hslip : b'.slip = b.slip.or (some s)) : Books b op b'
  | link {op : Op} {b' : Builder} (hdelta : b'.delta = 4 * op.words)
      (hheld : b'.held = b.held + op.words)
      (hslip : b'.slip = b.slip ∨ ∃ s, b'.slip = b.slip.or (some s)) : Books b op b'
  | free {b' : Builder} (owned : List Text) (outer : List (List Text))
      (hscopes : b.scopes = owned :: outer) (hdelta : b'.delta = b.delta - 4 * owned.length)
      (hheld : b'.held + owned.length = b.held) (hslip : b'.slip = b.slip) : Books b .freeScope b'

theorem slip_note (b : Builder) (wrong : Bool) (s : Slip) :
    (b.note wrong s).slip = if wrong then b.slip.or (some s) else b.slip := by
  unfold note
  split <;> rfl

theorem delta_note (b : Builder) (wrong : Bool) (s : Slip) : (b.note wrong s).delta = b.delta := by
  unfold note
  split <;> rfl

theorem held_note (b : Builder) (wrong : Bool) (s : Slip) : (b.note wrong s).held = b.held := by
  unfold note
  split <;> rfl

theorem held_cons {owned : List Text} {outer : List (List Text)} (h : b.scopes = owned :: outer) :
    b.held = owned.length + (outer.map List.length).sum := by
  rw [held, h, List.map_cons, List.sum_cons]

theorem freeScope_cons {owned : List Text} {outer : List (List Text)}
    (h : b.scopes = owned :: outer) :
    b.freeScope.delta = b.delta - 4 * owned.length ∧ b.freeScope.scopes = outer ∧
      b.freeScope.slip = b.slip := by
  rw [freeScope, h]
  cases owned with
  | nil => exact ⟨(Int.sub_zero _).symm, rfl, rfl⟩
  | cons x owned => exact ⟨rfl, rfl, rfl⟩

theorem held_freeScope {owned : List Text} {outer : List (List Text)}
    (h : b.scopes = owned :: outer) : b.freeScope.held + owned.length = b.held := by
  rw [held_cons h, held, (freeScope_cons h).2.1, Nat.add_comm]

theorem books_same (hdelta : b'.delta = b.delta) (hheld : b'.held = b.held)
    (hslip : b'.slip = b.slip) : b.Books op b' :=
  .rise 0 (Nat.zero_le _) (hdelta.trans (Int.add_zero _).symm) hheld.le hslip

theorem books_store (b : Builder) (reg x : Text) : b.Books (.store reg x) (b.store reg x) := by
  rw [store]
  split
  · exact books_same rfl rfl rfl
  · exact .refuse (.storeOutsideScope x) (delta_note _ _ _) (held_note _ _ _) (slip_note _ _ _)
  · rename_i owned outer _ hscopes
    refine .rise 1 le_rfl rfl ?_ rfl
    have hheld := held_cons hscopes
    show ((x :: owned).length :: outer.map List.length).sum ≤ _
    rw [List.sum_cons, List.length_cons]
    omega

theorem books_freeScope (b : Builder) : b.Books .freeScope b.freeScope := by
  cases hscopes : b.scopes with
  | nil =>
    rw [freeScope, hscopes]
    exact .refuse .freeWithoutScope (delta_note _ _ _) (held_note _ _ _) (slip_note _ _ _)
  | cons owned outer =>
    obtain ⟨hdelta, -, hslip⟩ := freeScope_cons hscopes
    exact .free owned outer hscopes hdelta (held_freeScope hscopes) hslip

theorem books_fall (b' : Builder) (s : Slip) (hdelta : b'.delta = b.delta - 4 * op.words)
    (hheld : b'.held = b.held) (hslip : b'.slip = b.slip) :
    b.Books op (b'.note (b'.delta < 0) s) := by
  refine .fall s ((delta_note _ _ _).trans hdelta) ((held_note _ _ _).trans hheld) ?_
  rw [slip_note, delta_note, hslip]
  simp only [decide_eq_true_eq]

theorem books_link (b : Builder) (params : List Text) :
    b.Books (.link params) (b.linkProcedure params) := by
  refine .link (Int.mul_comm _ _) ?_ ?_
  · show (params.reverse.length :: (b.note _ _).scopes.map List.length).sum = _
    rw [List.sum_cons, List.length_reverse, Nat.add_comm]
    exact congrArg (· + params.length) (held_note _ _ _)
  · show (b.note _ _).slip = b.slip ∨ ∃ s, (b.note _ _).slip = _
    rw [slip_note]
    split
    · exact .inr ⟨_, rfl⟩
    · exact .inl rfl

theorem books_apply (b : Builder) (op : Op) : b.Books op (op.apply b) := by
  cases op with
  | push reg => exact .rise 1 le_rfl rfl (Nat.le_succ _) rfl
  | pop reg =>
    exact books_fall { b.emitAll (popLines reg) with delta := b.delta - 4 } .popBelowBase rfl rfl rfl
  | release count =>
    refine books_fall { b with delta := b.delta - count * 4 } .releasedTooMany ?_ rfl rfl
    exact congrArg (b.delta - ·) (Int.mul_comm _ _)
  | store reg x => exact books_store b reg x
  | retrieve reg x =>
    show b.Books _ (b.retrieve reg x)
    rw [retrieve]
    split <;> exact books_same rfl rfl rfl
  | beginScope => exact books_same rfl (Nat.zero_add _) rfl
  | freeScope => exact books_freeScope b
  | link params => exact books_link b params
  | noteUnresolved name =>
    show b.Books _ (b.noteUnresolved name)
    rw [noteUnresolved]
    split <;> exact books_same rfl rfl rfl
  | _ => exact books_same rfl rfl rfl

/-- Bounds on the balance once `moved` words were moved. What the open scopes own is counted as taken
off, so that freeing them stays within the bounds. -/
structure Spans (b : Builder) (moved : Nat) : Prop where
  held : b.held ≤ moved
  low : -4 * (moved : Int) ≤ b.delta - 4 * b.held
  high : b.delta ≤ 4 * moved

theorem Books.spans (h : b.Books op b') (hb : b.Spans moved) : b'.Spans (moved + op.words) := by
  obtain ⟨hheld, hlow, hhigh⟩ := hb
  cases h <;> constructor <;> omega

theorem spans_run (hb : b.Spans moved) (ops : List Op) : (b.run ops).Spans (moved + volume ops) := by
  induction ops generalizing b moved with
  | nil => exact hb
  | cons op ops ih =>
    have hrest := ih ((books_apply b op).spans hb)
    rwa [Nat.add_assoc] at hrest

theorem spans_start (ops : List Op) : (run {} ops).Spans (volume ops) := by
  have hstart : Spans {} 0 := ⟨le_rfl, by decide, by decide⟩
  simpa only [Nat.zero_add] using spans_run hstart ops

theorem counted_of_volume (h : volume ops < 2 ^ 61) : Counted {} ops := by
  intro before hbefore
  have hvolume := volume_le_of_isPrefix hbefore
  obtain ⟨-, hlow, hhigh⟩ := spans_start before
  omega

theorem Books.slip_eq_none (h : b.Books op b') (hslip : b'.slip = none) : b.slip = none := by
  have hor : ∀ {s : Slip}, b.slip.or (some s) = none → b.slip = none := by
    intro s hs
    cases hb : b.slip with
    | none => rfl
    | some s' => rw [hb] at hs; cases hs
  cases h with
  | rise _ _ _ _ heq => exact heq.symm.trans hslip
  | fall s _ _ heq =>
    rw [hslip] at heq
    split at heq
    · exact hor heq.symm
    · exact heq.symm
  | refuse s _ _ heq => exact hor (heq.symm.trans hslip)
  | link _ _ heq =>
    rcases heq with heq | ⟨s, heq⟩
    · exact heq.symm.trans hslip
    · exact hor (heq.symm.trans hslip)
  | free _ _ _ _ _ heq => exact heq.symm.trans hslip

theorem slip_eq_none_of_run (h : (b.run ops).slip = none) : b.slip = none := by
  induction ops generalizing b with
  | nil => exact h
  | cons op ops ih => exact (books_apply b op).slip_eq_none (ih h)

/-- An operation that notes nothing keeps the stack above its base, unless it frees a scope that is
overdrawn. -/
theorem Books.delta_nonneg (h : b.Books op b') (hdelta : 0 ≤ b.delta) (hslip : b'.slip = none)
    (hfree : op = .freeScope → ¬ b.Overdrawn) : 0 ≤ b'.delta := by
  cases h with
  | rise words _ heq _ _ => omega
  | fall s _ _ heq =>
    by_contra hneg
    rw [if_pos (by omega), hslip] at heq
    cases hb : b.slip <;> rw [hb] at heq <;> cases heq
  | refuse s heq _ _ => omega
  | link heq _ _ => omega
  | free owned outer hscopes heq _ _ =>
    have hcovered : ¬ b.delta < 4 * (owned.length : Int) := fun hlt =>
      hfree rfl ⟨owned, outer, hscopes, hlt⟩
    omega

theorem Books.dvd_delta (h : b.Books op b') (hdelta : 4 ∣ b.delta) : 4 ∣ b'.delta := by
  cases h <;> omega

theorem dvd_delta_run (hdelta : 4 ∣ b.delta) (ops : List Op) : 4 ∣ (b.run ops).delta := by
  induction ops generalizing b with
  | nil => exact hdelta
  | cons op ops ih => exact ih ((books_apply b op).dvd_delta hdelta)

theorem FreesOverdrawn.append (h : b.FreesOverdrawn ops) (rest : List Op) :
    b.FreesOverdrawn (ops ++ rest) := by
  obtain ⟨before, after, rfl, hslip, hover⟩ := h
  exact ⟨before, after ++ rest, by rw [List.append_assoc, List.cons_append], hslip, hover⟩

/-- A stack below its base of which nothing is noted got there by the end of an overdrawn scope. -/
theorem freesOverdrawn_of_delta_neg (hdelta : 0 ≤ b.delta) (hslip : (b.run ops).slip = none)
    (hneg : (b.run ops).delta < 0) : b.FreesOverdrawn ops := by
  -- Either the stack was below its base before the last operation, or that operation took it there.
  induction ops using List.reverseRecOn with
  | nil => exact absurd hneg (Int.not_lt.mpr hdelta)
  | append_singleton ops op ih =>
    have hbooks := books_apply (b.run ops) op
    rw [run_append] at hslip hneg
    have hbefore := hbooks.slip_eq_none hslip
    by_cases hdip : (b.run ops).delta < 0
    · exact (ih hbefore hdip).append [op]
    · by_contra hnone
      refine absurd hneg (Int.not_lt.mpr (hbooks.delta_nonneg (Int.not_lt.mp hdip) hslip ?_))
      rintro rfl hover
      exact hnone ⟨ops, [], rfl, hbefore, hover⟩

theorem Overdrawn.freeScope (h : b.Overdrawn) : b.freeScope.delta < 0 ∧ b.freeScope.slip = b.slip := by
  obtain ⟨owned, outer, hscopes, hlt⟩ := h
  obtain ⟨hdelta, -, hslip⟩ := freeScope_cons hscopes
  exact ⟨hdelta ▸ Int.sub_neg_of_lt hlt, hslip⟩

theorem run_pushes (b : Builder) (count : Nat) (reg : Text) :
    (b.run (List.replicate count (.push reg))).slip = b.slip ∧
      (b.run (List.replicate count (.push reg))).scopes = b.scopes ∧
      (b.run (List.replicate count (.push reg))).delta = b.delta + 4 * count := by
  induction count generalizing b with
  | zero => exact ⟨rfl, rfl, (Int.add_zero _).symm⟩
  | succ count ih =>
    obtain ⟨hslip, hscopes, hdelta⟩ := ih (b.push reg)
    refine ⟨hslip, hscopes, hdelta.trans ?_⟩
    show b.delta + 4 + 4 * (count : Int) = b.delta + 4 * ((count + 1 : Nat) : Int)
    omega

/-- The account of a stack at or below its base can be made to balance if nothing is noted: first the
open scopes are freed, then what is missing is pushed. Meanwhile the balance keeps to its bounds. -/
theorem exists_balancing (hslip : b.slip = none) (hdelta : 4 ∣ b.delta) (hneg : b.delta ≤ 0)
    (hspans : b.Spans moved) :
    ∃ rest, (b.run rest).checkBalanced = .ok () ∧ ∀ part, part <+: rest →
      -4 * (moved : Int) ≤ (b.run part).delta ∧ (b.run part).delta ≤ 0 := by
  have hhere : -4 * (moved : Int) ≤ b.delta ∧ b.delta ≤ 0 := ⟨by have := hspans.low; omega, hneg⟩
  induction hscopes : b.scopes generalizing b with
  | cons owned outer ih =>
    obtain ⟨hfreed, houter, hkept⟩ := freeScope_cons hscopes
    have hspans' : b.freeScope.Spans moved := (books_freeScope b).spans hspans
    obtain ⟨rest, hrest, hparts⟩ := ih (hkept.trans hslip) (by omega) (by omega) hspans'
      ⟨by have := hspans'.low; omega, by omega⟩ houter
    refine ⟨.freeScope :: rest, hrest, fun part hpart => ?_⟩
    rcases List.prefix_cons_iff.mp hpart with rfl | ⟨later, rfl, hlater⟩
    · exact hhere
    · exact hparts later hlater
  | nil =>
    obtain ⟨k, hk⟩ := hdelta
    obtain ⟨hslip', hscopes', hdelta'⟩ := run_pushes b (-k).toNat "$v0"
    have hzero : (b.run (List.replicate (-k).toNat (.push "$v0"))).delta = 0 := by omega
    refine ⟨List.replicate (-k).toNat (.push "$v0"), ?_, fun part hpart => ?_⟩
    · rw [checkBalanced, hslip', hslip, hscopes', hscopes, hzero]
      rfl
    · obtain ⟨hlength, hpushes⟩ := List.prefix_replicate_iff.mp hpart
      have hpushed := (run_pushes b part.length "$v0").2.2
      rw [← hpushes] at hpushed
      omega

theorem slip_eq_none_of_checkBalanced (h : b.checkBalanced = .ok ()) : b.slip = none := by
  rw [checkBalanced] at h
  split at h
  · cases h
  · assumption

theorem Counted.append {rest : List Op} (h : b.Counted ops)
    (hrest : ∀ part, part <+: rest → -2 ^ 63 ≤ ((b.run ops).run part).delta ∧
      ((b.run ops).run part).delta < 2 ^ 63) : b.Counted (ops ++ rest) := by
  intro before hbefore
  rcases List.prefix_or_prefix_of_prefix hbefore (List.prefix_append ops rest) with hops | ⟨part, rfl⟩
  · exact h before hops
  · rw [run_append]
    exact hrest part ((List.prefix_append_right_inj ops).mp hbefore)

theorem freesOverdrawn_of_front {before after : List Op} (hops : before ++ after <+: ops)
    (hneg : (run {} before).delta < 0) (hslip : (run {} (before ++ after)).slip = none) :
    FreesOverdrawn {} ops := by
  obtain ⟨rest, rfl⟩ := hops
  rw [run_append] at hslip
  have hbefore := freesOverdrawn_of_delta_neg (b := {}) Int.le_rfl (slip_eq_none_of_run hslip) hneg
  rw [List.append_assoc]
  exact hbefore.append _

/-- Of operations that move fewer than 2 ^ 61 words, the account can be relied on exactly if no overdrawn
scope is freed. Then every stack below its base is noted from there on, and a check that passes shows
that there was none. Otherwise the stack goes below its base, and whoever goes on from there can still
have the check pass. The balance never leaves the numbers of 64 bits. -/
theorem dips_noted_iff (hvolume : volume ops < 2 ^ 61) :
    Counted {} ops ∧
    ((∀ before after, before ++ after <+: ops → (run {} before).delta < 0 →
      (run {} (before ++ after)).slip ≠ none) ↔ ¬ FreesOverdrawn {} ops) ∧
    (¬ FreesOverdrawn {} ops → (run {} ops).checkBalanced = .ok () →
      ∀ before, before <+: ops → 0 ≤ (run {} before).delta) ∧
    (FreesOverdrawn {} ops → ∃ before rest, before <+: ops ∧ (run {} before).delta < 0 ∧
      Counted {} (before ++ rest) ∧ (run {} (before ++ rest)).checkBalanced = .ok ()) := by
  have hdip : FreesOverdrawn {} ops → ∃ before, before <+: ops ∧ (run {} before).delta < 0 ∧
      (run {} before).slip = none := by
    rintro ⟨before, after, rfl, hslip, hover⟩
    obtain ⟨hneg, hkept⟩ := hover.freeScope
    refine ⟨before ++ [.freeScope], ⟨after, by simp⟩, ?_, ?_⟩ <;> rw [run_append]
    · exact hneg
    · exact hkept.trans hslip
  refine ⟨counted_of_volume hvolume,
    ⟨fun hnoted hover => ?_, fun hnone before after hops hneg hslip => ?_⟩,
    fun hnone hcheck before hops => ?_, fun hover => ?_⟩
  · obtain ⟨before, hops, hneg, hslip⟩ := hdip hover
    rw [← List.append_nil before] at hops
    exact hnoted before [] hops hneg (by rwa [List.append_nil])
  · exact hnone (freesOverdrawn_of_front hops hneg hslip)
  · by_contra hneg
    obtain ⟨after, rfl⟩ := hops
    exact hnone (freesOverdrawn_of_front List.prefix_rfl (Int.not_le.mp hneg)
      (slip_eq_none_of_checkBalanced hcheck))
  · obtain ⟨before, hops, hneg, hslip⟩ := hdip hover
    have hfew : volume before < 2 ^ 61 := (volume_le_of_isPrefix hops).trans_lt hvolume
    obtain ⟨rest, hrest, hparts⟩ := exists_balancing hslip (dvd_delta_run (Int.dvd_zero 4) before)
      hneg.le (spans_start before)
    refine ⟨before, rest, hops, hneg, (counted_of_volume hfew).append fun part hpart => ?_,
      by rwa [run_append]⟩
    have hbounds := hparts part hpart
    omega

/-- An argument is parked and released while a scope owns a variable. -/
def parkedOps : List Op :=
  [.beginScope, .store "$v0" "x", .push "$v0", .release 1, .freeScope]

theorem parked_argument_certified :
    volume parkedOps < 2 ^ 61 ∧ ¬ FreesOverdrawn {} parkedOps ∧
      (run {} parkedOps).checkBalanced = .ok () ∧
      ∀ before, before <+: parkedOps → 0 ≤ (run {} before).delta := by
  have hvolume : volume parkedOps < 2 ^ 61 := by decide
  have hcheck : (run {} parkedOps).checkBalanced = .ok () := by decide +kernel
  have hnone : ¬ FreesOverdrawn {} parkedOps := by
    rintro ⟨before, after, heq, -, owned, outer, hscopes, hlt⟩
    -- The only scope is freed at the end, where the stack has the word that it owns.
    have hbefore : before = [.beginScope, .store "$v0" "x", .push "$v0", .release 1] := by
      rcases before with _ | ⟨_, _ | ⟨_, _ | ⟨_, _ | ⟨_, _ | ⟨_, before⟩⟩⟩⟩⟩ <;>
        simp_all [parkedOps]
    subst hbefore
    cases hscopes
    exact absurd hlt (by decide +kernel)
  exact ⟨hvolume, hnone, hcheck, (dips_noted_iff hvolume).2.2.1 hnone hcheck⟩

/-- A variable's word is popped before its scope is freed: the stack goes below its base, nothing is
noted, and after one more push the check passes. -/
theorem popped_variable_unnoticed :
    (run {} [.beginScope, .store "$v0" "x", .pop "$t0", .freeScope]).delta = -4 ∧
      (run {} [.beginScope, .store "$v0" "x", .pop "$t0", .freeScope]).slip = none ∧
      (run {} [.beginScope, .store "$v0" "x", .pop "$t0", .freeScope, .push "$v0"]).checkBalanced =
        .ok () := by
  decide +kernel

end Builder

end Assembly

end MiniPascal
