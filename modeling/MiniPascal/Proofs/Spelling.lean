import Mathlib.Data.List.Induction
import MiniPascal.Token.Trie

/-! Trees of spellings. A walk along some characters gets to a node if and only if they begin a
spelling, and the longest such walk is the one that the scanner takes. -/

namespace MiniPascal

namespace Trie

theorem walk?_cons (t : Trie) (c : Char) (s : List Char) :
    t.walk? (c :: s) = (t.child? c).bind fun u => u.walk? s := by
  rw [walk?]
  cases t.child? c <;> rfl

theorem walk?_append (t : Trie) (a b : List Char) :
    t.walk? (a ++ b) = (t.walk? a).bind fun u => u.walk? b := by
  induction a generalizing t with
  | nil => rfl
  | cons c a ih =>
    rw [List.cons_append, walk?_cons, walk?_cons]
    cases t.child? c with
    | none => rfl
    | some u => exact ih u

theorem isSome_walk?_singleton (t : Trie) (c : Char) :
    (t.walk? [c]).isSome = (t.child? c).isSome := by
  rw [walk?_cons]
  cases t.child? c <;> rfl

theorem contains_eq (t : Trie) (s : List Char) :
    t.contains s = (t.walk? s).elim false accepting := by
  rw [contains]
  cases t.walk? s <;> rfl

/-- Every node below is labelled with the characters on the way to it. -/
def Labelled (t : Trie) : Prop := ∀ s u, t.walk? s = some u → u.label = t.label ++ s

section Insert

variable {c d : Char} {l : List Char} {a : Bool} {cs : List (Char × Trie)}

theorem lookup_cons_eq_ite (t : Trie) :
    ((c, t) :: cs).lookup d = if d = c then some t else cs.lookup d := by
  rw [List.lookup_cons]
  by_cases h : d = c
  · rw [if_pos h, beq_iff_eq.mpr h]
  · rw [if_neg h, beq_eq_false_iff_ne.mpr h]

theorem lookup_updateChild (f : Trie → Trie) :
    (updateChild c l f cs).lookup d =
      if d = c then some (f ((cs.lookup c).getD (node l false []))) else cs.lookup d := by
  induction cs with
  | nil => rw [updateChild, lookup_cons_eq_ite]; rfl
  | cons child cs ih =>
    obtain ⟨e, t⟩ := child
    rw [updateChild]
    by_cases he : e = c
    · rw [if_pos he, lookup_cons_eq_ite, lookup_cons_eq_ite, lookup_cons_eq_ite, he, if_pos rfl]
      by_cases h : d = c <;> simp [h]
    · rw [if_neg he, lookup_cons_eq_ite, lookup_cons_eq_ite, lookup_cons_eq_ite, ih]
      by_cases h : d = c <;> simp [h, Ne.symm he]

/-- The child that a spelling is inserted below. -/
def childOrNew (t : Trie) (c : Char) : Trie := (t.child? c).getD (node (t.label ++ [c]) false [])

theorem child?_insert (t : Trie) (c : Char) (w : List Char) (d : Char) :
    (insert (c :: w) t).child? d =
      if d = c then some (insert w (t.childOrNew c)) else t.child? d := by
  cases t with
  | node l a cs => exact lookup_updateChild _

theorem label_insert (w : List Char) (t : Trie) : (insert w t).label = t.label := by
  cases w <;> cases t <;> rfl

theorem walk?_leaf (l s : List Char) (a : Bool) :
    (node l a []).walk? s = if s = [] then some (node l a []) else none := by
  cases s with
  | nil => rfl
  | cons c s => rw [walk?_cons]; rfl

theorem isSome_walk?_childOrNew (t : Trie) (c : Char) (s : List Char) :
    ((t.childOrNew c).walk? s).isSome = true ↔ s = [] ∨ (t.walk? (c :: s)).isSome = true := by
  rw [walk?_cons, childOrNew]
  cases t.child? c with
  | none =>
    rw [Option.getD_none, walk?_leaf]
    by_cases h : s = [] <;> simp [h]
  | some u => cases s <;> simp [walk?]

theorem contains_childOrNew (t : Trie) (c : Char) (s : List Char) :
    (t.childOrNew c).contains s = t.contains (c :: s) := by
  rw [contains_eq, contains_eq, walk?_cons, childOrNew]
  cases t.child? c with
  | none =>
    rw [Option.getD_none, walk?_leaf]
    by_cases h : s = [] <;> simp [h, accepting]
  | some u => rfl

/-- After an insertion the beginnings of the new spelling can be walked too. -/
theorem isSome_walk?_insert (w : List Char) (t : Trie) (s : List Char) :
    ((insert w t).walk? s).isSome = true ↔ s <+: w ∨ (t.walk? s).isSome = true := by
  induction w generalizing t s with
  | nil =>
    cases t with
    | node l a cs => cases s <;> simp [insert, walk?, child?, children]
  | cons c w ih =>
    cases s with
    | nil => simp [walk?]
    | cons d s =>
      rw [walk?_cons, child?_insert]
      by_cases hd : d = c
      · rw [if_pos hd, Option.bind_some, ih, isSome_walk?_childOrNew, hd, List.cons_prefix_cons]
        have hnil : s = [] → s <+: w := fun h => h ▸ List.nil_prefix
        grind
      · rw [if_neg hd, ← walk?_cons, List.cons_prefix_cons]
        simp [hd]

/-- After an insertion the new spelling is one of the spellings, and no other is new. -/
theorem contains_insert (w : List Char) (t : Trie) (s : List Char) :
    (insert w t).contains s = true ↔ s = w ∨ t.contains s = true := by
  induction w generalizing t s with
  | nil =>
    cases t with
    | node l a cs =>
      cases s <;> simp [insert, contains_eq, walk?, child?, children, accepting]
  | cons c w ih =>
    cases s with
    | nil =>
      cases t with
      | node l a cs => simp [insert, contains_eq, walk?, accepting]
    | cons d s =>
      rw [contains_eq, walk?_cons, child?_insert]
      by_cases hd : d = c
      · rw [if_pos hd, Option.bind_some, ← contains_eq, ih, contains_childOrNew, hd, List.cons.injEq]
        simp
      · rw [if_neg hd, ← walk?_cons, ← contains_eq, List.cons.injEq]
        simp [hd]

theorem Labelled.childOrNew {t : Trie} (h : t.Labelled) (c : Char) :
    (t.childOrNew c).Labelled ∧ (t.childOrNew c).label = t.label ++ [c] := by
  rw [Trie.childOrNew]
  cases hc : t.child? c with
  | none =>
    refine ⟨fun s u hu => ?_, rfl⟩
    rw [Option.getD_none, walk?_leaf] at hu
    by_cases hs : s = []
    · rw [if_pos hs] at hu
      cases hu
      rw [hs, List.append_nil, Option.getD_none]
    · rw [if_neg hs] at hu
      cases hu
  | some v =>
    have hlabel : v.label = t.label ++ [c] := h [c] v (by rw [walk?_cons, hc]; rfl)
    refine ⟨fun s u hu => ?_, hlabel⟩
    have hwalk : t.walk? (c :: s) = some u := by rw [walk?_cons, hc]; exact hu
    rw [h _ u hwalk, Option.getD_some, hlabel, List.append_assoc]
    rfl

theorem Labelled.insert {t : Trie} (h : t.Labelled) (w : List Char) : (t.insert w).Labelled := by
  induction w generalizing t with
  | nil =>
    intro s u hu
    cases t with
    | node l a cs =>
      cases s with
      | nil =>
        cases hu
        exact (List.append_nil _).symm
      | cons c s => exact h (c :: s) u hu
  | cons c w ih =>
    intro s u hu
    rw [label_insert]
    cases s with
    | nil =>
      cases hu
      rw [label_insert, List.append_nil]
    | cons d s =>
      rw [walk?_cons, child?_insert] at hu
      by_cases hd : d = c
      · obtain ⟨hnew, hlabel⟩ := h.childOrNew c
        rw [if_pos hd, Option.bind_some] at hu
        rw [ih hnew s u hu, label_insert, hlabel, hd, List.append_assoc]
        rfl
      · rw [if_neg hd, ← walk?_cons] at hu
        exact h (d :: s) u hu

end Insert

section OfList

variable (ws : List (List Char)) (s : List Char)

theorem ofList_append_singleton (w : List Char) :
    ofList (ws ++ [w]) = if w = [] then ofList ws else insert w (ofList ws) := by
  by_cases h : w = [] <;> simp [ofList, h]

/-- A walk gets to a node exactly along the beginnings of the spellings. -/
theorem isSome_walk?_ofList :
    ((ofList ws).walk? s).isSome = true ↔ s = [] ∨ ∃ w ∈ ws, s <+: w := by
  induction ws using List.reverseRecOn with
  | nil => cases s <;> simp [ofList, empty, walk?, child?, children]
  | append_singleton ws w ih =>
    have hmem : (∃ v ∈ ws ++ [w], s <+: v) ↔ (∃ v ∈ ws, s <+: v) ∨ s <+: w := by
      simp only [List.mem_append, List.mem_singleton, or_and_right, exists_or, exists_eq_left]
    rw [ofList_append_singleton, hmem]
    by_cases h : w = []
    · rw [if_pos h, ih, h, List.prefix_nil, or_comm (b := s = []), or_self_left]
    · rw [if_neg h, isSome_walk?_insert, ih, or_left_comm, or_comm (a := s <+: w)]

/-- A tree contains the spellings that it was made of, except the empty one. -/
theorem contains_ofList : (ofList ws).contains s = true ↔ s ∈ ws ∧ s ≠ [] := by
  induction ws using List.reverseRecOn with
  | nil => cases s <;> simp [ofList, empty, contains_eq, walk?, child?, children, accepting]
  | append_singleton ws w ih =>
    rw [ofList_append_singleton]
    by_cases h : w = []
    · rw [if_pos h, ih, h, List.mem_append]
      grind
    · rw [if_neg h, contains_insert, ih, List.mem_append, List.mem_singleton]
      grind

theorem labelled_ofList : (ofList ws).Labelled ∧ (ofList ws).label = [] := by
  induction ws using List.reverseRecOn with
  | nil =>
    refine ⟨fun s u hu => ?_, rfl⟩
    cases s with
    | nil =>
      cases hu
      rfl
    | cons c s => cases hu
  | append_singleton ws w ih =>
    rw [ofList_append_singleton]
    by_cases h : w = []
    · rw [if_pos h]
      exact ih
    · rw [if_neg h]
      exact ⟨ih.1.insert w, (label_insert w _).trans ih.2⟩

end OfList

/-- The walk to the furthest node stops where no child goes on. -/
theorem exists_walk?_furthest (t : Trie) (s : List Char) :
    ∃ w rest, s = w ++ rest ∧ t.walk? w = some (t.furthest s) ∧
      ∀ c ∈ rest.head?, (t.furthest s).child? c = none := by
  induction s generalizing t with
  | nil => exact ⟨[], [], rfl, rfl, by simp⟩
  | cons c s ih =>
    rw [furthest]
    cases hc : t.child? c with
    | none => exact ⟨[], c :: s, rfl, rfl, by simpa using hc⟩
    | some u =>
      obtain ⟨w, rest, rfl, hwalk, hstop⟩ := ih u
      exact ⟨c :: w, rest, rfl, by rw [walk?_cons, hc]; exact hwalk, hstop⟩

/-- The longest walk along `s`: its characters are the front of `s`, it cannot go on, and it is
accepted if it is a spelling. -/
theorem exists_longest_ofList (ws : List (List Char)) (s : List Char) :
    ∃ rest, s = ((ofList ws).longest s).1 ++ rest ∧
      (((ofList ws).longest s).1 = [] ∨ ∃ w ∈ ws, ((ofList ws).longest s).1 <+: w) ∧
      (∀ c ∈ rest.head?, ∀ w ∈ ws, ¬ ((ofList ws).longest s).1 ++ [c] <+: w) ∧
      (((ofList ws).longest s).2 = true ↔
        ((ofList ws).longest s).1 ∈ ws ∧ ((ofList ws).longest s).1 ≠ []) := by
  obtain ⟨w, rest, hs, hwalk, hstop⟩ := exists_walk?_furthest (ofList ws) s
  obtain ⟨hlabelled, hroot⟩ := labelled_ofList ws
  have hw : ((ofList ws).longest s).1 = w := by
    rw [longest, hlabelled w _ hwalk, hroot, List.nil_append]
  have haccepts : ((ofList ws).longest s).2 = (ofList ws).contains w := by
    rw [contains_eq, hwalk]
    rfl
  refine ⟨rest, hw ▸ hs, ?_, fun c hc v hv hprefix => ?_, ?_⟩
  · rw [hw, ← isSome_walk?_ofList, hwalk]
    rfl
  · have hsome := (isSome_walk?_ofList ws (w ++ [c])).mpr (.inr ⟨v, hv, hw ▸ hprefix⟩)
    rw [walk?_append, hwalk, Option.bind_some, isSome_walk?_singleton, hstop c hc] at hsome
    cases hsome
  · rw [haccepts, hw, contains_ofList]

/-- A spelling that the next character does not take closer to another one is the longest. -/
theorem longest_ofList {ws : List (List Char)} {w rest : List Char} (hw : w ∈ ws) (hne : w ≠ [])
    (hmax : ∀ c ∈ rest.head?, ∀ v ∈ ws, ¬ w ++ [c] <+: v) :
    (ofList ws).longest (w ++ rest) = (w, true) := by
  obtain ⟨after, hsplit, hfront, hstop, haccepts⟩ := exists_longest_ofList ws (w ++ rest)
  have hlabel : ((ofList ws).longest (w ++ rest)).1 = w := by
    generalize ((ofList ws).longest (w ++ rest)).1 = label at *
    rcases List.append_eq_append_iff.mp hsplit with ⟨more, hlong, hrest⟩ | ⟨more, hshort, hafter⟩
    · cases more with
      | nil => rw [hlong, List.append_nil]
      | cons c more =>
        obtain hnil | ⟨v, hv, hprefix⟩ := hfront
        · rw [hlong] at hnil
          exact absurd (List.append_eq_nil_iff.mp hnil).1 hne
        · refine absurd (List.IsPrefix.trans ?_ hprefix) (hmax c (by rw [hrest]; rfl) v hv)
          exact ⟨more, by rw [hlong, List.append_assoc]; rfl⟩
    · cases more with
      | nil => rw [hshort, List.append_nil]
      | cons c more =>
        refine absurd ?_ (hstop c (by rw [hafter]; rfl) w hw)
        exact ⟨more, by rw [hshort, List.append_assoc]; rfl⟩
  rw [hlabel] at haccepts
  exact Prod.ext hlabel (haccepts.mpr ⟨hw, hne⟩)

end Trie

end MiniPascal
