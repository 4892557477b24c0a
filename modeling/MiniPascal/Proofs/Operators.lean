import MiniPascal.Proofs.Scanning

/-! Which operator stands at the front of a source. A tree of spellings answers by the set of its
spellings alone, and taking characters one after the other gives what the tree answers for the whole
text. -/

namespace MiniPascal

namespace Trie

/-- The longest front of a text that begins a spelling. -/
structure LongestFront (ws : List (List Char)) (s w : List Char) : Prop where
  front : w <+: s
  begins : w = [] ∨ ∃ v ∈ ws, w <+: v
  longest : ∀ u, u <+: s → (∃ v ∈ ws, u <+: v) → u <+: w

/-- What can be seen of a node. -/
def view (t : Trie) : List Char × Bool := (t.label, t.accepting)

section OfList

variable {ws ws' : List (List Char)} {s w w' : List Char}

theorem LongestFront.congr (hsame : ∀ v, v ∈ ws ↔ v ∈ ws') (h : LongestFront ws s w) :
    LongestFront ws' s w := by
  have hbegins : ∀ u : List Char, (∃ v ∈ ws, u <+: v) ↔ ∃ v ∈ ws', u <+: v :=
    fun u => exists_congr fun v => and_congr_left fun _ => hsame v
  exact ⟨h.front, h.begins.imp id (hbegins w).mp, fun u hu hv => h.longest u hu ((hbegins u).mpr hv)⟩

theorem LongestFront.prefix_of (h : LongestFront ws s w) (h' : LongestFront ws s w') : w <+: w' := by
  rcases h.begins with rfl | hbegins
  · exact List.nil_prefix
  · exact h'.longest w h.front hbegins

theorem LongestFront.unique (h : LongestFront ws s w) (h' : LongestFront ws s w') : w = w' :=
  (h.prefix_of h').eq_of_length_le (h'.prefix_of h).length_le

theorem longestFront_longest (ws : List (List Char)) (s : List Char) :
    LongestFront ws s ((ofList ws).longest s).1 := by
  obtain ⟨rest, hs, hbegins, hstop, -⟩ := exists_longest_ofList ws s
  generalize ((ofList ws).longest s).1 = w at hs hbegins hstop
  have hfront : w <+: s := ⟨rest, hs.symm⟩
  refine ⟨hfront, hbegins, fun u hu hv => ?_⟩
  rcases List.prefix_or_prefix_of_prefix hu hfront with hshort | ⟨more, rfl⟩
  · exact hshort
  · -- a longer one would go on with the character at which the walk has stopped
    cases more with
    | nil => exact ⟨[], by rw [List.append_nil, List.append_nil]⟩
    | cons c more =>
      obtain ⟨v, hmem, hprefix⟩ := hv
      obtain ⟨after, hafter⟩ := hu
      rw [hs, List.append_assoc] at hafter
      have hrest : rest = c :: (more ++ after) := (List.append_cancel_left hafter).symm
      refine absurd (List.IsPrefix.trans ⟨more, ?_⟩ hprefix) (hstop c (by rw [hrest]; rfl) v hmem)
      rw [List.append_assoc]
      rfl

theorem longest_accepted (ws : List (List Char)) (s : List Char) :
    ((ofList ws).longest s).2 = true ↔
      ((ofList ws).longest s).1 ∈ ws ∧ ((ofList ws).longest s).1 ≠ [] := by
  obtain ⟨rest, -, -, -, haccepted⟩ := exists_longest_ofList ws s
  exact haccepted

theorem label_of_walk? {u : Trie} (h : (ofList ws).walk? s = some u) : u.label = s := by
  obtain ⟨hlabelled, hroot⟩ := labelled_ofList ws
  rw [hlabelled s u h, hroot, List.nil_append]

section Same

variable (hsame : ∀ v, v ∈ ws ↔ v ∈ ws')

include hsame

theorem contains_congr (s : List Char) : (ofList ws).contains s = (ofList ws').contains s := by
  rw [Bool.eq_iff_iff, contains_ofList, contains_ofList, hsame]

theorem longest_congr (s : List Char) : (ofList ws).longest s = (ofList ws').longest s := by
  have hfront := ((longestFront_longest ws s).congr hsame).unique (longestFront_longest ws' s)
  refine Prod.ext hfront ?_
  rw [Bool.eq_iff_iff, longest_accepted, longest_accepted, hfront, hsame]

theorem view_walk?_congr (s : List Char) :
    ((ofList ws).walk? s).map view = ((ofList ws').walk? s).map view := by
  have hreached : ((ofList ws).walk? s).isSome = ((ofList ws').walk? s).isSome := by
    rw [Bool.eq_iff_iff, isSome_walk?_ofList, isSome_walk?_ofList]
    exact or_congr_right (exists_congr fun v => and_congr_left fun _ => hsame v)
  have haccepts := contains_congr hsame s
  rw [contains_eq, contains_eq] at haccepts
  cases hu : (ofList ws).walk? s with
  | none =>
    rw [hu] at hreached
    rw [Option.isNone_iff_eq_none.mp (Option.isSome_eq_false_iff.mp hreached.symm)]
  | some u =>
    rw [hu] at hreached haccepts
    obtain ⟨u', hu'⟩ := Option.isSome_iff_exists.mp hreached.symm
    rw [hu'] at haccepts ⊢
    have hlabel : u.label = u'.label := (label_of_walk? hu).trans (label_of_walk? hu').symm
    exact congrArg some (Prod.ext hlabel haccepts)

end Same

end OfList

end Trie

namespace Source

open Trie

/-- Where an operator can start, what is taken is the longest beginning of an operator; it is a token if it
is an operator itself, and an error that names it if it is not. -/
theorem nextHere_operator {s : Source} {c : Char} (hc : s.rest.head? = some c)
    (hstarts : operatorTrie.starts c = true) :
    s.nextHere = s.nextOperator ∧ ∃ w rest, (operatorTrie.longest s.rest).1 = w ∧ w ≠ [] ∧
      s.rest = w ++ rest ∧ s.nextOperator.2 = { s with rest := rest, pos := s.pos.advance w } ∧
      s.nextOperator.1 =
        if (operatorTrie.longest s.rest).2 then .ok ⟨.operator, Text.ofChars w, s.pos⟩
        else .error (.invalidOperator w s.pos) := by
  obtain ⟨cs, hs⟩ : ∃ cs, s.rest = c :: cs := List.head?_eq_some_iff.mp hc
  obtain ⟨rest, hsplit⟩ := (longestFront_longest Token.operators s.rest).front
  refine ⟨?_, _, rest, rfl, longest_ne_nil hs hstarts, hsplit.symm, ?_, ?_⟩
  · rw [nextHere, hs]
    exact if_pos hstarts
  · rw [nextOperator_eq]
    exact drop_append hsplit.symm
  · rw [nextOperator_eq]

/-- A tree of spellings contains them and no other text, finds the longest front of a text that begins one
of them, labels its nodes with the ways to them and does not depend on the order of its spellings; and
the scanner takes what the tree of operators finds in all that is left of its source. -/
theorem spellings_exact (ws : List (List Char)) (s : List Char) :
    ((ofList ws).contains s = true ↔ s ∈ ws ∧ s ≠ []) ∧
      (LongestFront ws s ((ofList ws).longest s).1 ∧
        (((ofList ws).longest s).2 = true ↔
          ((ofList ws).longest s).1 ∈ ws ∧ ((ofList ws).longest s).1 ≠ [])) ∧
      (∀ u, (ofList ws).walk? s = some u → u.label = s) ∧
      (∀ ws', (∀ v, v ∈ ws ↔ v ∈ ws') → (ofList ws).contains s = (ofList ws').contains s ∧
        (ofList ws).longest s = (ofList ws').longest s ∧
        ((ofList ws).walk? s).map view = ((ofList ws').walk? s).map view) ∧
      ∀ (here : Source) (c : Char), here.rest = s.takeWhile (· ≠ sentinel) →
        here.rest.head? = some c → operatorTrie.starts c = true →
          here.nextHere = here.nextOperator ∧ ∃ w rest, (operatorTrie.longest here.rest).1 = w ∧
            w ≠ [] ∧ here.rest = w ++ rest ∧
            here.nextOperator.2 = { here with rest := rest, pos := here.pos.advance w } ∧
            here.nextOperator.1 =
              if (operatorTrie.longest here.rest).2 then .ok ⟨.operator, Text.ofChars w, here.pos⟩
              else .error (.invalidOperator w here.pos) := by
  refine ⟨contains_ofList ws s, ⟨longestFront_longest ws s, longest_accepted ws s⟩,
    fun u hu => label_of_walk? hu, fun ws' hsame => ?_, fun here c _ hc hstarts => ?_⟩
  · exact ⟨contains_congr hsame s, longest_congr hsame s, view_walk?_congr hsame s⟩
  · exact nextHere_operator hc hstarts

/-- A colon alone begins an operator and is none. -/
theorem colon_alone_rejected :
    (Source.mk [':', 'x'] .start none).nextHere =
      (.error (.invalidOperator [':'] .start), ⟨['x'], ⟨1, 2⟩, none⟩) := by
  have hlongest : operatorTrie.longest [':', 'x'] = ([':'], false) := by decide +kernel
  obtain ⟨hnext, w, rest, hw, -, hrest, hafter, hanswer⟩ :=
    (spellings_exact [] [':', 'x', '$', '=']).2.2.2.2 ⟨[':', 'x'], .start, none⟩ ':' (by decide) rfl
      (by decide +kernel)
  rw [hlongest] at hw hanswer
  subst hw
  cases hrest
  rw [hnext]
  exact Prod.ext hanswer hafter

end Source

end MiniPascal
