import MiniPascal.Env
import MiniPascal.Interpreter
import MiniPascal.Proofs.Generation

/-! Scopes as words on the stack. The scopes of a frame match its words if every variable has the value
of its first word; the word of the return address belongs to no variable. -/

namespace MiniPascal

namespace Assembly

/-- The word of a name, which is that of its first place. -/
def wordOf (names : List Text) (words : List Int32) (x : Text) : Option Int32 :=
  (names.idxOf? x).bind fun i => words[i]?

theorem getElem?_of_idxOf? {names : List Text} {x : Text} {i : Nat}
    (h : names.idxOf? x = some i) : names[i]? = some x := by
  obtain ⟨hi, hx, -⟩ := List.idxOf?_eq_some_iff.mp h
  rw [List.getElem?_eq_getElem hi, hx]

theorem lt_length_of_idxOf? {names : List Text} {x : Text} {i : Nat}
    (h : names.idxOf? x = some i) : i < names.length :=
  (List.getElem?_eq_some_iff.mp (getElem?_of_idxOf? h)).1

/-- The words once `x` is written: a name without a word gets one on top. -/
def storeWords (names : List Text) (words : List Int32) (x : Text) (v : Int32) : List Int32 :=
  match names.idxOf? x with
  | some i => words.set i v
  | none => v :: words

theorem length_storeWords {names : List Text} {words : List Int32} (x : Text) (v : Int32)
    (h : words.length = names.length) :
    (storeWords names words x v).length = (bindName names x).length := by
  unfold storeWords bindName
  cases hi : names.idxOf? x with
  | some i =>
    rw [if_pos (List.mem_of_getElem? (getElem?_of_idxOf? hi)), List.length_set, h]
  | none =>
    rw [if_neg (List.idxOf?_eq_none_iff.mp hi), List.length_cons, List.length_cons, h]

section WordOf

variable {names others : List Text} {words rest : List Int32} {x y : Text} {v : Int32}

theorem wordOf_cons_self : wordOf (x :: names) (v :: words) x = some v := by
  simp [wordOf, List.idxOf?_cons]

theorem wordOf_cons_of_ne (h : y ≠ x) : wordOf (x :: names) (v :: words) y = wordOf names words y := by
  have hbeq : (x == y) = false := by simpa using Ne.symm h
  rw [wordOf, List.idxOf?_cons, hbeq, wordOf]
  cases names.idxOf? y with
  | none => rfl
  | some i => rfl

theorem wordOf_of_not_mem (h : x ∉ names) : wordOf names words x = none := by
  rw [wordOf, List.idxOf?_eq_none_iff.mpr h]
  rfl

theorem wordOf_set_self {i : Nat} (hi : names.idxOf? x = some i)
    (hlen : words.length = names.length) : wordOf names (words.set i v) x = some v := by
  have hlt := lt_length_of_idxOf? hi
  rw [wordOf, hi, Option.bind_some, List.getElem?_set_self (by omega)]

theorem wordOf_set_of_ne {i : Nat} (hi : names[i]? = some x) (h : y ≠ x) :
    wordOf names (words.set i v) y = wordOf names words y := by
  rw [wordOf, wordOf]
  cases hj : names.idxOf? y with
  | none => rfl
  | some j =>
    have hne : i ≠ j := by
      rintro rfl
      rw [getElem?_of_idxOf? hj, Option.some.injEq] at hi
      exact h hi
    rw [Option.bind_some, Option.bind_some, List.getElem?_set_ne hne]

/-- A name means its word in the first part that has it. -/
theorem wordOf_append (hlen : words.length = names.length) :
    wordOf (names ++ others) (words ++ rest) x = (wordOf names words x).or (wordOf others rest x) := by
  rw [wordOf, wordOf, wordOf, idxOf?_append]
  cases hi : names.idxOf? x with
  | some i =>
    have hlt := lt_length_of_idxOf? hi
    have hw : words[i]? = some words[i] := List.getElem?_eq_getElem (by omega)
    rw [Option.some_or, Option.bind_some, Option.bind_some,
      List.getElem?_append_left (by omega), hw, Option.some_or]
  | none =>
    rw [Option.none_or, Option.bind_none, Option.none_or]
    cases others.idxOf? x with
    | none => rfl
    | some j =>
      rw [Option.map_some, Option.bind_some, Option.bind_some,
        List.getElem?_append_right (by omega), hlen, Nat.add_sub_cancel]

end WordOf

/-- A scope and its words. -/
structure ScopeMatches (ret : Int32) (names : List Text) (scope : Scope) (words : List Int32) :
    Prop where
  length : words.length = names.length
  vars : ∀ x, x ≠ Text.ofString "$ra" → scope.vars.get? x = wordOf names words x
  ret : ∀ i : Nat, names[i]? = some (Text.ofString "$ra") → words[i]? = some ret

/-- The scopes of a frame and its words, the innermost scope on top; the return address is `ret`. -/
inductive Frame (ret : Int32) : List (List Text) → Env → List Int32 → Prop where
  | nil : Frame ret [] [] []
  | cons {names : List Text} {scope : Scope} {words : List Int32} {outer : List (List Text)}
      {env : Env} {rest : List Int32} (h : ScopeMatches ret names scope words)
      (houter : Frame ret outer env rest) :
      Frame ret (names :: outer) (scope :: env) (words ++ rest)

namespace ScopeMatches

variable {ret : Int32} {names : List Text} {scope : Scope} {words : List Int32} {x : Text}
  {v : Int32}

theorem empty : ScopeMatches ret [] {} [] := ⟨rfl, fun _ _ => rfl, fun i hi => by simp at hi⟩

theorem set (h : ScopeMatches ret names scope words) (hx : x ≠ Text.ofString "$ra") {i : Nat}
    (hi : names.idxOf? x = some i) :
    ScopeMatches ret names { scope with vars := scope.vars.set x v } (words.set i v) where
  length := by rw [List.length_set, h.length]
  vars y hy := by
    rw [Table.get?_set]
    by_cases hyx : y = x
    · rw [if_pos hyx, hyx, wordOf_set_self hi h.length]
    · rw [if_neg hyx, h.vars y hy, wordOf_set_of_ne (getElem?_of_idxOf? hi) hyx]
  ret j hj := by
    have hne : i ≠ j := by
      rintro rfl
      rw [getElem?_of_idxOf? hi, Option.some.injEq] at hj
      exact hx hj
    rw [List.getElem?_set_ne hne]
    exact h.ret j hj

theorem bind (h : ScopeMatches ret names scope words) (hx : x ≠ Text.ofString "$ra") :
    ScopeMatches ret (x :: names) { scope with vars := scope.vars.set x v } (v :: words) where
  length := by rw [List.length_cons, List.length_cons, h.length]
  vars y hy := by
    rw [Table.get?_set]
    by_cases hyx : y = x
    · rw [if_pos hyx, hyx, wordOf_cons_self]
    · rw [if_neg hyx, h.vars y hy, wordOf_cons_of_ne hyx]
  ret j hj := by
    cases j with
    | zero =>
      rw [List.getElem?_cons_zero, Option.some.injEq] at hj
      exact absurd hj hx
    | succ j => exact h.ret j hj

theorem store (h : ScopeMatches ret names scope words) (hx : x ≠ Text.ofString "$ra") :
    ScopeMatches ret (bindName names x) { scope with vars := scope.vars.set x v }
      (storeWords names words x v) := by
  unfold storeWords bindName
  cases hi : names.idxOf? x with
  | some i =>
    have hmem : x ∈ names := List.mem_of_getElem? (getElem?_of_idxOf? hi)
    rw [if_pos hmem]
    exact h.set hx hi
  | none =>
    rw [if_neg (List.idxOf?_eq_none_iff.mp hi)]
    exact h.bind hx

/-- The return address gets a word, but no name of the program. -/
theorem bindReturn (h : ScopeMatches ret names scope words) :
    ScopeMatches ret (Text.ofString "$ra" :: names) scope (ret :: words) where
  length := by rw [List.length_cons, List.length_cons, h.length]
  vars y hy := by rw [h.vars y hy, wordOf_cons_of_ne hy]
  ret j hj := by
    cases j with
    | zero => rfl
    | succ j => exact h.ret j hj

end ScopeMatches

namespace Frame

variable {ret : Int32} {names : List Text} {outer : List (List Text)} {env : Env}
  {words : List Int32} {x : Text} {v : Int32}

theorem length (h : Frame ret outer env words) : words.length = outer.flatten.length := by
  induction h with
  | nil => rfl
  | cons h houter ih =>
    rw [List.length_append, List.flatten_cons, List.length_append, h.length, ih]

/-- A variable has the value of its word. -/
theorem get? (h : Frame ret outer env words) (hx : x ≠ Text.ofString "$ra") :
    env.get? x = wordOf outer.flatten words x := by
  induction h with
  | nil => rfl
  | cons h houter ih =>
    rw [Env.get?, List.flatten_cons, wordOf_append h.length, ← h.vars x hx, ← ih]
    rename_i scope _ _ _ _
    cases scope.vars.get? x <;> rfl

theorem getElem?_ret (h : Frame ret outer env words) {i : Nat}
    (hi : outer.flatten[i]? = some (Text.ofString "$ra")) : words[i]? = some ret := by
  induction h generalizing i with
  | nil => simp at hi
  | @cons names _ ws outer _ rest h houter ih =>
    rw [List.flatten_cons] at hi
    by_cases hlt : i < names.length
    · rw [List.getElem?_append_left hlt] at hi
      rw [List.getElem?_append_left (by rw [h.length]; exact hlt)]
      exact h.ret i hi
    · rw [List.getElem?_append_right (by omega)] at hi
      rw [List.getElem?_append_right (by rw [h.length]; omega), h.length]
      exact ih hi

theorem update? (h : Frame ret outer env words) (hx : x ≠ Text.ofString "$ra") {i : Nat}
    (hi : outer.flatten.idxOf? x = some i) :
    ∃ env', env.update? x v = some env' ∧ Frame ret outer env' (words.set i v) := by
  induction h generalizing i with
  | nil => simp at hi
  | @cons names scope ws outer env rest h houter ih =>
    rw [List.flatten_cons, idxOf?_append] at hi
    rw [Env.update?, Table.contains, h.vars x hx]
    cases hj : names.idxOf? x with
    | some j =>
      have hlt := lt_length_of_idxOf? hj
      have hlen := h.length
      rw [hj, Option.some_or, Option.some.injEq] at hi
      subst hi
      have hbound : (wordOf names ws x).isSome = true := by
        rw [wordOf, hj, Option.bind_some, List.getElem?_eq_getElem (by omega)]
        rfl
      rw [if_pos hbound, List.set_append_left _ _ (by omega)]
      exact ⟨_, rfl, .cons (h.set hx hj) houter⟩
    | none =>
      rw [hj, Option.none_or] at hi
      obtain ⟨j, hj', rfl⟩ := Option.map_eq_some_iff.mp hi
      obtain ⟨env', henv', hframe⟩ := ih hj'
      have hfree : ¬ (wordOf names ws x).isSome = true := by
        rw [wordOf, hj]
        exact Bool.false_ne_true
      have hlen := h.length
      rw [if_neg hfree, henv', List.set_append_right _ _ (by omega), hlen, Nat.add_sub_cancel]
      exact ⟨_, rfl, .cons h hframe⟩

theorem update?_eq_none (h : Frame ret outer env words) (hx : x ≠ Text.ofString "$ra")
    (hfree : x ∉ outer.flatten) : env.update? x v = none := by
  induction h with
  | nil => rfl
  | cons h houter ih =>
    rw [List.flatten_cons, List.mem_append, not_or] at hfree
    rw [Env.update?, Table.contains, h.vars x hx, wordOf_of_not_mem hfree.1, ih hfree.2]
    rfl

theorem set (h : Frame ret outer env words) (hx : x ≠ Text.ofString "$ra") {i : Nat}
    (hi : outer.flatten.idxOf? x = some i) :
    Frame ret outer (env.set x v) (words.set i v) := by
  obtain ⟨env', henv', hframe⟩ := h.update? (v := v) hx hi
  rw [Env.set, henv']
  exact hframe

theorem bind (h : Frame ret (names :: outer) env words) (hx : x ≠ Text.ofString "$ra")
    (hfree : x ∉ (names :: outer).flatten) :
    Frame ret ((x :: names) :: outer) (env.set x v) (v :: words) := by
  rw [Env.set, h.update?_eq_none hx hfree]
  cases h with
  | cons h houter => exact .cons (h.bind hx) houter

/-- An assignment writes the word of its variable, in a new word if it has none. -/
theorem store (h : Frame ret (names :: outer) env words) (hx : x ≠ Text.ofString "$ra") :
    Frame ret (((if x ∈ (names :: outer).flatten then [] else [x]) ++ names) :: outer)
      (env.set x v) (storeWords (names :: outer).flatten words x v) := by
  unfold storeWords
  cases hi : (names :: outer).flatten.idxOf? x with
  | some i =>
    have hmem := List.mem_of_getElem? (getElem?_of_idxOf? hi)
    rw [if_pos hmem]
    exact h.set hx hi
  | none =>
    have hfree := List.idxOf?_eq_none_iff.mp hi
    rw [if_neg hfree]
    exact h.bind hx hfree

theorem push (h : Frame ret outer env words) : Frame ret ([] :: outer) (env.push {}) words :=
  .cons .empty h

theorem pop (h : Frame ret (names :: outer) env words) :
    Frame ret outer env.pop (words.drop names.length) := by
  cases h with
  | cons h houter =>
    rw [← h.length, List.drop_left]
    exact houter

end Frame

section Entry

variable {ret : Int32}

theorem matches_setAll (params : List Text) (args : List Int32) (hlen : args.length = params.length)
    {names : List Text} {scope : Scope} {words : List Int32}
    (h : ScopeMatches ret names scope words) (hra : Text.ofString "$ra" ∉ params) :
    ScopeMatches ret (params.reverse ++ names)
      { scope with vars := scope.vars.setAll (params.zip args) } (args.reverse ++ words) := by
  induction params generalizing args names scope words with
  | nil =>
    obtain rfl := List.eq_nil_of_length_eq_zero hlen
    exact h
  | cons param params ih =>
    cases args with
    | nil => simp at hlen
    | cons arg args =>
      rw [List.mem_cons, not_or] at hra
      have hbound := ih args (by simpa using hlen) (h.bind (v := arg) (Ne.symm hra.1)) hra.2
      simpa [Table.setAll] using hbound

/-- The words of a procedure where its body begins. -/
def entryWords (ret : Int32) (p : Procedure) (args : List Int32) : List Int32 :=
  ret :: storeWords (paramNames p) args.reverse p.name 0

theorem ra_not_mem_bindName {p : Procedure} (hname : p.name ≠ Text.ofString "$ra")
    (hparams : Text.ofString "$ra" ∉ p.params.map Variable.name) :
    Text.ofString "$ra" ∉ bindName (paramNames p) p.name := by
  unfold bindName paramNames
  split
  · simpa using hparams
  · exact List.not_mem_cons_of_ne_of_not_mem (Ne.symm hname) (by simpa using hparams)

theorem entryNames_eq {p : Procedure} (hname : p.name ≠ Text.ofString "$ra")
    (hparams : Text.ofString "$ra" ∉ p.params.map Variable.name) :
    entryNames p = Text.ofString "$ra" :: bindName (paramNames p) p.name := by
  rw [entryNames, bindName, if_neg (ra_not_mem_bindName hname hparams)]

theorem entryWords_eq {p : Procedure} {args : List Int32} (hname : p.name ≠ Text.ofString "$ra")
    (hparams : Text.ofString "$ra" ∉ p.params.map Variable.name) :
    storeWords (bindName (paramNames p) p.name) (storeWords (paramNames p) args.reverse p.name 0)
      (Text.ofString "$ra") ret = entryWords ret p args := by
  have hfree := List.idxOf?_eq_none_iff.mpr (ra_not_mem_bindName hname hparams)
  rw [storeWords, hfree, entryWords]

/-- The scope in which a procedure starts matches those words. -/
theorem frame_entry {p : Procedure} {args : List Int32} (hlen : args.length = p.params.length)
    (hname : p.name ≠ Text.ofString "$ra")
    (hparams : Text.ofString "$ra" ∉ p.params.map Variable.name) :
    Frame ret [entryNames p] [Run.callScope p args] (entryWords ret p args) := by
  have hempty : ScopeMatches ret [] {} [] := .empty
  have hargs := matches_setAll (p.params.map Variable.name) args (by simpa using hlen) hempty hparams
  rw [List.append_nil, List.append_nil] at hargs
  rw [entryNames_eq hname hparams, ← List.append_nil (entryWords ret p args)]
  exact .cons (hargs.store hname).bindReturn .nil

end Entry

end Assembly

end MiniPascal
