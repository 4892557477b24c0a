import MiniPascal.Proofs.Faults
import MiniPascal.Proofs.Parsing
import MiniPascal.Proofs.Printing

/-! Decimal numerals on all ways in and out. What is written for a word is read as that word: from the
input, in an instruction and, unless it has a sign, in a source, where it may begin with zeros. -/

namespace MiniPascal

theorem Glyph.size_le (g : Glyph) : g.size ≤ 4 := by
  cases g with
  | char c => exact c.utf8Size_le_four
  | stray b => exact Nat.le_of_ble_eq_true rfl

theorem Text.size_le (t : Text) : t.size ≤ 4 * t.length := by
  induction t with
  | nil => exact le_rfl
  | cons g t ih =>
    have hg := g.size_le
    have hsize : Text.size (g :: t) = g.size + Text.size t := rfl
    rw [hsize, List.length_cons]
    omega

namespace Numeral

theorem length_ofWord_le (w : Int32) : (ofWord w).length ≤ 11 := by
  have hdigits : ∀ n : Nat, n ≤ 2 ^ 31 → (ofNat n).length ≤ 10 := by
    intro n hn
    rw [ofNat, Text.ofChars, List.length_map]
    exact Nat.toDigits_length 10 n 10 (by decide) (by omega)
  have hlo := w.le_toInt
  have hhi := w.toInt_lt
  rw [ofWord]
  cases hw : w.toInt with
  | ofNat n =>
    have hlength := hdigits n (by rw [hw] at hhi; simp only [Int.ofNat_eq_natCast] at hhi; omega)
    exact Nat.le_succ_of_le hlength
  | negSucc n =>
    have hlength := hdigits (n + 1) (by rw [hw] at hlo; omega)
    exact Nat.succ_le_succ hlength

theorem not_isBlank_of_mem_ofWord {w : Int32} {g : Glyph} (h : g ∈ ofWord w) : g.isBlank = false :=
  Glyph.not_blank_of_isPlain ((Assembly.isWord_ofInt w.toInt).2 g h)

end Numeral

namespace Input

variable {i : Input} {blanks word after : Text} {v : Int32}

theorem FirstWord.next (h : FirstWord i.rest blanks word after) (hfits : isOverlong word after = false)
    (hread : Numeral.readWord? .decimal word = some v) :
    ∃ left, i.next = (.ok v, left) ∧ left.rest = after.tail ∧ left.ending = i.ending := by
  obtain ⟨hne, hword⟩ := h.word
  have htrim : i.rest.trimLeft = word ++ after := by
    obtain ⟨g, rest, rfl⟩ := List.exists_cons_of_ne_nil hne
    rw [h.text, List.append_assoc, Text.trimLeft, List.dropWhile_append_of_pos h.blanks,
      List.cons_append, List.dropWhile_cons_of_neg (by simp [hword g List.mem_cons_self])]
  have hplain : ∀ g ∈ word, (!g.isBlank) = true := fun g hg => by rw [hword g hg]; rfl
  have htake : i.rest.trimLeft.takeWhile (!·.isBlank) = word := by
    rw [htrim, List.takeWhile_append_of_pos hplain]
    cases after with
    | nil => simp
    | cons g rest => simp [h.after g rfl]
  have hdrop : i.rest.trimLeft.dropWhile (!·.isBlank) = after := by
    rw [htrim, List.dropWhile_append_of_pos hplain]
    cases after with
    | nil => rfl
    | cons g rest => exact List.dropWhile_cons_of_neg (by simp [h.after g rfl])
  rw [Input.next]
  simp only [htake, hdrop, hne, hfits, hread, if_false, and_false, Bool.false_eq_true]
  exact ⟨_, rfl, rfl, rfl⟩

theorem not_isOverlong_ofWord (v : Int32) (after : Text) :
    isOverlong (Numeral.ofWord v) after = false := by
  have hsize := (Numeral.ofWord v).size_le
  have hlength := Numeral.length_ofWord_le v
  have hwindow : window = 65536 := rfl
  cases after with
  | nil =>
    rw [isOverlong, decide_eq_false_iff_not]
    omega
  | cons g after =>
    have hg := g.size_le
    rw [isOverlong, decide_eq_false_iff_not]
    omega

theorem next_of_blank (h : ∀ g ∈ i.rest, g.isBlank = true) :
    ∃ left, i.next = (.error i.ending.error, left) ∧ left.rest = [] ∧ left.ending = i.ending := by
  have htrim : i.rest.trimLeft = [] := List.dropWhile_eq_nil_iff.mpr h
  rw [Input.next]
  simp only [htrim, List.takeWhile_nil, if_true]
  exact ⟨_, rfl, rfl, rfl⟩

/-- What the first `n` requests for a number are answered. -/
def answers : Nat → Input → List (Except InputError Int32)
  | 0, _ => []
  | n + 1, i => i.next.1 :: answers n i.next.2

theorem answers_of_blank (h : ∀ g ∈ i.rest, g.isBlank = true) (n : Nat) :
    i.answers n = List.replicate n (.error i.ending.error) := by
  induction n generalizing i with
  | zero => rfl
  | succ n ih =>
    obtain ⟨left, hnext, hrest, hending⟩ := next_of_blank h
    rw [answers, hnext, ih (by simp [hrest]), hending, List.replicate_succ]

/-- The numerals of some words with what stands behind each. -/
def spelled (items : List (Int32 × Text)) : Text := items.flatMap fun x => Numeral.ofWord x.1 ++ x.2

/-- Nothing but blanks stands behind the words, and at least one between any two. -/
structure Spaced (items : List (Int32 × Text)) : Prop where
  blank : ∀ x ∈ items, ∀ g ∈ x.2, g.isBlank = true
  apart : ∀ x ∈ items.dropLast, x.2 ≠ []

section Spaced

variable {gap lead : Text} {items : List (Int32 × Text)}

theorem Spaced.tail (h : Spaced ((v, gap) :: items)) : Spaced items := by
  refine ⟨fun x hx => h.blank x (List.mem_cons_of_mem _ hx), fun x hx => ?_⟩
  have hne : items ≠ [] := fun hnil => by simp [hnil] at hx
  exact h.apart x (by simp [List.dropLast_cons_of_ne_nil hne, hx])

theorem Spaced.eq_nil (h : Spaced ((v, gap) :: items)) (hgap : gap = []) : items = [] := by
  by_contra hne
  exact h.apart (v, gap) (by simp [List.dropLast_cons_of_ne_nil hne]) hgap

theorem Spaced.firstWord (h : Spaced ((v, gap) :: items)) (hlead : ∀ g ∈ lead, g.isBlank = true) :
    FirstWord (lead ++ spelled ((v, gap) :: items)) lead (Numeral.ofWord v) (gap ++ spelled items) where
  text := by simp [spelled]
  blanks := hlead
  word := ⟨Numeral.ofInt_ne_nil _, fun _ => Numeral.not_isBlank_of_mem_ofWord⟩
  after g hg := by
    cases gap with
    | nil => simp [h.eq_nil rfl, spelled] at hg
    | cons k gap =>
      obtain rfl : k = g := Option.some.inj hg
      exact h.blank _ List.mem_cons_self k List.mem_cons_self

theorem answers_of_spelled (hlead : ∀ g ∈ lead, g.isBlank = true) (hitems : Spaced items)
    (hrest : i.rest = lead ++ spelled items) (n : Nat) :
    i.answers (items.length + n) =
      items.map (.ok ·.1) ++ List.replicate n (.error i.ending.error) := by
  induction items generalizing i lead with
  | nil =>
    rw [List.length_nil, Nat.zero_add, answers_of_blank (by simpa [hrest, spelled] using hlead)]
    rfl
  | cons x items ih =>
    obtain ⟨v, gap⟩ := x
    obtain ⟨left, hnext, hleft, hending⟩ := FirstWord.next (hrest ▸ hitems.firstWord hlead)
      (not_isOverlong_ofWord v _) (Numeral.readWord?_ofWord .decimal v)
    -- The request takes one blank with the word; the others lead to the next word.
    have htail : left.rest = gap.tail ++ spelled items := by
      rw [hleft]
      cases gap with
      | nil => simp [hitems.eq_nil rfl, spelled]
      | cons k gap => rfl
    have hblank : ∀ g ∈ gap.tail, g.isBlank = true := fun g hg =>
      hitems.blank _ List.mem_cons_self g (List.mem_of_mem_tail hg)
    have hanswers := ih hblank hitems.tail htail
    rw [hending] at hanswers
    rw [List.length_cons, Nat.succ_add, answers, hnext, hanswers, List.map_cons, List.cons_append]

end Spaced

end Input

namespace Code

theorem labelTable_append (index : Nat) (raws others : List Text) :
    labelTable index (raws ++ others) =
      labelTable index raws ++ labelTable (index + raws.countP Text.holdsInstr) others := by
  induction raws generalizing index with
  | nil => rfl
  | cons raw raws ih =>
    rw [List.cons_append, labelTable, labelTable, ih, List.append_assoc, List.countP_cons]
    by_cases hraw : raw.holdsInstr = true
    · rw [if_pos hraw, if_pos hraw, Nat.add_assoc, Nat.add_comm 1]
    · rw [if_neg hraw, if_neg hraw, Nat.add_zero]

end Code

namespace Assembly

/-- A line that loads a word into the result register. -/
def loadLine (v : Int32) : Text := Text.join " " ["li", "$v0", Numeral.ofWord v]

theorem loadLine_words (v : Int32) :
    ∀ w ∈ [Text.ofString "li", "$v0", Numeral.ofWord v], w.IsWord := by
  have hli : (Text.ofString "li").IsWord := ⟨by decide, by decide⟩
  have hreg : (Text.ofString "$v0").IsWord := ⟨by decide, by decide⟩
  simpa using ⟨hli, hreg, isWord_ofInt v.toInt⟩

theorem newline_not_mem_loadLine (v : Int32) : .char '\n' ∉ loadLine v :=
  Text.not_mem_join rfl (by decide) (loadLine_words v)

theorem row_loadLine (number : Nat) (v : Int32) :
    AsmLine.row number (loadLine v) = ⟨number, [], "li", ["$v0", Numeral.ofWord v], loadLine v⟩ := by
  have hwords := loadLine_words v
  have hcolon : .char ':' ∉ loadLine v := Text.not_mem_join rfl (by decide) hwords
  have hline := @AsmLine.ofText_of_not_mem number _ _ (Line.trim_before_hash_join hwords) hcolon
  rw [Text.fields_join hwords] at hline
  exact (AsmLine.ofText_eq_ok_iff.mp hline).2.symm

theorem holdsInstr_loadLine (v : Int32) : (loadLine v).holdsInstr = true := by
  rw [← AsmLine.isInstr_row 0, row_loadLine]
  rfl

theorem labelNames_loadLine (v : Int32) : (loadLine v).labelNames = [] :=
  congrArg AsmLine.labels (row_loadLine 0 v)

theorem assemble_loadLine (number : Nat) (labels : Table Nat) (v : Int32) :
    (AsmLine.row number (loadLine v)).assemble labels =
      .ok ⟨.li Reg.v0 v, (number : Nat), loadLine v⟩ := by
  rw [row_loadLine, AsmLine.assemble, AsmLine.decodes_li_word]
  rfl

/-- The line loads its word wherever it stands. -/
theorem fetch_loadLine {text : Text} {code : Code} (h : Code.ofText text = .ok code)
    {above below : List Text} {v : Int32} (hlines : text.lines = above ++ loadLine v :: below) :
    code.fetch (above.countP Text.holdsInstr : Nat) =
      some ⟨.li Reg.v0 v, (above.length + 1 : Nat), loadLine v⟩ := by
  obtain ⟨i, hfetch, hassemble⟩ := Code.fetch_of_lines h hlines (holdsInstr_loadLine v)
  rw [assemble_loadLine] at hassemble
  rw [hfetch, Except.ok.inj hassemble]

/-- The line can follow any text that assembles. -/
theorem ofText_append_loadLine {text : Text} {code : Code} (h : Code.ofText text = .ok code)
    (v : Int32) :
    Code.ofText (text ++ "\n" ++ loadLine v) = .ok { code with
      instrs := code.instrs.push ⟨.li Reg.v0 v, (text.lines.length + 1 : Nat), loadLine v⟩ } := by
  obtain ⟨haccepted, hnodup, hlabels, hinstrs, hentry⟩ := Code.ofText_eq_ok_iff.mp h
  have hlines : (text ++ "\n" ++ loadLine v).lines = text.lines ++ [loadLine v] := by
    have hbreak : text ++ "\n" ++ loadLine v = text ++ .char '\n' :: loadLine v :=
      List.append_assoc _ _ _
    rw [hbreak, Text.lines, List.splitOn_append_cons_self,
      List.splitOn_eq_singleton (newline_not_mem_loadLine v), Text.lines]
  -- The line has no label and stands behind all others, so no label changes its place.
  refine Code.ofText_eq_ok_iff.mpr ⟨?_, ?_, ?_, ?_, hentry⟩
  · rw [hlines]
    refine List.forall_mem_append.mpr ⟨haccepted, List.forall_mem_singleton.mpr ⟨?_, ?_⟩⟩
    · rw [labelNames_loadLine]
      exact List.forall_mem_nil _
    · rw [holdsInstr_loadLine]
      exact fun hf => absurd hf (by decide)
  · rw [hlines, List.flatMap_append, List.flatMap_singleton, labelNames_loadLine, List.append_nil]
    exact hnodup
  · rw [hlines, Code.labelTable_append, Code.labelTable, Code.labelTable, labelNames_loadLine]
    simpa using hlabels
  · have hfilter : ([loadLine v].zipIdx (1 + text.lines.length)).filter (·.1.holdsInstr) =
        [(loadLine v, 1 + text.lines.length)] := by
      rw [List.zipIdx_singleton, List.filter_singleton, holdsInstr_loadLine]
      rfl
    rw [hlines, List.zipIdx_append, List.filter_append, hfilter, Array.toList_push, Nat.add_comm 1]
    exact List.rel_append hinstrs (.cons (assemble_loadLine _ _ v) .nil)

end Assembly

namespace Machine

theorem step_prints {code : Code} {m : Machine} {l : Located} {limit : Option Nat}
    (hrunning : m.halted = false) (hfetch : code.fetch m.pc = some l) (hinstr : l.instr = .syscall)
    (hservice : m.reg Reg.v0 = 1) (hallowed : ∀ n, limit = some n → m.steps < n)
    (hroom : m.sink.room ≠ some 0) :
    ∃ after, m.step code limit = (none, after) ∧
      after.sink.written = m.sink.written ++ (Numeral.ofWord (m.reg Reg.a0)).bytes := by
  have hwrite : ∃ sink, m.sink.write (Numeral.ofWord (m.reg Reg.a0)).bytes = .ok sink := by
    unfold Sink.write
    split
    · exact ⟨_, rfl⟩
    · contradiction
    · exact ⟨_, rfl⟩
  obtain ⟨sink, hsink⟩ := hwrite
  have hperform : perform { m with steps := m.steps + 1 } l.instr =
      .ok (next { m with steps := m.steps + 1, sink }) := by
    rw [hinstr]
    change (if m.reg Reg.v0 = 1 then
      emit { m with steps := m.steps + 1 } (Numeral.ofWord (m.reg Reg.a0)).bytes else _) = _
    rw [if_pos hservice, emit, hsink]
  rcases step_of_fetch hrunning hfetch limit with ⟨n, hlimit, hn, -⟩ | hstep
  · exact absurd (hallowed n hlimit) (Nat.not_lt.mpr hn)
  · refine ⟨_, hstep.trans (advance_ok hperform), ?_⟩
    exact Sink.written_write hsink

end Machine

mutual

/-- The constants of an expression, each with its token. -/
def Expr.literals : Expr → List (Token × Int32)
  | .literal t value _ _ => [(t, value)]
  | .binary _ _ left right => left.literals ++ right.literals
  | .call _ _ args => Expr.literalsAll args
  | .var _ => []
  | .missing => []

def Expr.literalsAll : List Expr → List (Token × Int32)
  | [] => []
  | e :: es => e.literals ++ Expr.literalsAll es

end

mutual

/-- The constants of a statement, each with its token. -/
def Stmt.literals : Stmt → List (Token × Int32)
  | .assign _ _ value => value.literals
  | .block _ body => Stmt.literalsAll body
  | .ifThen _ cond body => cond.literals ++ body.literals
  | .ifElse _ cond body alternative => cond.literals ++ (body.literals ++ alternative.literals)
  | .loop _ cond body => cond.literals ++ body.literals
  | .writeLn _ value => value.literals
  | .readLn _ _ => []
  | .call _ _ args => Expr.literalsAll args
  | .declare _ _ _ body => body.literals
  | .missing => []

def Stmt.literalsAll : List Stmt → List (Token × Int32)
  | [] => []
  | s :: ss => s.literals ++ Stmt.literalsAll ss

end

def Program.literals (p : Program) : List (Token × Int32) :=
  Stmt.literalsAll (p.procedures.map Declaration.toStmt) ++ Stmt.literalsAll p.main.toList

def Phrase.literals : Phrase → List (Token × Int32)
  | .term _ e => e.literals
  | .items es => Expr.literalsAll es
  | .arguments es => Expr.literalsAll es
  | .statement _ s => s.literals
  | .statements ss => Stmt.literalsAll ss

theorem Stmt.subset_literals_forLoop (t : Token) (v : Variable) (first last : Expr) (body : Stmt) :
    first.literals ++ (last.literals ++ body.literals) ⊆ (Stmt.forLoop t v first last body).literals := by
  have hliterals : (Stmt.forLoop t v first last body).literals =
      first.literals ++ ((last.literals ++ (body.literals ++
        [({ kind := .number, literal := "1" }, 1)])) ++ []) := rfl
  rw [hliterals, List.append_nil, ← List.append_assoc, ← List.append_assoc, ← List.append_assoc]
  exact List.subset_append_left _ _

/-- Every number among the tokens fits a word and is one of the constants. -/
def Kept (ts : List Token) (ls : List (Token × Int32)) : Prop :=
  ∀ d ∈ ts, d.kind = .number → ∃ value, d.IsNumeral value ∧ (d, value) ∈ ls

section Kept

variable {us vs : List Token} {ls ms : List (Token × Int32)} {t : Token}

theorem Kept.append (h : Kept us ls) (h' : Kept vs ms) : Kept (us ++ vs) (ls ++ ms) := by
  intro d hd hkind
  rcases List.mem_append.mp hd with hd | hd
  · obtain ⟨value, hvalue, hmem⟩ := h d hd hkind
    exact ⟨value, hvalue, List.mem_append_left ms hmem⟩
  · obtain ⟨value, hvalue, hmem⟩ := h' d hd hkind
    exact ⟨value, hvalue, List.mem_append_right ls hmem⟩

theorem Kept.mono (h : Kept us ls) (hsub : ls ⊆ ms) : Kept us ms := by
  intro d hd hkind
  obtain ⟨value, hvalue, hmem⟩ := h d hd hkind
  exact ⟨value, hvalue, hsub hmem⟩

theorem kept_of_kind (h : ∀ u ∈ us, u.kind ≠ .number) (ls : List (Token × Int32)) : Kept us ls :=
  fun d hd hkind => absurd hkind (h d hd)

theorem Kept.append_others (h : Kept us ls) (hvs : ∀ v ∈ vs, v.kind ≠ .number) :
    Kept (us ++ vs) ls := by
  simpa using h.append (kept_of_kind hvs [])

theorem Kept.others_append (hus : ∀ u ∈ us, u.kind ≠ .number) (h : Kept vs ls) :
    Kept (us ++ vs) ls :=
  (kept_of_kind hus []).append h

theorem Kept.cons (ht : t.kind ≠ .number) (h : Kept us ls) : Kept (t :: us) ls :=
  h.others_append (List.forall_mem_singleton.mpr ht)

theorem Kept.join (h : Kept us ls) (ht : t.kind ≠ .number) (h' : Kept vs ms) :
    Kept (us ++ t :: vs) (ls ++ ms) :=
  h.append (.cons ht h')

end Kept

namespace Token

variable {t : Token}

theorem kind_ne_of_isWord {w : Text} (h : t.isWord w) : t.kind ≠ .number := by
  rw [(isWord_iff.mp h).1]
  decide

theorem kind_ne_of_isSymbol {w : Text} (h : t.isSymbol w) : t.kind ≠ .number := by
  rw [(isSymbol_iff.mp h).1]
  decide

theorem IsName.kind_ne (h : t.IsName) : t.kind ≠ .number := by
  rw [h.1]
  decide

theorem Spells.kind_ne {op : Operator} (h : t.Spells op) : t.kind ≠ .number := by
  rw [h.2]
  split <;> decide

end Token

open Token in
theorem kind_ne_of_parameters {vs : List Variable} {us : List Token}
    (h : Parenthesized IsParameter vs us) : ∀ u ∈ us, u.kind ≠ .number := by
  have hlisted : ∀ {vs : List Variable} {us : List Token}, Listed IsParameter vs us →
      ∀ u ∈ us, u.kind ≠ .number := by
    intro vs us h
    induction h with
    | one ha =>
      obtain ⟨t, ht, -, rfl⟩ := ha
      simpa using ht.kind_ne
    | more ha hcomma _ ih =>
      obtain ⟨t, ht, -, rfl⟩ := ha
      simpa using ⟨ht.kind_ne, kind_ne_of_isSymbol hcomma, ih⟩
  cases h with
  | none hl hr => simpa using ⟨kind_ne_of_isSymbol hl, kind_ne_of_isSymbol hr⟩
  | some hl has hr =>
    exact List.forall_mem_cons.mpr ⟨kind_ne_of_isSymbol hl, List.forall_mem_append.mpr
      ⟨hlisted has, List.forall_mem_singleton.mpr (kind_ne_of_isSymbol hr)⟩⟩

open Token in
/-- No number is lost and none changed on the way from the tokens to the tree. -/
theorem Derives.kept {p : Phrase} {us : List Token} (h : Derives p us) : Kept us p.literals := by
  have hnone : ∀ {ls}, Kept [] ls := fun {ls} => kept_of_kind (List.forall_mem_nil _) ls
  have hone : ∀ {us ls} {t : Token} {w : Text}, Kept us ls → t.isSymbol w → Kept (us ++ [t]) ls :=
    fun h ht => h.append_others (List.forall_mem_singleton.mpr (kind_ne_of_isSymbol ht))
  induction h with
  | number ht =>
    intro d hd _
    rw [List.mem_singleton.mp hd]
    exact ⟨_, ht, List.mem_singleton_self _⟩
  | trueWord ht => exact .cons (kind_ne_of_isWord ht) hnone
  | falseWord ht => exact .cons (kind_ne_of_isWord ht) hnone
  | var ht => exact .cons ht.kind_ne hnone
  | call ht _ ih => exact ih.cons ht.kind_ne
  | parens hl _ hr ih => exact (hone ih hr).cons (kind_ne_of_isSymbol hl)
  | minus ht _ ih => exact (ih.cons (kind_ne_of_isSymbol ht)).mono (List.subset_cons_self _ _)
  | climb _ _ ih => exact ih
  | binary _ _ ht _ ihl ihr => exact ihl.join ht.kind_ne ihr
  | item _ ih => exact ih.mono (by simp [Phrase.literals, Expr.literalsAll])
  | items _ hcomma _ ih ihs => exact ih.join (kind_ne_of_isSymbol hcomma) ihs
  | noArguments hl hr => exact (hnone.cons (kind_ne_of_isSymbol hr)).cons (kind_ne_of_isSymbol hl)
  | arguments hl _ hr ih => exact (hone ih hr).cons (kind_ne_of_isSymbol hl)
  | assign ht hsign _ hsemi ih =>
    exact ((hone ih hsemi).cons (kind_ne_of_isSymbol hsign)).cons ht.kind_ne
  | callStatement ht _ hsemi ih => exact (hone ih hsemi).cons ht.kind_ne
  | writeLn ht hl _ hr hsemi ih =>
    have hends := ih.append_others (List.forall_mem_cons.mpr
      ⟨kind_ne_of_isSymbol hr, List.forall_mem_singleton.mpr (kind_ne_of_isSymbol hsemi)⟩)
    exact (hends.cons (kind_ne_of_isSymbol hl)).cons (kind_ne_of_isWord ht)
  | readLn ht hl hv hr hsemi =>
    refine kept_of_kind ?_ _
    simpa using ⟨kind_ne_of_isWord ht, kind_ne_of_isSymbol hl, hv.kind_ne, kind_ne_of_isSymbol hr,
      kind_ne_of_isSymbol hsemi⟩
  | block ht _ hfinal hsemi ih =>
    have hends := ih.append_others (List.forall_mem_cons.mpr
      ⟨kind_ne_of_isWord hfinal, List.forall_mem_singleton.mpr (kind_ne_of_isSymbol hsemi)⟩)
    exact hends.cons (kind_ne_of_isWord ht)
  | bareBlock ht _ hfinal ih =>
    have hends := ih.append_others (List.forall_mem_singleton.mpr (kind_ne_of_isWord hfinal))
    exact hends.cons (kind_ne_of_isWord ht)
  | ifThen ht _ hthen _ ihc ihb =>
    exact (ihc.join (kind_ne_of_isWord hthen) ihb).cons (kind_ne_of_isWord ht)
  | ifElse ht _ hthen _ helse _ ihc ihb iha =>
    exact (ihc.join (kind_ne_of_isWord hthen) (ihb.join (kind_ne_of_isWord helse) iha)).cons
      (kind_ne_of_isWord ht)
  | loop ht _ hdo _ ihc ihb =>
    exact (ihc.join (kind_ne_of_isWord hdo) ihb).cons (kind_ne_of_isWord ht)
  | forLoop ht hv hsign _ hto _ hdo _ ihf ihl ihb =>
    -- The tree has one more constant, the step of the loop.
    have hparts := ihf.join (kind_ne_of_isWord hto) (ihl.join (kind_ne_of_isWord hdo) ihb)
    have hall := ((hparts.cons (kind_ne_of_isSymbol hsign)).cons hv.kind_ne).cons (kind_ne_of_isWord ht)
    exact hall.mono (Stmt.subset_literals_forLoop _ _ _ _ _)
  | declare ht hcalled hparams hsemi _ ih =>
    have hends := (ih.cons (kind_ne_of_isSymbol hsemi)).others_append (kind_ne_of_parameters hparams)
    exact (hends.cons hcalled.kind_ne).cons (kind_ne_of_isWord ht)
  | noStatements => exact hnone
  | statements _ _ _ ih ihs => exact ih.append ihs

theorem Declares.kept {ds : List Declaration} {us : List Token} (h : Declares ds us) :
    Kept us (Stmt.literalsAll (ds.map Declaration.toStmt)) := by
  induction h with
  | nil => exact kept_of_kind (List.forall_mem_nil _) _
  | cons hd _ _ ih => exact hd.kept.append ih

theorem Program.Derives.kept {p : Program} {us : List Token} (h : p.Derives us) :
    Kept us p.literals := by
  have hmain : ∀ s : Stmt, s.literals ⊆ Stmt.literalsAll (some s).toList :=
    fun s => List.subset_append_left s.literals []
  cases h with
  | plain hds hs _ => exact hds.kept.append (hs.kept.mono (hmain _))
  | period hds hs hdot =>
    refine hds.kept.append (Kept.append_others (hs.kept.mono (hmain _)) ?_)
    exact List.forall_mem_singleton.mpr (Token.kind_ne_of_isSymbol hdot)

section Sources

open Token

variable {t : Text} {ts : List Token} {d e : Token}

theorem mem_literals_of_scans {p : Program} (h : (Source.ofText t none).Scans ts e)
    (hp : Program.ofText t = .ok p) (hd : d ∈ ts) (hkind : d.kind = .number) :
    ∃ value, d.IsNumeral value ∧ (d, value) ∈ p.literals := by
  obtain ⟨ts', e', hscans, hdescribes⟩ := Program.exists_scans hp
  rw [← h.unique hscans] at hdescribes
  exact hdescribes.1.kept d hd hkind

theorem exists_parse_error_of_decimal (h : (Source.ofText t none).Scans ts e) (hd : d ∈ ts)
    (hkind : d.kind = .number) (hlarge : 2147483647 < decimal d.literal.chars) :
    ∃ cause found, Program.ofText t = .error (.parse cause found) := by
  refine Program.exists_parse_error h fun p hp => ?_
  obtain ⟨value, hvalue, -⟩ := mem_literals_of_scans h hp hd hkind
  exact absurd hvalue.2.1 (Nat.not_le.mpr hlarge)

/-- A number in front of which zeros stand. -/
def padded (zeros : Nat) (v : Int32) : Text :=
  Text.ofChars (List.replicate zeros '0') ++ Numeral.ofWord v

theorem decimal_zeros (zeros : Nat) (cs : List Char) :
    decimal (List.replicate zeros '0' ++ cs) = decimal cs := by
  induction zeros with
  | zero => rfl
  | succ zeros ih => exact ih

theorem exists_padded_eq {v : Int32} (hv : 0 ≤ v) (zeros : Nat) :
    ∃ n : Nat, n ≤ 2147483647 ∧ v = Int32.ofNat n ∧
      padded zeros v = Text.ofChars (List.replicate zeros '0' ++ Nat.toDigits 10 n) := by
  obtain ⟨n, hn⟩ := Int.eq_ofNat_of_zero_le (Int32.le_iff_toInt_le.mp hv)
  have hlt := v.toInt_lt
  refine ⟨n, by omega, ?_, ?_⟩
  · rw [← Int32.ofInt_toInt v, hn]
    rfl
  · rw [padded, Numeral.ofWord, hn, Text.ofChars_append]
    rfl

theorem isNumeral_of_padded {v : Int32} (hv : 0 ≤ v) {zeros : Nat} (hkind : d.kind = .number)
    (hd : d.literal = padded zeros v) : d.IsNumeral v := by
  obtain ⟨n, hn, rfl, htext⟩ := exists_padded_eq hv zeros
  rw [IsNumeral, hd, htext, Text.chars_ofChars, decimal_zeros, decimal_toDigits]
  exact ⟨hkind, hn, rfl⟩

theorem isLexeme_zero_cons {ds : List Char} (h : IsLexeme .number ds) :
    IsLexeme .number ('0' :: ds) := by
  cases h with
  | number hc hcs => exact .number (by decide) (List.forall_mem_cons.mpr ⟨hc, hcs⟩)

theorem exists_isLexeme_padded {v : Int32} (hv : 0 ≤ v) (zeros : Nat) :
    ∃ ds, IsLexeme .number ds ∧ padded zeros v = Text.ofChars ds := by
  obtain ⟨n, -, -, htext⟩ := exists_padded_eq hv zeros
  refine ⟨_, ?_, htext⟩
  clear htext
  induction zeros with
  | zero => exact isLexeme_toDigits n
  | succ zeros ih => exact isLexeme_zero_cons ih

theorem exists_scans_writeLn {ds : List Char} (hds : IsLexeme .number ds) :
    ∃ w l d r semi e, (Source.ofText ("WRITELN(" ++ (Text.ofChars ds ++ ");")) none).Scans
        [w, l, d, r, semi] e ∧ d.kind = .number ∧ d.literal = Text.ofChars ds ∧
      w.isWord "WRITELN" ∧ l.isSymbol "(" ∧ r.isSymbol ")" ∧ semi.isSymbol ";" := by
  have hfront := (prints_word (w := "WRITELN") (by decide)).append_break prints_open
    ⟨'(', [], rfl, by decide, by decide⟩
  have hback := (prints_lexeme hds (by decide)).append_break (prints_close.append prints_semi)
    ⟨')', [';'], rfl, by decide, by decide⟩
  obtain ⟨ws, hlexes, hshapes⟩ := hfront.append hback
  obtain ⟨ts, e, hscans, hts⟩ := (hlexes [] fun hf => absurd hf Bool.false_ne_true).exists_scans
  obtain ⟨_, _, rfl, ⟨_, _, rfl, ⟨w, rfl, hw⟩, l, rfl, hl⟩,
    _, _, rfl, ⟨d, rfl, hd⟩, _, _, rfl, ⟨r, rfl, hr⟩, semi, rfl, hsemi⟩ := hshapes ts hts
  obtain ⟨hkind, hliteral⟩ := shape_eq_iff.mp hd
  exact ⟨w, l, d, r, semi, e, hscans, hkind, hliteral, hw, hl, hr, hsemi⟩

theorem ofText_writeLn_padded {v : Int32} (hv : 0 ≤ v) (zeros : Nat) :
    ∃ w d, d.literal = padded zeros v ∧
      Program.ofText ("WRITELN(" ++ (padded zeros v ++ ");")) =
        .ok ⟨[], some (.writeLn w (.literal d v .int false))⟩ := by
  obtain ⟨ds, hds, htext⟩ := exists_isLexeme_padded hv zeros
  obtain ⟨w, l, d, r, semi, e, hscans, hkind, hliteral, hw, hl, hr, hsemi⟩ := exists_scans_writeLn hds
  rw [← htext] at hscans hliteral
  have hnumeral := isNumeral_of_padded hv hkind hliteral
  have hterm := (Derives.number hnumeral).climb_le (Nat.zero_le 4) (Nat.le_refl 4)
  refine ⟨w, d, hliteral, Program.ofText_of_describes hscans ⟨?_, fun declaration => ?_⟩⟩
  · exact .plain .nil (.writeLn hw hl hterm hr hsemi) (by decide)
  · simp [Declaration.toStmt]

end Sources

open Assembly Token in
/-- Numbers that are written with blanks between them are read from the input one by one; the machine
prints a number as it is written; a line that loads a number holds its value; and a source holds the
constants that its digits stand for, unless one of them does not fit a word. -/
theorem numerals_read_back :
    (∀ (lead : Text) (items : List (Int32 × Text)) (n : Nat), (∀ g ∈ lead, g.isBlank = true) →
      Input.Spaced items →
      (Input.ofText (lead ++ Input.spelled items) none).answers (items.length + n) =
        items.map (.ok ·.1) ++ List.replicate n (.error .atEnd)) ∧
    (∀ (code : Code) (m : Machine) (l : Located) (limit : Option Nat), m.halted = false →
      code.fetch m.pc = some l → l.instr = .syscall → m.reg Reg.v0 = 1 →
      (∀ n, limit = some n → m.steps < n) → m.sink.room ≠ some 0 →
      ∃ after, m.step code limit = (none, after) ∧
        after.sink.written = m.sink.written ++ (Numeral.ofWord (m.reg Reg.a0)).bytes) ∧
    (∀ (v : Int32) (text : Text) (code : Code), Code.ofText text = .ok code →
      Code.ofText (text ++ "\n" ++ loadLine v) = .ok { code with
        instrs := code.instrs.push ⟨.li Reg.v0 v, (text.lines.length + 1 : Nat), loadLine v⟩ } ∧
      ∀ above below, text.lines = above ++ loadLine v :: below →
        code.fetch (above.countP Text.holdsInstr : Nat) =
          some ⟨.li Reg.v0 v, (above.length + 1 : Nat), loadLine v⟩) ∧
    (∀ (v : Int32) (zeros : Nat), 0 ≤ v → ∃ w d, d.literal = padded zeros v ∧
      Program.ofText ("WRITELN(" ++ (padded zeros v ++ ");")) =
        .ok ⟨[], some (.writeLn w (.literal d v .int false))⟩) ∧
    (∀ ds : List Char, ds ≠ [] → (∀ c ∈ ds, Source.isDigit c = true) → 2147483647 < decimal ds →
      ∃ cause found, Program.ofText ("WRITELN(" ++ (Text.ofChars ds ++ ");")) =
        .error (.parse cause found)) ∧
    ∀ (t : Text) (ts : List Token) (e : Token), (Source.ofText t none).Scans ts e →
      ∀ d ∈ ts, d.kind = .number →
        (∀ (v : Int32) (zeros : Nat) (p : Program), 0 ≤ v → d.literal = padded zeros v →
          Program.ofText t = .ok p → (d, v) ∈ p.literals) ∧
        (2147483647 < decimal d.literal.chars →
          ∃ cause found, Program.ofText t = .error (.parse cause found)) := by
  refine ⟨fun lead items n hlead hitems => Input.answers_of_spelled hlead hitems rfl n,
    fun code m l limit => Machine.step_prints,
    fun v text code h => ⟨ofText_append_loadLine h v, fun above below => fetch_loadLine h⟩,
    fun v zeros hv => ofText_writeLn_padded hv zeros, fun ds hne hds hlarge => ?_,
    fun t ts e hscans d hd hkind => ⟨fun v zeros p hv hliteral hp => ?_,
      exists_parse_error_of_decimal hscans hd hkind⟩⟩
  · obtain ⟨c, cs, rfl⟩ := List.exists_cons_of_ne_nil hne
    have hlexeme := List.forall_mem_cons.mp hds
    obtain ⟨w, l, d, r, semi, e, hscans, hkind, hliteral, -⟩ :=
      exists_scans_writeLn (.number hlexeme.1 hlexeme.2)
    refine exists_parse_error_of_decimal hscans (d := d) (by simp) hkind ?_
    rwa [hliteral, Text.chars_ofChars]
  · -- The digits fix the value, and zeros in front do not change it.
    obtain ⟨value, hvalue, hmem⟩ := mem_literals_of_scans hscans hp hd hkind
    have hsame := isNumeral_of_padded hv hkind hliteral
    rwa [hsame.2.2, ← hvalue.2.2]

end MiniPascal
