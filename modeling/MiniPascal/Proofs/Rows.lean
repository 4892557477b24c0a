import MiniPascal.Proofs.Lines

/-! Any line of assembly text, taken apart. Up to its comment the colons of a line separate pieces: the
last one holds the words of the line, and each one before it is a label once the blanks around it are
dropped. Blanks at the ends of a line do not matter. -/

namespace MiniPascal

namespace Text

section Blanks

variable {a b : Text}

theorem trim_blanks_append (ha : ∀ g ∈ a, g.isBlank = true) (t : Text) : trim (a ++ t) = trim t := by
  have hdrop : List.dropWhile Glyph.isBlank (a ++ t) = t.dropWhile Glyph.isBlank :=
    List.dropWhile_append_of_pos ha
  simp only [trim, trimLeft, hdrop]

/-- What trimming drops. -/
theorem exists_blanks_trim (t : Text) :
    ∃ a b : Text, (∀ g ∈ a, g.isBlank = true) ∧ (∀ g ∈ b, g.isBlank = true) ∧
      t = a ++ t.trim ++ b := by
  refine ⟨t.takeWhile Glyph.isBlank, (t.trimLeft.reverse.takeWhile Glyph.isBlank).reverse,
    fun g hg => List.mem_takeWhile_imp hg,
    fun g hg => List.mem_takeWhile_imp (List.mem_reverse.mp hg), ?_⟩
  have hright : t.trim ++ (t.trimLeft.reverse.takeWhile Glyph.isBlank).reverse = t.trimLeft := by
    rw [trim, trimRight, ← List.reverse_append, List.takeWhile_append_dropWhile,
      List.reverse_reverse]
  rw [List.append_assoc, hright, trimLeft, List.takeWhile_append_dropWhile]

theorem colon_not_mem_blanks (ha : ∀ g ∈ a, g.isBlank = true) : .char ':' ∉ a :=
  fun hm => absurd (ha _ hm) (by decide)

end Blanks

/-- The labels in front of the colons of a text. -/
def labelsBefore (t : Text) : List Text := (t.splitOn (.char ':')).dropLast.map trim

/-- What stands behind the last colon of a text. -/
def behindLabels (t : Text) : Text := (t.splitOn (.char ':')).getLast?.getD []

section Colons

variable {p t : Text}

theorem labelsBefore_of_not_mem (h : .char ':' ∉ t) : labelsBefore t = [] := by
  rw [labelsBefore, List.splitOn_eq_singleton h]
  rfl

theorem behindLabels_of_not_mem (h : .char ':' ∉ t) : behindLabels t = t := by
  rw [behindLabels, List.splitOn_eq_singleton h]
  rfl

theorem labelsBefore_append_cons (h : .char ':' ∉ p) (q : Text) :
    labelsBefore (p ++ .char ':' :: q) = p.trim :: labelsBefore q := by
  have hne := List.splitOn_ne_nil (.char ':') q
  rw [labelsBefore, List.splitOn_append_cons_self_of_not_mem h, List.dropLast_cons_of_ne_nil hne,
    List.map_cons, labelsBefore]

theorem behindLabels_append_cons (p q : Text) :
    behindLabels (p ++ .char ':' :: q) = behindLabels q := by
  have hne := List.splitOn_ne_nil (.char ':') q
  rw [behindLabels, List.splitOn_append_cons_self, List.getLast?_append_of_ne_nil _ hne, behindLabels]

/-- A text has no colon, or what stands behind its first one is shorter. -/
theorem colon_induction {motive : Text → Prop} (t : Text)
    (plain : ∀ t, .char ':' ∉ t → motive t)
    (colon : ∀ p q, .char ':' ∉ p → motive q → motive (p ++ .char ':' :: q)) : motive t := by
  induction hn : t.length using Nat.strong_induction_on generalizing t with
  | h n ih =>
    by_cases hmem : .char ':' ∈ t
    · obtain ⟨p, q, rfl, hp⟩ := List.eq_append_cons_of_mem hmem
      have hlt : q.length < n := by
        simp only [List.length_append, List.length_cons] at hn
        omega
      exact colon p q hp (ih q.length hlt q rfl)
    · exact plain t hmem

end Colons

end Text

namespace AsmLine

section Fields

variable {s : Text}

theorem isSeparator_of_isBlank {g : Glyph} (h : g.isBlank = true) : isSeparator g = true := by
  simp [isSeparator, h]

theorem fields_append_cons {g : Glyph} (hg : isSeparator g = true) (x y : Text) :
    fields (x ++ g :: y) = fields x ++ fields y := by
  rw [fields, List.splitOnP_append_cons x y hg, List.filter_append, fields, fields]

@[simp] theorem fields_nil : fields [] = [] := rfl

theorem fields_cons {g : Glyph} (hg : isSeparator g = true) (t : Text) :
    fields (g :: t) = fields t := by
  simpa using fields_append_cons hg [] t

/-- Separators between two texts keep their words apart. -/
theorem fields_append_separators (hne : s ≠ []) (hs : ∀ g ∈ s, isSeparator g = true) (x y : Text) :
    fields (x ++ s ++ y) = fields x ++ fields y := by
  induction s generalizing x with
  | nil => exact absurd rfl hne
  | cons g s ih =>
    have hg := hs g (by simp)
    by_cases hnil : s = []
    · rw [hnil, List.append_assoc, List.singleton_append, fields_append_cons hg]
    · have hrest := ih hnil (fun k hk => hs k (by simp [hk])) (x ++ [g])
      have hlast : fields (x ++ [g]) = fields x := by simp [fields_append_cons hg]
      rw [hlast] at hrest
      simpa using hrest

theorem fields_separators_append (hs : ∀ g ∈ s, isSeparator g = true) (t : Text) :
    fields (s ++ t) = fields t := by
  by_cases hne : s = []
  · rw [hne, List.nil_append]
  · have happend := fields_append_separators hne hs [] t
    simpa using happend

theorem fields_append_blanks {b : Text} (hb : ∀ g ∈ b, g.isBlank = true) (t : Text) :
    fields (t ++ b) = fields t := by
  by_cases hne : b = []
  · rw [hne, List.append_nil]
  · have happend := fields_append_separators hne (fun g hg => isSeparator_of_isBlank (hb g hg)) t []
    simpa using happend

/-- A word that follows no separator and comes before one, or ends the text, is the first word. -/
theorem fields_word_append {w rest : Text} (hne : w ≠ [])
    (hw : ∀ g ∈ w, isSeparator g = false)
    (hrest : ∀ g, rest.head? = some g → isSeparator g = true) :
    fields (w ++ rest) = w :: fields rest := by
  have hone : fields w = [w] := by
    rw [fields, List.splitOnP_eq_singleton hw]
    simpa using hne
  cases rest with
  | nil => rw [List.append_nil, hone, fields_nil]
  | cons g rest =>
    have hg := hrest g rfl
    rw [fields_append_cons hg, hone, fields_cons hg, List.singleton_append]

theorem ne_nil_of_mem_fields {w t : Text} (h : w ∈ fields t) : w ≠ [] := by
  simpa using (List.mem_filter.mp h).2

/-- The first word begins with the first glyph that separates nothing. -/
theorem head?_fields (t : Text) :
    (fields t).head?.bind List.head? = t.find? (!isSeparator ·) := by
  induction t with
  | nil => rfl
  | cons g t ih =>
    by_cases hg : isSeparator g = true
    · rw [fields_cons hg, ih, List.find?_cons_of_neg (by simp [hg])]
    · obtain ⟨first, others, hsplit⟩ := List.exists_cons_of_ne_nil (List.splitOnP_ne_nil isSeparator t)
      have hfields : fields (g :: t) = (g :: first) :: others.filter (· ≠ []) := by
        rw [fields, List.splitOnP_cons_eq_if_modifyHead, if_neg hg, hsplit]
        simp
      rw [hfields, List.find?_cons_of_pos (by simpa using hg)]
      rfl

end Fields

end AsmLine

namespace Text

section Ends

variable {a b : Text}

theorem labelsBefore_blanks_append (ha : ∀ g ∈ a, g.isBlank = true) (t : Text) :
    labelsBefore (a ++ t) = labelsBefore t := by
  have hcolon := colon_not_mem_blanks ha
  by_cases hmem : .char ':' ∈ t
  · obtain ⟨p, q, rfl, hp⟩ := List.eq_append_cons_of_mem hmem
    have hap : .char ':' ∉ a ++ p := by simp [hcolon, hp]
    rw [← List.append_assoc, labelsBefore_append_cons hap, labelsBefore_append_cons hp,
      trim_blanks_append ha]
  · rw [labelsBefore_of_not_mem hmem, labelsBefore_of_not_mem (by simp [hcolon, hmem])]

theorem fields_behindLabels_blanks_append (ha : ∀ g ∈ a, g.isBlank = true) (t : Text) :
    AsmLine.fields (behindLabels (a ++ t)) = AsmLine.fields (behindLabels t) := by
  have hcolon := colon_not_mem_blanks ha
  by_cases hmem : .char ':' ∈ t
  · obtain ⟨p, q, rfl, -⟩ := List.eq_append_cons_of_mem hmem
    rw [← List.append_assoc, behindLabels_append_cons, behindLabels_append_cons]
  · rw [behindLabels_of_not_mem hmem, behindLabels_of_not_mem (by simp [hcolon, hmem]),
      AsmLine.fields_separators_append fun g hg => AsmLine.isSeparator_of_isBlank (ha g hg)]

theorem labelsBefore_append_blanks (hb : ∀ g ∈ b, g.isBlank = true) (t : Text) :
    labelsBefore (t ++ b) = labelsBefore t := by
  have hcolon := colon_not_mem_blanks hb
  induction t using colon_induction with
  | plain t ht => rw [labelsBefore_of_not_mem ht, labelsBefore_of_not_mem (by simp [ht, hcolon])]
  | colon p q hp ih =>
    rw [List.append_assoc, List.cons_append, labelsBefore_append_cons hp, ih,
      labelsBefore_append_cons hp]

theorem fields_behindLabels_append_blanks (hb : ∀ g ∈ b, g.isBlank = true) (t : Text) :
    AsmLine.fields (behindLabels (t ++ b)) = AsmLine.fields (behindLabels t) := by
  have hcolon := colon_not_mem_blanks hb
  induction t using colon_induction with
  | plain t ht =>
    rw [behindLabels_of_not_mem ht, behindLabels_of_not_mem (by simp [ht, hcolon]),
      AsmLine.fields_append_blanks hb]
  | colon p q hp ih =>
    rw [List.append_assoc, List.cons_append, behindLabels_append_cons, ih, behindLabels_append_cons]

theorem labelsBefore_trim (t : Text) : labelsBefore t.trim = labelsBefore t := by
  obtain ⟨a, b, ha, hb, ht⟩ := exists_blanks_trim t
  conv_rhs => rw [ht]
  rw [labelsBefore_append_blanks hb, labelsBefore_blanks_append ha]

theorem fields_behindLabels_trim (t : Text) :
    AsmLine.fields (behindLabels t.trim) = AsmLine.fields (behindLabels t) := by
  obtain ⟨a, b, ha, hb, ht⟩ := exists_blanks_trim t
  conv_rhs => rw [ht]
  rw [fields_behindLabels_append_blanks hb, fields_behindLabels_blanks_append ha]

end Ends

/-- The labels of a line. -/
def labelNames (raw : Text) : List Text := labelsBefore (raw.before '#')

/-- The words of a line, behind its labels. -/
def words (raw : Text) : List Text := AsmLine.fields (behindLabels (raw.before '#'))

/-- Behind the labels of the line and in front of its comment stands a word that does not begin with a
period. -/
def holdsInstr (raw : Text) : Bool :=
  ((behindLabels (raw.before '#')).find? (!AsmLine.isSeparator ·)).any (· ≠ .char '.')

end Text

theorem toNat_ofNat_cases (n : Nat) : (Char.ofNat n).toNat = n ∨ (Char.ofNat n).toNat = 0 := by
  by_cases h : n.isValidChar
  · left
    simp [Char.ofNat, h, Char.toNat, Char.ofNatAux]
  · right
    simp [Char.ofNat, h]

/-- No other character has the period for its lower case. -/
theorem eq_period_of_lowerChar {c : Char} (h : lowerChar c = '.') : c = '.' := by
  have hascii : ∀ n < 128, (Char.ofNat n).toLower = '.' → Char.ofNat n = '.' := by decide
  have hruns : ∀ r ∈ CaseRun.runs, 47 ≤ r.first + r.shift := by decide +kernel
  by_cases hn : c.toNat < 128
  · rw [lowerChar, if_pos hn, ← Char.ofNat_toNat c] at h
    rw [← Char.ofNat_toNat c]
    exact hascii c.toNat hn h
  · rw [lowerChar, if_neg hn] at h
    split at h
    · rename_i r hr
      have hfirst : r.first ≤ c.toNat := by
        have hcontains := List.find?_some hr
        simp only [CaseRun.contains, Bool.and_eq_true, decide_eq_true_eq] at hcontains
        exact hcontains.1.1
      have hshift := hruns r (List.mem_of_find?_eq_some hr)
      have hnat : (Char.ofNat (c.toNat + r.shift).toNat).toNat = 46 := congrArg Char.toNat h
      rcases toNat_ofNat_cases (c.toNat + r.shift).toNat with heq | heq <;> omega
    · exact h

theorem Text.head?_toLower_eq_period {w : Text} :
    w.toLower.head? = some (.char '.') ↔ w.head? = some (.char '.') := by
  cases w with
  | nil => rfl
  | cons g w =>
    have hhead : Text.toLower (g :: w) = .char (lowerChar g.toChar) :: Text.toLower w := rfl
    have hperiod : lowerChar '.' = '.' := by decide
    rw [hhead, List.head?_cons, List.head?_cons, Option.some.injEq, Option.some.injEq,
      Glyph.char.injEq]
    cases g with
    | char c =>
      refine ⟨fun h => congrArg Glyph.char (eq_period_of_lowerChar h), fun h => ?_⟩
      rw [Glyph.char.inj h]
      exact hperiod
    | stray b =>
      have hreplacement : ¬ '\uFFFD' = '.' := by decide
      exact ⟨fun h => absurd (eq_period_of_lowerChar h) hreplacement, fun h => by cases h⟩

theorem Text.toLower_eq_nil_iff {w : Text} : w.toLower = [] ↔ w = [] := by
  simp [Text.toLower, Text.ofChars, Text.chars]

namespace AsmLine

/-- A line taken apart, whatever its labels are. -/
def row (number : Nat) (raw : Text) : AsmLine where
  number
  labels := raw.labelNames
  mnemonic := (raw.words.head?.getD []).toLower
  operands := raw.words.tail
  text := (raw.before '#').trim

/-- The assembler takes a line apart unless one of its labels is no label. -/
theorem ofText_eq_ok_iff {number : Nat} {raw : Text} {l : AsmLine} :
    ofText number raw = .ok l ↔
      (∀ name ∈ raw.labelNames, isLabel name = true) ∧ l = row number raw := by
  have hlabels : ((raw.before '#').trim.splitOn (.char ':')).dropLast.map Text.trim = raw.labelNames :=
    Text.labelsBefore_trim _
  have hwords : fields (((raw.before '#').trim.splitOn (.char ':')).getLast?.getD []) = raw.words :=
    Text.fields_behindLabels_trim _
  simp only [ofText, hlabels, hwords]
  cases hfind : raw.labelNames.find? (!isLabel ·) with
  | some label =>
    have hbad := List.find?_some hfind
    have hmem := List.mem_of_find?_eq_some hfind
    refine ⟨fun h => ?_, fun h => ?_⟩
    · cases h
    · simp [h.1 label hmem] at hbad
  | none =>
    have hall : ∀ name ∈ raw.labelNames, isLabel name = true := by
      simpa using List.find?_eq_none.mp hfind
    have hrow : row number raw = ⟨number, raw.labelNames, (raw.words.head?.getD []).toLower,
        raw.words.tail, (raw.before '#').trim⟩ := rfl
    rw [hrow]
    cases raw.words with
    | nil => exact ⟨fun h => ⟨hall, (Except.ok.inj h).symm⟩, fun h => h.2 ▸ rfl⟩
    | cons w ws => exact ⟨fun h => ⟨hall, (Except.ok.inj h).symm⟩, fun h => h.2 ▸ rfl⟩

theorem isInstr_row (number : Nat) (raw : Text) : (row number raw).isInstr = raw.holdsInstr := by
  have hhead := head?_fields (Text.behindLabels (raw.before '#'))
  rw [Text.holdsInstr, ← hhead]
  cases hwords : fields (Text.behindLabels (raw.before '#')) with
  | nil => simp [row, isInstr, Text.words, hwords, Text.toLower_eq_nil_iff]
  | cons w ws =>
    have hne : w ≠ [] := ne_nil_of_mem_fields (hwords ▸ List.mem_cons_self)
    obtain ⟨g, rest, rfl⟩ := List.exists_cons_of_ne_nil hne
    simp [row, isInstr, Text.words, hwords, Text.toLower_eq_nil_iff, Text.head?_toLower_eq_period]

end AsmLine

end MiniPascal
