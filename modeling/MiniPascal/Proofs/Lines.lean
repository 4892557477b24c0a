import Mathlib
import MiniPascal.Assembly.Line
import MiniPascal.Machine.Assembler

/-! Lines of assembly text that are written and read back. The assembler takes a clean line apart
into just what it was made of: its label, or its mnemonic and operands. -/

namespace MiniPascal

/-- Neither a blank nor a comma, and no mark that ends a label or begins a comment. -/
def Glyph.isPlain (g : Glyph) : Bool :=
  !AsmLine.isSeparator g && g ≠ .char '#' && g ≠ .char ':'

namespace Glyph

theorem not_separator_of_isPlain {g : Glyph} (h : g.isPlain = true) :
    AsmLine.isSeparator g = false := by
  simp only [isPlain, Bool.and_eq_true, Bool.not_eq_true'] at h
  exact h.1.1

theorem not_blank_of_isPlain {g : Glyph} (h : g.isPlain = true) : g.isBlank = false := by
  have hs := not_separator_of_isPlain h
  simp only [AsmLine.isSeparator, Bool.or_eq_false_iff] at hs
  exact hs.1

theorem isPlain_char {c : Char} (hlo : 32 < c.toNat) (hhi : c.toNat < 127)
    (hc : c ≠ ',' ∧ c ≠ '#' ∧ c ≠ ':') : (char c).isPlain = true := by
  have hb : isBlankChar c = false := by
    simp only [isBlankChar, Bool.or_eq_false_iff, Bool.and_eq_false_iff, decide_eq_false_iff_not,
      beq_eq_false_iff_ne]
    omega
  simp [isPlain, AsmLine.isSeparator, isBlank, hb, hc]

theorem ne_hash_of_isPlain {g : Glyph} (h : g.isPlain = true) : g ≠ .char '#' := by
  rintro rfl
  exact absurd h (by decide)

theorem ne_colon_of_isPlain {g : Glyph} (h : g.isPlain = true) : g ≠ .char ':' := by
  rintro rfl
  exact absurd h (by decide)

end Glyph

namespace Text

/-- A text that is one word of a line. -/
def IsWord (t : Text) : Prop := t ≠ [] ∧ ∀ g ∈ t, g.isPlain = true

instance (t : Text) : Decidable t.IsWord := inferInstanceAs (Decidable (_ ∧ _))

/-- No blank at either end. -/
def Tight (t : Text) : Prop := ∀ g, t.head? = some g ∨ t.getLast? = some g → g.isBlank = false

theorem before_of_not_mem {c : Char} {t : Text} (h : .char c ∉ t) : t.before c = t := by
  apply List.takeWhile_eq_self_iff.mpr
  intro g hg
  simpa using fun e : g = .char c => h (e ▸ hg)

theorem before_append_cons {c : Char} {a : Text} (h : .char c ∉ a) (b : Text) :
    before c (a ++ .char c :: b) = a := by
  have ha : ∀ g ∈ a, decide (g ≠ .char c) = true := by
    intro g hg
    simpa using fun e : g = .char c => h (e ▸ hg)
  rw [before, List.takeWhile_append_of_pos ha, List.takeWhile_cons_of_neg (by simp),
    List.append_nil]

theorem dropWhile_isBlank_of_head {t : Text} (h : ∀ g, t.head? = some g → g.isBlank = false) :
    t.dropWhile Glyph.isBlank = t := by
  cases t with
  | nil => rfl
  | cons g t => simp [h g rfl]

theorem Tight.trim {t : Text} (h : t.Tight) : t.trim = t := by
  have hl : trimLeft t = t := dropWhile_isBlank_of_head fun g hg => h g (.inl hg)
  have hr : trimRight t = t := by
    rw [trimRight, dropWhile_isBlank_of_head, List.reverse_reverse]
    intro g hg
    exact h g (.inr (by simpa using hg))
  rw [Text.trim, hl, hr]

theorem trim_cons_of_isBlank {g : Glyph} (h : g.isBlank = true) (t : Text) :
    trim (g :: t) = trim t := by
  simp [trim, trimLeft, h]

theorem trim_concat_of_isBlank {g : Glyph} (h : g.isBlank = true) {t : Text} (ht : t.Tight) :
    trim (t ++ [g]) = t := by
  cases t with
  | nil => simp [trim, trimLeft, trimRight, h]
  | cons a t =>
    have ha : a.isBlank = false := ht a (.inl rfl)
    have hl : trimLeft (a :: t ++ [g]) = a :: t ++ [g] := by simp [trimLeft, ha]
    rw [trim, hl, trimRight, List.reverse_append, List.reverse_singleton, List.singleton_append,
      List.dropWhile_cons_of_pos h]
    have := ht.trim
    rwa [trim, show trimLeft (a :: t) = a :: t by simp [trimLeft, ha]] at this

theorem IsWord.tight {t : Text} (h : t.IsWord) : t.Tight := by
  rintro g (hg | hg)
  · exact Glyph.not_blank_of_isPlain (h.2 g (List.mem_of_mem_head? hg))
  · exact Glyph.not_blank_of_isPlain (h.2 g (List.mem_of_mem_getLast? hg))

theorem join_cons_cons (sep a b : Text) (ws : List Text) :
    join sep (a :: b :: ws) = a ++ sep ++ join sep (b :: ws) := by
  simp [join, List.intercalate_cons_cons]

theorem mem_join {g : Glyph} {ws : List Text} (h : g ∈ join " " ws) :
    g = .char ' ' ∨ ∃ w ∈ ws, g ∈ w := by
  induction ws with
  | nil => simp [join] at h
  | cons a ws ih =>
    cases ws with
    | nil => exact .inr ⟨a, by simp, by simpa [join] using h⟩
    | cons b ws =>
      rw [join_cons_cons, List.mem_append, List.mem_append] at h
      rcases h with (h | h) | h
      · exact .inr ⟨a, by simp, h⟩
      · exact .inl (by simpa using (show g ∈ [Glyph.char ' '] from h))
      · rcases ih h with h | ⟨w, hw, hg⟩
        · exact .inl h
        · exact .inr ⟨w, List.mem_cons_of_mem _ hw, hg⟩

theorem not_mem_join {g : Glyph} {ws : List Text} (hg : g.isPlain = false) (hs : g ≠ .char ' ')
    (h : ∀ w ∈ ws, w.IsWord) : g ∉ join " " ws := by
  intro hm
  rcases mem_join hm with he | ⟨w, hw, hgw⟩
  · exact hs he
  · simp [(h w hw).2 g hgw] at hg

theorem getLast?_join {ws : List Text} (h : ∀ w ∈ ws, w.IsWord) :
    ∀ g, (join " " ws).getLast? = some g → ∃ w ∈ ws, g ∈ w := by
  intro g hg
  induction ws with
  | nil => simp [join] at hg
  | cons a ws ih =>
    cases ws with
    | nil => exact ⟨a, by simp, by simpa [join] using List.mem_of_mem_getLast? hg⟩
    | cons b ws =>
      have hne : join " " (b :: ws) ≠ [] := by
        have hb := (h b (by simp)).1
        cases ws with
        | nil => simpa [join] using hb
        | cons c ws => simp [join_cons_cons, hb]
      rw [join_cons_cons, List.getLast?_append_of_ne_nil _ hne] at hg
      obtain ⟨w, hw, hgw⟩ := ih (fun w hw => h w (List.mem_cons_of_mem _ hw)) hg
      exact ⟨w, List.mem_cons_of_mem _ hw, hgw⟩

theorem tight_join {ws : List Text} (h : ∀ w ∈ ws, w.IsWord) : (join " " ws).Tight := by
  rintro g (hg | hg)
  · cases ws with
    | nil => simp [join] at hg
    | cons a ws =>
      obtain ⟨c, cs, rfl⟩ := List.exists_cons_of_ne_nil (h a (by simp)).1
      have hc : c = g := by
        cases ws with
        | nil => simpa [join] using hg
        | cons b ws => simpa [join_cons_cons] using hg
      exact hc ▸ Glyph.not_blank_of_isPlain ((h _ List.mem_cons_self).2 c (by simp))
  · obtain ⟨w, hw, hgw⟩ := getLast?_join h g hg
    exact Glyph.not_blank_of_isPlain ((h w hw).2 g hgw)

/-- The words of a line are found again. -/
theorem fields_join {ws : List Text} (h : ∀ w ∈ ws, w.IsWord) : AsmLine.fields (join " " ws) = ws := by
  have hsplit : ws ≠ [] → (join " " ws).splitOnP AsmLine.isSeparator = ws := by
    intro hne
    induction ws with
    | nil => exact absurd rfl hne
    | cons a ws ih =>
      have ha : ∀ g ∈ a, AsmLine.isSeparator g = false := fun g hg =>
        Glyph.not_separator_of_isPlain ((h a (by simp)).2 g hg)
      cases ws with
      | nil => simpa [join] using List.splitOnP_eq_singleton ha
      | cons b ws =>
        have hs : join " " (a :: b :: ws) = a ++ .char ' ' :: join " " (b :: ws) := by
          rw [join_cons_cons, List.append_assoc]
          rfl
        rw [hs, List.splitOnP_append_cons_of_forall_mem ha _ rfl,
          ih (fun w hw => h w (List.mem_cons_of_mem _ hw)) (by simp)]
  cases ws with
  | nil => rfl
  | cons a ws =>
    rw [AsmLine.fields, hsplit (by simp), List.filter_eq_self]
    intro w hw
    simpa using (h w hw).1

end Text

theorem Glyph.isPlain_of_isLabelPart {g : Glyph} (h : AsmLine.isLabelPart g = true) :
    g.isPlain = true := by
  cases g with
  | stray b => cases h
  | char c =>
    have hr : c.toNat = 95 ∨ c.toNat = 46 ∨ 97 ≤ c.toNat ∧ c.toNat ≤ 122 ∨
        65 ≤ c.toNat ∧ c.toNat ≤ 90 ∨ 48 ≤ c.toNat ∧ c.toNat ≤ 57 := by
      simp only [AsmLine.isLabelPart, AsmLine.isLabelStart, Bool.or_eq_true, Bool.and_eq_true,
        beq_iff_eq, decide_eq_true_eq, Char.le_def, UInt32.le_iff_toNat_le] at h
      rcases h with (((rfl | rfl) | h) | h) | h
      · exact .inl rfl
      · exact .inr (.inl rfl)
      · exact .inr (.inr (.inl h))
      · exact .inr (.inr (.inr (.inl h)))
      · exact .inr (.inr (.inr (.inr h)))
    refine isPlain_char (by omega) (by omega) ⟨?_, ?_, ?_⟩
    · rintro rfl
      simp at hr
    · rintro rfl
      simp at hr
    · rintro rfl
      simp at hr

theorem AsmLine.isLabel.isWord {t : Text} (h : AsmLine.isLabel t = true) : t.IsWord := by
  cases t with
  | nil => cases h
  | cons g gs =>
    simp only [isLabel, Bool.and_eq_true, List.all_eq_true] at h
    refine ⟨by simp, fun x hx => ?_⟩
    apply Glyph.isPlain_of_isLabelPart
    rcases List.mem_cons.mp hx with rfl | hx
    · cases x with
      | stray b => exact absurd h.1 (by simp [isLabelStart])
      | char c => simp [isLabelPart, h.1]
    · exact h.2 x hx

namespace AsmLine

theorem ofText_of_not_mem {number : Nat} {raw text : Text} (ht : (raw.before '#').trim = text)
    (hc : .char ':' ∉ text) :
    ofText number raw =
      match fields text with
      | [] => .ok { number, labels := [], mnemonic := [], operands := [], text }
      | m :: operands => .ok { number, labels := [], mnemonic := m.toLower, operands, text } := by
  simp only [ofText, ht, List.splitOn_eq_singleton hc]
  rfl

theorem ofText_label {number : Nat} {raw name : Text} (hn : isLabel name = true)
    (ht : (raw.before '#').trim = name ++ ":") :
    ofText number raw =
      .ok { number, labels := [name], mnemonic := [], operands := [], text := name ++ ":" } := by
  have hw := isLabel.isWord hn
  have hc : .char ':' ∉ name := fun h => Glyph.ne_colon_of_isPlain (hw.2 _ h) rfl
  have hs : (name ++ Text.ofString ":").splitOn (.char ':') = [name, []] := by
    rw [show Text.ofString ":" = [.char ':'] from rfl, List.splitOn_append_cons_self_of_not_mem hc]
    rfl
  simp only [ofText, ht, hs, List.dropLast, List.map, hw.tight.trim, List.find?, hn, Bool.not_true]
  rfl

end AsmLine

namespace Assembly

namespace Line

/-- The line as it is written, without the line feed. -/
def body (l : Line) : Text := if definesLabel l.text then l.text else .char '\t' :: l.text

theorem render_eq (l : Line) : l.render = l.body ++ [.char '\n'] := rfl

/-- A line that the assembler can take apart. -/
def Clean : Line → Prop
  | instr mnemonic operands =>
    mnemonic.IsWord ∧ mnemonic.toLower = mnemonic ∧ mnemonic.head? ≠ some (.char '.') ∧
      ∀ o ∈ operands, o.IsWord
  | label name => AsmLine.isLabel name
  | marked name remark => AsmLine.isLabel name ∧ .char '\n' ∉ remark
  | comment remark => .char '\n' ∉ remark
  | plain t => t = ".text" ∨ t = ".globl main"

/-- What the assembler makes of a line. -/
def toAsm (number : Nat) : Line → AsmLine
  | instr mnemonic operands =>
    { number, labels := [], mnemonic, operands, text := Text.join " " (mnemonic :: operands) }
  | label name => { number, labels := [name], mnemonic := [], operands := [], text := name ++ ":" }
  | marked name _ =>
    { number, labels := [name], mnemonic := [], operands := [], text := name ++ ":" }
  | comment _ => { number, labels := [], mnemonic := [], operands := [], text := [] }
  | plain t =>
    { number, labels := [], mnemonic := (t.before ' '), operands := (AsmLine.fields t).tail, text := t }

theorem tight_label {name : Text} (h : AsmLine.isLabel name = true) : Text.Tight (name ++ ":") := by
  have hw := AsmLine.isLabel.isWord h
  rintro g (hg | hg)
  · obtain ⟨c, cs, rfl⟩ := List.exists_cons_of_ne_nil hw.1
    have hc : c = g := by simpa using hg
    exact hc ▸ Glyph.not_blank_of_isPlain (hw.2 c (by simp))
  · have hc : (name ++ [Glyph.char ':']).getLast? = some g := hg
    rw [List.getLast?_concat, Option.some.injEq] at hc
    subst hc
    rfl

theorem before_hash_label {name : Text} (h : AsmLine.isLabel name = true) :
    Text.before '#' (name ++ ":") = name ++ ":" := by
  have hw := AsmLine.isLabel.isWord h
  have hn : .char '#' ∉ name ++ [Glyph.char ':'] := by
    simpa using fun hm => Glyph.ne_hash_of_isPlain (hw.2 _ hm) rfl
  exact Text.before_of_not_mem hn

theorem trim_before_hash_label {name : Text} (h : AsmLine.isLabel name = true) :
    (Text.before '#' (name ++ ":")).trim = name ++ ":" := by
  rw [before_hash_label h, (tight_label h).trim]

theorem trim_before_hash_marked {name : Text} (h : AsmLine.isLabel name = true) (remark : Text) :
    (Text.before '#' (name ++ ": #" ++ remark)).trim = name ++ ":" := by
  have hw := AsmLine.isLabel.isWord h
  have hn : .char '#' ∉ name ++ [Glyph.char ':'] ++ [.char ' '] := by
    simpa using fun hm => Glyph.ne_hash_of_isPlain (hw.2 _ hm) rfl
  have hs : name ++ Text.ofString ": #" ++ remark =
      (name ++ [.char ':'] ++ [.char ' ']) ++ .char '#' :: remark := by
    rw [show Text.ofString ": #" = [.char ':', .char ' ', .char '#'] from rfl]
    simp
  rw [hs, Text.before_append_cons hn]
  exact Text.trim_concat_of_isBlank rfl (tight_label h)

theorem trim_before_hash_join {ws : List Text} (h : ∀ w ∈ ws, w.IsWord) :
    ((Text.join " " ws).before '#').trim = Text.join " " ws := by
  rw [Text.before_of_not_mem (Text.not_mem_join rfl (by decide) h), (Text.tight_join h).trim]

theorem definesLabel_label {name : Text} (h : AsmLine.isLabel name = true) :
    definesLabel (name ++ ":") = true := by
  rw [definesLabel, trim_before_hash_label h, decide_eq_true_eq]
  exact List.getLast?_concat

theorem definesLabel_marked {name : Text} (h : AsmLine.isLabel name = true) (remark : Text) :
    definesLabel (name ++ ": #" ++ remark) = true := by
  rw [definesLabel, trim_before_hash_marked h, decide_eq_true_eq]
  exact List.getLast?_concat

theorem definesLabel_join {ws : List Text} (h : ∀ w ∈ ws, w.IsWord) :
    definesLabel (Text.join " " ws) = false := by
  rw [definesLabel, trim_before_hash_join h, decide_eq_false_iff_not]
  intro hc
  obtain ⟨w, hw, hg⟩ := Text.getLast?_join h _ hc
  exact Glyph.ne_colon_of_isPlain ((h w hw).2 _ hg) rfl

theorem Clean.words {mnemonic : Text} {operands : List Text}
    (h : (instr mnemonic operands).Clean) : ∀ w ∈ mnemonic :: operands, w.IsWord := by
  intro w hw
  rcases List.mem_cons.mp hw with rfl | hw
  · exact h.1
  · exact h.2.2.2 w hw

/-- The assembler takes a clean line apart into what it was made of. -/
theorem ofText_body {l : Line} (h : l.Clean) (number : Nat) :
    AsmLine.ofText number l.body = .ok (l.toAsm number) := by
  cases l with
  | instr mnemonic operands =>
    have hw := h.words
    have hb : (instr mnemonic operands).body =
        .char '\t' :: Text.join " " (mnemonic :: operands) := by
      simp [body, text, definesLabel_join hw]
    have ht : ((instr mnemonic operands).body.before '#').trim =
        Text.join " " (mnemonic :: operands) := by
      have hcut : Text.before '#' (.char '\t' :: Text.join " " (mnemonic :: operands)) =
          .char '\t' :: (Text.join " " (mnemonic :: operands)).before '#' := rfl
      rw [hb, hcut, Text.trim_cons_of_isBlank rfl, trim_before_hash_join hw]
    rw [AsmLine.ofText_of_not_mem ht (Text.not_mem_join rfl (by decide) hw), Text.fields_join hw]
    simp [toAsm, h.2.1]
  | label name =>
    have hb : (label name).body = name ++ ":" := by
      simp [body, text, definesLabel_label h]
    exact AsmLine.ofText_label h (by rw [hb, trim_before_hash_label h])
  | marked name remark =>
    have hb : (marked name remark).body = name ++ ": #" ++ remark := by
      rw [body, text, if_pos (definesLabel_marked h.1 remark)]
    exact AsmLine.ofText_label h.1 (by rw [hb, trim_before_hash_marked h.1])
  | comment remark =>
    have ht : ((comment remark).body.before '#').trim = [] := rfl
    rw [AsmLine.ofText_of_not_mem ht (by simp)]
    rfl
  | plain t =>
    rcases h with rfl | rfl
    · rfl
    · rfl

/-- A clean line is one line. -/
theorem Clean.newline_not_mem {l : Line} (h : l.Clean) : .char '\n' ∉ l.body := by
  have htab : ∀ {t : Text}, .char '\n' ∉ t →
      .char '\n' ∉ if definesLabel t then t else .char '\t' :: t := by
    intro t ht
    split <;> simp [ht]
  have hname : ∀ {t : Text}, AsmLine.isLabel t = true → .char '\n' ∉ t := by
    intro t ht hm
    exact absurd ((AsmLine.isLabel.isWord ht).2 _ hm) (by decide)
  apply htab
  cases l with
  | instr mnemonic operands => exact Text.not_mem_join rfl (by decide) h.words
  | label name => simpa [text, Text.ofString] using hname h
  | marked name remark => simpa [text, Text.ofString] using ⟨hname h.1, h.2⟩
  | comment remark => simpa [Clean, text, Text.ofString] using h
  | plain t => rcases h with rfl | rfl <;> decide

end Line

end Assembly

end MiniPascal
