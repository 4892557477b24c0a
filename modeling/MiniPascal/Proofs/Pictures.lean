import Mathlib.Data.List.TakeWhile
import Mathlib.Order.Basic
import MiniPascal.Proofs.Scanning

/-! Pictures of places in a source. The position behind the characters before a place names the line of
the place and its column, and the picture of a place that is not blank has the caret below the character
that stands there. -/

namespace MiniPascal

namespace Text

/-- The part of a text behind its last line feed. -/
def lastLine (t : Text) : Text := (t.reverse.takeWhile (· ≠ .char '\n')).reverse

theorem lastLine_of_not_mem {t : Text} (h : .char '\n' ∉ t) : t.lastLine = t := by
  have hall : ∀ g ∈ t.reverse, decide (g ≠ .char '\n') = true := by
    intro g hg
    have hne : g ≠ .char '\n' := by
      rintro rfl
      exact h (List.mem_reverse.mp hg)
    exact decide_eq_true hne
  rw [lastLine, List.takeWhile_eq_self_iff.mpr hall, List.reverse_reverse]

theorem lastLine_append_cons (a b : Text) : (a ++ .char '\n' :: b).lastLine = b.lastLine := by
  rw [lastLine, List.reverse_append, List.reverse_cons, List.append_assoc, List.takeWhile_append]
  by_cases h : (b.reverse.takeWhile (· ≠ .char '\n')).length = b.reverse.length
  · have hwhole := (List.takeWhile_prefix (· ≠ Glyph.char '\n')).eq_of_length h
    rw [if_pos h, lastLine, hwhole]
    simp
  · rw [if_neg h, lastLine]

/-- The line that a place is on: what stands before the place and behind it, up to the line feeds. -/
theorem getElem?_lines (before after : Text) :
    (before ++ after).lines[before.count (.char '\n')]? =
      some (before.lastLine ++ after.takeWhile (· ≠ .char '\n')) := by
  induction hn : before.length using Nat.strongRecOn generalizing before with
  | _ n ih =>
    by_cases hmem : .char '\n' ∈ before
    · obtain ⟨a, b, rfl, ha⟩ := List.eq_append_cons_of_mem hmem
      have hlength : b.length < n := by
        rw [← hn, List.length_append, List.length_cons]
        omega
      have hrest := ih b.length hlength b rfl
      rw [lastLine_append_cons, List.append_assoc, List.cons_append, lines,
        List.splitOn_append_cons_self_of_not_mem ha, List.count_append,
        List.count_eq_zero_of_not_mem ha, List.count_cons_self, Nat.zero_add,
        List.getElem?_cons_succ]
      exact hrest
    · rw [List.count_eq_zero_of_not_mem hmem, lastLine_of_not_mem hmem, lines]
      have hahead : .char '\n' ∉ before ++ after.takeWhile (· ≠ .char '\n') := by
        intro hin
        rcases List.mem_append.mp hin with hin | hin
        · exact hmem hin
        · simpa using List.mem_takeWhile_imp hin
      cases hdrop : after.dropWhile (· ≠ .char '\n') with
      | nil =>
        have hall := List.takeWhile_append_dropWhile (p := (· ≠ Glyph.char '\n')) (l := after)
        rw [hdrop, List.append_nil] at hall
        rw [hall] at hahead ⊢
        rw [List.splitOn_eq_singleton hahead]
        rfl
      | cons g rest =>
        have hg : g = .char '\n' := by
          have hhead := List.head?_dropWhile_not (· ≠ Glyph.char '\n') after
          rw [hdrop] at hhead
          simpa using hhead
        have hall := List.takeWhile_append_dropWhile (p := (· ≠ Glyph.char '\n')) (l := after)
        rw [hdrop, hg] at hall
        conv => lhs; rw [← hall, ← List.append_assoc]
        rw [List.splitOn_append_cons_self_of_not_mem hahead]
        rfl

theorem toChar_eq_newline {g : Glyph} : g.toChar = '\n' ↔ g = .char '\n' := by
  cases g with
  | char c => simp [Glyph.toChar]
  | stray b => simp [Glyph.toChar]

theorem count_chars (t : Text) : t.chars.count '\n' = t.count (.char '\n') := by
  rw [chars, List.count, List.count, List.countP_map]
  congr 1
  funext g
  by_cases h : g = .char '\n'
  · simp [h, Glyph.toChar]
  · have hchar : g.toChar ≠ '\n' := fun hc => h (toChar_eq_newline.mp hc)
    simp [h, hchar]

theorem length_lastLine (t : Text) :
    t.lastLine.length = (t.chars.reverse.takeWhile (· ≠ '\n')).length := by
  have hsame : ((fun c : Char => decide (c ≠ '\n')) ∘ Glyph.toChar) =
      fun g => decide (g ≠ .char '\n') := by
    funext g
    exact decide_eq_decide.mpr (not_congr toChar_eq_newline)
  rw [lastLine, List.length_reverse, chars, ← List.map_reverse, List.takeWhile_map, List.length_map,
    hsame]

end Text

/-- The line and the column of the place behind a text, counted from 1. -/
theorem Position.behind_chars (t : Text) :
    Position.behind t.chars = ⟨1 + t.count (.char '\n'), 1 + t.lastLine.length⟩ := by
  rw [Position.behind, Text.count_chars, Text.length_lastLine]

theorem Text.length_le_size (t : Text) : t.length ≤ t.size := by
  induction t with
  | nil => exact Nat.le_refl _
  | cons g t ih =>
    have hg : 1 ≤ g.size := by
      cases g with
      | char c => exact Char.utf8Size_pos c
      | stray b => exact Nat.le_refl _
    rw [List.length_cons]
    change t.length + 1 ≤ g.size + Text.size t
    omega

namespace Diagnostic

theorem exists_bareLine (row : Text) :
    ∃ tail, row = bareLine row ++ tail ∧ ∀ g ∈ tail, g = .char '\r' := by
  refine ⟨(row.reverse.takeWhile (· = .char '\r')).reverse, ?_, ?_⟩
  · rw [bareLine, ← List.reverse_append, List.takeWhile_append_dropWhile, List.reverse_reverse]
  · intro g hg
    simpa using List.mem_takeWhile_imp (List.mem_reverse.mp hg)

/-- A glyph that is no carriage return is not cut off with those at the end of the line. -/
theorem getElem?_bareLine {row : Text} {k : Nat} {g : Glyph} (h : row[k]? = some g)
    (hg : g ≠ .char '\r') : (bareLine row)[k]? = some g := by
  obtain ⟨tail, hline, htail⟩ := exists_bareLine row
  rw [hline] at h
  by_cases hk : k < (bareLine row).length
  · rwa [List.getElem?_append_left hk] at h
  · rw [List.getElem?_append_right (Nat.not_lt.mp hk)] at h
    exact absurd (htail g (List.mem_of_getElem? h)) hg

end Diagnostic

/-- A position is the place of a character that is not blank, or that behind the last one. -/
def Position.Marks (t : Text) (p : Position) : Prop :=
  (∃ (before : Text) (g : Glyph) (after : Text), t = before ++ g :: after ∧ Gap.isSpace g.toChar = false ∧
    p = .behind before.chars) ∨ p = .behind t.chars

/-- What a diagnostic shows of its source: a line of it and a caret. The position has that line and a
column in it or just behind it. Unless it is the end of the source, the caret is below the glyph at the
position, a tab being shown as a space. -/
def Diagnostic.PointsInto (t : Text) (d : Diagnostic) : Prop :=
  ∃ (row : Text) (caret : Nat), d.position.isKnown = true ∧ d.position.line ≤ t.lines.length ∧
    t.lines[d.position.line.toNat - 1]? = some row ∧ d.position.column - 1 ≤ row.length ∧
    d.render t = d.message ++ ("\n    " ++ shownLine (bareLine row) ++ "\n    " ++
      Text.spaces caret ++ "^") ∧
    (d.position = .behind t.chars ∨ (caret : Int) = d.position.column - 1 ∧
      ∃ g, row[caret]? = some g ∧
        (shownLine (bareLine row))[caret]? = some (if g = .char '\t' then .char ' ' else g))

/-- The position of a place is a line and a column of the text. -/
theorem Position.exists_line {t before after : Text} {p : Position} (ht : t = before ++ after)
    (hp : p = .behind before.chars) :
    p.isKnown = true ∧ p.line ≤ t.lines.length ∧ p.column - 1 = before.lastLine.length ∧
      t.lines[p.line.toNat - 1]? =
        some (before.lastLine ++ after.takeWhile (· ≠ .char '\n')) := by
  have hline := Text.getElem?_lines before after
  have hlt := (List.getElem?_eq_some_iff.mp hline).1
  subst hp
  rw [Position.behind_chars, ← ht] at *
  refine ⟨?_, ?_, ?_, ?_⟩
  · simp only [Position.isKnown, Bool.and_eq_true, decide_eq_true_eq]
    omega
  · dsimp only
    rw [ht]
    omega
  · dsimp only
    omega
  · have hindex : ((1 : Int) + (before.count (.char '\n') : Nat)).toNat - 1 =
        before.count (.char '\n') := by omega
    dsimp only
    rw [hindex]
    exact hline

theorem Diagnostic.render_eq {d : Diagnostic} {t line : Text} (hknown : d.position.isKnown = true)
    (hline : t.lines[d.position.line.toNat - 1]? = some line) :
    d.render t = d.message ++ ("\n    " ++ shownLine (bareLine line) ++ "\n    " ++
      Text.spaces (min (d.position.column.toNat - 1) (bareLine line).size) ++ "^") := by
  simp only [render, position?, hknown, if_true, picture, hline]

/-- A diagnostic whose position marks a place points into its source. -/
theorem Diagnostic.pointsInto_of_marks {d : Diagnostic} {t : Text} (h : d.position.Marks t) :
    d.PointsInto t := by
  rcases h with ⟨before, g, after, ht, hg, hp⟩ | hp
  · obtain ⟨hknown, hlines, hcolumn, hline⟩ := Position.exists_line ht hp
    have hnewline : g ≠ .char '\n' := by
      rintro rfl
      cases hg
    have hreturn : g ≠ .char '\r' := by
      rintro rfl
      cases hg
    rw [List.takeWhile_cons_of_pos (by simpa using hnewline)] at hline
    have hget : (before.lastLine ++ g :: after.takeWhile (· ≠ .char '\n'))[before.lastLine.length]? =
        some g := by simp
    have hbare := getElem?_bareLine hget hreturn
    have hlt := (List.getElem?_eq_some_iff.mp hbare).1
    have hsize := Text.length_le_size
      (bareLine (before.lastLine ++ g :: after.takeWhile (· ≠ .char '\n')))
    have hcaret : min (d.position.column.toNat - 1)
        (bareLine (before.lastLine ++ g :: after.takeWhile (· ≠ .char '\n'))).size =
          before.lastLine.length := by omega
    have hrender := render_eq hknown hline
    rw [hcaret] at hrender
    refine ⟨_, _, hknown, hlines, hline, ?_, hrender, .inr ⟨hcolumn.symm, g, hget, ?_⟩⟩
    · rw [hcolumn, List.length_append]
      omega
    · rw [shownLine, List.getElem?_map, hbare]
      rfl
  · obtain ⟨hknown, hlines, hcolumn, hline⟩ := Position.exists_line (List.append_nil t).symm hp
    refine ⟨_, _, hknown, hlines, hline, ?_, render_eq hknown hline, .inl hp⟩
    rw [hcolumn, List.length_append]
    omega

end MiniPascal
