import MiniPascal.Proofs.Grammar

/-! What a parser reads. The tokens it takes are derived from the tree it returns, and where it rejects
a token the ones before it can be gone on with to a phrase of the grammar. -/

namespace MiniPascal

namespace Numeral

theorem digit?_of_isDigit {c : Char} (hc : Source.isDigit c = true) :
    digit? c = some (c.toNat - '0'.toNat) ∧ c.toNat - '0'.toNat < 10 := by
  simp only [Source.isDigit, Bool.and_eq_true, decide_eq_true_eq] at hc
  refine ⟨by rw [digit?, if_pos hc], ?_⟩
  have hle := hc.2
  simp only [Char.le_def, UInt32.le_iff_toNat_le] at hle
  have hnine : '9'.val.toNat = 57 := rfl
  have hzero : '0'.toNat = 48 := rfl
  have hval : c.toNat = c.val.toNat := rfl
  omega

theorem le_foldl_decimal (cs : List Char) (n : Nat) :
    n ≤ cs.foldl (fun n c => 10 * n + (c.toNat - '0'.toNat)) n := by
  induction cs generalizing n with
  | nil => exact Nat.le_refl n
  | cons c cs ih =>
    have hstep := ih (10 * n + (c.toNat - '0'.toNat))
    rw [List.foldl_cons]
    omega

theorem magnitude_of_isDigit {limit n : Nat} {cs : List Char}
    (hcs : ∀ c ∈ cs, Source.isDigit c = true) (hn : n ≤ limit) :
    magnitude 10 limit false n cs =
      if cs.foldl (fun n c => 10 * n + (c.toNat - '0'.toNat)) n ≤ limit then
        .ok (cs.foldl (fun n c => 10 * n + (c.toNat - '0'.toNat)) n)
      else .error .outOfRange := by
  induction cs generalizing n with
  | nil => rw [magnitude, List.foldl_nil, if_pos hn]
  | cons c cs ih =>
    obtain ⟨hc, hcs⟩ := List.forall_mem_cons.mp hcs
    obtain ⟨hdigit, hlt⟩ := digit?_of_isDigit hc
    have hten : ¬ 10 ≤ c.toNat - '0'.toNat := Nat.not_le.mpr hlt
    rw [List.foldl_cons]
    simp only [magnitude, hdigit, hten, Nat.mul_comm n 10, Bool.false_and, Bool.false_eq_true, if_false]
    by_cases hl : limit < 10 * n + (c.toNat - '0'.toNat)
    · have hle := le_foldl_decimal cs (10 * n + (c.toNat - '0'.toNat))
      rw [if_pos hl, if_neg (by omega)]
    · rw [if_neg hl, ih hcs (Nat.not_lt.mp hl)]

/-- A digit run reads as the number it stands for if that fits a word. -/
theorem readWord?_decimal {cs : List Char} (hne : cs ≠ [])
    (hcs : ∀ d ∈ cs, Source.isDigit d = true) :
    readWord? .decimal (Text.ofChars cs) =
      if Token.decimal cs ≤ 2147483647 then some (Int32.ofNat (Token.decimal cs)) else none := by
  have hsign : ∀ c ds, Source.isDigit c = false → cs ≠ c :: ds := by
    rintro c ds hc rfl
    rw [hcs c List.mem_cons_self] at hc
    cases hc
  have hmagnitude : magnitude 10 (Nat.pow 2 32 - 1) false 0 cs =
      if Token.decimal cs ≤ Nat.pow 2 32 - 1 then .ok (Token.decimal cs)
      else .error .outOfRange :=
    magnitude_of_isDigit hcs (Nat.zero_le _)
  have hread : read .decimal 32 (Text.ofChars cs) =
      if Token.decimal cs ≤ 2147483647 then .ok (Token.decimal cs : Int)
      else .error .outOfRange := by
    rw [read, Text.chars_ofChars]
    split
    rename_i heq
    split at heq
    · exact absurd rfl (hsign '+' _ (by decide))
    · exact absurd rfl (hsign '-' _ (by decide))
    · cases heq
      simp only [hne, if_false, readMagnitude, hmagnitude, Bool.false_eq_true]
      generalize Token.decimal cs = n
      have hlimit : Nat.pow 2 32 - 1 = 4294967295 := rfl
      have hhalf : Nat.pow 2 (32 - 1) = 2147483648 := rfl
      rw [hlimit, hhalf]
      by_cases hn : n ≤ 2147483647
      · have hfits : n ≤ 4294967295 := by omega
        have hsigned : ¬ 2147483648 ≤ n := by omega
        simp [hfits, hsigned, hn]
      · have hsigned : 2147483648 ≤ n := by omega
        by_cases hfits : n ≤ 4294967295 <;> simp [hfits, hsigned, hn]
  rw [readWord?, hread]
  by_cases hn : Token.decimal cs ≤ 2147483647
  · simp only [hn, if_true]
    rfl
  · simp only [hn, if_false]

end Numeral

theorem Token.Lexed.readWord?_eq_some_iff {t : Token} (h : t.Lexed) (hkind : t.kind = .number)
    {value : Int32} :
    Numeral.readWord? .decimal t.literal = some value ↔ t.IsNumeral value := by
  obtain ⟨w, hw, hliteral⟩ := h
  rw [hkind] at hw
  cases hw with
  | @number c cs hc hcs =>
    have hdigits : ∀ d ∈ c :: cs, Source.isDigit d = true := List.forall_mem_cons.mpr ⟨hc, hcs⟩
    rw [IsNumeral, hliteral, Numeral.readWord?_decimal (List.cons_ne_nil c cs) hdigits,
      Text.chars_ofChars]
    by_cases hn : decimal (c :: cs) ≤ 2147483647
    · simp [hn, hkind, eq_comm]
    · simp [hn]

namespace Token

/-- The operators that are no openers of comments. -/
def symbols : List Text :=
  (operators.filter fun w => w != ['/', '/'] && w != ['/', '*']).map Text.ofChars

def ofSymbol (w : Text) : Token := { kind := .operator, literal := w }

def ofWord (w : Text) : Token := { kind := .identifier, literal := w }

def zero : Token := { kind := .number, literal := "0" }

def eof : Token := { kind := .eof }

theorem scanned_eof : eof.Scanned := .inr ⟨rfl, rfl⟩

theorem isSymbol_ofSymbol (w : Text) : (ofSymbol w).isSymbol w := by simp [isSymbol, ofSymbol]

theorem isWord_ofWord (w : Text) : (ofWord w).isWord w := by simp [isWord, ofWord]

theorem exists_of_mem_symbols {w : Text} (hw : w ∈ symbols) :
    ∃ cs, w = Text.ofChars cs ∧ cs ∈ operators ∧ IsLexeme .operator cs := by
  obtain ⟨cs, hcs, rfl⟩ := List.mem_map.mp hw
  obtain ⟨hmem, hopener⟩ := List.mem_filter.mp hcs
  simp only [Bool.and_eq_true, bne_iff_ne] at hopener
  exact ⟨cs, rfl, hmem, .operator hmem hopener.1 hopener.2⟩

theorem lexed_ofSymbol {w : Text} (hw : w ∈ symbols) : (ofSymbol w).Lexed := by
  obtain ⟨cs, rfl, -, hlexeme⟩ := exists_of_mem_symbols hw
  exact ⟨cs, hlexeme, rfl⟩

theorem exists_of_mem_keywords {w : Text} (hw : w ∈ keywords) :
    ∃ c cs, w = Text.ofChars (c :: cs) ∧ Source.isLetter c = true ∧
      ∀ d ∈ cs, (Source.isLetter d || Source.isDigit d) = true := by
  have hall : ∀ w ∈ keywords, w = Text.ofChars w.chars ∧ w.chars.head?.any Source.isLetter = true ∧
      w.chars.tail.all (fun d => Source.isLetter d || Source.isDigit d) = true := by decide
  obtain ⟨hchars, hhead, htail⟩ := hall w hw
  cases hcs : w.chars with
  | nil =>
    rw [hcs] at hhead
    cases hhead
  | cons c cs =>
    rw [hcs] at hchars hhead htail
    exact ⟨c, cs, hchars, hhead, List.all_eq_true.mp htail⟩

theorem lexed_ofWord {w : Text} (hw : w ∈ keywords) : (ofWord w).Lexed := by
  obtain ⟨c, cs, rfl, hc, hcs⟩ := exists_of_mem_keywords hw
  exact ⟨c :: cs, .identifier hc hcs, rfl⟩

theorem Scanned.isSymbol_of_mem {t : Token} (h : t.Scanned) {w : Text} (hw : w ∈ symbols)
    (ht : t.literal = w) : t.isSymbol w = true := by
  obtain ⟨cs, rfl, hmem, -⟩ := exists_of_mem_symbols hw
  exact h.isSymbol hmem ht

theorem Scanned.isWord_of_mem {t : Token} (h : t.Scanned) {w : Text} (hw : w ∈ keywords)
    (ht : t.literal = w) : t.isWord w = true := by
  obtain ⟨c, cs, rfl, hc, -⟩ := exists_of_mem_keywords hw
  exact h.isWord hc ht

theorem Scanned.lexed_of_isSymbol {t : Token} (h : t.Scanned) {w : Text} (ht : t.isSymbol w) :
    t.Lexed :=
  h.lexed (by rw [(isSymbol_iff.mp ht).1]; decide)

theorem Scanned.lexed_of_isWord {t : Token} (h : t.Scanned) {w : Text} (ht : t.isWord w) :
    t.Lexed :=
  h.lexed (by rw [(isWord_iff.mp ht).1]; decide)

end Token

namespace Parser

/-- The tokens at hand and to come are those of a scanner. -/
structure State.Scanned (r : State) : Prop where
  current : r.current.Scanned
  stream : r.stream.Lexed

/-- There is an error of the scanner among the answers to come. -/
def State.Fails (r : State) (e : ScanError) : Prop :=
  .error e ∈ r.stream.items ∨ r.stream.last = .error e

/-- The tokens `us` are taken one after another. -/
inductive Reads : State → List Token → State → Prop where
  | nil {r : State} : Reads r [] r
  | cons {r s s' : State} {us : List Token} (hkind : r.current.kind ≠ .eof)
    (hadvance : advance r = .ok () s) (h : Reads s us s') : Reads r (r.current :: us) s'

section Reads

variable {r s s' : State} {us vs : List Token}

theorem advance_cases (r : State) :
    (∃ t rest, r.stream.items = .ok t :: rest ∧
      advance r = .ok () { r with stream := { r.stream with items := rest }, current := t }) ∨
    (∃ t, r.stream.items = [] ∧ r.stream.last = .ok t ∧
      advance r = .ok () { r with current := t }) ∨
    ∃ e s, r.Fails e ∧ advance r = .error (.scan e) s := by
  cases hitems : r.stream.items with
  | nil =>
    cases hlast : r.stream.last with
    | ok t =>
      refine .inr (.inl ⟨t, rfl, rfl, ?_⟩)
      simp only [advance, TokenStream.next, hitems, hlast]
    | error e =>
      refine .inr (.inr ⟨e, r, .inr hlast, ?_⟩)
      simp only [advance, TokenStream.next, hitems, hlast]
  | cons x rest =>
    cases x with
    | ok t =>
      refine .inl ⟨t, rest, rfl, ?_⟩
      simp only [advance, TokenStream.next, hitems]
    | error e =>
      refine .inr (.inr ⟨e, { r with stream := { r.stream with items := rest } }, .inl ?_, ?_⟩)
      · rw [hitems]
        exact List.mem_cons_self
      · simp only [advance, TokenStream.next, hitems]

theorem State.Scanned.advance (hr : r.Scanned) (h : Parser.advance r = .ok () s) : s.Scanned := by
  obtain ⟨t, rest, hitems, hadvance⟩ | ⟨t, hitems, hlast, hadvance⟩ | ⟨e, s', -, hadvance⟩ :=
    advance_cases r
  · cases hadvance.symm.trans h
    refine ⟨.inl (hr.stream.items t (hitems ▸ List.mem_cons_self)), fun u hu => ?_, hr.stream.last⟩
    exact hr.stream.items u (hitems ▸ List.mem_cons_of_mem _ hu)
  · cases hadvance.symm.trans h
    exact ⟨.inr (hr.stream.last t hlast), hr.stream⟩
  · cases hadvance.symm.trans h

theorem State.Fails.of_advance {e : ScanError} (h : s.Fails e)
    (hadvance : advance r = .ok () s) : r.Fails e := by
  obtain ⟨t, rest, hitems, hnext⟩ | ⟨t, hitems, hlast, hnext⟩ | ⟨e, s', -, hnext⟩ := advance_cases r
  · cases hnext.symm.trans hadvance
    refine h.imp_left fun hmem => ?_
    rw [hitems]
    exact List.mem_cons_of_mem _ hmem
  · cases hnext.symm.trans hadvance
    exact h
  · cases hnext.symm.trans hadvance

theorem Reads.trans (h : Reads r us s) (h' : Reads s vs s') : Reads r (us ++ vs) s' := by
  induction h with
  | nil => exact h'
  | cons hkind hadvance _ ih => exact .cons hkind hadvance (ih h')

theorem Reads.scanned (h : Reads r us s) (hr : r.Scanned) : s.Scanned := by
  induction h with
  | nil => exact hr
  | cons _ hadvance _ ih => exact ih (hr.advance hadvance)

theorem Reads.lexed (h : Reads r us s) (hr : r.Scanned) : ∀ u ∈ us, u.Lexed := by
  induction h with
  | nil => exact fun u hu => absurd hu List.not_mem_nil
  | cons hkind hadvance _ ih =>
    exact List.forall_mem_cons.mpr ⟨hr.current.lexed hkind, ih (hr.advance hadvance)⟩

theorem Reads.fails {e : ScanError} (h : Reads r us s) (hs : s.Fails e) : r.Fails e := by
  induction h with
  | nil => exact hs
  | cons _ hadvance _ ih => exact (ih hs).of_advance hadvance

theorem Reads.head?_eq (h : Reads r us s) (hus : us ≠ []) : us.head? = some r.current := by
  cases h with
  | nil => exact absurd rfl hus
  | cons _ _ _ => rfl

theorem Reads.length_le (h : Reads r us s) (hr : r.Scanned) :
    us.length ≤ r.stream.items.length + 1 := by
  induction h with
  | nil => exact Nat.zero_le _
  | @cons r s s' us hkind hadvance h ih =>
    have hlen := ih (hr.advance hadvance)
    obtain ⟨t, rest, hitems, hnext⟩ | ⟨t, hitems, hlast, hnext⟩ | ⟨e, s', -, hnext⟩ :=
      advance_cases r
    · cases hnext.symm.trans hadvance
      rw [hitems]
      simp only [List.length_cons] at hlen ⊢
      omega
    · cases hnext.symm.trans hadvance
      cases h with
      | nil => simp
      | cons hkind _ _ => exact absurd (hr.stream.last t hlast).1 hkind
    · cases hnext.symm.trans hadvance

end Reads

section Spec

variable {α β : Type}

theorem bind_of_ok {x : Parser α} {f : α → Parser β} {a : α} {r s : State} (h : x r = .ok a s) :
    (x >>= f) r = f a s := by
  change EStateM.bind x f r = _
  rw [EStateM.bind, h]

theorem bind_of_error {x : Parser α} {f : α → Parser β} {e : SyntaxError} {r s : State}
    (h : x r = .error e s) : (x >>= f) r = .error e s := by
  change EStateM.bind x f r = _
  rw [EStateM.bind, h]

theorem current_bind {f : Token → Parser β} (r : State) : (current >>= f) r = f r.current r := rfl

/-- Some tokens, with some token behind them, have the property. -/
def Completable (G : List Token → α → Token → Prop) : Prop :=
  ∃ us a t, (∀ u ∈ us, u.Lexed) ∧ t.Scanned ∧ G us a t

/-- How a run ends: with a result that fits the tokens taken, or at a token in whose place other ones
would have led to such a result, or because the scanner failed. -/
def Ends (r : State) (G : List Token → α → Token → Prop) : EStateM.Result SyntaxError State α → Prop
  | .ok a s => ∃ us, Reads r us s ∧ G us a s.current
  | .error (.parse _ found) s =>
    ∃ us, Reads r us s ∧ found = s.current ∧ Completable fun vs => G (us ++ vs)
  | .error (.scan e) _ => r.Fails e

/-- From the token `cur` on, a parser reads what `G` says. -/
structure Spec (cur : Token) (x : Parser α) (G : List Token → α → Token → Prop) : Prop where
  completable : Completable G
  ends : ∀ r : State, r.Scanned → r.current = cur → Ends r G (x r)

variable {cur : Token} {x y : Parser α} {f : α → Parser β} {a : α} {r s : State} {us : List Token}
  {G : List Token → α → Token → Prop} {K : List Token → β → Token → Prop}

theorem Completable.prepend (hus : ∀ u ∈ us, u.Lexed) (h : Completable fun vs => G (us ++ vs)) :
    Completable G := by
  obtain ⟨vs, a, t, hvs, ht, hG⟩ := h
  refine ⟨us ++ vs, a, t, fun u hu => ?_, ht, hG⟩
  exact (List.mem_append.mp hu).elim (hus u) (hvs u)

theorem Completable.bind (h : Completable G)
    (hK : ∀ us a t, t.Scanned → G us a t → Completable fun vs => K (us ++ vs)) : Completable K := by
  obtain ⟨us, a, t, hus, ht, hG⟩ := h
  exact (hK us a t ht hG).prepend hus

theorem Ends.prepend {res : EStateM.Result SyntaxError State α} (hreads : Reads r us s)
    (h : Ends s (fun vs => G (us ++ vs)) res) : Ends r G res := by
  cases res with
  | ok a s' =>
    obtain ⟨vs, hvs, hG⟩ := h
    exact ⟨us ++ vs, hreads.trans hvs, hG⟩
  | error e s' =>
    cases e with
    | parse cause found =>
      obtain ⟨vs, hvs, hfound, hcomplete⟩ := h
      refine ⟨us ++ vs, hreads.trans hvs, hfound, ?_⟩
      simpa only [List.append_assoc] using hcomplete
    | scan e => exact hreads.fails h

theorem Ends.bind (h : Ends r G (x r))
    (hf : ∀ us a s, Reads r us s → G us a s.current → Ends s (fun vs => K (us ++ vs)) (f a s))
    (hK : ∀ us a t, t.Scanned → G us a t → Completable fun vs => K (us ++ vs)) :
    Ends r K ((x >>= f) r) := by
  cases hx : x r with
  | ok a s =>
    rw [hx] at h
    rw [bind_of_ok hx]
    obtain ⟨us, hus, hG⟩ := h
    exact (hf us a s hus hG).prepend hus
  | error e s =>
    rw [hx] at h
    rw [bind_of_error hx]
    cases e with
    | parse cause found =>
      obtain ⟨us, hus, hfound, hcomplete⟩ := h
      refine ⟨us, hus, hfound, hcomplete.bind fun vs a t ht hG => ?_⟩
      simpa only [List.append_assoc] using hK (us ++ vs) a t ht hG
    | scan e => exact h

theorem Spec.bind (hx : Spec cur x G)
    (hf : ∀ us a t, t.Scanned → G us a t → Spec t (f a) fun vs => K (us ++ vs)) :
    Spec cur (x >>= f) K := by
  refine ⟨hx.completable.bind fun us a t ht hG => (hf us a t ht hG).completable, fun r hr hcur => ?_⟩
  refine (hx.ends r hr hcur).bind (fun us a s hus hG => ?_)
    fun us a t ht hG => (hf us a t ht hG).completable
  have hs := hus.scanned hr
  exact (hf us a s.current hs.current hG).ends s hs rfl

theorem spec_pure (hcur : cur.Scanned) (h : G [] a cur) : Spec cur (pure a) G := by
  refine ⟨⟨[], a, cur, fun u hu => absurd hu List.not_mem_nil, hcur, h⟩, fun r hr hr' => ?_⟩
  exact ⟨[], .nil, hr' ▸ h⟩

theorem spec_reject {cause : ParseCause} (h : Completable G) :
    Spec cur (reject cause : Parser α) G :=
  ⟨h, fun _ _ _ => ⟨[], .nil, rfl, h⟩⟩

theorem spec_current {f : Token → Parser β} (h : Spec cur (f cur) K) : Spec cur (current >>= f) K :=
  ⟨h.completable, fun r hr hcur => by
    rw [current_bind, hcur]
    exact h.ends r hr hcur⟩

theorem Spec.ite {c : Prop} [Decidable c] (hx : c → Spec cur x G) (hy : ¬ c → Spec cur y G) :
    Spec cur (if c then x else y) G := by
  by_cases hc : c
  · rw [if_pos hc]
    exact hx hc
  · rw [if_neg hc]
    exact hy hc

theorem spec_advance (hcur : cur.Lexed) : Spec cur advance fun us _ _ => us = [cur] := by
  refine ⟨⟨[cur], (), cur, ?_, .inl hcur, rfl⟩, fun r hr hr' => ?_⟩
  · exact fun u hu => List.mem_singleton.mp hu ▸ hcur
  · have hkind : r.current.kind ≠ .eof := hr' ▸ hcur.ne_eof
    obtain ⟨t, rest, -, hadvance⟩ | ⟨t, -, -, hadvance⟩ | ⟨e, s, hfails, hadvance⟩ := advance_cases r
    · rw [hadvance]
      exact ⟨[r.current], .cons hkind hadvance .nil, hr' ▸ rfl⟩
    · rw [hadvance]
      exact ⟨[r.current], .cons hkind hadvance .nil, hr' ▸ rfl⟩
    · rw [hadvance]
      exact hfails

theorem spec_expect {l : Text} {P : Token → Prop} (hcur : cur.Scanned)
    (hhit : cur.literal = l → cur.Lexed ∧ P cur) {t : Token} (ht : t.Lexed) (hP : P t) :
    Spec cur (expect l) fun us t _ => us = [t] ∧ P t := by
  refine spec_current (Spec.ite (fun hl => ?_) fun _ => ?_)
  · obtain ⟨hlexed, hcurP⟩ := hhit hl
    refine (spec_advance hlexed).bind fun us _ t ht hus => spec_pure ht ?_
    rw [hus]
    exact ⟨rfl, hcurP⟩
  · exact spec_reject ⟨[t], t, cur, fun u hu => List.mem_singleton.mp hu ▸ ht, hcur, rfl, hP⟩

theorem spec_symbol (hcur : cur.Scanned) {l : Text} (hl : l ∈ Token.symbols) :
    Spec cur (expect l) fun us t _ => us = [t] ∧ t.isSymbol l := by
  refine spec_expect hcur (fun hliteral => ?_) (Token.lexed_ofSymbol hl) (Token.isSymbol_ofSymbol l)
  have hsymbol := hcur.isSymbol_of_mem hl hliteral
  exact ⟨hcur.lexed_of_isSymbol hsymbol, hsymbol⟩

theorem spec_word (hcur : cur.Scanned) {l : Text} (hl : l ∈ Token.keywords) :
    Spec cur (expect l) fun us t _ => us = [t] ∧ t.isWord l := by
  refine spec_expect hcur (fun hliteral => ?_) (Token.lexed_ofWord hl) (Token.isWord_ofWord l)
  have hword := hcur.isWord_of_mem hl hliteral
  exact ⟨hcur.lexed_of_isWord hword, hword⟩

/-- A parser that rejects the token `cur` at once. -/
def Rejects (cur : Token) (x : Parser α) : Prop :=
  ∀ r : State, r.current = cur → ∃ cause, x r = .error (.parse cause cur) r

theorem rejects_reject (cause : ParseCause) : Rejects cur (reject cause : Parser α) := by
  rintro r rfl
  exact ⟨cause, rfl⟩

theorem rejects_current {f : Token → Parser β} (h : Rejects cur (f cur)) :
    Rejects cur (current >>= f) := by
  intro r hr
  obtain ⟨cause, hcause⟩ := h r hr
  exact ⟨cause, by rw [current_bind, hr, hcause]⟩

theorem Rejects.bind (h : Rejects cur x) : Rejects cur (x >>= f) := by
  intro r hr
  obtain ⟨cause, hcause⟩ := h r hr
  exact ⟨cause, bind_of_error hcause⟩

theorem rejects_expect {l : Text} (h : cur.literal ≠ l) : Rejects cur (expect l) := by
  refine rejects_current ?_
  rw [if_neg h]
  exact rejects_reject _

theorem Rejects.spec (h : Rejects cur x) (hG : Completable G) : Spec cur x G := by
  refine ⟨hG, fun r hr hcur => ?_⟩
  obtain ⟨cause, hcause⟩ := h r hcur
  rw [hcause]
  exact ⟨[], .nil, hcur.symm, hG⟩

end Spec

section Items

variable {α : Type} {item : Parser α} {P : α → List Token → Prop}

theorem isName_x : (Token.ofWord "x").IsName ∧ (Token.ofWord "x").Lexed :=
  ⟨⟨rfl, by decide⟩, ['x'], .identifier (by decide) (fun _ hd => absurd hd List.not_mem_nil), rfl⟩

theorem spec_name {cur : Token} (hcur : cur.Scanned) (role : Role) :
    Spec cur (name role) fun us t _ => us = [t] ∧ t.IsName := by
  have hcomplete : Completable fun us (t : Token) (_ : Token) => us = [t] ∧ t.IsName :=
    ⟨_, _, cur, fun u hu => List.mem_singleton.mp hu ▸ isName_x.2, hcur, rfl, isName_x.1⟩
  refine spec_current (Spec.ite (fun _ => spec_reject hcomplete) fun hkind => ?_)
  refine Spec.ite (fun _ => spec_reject hcomplete) fun hkeyword => ?_
  have hident := not_not.mp hkind
  have hlexed := hcur.lexed (by rw [hident]; decide)
  refine (spec_advance hlexed).bind fun us _ t ht hus => spec_pure ht ?_
  rw [hus]
  exact ⟨rfl, hident, Bool.not_eq_true _ ▸ hkeyword⟩

theorem spec_variableName {cur : Token} (hcur : cur.Scanned) :
    Spec cur variableName fun us v _ => IsParameter v us := by
  refine (spec_name hcur .var).bind fun us v t ht hv => spec_pure ht ?_
  obtain ⟨rfl, hname⟩ := hv
  exact ⟨v, hname, rfl, rfl⟩

theorem spec_moreItems (hitem : ∀ cur : Token, cur.Scanned → Spec cur item fun us a _ => P a us)
    (n : Nat) {cur : Token} (hcur : cur.Scanned) :
    Spec cur (moreItems item n) fun us as _ => ∀ a vs, P a vs → Listed P (a :: as) (vs ++ us) := by
  have hnone : ∀ a vs, P a vs → Listed P [a] (vs ++ []) := fun a vs ha => by
    rw [List.append_nil]
    exact .one ha
  induction n generalizing cur with
  | zero => exact spec_pure hcur hnone
  | succ n ih =>
    refine spec_current (Spec.ite (fun hcomma => ?_) fun _ => spec_pure hcur hnone)
    refine (spec_advance (hcur.lexed_of_isSymbol hcomma)).bind fun _ _ t ht hus => ?_
    cases hus
    refine (hitem t ht).bind fun us b t ht hb => (ih ht).bind fun vs bs t ht hbs => spec_pure ht ?_
    intro a ws ha
    simpa using Listed.more ha hcomma (hbs b us hb)

theorem spec_itemList (hitem : ∀ cur : Token, cur.Scanned → Spec cur item fun us a _ => P a us)
    (n : Nat) {cur : Token} (hcur : cur.Scanned) :
    Spec cur (itemList item n) fun us as _ => Parenthesized P as us := by
  refine (spec_symbol hcur (by decide)).bind fun _ l t ht hl => ?_
  obtain ⟨rfl, hl⟩ := hl
  refine spec_current (Spec.ite (fun _ => ?_) fun _ => ?_)
  · refine (spec_symbol ht (by decide)).bind fun _ r t ht hr => spec_pure ht ?_
    obtain ⟨rfl, hr⟩ := hr
    exact .none hl hr
  · refine (hitem t ht).bind fun us a t ht ha => (spec_moreItems hitem n ht).bind fun vs as t ht has =>
      (spec_symbol ht (by decide)).bind fun _ r t ht hr => spec_pure ht ?_
    obtain ⟨rfl, hr⟩ := hr
    simpa using Parenthesized.some hl (has a us ha) hr

end Items

section Expressions

variable {cur : Token} {operand : Parser Expr} {level : List (Text × Operator)} {k n : Nat}

theorem mem_of_lookup_eq_some {t : Text} {op : Operator} (h : level.lookup t = some op) :
    (t, op) ∈ level := by
  obtain ⟨front, rest, hlevel, -⟩ := List.lookup_eq_some_iff.mp h
  rw [hlevel]
  exact List.mem_append_right _ List.mem_cons_self

/-- The operators of a level are those of its rank, by their symbols. -/
theorem spells_of_mem_level (hk : levels[k]? = some level) {t : Text} {op : Operator}
    (h : (t, op) ∈ level) : t = op.symbol ∧ op.rank = k + 1 := by
  have hall : ∀ i < 4, ∀ level ∈ levels[i]?, ∀ p ∈ level, p.1 = p.2.symbol ∧ p.2.rank = i + 1 := by
    decide
  have hlt : k < 4 := (List.getElem?_eq_some_iff.mp hk).1
  exact hall k hlt level hk (t, op) h

theorem spells_of_operatorAmong (hcur : cur.Scanned) (hk : levels[k]? = some level) {op : Operator}
    (h : operatorAmong level cur = some op) : cur.Spells op ∧ op.rank = k + 1 := by
  rw [operatorAmong] at h
  by_cases hkind : (cur.kind = .operator || cur.isWord "mod") = true
  · rw [if_pos hkind] at h
    obtain ⟨hsymbol, hrank⟩ := spells_of_mem_level hk (mem_of_lookup_eq_some h)
    refine ⟨⟨hsymbol, ?_⟩, hrank⟩
    by_cases hmod : op = .mod
    · rw [if_pos hmod]
      exact (Token.isWord_iff.mp (hcur.isWord_of_mem (by decide) (hmod ▸ hsymbol))).1
    · rw [if_neg hmod]
      have hnot : cur.isWord "mod" = false := by
        by_contra hword
        have hliteral := (Token.isWord_iff.mp (Bool.not_eq_false _ ▸ hword)).2
        rw [hsymbol] at hliteral
        cases op <;> first | exact hmod rfl | exact absurd hliteral (by decide) | cases hrank
      simpa [hnot] using hkind
  · rw [if_neg hkind] at h
    cases h

theorem lexed_of_spells {op : Operator} (hcur : cur.Scanned) (h : cur.Spells op) : cur.Lexed := by
  refine hcur.lexed ?_
  rw [h.2]
  split <;> decide

theorem completable_term (hk : k ≤ 4) :
    Completable fun us e (_ : Token) => Derives (.term k e) us := by
  have hzero : Token.zero.Lexed :=
    ⟨['0'], .number (by decide) (fun _ hd => absurd hd List.not_mem_nil), rfl⟩
  have hterm : ∀ k ≤ 4, Derives (.term k (.literal Token.zero 0 .int false)) [Token.zero] := by
    intro k hk
    induction k with
    | zero => exact .number ⟨rfl, by decide, by decide⟩
    | succ k ih => exact .climb (by omega) (ih (by omega))
  exact ⟨[Token.zero], _, Token.zero, fun u hu => List.mem_singleton.mp hu ▸ hzero, .inl hzero,
    hterm k hk⟩

theorem spec_foldLevel (hk : levels[k]? = some level)
    (hoperand : ∀ cur : Token, cur.Scanned → Spec cur operand fun us e _ => Derives (.term k e) us)
    (n : Nat) {left : Expr} {before : List Token} (hleft : Derives (.term (k + 1) left) before)
    (hcur : cur.Scanned) : Spec cur (foldLevel level operand n left) fun us e _ =>
      Derives (.term (k + 1) e) (before ++ us) := by
  have hdone : Derives (.term (k + 1) left) (before ++ []) := by rwa [List.append_nil]
  induction n generalizing cur left before with
  | zero => exact spec_pure hcur hdone
  | succ n ih =>
    refine spec_current ?_
    cases hop : operatorAmong level cur with
    | none => exact spec_pure hcur hdone
    | some op =>
      obtain ⟨hspells, hrank⟩ := spells_of_operatorAmong hcur hk hop
      refine (spec_advance (lexed_of_spells hcur hspells)).bind fun _ _ t ht hus => ?_
      cases hus
      refine (hoperand t ht).bind fun us right t ht hright => ?_
      have hbinary := Derives.binary hrank hleft hspells hright
      have hrest := ih hbinary ht (by rwa [List.append_nil])
      simpa only [List.append_assoc, List.cons_append, List.nil_append] using hrest

theorem spec_binaryLevel (hk : levels[k]? = some level)
    (hoperand : ∀ cur : Token, cur.Scanned → Spec cur operand fun us e _ => Derives (.term k e) us)
    (n : Nat) (hcur : cur.Scanned) :
    Spec cur (binaryLevel n operand level) fun us e _ => Derives (.term (k + 1) e) us := by
  have hlt : k < 4 := (List.getElem?_eq_some_iff.mp hk).1
  exact (hoperand cur hcur).bind fun us left t ht hleft =>
    spec_foldLevel hk hoperand n (.climb hlt hleft) ht

theorem spec_expressionOver (n : Nat)
    (hfactor : ∀ cur : Token, cur.Scanned → Spec cur operand fun us e _ => Derives (.term 0 e) us)
    (hcur : cur.Scanned) :
    Spec cur (expressionOver n operand) fun us e _ => Derives (.term 4 e) us := by
  refine spec_binaryLevel rfl (fun cur hcur => ?_) n hcur
  refine spec_binaryLevel rfl (fun cur hcur => ?_) n hcur
  refine spec_binaryLevel rfl (fun cur hcur => ?_) n hcur
  exact spec_binaryLevel rfl hfactor n hcur

theorem derives_items {es : List Expr} {us : List Token}
    (h : Listed (fun e us => Derives (.term 4 e) us) es us) : Derives (.items es) us := by
  induction h with
  | one he => exact .item he
  | more he hcomma _ ih => exact .items he hcomma ih

theorem derives_arguments {es : List Expr} {us : List Token}
    (h : Parenthesized (fun e us => Derives (.term 4 e) us) es us) : Derives (.arguments es) us := by
  cases h with
  | none hl hr => exact .noArguments hl hr
  | some hl hes hr => exact .arguments hl (derives_items hes) hr

theorem spec_reference {expression : Parser Expr} (n : Nat)
    (hexpr : ∀ cur : Token, cur.Scanned → Spec cur expression fun us e _ => Derives (.term 4 e) us)
    (hcur : cur.Scanned) :
    Spec cur (reference n expression) fun us e _ => Derives (.term 0 e) us := by
  refine (spec_name hcur .var).bind fun _ v t ht hv => ?_
  obtain ⟨rfl, hv⟩ := hv
  refine spec_current (Spec.ite (fun _ => ?_) fun _ => spec_pure ht (.var hv))
  refine (spec_itemList hexpr n ht).bind fun us args t ht hargs => spec_pure ht ?_
  rw [List.append_nil]
  exact .call hv (derives_arguments hargs)

theorem spec_number (hcur : cur.Scanned) (hkind : cur.kind = .number) :
    Spec cur number fun us e _ => Derives (.term 0 e) us := by
  have hlexed := hcur.lexed (by rw [hkind]; decide)
  refine spec_current ?_
  cases hvalue : Numeral.readWord? .decimal cur.literal with
  | none => exact spec_reject (completable_term (by decide))
  | some value =>
    refine (spec_advance hlexed).bind fun _ _ t ht hus => spec_pure ht ?_
    rw [hus]
    exact .number ((hlexed.readWord?_eq_some_iff hkind).mp hvalue)

theorem spec_truth {value : Int32} (hcur : cur.Lexed)
    (h : Derives (.term 0 (.literal cur value .int true)) [cur]) :
    Spec cur (truth value) fun us e _ => Derives (.term 0 e) us := by
  refine spec_current ((spec_advance hcur).bind fun _ _ t ht hus => spec_pure ht ?_)
  rw [hus]
  exact h

theorem spec_factor (n : Nat) (hcur : cur.Scanned) :
    Spec cur (factor n) fun us e _ => Derives (.term 0 e) us := by
  have hreject : ∀ cur : Token, Spec cur (reject .expectedExpression : Parser Expr) fun us e _ =>
      Derives (.term 0 e) us := fun _ => spec_reject (completable_term (by decide))
  induction n generalizing cur with
  | zero => exact hreject cur
  | succ n ih =>
    have hexpr : ∀ cur : Token, cur.Scanned → Spec cur (expressionOver n (factor n)) fun us e _ =>
        Derives (.term 4 e) us := fun cur hcur => spec_expressionOver n (fun _ => ih) hcur
    refine spec_current ?_
    cases hkind : cur.kind with
    | operator =>
      have hlexed := hcur.lexed (by rw [hkind]; decide)
      have hsymbol : ∀ w : Text, cur.literal = w → cur.isSymbol w := fun w hw =>
        Token.isSymbol_iff.mpr ⟨hkind, hw⟩
      refine Spec.ite (fun hl => ?_) fun _ => Spec.ite (fun hminus => ?_) fun _ => hreject cur
      · refine (spec_advance hlexed).bind fun _ _ t ht hus => ?_
        cases hus
        refine (hexpr t ht).bind fun us e t ht he =>
          (spec_symbol ht (by decide)).bind fun _ r t ht hr => spec_pure ht ?_
        obtain ⟨rfl, hr⟩ := hr
        exact .parens (hsymbol _ hl) he hr
      · refine (spec_advance hlexed).bind fun _ _ t ht hus => ?_
        cases hus
        refine (ih ht).bind fun us e t ht he => spec_pure ht ?_
        rw [List.append_nil]
        exact .minus (hsymbol _ hminus) he
    | number => exact spec_number hcur hkind
    | identifier =>
      have hlexed := hcur.lexed (by rw [hkind]; decide)
      have hword : ∀ w : Text, cur.literal = w → cur.isWord w := fun w hw =>
        Token.isWord_iff.mpr ⟨hkind, hw⟩
      refine Spec.ite (fun ht => spec_truth hlexed (.trueWord (hword _ ht))) fun _ => ?_
      refine Spec.ite (fun hf => spec_truth hlexed (.falseWord (hword _ hf))) fun _ => ?_
      exact spec_reference n hexpr hcur
    | eof => exact hreject cur
    | any => exact hreject cur
    | other name => exact hreject cur

theorem spec_expression (n : Nat) (hcur : cur.Scanned) :
    Spec cur (expression n) fun us e _ => Derives (.term 4 e) us :=
  spec_expressionOver n (fun _ => spec_factor n) hcur

end Expressions

section Statements

variable {cur : Token} {body : Parser Stmt} {n : Nat}

/-- The tokens of a statement in front of one that may stand there. -/
def IsStatement (us : List Token) (s : Stmt) (next : Token) : Prop :=
  ∃ e : Ending, Derives (.statement e s) us ∧ e.Allows next

/-- The tokens of statements, or of statements the last of which lacks its semicolon. -/
def AreStatements (us : List Token) (ss : List Stmt) (next : Token) : Prop :=
  Derives (.statements ss) us ∨ next.isSymbol "." ∧
    Derives (.statements ss) (us ++ [Token.ofSymbol ";"])

theorem lexed_semi : (Token.ofSymbol ";").Lexed := Token.lexed_ofSymbol (by decide)

theorem spec_writeLn (n : Nat) (hcur : cur.Scanned) : Spec cur (writeLn n) IsStatement := by
  refine (spec_word hcur (by decide)).bind ?_
  rintro _ w t ht ⟨rfl, hw⟩
  refine (spec_symbol ht (by decide)).bind ?_
  rintro _ l t ht ⟨rfl, hl⟩
  refine (spec_expression n ht).bind fun us e t ht he => ?_
  refine (spec_symbol ht (by decide)).bind ?_
  rintro _ r t ht ⟨rfl, hr⟩
  refine (spec_symbol ht (by decide)).bind ?_
  rintro _ semi t ht ⟨rfl, hsemi⟩
  exact spec_pure ht ⟨.closed, .writeLn hw hl he hr hsemi, trivial⟩

theorem spec_readLn (hcur : cur.Scanned) : Spec cur readLn IsStatement := by
  refine (spec_word hcur (by decide)).bind ?_
  rintro _ w t ht ⟨rfl, hw⟩
  refine (spec_symbol ht (by decide)).bind ?_
  rintro _ l t ht ⟨rfl, hl⟩
  refine (spec_variableName ht).bind ?_
  rintro _ _ t ht ⟨v, hv, rfl, rfl⟩
  refine (spec_symbol ht (by decide)).bind ?_
  rintro _ r t ht ⟨rfl, hr⟩
  refine (spec_symbol ht (by decide)).bind ?_
  rintro _ semi t ht ⟨rfl, hsemi⟩
  exact spec_pure ht ⟨.closed, .readLn hw hl hv hr hsemi, trivial⟩

/-- An assignment, as a statement that can always be added. -/
theorem exists_assign : ∃ us s, (∀ u ∈ us, u.Lexed) ∧ Derives (.statement .closed s) us ∧
    ∀ d : Declaration, s ≠ d.toStmt := by
  obtain ⟨us, e, -, hus, -, he⟩ := completable_term (Nat.le_refl 4)
  have hassign := Derives.assign isName_x.1 (Token.isSymbol_ofSymbol ":=") he
    (Token.isSymbol_ofSymbol ";")
  refine ⟨_, _, fun u hu => ?_, hassign, fun d hd => by cases hd⟩
  simp only [List.mem_cons, List.mem_append, List.not_mem_nil, or_false] at hu
  rcases hu with rfl | rfl | hu | rfl
  · exact isName_x.2
  · exact Token.lexed_ofSymbol (by decide)
  · exact hus u hu
  · exact lexed_semi

theorem completable_statement : Completable IsStatement := by
  obtain ⟨us, s, hus, hs, -⟩ := exists_assign
  exact ⟨us, s, _, hus, .inl lexed_semi, .closed, hs, trivial⟩

theorem spec_assignOrCall (n : Nat) (hcur : cur.Scanned) :
    Spec cur (assignOrCall n) IsStatement := by
  refine spec_current (Spec.ite (fun _ => spec_reject completable_statement) fun _ => ?_)
  refine (spec_name hcur .var).bind ?_
  rintro _ v t ht ⟨rfl, hv⟩
  refine spec_current (Spec.ite (fun hsign => ?_) fun _ => Spec.ite (fun _ => ?_) fun _ => ?_)
  · refine (spec_advance (ht.lexed_of_isSymbol hsign)).bind ?_
    rintro _ _ t' ht' rfl
    refine (spec_expression n ht').bind fun us e t ht he => ?_
    refine (spec_symbol ht (by decide)).bind ?_
    rintro _ semi t ht ⟨rfl, hsemi⟩
    exact spec_pure ht ⟨.closed, .assign hv hsign he hsemi, trivial⟩
  · refine (spec_itemList (fun _ => spec_expression n) n ht).bind fun us args t ht hargs => ?_
    refine (spec_symbol ht (by decide)).bind ?_
    rintro _ semi t ht ⟨rfl, hsemi⟩
    exact spec_pure ht ⟨.closed, .callStatement hv (derives_arguments hargs) hsemi, trivial⟩
  · refine spec_reject ?_
    obtain ⟨us, e, t, hus, ht, he⟩ := completable_term (Nat.le_refl 4)
    have hassign := Derives.assign hv (Token.isSymbol_ofSymbol ":=") he (Token.isSymbol_ofSymbol ";")
    refine ⟨Token.ofSymbol ":=" :: (us ++ [Token.ofSymbol ";"]), _, t, fun u hu => ?_, ht, .closed,
      hassign, trivial⟩
    simp only [List.mem_cons, List.mem_append, List.not_mem_nil, or_false] at hu
    rcases hu with rfl | hu | rfl
    · exact Token.lexed_ofSymbol (by decide)
    · exact hus u hu
    · exact lexed_semi

theorem spec_whileLoop (n : Nat) (hbody : ∀ cur : Token, cur.Scanned → Spec cur body IsStatement)
    (hcur : cur.Scanned) : Spec cur (whileLoop n body) IsStatement := by
  refine (spec_word hcur (by decide)).bind ?_
  rintro _ w t ht ⟨rfl, hw⟩
  refine (spec_expression n ht).bind fun us e t ht he => ?_
  refine (spec_word ht (by decide)).bind ?_
  rintro _ d t ht ⟨rfl, hd⟩
  refine (hbody t ht).bind ?_
  rintro vs s t ht ⟨ending, hs, hallows⟩
  refine spec_pure ht ⟨ending, ?_, hallows⟩
  simpa using Derives.loop hw he hd hs

theorem spec_forLoop (n : Nat) (hbody : ∀ cur : Token, cur.Scanned → Spec cur body IsStatement)
    (hcur : cur.Scanned) : Spec cur (forLoop n body) IsStatement := by
  refine (spec_word hcur (by decide)).bind ?_
  rintro _ w t ht ⟨rfl, hw⟩
  refine (spec_variableName ht).bind ?_
  rintro _ _ t ht ⟨v, hv, rfl, rfl⟩
  refine (spec_symbol ht (by decide)).bind ?_
  rintro _ sign t ht ⟨rfl, hsign⟩
  refine (spec_expression n ht).bind fun us first t ht hfirst => ?_
  refine (spec_word ht (by decide)).bind ?_
  rintro _ to' t ht ⟨rfl, hto⟩
  refine (spec_expression n ht).bind fun vs last t ht hlast => ?_
  refine (spec_word ht (by decide)).bind ?_
  rintro _ d t ht ⟨rfl, hd⟩
  refine (hbody t ht).bind ?_
  rintro ws s t ht ⟨ending, hs, hallows⟩
  refine spec_pure ht ⟨ending, ?_, hallows⟩
  simpa using Derives.forLoop hw hv hsign hfirst hto hlast hd hs

theorem spec_declaration (n : Nat) (hbody : ∀ cur : Token, cur.Scanned → Spec cur body IsStatement)
    (hcur : cur.Scanned) : Spec cur (declaration n body) fun us d => IsStatement us d.toStmt := by
  refine (spec_word hcur (by decide)).bind ?_
  rintro _ w t ht ⟨rfl, hw⟩
  refine (spec_name ht .procedure).bind ?_
  rintro _ called t ht ⟨rfl, hcalled⟩
  refine (spec_itemList (fun _ => spec_variableName) n ht).bind fun us params t ht hparams => ?_
  refine (spec_symbol ht (by decide)).bind ?_
  rintro _ semi t ht ⟨rfl, hsemi⟩
  refine (hbody t ht).bind ?_
  rintro vs s t ht ⟨ending, hs, hallows⟩
  refine spec_pure ht ⟨ending, ?_, hallows⟩
  simpa [Declaration.toStmt] using Derives.declare hw hcalled hparams hsemi hs

theorem spec_conditional (n : Nat) (hbody : ∀ cur : Token, cur.Scanned → Spec cur body IsStatement)
    (hcur : cur.Scanned) : Spec cur (conditional n body) IsStatement := by
  refine (spec_word hcur (by decide)).bind ?_
  rintro _ w t ht ⟨rfl, hw⟩
  refine (spec_expression n ht).bind fun us e t ht he => ?_
  refine (spec_word ht (by decide)).bind ?_
  rintro _ th t ht ⟨rfl, hth⟩
  refine (hbody t ht).bind ?_
  rintro vs s t ht ⟨ending, hs, hallows⟩
  refine spec_current (Spec.ite (fun helse => ?_) fun helse => ?_)
  · refine (spec_advance (ht.lexed_of_isWord helse)).bind ?_
    rintro _ _ t' ht' rfl
    -- An `ELSE` is allowed only behind a closed statement.
    cases ending with
    | closed =>
      refine (hbody t' ht').bind ?_
      rintro ws s' t ht ⟨ending, hs', hallows⟩
      refine spec_pure ht ⟨ending, ?_, hallows⟩
      simpa using Derives.ifElse hw he hth hs helse hs'
    | dangling =>
      rw [Ending.Allows, helse] at hallows
      cases hallows
    | bare =>
      have hkind := (Token.isWord_iff.mp helse).1
      rw [(Token.isSymbol_iff.mp hallows).1] at hkind
      cases hkind
  · refine spec_pure ht ⟨ending.unmatched, ?_, ?_⟩
    · simpa using Derives.ifThen hw he hth hs
    · cases ending with
      | closed => exact Bool.eq_false_iff.mpr helse
      | dangling => exact hallows
      | bare => exact hallows

theorem rejects_statement (hkind : cur.kind ≠ .identifier) (n : Nat) :
    Rejects cur (statement n) := by
  cases n with
  | zero => exact rejects_reject _
  | succ n =>
    refine rejects_current ?_
    simp only [Token.not_isWord_of_kind hkind, Bool.false_eq_true, if_false]
    refine rejects_current ?_
    simp only [hkind, ne_eq, not_false_eq_true, decide_true, Bool.true_or, if_true]
    exact rejects_reject _

theorem not_identifier_of_isSymbol {w : Text} (h : cur.isSymbol w) : cur.kind ≠ .identifier := by
  rw [(Token.isSymbol_iff.mp h).1]
  decide

theorem spec_statements (hbody : ∀ cur : Token, cur.Scanned → Spec cur body IsStatement)
    (hrejects : ∀ cur : Token, cur.kind ≠ .identifier → Rejects cur body) (n : Nat)
    (hcur : cur.Scanned) : Spec cur (statements body n) AreStatements := by
  induction n generalizing cur with
  | zero => exact spec_pure hcur (.inl .noStatements)
  | succ n ih =>
    refine spec_current (Spec.ite (fun _ => spec_pure hcur (.inl .noStatements)) fun _ => ?_)
    refine (hbody cur hcur).bind ?_
    rintro us s t ht ⟨ending, hs, hallows⟩
    by_cases hbare : ending = .bare
    · -- Behind a bare statement stands a period, which begins no statement.
      subst hbare
      obtain ⟨e, he, hclosed⟩ := hs.exists_closed (Token.isSymbol_ofSymbol ";")
      have hss := Derives.statements hclosed he .noStatements
      rw [List.append_nil] at hss
      cases n with
      | zero =>
        change Spec t (pure [s]) _
        refine spec_pure ht (.inr ⟨hallows, ?_⟩)
        rwa [List.append_nil]
      | succ n =>
        have hperiod := not_identifier_of_isSymbol hallows
        have hgo : Rejects t (statements body (n + 1)) := by
          refine rejects_current ?_
          have hkind : t.kind ≠ .eof := by
            rw [(Token.isSymbol_iff.mp hallows).1]
            decide
          simp only [Token.not_isWord_of_kind hperiod, hkind, decide_false, Bool.or_false,
            Bool.false_eq_true, if_false]
          exact (hrejects t hperiod).bind
        refine hgo.bind.spec ⟨[Token.ofSymbol ";"], [s], t, fun u hu => ?_, ht, .inl hss⟩
        exact List.mem_singleton.mp hu ▸ lexed_semi
    · refine (ih ht).bind fun vs ss t ht hss => spec_pure ht ?_
      rw [List.append_nil]
      rcases hss with hss | ⟨hperiod, hss⟩
      · exact .inl (.statements hs hbare hss)
      · refine .inr ⟨hperiod, ?_⟩
        rw [List.append_assoc]
        exact .statements hs hbare hss

theorem spec_block (n : Nat) (hbody : ∀ cur : Token, cur.Scanned → Spec cur body IsStatement)
    (hrejects : ∀ cur : Token, cur.kind ≠ .identifier → Rejects cur body) (hcur : cur.Scanned) :
    Spec cur (block n body) IsStatement := by
  refine (spec_word hcur (by decide)).bind ?_
  rintro _ b t ht ⟨rfl, hb⟩
  refine (spec_statements hbody hrejects n ht).bind ?_
  rintro us ss t ht (hss | ⟨hperiod, hss⟩)
  · refine (spec_word ht (by decide)).bind ?_
    rintro _ final t ht ⟨rfl, hfinal⟩
    refine spec_current (Spec.ite (fun hperiod => ?_) fun _ => ?_)
    · exact spec_pure ht ⟨.bare, .bareBlock hb hss hfinal, hperiod⟩
    · refine (spec_symbol ht (by decide)).bind ?_
      rintro _ semi t ht ⟨rfl, hsemi⟩
      exact spec_pure ht ⟨.closed, .block hb hss hfinal hsemi, trivial⟩
  · have hliteral : t.literal ≠ "END" := by
      rw [(Token.isSymbol_iff.mp hperiod).2]
      decide
    have hblock := Derives.block hb hss (Token.isWord_ofWord "END") (Token.isSymbol_ofSymbol ";")
    rw [List.append_assoc] at hblock
    refine (rejects_expect hliteral).bind.spec ⟨_, _, t, fun u hu => ?_, ht, .closed, hblock, trivial⟩
    simp only [List.mem_append, List.mem_cons, List.not_mem_nil, or_false] at hu
    rcases hu with rfl | rfl | rfl
    · exact lexed_semi
    · exact Token.lexed_ofWord (by decide)
    · exact lexed_semi

theorem spec_statement (n : Nat) (hcur : cur.Scanned) : Spec cur (statement n) IsStatement := by
  induction n generalizing cur with
  | zero => exact spec_reject completable_statement
  | succ n ih =>
    have hbody : ∀ cur : Token, cur.Scanned → Spec cur (statement n) IsStatement := fun _ => ih
    refine spec_current (Spec.ite (fun _ => ?_) fun _ => Spec.ite (fun _ => ?_) fun _ => ?_)
    · exact spec_block n hbody (fun _ hkind => rejects_statement hkind n) hcur
    · refine (spec_declaration n hbody hcur).bind fun us d t ht hd => spec_pure ht ?_
      rwa [List.append_nil]
    · exact Spec.ite (fun _ => spec_writeLn n hcur) fun _ =>
        Spec.ite (fun _ => spec_readLn hcur) fun _ =>
        Spec.ite (fun _ => spec_conditional n hbody hcur) fun _ =>
        Spec.ite (fun _ => spec_whileLoop n hbody hcur) fun _ =>
        Spec.ite (fun _ => spec_forLoop n hbody hcur) fun _ => spec_assignOrCall n hcur

end Statements

section Programs

variable {cur : Token} {r : State} {us : List Token} {ds : List Declaration} {n : Nat}

/-- The tokens of declarations, behind which no other one follows unless there are `k` of them, or of
declarations the last of which lacks its semicolon. -/
def AreDeclarations (k : Nat) (us : List Token) (ds : List Declaration) (next : Token) : Prop :=
  Declares ds us ∧ (next.isWord "PROCEDURE" → ds.length = k) ∨
    next.isSymbol "." ∧ Declares ds (us ++ [Token.ofSymbol ";"])

/-- The tokens of a program up to the end of the source. -/
def IsProgram (us : List Token) (p : Program) (next : Token) : Prop :=
  p.Describes us ∧ next.kind = .eof

theorem length_le_of_declares (h : Declares ds us) : ds.length ≤ us.length := by
  induction h with
  | nil => exact Nat.le_refl 0
  | cons hd he _ ih =>
    obtain ⟨t, vs, rfl, -⟩ := hd.exists_starts fun ss hss => by cases hss
    simp only [List.length_cons, List.cons_append, List.length_append]
    omega

theorem spec_declarations (n k : Nat) (hcur : cur.Scanned) :
    Spec cur (declarations (statement n) n k) (AreDeclarations k) := by
  induction k generalizing cur with
  | zero => exact spec_pure hcur (.inl ⟨.nil, fun _ => rfl⟩)
  | succ k ih =>
    refine spec_current (Spec.ite (fun _ => ?_) fun hnot => ?_)
    · refine (spec_declaration n (fun _ => spec_statement n) hcur).bind ?_
      rintro us d t ht ⟨ending, hd, hallows⟩
      by_cases hbare : ending = .bare
      · subst hbare
        obtain ⟨e, he, hclosed⟩ := hd.exists_closed (Token.isSymbol_ofSymbol ";")
        have hds : Declares [d] (us ++ [] ++ [Token.ofSymbol ";"]) := by
          simpa using Declares.cons hclosed he .nil
        have hword := Token.not_isWord_of_kind (w := "PROCEDURE") (not_identifier_of_isSymbol hallows)
        cases k with
        | zero =>
          change Spec t (pure [d]) _
          exact spec_pure ht (.inr ⟨hallows, hds⟩)
        | succ k =>
          change Spec t (current >>= fun u =>
            (if u.isWord "PROCEDURE" then _ else pure []) >>= fun ds => pure (d :: ds)) _
          refine spec_current ?_
          simp only [hword, Bool.false_eq_true, if_false]
          change Spec t (pure [d]) _
          exact spec_pure ht (.inr ⟨hallows, hds⟩)
      · refine (ih ht).bind ?_
        rintro vs ds t ht (⟨hds, hlen⟩ | ⟨hperiod, hds⟩)
        · refine spec_pure ht (.inl ⟨?_, fun hword => congrArg (· + 1) (hlen hword)⟩)
          rw [List.append_nil]
          exact .cons hd hbare hds
        · refine spec_pure ht (.inr ⟨hperiod, ?_⟩)
          simpa using Declares.cons hd hbare hds
    · exact spec_pure hcur (.inl ⟨.nil, fun hword => absurd hword hnot⟩)

theorem isWord_of_derives_declaration {d : Declaration} {e : Ending}
    (h : Derives (.statement e d.toStmt) us) : ∃ t vs, us = t :: vs ∧ t.isWord "PROCEDURE" := by
  generalize hs : d.toStmt = s at h
  cases h with
  | declare ht _ _ _ _ => exact ⟨_, _, rfl, ht⟩
  | _ => cases hs

/-- A statement that is not a declaration. -/
def IsMain (us : List Token) (s : Stmt) (next : Token) : Prop :=
  IsStatement us s next ∧ ∀ d : Declaration, s ≠ d.toStmt

theorem isMain_of_isStatement {s : Stmt} {t next : Token} {vs : List Token}
    (ht : t.isWord "PROCEDURE" = false) (h : IsStatement (t :: vs) s next) :
    IsMain (t :: vs) s next := by
  refine ⟨h, fun d hd => ?_⟩
  obtain ⟨e, hs, -⟩ := h
  rw [hd] at hs
  obtain ⟨u, ws, heq, hu⟩ := isWord_of_derives_declaration hs
  cases heq
  rw [ht] at hu
  cases hu

theorem spec_main (n : Nat) (hcur : cur.Scanned) (hword : cur.isWord "PROCEDURE" = false) :
    Spec cur (statement n) IsMain := by
  have hspec := spec_statement n hcur
  have hcomplete : Completable IsMain := by
    obtain ⟨us, s, hus, hs, hmain⟩ := exists_assign
    exact ⟨us, s, _, hus, .inl lexed_semi, ⟨.closed, hs, trivial⟩, hmain⟩
  refine ⟨hcomplete, fun r hr hr' => ?_⟩
  have hends := hspec.ends r hr hr'
  -- What was read starts with `cur`, and so does what it is completed to.
  have hhead : ∀ {us s}, Reads r us s → us ≠ [] → ∃ vs, us = cur :: vs := by
    intro us s hus hne
    have hfirst := hus.head?_eq hne
    rw [hr'] at hfirst
    cases us with
    | nil => exact absurd rfl hne
    | cons u us =>
      cases hfirst
      exact ⟨us, rfl⟩
  cases hrun : statement n r with
  | ok s s' =>
    rw [hrun] at hends
    obtain ⟨us, hus, hs⟩ := hends
    have hne : us ≠ [] := by
      obtain ⟨e, hs, -⟩ := hs
      obtain ⟨t, vs, rfl, -⟩ := hs.exists_starts fun ss hss => by cases hss
      exact List.cons_ne_nil t vs
    obtain ⟨vs, rfl⟩ := hhead hus hne
    exact ⟨_, hus, isMain_of_isStatement hword hs⟩
  | error e s' =>
    rw [hrun] at hends
    cases e with
    | scan e => exact hends
    | parse cause found =>
      obtain ⟨us, hus, hfound, vs, s, t, hvs, ht, hs⟩ := hends
      by_cases hne : us = []
      · subst hne
        exact ⟨[], hus, hfound, hcomplete⟩
      · obtain ⟨ws, rfl⟩ := hhead hus hne
        exact ⟨_, hus, hfound, vs, s, t, hvs, ht, isMain_of_isStatement hword hs⟩

theorem completable_program (hds : Declares ds us) : Completable fun vs => IsProgram (us ++ vs) := by
  obtain ⟨vs, s, hvs, hs, hmain⟩ := exists_assign
  have hmain' : ∀ d : Declaration, (⟨ds, some s⟩ : Program).main ≠ some d.toStmt :=
    fun d hd => hmain d (Option.some.inj hd)
  exact ⟨vs, ⟨ds, some s⟩, Token.eof, hvs, Token.scanned_eof,
    ⟨.plain hds hs (by decide), hmain'⟩, rfl⟩

theorem completable_declarations {k : Nat} {next : Token} (h : AreDeclarations k us ds next) :
    Completable fun vs => IsProgram (us ++ vs) := by
  rcases h with ⟨hds, -⟩ | ⟨-, hds⟩
  · exact completable_program hds
  · have hsemi : ∀ u ∈ [Token.ofSymbol ";"], u.Lexed :=
      fun u hu => List.mem_singleton.mp hu ▸ lexed_semi
    refine Completable.prepend hsemi ?_
    simpa only [List.append_assoc] using completable_program hds

/-- The part of a program behind the declarations. -/
theorem spec_rest (n : Nat) (hds : Declares ds us) (hcur : cur.Scanned)
    (hword : cur.isWord "PROCEDURE" = false) :
    Spec cur (do
      let main ← statement n
      if (← current).isSymbol "." then advance
      if (← current).kind = .eof then return (⟨ds, some main⟩ : Program)
      else reject .expectedEnd) fun vs => IsProgram (us ++ vs) := by
  refine (spec_main n hcur hword).bind ?_
  rintro vs s t ht ⟨⟨ending, hs, hallows⟩, hmain⟩
  have hmain' : ∀ d : Declaration, (⟨ds, some s⟩ : Program).main ≠ some d.toStmt :=
    fun d hd => hmain d (Option.some.inj hd)
  have hend : ∀ {t : Token} (ws : List Token), t.Scanned →
      (⟨ds, some s⟩ : Program).Derives (us ++ (vs ++ ws)) →
      Spec t (do
        if (← current).kind = .eof then return (⟨ds, some s⟩ : Program)
        else reject .expectedEnd) fun us' => IsProgram (us ++ (vs ++ (ws ++ us'))) := by
    intro t ws ht hderives
    rw [← List.append_nil ws] at hderives
    refine spec_current (Spec.ite (fun heof => ?_) fun _ => ?_)
    · exact spec_pure ht ⟨⟨hderives, hmain'⟩, heof⟩
    · exact spec_reject ⟨[], _, Token.eof, fun u hu => absurd hu List.not_mem_nil,
        Token.scanned_eof, ⟨hderives, hmain'⟩, rfl⟩
  refine spec_current (Spec.ite (fun hdot => ?_) fun hdot => ?_)
  · refine (spec_advance (ht.lexed_of_isSymbol hdot)).bind ?_
    rintro _ _ t' ht' rfl
    exact hend [t] ht' (.period hds hs hdot)
  · have hbare : ending ≠ .bare := by
      rintro rfl
      exact hdot hallows
    refine hend [] ht ?_
    rw [List.append_nil]
    exact .plain hds hs hbare

/-- A program is read as the grammar has it if the bound exceeds the number of tokens. -/
theorem ends_program (hr : r.Scanned) (hn : r.stream.items.length + 1 < n) :
    Ends r IsProgram (program n r) := by
  refine ((spec_declarations n n hr.current).ends r hr rfl).bind (fun us ds s hus hds => ?_)
    fun us ds t _ hds => completable_declarations hds
  have hs := hus.scanned hr
  rcases hds with ⟨hds, hlen⟩ | hds
  · have hword : s.current.isWord "PROCEDURE" = false := by
      by_contra hword
      have hfull := hlen (Bool.not_eq_false _ ▸ hword)
      have hread := hus.length_le hr
      have hle := length_le_of_declares hds
      omega
    exact (spec_rest n hds hs.current hword).ends s hs rfl
  · have hrejects := rejects_statement (not_identifier_of_isSymbol hds.1) n
    exact (hrejects.bind.spec (completable_declarations (k := n) (.inr hds))).ends s hs rfl

end Programs

end Parser

end MiniPascal
