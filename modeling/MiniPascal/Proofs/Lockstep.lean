import MiniPascal.Proofs.Lexemes
import MiniPascal.Proofs.Parsing

/-! Two runs of the parser in front of tokens that differ in their positions only. As long as the
tokens are alike the second run does what the first one does: it accepts where the first one accepts
and rejects where the first one rejects. -/

namespace MiniPascal

section Shape

variable {t t' : Token}

theorem Token.kind_eq_of_shape (h : t.shape = t'.shape) : t.kind = t'.kind := congrArg Prod.fst h

theorem Token.literal_eq_of_shape (h : t.shape = t'.shape) : t.literal = t'.literal :=
  congrArg Prod.snd h

theorem Token.isWord_of_shape (h : t.shape = t'.shape) (w : Text) : t.isWord w = t'.isWord w := by
  rw [isWord, isWord, kind_eq_of_shape h, literal_eq_of_shape h]

theorem Token.isSymbol_of_shape (h : t.shape = t'.shape) (w : Text) :
    t.isSymbol w = t'.isSymbol w := by
  rw [isSymbol, isSymbol, kind_eq_of_shape h, literal_eq_of_shape h]

theorem Token.Scanned.kind_ne_eof (h : t.Scanned) (hliteral : t.literal ≠ []) : t.kind ≠ .eof := by
  rcases h with h | ⟨-, h⟩
  · exact h.ne_eof
  · exact absurd h hliteral

theorem Token.kind_ne_eof_of_isSymbol {w : Text} (h : t.isSymbol w) : t.kind ≠ .eof := by
  rw [(isSymbol_iff.mp h).1]
  decide

theorem Token.kind_ne_eof_of_isWord {w : Text} (h : t.isWord w) : t.kind ≠ .eof := by
  rw [(isWord_iff.mp h).1]
  decide

end Shape

namespace Parser

/-- The number of tokens that can still be taken. -/
def State.left (r : State) : Nat := if r.current.kind = .eof then 0 else r.stream.items.length + 1

theorem State.left_of_eof {r : State} (h : r.current.kind = .eof) : r.left = 0 := if_pos h

theorem State.left_le (r : State) : r.left ≤ r.stream.items.length + 1 := by
  rw [State.left]
  split <;> omega

section Reads

variable {r s r' s' : State} {us vs us' : List Token}

theorem State.left_advance (hr : r.Scanned) (hkind : r.current.kind ≠ .eof)
    (hadvance : advance r = .ok () s) : s.left + 1 = r.left := by
  obtain ⟨t, rest, hitems, hnext⟩ | ⟨t, hitems, hlast, hnext⟩ | ⟨e, s', -, hnext⟩ := advance_cases r
  · cases hnext.symm.trans hadvance
    have ht : t.Lexed := hr.stream.items t (hitems ▸ List.mem_cons_self)
    simp [State.left, hkind, ht.ne_eof, hitems]
  · cases hnext.symm.trans hadvance
    have ht := (hr.stream.last t hlast).1
    simp [State.left, hkind, ht, hitems]
  · cases hnext.symm.trans hadvance

theorem Reads.left_add (h : Reads r us s) (hr : r.Scanned) : s.left + us.length = r.left := by
  induction h with
  | nil => rfl
  | cons hkind hadvance _ ih =>
    have hrest := ih (hr.advance hadvance)
    have hstep := State.left_advance hr hkind hadvance
    rw [List.length_cons]
    omega

theorem Reads.unique (h : Reads r us s) (h' : Reads r vs s) (hr : r.Scanned) : us = vs := by
  induction h generalizing vs with
  | nil =>
    have hlen := h'.left_add hr
    exact (List.length_eq_zero_iff.mp (by omega)).symm
  | @cons r m s us hkind hadvance h ih =>
    cases h' with
    | nil =>
      have hlen := (Reads.cons hkind hadvance h).left_add hr
      rw [List.length_cons] at hlen
      omega
    | cons _ hadvance' h' =>
      cases hadvance.symm.trans hadvance'
      rw [ih h' (hr.advance hadvance)]

theorem Reads.shape_current (h : Reads r us s) (h' : Reads r' us' s')
    (hshapes : us.map Token.shape = us'.map Token.shape)
    (hnext : s.current.shape = s'.current.shape) : r.current.shape = r'.current.shape := by
  cases h with
  | nil =>
    cases h' with
    | nil => exact hnext
    | cons _ _ _ => cases hshapes
  | cons _ _ _ =>
    cases h' with
    | nil => cases hshapes
    | cons _ _ _ => exact (List.cons.inj hshapes).1

end Reads

section Echoes

variable {α β : Type}

/-- Whether a run accepted what it read, and where it stopped. -/
def verdict : EStateM.Result SyntaxError State α → Option (Bool × State)
  | .ok _ s => some (true, s)
  | .error (.parse _ _) s => some (false, s)
  | .error (.scan _) _ => none

theorem exists_ok_of_verdict {res : EStateM.Result SyntaxError State α} {s : State}
    (h : verdict res = some (true, s)) : ∃ a, res = .ok a s := by
  cases res with
  | ok a s' =>
    cases h
    exact ⟨a, rfl⟩
  | error e s' => cases e <;> cases h

theorem exists_error_of_verdict {res : EStateM.Result SyntaxError State α} {s : State}
    (h : verdict res = some (false, s)) : ∃ cause found, res = .error (.parse cause found) s := by
  cases res with
  | ok a s' => cases h
  | error e s' =>
    cases e with
    | parse cause found =>
      cases h
      exact ⟨cause, found, rfl⟩
    | scan e => cases h

/-- Two stretches of alike tokens, with alike tokens behind them. The first one starts where less
than `n` tokens are left. -/
structure Paired (n : Nat) (r : State) (us : List Token) (s : State)
    (r' : State) (us' : List Token) (s' : State) : Prop where
  scanned : r.Scanned
  left_lt : r.left < n
  reads : Reads r us s
  reads' : Reads r' us' s'
  shapes : us.map Token.shape = us'.map Token.shape
  next : s.current.shape = s'.current.shape

/-- In front of `t`, where less than `n` tokens are left, `x` goes on reading, and in front of `t'`
and alike tokens `y` comes to the same verdict. -/
structure Echoes (t t' : Token) (n : Nat) (x y : Parser α) : Prop where
  reads : ∀ {r s : State} {accepted : Bool}, r.Scanned → r.current = t → r.left < n →
    verdict (x r) = some (accepted, s) → ∃ us, Reads r us s
  echoes : ∀ {r s r' s' : State} {us us' : List Token} {accepted : Bool},
    Paired n r us s r' us' s' → r.current = t → r'.current = t' →
    verdict (x r) = some (accepted, s) → verdict (y r') = some (accepted, s')

/-- The verdicts are the same in front of any two alike tokens. -/
def Lockstep (n : Nat) (x y : Parser α) : Prop :=
  ∀ t t' : Token, t.shape = t'.shape → Echoes t t' n x y

/-- A parser that does not accept without moving on. -/
def Consumes (x : Parser α) : Prop := ∀ (r : State) (a : α), r.Scanned → x r ≠ .ok a r

variable {t t' : Token} {n k : Nat} {x y z w : Parser α} {f g : α → Parser β}

theorem Echoes.mono (h : Echoes t t' n x y) (hk : k ≤ n) : Echoes t t' k x y where
  reads hr ht hleft := h.reads hr ht (Nat.lt_of_lt_of_le hleft hk)
  echoes hp := h.echoes ⟨hp.scanned, Nat.lt_of_lt_of_le hp.left_lt hk, hp.reads, hp.reads', hp.shapes,
    hp.next⟩

theorem Lockstep.mono (h : Lockstep n x y) (hk : k ≤ n) : Lockstep k x y :=
  fun t t' ht => (h t t' ht).mono hk

theorem lockstep_zero : Lockstep 0 x y := fun _ _ _ =>
  ⟨fun _ _ hleft => absurd hleft (Nat.not_lt_zero _), fun hp => absurd hp.left_lt (Nat.not_lt_zero _)⟩

theorem Echoes.of_scanned (h : t.Scanned → Echoes t t' n x y) : Echoes t t' n x y where
  reads hr ht hleft := (h (ht ▸ hr.current)).reads hr ht hleft
  echoes hp ht ht' := (h (ht ▸ hp.scanned.current)).echoes hp ht ht'

theorem Paired.eq_of_stays {r r' s' : State} {us us' : List Token}
    (hp : Paired n r us r r' us' s') : s' = r' := by
  have hus : us = [] := hp.reads.unique .nil hp.scanned
  have hus' : us' = [] := List.map_eq_nil_iff.mp (by rw [← hp.shapes, hus, List.map_nil])
  have hreads := hp.reads'
  rw [hus'] at hreads
  cases hreads
  rfl

theorem lockstep_pure (a b : α) : Lockstep n (pure a) (pure b) := by
  refine fun t t' _ => ⟨fun {r s v} _ _ _ h => ?_, fun {r s r' s' us us' v} hp _ _ h => ?_⟩
  · cases h
    exact ⟨[], .nil⟩
  · cases h
    rw [hp.eq_of_stays]
    rfl

theorem lockstep_reject (cause cause' : ParseCause) :
    Lockstep n (reject cause : Parser α) (reject cause') := by
  refine fun t t' _ => ⟨fun {r s v} _ _ _ h => ?_, fun {r s r' s' us us' v} hp _ _ h => ?_⟩
  · cases h
    exact ⟨[], .nil⟩
  · cases h
    rw [hp.eq_of_stays]
    rfl

theorem Echoes.ite {c c' : Prop} [Decidable c] [Decidable c'] (hc : c ↔ c')
    (hx : c → Echoes t t' n x y) (hz : ¬ c → Echoes t t' n z w) :
    Echoes t t' n (if c then x else z) (if c' then y else w) := by
  by_cases h : c
  · rw [if_pos h, if_pos (hc.mp h)]
    exact hx h
  · rw [if_neg h, if_neg fun h' => h (hc.mpr h')]
    exact hz h

theorem echoes_current {f g : Token → Parser β} (h : Echoes t t' n (f t) (g t')) :
    Echoes t t' n (current >>= f) (current >>= g) := by
  refine ⟨fun {r s v} hr hcur hleft hres => ?_, fun {r s r' s' us us' v} hp hcur hcur' hres => ?_⟩
  · rw [current_bind, hcur] at hres
    exact h.reads hr hcur hleft hres
  · rw [current_bind, hcur] at hres
    rw [current_bind, hcur']
    exact h.echoes hp hcur hcur' hres

theorem lockstep_current {f g : Token → Parser β}
    (h : ∀ t t' : Token, t.shape = t'.shape → Echoes t t' n (f t) (g t')) :
    Lockstep n (current >>= f) (current >>= g) :=
  fun t t' ht => echoes_current (h t t' ht)

/-- The second parser starts where less than `k` tokens are left. -/
theorem Echoes.bind_of_lt (hx : Echoes t t' n x y)
    (hk : ∀ {r m : State} {a : α} {us : List Token}, r.Scanned → r.current = t → r.left < n →
      x r = .ok a m → Reads r us m → m.left < k)
    (hf : ∀ a b, Lockstep k (f a) (g b)) : Echoes t t' n (x >>= f) (y >>= g) := by
  have hmiddle : ∀ {r m : State} {a : α}, r.Scanned → r.current = t → r.left < n → x r = .ok a m →
      ∃ us, Reads r us m ∧ m.left < k := by
    intro r m a hr hcur hleft hok
    obtain ⟨us, hus⟩ := hx.reads hr hcur hleft (congrArg verdict hok)
    exact ⟨us, hus, hk hr hcur hleft hok hus⟩
  refine ⟨fun {r s v} hr hcur hleft hres => ?_, fun {r s r' s' us us' v} hp hcur hcur' hres => ?_⟩
  · cases hok : x r with
    | ok a m =>
      rw [bind_of_ok hok] at hres
      obtain ⟨us, hus, hm⟩ := hmiddle hr hcur hleft hok
      obtain ⟨vs, hvs⟩ := (hf a a _ _ rfl).reads (hus.scanned hr) rfl hm hres
      exact ⟨us ++ vs, hus.trans hvs⟩
    | error e m =>
      rw [bind_of_error hok] at hres
      have hverdict : verdict (x r) = some (v, s) := by
        rw [hok, ← hres]
        cases e <;> rfl
      exact hx.reads hr hcur hleft hverdict
  · cases hok : x r with
    | ok a m =>
      rw [bind_of_ok hok] at hres
      obtain ⟨us₁, hus₁, hm⟩ := hmiddle hp.scanned hcur hp.left_lt hok
      have hscanned := hus₁.scanned hp.scanned
      obtain ⟨us₂, hus₂⟩ := (hf a a _ _ rfl).reads hscanned rfl hm hres
      have hus : us = us₁ ++ us₂ := hp.reads.unique (hus₁.trans hus₂) hp.scanned
      have hshapes := hp.shapes.symm
      rw [hus, List.map_append] at hshapes
      obtain ⟨vs₁, vs₂, hvs, hvs₁, hvs₂⟩ := List.map_eq_append_iff.mp hshapes
      have hreads' := hp.reads'
      rw [hvs] at hreads'
      obtain ⟨m', hm₁, hm₂⟩ := hreads'.split
      have hnext := hus₂.shape_current hm₂ hvs₂.symm hp.next
      have hpair : Paired n r us₁ m r' vs₁ m' :=
        ⟨hp.scanned, hp.left_lt, hus₁, hm₁, hvs₁.symm, hnext⟩
      obtain ⟨b, hb⟩ := exists_ok_of_verdict (hx.echoes hpair hcur hcur' (congrArg verdict hok))
      rw [bind_of_ok hb]
      exact (hf a b _ _ hnext).echoes ⟨hscanned, hm, hus₂, hm₂, hvs₂.symm, hp.next⟩ rfl rfl hres
    | error e m =>
      rw [bind_of_error hok] at hres
      cases e with
      | scan e => cases hres
      | parse cause found =>
        cases hres
        obtain ⟨cause', found', herror⟩ :=
          exists_error_of_verdict (hx.echoes hp hcur hcur' (congrArg verdict hok))
        rw [bind_of_error herror]
        rfl

theorem Echoes.bind (hx : Echoes t t' n x y) (hf : ∀ a b, Lockstep n (f a) (g b)) :
    Echoes t t' n (x >>= f) (y >>= g) := by
  refine hx.bind_of_lt (fun {r m a us} hr _ hleft _ hus => ?_) hf
  have hsum := hus.left_add hr
  omega

theorem Lockstep.bind (hx : Lockstep n x y) (hf : ∀ a b, Lockstep n (f a) (g b)) :
    Lockstep n (x >>= f) (y >>= g) :=
  fun t t' ht => (hx t t' ht).bind hf

/-- Behind a parser that takes a token there is one token less. -/
theorem Lockstep.bind_succ (hx : Lockstep (n + 1) x y) (hc : Consumes x)
    (hf : ∀ a b, Lockstep n (f a) (g b)) : Lockstep (n + 1) (x >>= f) (y >>= g) := by
  refine fun t t' ht => (hx t t' ht).bind_of_lt (fun {r m a us} hr _ hleft hok hus => ?_) hf
  have hsum := hus.left_add hr
  have hne : us ≠ [] := by
    rintro rfl
    cases hus
    exact hc r a hr hok
  have hpos := List.length_pos_iff.mpr hne
  omega

theorem advance_of_verdict {r s : State} {v : Bool} (h : verdict (advance r) = some (v, s)) :
    v = true ∧ advance r = .ok () s := by
  obtain ⟨_, _, _, hnext⟩ | ⟨_, _, _, hnext⟩ | ⟨_, _, _, hnext⟩ := advance_cases r
  · rw [hnext] at h ⊢
    cases h
    exact ⟨rfl, rfl⟩
  · rw [hnext] at h ⊢
    cases h
    exact ⟨rfl, rfl⟩
  · rw [hnext] at h
    cases h

theorem echoes_advance (hkind : t.kind ≠ .eof) : Echoes t t' n advance advance := by
  refine ⟨fun {r s v} _ hcur _ h => ?_, fun {r s r' s' us us' v} hp hcur _ h => ?_⟩
  · obtain ⟨-, hadvance⟩ := advance_of_verdict h
    exact ⟨_, .cons (hcur ▸ hkind) hadvance .nil⟩
  · obtain ⟨rfl, hadvance⟩ := advance_of_verdict h
    have hus : us = [r.current] :=
      hp.reads.unique (.cons (hcur ▸ hkind) hadvance .nil) hp.scanned
    have hshapes := hp.shapes
    have hreads := hp.reads'
    rw [hus] at hshapes
    cases hreads with
    | nil => cases hshapes
    | cons _ hadvance' hrest =>
      cases hrest with
      | nil =>
        rw [hadvance']
        rfl
      | cons _ _ _ => cases (List.cons.inj hshapes).2

theorem Echoes.advance_bind {f g : Unit → Parser β} (hkind : t.kind ≠ .eof)
    (hf : Lockstep n (f ()) (g ())) : Echoes t t' (n + 1) (advance >>= f) (advance >>= g) := by
  refine (echoes_advance hkind).bind_of_lt (fun {r m a us} hr hcur hleft hok _ => ?_) fun _ _ => hf
  have hstep := State.left_advance hr (hcur ▸ hkind) hok
  omega

/-- A parser that ends with a step from a token of the source. -/
theorem consumes_of_advance {x : Parser α}
    (h : ∀ (r s : State) (a : α), r.Scanned → x r = .ok a s →
      r.current.kind ≠ .eof ∧ advance r = .ok () s) : Consumes x := by
  intro r a hr hok
  obtain ⟨hkind, hadvance⟩ := h r r a hr hok
  have hstep := State.left_advance hr hkind hadvance
  omega

theorem ok_of_advance_bind {r s : State} {a b : α}
    (h : (advance >>= fun _ => (pure a : Parser α)) r = .ok b s) : advance r = .ok () s := by
  obtain ⟨_, _, _, hnext⟩ | ⟨_, _, _, hnext⟩ | ⟨_, _, _, hnext⟩ := advance_cases r
  · rw [bind_of_ok hnext] at h
    cases h
    exact hnext
  · rw [bind_of_ok hnext] at h
    cases h
    exact hnext
  · rw [bind_of_error hnext] at h
    cases h

theorem lockstep_expect {l : Text} (hl : l ≠ []) : Lockstep n (expect l) (expect l) := by
  refine lockstep_current fun t t' ht => Echoes.of_scanned fun hscanned => ?_
  refine Echoes.ite (by rw [Token.literal_eq_of_shape ht]) (fun hliteral => ?_) fun _ => ?_
  · have hkind : t.kind ≠ .eof := hscanned.kind_ne_eof (by rwa [hliteral])
    exact (echoes_advance hkind).bind fun _ _ => lockstep_pure _ _
  · exact lockstep_reject _ _ t t' ht

theorem consumes_expect {l : Text} (hl : l ≠ []) : Consumes (expect l) := by
  refine consumes_of_advance fun r s a hr hok => ?_
  rw [expect, current_bind] at hok
  by_cases hliteral : r.current.literal = l
  · rw [if_pos hliteral] at hok
    exact ⟨hr.current.kind_ne_eof (by rwa [hliteral]), ok_of_advance_bind hok⟩
  · rw [if_neg hliteral] at hok
    cases hok

theorem lockstep_name (role : Role) : Lockstep n (name role) (name role) := by
  refine lockstep_current fun t t' ht => ?_
  refine Echoes.ite (by rw [Token.kind_eq_of_shape ht]) (fun _ => lockstep_reject _ _ t t' ht) ?_
  intro hkind
  refine Echoes.ite (by rw [Token.literal_eq_of_shape ht]) (fun _ => lockstep_reject _ _ t t' ht) ?_
  intro _
  have hend : t.kind ≠ .eof := by
    rw [not_not.mp hkind]
    decide
  exact (echoes_advance hend).bind fun _ _ => lockstep_pure _ _

theorem consumes_name (role : Role) : Consumes (name role) := by
  refine consumes_of_advance fun r s a hr hok => ?_
  rw [name, current_bind] at hok
  by_cases hkind : r.current.kind ≠ .identifier
  · rw [if_pos hkind] at hok
    cases hok
  · rw [if_neg hkind] at hok
    have hend : r.current.kind ≠ .eof := by
      rw [not_not.mp hkind]
      decide
    by_cases hkeyword : Token.isKeyword r.current.literal = true
    · rw [if_pos hkeyword] at hok
      cases hok
    · rw [if_neg hkeyword] at hok
      exact ⟨hend, ok_of_advance_bind hok⟩

theorem lockstep_variableName : Lockstep n variableName variableName :=
  (lockstep_name .var).bind fun _ _ => lockstep_pure _ _

end Echoes

section Items

variable {α : Type} {item item' : Parser α} {n m k l : Nat}

theorem lockstep_moreItems (hitem : Lockstep n item item') (hk : k ≤ n) (hl : k ≤ l) :
    Lockstep k (moreItems item k) (moreItems item' l) := by
  induction k generalizing l with
  | zero => exact lockstep_zero
  | succ k ih =>
    obtain ⟨l, rfl⟩ : ∃ j, l = j + 1 := ⟨l - 1, by omega⟩
    refine lockstep_current fun t t' ht => ?_
    refine Echoes.ite (by rw [Token.isSymbol_of_shape ht]) (fun hcomma => ?_)
      fun _ => lockstep_pure _ _ t t' ht
    refine Echoes.advance_bind (Token.kind_ne_eof_of_isSymbol hcomma) ?_
    refine (hitem.mono (by omega)).bind fun _ _ => ?_
    exact (ih (by omega) (by omega)).bind fun _ _ => lockstep_pure _ _

theorem lockstep_itemList (hitem : Lockstep n item item') (hnm : n ≤ m) :
    Lockstep (n + 1) (itemList item n) (itemList item' m) := by
  refine (lockstep_expect (by decide)).bind_succ (consumes_expect (by decide)) fun _ _ => ?_
  refine lockstep_current fun t t' ht => ?_
  refine Echoes.ite (by rw [Token.isSymbol_of_shape ht]) (fun _ => ?_) fun _ => ?_
  · exact (lockstep_expect (by decide)).bind (fun _ _ => lockstep_pure _ _) t t' ht
  · refine hitem.bind (fun _ _ => ?_) t t' ht
    refine (lockstep_moreItems hitem (Nat.le_refl n) hnm).bind fun _ _ => ?_
    exact (lockstep_expect (by decide)).bind fun _ _ => lockstep_pure _ _

end Items

section Expressions

variable {operand operand' expr expr' : Parser Expr} {n m k l : Nat}

theorem operatorAmong_of_shape {t t' : Token} (h : t.shape = t'.shape)
    (level : List (Text × Operator)) : operatorAmong level t = operatorAmong level t' := by
  rw [operatorAmong, operatorAmong, Token.isWord_of_shape h, Token.kind_eq_of_shape h,
    Token.literal_eq_of_shape h]

theorem kind_ne_eof_of_operatorAmong {t : Token} {level : List (Text × Operator)} {op : Operator}
    (h : operatorAmong level t = some op) : t.kind ≠ .eof := by
  intro hkind
  simp [operatorAmong, Token.isWord, hkind] at h

theorem lockstep_foldLevel (level : List (Text × Operator)) (hoperand : Lockstep n operand operand')
    (hk : k ≤ n) (hl : k ≤ l) (left left' : Expr) :
    Lockstep k (foldLevel level operand k left) (foldLevel level operand' l left') := by
  induction k generalizing l left left' with
  | zero => exact lockstep_zero
  | succ k ih =>
    obtain ⟨l, rfl⟩ : ∃ j, l = j + 1 := ⟨l - 1, by omega⟩
    refine lockstep_current fun t t' ht => ?_
    rw [← operatorAmong_of_shape ht]
    cases hop : operatorAmong level t with
    | none => exact lockstep_pure _ _ t t' ht
    | some op =>
      refine Echoes.advance_bind (kind_ne_eof_of_operatorAmong hop) ?_
      exact (hoperand.mono (by omega)).bind fun _ _ => ih (by omega) (by omega) _ _

theorem lockstep_expressionOver (hoperand : Lockstep n operand operand') (hnm : n ≤ m) :
    Lockstep n (expressionOver n operand) (expressionOver m operand') := by
  rw [expressionOver, expressionOver]
  generalize levels = levels
  induction levels generalizing operand operand' with
  | nil => exact hoperand
  | cons level levels ih =>
    refine ih (hoperand.bind fun _ _ => ?_)
    exact lockstep_foldLevel level hoperand (Nat.le_refl n) hnm _ _

theorem lockstep_reference (hexpr : Lockstep n expr expr') (hnm : n ≤ m) :
    Lockstep (n + 1) (reference n expr) (reference m expr') := by
  refine (lockstep_name .var).bind_succ (consumes_name .var) fun _ _ => ?_
  refine lockstep_current fun t t' ht => ?_
  refine Echoes.ite (by rw [Token.isSymbol_of_shape ht]) (fun _ => ?_)
    fun _ => lockstep_pure _ _ t t' ht
  refine Lockstep.bind ?_ (fun _ _ => lockstep_pure _ _) t t' ht
  exact (lockstep_itemList hexpr hnm).mono (Nat.le_succ n)

theorem lockstep_number : Lockstep n number number := by
  refine lockstep_current fun t t' ht => Echoes.of_scanned fun hscanned => ?_
  rw [← Token.literal_eq_of_shape ht]
  cases hvalue : Numeral.readWord? .decimal t.literal with
  | none => exact lockstep_reject _ _ t t' ht
  | some value =>
    have hkind : t.kind ≠ .eof := by
      refine hscanned.kind_ne_eof fun hnil => ?_
      rw [hnil] at hvalue
      cases hvalue
    exact (echoes_advance hkind).bind fun _ _ => lockstep_pure _ _

theorem echoes_truth {t t' : Token} (hkind : t.kind ≠ .eof) (value : Int32) :
    Echoes t t' n (truth value) (truth value) :=
  echoes_current ((echoes_advance hkind).bind fun _ _ => lockstep_pure _ _)

theorem lockstep_factor (hnm : n ≤ m) : Lockstep n (factor n) (factor m) := by
  induction n generalizing m with
  | zero => exact lockstep_zero
  | succ n ih =>
    obtain ⟨m, rfl⟩ : ∃ j, m = j + 1 := ⟨m - 1, by omega⟩
    have hle : n ≤ m := by omega
    have hfactor := ih hle
    have hexpr := lockstep_expressionOver hfactor hle
    refine lockstep_current fun t t' ht => ?_
    have hreject : Echoes t t' (n + 1) (reject .expectedExpression : Parser Expr)
      (reject .expectedExpression) := lockstep_reject _ _ t t' ht
    have hliteral := Token.literal_eq_of_shape ht
    rw [← Token.kind_eq_of_shape ht]
    cases hkind : t.kind with
    | operator =>
      have hend : t.kind ≠ .eof := by rw [hkind]; decide
      refine Echoes.ite (by rw [hliteral]) (fun _ => ?_) fun _ => ?_
      · refine Echoes.advance_bind hend (hexpr.bind fun _ _ => ?_)
        exact (lockstep_expect (by decide)).bind fun _ _ => lockstep_pure _ _
      · refine Echoes.ite (by rw [hliteral]) (fun _ => ?_) fun _ => hreject
        exact Echoes.advance_bind hend (hfactor.bind fun _ _ => lockstep_pure _ _)
    | number => exact lockstep_number t t' ht
    | identifier =>
      have hend : t.kind ≠ .eof := by rw [hkind]; decide
      refine Echoes.ite (by rw [hliteral]) (fun _ => echoes_truth hend 1) fun _ => ?_
      refine Echoes.ite (by rw [hliteral]) (fun _ => echoes_truth hend 0) fun _ => ?_
      exact lockstep_reference hexpr hle t t' ht
    | _ => exact hreject

theorem lockstep_expression (hnm : n ≤ m) : Lockstep n (expression n) (expression m) :=
  lockstep_expressionOver (lockstep_factor hnm) hnm

end Expressions

section Statements

variable {body body' : Parser Stmt} {n m k l : Nat}

theorem lockstep_writeLn (hnm : n ≤ m) : Lockstep (n + 1) (writeLn n) (writeLn m) := by
  refine (lockstep_expect (by decide)).bind_succ (consumes_expect (by decide)) fun _ _ => ?_
  refine (lockstep_expect (by decide)).bind fun _ _ => ?_
  refine (lockstep_expression hnm).bind fun _ _ => ?_
  refine (lockstep_expect (by decide)).bind fun _ _ => ?_
  exact (lockstep_expect (by decide)).bind fun _ _ => lockstep_pure _ _

theorem lockstep_readLn : Lockstep n readLn readLn := by
  refine (lockstep_expect (by decide)).bind fun _ _ => ?_
  refine (lockstep_expect (by decide)).bind fun _ _ => ?_
  refine lockstep_variableName.bind fun _ _ => ?_
  refine (lockstep_expect (by decide)).bind fun _ _ => ?_
  exact (lockstep_expect (by decide)).bind fun _ _ => lockstep_pure _ _

theorem lockstep_assignOrCall (hnm : n ≤ m) :
    Lockstep (n + 1) (assignOrCall n) (assignOrCall m) := by
  refine lockstep_current fun t t' ht => ?_
  refine Echoes.ite (by rw [Token.kind_eq_of_shape ht, Token.literal_eq_of_shape ht])
    (fun _ => lockstep_reject _ _ t t' ht) fun _ => ?_
  refine (lockstep_name .var).bind_succ (consumes_name .var) (fun _ _ => ?_) t t' ht
  refine lockstep_current fun u u' hu => ?_
  refine Echoes.ite (by rw [Token.isSymbol_of_shape hu]) (fun hsign => ?_) fun _ => ?_
  · refine (echoes_advance (Token.kind_ne_eof_of_isSymbol hsign)).bind fun _ _ => ?_
    refine (lockstep_expression hnm).bind fun _ _ => ?_
    exact (lockstep_expect (by decide)).bind fun _ _ => lockstep_pure _ _
  · refine Echoes.ite (by rw [Token.isSymbol_of_shape hu]) (fun _ => ?_)
      fun _ => lockstep_reject _ _ u u' hu
    have hargs := (lockstep_itemList (lockstep_expression hnm) hnm).mono (Nat.le_succ n)
    refine hargs.bind (fun _ _ => ?_) u u' hu
    exact (lockstep_expect (by decide)).bind fun _ _ => lockstep_pure _ _

theorem lockstep_whileLoop (hnm : n ≤ m) (hbody : Lockstep n body body') :
    Lockstep (n + 1) (whileLoop n body) (whileLoop m body') := by
  refine (lockstep_expect (by decide)).bind_succ (consumes_expect (by decide)) fun _ _ => ?_
  refine (lockstep_expression hnm).bind fun _ _ => ?_
  refine (lockstep_expect (by decide)).bind fun _ _ => ?_
  exact hbody.bind fun _ _ => lockstep_pure _ _

theorem lockstep_forLoop (hnm : n ≤ m) (hbody : Lockstep n body body') :
    Lockstep (n + 1) (forLoop n body) (forLoop m body') := by
  refine (lockstep_expect (by decide)).bind_succ (consumes_expect (by decide)) fun _ _ => ?_
  refine lockstep_variableName.bind fun _ _ => ?_
  refine (lockstep_expect (by decide)).bind fun _ _ => ?_
  refine (lockstep_expression hnm).bind fun _ _ => ?_
  refine (lockstep_expect (by decide)).bind fun _ _ => ?_
  refine (lockstep_expression hnm).bind fun _ _ => ?_
  refine (lockstep_expect (by decide)).bind fun _ _ => ?_
  exact hbody.bind fun _ _ => lockstep_pure _ _

theorem lockstep_conditional (hnm : n ≤ m) (hbody : Lockstep n body body') :
    Lockstep (n + 1) (conditional n body) (conditional m body') := by
  refine (lockstep_expect (by decide)).bind_succ (consumes_expect (by decide)) fun _ _ => ?_
  refine (lockstep_expression hnm).bind fun _ _ => ?_
  refine (lockstep_expect (by decide)).bind fun _ _ => ?_
  refine hbody.bind fun _ _ => lockstep_current fun t t' ht => ?_
  refine Echoes.ite (by rw [Token.isWord_of_shape ht]) (fun hword => ?_)
    fun _ => lockstep_pure _ _ t t' ht
  refine (echoes_advance (Token.kind_ne_eof_of_isWord hword)).bind fun _ _ => ?_
  exact hbody.bind fun _ _ => lockstep_pure _ _

theorem lockstep_declaration (hnm : n ≤ m) (hbody : Lockstep n body body') :
    Lockstep (n + 1) (declaration n body) (declaration m body') := by
  refine (lockstep_expect (by decide)).bind_succ (consumes_expect (by decide)) fun _ _ => ?_
  refine (lockstep_name .procedure).bind fun _ _ => ?_
  refine ((lockstep_itemList lockstep_variableName hnm).mono (Nat.le_succ n)).bind fun _ _ => ?_
  refine (lockstep_expect (by decide)).bind fun _ _ => ?_
  exact hbody.bind fun _ _ => lockstep_pure _ _

theorem lockstep_statements (hbody : Lockstep n body body') (hc : Consumes body) (hk : k ≤ n)
    (hl : k ≤ l) : Lockstep k (statements body k) (statements body' l) := by
  induction k generalizing l with
  | zero => exact lockstep_zero
  | succ k ih =>
    obtain ⟨l, rfl⟩ : ∃ j, l = j + 1 := ⟨l - 1, by omega⟩
    refine lockstep_current fun t t' ht => ?_
    refine Echoes.ite (by rw [Token.isWord_of_shape ht, Token.kind_eq_of_shape ht])
      (fun _ => lockstep_pure _ _ t t' ht) fun _ => ?_
    refine (hbody.mono hk).bind_succ hc (fun _ _ => ?_) t t' ht
    exact (ih (by omega) (by omega)).bind fun _ _ => lockstep_pure _ _

theorem lockstep_block (hnm : n ≤ m) (hbody : Lockstep n body body') (hc : Consumes body) :
    Lockstep (n + 1) (block n body) (block m body') := by
  refine (lockstep_expect (by decide)).bind_succ (consumes_expect (by decide)) fun _ _ => ?_
  refine (lockstep_statements hbody hc (Nat.le_refl n) hnm).bind fun _ _ => ?_
  refine (lockstep_expect (by decide)).bind fun _ _ => lockstep_current fun t t' ht => ?_
  refine Echoes.ite (by rw [Token.isSymbol_of_shape ht]) (fun _ => lockstep_pure _ _ t t' ht)
    fun _ => ?_
  exact (lockstep_expect (by decide)).bind (fun _ _ => lockstep_pure _ _) t t' ht

theorem consumes_of_spec {α : Type} {x : Parser α} {G : List Token → α → Token → Prop}
    (h : ∀ cur : Token, cur.Scanned → Spec cur x G) (hG : ∀ a t, ¬ G [] a t) : Consumes x := by
  intro r a hr hok
  have hends := (h _ hr.current).ends r hr rfl
  rw [hok] at hends
  obtain ⟨us, hus, hread⟩ := hends
  rw [hus.unique .nil hr] at hread
  exact hG a r.current hread

theorem not_isStatement_nil (s : Stmt) (t : Token) : ¬ IsStatement [] s t := by
  rintro ⟨e, hs, -⟩
  obtain ⟨u, us, hus, -⟩ := hs.exists_starts (fun ss hss => by cases hss)
  cases hus

theorem consumes_statement (n : Nat) : Consumes (statement n) :=
  consumes_of_spec (fun _ => spec_statement n) not_isStatement_nil

theorem consumes_declaration (n : Nat) : Consumes (declaration n (statement n)) :=
  consumes_of_spec (fun _ => spec_declaration n fun _ => spec_statement n)
    fun d t => not_isStatement_nil d.toStmt t

theorem lockstep_statement (hnm : n ≤ m) : Lockstep n (statement n) (statement m) := by
  induction n generalizing m with
  | zero => exact lockstep_zero
  | succ n ih =>
    obtain ⟨m, rfl⟩ : ∃ j, m = j + 1 := ⟨m - 1, by omega⟩
    have hle : n ≤ m := by omega
    have hbody := ih hle
    refine lockstep_current fun t t' ht => ?_
    have hword (w : Text) : t.isWord w = true ↔ t'.isWord w = true := by
      rw [Token.isWord_of_shape ht]
    refine Echoes.ite (hword _) (fun _ => ?_) fun _ => ?_
    · exact lockstep_block hle hbody (consumes_statement n) t t' ht
    refine Echoes.ite (hword _) (fun _ => ?_) fun _ => ?_
    · exact (lockstep_declaration hle hbody).bind (fun _ _ => lockstep_pure _ _) t t' ht
    refine Echoes.ite (hword _) (fun _ => lockstep_writeLn hle t t' ht) fun _ => ?_
    refine Echoes.ite (hword _) (fun _ => lockstep_readLn t t' ht) fun _ => ?_
    refine Echoes.ite (hword _) (fun _ => lockstep_conditional hle hbody t t' ht) fun _ => ?_
    refine Echoes.ite (hword _) (fun _ => lockstep_whileLoop hle hbody t t' ht) fun _ => ?_
    refine Echoes.ite (hword _) (fun _ => lockstep_forLoop hle hbody t t' ht) fun _ => ?_
    exact lockstep_assignOrCall hle t t' ht

theorem lockstep_declarations (hnm : n ≤ m) (hk : k ≤ n) (hl : k ≤ l) :
    Lockstep k (declarations (statement n) n k) (declarations (statement m) m l) := by
  induction k generalizing l with
  | zero => exact lockstep_zero
  | succ k ih =>
    obtain ⟨l, rfl⟩ : ∃ j, l = j + 1 := ⟨l - 1, by omega⟩
    refine lockstep_current fun t t' ht => ?_
    refine Echoes.ite (by rw [Token.isWord_of_shape ht]) (fun _ => ?_)
      fun _ => lockstep_pure _ _ t t' ht
    have hdeclaration := lockstep_declaration hnm (lockstep_statement hnm)
    have hwithin := hdeclaration.mono (show k + 1 ≤ n + 1 by omega)
    refine hwithin.bind_succ (consumes_declaration n) (fun _ _ => ?_) t t' ht
    exact (ih (by omega) (by omega)).bind fun _ _ => lockstep_pure _ _

theorem lockstep_program (hnm : n ≤ m) : Lockstep n (program n) (program m) := by
  refine (lockstep_declarations hnm (Nat.le_refl n) hnm).bind fun _ _ => ?_
  refine (lockstep_statement hnm).bind fun _ _ => lockstep_current fun t t' ht => ?_
  have hend (p q : Program) : Lockstep n
      (do if (← current).kind = .eof then return p else reject .expectedEnd)
      (do if (← current).kind = .eof then return q else reject .expectedEnd) := by
    refine lockstep_current fun t t' ht => ?_
    exact Echoes.ite (by rw [Token.kind_eq_of_shape ht]) (fun _ => lockstep_pure _ _ t t' ht)
      fun _ => lockstep_reject _ _ t t' ht
  refine Echoes.ite (by rw [Token.isSymbol_of_shape ht]) (fun hdot => ?_) fun _ => hend _ _ t t' ht
  exact (echoes_advance (Token.kind_ne_eof_of_isSymbol hdot)).bind fun _ _ => hend _ _

end Statements

end Parser

end MiniPascal
