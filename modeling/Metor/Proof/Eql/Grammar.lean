import Metor.Proof.Eql.Tokens

/-!
# The grammar reads what is written

An expression is read up to its end, wherever it may end (`infixParse_print`, by
induction on the expression: its first operand is read first, and each operator
is one round of the loop). So a written expression is read as the tree of the
grammar (`expr_print`).
-/

namespace Metor.Proof.Eql

open Metor.Lib Metor.Impl.Eql Metor.Impl.Eql.Grammar

section
variable {F : Type} {xid : Xid} {floats : Floats F} {rec : Rec F} {e : AstNode F} {s k : Str} {m : Nat}

/-! ## Atoms -/

theorem isStart_eq_false (xid : Xid) {c : Char} (hc : c.toNat < 128) (ha : c.isAlpha = false) : xid.isStart c = false := by
  rw [xid.isStart_ascii c hc, ha]

theorem isContinue_eq_false (xid : Xid) {c : Char} (hc : c.toNat < 128) (ha : c.isAlphanum = false) (hu : c ≠ '_') :
    xid.isContinue c = false := by
  rw [xid.isContinue_ascii c hc, ha, beq_eq_false_iff_ne.mpr hu]
  rfl

theorem ne_of_isStart {c d : Char} (h : xid.isStart c) (hd : d.toNat < 128) (ha : d.isAlpha = false) : c ≠ d := by
  rintro rfl
  rw [isStart_eq_false xid hd ha] at h
  exact absurd h (by decide)

theorem isDigit_lt {c : Char} (h : c.isDigit) : c.toNat < 128 := by
  simp only [Char.isDigit, Bool.and_eq_true, decide_eq_true_eq, UInt32.le_iff_toNat_le, ge_iff_le] at h
  have h9 : '9'.val.toNat = 57 := rfl
  show c.val.toNat < 128
  omega

theorem not_isDigit_of_isStart {c : Char} (h : xid.isStart c) : c.isDigit = false := by
  by_contra hd
  rw [Bool.not_eq_false] at hd
  have hlt := isDigit_lt hd
  rw [xid.isStart_ascii c hlt] at h
  rcases Bool.or_eq_true_iff.mp h with hu | hl
  · have hA : 'A'.toNat ≤ c.toNat := (of_decide_eq_true hu : c.val ≥ 'A'.val ∧ c.val ≤ 'Z'.val).1
    have h9 : c.toNat ≤ '9'.toNat := (of_decide_eq_true (Bool.and_eq_true_iff.mp hd).2 : c.val ≤ '9'.val)
    exact absurd (Nat.le_trans hA h9) (by decide)
  · have ha : 'a'.toNat ≤ c.toNat := (of_decide_eq_true (Bool.and_eq_true_iff.mp hl).1 : c.val ≥ 'a'.val)
    have h9 : c.toNat ≤ '9'.toNat := (of_decide_eq_true (Bool.and_eq_true_iff.mp hd).2 : c.val ≤ '9'.val)
    exact absurd (Nat.le_trans ha h9) (by decide)

theorem parens_none (h : ∀ c ∈ s.head?, c ≠ '(') : parens rec s = none := by
  rw [parens, lit_none h]
  rfl

theorem floatText_none (h : ∀ c ∈ s.head?, c ≠ '-' ∧ c.isDigit = false) : Grammar.floatText s = none := by
  have hd : digits s = none := digits_none fun c hc => (h c hc).2
  unfold Grammar.floatText
  split
  rename_i sign r heq
  split at heq
  · exact absurd rfl (h '-' rfl).1
  · obtain ⟨rfl, rfl⟩ := Prod.mk.inj heq
    rw [hd]

theorem stringLiteral_none (h : ∀ c ∈ s.head?, c ≠ '"') : Grammar.stringLiteral s = none := by
  unfold Grammar.stringLiteral
  split
  · exact absurd rfl (h '"' rfl)
  · rfl

/-- A word does not come up where an identifier ends. -/
theorem not_startsWithBool_append (hs : ¬ Src.StartsWithBool s) (hk : Stops xid.isContinue k) :
    ¬ Src.StartsWithBool (s ++ k) := by
  have key (t : Str) (ht : t.all fun c => c.toNat < 128 ∧ c.isAlphanum) (h : t <+: s ++ k) : t <+: s := by
    obtain ⟨r, hr⟩ := h
    rcases List.append_eq_append_iff.mp hr with ⟨as, rfl, -⟩ | ⟨bs, rfl, rfl⟩
    · exact List.prefix_append t as
    · cases bs with
      | nil => exact ⟨[], by rw [List.append_nil, List.append_nil]⟩
      | cons c bs =>
        have hc := of_decide_eq_true (List.all_eq_true.mp ht c (List.mem_append_right s List.mem_cons_self))
        have hstop := hk c rfl
        rw [xid.isContinue_ascii c hc.1, hc.2] at hstop
        exact absurd hstop (by simp)
  rw [Src.StartsWithBool, not_or] at hs ⊢
  exact ⟨fun h => hs.1 (key _ (by decide) h), fun h => hs.2 (key _ (by decide) h)⟩

theorem not_startsWithBool_of_head (h : ∀ c ∈ s.head?, c ≠ 't' ∧ c ≠ 'f') : ¬ Src.StartsWithBool s := by
  rintro (⟨r, rfl⟩ | ⟨r, rfl⟩)
  · exact (h 't' rfl).1 rfl
  · exact (h 'f' rfl).2 rfl

theorem atom_bool (b : Bool) : atom xid floats rec (Src.boolText b ++ k) = some (.boolLiteral b, k) := by
  have hp : parens rec (Src.boolText b ++ k) = none := parens_none fun c hc => by
    cases b <;> (obtain rfl := Option.some.inj hc; decide)
  rw [atom, hp, bool_append]
  rfl

theorem atom_float {sign : Bool} {ds : Str} {f : Option Str} (hd : Src.Digits ds) (hf : ∀ ds ∈ f, ∀ c ∈ ds, c.isDigit)
    (hk : Stops Char.isDigit k) (hdot : f = none → ∀ c ∈ k.head?, c ≠ '.') :
    atom xid floats rec (Src.floatText sign ds f ++ k) =
      some (.floatLiteral (floats.parse (Src.floatText sign ds f)), k) := by
  have hhead : ∀ c ∈ (Src.floatText sign ds f ++ k).head?, c = '-' ∨ c.isDigit := by
    obtain ⟨c, ds, rfl⟩ := List.exists_cons_of_ne_nil hd.1
    cases sign with
    | true => exact fun c hc => .inl (Option.some.inj hc).symm
    | false =>
      intro c' hc
      obtain rfl : c = c' := Option.some.inj hc
      exact .inr (hd.2 c List.mem_cons_self)
  have hne (d : Char) (h1 : d ≠ '-') (h2 : d.isDigit = false) : ∀ c ∈ (Src.floatText sign ds f ++ k).head?, c ≠ d := by
    rintro c hc rfl
    rcases hhead c hc with h | h
    · exact h1 h
    · rw [h2] at h; exact absurd h (by decide)
  have hp : parens rec (Src.floatText sign ds f ++ k) = none := parens_none (hne '(' (by decide) (by decide))
  have hb : Grammar.bool (Src.floatText sign ds f ++ k) = none :=
    bool_none (not_startsWithBool_of_head fun c hc =>
      ⟨hne 't' (by decide) (by decide) c hc, hne 'f' (by decide) (by decide) c hc⟩)
  rw [atom, hp, hb, floatText_append hd hf hk hdot]
  rfl

theorem atom_string (hs : ∀ c ∈ s, c ≠ '"') :
    atom xid floats rec ('"' :: s ++ ['"'] ++ k) = some (.stringLiteral s, k) := by
  have hhead : ∀ c ∈ ('"' :: s ++ ['"'] ++ k).head?, c = '"' := fun c hc => (Option.some.inj hc).symm
  have hp : parens rec ('"' :: s ++ ['"'] ++ k) = none := parens_none fun c hc => by rw [hhead c hc]; decide
  have hb : Grammar.bool ('"' :: s ++ ['"'] ++ k) = none :=
    bool_none (not_startsWithBool_of_head fun c hc => by rw [hhead c hc]; decide)
  have hf : Grammar.floatText ('"' :: s ++ ['"'] ++ k) = none :=
    floatText_none fun c hc => by rw [hhead c hc]; decide
  rw [atom, hp, hb, hf, stringLiteral_append hs]
  rfl

theorem atom_ident (hs : Src.IsXid xid s) (hb : ¬ Src.StartsWithBool s) (hk : Stops xid.isContinue k) :
    atom xid floats rec (s ++ k) = some (.ident s, k) := by
  have hhead : ∀ c ∈ (s ++ k).head?, xid.isStart c := by
    cases s with
    | nil => exact hs.elim
    | cons c s =>
      intro c' hc
      rw [← Option.some.inj hc]
      exact hs.1
  have hne (d : Char) (h1 : d.toNat < 128) (h2 : d.isAlpha = false) : ∀ c ∈ (s ++ k).head?, c ≠ d :=
    fun c hc => ne_of_isStart (hhead c hc) h1 h2
  have hp : parens rec (s ++ k) = none := parens_none (hne '(' (by decide) (by decide))
  have hf : Grammar.floatText (s ++ k) = none := floatText_none fun c hc =>
    ⟨hne '-' (by decide) (by decide) c hc, not_isDigit_of_isStart (hhead c hc)⟩
  have hst : Grammar.stringLiteral (s ++ k) = none := stringLiteral_none (hne '"' (by decide) (by decide))
  rw [atom, hp, bool_none (not_startsWithBool_append hb hk), hf, hst, identStr_append hs hk]
  rfl

/-! ## Operators -/

theorem binaryRest_none (h : Src.NoBinary s) : binaryRest rec e s = none := by
  rw [binaryRest, h]
  rfl

theorem tupleRest_none (h : ∀ c ∈ s.head?, c ≠ ',') : tupleRest rec e s = none := by
  rw [tupleRest, comma_none h]
  rfl

theorem methodRest_none (h : ∀ c ∈ s.head?, c ≠ '.') : methodRest xid rec e s = none := by
  rw [methodRest, lit_none h]
  rfl

theorem fieldRest_none (h : ∀ c ∈ s.head?, c ≠ '.') : fieldRest xid e s = none := by
  rw [fieldRest, lit_none h]
  rfl

theorem indexRest_none (h : ∀ c ∈ s.head?, c ≠ '[') : indexRest e s = none := by
  rw [indexRest, lit_none h]
  rfl

/-- No operator of a level applies to what is before the text. -/
structure Ends (m : Nat) (k : Str) : Prop where
  postfixes : Src.NoPostfix k
  binary : m ≤ 1 → Src.NoBinary k
  comma : m = 0 → ∀ c ∈ k.head?, c ≠ ','

theorem loop_ends (h : Ends m k) (n : Nat) : loop xid rec m n e k = (e, k) := by
  have hdot : ∀ c ∈ k.head?, c ≠ '.' := fun c hc => (h.postfixes c hc).1
  have ht : (if 0 ≥ m then tupleRest rec e k else none) = none := by
    split
    · exact tupleRest_none (h.comma (Nat.le_zero.mp ‹_›))
    · rfl
  have hb : (if 1 ≥ m then binaryRest rec e k else none) = none := by
    split
    · exact binaryRest_none (h.binary ‹_›)
    · rfl
  have hp : post xid rec m e k = none := by
    rw [post, ht, hb, methodRest_none hdot, fieldRest_none hdot, indexRest_none fun c hc => (h.postfixes c hc).2]
    simp
  cases n with
  | zero => rfl
  | succ n => rw [loop, hp]

theorem noBinary_cons {c : Char} (h1 : isSpace c = false) (h2 : ∀ r, binaryOp (c :: r) = none) : Src.NoBinary (c :: s) := by
  rw [Src.NoBinary, ws_of_stops (stops_cons h1)]
  exact h2 s

theorem post_tuple {x : AstNode F × Str} (h : tupleRest rec e s = some x) : post xid rec 0 e s = some x := by
  rw [post, if_pos (Nat.le_refl 0), h]
  rfl

theorem post_binary (hm : m ≤ 1) (hc : ∀ c ∈ s.head?, c ≠ ',') {x : AstNode F × Str} (h : binaryRest rec e s = some x) :
    post xid rec m e s = some x := by
  rw [post, tupleRest_none hc, if_pos (show 1 ≥ m from hm), h]
  simp

/-- A text that begins with a dot. -/
theorem post_dot (hm : m ≤ 2) : post xid rec m e ('.' :: s) =
    (methodRest xid rec e ('.' :: s) <|> fieldRest xid e ('.' :: s)) := by
  have hc : ∀ c ∈ ('.' :: s).head?, c ≠ ',' := fun c hc => by rw [← Option.some.inj hc]; decide
  have hi : ∀ c ∈ ('.' :: s).head?, c ≠ '[' := fun c hc => by rw [← Option.some.inj hc]; decide
  have hb : Src.NoBinary ('.' :: s) := noBinary_cons (by decide) fun _ => rfl
  rw [post, tupleRest_none hc, binaryRest_none hb, indexRest_none hi, if_pos (show 2 ≥ m from hm),
    if_pos (show 3 ≥ m by omega)]
  simp

theorem post_index (hm : m ≤ 2) {x : AstNode F × Str} (h : indexRest e ('[' :: s) = some x) :
    post xid rec m e ('[' :: s) = some x := by
  have hc : ∀ c ∈ ('[' :: s).head?, c ≠ ',' ∧ c ≠ '.' := fun c hc => by rw [← Option.some.inj hc]; decide
  have hb : Src.NoBinary ('[' :: s) := noBinary_cons (by decide) fun _ => rfl
  rw [post, tupleRest_none fun c h => (hc c h).1, binaryRest_none hb, methodRest_none fun c h => (hc c h).2,
    fieldRest_none fun c h => (hc c h).2, h, if_pos (show 4 ≥ m by omega)]
  simp

/-! ## What follows -/

theorem print_head {e : Src} (h : e.Written xid) : ∃ c r, e.print = c :: r ∧ isSpace c = false := by
  have hcons {e : Src} {t : Str} (h : ∃ c r, e.print = c :: r ∧ isSpace c = false) :
      ∃ c r, e.print ++ t = c :: r ∧ isSpace c = false := by
    obtain ⟨c, r, he, hc⟩ := h
    exact ⟨c, r ++ t, by rw [he]; rfl, hc⟩
  have hstart {c : Char} (h : xid.isStart c) : isSpace c = false := by
    by_contra hs
    rw [Bool.not_eq_false, isSpace, Bool.or_eq_true, Bool.or_eq_true] at hs
    rcases hs with (hs | hs) | hs
    · exact ne_of_isStart h (by decide) (by decide) (beq_iff_eq.mp hs)
    · exact ne_of_isStart h (by decide) (by decide) (beq_iff_eq.mp hs)
    · exact ne_of_isStart h (by decide) (by decide) (beq_iff_eq.mp hs)
  have hdigit {c : Char} (h : c.isDigit) : isSpace c = false := by
    by_contra hs
    rw [Bool.not_eq_false, isSpace, Bool.or_eq_true, Bool.or_eq_true, beq_iff_eq, beq_iff_eq, beq_iff_eq] at hs
    rcases hs with (rfl | rfl) | rfl <;> exact absurd h (by decide)
  induction e with
  | paren w₁ e w₂ => exact ⟨'(', _, rfl, by decide⟩
  | bool b => cases b <;> exact ⟨_, _, rfl, by decide⟩
  | float sign ds f =>
    obtain ⟨c, ds, rfl⟩ := List.exists_cons_of_ne_nil h.1.1
    cases sign with
    | true => exact ⟨'-', _, rfl, by decide⟩
    | false => exact ⟨c, _, rfl, hdigit (h.1.2 c List.mem_cons_self)⟩
  | string s => exact ⟨'"', _, rfl, by decide⟩
  | ident s =>
    cases s with
    | nil => exact h.1.elim
    | cons c s => exact ⟨c, s, rfl, hstart h.1.1⟩
  | index e ds ih =>
    simp only [Src.print, List.append_assoc]
    exact hcons (ih h.1)
  | field e i ih => exact hcons (ih h.1)
  | call e i ih =>
    simp only [Src.print, List.append_assoc]
    exact hcons (ih h.1)
  | callWith e i arg ih =>
    simp only [Src.print, List.append_assoc]
    exact hcons (ih h.1)
  | binary a w₁ op w₂ b ih =>
    simp only [Src.print, List.append_assoc]
    exact hcons (ih h.1)
  | tuple a w b ih =>
    simp only [Src.print, List.append_assoc]
    exact hcons (ih h.1)

theorem stops_print {e : Src} (h : e.Written xid) (k : Str) : Stops isSpace (e.print ++ k) := by
  obtain ⟨c, r, he, hc⟩ := print_head h
  rw [he]
  exact stops_cons hc

/-- Only the first character of what follows an operand matters. -/
theorem follow_of_head {e : Src} (hp : 2 ≤ e.prec) {k k' : Str} (hk : k.head? = k'.head?) (h : e.Follow xid k) :
    e.Follow xid k' := by
  cases e with
  | ident s =>
    show Stops _ k'
    rw [Stops, ← hk]
    exact h
  | field e i =>
    show Stops _ k' ∧ ∀ c ∈ k'.head?, _
    rw [Stops, ← hk]
    exact h
  | float sign ds f =>
    show Stops _ k' ∧ (_ → ∀ c ∈ k'.head?, _)
    rw [Stops, ← hk]
    exact h
  | binary => exact absurd hp (by simp [Src.prec])
  | tuple => exact absurd hp (by simp [Src.prec])
  | _ => exact trivial

theorem follow_dot {e : Src} (hp : 2 ≤ e.prec) (h : e.Follow xid ['.']) (k : Str) : e.Follow xid ('.' :: k) :=
  @follow_of_head _ e hp ['.'] ('.' :: k) rfl h

/-- A character that goes on with no token. -/
def Separates (c : Char) : Prop := c.toNat < 128 ∧ c.isAlphanum = false ∧ c ≠ '_' ∧ c ≠ '.' ∧ c ≠ '('

instance (c : Char) : Decidable (Separates c) := inferInstanceAs (Decidable (_ ∧ _))

/-- Where an expression may end: before a character that goes on with no token, if no operator of a higher level than
its own follows. -/
theorem follow_separates {e : Src} (h : e.Written xid) {k : Str} (hk : ∀ c ∈ k.head?, Separates c)
    (hp : e.prec ≤ 1 → Src.NoPostfix k) (hb : e.prec = 0 → Src.NoBinary k) : e.Follow xid k := by
  have hcont : Stops xid.isContinue k := fun c hc => isContinue_eq_false xid (hk c hc).1 (hk c hc).2.1 (hk c hc).2.2.1
  have hdigit : Stops Char.isDigit k := fun c hc => by
    have h := (hk c hc).2.1
    rw [Char.isAlphanum, Bool.or_eq_false_iff] at h
    exact h.2
  induction e with
  | ident s => exact hcont
  | field e i => exact ⟨hcont, fun c hc => (hk c hc).2.2.2.2⟩
  | float sign ds f => exact ⟨hdigit, fun _ c hc => (hk c hc).2.2.2.1⟩
  | binary a w₁ op w₂ b _ ih =>
    obtain ⟨-, -, -, -, hw, hb2⟩ := h
    exact ⟨ih hw (fun _ => hp (Nat.le_refl 1)) (fun h0 => by omega), hp (Nat.le_refl 1)⟩
  | tuple a w b _ ih =>
    obtain ⟨-, -, hw, hb1⟩ := h
    have hpost := hp (Nat.zero_le 1)
    exact ⟨ih hw (fun _ => hpost) (fun h0 => by omega), hpost, hb rfl⟩
  | _ => exact trivial

/-! ## Expressions -/

/-- The parser has read an expression from the text, `k` is left, and it goes on with the operators after it. -/
def Reads (xid : Xid) (floats : Floats F) (depth m : Nat) (s : Str) (a : AstNode F) (k : Str) : Prop :=
  ∃ n, k.length ≤ n ∧
    infixParse xid floats (depth + 1) m s = some (loop xid (infixParse xid floats depth) m n a k)

section
variable {depth : Nat} {a a' : AstNode F} {k' : Str}

theorem reads_atom (h : atom xid floats (infixParse xid floats depth) s = some (a, k)) : Reads xid floats depth m s a k :=
  ⟨k.length, Nat.le_refl _, by rw [infixParse, h]; rfl⟩

/-- One operator. -/
theorem Reads.step (h : Reads xid floats depth m s a k')
    (hp : post xid (infixParse xid floats depth) m a k' = some (a', k)) (hlt : k.length < k'.length) :
    Reads xid floats depth m s a' k := by
  obtain ⟨n, hn, he⟩ := h
  obtain ⟨n, rfl⟩ : ∃ n', n = n' + 1 := ⟨n - 1, by omega⟩
  refine ⟨n, by omega, ?_⟩
  rw [he, loop, hp]

theorem Reads.ends (h : Reads xid floats depth m s a k) (hk : Ends m k) :
    infixParse xid floats (depth + 1) m s = some (a, k) := by
  obtain ⟨n, -, he⟩ := h
  rw [he, loop_ends hk]

end

theorem ends_closing (m : Nat) {w : Str} (hw : Src.Spaces w) : Ends m (w ++ ')' :: k) := by
  have hhead : ∀ c ∈ (w ++ ')' :: k).head?, c = ')' ∨ isSpace c := by
    cases w with
    | nil => exact fun c hc => .inl (Option.some.inj hc).symm
    | cons c w =>
      intro c' hc
      obtain rfl : c = c' := Option.some.inj hc
      exact .inr (hw c List.mem_cons_self)
  have hne (d : Char) (h1 : d ≠ ')') (h2 : isSpace d = false) : ∀ c ∈ (w ++ ')' :: k).head?, c ≠ d := by
    rintro c hc rfl
    rcases hhead c hc with h | h
    · exact h1 h
    · rw [h2] at h; exact absurd h (by decide)
  refine ⟨fun c hc => ⟨hne '.' (by decide) (by decide) c hc, hne '[' (by decide) (by decide) c hc⟩, fun _ => ?_,
    fun _ => hne ',' (by decide) (by decide)⟩
  rw [Src.NoBinary, ws_append hw (stops_cons (by decide))]
  rfl

theorem infixParse_closing (depth : Nat) : infixParse xid floats depth m (')' :: k) = none := by
  have hne (d : Char) (h : ')' ≠ d) : ∀ c ∈ (')' :: k).head?, c ≠ d := fun c hc => by rw [← Option.some.inj hc]; exact h
  cases depth with
  | zero => rfl
  | succ depth =>
    have hb : Grammar.bool (')' :: k) = none :=
      bool_none (not_startsWithBool_of_head fun c hc => ⟨hne 't' (by decide) c hc, hne 'f' (by decide) c hc⟩)
    have hf : Grammar.floatText (')' :: k) = none := floatText_none fun c hc => by
      rw [← Option.some.inj hc]; decide
    have hi : identStr xid (')' :: k) = none := identStr_none fun c hc => by
      rw [← Option.some.inj hc]
      exact isStart_eq_false xid (by decide) (by decide)
    rw [infixParse, atom, parens_none (hne '(' (by decide)), hb, hf, stringLiteral_none (hne '"' (by decide)), hi]
    rfl

theorem separates_op (w : Str) (hw : Src.Spaces w) (op : BinaryOp) :
    ∀ c ∈ (w ++ (op.toStr ++ k)).head?, Separates c ∧ c ≠ ',' ∧ c ≠ '[' := by
  cases w with
  | nil =>
    intro c hc
    cases op <;> (obtain rfl := Option.some.inj hc; decide)
  | cons c w =>
    intro c' hc
    obtain rfl : c = c' := Option.some.inj hc
    have hs := hw c List.mem_cons_self
    rw [isSpace, Bool.or_eq_true, Bool.or_eq_true, beq_iff_eq, beq_iff_eq, beq_iff_eq] at hs
    rcases hs with (rfl | rfl) | rfl <;> decide

/-- An expression is read up to its end. -/
theorem reads_print {e : Src} (hw : e.Written xid) {depth : Nat} (hm : m ≤ e.prec) (hf : e.Follow xid k)
    (hd : (e.print ++ k).length ≤ depth) : Reads xid floats depth m (e.print ++ k) (e.ast floats) k := by
  induction e generalizing m k depth with
  | paren w₁ e w₂ ih =>
    obtain ⟨h₁, hw, h₂⟩ := hw
    have e₁ : (Src.paren w₁ e w₂).print ++ k = '(' :: (w₁ ++ (e.print ++ (w₂ ++ ')' :: k))) := by
      simp [Src.print]
    rw [e₁] at hd ⊢
    simp only [List.length_cons, List.length_append] at hd
    obtain ⟨depth, rfl⟩ : ∃ d, depth = d + 1 := ⟨depth - 1, by omega⟩
    have hclose := ends_closing (k := k) 0 h₂
    have hfollow : e.Follow xid (w₂ ++ ')' :: k) := by
      refine follow_separates hw (fun c hc => ?_) (fun _ => hclose.postfixes) (fun _ => hclose.binary (Nat.zero_le 1))
      cases w₂ with
      | nil => obtain rfl := Option.some.inj hc; decide
      | cons d w₂ =>
        obtain rfl : d = c := Option.some.inj hc
        have hs := h₂ d List.mem_cons_self
        rw [isSpace, Bool.or_eq_true, Bool.or_eq_true, beq_iff_eq, beq_iff_eq, beq_iff_eq] at hs
        rcases hs with (rfl | rfl) | rfl <;> decide
    have hin : infixParse xid floats (depth + 1) 0 (e.print ++ (w₂ ++ ')' :: k)) = some (e.ast floats, w₂ ++ ')' :: k) :=
      (ih hw (Nat.zero_le _) hfollow (by simp only [List.length_append, List.length_cons]; omega)).ends hclose
    refine reads_atom ?_
    rw [atom, parens, lit_cons_self]
    simp only [Option.bind_eq_bind, Option.bind_some]
    rw [ws_append h₁ (stops_print hw _), hin, Option.bind_some, ws_append h₂ (stops_cons (by decide)), lit_cons_self]
    rfl
  | bool b => exact reads_atom (atom_bool b)
  | float sign ds f => exact reads_atom (atom_float hw.1 hw.2 hf.1 hf.2)
  | string s => exact reads_atom (atom_string hw)
  | ident s => exact reads_atom (atom_ident hw.1 hw.2 hf)
  | index e ds ih =>
    obtain ⟨hw, hp, hds, hlt⟩ := hw
    have e₁ : (Src.index e ds).print ++ k = e.print ++ '[' :: (ds ++ ']' :: k) := by simp [Src.print]
    rw [e₁] at hd ⊢
    have hfollow : e.Follow xid ('[' :: (ds ++ ']' :: k)) :=
      follow_separates hw (fun c hc => by obtain rfl := Option.some.inj hc; decide) (fun h => by omega) (fun h => by omega)
    refine (ih hw (Nat.le_trans hm hp) hfollow hd).step (post_index hm ?_) (by
      simp only [List.length_cons, List.length_append]; omega)
    rw [indexRest, lit_cons_self]
    simp only [Option.bind_eq_bind, Option.bind_some]
    rw [uint_append hds hlt (stops_cons (by decide)), Option.bind_some, lit_cons_self]
    rfl
  | field e i ih =>
    obtain ⟨hw, hp, hfe, hi⟩ := hw
    have e₁ : (Src.field e i).print ++ k = e.print ++ '.' :: (i ++ k) := by simp [Src.print]
    rw [e₁] at hd ⊢
    refine (ih hw (Nat.le_trans hm hp) (follow_dot hp hfe _) hd).step ?_ (by
      simp only [List.length_cons, List.length_append]; omega)
    have hmethod : methodRest xid (infixParse xid floats depth) (e.ast floats) ('.' :: (i ++ k)) = none := by
      rw [methodRest, lit_cons_self]
      simp only [Option.bind_eq_bind, Option.bind_some]
      rw [identStr_append hi hf.1, Option.bind_some, lit_none hf.2]
      rfl
    rw [post_dot hm, hmethod, fieldRest, lit_cons_self]
    simp only [Option.bind_eq_bind, Option.bind_some]
    rw [identStr_append hi hf.1]
    rfl
  | call e i ih =>
    obtain ⟨hw, hp, hfe, hi⟩ := hw
    have e₁ : (Src.call e i).print ++ k = e.print ++ '.' :: (i ++ '(' :: ')' :: k) := by simp [Src.print]
    rw [e₁] at hd ⊢
    refine (ih hw (Nat.le_trans hm hp) (follow_dot hp hfe _) hd).step ?_ (by
      simp only [List.length_cons, List.length_append]; omega)
    have hstop : Stops xid.isContinue ('(' :: ')' :: k) :=
      stops_cons (isContinue_eq_false xid (by decide) (by decide) (by decide))
    rw [post_dot hm, methodRest, lit_cons_self]
    simp only [Option.bind_eq_bind, Option.bind_some]
    rw [identStr_append hi hstop, Option.bind_some, lit_cons_self, Option.bind_some, args, infixParse_closing]
    simp only [lit_cons_self]
    rfl
  | callWith e i arg ih iha =>
    obtain ⟨hw, hp, hfe, hi, hwa⟩ := hw
    have e₁ : (Src.callWith e i arg).print ++ k = e.print ++ '.' :: (i ++ '(' :: (arg.print ++ ')' :: k)) := by
      simp [Src.print]
    rw [e₁] at hd ⊢
    refine (ih hw (Nat.le_trans hm hp) (follow_dot hp hfe _) hd).step ?_ (by
      simp only [List.length_cons, List.length_append]; omega)
    simp only [List.length_cons, List.length_append] at hd
    obtain ⟨depth, rfl⟩ : ∃ d, depth = d + 1 := ⟨depth - 1, by omega⟩
    have hclose : Ends 0 (')' :: k) := ends_closing (w := []) 0 (fun _ h => absurd h List.not_mem_nil)
    have hfollow : arg.Follow xid (')' :: k) :=
      follow_separates hwa (fun c hc => by obtain rfl := Option.some.inj hc; decide) (fun _ => hclose.postfixes)
        (fun _ => hclose.binary (Nat.zero_le 1))
    have hin : infixParse xid floats (depth + 1) 0 (arg.print ++ ')' :: k) = some (arg.ast floats, ')' :: k) :=
      (iha hwa (Nat.zero_le _) hfollow (by simp only [List.length_append, List.length_cons]; omega)).ends hclose
    have hstop : Stops xid.isContinue ('(' :: (arg.print ++ ')' :: k)) :=
      stops_cons (isContinue_eq_false xid (by decide) (by decide) (by decide))
    have hcomma : comma (')' :: k) = none := comma_none fun c hc => by rw [← Option.some.inj hc]; decide
    have hargs : args (infixParse xid floats (depth + 1)) (arg.print ++ ')' :: k) = ([arg.ast floats], ')' :: k) := by
      rw [args, hin]
      simp only [List.length_cons, moreArgs, hcomma, Option.bind_none]
    rw [post_dot hm, methodRest, lit_cons_self]
    simp only [Option.bind_eq_bind, Option.bind_some]
    rw [identStr_append hi hstop, Option.bind_some, lit_cons_self, Option.bind_some, hargs]
    simp only [lit_cons_self]
    rfl
  | binary a w₁ op w₂ b iha ihb =>
    obtain ⟨hwa, hpa, h₁, h₂, hwb, hpb⟩ := hw
    obtain ⟨hfb, hpost⟩ := hf
    have e₁ : (Src.binary a w₁ op w₂ b).print ++ k = a.print ++ (w₁ ++ (op.toStr ++ (w₂ ++ (b.print ++ k)))) := by
      simp [Src.print]
    rw [e₁] at hd ⊢
    have hop : 1 ≤ op.toStr.length := by cases op <;> decide
    have hsep := separates_op (k := w₂ ++ (b.print ++ k)) w₁ h₁ op
    have hfollow : a.Follow xid (w₁ ++ (op.toStr ++ (w₂ ++ (b.print ++ k)))) := by
      exact follow_separates hwa (fun c hc => (hsep c hc).1)
        (fun _ c hc => ⟨(hsep c hc).1.2.2.2.1, (hsep c hc).2.2⟩) (fun h => by omega)
    refine (iha hwa (Nat.le_trans hm hpa) hfollow hd).step (post_binary hm (fun c hc => (hsep c hc).2.1) ?_) (by
      simp only [List.length_append]; omega)
    simp only [List.length_append] at hd
    obtain ⟨depth, rfl⟩ : ∃ d, depth = d + 1 := ⟨depth - 1, by omega⟩
    have hends : Ends 2 k := ⟨hpost, fun h => by omega, fun h => by omega⟩
    have hin : infixParse xid floats (depth + 1) 2 (b.print ++ k) = some (b.ast floats, k) :=
      (ihb hwb hpb hfb (by simp only [List.length_append]; omega)).ends hends
    have hstop : Stops isSpace (op.toStr ++ (w₂ ++ (b.print ++ k))) := by cases op <;> exact stops_cons (by decide)
    rw [binaryRest, ws_append h₁ hstop, binaryOp_append]
    simp only [Option.bind_eq_bind, Option.bind_some]
    rw [ws_append h₂ (stops_print hwb k), hin]
    rfl
  | tuple a w b iha ihb =>
    obtain ⟨hwa, hws, hwb, hpb⟩ := hw
    obtain ⟨hfb, hpost, hbin⟩ := hf
    obtain rfl : m = 0 := Nat.le_zero.mp hm
    have e₁ : (Src.tuple a w b).print ++ k = a.print ++ (',' :: (w ++ (b.print ++ k))) := by simp [Src.print]
    rw [e₁] at hd ⊢
    have hhead : ∀ c ∈ (',' :: (w ++ (b.print ++ k))).head?, c = ',' := fun c hc => (Option.some.inj hc).symm
    have hfollow : a.Follow xid (',' :: (w ++ (b.print ++ k))) :=
      follow_separates hwa (fun c hc => by rw [hhead c hc]; decide) (fun _ c hc => by rw [hhead c hc]; decide)
        (fun _ => noBinary_cons (by decide) fun _ => rfl)
    refine (iha hwa (Nat.zero_le _) hfollow hd).step (post_tuple ?_) (by
      simp only [List.length_cons, List.length_append]; omega)
    simp only [List.length_append, List.length_cons] at hd
    obtain ⟨depth, rfl⟩ : ∃ d, depth = d + 1 := ⟨depth - 1, by omega⟩
    have hends : Ends 1 k := ⟨hpost, fun _ => hbin, fun h => by omega⟩
    have hin : infixParse xid floats (depth + 1) 1 (b.print ++ k) = some (b.ast floats, k) :=
      (ihb hwb hpb hfb (by simp only [List.length_append]; omega)).ends hends
    rw [tupleRest, ← List.cons_append, comma_append hws (stops_print hwb k)]
    simp only [Option.bind_eq_bind, Option.bind_some]
    rw [hin]
    rfl

/-- A written expression is read as the tree of the grammar. -/
theorem expr_print {e : Src} (hw : e.Written xid) : expr xid floats e.print = some (e.ast floats) := by
  have hends : Ends 0 ([] : Str) := ⟨fun c hc => absurd hc (by simp), fun _ => rfl, fun _ c hc => absurd hc (by simp)⟩
  have hf : e.Follow xid [] :=
    follow_separates hw (fun c hc => absurd hc (by simp)) (fun _ => hends.postfixes) (fun _ => rfl)
  have hr : infixParse xid floats ((e.print ++ []).length + 1) 0 (e.print ++ []) = some (e.ast floats, []) :=
    (reads_print hw (Nat.zero_le _) hf (Nat.le_refl _)).ends hends
  rw [List.append_nil] at hr
  rw [expr, hr]

end

end Metor.Proof.Eql
