import Mathlib.Data.List.TakeWhile
import Metor.Proof.Eql.Tokens

/-!
# What the parts of the grammar have read

Each token that is read is a written one, with the rest after it. An expression
is never empty (`infixParse_length`), and how deep brackets may be nested makes
no difference beyond the length of the text (`infixParse_depth`).
-/

namespace Metor.Proof.Eql

open Metor.Lib Metor.Impl.Eql Metor.Impl.Eql.Grammar

/-! ## Tokens -/

section
variable {s r i : Str}

theorem lit_cons {c : Char} (h : lit [c] s = some r) : s = c :: r := lit_eq_some h

theorem ws_spec (s : Str) : ∃ w, Src.Spaces w ∧ s = w ++ ws s :=
  ⟨s.takeWhile isSpace, fun _ hc => List.mem_takeWhile_imp hc, List.takeWhile_append_dropWhile.symm⟩

theorem ws_length (s : Str) : (ws s).length ≤ s.length := length_dropWhile_le s

theorem identStr_some {xid : Xid} (h : identStr xid s = some (i, r)) : Src.IsXid xid i ∧ s = i ++ r := by
  cases s with
  | nil => exact absurd h (by simp [identStr])
  | cons c s =>
    rw [identStr] at h
    split at h
    · rename_i hc
      obtain ⟨rfl, rfl⟩ := Prod.mk.inj (Option.some.inj h)
      refine ⟨⟨hc, fun _ hm => List.mem_takeWhile_imp hm⟩, ?_⟩
      rw [List.cons_append, List.takeWhile_append_dropWhile]
    · exact absurd h (by simp)

theorem digits_some {ds : Str} (h : digits s = some (ds, r)) : Src.Digits ds ∧ s = ds ++ r ∧ Stops Char.isDigit r := by
  unfold digits at h
  split at h
  · exact absurd h (by simp)
  · rename_i hne
    obtain ⟨rfl, rfl⟩ := Prod.mk.inj (Option.some.inj h)
    exact ⟨⟨hne, fun _ hc => List.mem_takeWhile_imp hc⟩, List.takeWhile_append_dropWhile.symm, stops_dropWhile s⟩

theorem uint_some {n : Nat} (h : uint s = some (n, r)) :
    ∃ ds, Src.Digits ds ∧ ofDigits ds < 18446744073709551616 ∧ n = ofDigits ds ∧ s = ds ++ r := by
  unfold uint at h
  split at h
  · rename_i ds r' hd
    split at h
    · rename_i hlt
      obtain ⟨rfl, rfl⟩ := Prod.mk.inj (Option.some.inj h)
      obtain ⟨hds, hs, -⟩ := digits_some hd
      exact ⟨ds, hds, hlt, rfl, hs⟩
    · exact absurd h (by simp)
  · exact absurd h (by simp)

/-- The fraction that is read, which takes a dot that there is. -/
theorem fraction_spec (s : Str) : ∃ f : Option Str, fraction s = (f.elim [] ('.' :: ·), (fraction s).2) ∧
    (∀ ds ∈ f, ∀ c ∈ ds, c.isDigit) ∧ s = f.elim [] ('.' :: ·) ++ (fraction s).2 ∧
    (f = none → ∀ t, (fraction s).2 ≠ '.' :: t) := by
  by_cases h : ∃ t, s = '.' :: t
  · obtain ⟨t, rfl⟩ := h
    refine ⟨some (t.takeWhile Char.isDigit), rfl, ?_, ?_, fun h => absurd h (by simp)⟩
    · rintro ds ⟨⟩ c hc
      exact List.mem_takeWhile_imp hc
    · exact congrArg ('.' :: ·) List.takeWhile_append_dropWhile.symm
  · have hf : fraction s = ([], s) := by
      unfold fraction
      split
      · exact absurd ⟨_, rfl⟩ h
      · rfl
    rw [hf]
    exact ⟨none, rfl, fun _ h => absurd h (by simp), rfl, fun _ t ht => h ⟨t, ht⟩⟩

theorem floatText_some {f : Str} (h : floatText s = some (f, r)) :
    ∃ sign ds fr, f = Src.floatText sign ds fr ∧ Src.Digits ds ∧ (∀ ds ∈ fr, ∀ c ∈ ds, c.isDigit) ∧ s = f ++ r ∧
      (fr = none → ∀ t, r ≠ '.' :: t) := by
  unfold floatText at h
  split at h
  rename_i sign s' heq
  split at h
  · rename_i ds r' hd
    obtain ⟨rfl, rfl⟩ := Prod.mk.inj (Option.some.inj h)
    obtain ⟨hds, hs', -⟩ := digits_some hd
    obtain ⟨fr, hfr, hfd, hr', hdot⟩ := fraction_spec r'
    have hfst : (fraction r').1 = fr.elim [] ('.' :: ·) := congrArg Prod.fst hfr
    obtain ⟨b, hsign, hs⟩ : ∃ b : Bool, sign = (if b then ['-'] else []) ∧ s = sign ++ s' := by
      split at heq
      · obtain ⟨rfl, rfl⟩ := Prod.mk.inj heq
        exact ⟨true, rfl, rfl⟩
      · obtain ⟨rfl, rfl⟩ := Prod.mk.inj heq
        exact ⟨false, rfl, rfl⟩
    refine ⟨b, ds, fr, ?_, hds, hfd, ?_, hdot⟩
    · rw [hfst, hsign]
      rfl
    · rw [hs, hs', hfst, List.append_assoc, List.append_assoc]
      exact congrArg (fun t => sign ++ (ds ++ t)) hr'
  · exact absurd h (by simp)

theorem stringLiteral_some {t : Str} (h : stringLiteral s = some (t, r)) :
    (∀ c ∈ t, c ≠ '"') ∧ s = '"' :: t ++ ['"'] ++ r := by
  unfold stringLiteral at h
  split at h
  · rename_i s
    split at h
    · rename_i r' hd
      obtain ⟨rfl, rfl⟩ := Prod.mk.inj (Option.some.inj h)
      refine ⟨fun c hc => bne_iff_ne.mp (List.mem_takeWhile_imp (p := (· != '"')) hc), ?_⟩
      have hs : s = s.takeWhile (· != '"') ++ '"' :: r' := by
        rw [← hd]
        exact List.takeWhile_append_dropWhile.symm
      rw [List.cons_append, List.cons_append, List.append_assoc]
      exact congrArg _ hs
    · exact absurd h (by simp)
  · exact absurd h (by simp)

theorem comma_some (h : comma s = some r) : ∃ w, Src.Spaces w ∧ s = ',' :: w ++ r := by
  obtain ⟨t, ht, rfl⟩ := Option.map_eq_some_iff.mp h
  obtain ⟨w, hw, he⟩ := ws_spec t
  refine ⟨w, hw, ?_⟩
  rw [lit_cons ht, List.cons_append, ← he]

theorem binaryOp_some {op : BinaryOp} (h : binaryOp s = some (op, r)) : s = op.toStr ++ r := by
  unfold binaryOp at h
  split at h <;> first
    | (obtain ⟨rfl, rfl⟩ := Prod.mk.inj (Option.some.inj h); rfl)
    | exact absurd h (by simp)

theorem bool_some {b : Bool} (h : Grammar.bool s = some (b, r)) : s = Src.boolText b ++ r := by
  unfold Grammar.bool at h
  split at h
  · rename_i r' ht
    obtain ⟨rfl, rfl⟩ := Prod.mk.inj (Option.some.inj h)
    exact lit_eq_some ht
  · obtain ⟨r', hf, he⟩ := Option.map_eq_some_iff.mp h
    obtain ⟨rfl, rfl⟩ := Prod.mk.inj he
    exact lit_eq_some hf

theorem not_startsWithBool_of_bool_none (h : Grammar.bool s = none) : ¬ Src.StartsWithBool s := by
  rintro (⟨k, rfl⟩ | ⟨k, rfl⟩)
  · rw [show "true".toList = Src.boolText true from rfl, bool_append] at h
    exact absurd h (by simp)
  · rw [show "false".toList = Src.boolText false from rfl, bool_append] at h
    exact absurd h (by simp)

end

/-! ## Operators and atoms -/

section
variable {F : Type} {xid : Xid} {floats : Floats F} {rec : Rec F} {e a : AstNode F} {s r : Str} {m : Nat}

theorem parens_some (h : parens rec s = some (a, r)) :
    ∃ t k, s = '(' :: t ∧ rec 0 (ws t) = some (a, k) ∧ ws k = ')' :: r := by
  obtain ⟨t, ht, h⟩ := Option.bind_eq_some_iff.mp h
  obtain ⟨⟨a', k⟩, hrec, h⟩ := Option.bind_eq_some_iff.mp h
  obtain ⟨r', hr, h⟩ := Option.bind_eq_some_iff.mp h
  obtain ⟨rfl, rfl⟩ := Prod.mk.inj (Option.some.inj h)
  exact ⟨t, k, lit_cons ht, hrec, lit_cons hr⟩

theorem tupleRest_some (h : tupleRest rec e s = some (a, r)) :
    ∃ t b, comma s = some t ∧ rec 1 t = some (b, r) ∧ a = .tuple [e, b] := by
  obtain ⟨t, ht, h⟩ := Option.bind_eq_some_iff.mp h
  obtain ⟨⟨b, k⟩, hrec, h⟩ := Option.bind_eq_some_iff.mp h
  obtain ⟨rfl, rfl⟩ := Prod.mk.inj (Option.some.inj h)
  exact ⟨t, b, ht, hrec, rfl⟩

theorem binaryRest_some (h : binaryRest rec e s = some (a, r)) :
    ∃ op t b, binaryOp (ws s) = some (op, t) ∧ rec 2 (ws t) = some (b, r) ∧ a = .binaryOp e b op := by
  obtain ⟨⟨op, t⟩, ht, h⟩ := Option.bind_eq_some_iff.mp h
  obtain ⟨⟨b, k⟩, hrec, h⟩ := Option.bind_eq_some_iff.mp h
  obtain ⟨rfl, rfl⟩ := Prod.mk.inj (Option.some.inj h)
  exact ⟨op, t, b, ht, hrec, rfl⟩

theorem methodRest_some (h : methodRest xid rec e s = some (a, r)) :
    ∃ t i k as, s = '.' :: t ∧ identStr xid t = some (i, '(' :: k) ∧ args rec k = (as, ')' :: r) ∧
      a = .methodCall e i as := by
  obtain ⟨t, ht, h⟩ := Option.bind_eq_some_iff.mp h
  obtain ⟨⟨i, t'⟩, hi, h⟩ := Option.bind_eq_some_iff.mp h
  obtain ⟨k, hk, h⟩ := Option.bind_eq_some_iff.mp h
  obtain ⟨k', hk', h⟩ := Option.bind_eq_some_iff.mp h
  obtain ⟨rfl, rfl⟩ := Prod.mk.inj (Option.some.inj h)
  refine ⟨t, i, k, _, lit_cons ht, ?_, Prod.ext rfl (lit_cons hk'), rfl⟩
  rw [hi, lit_cons hk]

theorem fieldRest_some (h : fieldRest xid e s = some (a, r)) :
    ∃ t i, s = '.' :: t ∧ identStr xid t = some (i, r) ∧ a = .field e i := by
  obtain ⟨t, ht, h⟩ := Option.bind_eq_some_iff.mp h
  obtain ⟨⟨i, t'⟩, hi, h⟩ := Option.bind_eq_some_iff.mp h
  obtain ⟨rfl, rfl⟩ := Prod.mk.inj (Option.some.inj h)
  exact ⟨t, i, lit_cons ht, hi, rfl⟩

theorem indexRest_some (h : indexRest e s = some (a, r)) :
    ∃ t n, s = '[' :: t ∧ uint t = some (n, ']' :: r) ∧ a = .arrayIndex e n := by
  obtain ⟨t, ht, h⟩ := Option.bind_eq_some_iff.mp h
  obtain ⟨⟨n, t'⟩, hn, h⟩ := Option.bind_eq_some_iff.mp h
  obtain ⟨k, hk, h⟩ := Option.bind_eq_some_iff.mp h
  obtain ⟨rfl, rfl⟩ := Prod.mk.inj (Option.some.inj h)
  exact ⟨t, n, lit_cons ht, by rw [hn, lit_cons hk], rfl⟩

/-- The operator that has applied. -/
theorem post_some (h : post xid rec m e s = some (a, r)) :
    (m = 0 ∧ tupleRest rec e s = some (a, r)) ∨ (m ≤ 1 ∧ binaryRest rec e s = some (a, r)) ∨
      methodRest xid rec e s = some (a, r) ∨ fieldRest xid e s = some (a, r) ∨ indexRest e s = some (a, r) := by
  have key {p : Prop} [Decidable p] {x y : Option (AstNode F × Str)}
      (h : ((if p then x else none) <|> y) = some (a, r)) : (p ∧ x = some (a, r)) ∨ y = some (a, r) := by
    by_cases hp : p
    · rw [if_pos hp] at h
      cases x with
      | none => exact .inr h
      | some x => exact .inl ⟨hp, h⟩
    · rw [if_neg hp] at h
      exact .inr h
  unfold post at h
  rcases key h with ⟨hm, h⟩ | h
  · exact .inl ⟨Nat.le_zero.mp hm, h⟩
  rcases key h with ⟨hm, h⟩ | h
  · exact .inr (.inl ⟨hm, h⟩)
  rcases key h with ⟨-, h⟩ | h
  · exact .inr (.inr (.inl h))
  rcases key h with ⟨-, h⟩ | h
  · exact .inr (.inr (.inr (.inl h)))
  · split at h
    · exact .inr (.inr (.inr (.inr h)))
    · exact absurd h (by simp)

/-- No operator applies. -/
theorem post_none (h : post xid rec m e s = none) :
    (m = 0 → tupleRest rec e s = none) ∧ (m ≤ 1 → binaryRest rec e s = none) ∧
      (m ≤ 3 → fieldRest xid e s = none) ∧ (m ≤ 4 → indexRest e s = none) := by
  have key {p : Prop} [Decidable p] {x y : Option (AstNode F × Str)}
      (h : ((if p then x else none) <|> y) = none) : (p → x = none) ∧ y = none := by
    by_cases hp : p
    · rw [if_pos hp] at h
      cases x with
      | none => exact ⟨fun _ => rfl, h⟩
      | some x => exact absurd h (by simp)
    · rw [if_neg hp] at h
      exact ⟨fun hp' => absurd hp' hp, h⟩
  unfold post at h
  obtain ⟨h0, h⟩ := key h
  obtain ⟨h1, h⟩ := key h
  obtain ⟨-, h⟩ := key h
  obtain ⟨h3, h⟩ := key h
  exact ⟨fun hm => h0 (Nat.le_of_eq hm), h1, h3, fun hm => by rwa [if_pos (show 4 ≥ m from hm)] at h⟩

/-! ## Nothing is read from no text -/

/-- Each expression takes a part of the text. -/
def Shrinks (rec : Rec F) : Prop := ∀ ⦃m s a r⦄, rec m s = some (a, r) → r.length < s.length

theorem comma_length (h : comma s = some r) : r.length < s.length := by
  obtain ⟨w, -, rfl⟩ := comma_some h
  simp only [List.cons_append, List.length_cons, List.length_append]
  omega

theorem binaryOp_length {op : BinaryOp} (h : binaryOp s = some (op, r)) : r.length < s.length := by
  rw [binaryOp_some h, List.length_append]
  cases op <;> simp [BinaryOp.toStr]

theorem identStr_length {i : Str} (h : identStr xid s = some (i, r)) : r.length < s.length := by
  obtain ⟨hi, rfl⟩ := identStr_some h
  cases i with
  | nil => exact hi.elim
  | cons c i =>
    simp only [List.cons_append, List.length_cons, List.length_append]
    omega

theorem uint_length {n : Nat} (h : uint s = some (n, r)) : r.length < s.length := by
  obtain ⟨ds, ⟨hne, -⟩, -, -, rfl⟩ := uint_some h
  have := List.length_pos_iff.mpr hne
  rw [List.length_append]
  omega

theorem moreArgs_length (hrec : Shrinks rec) (n : Nat) (s : Str) : (moreArgs rec n s).2.length ≤ s.length := by
  fun_induction moreArgs rec n s with
  | case1 s => exact Nat.le_refl _
  | case2 n s e k h es r' heq ih =>
    obtain ⟨t, ht, hk⟩ := Option.bind_eq_some_iff.mp h
    have := comma_length ht
    have := hrec hk
    rw [heq] at ih
    show r'.length ≤ s.length
    replace ih : r'.length ≤ k.length := ih
    omega
  | case3 n s h => exact Nat.le_refl _

theorem args_length (hrec : Shrinks rec) (s : Str) : (args rec s).2.length ≤ s.length := by
  unfold args
  split
  · rename_i e k h
    have := hrec h
    have := moreArgs_length hrec k.length k
    show (moreArgs rec k.length k).2.length ≤ s.length
    omega
  · exact Nat.le_refl _

theorem post_length (hrec : Shrinks rec) (h : post xid rec m e s = some (a, r)) : r.length < s.length := by
  rcases post_some h with ⟨-, h⟩ | ⟨-, h⟩ | h | h | h
  · obtain ⟨t, b, ht, hb, -⟩ := tupleRest_some h
    have := comma_length ht
    have := hrec hb
    omega
  · obtain ⟨op, t, b, ht, hb, -⟩ := binaryRest_some h
    have := binaryOp_length ht
    have := hrec hb
    have := ws_length s
    have := ws_length t
    omega
  · obtain ⟨t, i, k, as, rfl, hi, has, -⟩ := methodRest_some h
    have h1 := identStr_length hi
    have h2 := args_length hrec k
    rw [has] at h2
    replace h2 : r.length + 1 ≤ k.length := h2
    simp only [List.length_cons] at h1 ⊢
    omega
  · obtain ⟨t, i, rfl, hi, -⟩ := fieldRest_some h
    have := identStr_length hi
    rw [List.length_cons]
    omega
  · obtain ⟨t, n, rfl, hn, -⟩ := indexRest_some h
    have := uint_length hn
    simp only [List.length_cons] at this ⊢
    omega

theorem loop_length (hrec : Shrinks rec) (n : Nat) (e : AstNode F) (s : Str) :
    (loop xid rec m n e s).2.length ≤ s.length := by
  fun_induction loop xid rec m n e s with
  | case1 e s => exact Nat.le_refl _
  | case2 n e s a r h ih =>
    have := post_length hrec h
    omega
  | case3 n e s h => exact Nat.le_refl _

theorem orElse_eq_some {α : Type} {x y : Option α} {b : α} (h : (x <|> y) = some b) : x = some b ∨ x = none ∧ y = some b := by
  cases x with
  | none => exact .inr ⟨rfl, h⟩
  | some x => exact .inl h

/-- The atom that is read. -/
theorem atom_some (h : atom xid floats rec s = some (a, r)) :
    parens rec s = some (a, r) ∨ (∃ b, s = Src.boolText b ++ r ∧ a = .boolLiteral b) ∨
      (∃ f, floatText s = some (f, r) ∧ a = .floatLiteral (floats.parse f)) ∨
      (∃ t, stringLiteral s = some (t, r) ∧ a = .stringLiteral t) ∨
      (∃ i, identStr xid s = some (i, r) ∧ ¬ Src.StartsWithBool s ∧ a = .ident i) := by
  have key {β : Type} {f : β → AstNode F} {x : Option (β × Str)}
      (h : x.map (fun (b, r) => (f b, r)) = some (a, r)) : ∃ b, x = some (b, r) ∧ a = f b := by
    obtain ⟨⟨b, k⟩, hx, h⟩ := Option.map_eq_some_iff.mp h
    obtain ⟨rfl, rfl⟩ := Prod.mk.inj h
    exact ⟨b, hx, rfl⟩
  rcases orElse_eq_some h with h | ⟨-, h⟩
  · exact .inl h
  rcases orElse_eq_some h with h | ⟨hb, h⟩
  · obtain ⟨b, hb, ha⟩ := key h
    exact .inr (.inl ⟨b, bool_some hb, ha⟩)
  rcases orElse_eq_some h with h | ⟨-, h⟩
  · exact .inr (.inr (.inl (key h)))
  rcases orElse_eq_some h with h | ⟨-, h⟩
  · exact .inr (.inr (.inr (.inl (key h))))
  · obtain ⟨i, hi, ha⟩ := key h
    exact .inr (.inr (.inr (.inr ⟨i, hi, not_startsWithBool_of_bool_none (Option.map_eq_none_iff.mp hb), ha⟩)))

theorem atom_length (hrec : Shrinks rec) (h : atom xid floats rec s = some (a, r)) : r.length < s.length := by
  rcases atom_some h with h | ⟨b, rfl, -⟩ | ⟨f, h, -⟩ | ⟨t, h, -⟩ | ⟨i, h, -⟩
  · obtain ⟨t, k, rfl, hk, hr⟩ := parens_some h
    have h1 := hrec hk
    have h2 := ws_length t
    have h3 := ws_length k
    rw [hr] at h3
    simp only [List.length_cons] at h3 ⊢
    omega
  · rw [List.length_append]
    have : 0 < (Src.boolText b).length := by cases b <;> decide
    omega
  · obtain ⟨sign, ds, fr, rfl, ⟨hne, -⟩, -, rfl, -⟩ := floatText_some h
    have := List.length_pos_iff.mpr hne
    simp only [Src.floatText, List.length_append]
    omega
  · obtain ⟨-, rfl⟩ := stringLiteral_some h
    simp only [List.length_append, List.length_cons]
    omega
  · exact identStr_length h

theorem infixParse_length (depth : Nat) : Shrinks (infixParse xid floats depth) := by
  induction depth with
  | zero => exact fun _ _ _ _ h => absurd h (by simp [infixParse])
  | succ depth ih =>
    intro m s a r h
    obtain ⟨⟨e, k⟩, he, h⟩ := Option.map_eq_some_iff.mp h
    have h1 := atom_length ih he
    have h2 : (loop xid (infixParse xid floats depth) m k.length e k).2.length ≤ k.length := loop_length ih ..
    replace h : loop xid (infixParse xid floats depth) m k.length e k = (a, r) := h
    rw [h] at h2
    exact Nat.lt_of_le_of_lt h2 h1

/-! ## Depth -/

/-- Two parsers of expressions agree on the texts shorter than `N`. -/
def Agree (N : Nat) (f g : Rec F) : Prop := ∀ m t, t.length < N → f m t = g m t

section
variable {f g : Rec F} {N : Nat} (hfg : Agree N f g)
include hfg

theorem bind_agree {x : Option Str} (hx : ∀ t ∈ x, t.length < N) (m : Nat) : x.bind (f m) = x.bind (g m) := by
  cases x with
  | none => rfl
  | some t => exact hfg m t (hx t rfl)

theorem parens_agree (hs : s.length ≤ N) : parens f s = parens g s := by
  unfold parens
  cases ht : lit ['('] s with
  | none => rfl
  | some t =>
    have h1 := congrArg List.length (lit_cons ht)
    have h2 := ws_length t
    rw [List.length_cons] at h1
    show (f 0 (ws t)).bind _ = (g 0 (ws t)).bind _
    rw [hfg 0 (ws t) (by omega)]

theorem moreArgs_agree (hg : Shrinks g) (n : Nat) (hs : s.length ≤ N) : moreArgs f n s = moreArgs g n s := by
  induction n generalizing s with
  | zero => rfl
  | succ n ih =>
    have hb : (comma s).bind (f 0) = (comma s).bind (g 0) :=
      bind_agree hfg (fun t ht => Nat.lt_of_lt_of_le (comma_length ht) hs) 0
    rw [moreArgs, moreArgs, hb]
    split
    · rename_i e r h
      obtain ⟨t, ht, hr⟩ := Option.bind_eq_some_iff.mp h
      have := comma_length ht
      have := hg hr
      rw [ih (by omega)]
    · rfl

theorem args_agree (hg : Shrinks g) (hs : s.length < N) : args f s = args g s := by
  rw [args, args, hfg 0 s hs]
  split
  · rename_i e r h
    have := hg h
    rw [moreArgs_agree hfg hg r.length (by omega)]
  · rfl

theorem tupleRest_agree (hs : s.length ≤ N) : tupleRest f e s = tupleRest g e s := by
  unfold tupleRest
  cases ht : comma s with
  | none => rfl
  | some t =>
    have := comma_length ht
    show (f 1 t).bind _ = (g 1 t).bind _
    rw [hfg 1 t (by omega)]

theorem binaryRest_agree (hs : s.length ≤ N) : binaryRest f e s = binaryRest g e s := by
  unfold binaryRest
  cases ht : binaryOp (ws s) with
  | none => rfl
  | some x =>
    have h1 := binaryOp_length ht
    have h2 := ws_length s
    have h3 := ws_length x.2
    show (f 2 (ws x.2)).bind _ = (g 2 (ws x.2)).bind _
    rw [hfg 2 (ws x.2) (by omega)]

theorem post_agree (hg : Shrinks g) (hs : s.length ≤ N) : post xid f m e s = post xid g m e s := by
  have hm : methodRest xid f e s = methodRest xid g e s := by
    unfold methodRest
    cases ht : lit ['.'] s with
    | none => rfl
    | some t =>
      have h1 := congrArg List.length (lit_cons ht)
      rw [List.length_cons] at h1
      show (identStr xid t).bind _ = (identStr xid t).bind _
      cases hi : identStr xid t with
      | none => rfl
      | some x =>
        have h2 := identStr_length hi
        show (lit ['('] x.2).bind _ = (lit ['('] x.2).bind _
        cases hk : lit ['('] x.2 with
        | none => rfl
        | some k =>
          have h3 := congrArg List.length (lit_cons hk)
          rw [List.length_cons] at h3
          simp only [Option.bind_some]
          rw [args_agree hfg hg (by omega)]
  rw [post, post, tupleRest_agree hfg hs, binaryRest_agree hfg hs, hm]

theorem loop_agree (hg : Shrinks g) (n : Nat) (hs : s.length ≤ N) : loop xid f m n e s = loop xid g m n e s := by
  induction n generalizing e s with
  | zero => rfl
  | succ n ih =>
    rw [loop, loop, post_agree hfg hg hs]
    split
    · rename_i a r h
      have := post_length hg h
      exact ih (by omega)
    · rfl

theorem atom_agree (hs : s.length ≤ N) : atom xid floats f s = atom xid floats g s := by
  rw [atom, atom, parens_agree hfg hs]

end

theorem infixParse_step {d d' : Nat} (h : Agree s.length (infixParse xid floats d) (infixParse xid floats d')) :
    infixParse xid floats (d + 1) m s = infixParse xid floats (d' + 1) m s := by
  rw [infixParse, infixParse, atom_agree h (Nat.le_refl _)]
  cases ha : atom xid floats (infixParse xid floats d') s with
  | none => rfl
  | some x =>
    have hlt := atom_length (infixParse_length d') ha
    exact congrArg some (loop_agree h (infixParse_length d') x.2.length (Nat.le_of_lt hlt))

/-- Brackets nest no deeper than the text is long. -/
theorem infixParse_depth {d d' : Nat} (hd : s.length ≤ d) (hd' : s.length ≤ d') :
    infixParse xid floats (d + 1) m s = infixParse xid floats (d' + 1) m s := by
  induction d generalizing d' m s with
  | zero => exact infixParse_step fun _ t ht => by omega
  | succ d ih =>
    refine infixParse_step fun m t ht => ?_
    obtain ⟨d', rfl⟩ : ∃ k, d' = k + 1 := ⟨d' - 1, by omega⟩
    exact ih (by omega) (by omega)

end

end Metor.Proof.Eql
