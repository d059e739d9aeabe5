import Metor.Proof.Eql.Consumed
import Metor.Proof.Eql.Grammar

/-!
# What the grammar accepts

Each operator that applies makes a written expression of a written one
(`post_accepted`), and the loop ends where none applies (`loop_accepted`). With
`expr_print`, the texts that are accepted are those of the written expressions
(`expr_eq_some_iff`).
-/

namespace Metor.Proof.Eql

open Metor.Lib Metor.Impl.Eql Metor.Impl.Eql.Grammar

section
variable {F : Type} {xid : Xid} {floats : Floats F} {a a' : AstNode F} {s r r' : Str} {m depth : Nat} {e : Src}

/-- No operator of a level applies to what is before the text. -/
structure Halts (xid : Xid) (floats : Floats F) (m : Nat) (r : Str) : Prop where
  tuple : m = 0 → ∀ d, r.length ≤ d → ∀ a, tupleRest (infixParse xid floats d) a r = none
  binary : m ≤ 1 → ∀ d, r.length ≤ d → ∀ a, binaryRest (infixParse xid floats d) a r = none
  field : ∀ a : AstNode F, fieldRest xid a r = none
  index : ∀ a : AstNode F, indexRest a r = none

/-- The parser has read the expression from the text, and `r` is left. -/
structure Accepted (xid : Xid) (floats : Floats F) (m : Nat) (s : Str) (a : AstNode F) (r : Str) (e : Src) : Prop where
  written : e.Written xid
  prec : m ≤ e.prec
  text : s = e.print ++ r
  tree : a = e.ast floats
  dot : 2 ≤ e.prec → ∀ t, r = '.' :: t → e.Follow xid ['.']
  field : e.prec ≤ 1 → ∀ a : AstNode F, fieldRest xid a r = none
  index : e.prec ≤ 1 → ∀ a : AstNode F, indexRest a r = none
  binary : e.prec = 0 → ∀ d, r.length ≤ d → ∀ a, binaryRest (infixParse xid floats d) a r = none

theorem infixParse_agree {d d' : Nat} (hd : r.length ≤ d) (hd' : r.length ≤ d') :
    Agree r.length (infixParse xid floats d) (infixParse xid floats d') := by
  intro m t ht
  obtain ⟨k, rfl⟩ : ∃ k, d = k + 1 := ⟨d - 1, by omega⟩
  obtain ⟨k', rfl⟩ : ∃ k', d' = k' + 1 := ⟨d' - 1, by omega⟩
  exact infixParse_depth (by omega) (by omega)

/-! ## The end of an expression -/

theorem tupleRest_eq_none_iff {rec : Rec F} : tupleRest rec a s = none ↔ (comma s).bind (rec 1) = none := by
  unfold tupleRest
  cases comma s with
  | none => exact iff_of_true rfl rfl
  | some t =>
    show (rec 1 t).bind _ = none ↔ rec 1 t = none
    cases rec 1 t with
    | none => exact iff_of_true rfl rfl
    | some x => exact iff_of_false (by simp) (by simp)

theorem binaryRest_eq_none_iff {rec : Rec F} :
    binaryRest rec a s = none ↔ (binaryOp (ws s)).bind (fun x => rec 2 (ws x.2)) = none := by
  unfold binaryRest
  cases binaryOp (ws s) with
  | none => exact iff_of_true rfl rfl
  | some t =>
    show (rec 2 (ws t.2)).bind _ = none ↔ rec 2 (ws t.2) = none
    cases rec 2 (ws t.2) with
    | none => exact iff_of_true rfl rfl
    | some x => exact iff_of_false (by simp) (by simp)

theorem fieldRest_eq_none_iff : fieldRest xid a s = none ↔ (lit ['.'] s).bind (identStr xid) = none := by
  unfold fieldRest
  cases lit ['.'] s with
  | none => exact iff_of_true rfl rfl
  | some t =>
    show (identStr xid t).bind _ = none ↔ identStr xid t = none
    cases identStr xid t with
    | none => exact iff_of_true rfl rfl
    | some x => exact iff_of_false (by simp) (by simp)

theorem indexRest_eq_none_iff :
    indexRest a s = none ↔ ((lit ['['] s).bind uint).bind (fun x => lit [']'] x.2) = none := by
  unfold indexRest
  cases lit ['['] s with
  | none => exact iff_of_true rfl rfl
  | some t =>
    show (uint t).bind _ = none ↔ (uint t).bind _ = none
    cases uint t with
    | none => exact iff_of_true rfl rfl
    | some x =>
      show (lit [']'] x.2).bind _ = none ↔ lit [']'] x.2 = none
      cases lit [']'] x.2 with
      | none => exact iff_of_true rfl rfl
      | some k => exact iff_of_false (by simp) (by simp)

theorem halts_of_post (hm : m ≤ 2) (hr : r.length ≤ depth) (h : post xid (infixParse xid floats depth) m a r = none) :
    Halts xid floats m r := by
  obtain ⟨h0, h1, h3, h4⟩ := post_none h
  refine ⟨fun h d hd a' => ?_, fun h d hd a' => ?_, fun a' => ?_, fun a' => ?_⟩
  · rw [tupleRest_agree (infixParse_agree hd hr) (Nat.le_refl _)]
    exact tupleRest_eq_none_iff.mpr (tupleRest_eq_none_iff.mp (h0 h))
  · rw [binaryRest_agree (infixParse_agree hd hr) (Nat.le_refl _)]
    exact binaryRest_eq_none_iff.mpr (binaryRest_eq_none_iff.mp (h1 h))
  · exact fieldRest_eq_none_iff.mpr (fieldRest_eq_none_iff.mp (h3 (by omega)))
  · exact indexRest_eq_none_iff.mpr (indexRest_eq_none_iff.mp (h4 (by omega)))

/-! ## One step -/

/-- What the parser of expressions in brackets reads is a written expression, up to where no operator applies. -/
def Sound (xid : Xid) (floats : Floats F) (depth : Nat) : Prop := ∀ m s a r, m ≤ 2 → s.length < depth →
  infixParse xid floats depth m s = some (a, r) → (∃ e, Accepted xid floats m s a r e) ∧ Halts xid floats m r

/-- An expression of the highest level, after which a dot may follow. -/
theorem accepted_of_prec (hw : e.Written xid) (hp : e.prec = 2) (hm : m ≤ 2)
    (hdot : ∀ t, r = '.' :: t → e.Follow xid ['.']) : Accepted xid floats m (e.print ++ r) (e.ast floats) r e :=
  ⟨hw, by omega, rfl, rfl, fun _ => hdot, fun h => by omega, fun h => by omega, fun h => by omega⟩

theorem stops_dot_isContinue : Stops xid.isContinue ['.'] :=
  stops_cons (isContinue_eq_false xid (by decide) (by decide) (by decide))

theorem atom_accepted (hsound : Sound xid floats depth) (hm : m ≤ 2) (hs : s.length ≤ depth)
    (h : atom xid floats (infixParse xid floats depth) s = some (a, r)) : ∃ e, Accepted xid floats m s a r e := by
  rcases atom_some h with hp | ⟨b, rfl, rfl⟩ | ⟨f, hf, rfl⟩ | ⟨t, ht, rfl⟩ | ⟨i, hi, hb, rfl⟩
  · obtain ⟨t, k, rfl, hk, hr⟩ := parens_some hp
    obtain ⟨w₁, h₁, ht⟩ := ws_spec t
    obtain ⟨w₂, h₂, hk₂⟩ := ws_spec k
    have hlen := ws_length t
    rw [List.length_cons] at hs
    obtain ⟨⟨e, he⟩, -⟩ := hsound 0 (ws t) a k (Nat.zero_le 2) (by omega) hk
    refine ⟨.paren w₁ e w₂, ?_⟩
    have htext : '(' :: t = (Src.paren w₁ e w₂).print ++ r := by
      rw [ht, he.text, hk₂, hr]
      simp [Src.print]
    rw [htext, he.tree]
    exact accepted_of_prec ⟨h₁, he.written, h₂⟩ rfl hm fun _ _ => trivial
  · exact ⟨.bool b, accepted_of_prec (e := .bool b) trivial rfl hm fun _ _ => trivial⟩
  · obtain ⟨sign, ds, fr, rfl, hds, hfr, rfl, hdot⟩ := floatText_some hf
    refine ⟨.float sign ds fr, accepted_of_prec (e := .float sign ds fr) ⟨hds, hfr⟩ rfl hm fun t ht =>
      ⟨stops_cons (by decide), fun hn => ?_⟩⟩
    exact absurd ht (hdot hn t)
  · obtain ⟨hq, rfl⟩ := stringLiteral_some ht
    exact ⟨.string t, accepted_of_prec (e := .string t) hq rfl hm fun _ _ => trivial⟩
  · obtain ⟨hxid, rfl⟩ := identStr_some hi
    refine ⟨.ident i, accepted_of_prec (e := .ident i) ⟨hxid, fun hb' => hb ?_⟩ rfl hm fun _ _ => stops_dot_isContinue⟩
    exact hb'.imp (fun h => h.trans (List.prefix_append i r)) fun h => h.trans (List.prefix_append i r)

theorem infixParse_none_level {m' : Nat} (h : infixParse xid floats depth m s = none) :
    infixParse xid floats depth m' s = none := by
  cases depth with
  | zero => rfl
  | succ depth =>
    rw [infixParse, Option.map_eq_none_iff] at h ⊢
    exact h

/-- No more than one expression is an argument, since commas make a tuple. -/
theorem moreArgs_halts (h : Halts xid floats 0 s) (hd : s.length ≤ depth) (n : Nat) :
    moreArgs (infixParse xid floats depth) n s = ([], s) := by
  cases n with
  | zero => rfl
  | succ n =>
    have hnone : (comma s).bind (infixParse xid floats depth 0) = none := by
      have ht := tupleRest_eq_none_iff.mp (h.tuple rfl depth hd (.tuple []))
      cases hc : comma s with
      | none => rfl
      | some t =>
        rw [hc] at ht
        exact infixParse_none_level ht
    rw [moreArgs, hnone]

theorem args_accepted (hsound : Sound xid floats depth) (hs : s.length < depth) {as : List (AstNode F)}
    (h : args (infixParse xid floats depth) s = (as, r)) :
    (as = [] ∧ s = r) ∨ ∃ e : Src, e.Written xid ∧ s = e.print ++ r ∧ as = [e.ast floats] := by
  unfold args at h
  split at h
  · rename_i x k hx
    obtain ⟨⟨e, he⟩, hk⟩ := hsound 0 s x k (Nat.zero_le 2) hs hx
    have hlen := infixParse_length depth hx
    rw [moreArgs_halts hk (by omega)] at h
    obtain ⟨rfl, rfl⟩ := Prod.mk.inj h
    exact .inr ⟨e, he.written, he.text, by rw [he.tree]⟩
  · obtain ⟨rfl, rfl⟩ := Prod.mk.inj h
    exact .inl ⟨rfl, rfl⟩

theorem post_accepted (hsound : Sound xid floats depth) (hm : m ≤ 2) (hr : r.length ≤ depth)
    (he : Accepted xid floats m s a r e) (h : post xid (infixParse xid floats depth) m a r = some (a', r')) :
    ∃ e', Accepted xid floats m s a' r' e' := by
  -- a dot goes on with no operator of a lower level
  have hdot {t i k : Str} (hr : r = '.' :: t) (hi : identStr xid t = some (i, k)) : 2 ≤ e.prec := by
    by_contra hp
    have hf := fieldRest_eq_none_iff.mp (he.field (by omega) a)
    rw [hr, lit_cons_self] at hf
    replace hf : identStr xid t = none := hf
    rw [hi] at hf
    exact absurd hf (by simp)
  rcases post_some h with ⟨rfl, h'⟩ | ⟨hm1, h'⟩ | h' | h' | h'
  · obtain ⟨t, b, ht, hb, rfl⟩ := tupleRest_some h'
    have hlt := comma_length ht
    obtain ⟨w, hw, rfl⟩ := comma_some ht
    obtain ⟨⟨eb, heb⟩, hhalt⟩ := hsound 1 t b r' (by decide) (by omega) hb
    refine ⟨.tuple e w eb, ⟨he.written, hw, heb.written, heb.prec⟩, Nat.zero_le _, ?_, ?_,
      fun h => absurd h (show ¬ 2 ≤ 0 by decide), fun _ => hhalt.field, fun _ => hhalt.index, fun _ => hhalt.binary (Nat.le_refl 1)⟩
    · rw [he.text, heb.text]
      simp [Src.print]
    · rw [he.tree, heb.tree]
      rfl
  · obtain ⟨op, t, b, ht, hb, rfl⟩ := binaryRest_some h'
    have hp : 1 ≤ e.prec := by
      by_contra hp
      rw [he.binary (by omega) depth hr a] at h'
      exact absurd h' (by simp)
    have hlt := binaryOp_length ht
    have hlr := ws_length r
    have hlw := ws_length t
    obtain ⟨w₁, h₁, hr₁⟩ := ws_spec r
    obtain ⟨w₂, h₂, ht₂⟩ := ws_spec t
    obtain ⟨⟨eb, heb⟩, hhalt⟩ := hsound 2 (ws t) b r' (Nat.le_refl 2) (by omega) hb
    refine ⟨.binary e w₁ op w₂ eb, ⟨he.written, hp, h₁, h₂, heb.written, heb.prec⟩, hm1, ?_, ?_,
      fun h => absurd h (show ¬ 2 ≤ 1 by decide), fun _ => hhalt.field, fun _ => hhalt.index,
      fun h => absurd h (show ¬ 1 = 0 by decide)⟩
    · rw [he.text, hr₁, binaryOp_some ht, ht₂, heb.text]
      simp [Src.print]
    · rw [he.tree, heb.tree]
      rfl
  · obtain ⟨t, i, k, as, hr', hi, has, rfl⟩ := methodRest_some h'
    have hp := hdot hr' hi
    have hlen := identStr_length hi
    rw [hr', List.length_cons] at hr
    rw [List.length_cons] at hlen
    obtain ⟨hxid, ht⟩ := identStr_some hi
    have hfollow := he.dot hp t hr'
    rcases args_accepted hsound (by omega) has with ⟨rfl, rfl⟩ | ⟨arg, hwa, hk, rfl⟩
    · have htext : s = (Src.call e i).print ++ r' := by
        rw [he.text, hr', ht]
        simp [Src.print]
      have htree : AstNode.methodCall a i [] = (Src.call e i).ast floats := by rw [he.tree]; rfl
      rw [htext, htree]
      exact ⟨_, accepted_of_prec ⟨he.written, hp, hfollow, hxid⟩ rfl hm fun _ _ => trivial⟩
    · have htext : s = (Src.callWith e i arg).print ++ r' := by
        rw [he.text, hr', ht, hk]
        simp [Src.print]
      have htree : AstNode.methodCall a i [arg.ast floats] = (Src.callWith e i arg).ast floats := by rw [he.tree]; rfl
      rw [htext, htree]
      exact ⟨_, accepted_of_prec ⟨he.written, hp, hfollow, hxid, hwa⟩ rfl hm fun _ _ => trivial⟩
  · obtain ⟨t, i, hr', hi, rfl⟩ := fieldRest_some h'
    have hp := hdot hr' hi
    obtain ⟨hxid, ht⟩ := identStr_some hi
    have htext : s = (Src.field e i).print ++ r' := by
      rw [he.text, hr', ht]
      simp [Src.print]
    have htree : AstNode.field a i = (Src.field e i).ast floats := by rw [he.tree]; rfl
    rw [htext, htree]
    refine ⟨_, accepted_of_prec ⟨he.written, hp, he.dot hp t hr', hxid⟩ rfl hm fun _ _ => ?_⟩
    exact ⟨stops_dot_isContinue, fun c hc => by rw [← Option.some.inj hc]; decide⟩
  · obtain ⟨t, n, hr', hn, rfl⟩ := indexRest_some h'
    obtain ⟨ds, hds, hlt, rfl, ht⟩ := uint_some hn
    have hp : 2 ≤ e.prec := by
      by_contra hp
      rw [he.index (by omega) a] at h'
      exact absurd h' (by simp)
    have htext : s = (Src.index e ds).print ++ r' := by
      rw [he.text, hr', ht]
      simp [Src.print]
    have htree : AstNode.arrayIndex a (ofDigits ds) = (Src.index e ds).ast floats := by rw [he.tree]; rfl
    rw [htext, htree]
    exact ⟨_, accepted_of_prec ⟨he.written, hp, hds, hlt⟩ rfl hm fun _ _ => trivial⟩

theorem loop_accepted (hsound : Sound xid floats depth) (hm : m ≤ 2) {n : Nat} (hn : r.length ≤ n) (hr : r.length ≤ depth)
    (he : Accepted xid floats m s a r e) (h : loop xid (infixParse xid floats depth) m n a r = (a', r')) :
    (∃ e', Accepted xid floats m s a' r' e') ∧ Halts xid floats m r' := by
  induction n generalizing a r e with
  | zero =>
    obtain rfl := List.length_eq_zero_iff.mp (Nat.le_zero.mp hn)
    obtain ⟨rfl, rfl⟩ := Prod.mk.inj h
    refine ⟨⟨e, he⟩, halts_of_post (a := a) hm hr ?_⟩
    cases hp : post xid (infixParse xid floats depth) m a [] with
    | none => rfl
    | some x => exact absurd (post_length (infixParse_length depth) hp) (Nat.not_lt_zero _)
  | succ n ih =>
    rw [loop] at h
    split at h
    · rename_i a₁ r₁ hp
      have hlt := post_length (infixParse_length depth) hp
      obtain ⟨e₁, he₁⟩ := post_accepted hsound hm hr he hp
      exact ih (by omega) (by omega) he₁ h
    · rename_i hp
      obtain ⟨rfl, rfl⟩ := Prod.mk.inj h
      exact ⟨⟨e, he⟩, halts_of_post hm hr hp⟩

theorem infixParse_accepted (depth : Nat) : Sound xid floats depth := by
  induction depth with
  | zero => exact fun _ _ _ _ _ hs => absurd hs (Nat.not_lt_zero _)
  | succ depth ih =>
    intro m s a r hm hs h
    obtain ⟨⟨a₀, r₀⟩, ha, h⟩ := Option.map_eq_some_iff.mp h
    have hlt := atom_length (infixParse_length depth) ha
    obtain ⟨e, he⟩ := atom_accepted ih hm (by omega) ha
    exact loop_accepted ih hm (Nat.le_refl _) (by omega) he h

/-- The texts that the grammar accepts are those of the written expressions, and it gives them their trees. -/
theorem expr_eq_some_iff : expr xid floats s = some a ↔ ∃ e : Src, e.Written xid ∧ e.print = s ∧ e.ast floats = a := by
  constructor
  · intro h
    unfold expr at h
    split at h
    · rename_i a' hread
      obtain rfl := Option.some.inj h
      obtain ⟨⟨e, he⟩, -⟩ := infixParse_accepted (s.length + 1) 0 s a' [] (Nat.zero_le 2) (Nat.lt_succ_self _) hread
      exact ⟨e, he.written, by rw [he.text, List.append_nil], he.tree.symm⟩
    · exact absurd h (by simp)
  · rintro ⟨e, hw, rfl, rfl⟩
    exact expr_print hw

end

end Metor.Proof.Eql
