import Metor.Spec.Eql.Grammar

/-!
# Tokens of the query language

Each token reads its text again, if what follows does not go on with it, and
fails on a text with another first character.
-/

namespace Metor.Proof.Eql

open Metor.Lib Metor.Impl.Eql Metor.Impl.Eql.Grammar

section
variable {s k w : Str}

@[simp] theorem lit_append (t k : Str) : lit t (t ++ k) = some k := by
  have hp : t.isPrefixOf (t ++ k) := by
    rw [List.isPrefixOf_iff_prefix]
    exact List.prefix_append t k
  rw [lit, if_pos hp, List.drop_left]

@[simp] theorem lit_cons_self (c : Char) (k : Str) : lit [c] (c :: k) = some k := lit_append [c] k

theorem lit_none {c : Char} (h : ∀ a ∈ s.head?, a ≠ c) : lit [c] s = none := by
  cases s with
  | nil => rfl
  | cons a s =>
    have : ¬ [c].isPrefixOf (a :: s) := by
      rw [List.isPrefixOf_iff_prefix]
      exact fun hp => h a rfl (List.cons_prefix_cons.mp hp).1.symm
    rw [lit, if_neg this]

theorem lit_eq_some {t r : Str} (h : lit t s = some r) : s = t ++ r := by
  unfold lit at h
  split at h
  · rename_i hp
    rw [← Option.some.inj h]
    exact (List.prefix_iff_eq_append.mp (List.isPrefixOf_iff_prefix.mp hp)).symm
  · exact absurd h (by simp)

theorem ws_append (hw : Src.Spaces w) (hk : Stops isSpace k) : ws (w ++ k) = k := dropWhile_append_stops hw hk

theorem ws_of_stops (hk : Stops isSpace k) : ws k = k := hk.dropWhile

theorem identStr_append {xid : Xid} (hs : Src.IsXid xid s) (hk : Stops xid.isContinue k) :
    identStr xid (s ++ k) = some (s, k) := by
  cases s with
  | nil => exact hs.elim
  | cons c s =>
    rw [List.cons_append, identStr, if_pos hs.1, takeWhile_append_stops hs.2 hk, dropWhile_append_stops hs.2 hk]

theorem identStr_none {xid : Xid} (h : ∀ c ∈ s.head?, xid.isStart c = false) : identStr xid s = none := by
  cases s with
  | nil => rfl
  | cons c s =>
    have hc : ¬ xid.isStart c = true := by rw [h c rfl]; decide
    rw [identStr, if_neg hc]

theorem digits_append (hs : Src.Digits s) (hk : Stops Char.isDigit k) : digits (s ++ k) = some (s, k) := by
  rw [digits, takeWhile_append_stops hs.2 hk, dropWhile_append_stops hs.2 hk, if_neg hs.1]

theorem digits_none (h : Stops Char.isDigit s) : digits s = none := by
  rw [digits, h.takeWhile, if_pos rfl]

theorem uint_append (hs : Src.Digits s) (hlt : ofDigits s < 18446744073709551616) (hk : Stops Char.isDigit k) :
    uint (s ++ k) = some (ofDigits s, k) := by
  rw [uint, digits_append hs hk]
  exact if_pos hlt

theorem fraction_append {f : Option Str} (hf : ∀ ds ∈ f, ∀ c ∈ ds, c.isDigit) (hk : Stops Char.isDigit k)
    (hdot : f = none → ∀ c ∈ k.head?, c ≠ '.') :
    fraction (f.elim [] ('.' :: ·) ++ k) = (f.elim [] ('.' :: ·), k) := by
  cases f with
  | none =>
    show fraction k = ([], k)
    unfold fraction
    split
    · exact absurd rfl (hdot rfl '.' rfl)
    · rfl
  | some ds =>
    show fraction ('.' :: (ds ++ k)) = ('.' :: ds, k)
    rw [fraction, takeWhile_append_stops (hf ds rfl) hk, dropWhile_append_stops (hf ds rfl) hk]

theorem stops_fraction {f : Option Str} (hk : Stops Char.isDigit k) :
    Stops Char.isDigit (f.elim [] ('.' :: ·) ++ k) := by
  cases f with
  | none => exact hk
  | some ds => exact stops_cons (by decide)

theorem floatText_append {sign : Bool} {ds : Str} {f : Option Str} (hd : Src.Digits ds)
    (hf : ∀ ds ∈ f, ∀ c ∈ ds, c.isDigit) (hk : Stops Char.isDigit k) (hdot : f = none → ∀ c ∈ k.head?, c ≠ '.') :
    floatText (Src.floatText sign ds f ++ k) = some (Src.floatText sign ds f, k) := by
  have hrest := digits_append hd (stops_fraction (f := f) hk)
  have hfr := fraction_append hf hk hdot
  obtain ⟨c, ds', rfl⟩ := List.exists_cons_of_ne_nil hd.1
  cases sign with
  | true =>
    show floatText ('-' :: (c :: ds' ++ f.elim [] ('.' :: ·) ++ k)) = _
    rw [List.append_assoc]
    simp only [floatText, hrest, hfr]
    rfl
  | false =>
    have hc : c ≠ '-' := by
      rintro rfl
      exact absurd (hd.2 '-' List.mem_cons_self) (by decide)
    show floatText (c :: ds' ++ f.elim [] ('.' :: ·) ++ k) = _
    rw [List.append_assoc]
    unfold floatText
    split
    rename_i sign r heq
    split at heq
    · rename_i r' e
      exact absurd (List.cons.inj e).1 hc
    · obtain ⟨rfl, rfl⟩ := Prod.mk.inj heq
      simp only [hrest, hfr]
      rfl

theorem stringLiteral_append (hs : ∀ c ∈ s, c ≠ '"') :
    stringLiteral ('"' :: s ++ ['"'] ++ k) = some (s, k) := by
  have hp : ∀ c ∈ s, (c != '"') = true := fun c hc => bne_iff_ne.mpr (hs c hc)
  have hstop : Stops (· != '"') ('"' :: k) := stops_cons (by decide)
  have e : '"' :: s ++ ['"'] ++ k = '"' :: (s ++ '"' :: k) := by simp
  rw [e, stringLiteral, dropWhile_append_stops hp hstop, takeWhile_append_stops hp hstop]
  rfl

theorem binaryOp_append (op : BinaryOp) (k : Str) : binaryOp (op.toStr ++ k) = some (op, k) := by
  cases op <;> rfl

theorem comma_append (hw : Src.Spaces w) (hk : Stops isSpace k) : comma (',' :: w ++ k) = some k := by
  rw [comma, List.cons_append, lit_cons_self, Option.map_some, ws_append hw hk]

theorem comma_none (h : ∀ a ∈ s.head?, a ≠ ',') : comma s = none := by
  rw [comma, lit_none h]
  rfl

theorem bool_append (b : Bool) (k : Str) : Grammar.bool (Src.boolText b ++ k) = some (b, k) := by
  unfold Grammar.bool
  cases b with
  | true => rw [Src.boolText, if_pos rfl, lit_append]
  | false =>
    have ht : lit "true".toList ("false".toList ++ k) = none := if_neg (by simp)
    rw [Src.boolText, if_neg (by decide), ht, lit_append]
    rfl

theorem bool_none (h : ¬ Src.StartsWithBool s) : Grammar.bool s = none := by
  rw [Src.StartsWithBool, not_or] at h
  have ht : lit "true".toList s = none := if_neg fun hp => h.1 (List.isPrefixOf_iff_prefix.mp hp)
  have hf : lit "false".toList s = none := if_neg fun hp => h.2 (List.isPrefixOf_iff_prefix.mp hp)
  unfold Grammar.bool
  rw [ht, hf]
  rfl

end

end Metor.Proof.Eql
