import Metor.Spec.Eql.Context

/-!
# When names of indices are the same

Names are read dimension by dimension, from the left. Where two of them part,
one index has more digits than the other (`clashes_of_longer`), and the rest of
its digits, `ahead`, is carried through the dimensions until the other name
catches up (`caught_up`, `carries`). Digits below 8 in `ahead` have to be
carried by indices of two digits (`carries_low`), hence the bounds of `Clash`.
-/

namespace Metor.Proof.Eql

open Metor.Impl.Eql

/-! ## Digits -/

theorem digitChar_inj : ∀ i < 10, ∀ j < 10, Nat.digitChar i = Nat.digitChar j → i = j := by decide

theorem isDigit_digitChar : ∀ i < 10, (Nat.digitChar i).isDigit = true := by decide

/-- The letters. -/
theorem text_letter (x : Nat) (h : x < 8) : ∃ c, elementText x = [c] ∧ c.isDigit = false := by
  have hall : ∀ x < 8, (elementText x).length = 1 ∧ (elementText x).all (fun c => !c.isDigit) = true := by decide
  obtain ⟨hlen, hdigit⟩ := hall x h
  obtain ⟨c, hc⟩ := List.length_eq_one_iff.mp hlen
  rw [hc] at hdigit
  exact ⟨c, hc, by simpa using hdigit⟩

theorem text_number {x : Nat} (h : 8 ≤ x) : elementText x = Nat.toDigits 10 x := by
  have hnone : elems[x]? = none := List.getElem?_eq_none h
  simp only [elementText, hnone]

theorem text_one {x : Nat} (h : 8 ≤ x) (h' : x < 10) : elementText x = [Nat.digitChar x] := by
  rw [text_number h, Nat.toDigits_of_lt_base h']

theorem text_two {x : Nat} (h : 10 ≤ x) (h' : x < 100) :
    elementText x = [Nat.digitChar (x / 10), Nat.digitChar (x % 10)] := by
  rw [text_number (by omega), Nat.toDigits_of_base_le (by decide) h, Nat.toDigits_of_lt_base (by omega)]
  rfl

theorem text_ne_nil (x : Nat) : elementText x ≠ [] := by
  rcases Nat.lt_or_ge x 8 with h | h
  · obtain ⟨c, hc, -⟩ := text_letter x h
    rw [hc]
    exact List.cons_ne_nil _ _
  · rw [text_number h]
    exact Nat.toDigits_ne_nil

theorem isDigit_of_mem_text {x : Nat} (h : 8 ≤ x) {c : Char} (hc : c ∈ elementText x) : c.isDigit = true := by
  rw [text_number h] at hc
  exact Nat.isDigit_of_mem_toDigits (by decide) (by decide) hc

/-- Only numbers have digits. -/
theorem ge_of_isDigit {x : Nat} {c : Char} (hc : c ∈ elementText x) (hd : c.isDigit = true) : 8 ≤ x := by
  apply Nat.le_of_not_lt
  intro h
  obtain ⟨c', hc', hn⟩ := text_letter x h
  rw [hc', List.mem_singleton] at hc
  rw [hc, hn] at hd
  exact absurd hd (by decide)

/-- Numbers of one character. -/
theorem lt_of_length {x : Nat} (h : 8 ≤ x) (hl : (elementText x).length < 2) : x < 10 := by
  apply Nat.lt_of_not_le
  intro hx
  rw [text_number h, Nat.toDigits_of_base_le (by decide) hx, List.length_append, List.length_singleton] at hl
  have := List.length_pos_iff.mpr (@Nat.toDigits_ne_nil (x / 10) 10)
  omega

theorem ten_le_of_length {x : Nat} (hl : 2 ≤ (elementText x).length) : 10 ≤ x := by
  apply Nat.le_of_not_lt
  intro hx
  rcases Nat.lt_or_ge x 8 with h | h
  · obtain ⟨c, hc, -⟩ := text_letter x h
    rw [hc] at hl
    simp at hl
  · rw [text_one h hx] at hl
    simp at hl

/-- Numbers start with 1 to 9. -/
theorem head_toDigits (n : Nat) (h : 0 < n) : ∃ i cs, 1 ≤ i ∧ i < 10 ∧ Nat.toDigits 10 n = Nat.digitChar i :: cs := by
  induction n using Nat.strongRecOn with
  | ind n ih =>
    rcases Nat.lt_or_ge n 10 with hlt | hge
    · exact ⟨n, [], h, hlt, Nat.toDigits_of_lt_base hlt⟩
    · obtain ⟨i, cs, h₁, h₂, he⟩ := ih (n / 10) (by omega) (by omega)
      exact ⟨i, cs ++ [Nat.digitChar (n % 10)], h₁, h₂, by rw [Nat.toDigits_of_base_le (by decide) hge, he]; rfl⟩

/-- The last character of a number of two digits or more. -/
theorem text_last {x : Nat} (h : 10 ≤ x) : ∃ cs, elementText x = cs ++ [Nat.digitChar (x % 10)] :=
  ⟨_, by rw [text_number (by omega), Nat.toDigits_of_base_le (by decide) h]⟩

theorem text_injective {x y : Nat} (h : elementText x = elementText y) : x = y := by
  have hletters : ∀ x < 8, ∀ y < 8, elementText x = elementText y → x = y := by decide
  rcases Nat.lt_or_ge x 8 with hx | hx
  · rcases Nat.lt_or_ge y 8 with hy | hy
    · exact hletters x hx y hy h
    · obtain ⟨c, hc, hn⟩ := text_letter x hx
      have hd := isDigit_of_mem_text hy (h ▸ hc ▸ List.mem_singleton_self c)
      rw [hn] at hd
      exact absurd hd (by decide)
  · rcases Nat.lt_or_ge y 8 with hy | hy
    · obtain ⟨c, hc, hn⟩ := text_letter y hy
      have hd := isDigit_of_mem_text hx (h.symm ▸ hc ▸ List.mem_singleton_self c)
      rw [hn] at hd
      exact absurd hd (by decide)
    · rw [text_number hx, text_number hy] at h
      rw [← @Nat.ofDigitChars_ten_toDigits x, h, Nat.ofDigitChars_ten_toDigits]

/-! ## Names that part -/

theorem name_cons (x : Nat) (index : List Nat) : elementName (x :: index) = elementText x ++ elementName index := rfl

/-- A digit at the start of a name comes from a number, and is not 0. -/
theorem name_head {index : List Nat} {c : Char} {cs : Str} (h : elementName index = c :: cs) (hd : c.isDigit = true) :
    ∃ x rest, index = x :: rest ∧ 8 ≤ x ∧ (∃ tail, elementText x = c :: tail) ∧ c ≠ '0' := by
  cases index with
  | nil => cases h
  | cons x rest =>
    obtain ⟨c', tail, ht⟩ := List.exists_cons_of_ne_nil (text_ne_nil x)
    rw [name_cons, ht, List.cons_append] at h
    obtain ⟨rfl, -⟩ := List.cons.inj h
    have hx : 8 ≤ x := ge_of_isDigit (ht ▸ List.mem_cons_self) hd
    refine ⟨x, rest, rfl, hx, ⟨tail, ht⟩, ?_⟩
    obtain ⟨i, cs', hi, hi', he⟩ := head_toDigits x (by omega)
    rw [text_number hx, he] at ht
    obtain ⟨rfl, -⟩ := List.cons.inj ht
    have hzero : ∀ i < 10, 1 ≤ i → Nat.digitChar i ≠ '0' := by decide
    exact hzero i hi' hi

/-- A digit from 1 to 7. -/
def Low (ahead : Str) : Prop := ∃ k, 1 ≤ k ∧ k ≤ 7 ∧ ahead = [Nat.digitChar k]

/-- The dimensions from here on let a low digit be carried: each has room for 11, until one has room for 18. -/
def Carries (shape : List Nat) : Prop :=
  ∃ between last after, shape = between ++ last :: after ∧ 19 ≤ last ∧ ∀ n ∈ between, 12 ≤ n

/-- A low digit ahead is carried by numbers from 10 to 17, which are 11 but for their last. -/
theorem carries_low {shape as bs : List Nat} (ha : IsIndex shape as) (hb : IsIndex shape bs) {k : Nat} (h₁ : 1 ≤ k)
    (h₇ : k ≤ 7) (h : Nat.digitChar k :: elementName as = elementName bs) : Carries shape := by
  induction ha generalizing bs k with
  | nil =>
    cases hb
    cases h
  | @cons a d as shape had ha ih =>
    obtain _ | ⟨hbd, hb⟩ := hb
    rename_i b bs
    rcases Nat.lt_or_ge d 19 with hd | hd
    swap
    · exact ⟨[], d, shape, rfl, hd, fun _ hn => nomatch hn⟩
    have hdigit := isDigit_digitChar k (by omega)
    obtain ⟨_, _, hcons, hb₈, ⟨tail, htail⟩, -⟩ := name_head h.symm hdigit
    obtain ⟨rfl, rfl⟩ := List.cons.inj hcons
    have hb₁₀ : 10 ≤ b := by
      apply Nat.le_of_not_lt
      intro hlt
      rw [text_one hb₈ hlt] at htail
      have := digitChar_inj b hlt k (by omega) (List.cons.inj htail).1
      omega
    rw [name_cons, name_cons, text_two hb₁₀ (by omega), List.cons_append, List.cons_append, List.nil_append] at h
    obtain ⟨hk, h⟩ := List.cons.inj h
    have hbk : b / 10 = k := (digitChar_inj k (by omega) (b / 10) (by omega) hk).symm
    have hdigit' := isDigit_digitChar (b % 10) (by omega)
    rw [← name_cons] at h
    obtain ⟨_, _, hcons, ha₈, ⟨tail', htail'⟩, hne⟩ := name_head h hdigit'
    obtain ⟨rfl, rfl⟩ := List.cons.inj hcons
    have ha₁₀ : 10 ≤ a := by
      apply Nat.le_of_not_lt
      intro hlt
      rw [text_one ha₈ hlt] at htail'
      have := digitChar_inj a hlt (b % 10) (by omega) (List.cons.inj htail').1
      omega
    rw [name_cons, text_two ha₁₀ (by omega), List.cons_append, List.cons_append, List.nil_append] at h
    obtain ⟨hk', h⟩ := List.cons.inj h
    have hab := digitChar_inj (a / 10) (by omega) (b % 10) (by omega) hk'
    obtain ⟨_, _, _, _, _, hzero⟩ := name_head h.symm (isDigit_digitChar (a % 10) (by omega))
    have ha₀ : a % 10 ≠ 0 := fun h₀ => hzero (by rw [h₀]; rfl)
    obtain ⟨between, last, after, rfl, hlast, hbetween⟩ := ih hb (by omega) (by omega) h
    refine ⟨d :: between, last, after, rfl, hlast, fun n hn => ?_⟩
    rcases List.mem_cons.mp hn with rfl | hn
    · omega
    · exact hbetween n hn

/-- The dimension where the name that was behind catches up: its number has what was ahead and all of the other. -/
theorem caught_up {ahead rest : Str} {a b : Nat} (hne : ahead ≠ []) (h : elementText b = ahead ++ elementText a ++ rest) :
    18 ≤ b ∧ (∀ c ∈ ahead, c.isDigit = true) ∧ (b < 88 → Low ahead) := by
  have hl : 2 ≤ (elementText b).length := by
    rw [h, List.length_append, List.length_append]
    have := List.length_pos_iff.mpr hne
    have := List.length_pos_iff.mpr (text_ne_nil a)
    omega
  have hb := ten_le_of_length hl
  have hdigits : ∀ c ∈ ahead ++ elementText a ++ rest, c.isDigit = true := fun c hc =>
    isDigit_of_mem_text (by omega) (h.symm ▸ hc)
  have hahead : ∀ c ∈ ahead, c.isDigit = true := fun c hc =>
    hdigits c (List.mem_append_left _ (List.mem_append_left _ hc))
  have ha : 8 ≤ a := by
    obtain ⟨c, cs, hc⟩ := List.exists_cons_of_ne_nil (text_ne_nil a)
    have hmem : c ∈ elementText a := hc ▸ List.mem_cons_self
    exact ge_of_isDigit hmem (hdigits c (List.mem_append_left _ (List.mem_append_right _ hmem)))
  rcases Nat.lt_or_ge b 100 with hb' | hb'
  swap
  · exact ⟨by omega, hahead, fun hlt => absurd hlt (by omega)⟩
  rw [text_two hb hb'] at h
  -- Two characters: one is ahead, the other is `a`.
  obtain ⟨c, cs, rfl⟩ := List.exists_cons_of_ne_nil hne
  have hlen := congrArg List.length h
  simp only [List.length_append, List.length_cons, List.length_nil] at hlen
  have hpos := List.length_pos_iff.mpr (text_ne_nil a)
  have ha' : a < 10 := lt_of_length ha (by omega)
  obtain rfl : cs = [] := List.length_eq_zero_iff.mp (by omega)
  rw [text_one ha ha'] at h
  simp only [List.cons_append, List.nil_append, List.cons.injEq] at h
  obtain ⟨rfl, hmod, -⟩ := h
  have hmod := digitChar_inj (b % 10) (by omega) a ha' hmod
  exact ⟨by omega, hahead, fun hlt => ⟨b / 10, by omega, by omega, rfl⟩⟩

/-- What is left of an appended text ends as it does. -/
theorem same_last {u t v e : Str} (h : u ++ t = v ++ e) (ht : t ≠ []) (he : e ≠ []) :
    ∃ c ts es, t = ts ++ [c] ∧ e = es ++ [c] := by
  obtain ⟨ts, c, rfl⟩ := (List.eq_nil_or_concat' t).resolve_left ht
  obtain ⟨es, c', rfl⟩ := (List.eq_nil_or_concat' e).resolve_left he
  rw [← List.append_assoc, ← List.append_assoc] at h
  obtain ⟨-, hc⟩ := List.append_inj' h rfl
  obtain rfl := List.singleton_inj.mp hc
  exact ⟨c, ts, es, rfl, rfl⟩

/-- The dimensions up to where the name behind catches up. With a last one below 89, all of them have room for 11 and a
low digit was ahead. -/
def Caught (ahead : Str) (shape : List Nat) : Prop :=
  ∃ between last after, shape = between ++ last :: after ∧ 19 ≤ last ∧
    (between = [] → ∀ c ∈ ahead, c.isDigit = true) ∧ (∀ n ∈ between.getLast?, 9 ≤ n) ∧
    (89 ≤ last ∨ (∀ n ∈ between, 12 ≤ n) ∧ Low ahead)

theorem clashes_cons {shape : List Nat} (h : Clashes shape) (d : Nat) : Clashes (d :: shape) := by
  obtain ⟨before, first, between, last, after, rfl, hc⟩ := h
  exact ⟨d :: before, first, between, last, after, rfl, hc⟩

/-- A low digit comes from a number of two digits or more, and what was ahead before it is low too if both numbers are
short. -/
theorem low_before {ahead e : Str} {a b : Nat} (h : ahead ++ elementText a = elementText b ++ e) (hne : ahead ≠ [])
    (hlow : Low e) : 11 ≤ a ∧ (a ≤ 80 → b ≤ 80 → Low ahead) := by
  obtain ⟨k, h₁, h₇, rfl⟩ := hlow
  obtain ⟨c, ts, es, hts, hes⟩ := same_last h (text_ne_nil a) (List.cons_ne_nil _ _)
  obtain rfl : Nat.digitChar k = c := by
    obtain ⟨-, hc⟩ := List.append_inj' (show ([] : Str) ++ [Nat.digitChar k] = es ++ [c] from hes) rfl
    exact List.singleton_inj.mp hc
  have ha₈ : 8 ≤ a := ge_of_isDigit (hts ▸ List.mem_append_right _ (List.mem_singleton_self _)) (isDigit_digitChar k (by omega))
  have ha₁₀ : 10 ≤ a := by
    apply Nat.le_of_not_lt
    intro hlt
    rw [text_one ha₈ hlt] at hts
    obtain ⟨-, hc⟩ := List.append_inj' (show ([] : Str) ++ [Nat.digitChar a] = ts ++ [Nat.digitChar k] from hts) rfl
    have := digitChar_inj a hlt k (by omega) (List.singleton_inj.mp hc)
    omega
  obtain ⟨cs, hcs⟩ := text_last ha₁₀
  obtain ⟨-, hmod⟩ := List.append_inj' (hcs.symm.trans hts) rfl
  have hmod := digitChar_inj (a % 10) (by omega) k (by omega) (List.singleton_inj.mp hmod)
  refine ⟨by omega, fun ha hb => ?_⟩
  have hlen := congrArg List.length h
  have hpos := List.length_pos_iff.mpr hne
  rw [text_two ha₁₀ (by omega)] at h hlen
  simp only [List.length_append, List.length_cons, List.length_nil] at hlen
  have hb₁₀ : 10 ≤ b := ten_le_of_length (by omega)
  rw [text_two hb₁₀ (by omega)] at h hlen
  simp only [List.length_cons, List.length_nil] at hlen
  obtain ⟨c, rfl⟩ := List.length_eq_one_iff.mp (show ahead.length = 1 by omega)
  simp only [List.cons_append, List.nil_append, List.cons.injEq] at h
  obtain ⟨rfl, hdiv, -⟩ := h
  have hdiv := digitChar_inj (a / 10) (by omega) (b % 10) (by omega) hdiv
  exact ⟨b / 10, by omega, by omega, rfl⟩

/-- The name behind catches up. -/
theorem carries {shape as bs : List Nat} (ha : IsIndex shape as) (hb : IsIndex shape bs) {ahead : Str} (hne : ahead ≠ [])
    (h : ahead ++ elementName as = elementName bs) : Clashes shape ∨ Caught ahead shape := by
  induction ha generalizing bs ahead with
  | nil =>
    cases hb
    exact absurd (List.append_eq_nil_iff.mp h).1 hne
  | @cons a d as shape had ha ih =>
    obtain _ | ⟨hbd, hb⟩ := hb
    rename_i b bs
    rw [name_cons, name_cons, ← List.append_assoc] at h
    have hcaught : ∀ rest, elementText b = ahead ++ elementText a ++ rest → Clashes (d :: shape) ∨ Caught ahead (d :: shape) := by
      intro rest ht
      obtain ⟨h₁₈, hdigits, hlow⟩ := caught_up hne ht
      refine .inr ⟨[], d, shape, rfl, by omega, fun _ => hdigits, (fun _ hn => nomatch hn), ?_⟩
      rcases Nat.lt_or_ge d 89 with hd | hd
      · exact .inr ⟨(fun _ hn => nomatch hn), hlow (by omega)⟩
      · exact .inl hd
    rcases List.append_eq_append_iff.mp h with ⟨rest, ht, -⟩ | ⟨e, ht, hrest⟩
    · exact hcaught rest ht
    by_cases he : e = []
    · rw [he, List.append_nil] at ht
      exact hcaught [] (by rw [List.append_nil, ht])
    rcases ih hb he hrest.symm with hc | ⟨between, last, after, rfl, hlast, hdigits, hend, hcase⟩
    · exact .inl (clashes_cons hc d)
    have hend' : ∀ n ∈ (d :: between).getLast?, 9 ≤ n := by
      intro n hn
      by_cases hnil : between = []
      · obtain ⟨c, ts, es, hts, hes⟩ := same_last ht (text_ne_nil a) he
        have hc : c.isDigit = true := hdigits hnil c (hes ▸ List.mem_append_right _ (List.mem_singleton_self _))
        have ha₈ := ge_of_isDigit (hts ▸ List.mem_append_right _ (List.mem_singleton_self _)) hc
        subst hnil
        obtain rfl : d = n := Option.some.inj hn
        omega
      · obtain ⟨x, xs, rfl⟩ := List.exists_cons_of_ne_nil hnil
        rw [List.getLast?_cons_cons] at hn
        exact hend n hn
    rcases hcase with hbig | ⟨hall, hlow⟩
    · exact .inr ⟨d :: between, last, after, rfl, hlast, nofun, hend', .inl hbig⟩
    obtain ⟨ha₁₁, hshort⟩ := low_before ht hne hlow
    rcases Nat.lt_or_ge d 82 with hd | hd
    · refine .inr ⟨d :: between, last, after, rfl, hlast, nofun, hend', .inr ⟨fun n hn => ?_, hshort (by omega) (by omega)⟩⟩
      rcases List.mem_cons.mp hn with rfl | hn
      · omega
      · exact hall n hn
    · exact .inl ⟨[], d, between, last, after, rfl, .inl ⟨hd, hlast, hall⟩⟩

/-- Two indices part where one has more digits, and their names are the same. -/
theorem clashes_of_longer {d a b : Nat} {shape as bs : List Nat} (had : a < d) (ha : IsIndex shape as)
    (hb : IsIndex shape bs) {ahead : Str} (hne : ahead ≠ []) (ht : elementText a = elementText b ++ ahead)
    (h : ahead ++ elementName as = elementName bs) : Clashes (d :: shape) := by
  have hlb := List.length_pos_iff.mpr (text_ne_nil b)
  have hl := List.length_pos_iff.mpr hne
  have ha₁₀ : 10 ≤ a := ten_le_of_length (by rw [ht, List.length_append]; omega)
  have hdigits : ∀ c ∈ elementText b ++ ahead, c.isDigit = true := fun c hc =>
    isDigit_of_mem_text (by omega) (ht.symm ▸ hc)
  have hb₈ : 8 ≤ b := by
    obtain ⟨c, cs, hc⟩ := List.exists_cons_of_ne_nil (text_ne_nil b)
    have hmem : c ∈ elementText b := hc ▸ List.mem_cons_self
    exact ge_of_isDigit hmem (hdigits c (List.mem_append_left _ hmem))
  rcases Nat.lt_or_ge d 89 with hd | hd
  · rw [text_two ha₁₀ (by omega)] at ht
    have hlen := congrArg List.length ht
    simp only [List.length_append, List.length_cons, List.length_nil] at hlen
    have hb₁₀ : b < 10 := lt_of_length hb₈ (by omega)
    rw [text_one hb₈ hb₁₀] at ht
    simp only [List.cons_append, List.nil_append, List.cons.injEq] at ht
    obtain ⟨hdiv, rfl⟩ := ht
    have hdiv := digitChar_inj (a / 10) (by omega) b hb₁₀ hdiv
    rw [List.singleton_append] at h
    obtain ⟨_, _, _, _, _, hzero⟩ := name_head h.symm (isDigit_digitChar (a % 10) (by omega))
    have ha₀ : a % 10 ≠ 0 := fun h₀ => hzero (by rw [h₀]; rfl)
    obtain ⟨between, last, after, rfl, hlast, hall⟩ := carries_low ha hb (by omega) (by omega) h
    exact ⟨[], d, between, last, after, rfl, .inl ⟨by omega, hlast, hall⟩⟩
  · rcases carries ha hb hne h with hc | ⟨between, last, after, rfl, hlast, -, hend, hcase⟩
    · exact clashes_cons hc d
    refine ⟨[], d, between, last, after, rfl, ?_⟩
    rcases hcase with hbig | ⟨hall, -⟩
    · refine .inr ⟨hd, hbig, fun n hn => ?_, hend⟩
      obtain ⟨x, xs, rfl⟩ := List.exists_cons_of_ne_nil (show between ≠ [] from fun h₀ => by rw [h₀] at hn; cases hn)
      obtain rfl := Option.some.inj hn
      obtain ⟨c, cs, rfl⟩ := List.exists_cons_of_ne_nil hne
      obtain ⟨y, rest, rfl, hy, -, -⟩ := name_head h.symm (hdigits c (List.mem_append_right _ List.mem_cons_self))
      obtain _ | ⟨hlt, -⟩ := hb
      omega
    · exact .inl ⟨by omega, hlast, hall⟩

/-- Different indices of one name make the shape clash. -/
theorem clashes_of_same {shape as bs : List Nat} (ha : IsIndex shape as) (hb : IsIndex shape bs) (hne : as ≠ bs)
    (h : elementName as = elementName bs) : Clashes shape := by
  induction ha generalizing bs with
  | nil =>
    cases hb
    exact absurd rfl hne
  | @cons a d as shape had ha ih =>
    obtain _ | ⟨hbd, hb⟩ := hb
    rename_i b bs
    rw [name_cons, name_cons] at h
    by_cases hab : a = b
    · subst hab
      exact clashes_cons (ih hb (fun he => hne (by rw [he])) (List.append_cancel_left h)) d
    have hahead : ∀ {x y : Nat} {e : Str}, x ≠ y → elementText x = elementText y ++ e → e ≠ [] := by
      rintro x y e hxy he rfl
      rw [List.append_nil] at he
      exact hxy (text_injective he)
    rcases List.append_eq_append_iff.mp h with ⟨e, ht, hrest⟩ | ⟨e, ht, hrest⟩
    · exact clashes_of_longer hbd hb ha (hahead (Ne.symm hab) ht) ht hrest.symm
    · exact clashes_of_longer had ha hb (hahead hab ht) ht hrest.symm

end Metor.Proof.Eql
