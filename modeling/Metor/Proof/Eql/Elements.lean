import Mathlib.Data.List.Nodup
import Metor.Lib.Except
import Metor.Lib.Slice
import Metor.Proof.Eql.ElementText
import Metor.Spec.Eql.Context

/-!
# The names of elements

`append_elements` lists the names in row-major order (`defaultElementNames_eq`,
`getElem?_rowMajor`). They are different, and so each is found at its place,
exactly if no two dimensions clash (`elements_selected_iff`): `same_of_clashes`
makes two indices of one name.
-/

namespace Metor.Proof.Eql

open Metor.Lib Metor.Impl.Eql

/-! ## The order of the names -/

theorem appendElements_eq (shape : List Nat) (parent : Str) (out : List Str) :
    appendElements shape parent out = out ++ (indices shape).map fun index => parent ++ elementName index := by
  induction shape generalizing parent out with
  | nil =>
    show out ++ [parent] = out ++ [parent ++ []]
    rw [List.append_nil]
  | cons n shape ih =>
    have hfold : ∀ (xs : List Nat) (out : List Str),
        xs.foldl (fun out x => appendElements shape (parent ++ elementText x) out) out =
          out ++ (xs.flatMap fun x => (indices shape).map (x :: ·)).map fun index => parent ++ elementName index := by
      intro xs
      induction xs with
      | nil => exact fun out => (List.append_nil out).symm
      | cons x xs ihx =>
        intro out
        rw [List.foldl_cons, ihx, ih, List.flatMap_cons, List.map_append, List.map_map, List.append_assoc]
        congr 2
        refine List.map_congr_left fun index _ => ?_
        show _ = parent ++ elementName (x :: index)
        rw [name_cons, List.append_assoc]
    exact hfold _ out

theorem defaultElementNames_eq (shape : List Nat) : defaultElementNames shape = (indices shape).map elementName :=
  appendElements_eq shape [] []

theorem length_indices (shape : List Nat) : (indices shape).length = shape.prod := by
  induction shape with
  | nil => rfl
  | cons n shape ih =>
    rw [indices, length_flatMap_of_forall fun x _ => by rw [List.length_map, ih], List.length_range, List.prod_cons]

theorem mem_indices {shape index : List Nat} : index ∈ indices shape ↔ IsIndex shape index := by
  induction shape generalizing index with
  | nil => exact ⟨fun h => List.mem_singleton.mp h ▸ .nil, fun h => by cases h; exact List.mem_singleton_self _⟩
  | cons n shape ih =>
    constructor
    · intro h
      obtain ⟨x, hx, h⟩ := List.mem_flatMap.mp h
      obtain ⟨index, hi, rfl⟩ := List.mem_map.mp h
      exact .cons (List.mem_range.mp hx) (ih.mp hi)
    · intro h
      obtain _ | ⟨hx, h⟩ := h
      exact List.mem_flatMap.mpr ⟨_, List.mem_range.mpr hx, List.mem_map_of_mem (ih.mpr h)⟩

/-- Each index is at its row-major place. -/
theorem getElem?_rowMajor {shape index : List Nat} (h : IsIndex shape index) :
    (indices shape)[rowMajor shape index]? = some index ∧ rowMajor shape index < shape.prod := by
  induction h with
  | nil => exact ⟨rfl, by decide⟩
  | @cons x n index shape hx _ ih =>
    obtain ⟨hget, hlt⟩ := ih
    have hblock := @slice_flatMap _ _ (fun x => (indices shape).map (x :: ·)) shape.prod (List.range n)
      (fun x _ => by rw [List.length_map, length_indices]) x (by rwa [List.length_range])
    have hle : x * shape.prod + rowMajor shape index < (x + 1) * shape.prod := by
      rw [Nat.add_mul]
      omega
    have hn : (x + 1) * shape.prod ≤ n * shape.prod := Nat.mul_le_mul_right _ hx
    refine ⟨?_, by rw [List.prod_cons]; exact Nat.lt_of_lt_of_le hle hn⟩
    have hslice := getElem?_slice ((List.range n).flatMap fun x => (indices shape).map (x :: ·)) (x * shape.prod)
      ((x + 1) * shape.prod) (rowMajor shape index)
    rw [if_pos hle, hblock, List.getElem_range, List.getElem?_map, hget] at hslice
    exact hslice.symm

theorem nodup_indices (shape : List Nat) : (indices shape).Nodup := by
  induction shape with
  | nil => exact List.nodup_singleton _
  | cons n shape ih =>
    refine List.nodup_flatMap.mpr ⟨fun x _ => ih.map fun _ _ h => (List.cons.inj h).2, ?_⟩
    refine List.nodup_range.imp ?_
    intro x y hxy
    show List.Disjoint _ _
    rw [List.disjoint_left]
    intro index hx hy
    obtain ⟨_, _, rfl⟩ := List.mem_map.mp hx
    obtain ⟨_, _, h⟩ := List.mem_map.mp hy
    exact hxy (List.cons.inj h).1.symm

/-! ## Two indices of one name -/

theorem const_isIndex {shape : List Nat} {k : Nat} (h : ∀ n ∈ shape, k < n) : IsIndex shape (shape.map fun _ => k) := by
  rw [IsIndex, List.forall₂_map_left_iff, List.forall₂_same]
  exact h

theorem isIndex_append {s₁ s₂ i₁ i₂ : List Nat} (h₁ : IsIndex s₁ i₁) (h₂ : IsIndex s₂ i₂) :
    IsIndex (s₁ ++ s₂) (i₁ ++ i₂) :=
  List.rel_append h₁ h₂

theorem name_append (i₁ i₂ : List Nat) : elementName (i₁ ++ i₂) = elementName i₁ ++ elementName i₂ := List.flatMap_append

/-- Between the two dimensions, either name has the same. -/
theorem between_of_clash {first last : Nat} {between : List Nat} (hpos : ∀ n ∈ between, 0 < n) (h : Clash first between last) :
    ∃ as bs, IsIndex (first :: (between ++ [last])) as ∧ IsIndex (first :: (between ++ [last])) bs ∧ as ≠ bs ∧
      elementName as = elementName bs := by
  rcases h with ⟨hfirst, hlast, hall⟩ | ⟨hfirst, hlast, hhead, hend⟩
  · -- 81, 11, …, 11, 8 and 8, 11, …, 11, 18.
    refine ⟨81 :: (between.map (fun _ => 11) ++ [8]), 8 :: (between.map (fun _ => 11) ++ [18]),
      .cons (by omega) (isIndex_append (const_isIndex hall) (.cons (by omega) .nil)),
      .cons (by omega) (isIndex_append (const_isIndex hall) (.cons (by omega) .nil)),
      fun he => absurd (List.cons.inj he).1 (by decide), ?_⟩
    have hones : '1' :: elementName (between.map fun _ => 11) = elementName (between.map fun _ => 11) ++ ['1'] := by
      clear hall hpos
      induction between with
      | nil => rfl
      | cons n between ih =>
        rw [List.map_cons, name_cons, show elementText 11 = ['1', '1'] by decide, List.append_assoc, ← ih]
        rfl
    have h₈ : elementName [8] = ['8'] := by decide
    have h₁₈ : elementName [18] = ['1', '8'] := by decide
    rw [name_cons, name_cons, name_append, name_append, h₈, h₁₈, show elementText 81 = ['8', '1'] by decide,
      show elementText 8 = ['8'] by decide]
    show '8' :: (('1' :: elementName (between.map fun _ => 11)) ++ ['8']) = _
    rw [hones, List.append_assoc]
    rfl
  · by_cases hnil : between = []
    · subst hnil
      exact ⟨[88, 8], [8, 88], .cons (by omega) (.cons (by omega) .nil), .cons (by omega) (.cons (by omega) .nil), by decide,
        by decide⟩
    · -- 88, 0, …, 0, 8, 8 and 8, 8, 0, …, 0, 88.
      obtain ⟨n, ns, hn⟩ := List.exists_cons_of_ne_nil hnil
      obtain ⟨ms, m, hm⟩ := (List.eq_nil_or_concat' between).resolve_left hnil
      have h₁ : IsIndex between ((ms.map fun _ => 0) ++ [8]) := by
        have h₈ : 9 ≤ m := hend m (by rw [hm, List.getLast?_concat]; rfl)
        rw [hm]
        exact isIndex_append (const_isIndex fun x hx => hpos x (by rw [hm]; exact List.mem_append_left _ hx))
          (.cons (by omega) .nil)
      have h₂ : IsIndex between (8 :: ns.map fun _ => 0) := by
        have h₈ : 9 ≤ n := hhead n (by rw [hn]; rfl)
        rw [hn]
        exact .cons (by omega) (const_isIndex fun x hx => hpos x (by rw [hn]; exact List.mem_cons_of_mem _ hx))
      have hlen : ms.length = ns.length := by
        have := congrArg List.length (hm.symm.trans hn)
        simp only [List.length_append, List.length_cons, List.length_nil] at this
        omega
      have hzeros : (ms.map fun _ => 0) = ns.map fun _ => 0 := by
        rw [List.map_const', List.map_const', hlen]
      refine ⟨88 :: (((ms.map fun _ => 0) ++ [8]) ++ [8]), 8 :: ((8 :: ns.map fun _ => 0) ++ [88]),
        .cons (by omega) (isIndex_append h₁ (.cons (by omega) .nil)),
        .cons (by omega) (isIndex_append h₂ (.cons (by omega) .nil)), fun he => absurd (List.cons.inj he).1 (by decide), ?_⟩
      have h₈ : elementName [8] = ['8'] := by decide
      have h₈₈ : elementName [88] = ['8', '8'] := by decide
      rw [hzeros, name_cons 88, name_cons 8, name_append, name_append, name_append, h₈, h₈₈, name_cons 8,
        show elementText 88 = ['8', '8'] by decide, show elementText 8 = ['8'] by decide, List.append_assoc]
      rfl

/-- A shape without an empty dimension that clashes has two indices of one name. -/
theorem same_of_clashes {shape : List Nat} (hpos : ∀ n ∈ shape, 0 < n) (h : Clashes shape) :
    ∃ as bs, IsIndex shape as ∧ IsIndex shape bs ∧ as ≠ bs ∧ elementName as = elementName bs := by
  obtain ⟨before, first, between, last, after, rfl, hc⟩ := h
  have hsub : ∀ {part : List Nat}, part ⊆ before ++ first :: (between ++ last :: after) → ∀ n ∈ part, 0 < n :=
    fun hs n hn => hpos n (hs hn)
  obtain ⟨as, bs, ha, hb, hne, he⟩ := between_of_clash (hsub fun n hn => by simp [hn]) hc
  have hbefore : IsIndex before (before.map fun _ => 0) := const_isIndex (hsub fun n hn => by simp [hn])
  have hafter : IsIndex after (after.map fun _ => 0) := const_isIndex (hsub fun n hn => by simp [hn])
  have hshape : before ++ first :: (between ++ last :: after) = before ++ (first :: (between ++ [last]) ++ after) := by simp
  rw [hshape]
  refine ⟨_, _, isIndex_append hbefore (isIndex_append ha hafter), isIndex_append hbefore (isIndex_append hb hafter),
    fun h => hne (List.append_cancel_right (List.append_cancel_left h)), ?_⟩
  rw [name_append, name_append, name_append, name_append, he]

/-- The names are different exactly if a dimension is empty or no two dimensions clash. -/
theorem nodup_names_iff (shape : List Nat) :
    (defaultElementNames shape).Nodup ↔ ¬ ((∀ n ∈ shape, 0 < n) ∧ Clashes shape) := by
  rw [defaultElementNames_eq]
  constructor
  · rintro hn ⟨hpos, hc⟩
    obtain ⟨as, bs, ha, hb, hne, he⟩ := same_of_clashes hpos hc
    exact hne (List.inj_on_of_nodup_map hn (mem_indices.mpr ha) (mem_indices.mpr hb) he)
  · intro hc
    refine List.Nodup.map_on (fun as ha bs hb he => ?_) (nodup_indices shape)
    have ha := mem_indices.mp ha
    have hb := mem_indices.mp hb
    by_contra hne
    refine hc ⟨fun n hn => ?_, clashes_of_same ha hb hne he⟩
    obtain ⟨x, -, hx⟩ := exists_of_mem_right ha hn
    omega

/-! ## What a query selects -/

section
variable {F : Type} {lang : Lang F} {ctx : Context} {e : AstNode F} {part : ComponentPart} {c : Component} {shape index : List Nat}

/-- No element is called `time`. -/
theorem name_ne_time (index : List Nat) : elementName index ≠ str "time" := by
  have hletters : ∀ x < 8, 'i' ∉ elementText x := by decide
  have htext : ∀ x, 'i' ∉ elementText x := by
    intro x hi
    rcases Nat.lt_or_ge x 8 with h | h
    · exact hletters x h hi
    · exact absurd (isDigit_of_mem_text h hi) (by decide)
  intro h
  have hi : 'i' ∈ elementName index := h ▸ by decide
  obtain ⟨x, -, hx⟩ := List.mem_flatMap.mp hi
  exact htext x hx

/-- With different names, each is found at the place of its index. -/
theorem idxOf?_name (hn : (defaultElementNames shape).Nodup) (h : IsIndex shape index) :
    (defaultElementNames shape).idxOf? (elementName index) = some (rowMajor shape index) := by
  obtain ⟨hget, -⟩ := getElem?_rowMajor h
  have hname : (defaultElementNames shape)[rowMajor shape index]? = some (elementName index) := by
    rw [defaultElementNames_eq, List.getElem?_map, hget, Option.map_some]
  obtain ⟨hlt, hat⟩ := List.getElem?_eq_some_iff.mp hname
  refine List.idxOf?_eq_some_iff.mpr ⟨hlt, hat, fun j hj he => ?_⟩
  have := (List.Nodup.getElem_inj_iff hn).mp (he.trans hat.symm)
  omega

theorem toSql_element (hc : part.component = some c) (hn : c.elementNames = defaultElementNames shape)
    (hsize : shape.prod < 2 ^ 64) (h : IsIndex shape index) :
    (Expr.arrayAccess (.componentPart part) (rowMajor shape index)).toSql lang ctx =
      .ok (str "select " ++ (replaceDots part.name ++ str "." ++ elementField (replaceDots part.name) (rowMajor shape index) ++
        str " as '" ++ (c.name ++ str "." ++ elementName index) ++ str "'") ++ str " from " ++ replaceDots part.name) := by
  obtain ⟨hget, hlt⟩ := getElem?_rowMajor h
  have hname : c.elementNames[rowMajor shape index]? = some (elementName index) := by
    rw [hn, defaultElementNames_eq, List.getElem?_map, hget, Option.map_some]
  have hcolumn : (Expr.arrayAccess (F := F) (.componentPart part) (rowMajor shape index)).toColumnName =
      some (c.name ++ str "." ++ elementName index) := by
    simp only [Expr.toColumnName, hc, Option.bind_eq_bind, Option.bind_some, hname]
    rfl
  have hfield : (Expr.arrayAccess (F := F) (.componentPart part) (rowMajor shape index)).toField lang =
      .ok (elementField (replaceDots part.name) (rowMajor shape index)) := by
    rw [Expr.toField, if_pos (by rw [hc]; rfl), Nat.mod_eq_of_lt (show rowMajor shape index + 1 < 18446744073709551616 by omega)]
    rfl
  have hselect : Expr.toSelectPart lang (Expr.arrayAccess (.componentPart part) (rowMajor shape index)) =
      .ok (replaceDots part.name ++ str "." ++ elementField (replaceDots part.name) (rowMajor shape index) ++ str " as '" ++
        (c.name ++ str "." ++ elementName index) ++ str "'") := by
    rw [Expr.toSelectPart, hcolumn]
    simp only [Expr.toQualifiedField, Expr.toTable, hfield]
    rfl
  simp only [Expr.toSql, hselect]
  rfl

theorem parse_element (he : ctx.parse lang e = .ok (.componentPart part)) (hc : part.component = some c)
    (hn : c.elementNames = defaultElementNames shape) (hd : (defaultElementNames shape).Nodup) (h : IsIndex shape index) :
    ctx.parse lang (.field e (elementName index)) = .ok (.arrayAccess (.componentPart part) (rowMajor shape index)) := by
  rw [Context.parse, he]
  show Context.fieldOf (.componentPart part) (elementName index) = _
  simp only [Context.fieldOf, hc]
  rw [if_neg (name_ne_time index), hn, idxOf?_name hd h]

/-- The names are those of the indices in row-major order; they are different, and each selects its element, exactly
if a dimension is empty or no two dimensions clash. -/
theorem elements_selected_iff (he : ctx.parse lang e = .ok (.componentPart part)) (hc : part.component = some c)
    (hn : c.elementNames = defaultElementNames shape) (hsize : shape.prod < 2 ^ 64) :
    (defaultElementNames shape = (indices shape).map elementName ∧ (indices shape).length = shape.prod ∧
      ∀ index, IsIndex shape index → (indices shape)[rowMajor shape index]? = some index) ∧
    ((defaultElementNames shape).Nodup ∧ (∀ index, IsIndex shape index → Selects lang ctx e part c shape index) ↔
      ¬ ((∀ n ∈ shape, 0 < n) ∧ Clashes shape)) := by
  refine ⟨⟨defaultElementNames_eq shape, length_indices shape, fun index h => (getElem?_rowMajor h).1⟩, ?_⟩
  rw [← nodup_names_iff]
  exact ⟨And.left, fun hd => ⟨hd, fun index h => ⟨parse_element he hc hn hd h, toSql_element hc hn hsize h⟩⟩⟩

end

/-- A component of two by three elements. -/
def matrixPart : ComponentPart :=
  ⟨str "m", 0, some ⟨str "m", 0, defaultElementNames [2, 3]⟩, fun _ => none⟩

def matrixContext : Context := ⟨fun name => if name = str "m" then some matrixPart else none, 0, 0⟩

theorem elements_selected_matrix :
    Selects Lang.ascii matrixContext (.ident (str "m")) matrixPart ⟨str "m", 0, defaultElementNames [2, 3]⟩ [2, 3] [1, 2] := by
  have hc : ¬ ((∀ n ∈ [2, 3], 0 < n) ∧ Clashes [2, 3]) := by
    rintro ⟨-, before, first, between, last, after, he, hclash⟩
    have hmem : first ∈ [2, 3] := he ▸ List.mem_append_right _ List.mem_cons_self
    have hle : first ≤ 3 := by
      simp only [List.mem_cons, List.not_mem_nil, or_false] at hmem
      omega
    rcases hclash with ⟨h, -⟩ | ⟨h, -⟩ <;> omega
  exact ((elements_selected_iff rfl rfl rfl (by decide)).2.mpr hc).2 [1, 2] (.cons (by decide) (.cons (by decide) .nil))

/-- 81, 8 and 8, 18 have the same name. -/
theorem same_name : IsIndex [82, 19] [81, 8] ∧ IsIndex [82, 19] [8, 18] ∧ elementName [81, 8] = str "818" ∧
    elementName [8, 18] = str "818" ∧ ¬ (defaultElementNames [82, 19]).Nodup := by
  refine ⟨.cons (by decide) (.cons (by decide) .nil), .cons (by decide) (.cons (by decide) .nil), by decide, by decide, ?_⟩
  rw [nodup_names_iff, not_not]
  exact ⟨by decide, [], 82, [], 19, [], rfl, .inl ⟨by decide, by decide, fun _ hn => nomatch hn⟩⟩

end Metor.Proof.Eql
