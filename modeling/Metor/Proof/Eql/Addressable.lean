import Mathlib.Data.List.Nodup
import Metor.Lib.Except
import Metor.Proof.Eql.Accepted
import Metor.Proof.Eql.Tree

/-!
# Names of components

A name is followed segment by segment (`parse_path`), and only a name resolves
to a part of the tree (`path_of_part`). So every component has its name in every
order of registration just when the names are readable and none stands below
another (`addressable_iff`).
-/

namespace Metor.Proof.Eql

open Metor.Lib Metor.Impl.Eql Metor.Impl.Eql.Grammar

section
variable {F : Type} {lang : Lang F} {ctx : Context} {xid : Xid} {floats : Floats F}

/-! ## Names as expressions -/

/-- A name as an expression. -/
def pathSrc (n : Str) (ns : List Str) : Src := ns.foldl Src.field (.ident n)

def pathAst (n : Str) (ns : List Str) : AstNode F := ns.foldl AstNode.field (.ident n)

theorem ast_pathSrc (n : Str) (ns : List Str) : (pathSrc n ns).ast floats = pathAst n ns := by
  induction ns using List.reverseRecOn with
  | nil => rfl
  | append_singleton ns m ih =>
    rw [pathSrc, pathAst, List.foldl_append, List.foldl_append]
    exact congrArg (AstNode.field · m) ih

theorem joinDots_concat {q : List Str} (hq : q ≠ []) (m : Str) : joinDots (q ++ [m]) = joinDots q ++ '.' :: m := by
  induction q with
  | nil => exact absurd rfl hq
  | cons n q ih =>
    cases q with
    | nil =>
      show joinDots [n, m] = joinDots [n] ++ _
      rw [joinDots, List.intercalate_cons_cons, List.intercalate_singleton, joinDots, List.intercalate_singleton,
        List.append_assoc]
      rfl
    | cons k q =>
      replace ih : joinDots (k :: (q ++ [m])) = joinDots (k :: q) ++ '.' :: m := ih (by simp)
      show joinDots (n :: k :: (q ++ [m])) = joinDots (n :: k :: q) ++ _
      rw [joinDots] at ih ⊢
      rw [List.intercalate_cons_cons, ih, joinDots, joinDots, List.intercalate_cons_cons, List.append_assoc,
        List.append_assoc, List.append_assoc]

theorem print_pathSrc (n : Str) (ns : List Str) : (pathSrc n ns).print = joinDots (n :: ns) := by
  induction ns using List.reverseRecOn with
  | nil => exact List.intercalate_singleton.symm
  | append_singleton ns m ih =>
    have hq : n :: ns ≠ [] := List.cons_ne_nil n ns
    rw [← List.cons_append, joinDots_concat hq, ← ih, pathSrc, List.foldl_append]
    rfl

theorem written_pathSrc {n : Str} {ns : List Str} (hn : ∀ s ∈ n :: ns, Src.IsXid xid s) (hb : ¬ Src.StartsWithBool n) :
    (pathSrc n ns).Written xid ∧ 2 ≤ (pathSrc n ns).prec ∧ (pathSrc n ns).Follow xid ['.'] := by
  induction ns using List.reverseRecOn with
  | nil => exact ⟨⟨hn n List.mem_cons_self, hb⟩, Nat.le_refl 2, stops_dot_isContinue⟩
  | append_singleton ns m ih =>
    obtain ⟨hw, hp, hf⟩ := ih fun s hs => hn s (by
      rw [← List.cons_append]
      exact List.mem_append_left _ hs)
    have hm : Src.IsXid xid m := hn m (by simp)
    rw [pathSrc, List.foldl_append]
    exact ⟨⟨hw, hp, hf, hm⟩, Nat.le_refl 2, stops_dot_isContinue, fun c hc => by rw [← Option.some.inj hc]; decide⟩

/-- A readable name is read as its path. -/
theorem expr_path {c : Component} (h : c.Readable xid) :
    ∃ n ns, c.path = n :: ns ∧ expr xid floats c.name = some (pathAst n ns) := by
  obtain ⟨n, ns, he⟩ := List.exists_cons_of_ne_nil (splitDots_ne_nil c.name)
  replace he : c.path = n :: ns := he
  refine ⟨n, ns, he, ?_⟩
  obtain ⟨hxid, hb⟩ := h
  rw [he] at hxid hb
  have hname : (pathSrc n ns).print = c.name := by
    rw [print_pathSrc, ← he]
    exact joinDots_splitDots c.name
  exact expr_eq_some_iff.mpr ⟨pathSrc n ns, (written_pathSrc hxid (hb n rfl)).1, hname, ast_pathSrc n ns⟩

/-! ## Parts of the tree -/

/-- A segment that is no field of the component itself. -/
def Passes (part : ComponentPart) (m : Str) : Prop := ∀ c ∈ part.component, m ≠ str "time" ∧ m ∉ c.elementNames

theorem fieldOf_child {p part : ComponentPart} {m : Str} (h : Passes p m) (hm : p.children m = some part) :
    Context.fieldOf (.componentPart p : Expr F) m = .ok (.componentPart part) := by
  unfold Context.fieldOf
  dsimp only
  cases hc : p.component with
  | none =>
    dsimp only
    rw [hm]
  | some c =>
    obtain ⟨ht, he⟩ := h c hc
    dsimp only
    rw [if_neg ht, List.idxOf?_eq_none_iff.mpr he]
    dsimp only
    rw [hm]

/-- A path is followed, if none of its segments is a field of the component above it. -/
theorem parse_path {n : Str} {ns : List Str}
    (h : ∀ q m, q ≠ [] → q ++ [m] <+: n :: ns → ∀ p ∈ find ctx.componentParts q, Passes p m)
    {part : ComponentPart} (hf : find ctx.componentParts (n :: ns) = some part) :
    ctx.parse lang (pathAst n ns) = .ok (.componentPart part) := by
  induction ns using List.reverseRecOn generalizing part with
  | nil =>
    replace hf : ctx.componentParts n = some part := hf
    show ctx.parse lang (.ident n) = _
    rw [Context.parse, hf]
  | append_singleton ns m ih =>
    rw [← List.cons_append, find_concat (List.cons_ne_nil n ns)] at hf
    obtain ⟨p, hp, hm⟩ := Option.bind_eq_some_iff.mp hf
    have hlt : n :: ns <+: n :: (ns ++ [m]) := ⟨[m], rfl⟩
    have hpass := h (n :: ns) m (List.cons_ne_nil n ns) List.prefix_rfl p hp
    have hast : pathAst n (ns ++ [m]) = (.field (pathAst n ns) m : AstNode F) := by
      rw [pathAst, List.foldl_append]
      rfl
    rw [hast, Context.parse, ih (fun q m hq hqm => h q m hq (hqm.trans hlt)) hp]
    exact fieldOf_child hpass hm

theorem fieldOf_part {e : Expr F} {i : Str} {part : ComponentPart} (h : Context.fieldOf e i = .ok (.componentPart part)) :
    ∃ p, e = .componentPart p ∧ p.children i = some part := by
  unfold Context.fieldOf at h
  split at h
  · rename_i p
    refine ⟨p, rfl, ?_⟩
    split at h
    · split at h
      · exact absurd (Except.ok.inj h) (by simp)
      · split at h
        · exact absurd (Except.ok.inj h) (by simp)
        · dsimp only at h
          split at h
          · rename_i part' hp
            rw [hp, Expr.componentPart.inj (Except.ok.inj h)]
          · exact absurd h (by simp)
    · dsimp only at h
      split at h
      · rename_i part' hp
        rw [hp, Expr.componentPart.inj (Except.ok.inj h)]
      · exact absurd h (by simp)
  · exact absurd h (by simp)

theorem callOf_ne_part (recv : Expr F) (name : Str) (args : List (Expr F)) (part : ComponentPart) :
    Context.callOf lang recv name args ≠ .ok (.componentPart part) := by
  intro h
  have hmap (x : Except Error Int) (f : Int → Expr F) (hf : ∀ d, f d ≠ .componentPart part) :
      x.map f ≠ .ok (.componentPart part) := by
    cases x with
    | error err => exact fun h => absurd h (by simp [Except.map])
    | ok d => exact fun h => hf d (Except.ok.inj h)
  unfold Context.callOf at h
  split at h
  · split at h
    · exact absurd (Except.ok.inj h) (by simp)
    · exact absurd h (by simp)
  · split at h
    · exact absurd (Except.ok.inj h) (by simp)
    · exact absurd h (by simp)
  · split at h
    · exact hmap _ _ (by simp) h
    · split at h
      · exact hmap _ _ (by simp) h
      · exact absurd h (by simp)
  · exact absurd h (by simp)

/-- What resolves to a part of the tree is its path. -/
theorem path_of_part {e : Src} (hw : e.Written lang.xid) {part : ComponentPart}
    (h : ctx.parse lang (e.ast lang.floats) = .ok (.componentPart part)) :
    ∃ n ns, (∀ s ∈ n :: ns, Src.IsXid lang.xid s) ∧ ¬ Src.StartsWithBool n ∧
      find ctx.componentParts (n :: ns) = some part := by
  induction e generalizing part with
  | paren w₁ e w₂ ih => exact ih hw.2.1 h
  | ident s =>
    refine ⟨s, [], List.forall_mem_singleton.mpr hw.1, hw.2, ?_⟩
    rw [Src.ast, Context.parse] at h
    split at h
    · rename_i p hp
      rw [← Expr.componentPart.inj (Except.ok.inj h)]
      exact hp
    · exact absurd h (by simp)
  | field e i ih =>
    rw [Src.ast, Context.parse] at h
    obtain ⟨x, hx, h⟩ := bind_eq_ok_iff.mp h
    obtain ⟨p, rfl, hi⟩ := fieldOf_part h
    obtain ⟨n, ns, hxid, hb, hf⟩ := ih hw.1 hx
    refine ⟨n, ns ++ [i], fun s hs => ?_, hb, ?_⟩
    · rw [← List.cons_append] at hs
      rcases List.mem_append.mp hs with hs | hs
      · exact hxid s hs
      · rw [List.mem_singleton.mp hs]
        exact hw.2.2.2
    · rw [← List.cons_append, find_concat (List.cons_ne_nil n ns), hf]
      exact hi
  | index e ds ih =>
    rw [Src.ast, Context.parse] at h
    obtain ⟨x, hx, h⟩ := bind_eq_ok_iff.mp h
    split at h
    · exact absurd (Except.ok.inj h) (by simp)
    · exact absurd h (by simp)
  | call e i ih =>
    rw [Src.ast, Context.parse] at h
    obtain ⟨x, hx, h⟩ := bind_eq_ok_iff.mp h
    obtain ⟨args, hargs, h⟩ := bind_eq_ok_iff.mp h
    exact absurd h (callOf_ne_part x i args part)
  | callWith e i arg ih =>
    rw [Src.ast, Context.parse] at h
    obtain ⟨x, hx, h⟩ := bind_eq_ok_iff.mp h
    obtain ⟨args, hargs, h⟩ := bind_eq_ok_iff.mp h
    exact absurd h (callOf_ne_part x i args part)
  | binary a w₁ op w₂ b =>
    rw [Src.ast, Context.parse] at h
    obtain ⟨x, hx, h⟩ := bind_eq_ok_iff.mp h
    obtain ⟨y, hy, h⟩ := bind_eq_ok_iff.mp h
    exact absurd (Except.ok.inj h) (by simp)
  | tuple a w b =>
    rw [Src.ast, Context.parse] at h
    obtain ⟨x, hx, h⟩ := bind_eq_ok_iff.mp h
    exact absurd (Except.ok.inj h) (by simp)
  | bool b => exact absurd h (by simp [Src.ast, Context.parse])
  | float sign ds f => exact absurd h (by simp [Src.ast, Context.parse])
  | string s => exact absurd h (by simp [Src.ast, Context.parse])

end

/-! ## Every component has its name -/

section
variable {F : Type} {lang : Lang F} {componentId : Str → UInt64} {components : List Component} {earliest last : Int}

theorem componentParts_fromLeaves :
    (Context.fromLeaves componentId components earliest last).componentParts = treeOf componentId components := rfl

/-- A component that resolves has a readable name, at which it stands in the tree. -/
theorem readable_of_resolves {c : Component}
    (h : Resolves lang (Context.fromLeaves componentId components earliest last) c) :
    c.Readable lang.xid ∧ (find (treeOf componentId components) c.path).isSome := by
  obtain ⟨part, hparse, hc⟩ := h
  unfold Context.parseStr at hparse
  split at hparse
  · rename_i ast hast
    obtain ⟨e, hw, -, rfl⟩ := expr_eq_some_iff.mp hast
    obtain ⟨n, ns, hxid, hb, hf⟩ := path_of_part hw hparse
    have hlook : look (treeOf componentId components) (n :: ns) = some (part.name, part.id, some c) := by
      rw [look, ← componentParts_fromLeaves, hf, ← hc]
      rfl
    obtain ⟨-, hpath⟩ := look_treeOf hlook
    rw [Component.Readable, (hpath c rfl).2]
    refine ⟨⟨hxid, fun s hs => ?_⟩, ?_⟩
    · rw [← Option.some.inj hs]
      exact hb
    · exact Option.isSome_of_mem hf
  · exact absurd hparse (by simp)

/-- The component that came last has its name, if none stands above it. -/
theorem resolves_last {c : Component} (hd : PathsApart lang.xid (components ++ [c])) :
    Resolves lang (Context.fromLeaves componentId (components ++ [c]) earliest last) c := by
  have hmem : c ∈ components ++ [c] := List.mem_append_right _ List.mem_cons_self
  obtain ⟨n, ns, hpath, hexpr⟩ := @expr_path _ _ lang.floats c (hd.readable c hmem)
  have hne : c.path ≠ [] := by rw [hpath]; exact List.cons_ne_nil n ns
  have hleaf : look (treeOf componentId (components ++ [c])) c.path = some (c.name, c.id, some c) := by
    rw [treeOf_concat, look_addComponent _ c hne, if_pos rfl]
  obtain ⟨part, hf, hcomp⟩ := find_of_look hleaf
  rw [hpath] at hf
  refine ⟨part, ?_, hcomp⟩
  rw [Context.parseStr, hexpr]
  refine parse_path (fun q m hq hqm p hp d hd' => ?_) hf
  -- a component above would stand at a shorter path
  have hlook : look (treeOf componentId (components ++ [c])) q = some (p.name, p.id, some d) := by
    rw [← hd']
    exact congrArg _ hp
  obtain ⟨hmem', hdq⟩ := (look_treeOf hlook).2 d rfl
  rw [← hpath, ← hdq] at hqm
  have hsame := hd.apart d hmem' c hmem ((List.prefix_append _ _).trans hqm)
  have hlen := hqm.length_le
  rw [List.length_append, hsame] at hlen
  exact absurd hlen (Nat.not_succ_le_self _)

theorem path_injective {c d : Component} (h : c.path = d.path) : c.name = d.name := by
  rw [← joinDots_splitDots c.name, ← joinDots_splitDots d.name]
  exact congrArg joinDots h

theorem treeOf_perm {components' : List Component} (h : components'.Perm components) (hd : PathsApart xid components)
    (hn : (components.map Component.name).Nodup) : treeOf componentId components' = treeOf componentId components := by
  refine h.foldl_eq' (fun c hc d hd' parts => ?_) _
  by_cases hcd : c = d
  · rw [hcd]
  · have hname : c.path ≠ d.path := fun he =>
      hcd (List.inj_on_of_nodup_map hn (h.subset hc) (h.subset hd') (path_injective he))
    exact addComponent_comm parts (fun hp => hname (hd.apart c (h.subset hc) d (h.subset hd') hp))
      fun hp => hname (hd.apart d (h.subset hd') c (h.subset hc) hp).symm

theorem perm_erase_concat {c : Component} (h : c ∈ components) : (components.erase c ++ [c]).Perm components :=
  (List.perm_append_singleton c _).trans (List.perm_cons_erase h).symm

/-- Every component has its name, in every order of registration, just when the names are readable and no component
stands below another. -/
theorem addressable_iff (lang : Lang F) (componentId : Str → UInt64) (components : List Component) (earliest last : Int)
    (hn : (components.map Component.name).Nodup) :
    Addressable lang componentId components earliest last ↔ PathsApart lang.xid components := by
  constructor
  · intro h
    refine ⟨fun c hc => (readable_of_resolves ((h components (List.Perm.refl _)).2 c hc)).1, fun c hc d hd hp => ?_⟩
    by_contra hne
    have hd' : d ∈ components.erase c ++ [c] := (perm_erase_concat hc).mem_iff.mpr hd
    obtain ⟨-, hf⟩ := readable_of_resolves ((h _ (perm_erase_concat hc)).2 d hd')
    -- nothing is left below the component that came last
    have hgone : look (treeOf componentId (components.erase c ++ [c])) d.path = none := by
      have hne' : d.path ≠ [] := splitDots_ne_nil d.name
      rw [treeOf_concat, look_addComponent _ c hne', if_neg (fun he => hne he.symm), if_pos hp]
    rw [look, Option.map_eq_none_iff] at hgone
    rw [hgone] at hf
    exact absurd hf (by decide)
  · intro hd components' hperm
    refine ⟨treeOf_perm hperm hd hn, fun c hc => ?_⟩
    have hlast := perm_erase_concat hc
    have hd' : PathsApart lang.xid (components'.erase c ++ [c]) :=
      ⟨fun x hx => hd.readable x (hperm.subset (hlast.subset hx)),
        fun x hx y hy => hd.apart x (hperm.subset (hlast.subset hx)) y (hperm.subset (hlast.subset hy))⟩
    have htree : treeOf componentId (components'.erase c ++ [c]) = treeOf componentId components' := by
      rw [treeOf_perm (hlast.trans hperm) hd hn, treeOf_perm hperm hd hn]
    have hctx : Context.fromLeaves componentId (components'.erase c ++ [c]) earliest last =
        Context.fromLeaves componentId components' earliest last := 
      congrArg (fun t => Context.mk t earliest last) htree
    rw [← hctx]
    exact resolves_last hd'

end

/-- `a.x` and `b` -/
def twoNames : List Component := [⟨['a', '.', 'x'], 1, []⟩, ⟨['b'], 2, []⟩]

theorem addressable_two : Addressable .ascii (fun _ => 0) twoNames 0 0 := by
  have hxid {ch : Char} (h : ch.isAlpha) : Src.IsXid .ascii [ch] := ⟨h, fun _ h => absurd h List.not_mem_nil⟩
  refine (addressable_iff .ascii (fun _ => 0) twoNames 0 0 (by decide)).mpr ⟨?_, by decide⟩
  refine List.forall_mem_cons.mpr ⟨⟨List.forall_mem_cons.mpr ⟨hxid (by decide), List.forall_mem_singleton.mpr (hxid (by decide))⟩,
    by decide⟩, List.forall_mem_singleton.mpr ⟨List.forall_mem_singleton.mpr (hxid (by decide)), by decide⟩⟩

/-- `a.x`, and `a`, which replaces what stands below it. -/
def nestedNames : List Component := [⟨['a', '.', 'x'], 1, []⟩, ⟨['a'], 2, []⟩]

theorem replaced_not_addressable : (nestedNames.map Component.name).Nodup ∧
    ¬ Addressable .ascii (fun _ => 0) nestedNames 0 0 := by
  refine ⟨by decide, fun h => ?_⟩
  obtain ⟨part, hparse, -⟩ := (h nestedNames (List.Perm.refl _)).2 _ List.mem_cons_self
  have hgone : (Context.fromLeaves (fun _ => 0) nestedNames 0 0).parseStr .ascii ['a', '.', 'x'] =
      .error (.componentNotFound ['x']) := rfl
  rw [hgone] at hparse
  exact absurd hparse (by simp)

end Metor.Proof.Eql
