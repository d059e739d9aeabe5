import Mathlib.Data.List.Infix
import Metor.Spec.Eql.Context

/-!
# The tree of components

What one component changes in the tree, path by path (`look_addComponent`), and
that a tree is what is found in it (`parts_ext`). So components whose paths go
apart may come in any order (`addComponent_comm`).
-/

namespace Metor.Proof.Eql

open Metor.Impl.Eql

/-! ## Names and paths -/

section
variable {s : Str} {c : Char}

theorem splitDots_ne_nil (s : Str) : splitDots s ≠ [] := List.splitOn_ne_nil '.' s

theorem splitDots_cons_dot : splitDots ('.' :: s) = [] :: splitDots s := by
  rw [splitDots, List.splitOn_cons_eq_if_modifyHead]
  rfl

theorem splitDots_cons (hc : c ≠ '.') : splitDots (c :: s) = (splitDots s).modifyHead (c :: ·) := by
  rw [splitDots, List.splitOn_cons_eq_if_modifyHead, beq_eq_false_iff_ne.mpr hc]
  rfl

theorem joinDots_splitDots (s : Str) : joinDots (splitDots s) = s := List.intercalate_splitOn ..

theorem joinDots_nil_cons (n : Str) (ns : List Str) : joinDots ([] :: n :: ns) = '.' :: joinDots (n :: ns) :=
  List.intercalate_cons_cons

theorem dotIndices_cons (c : Char) (s : Str) :
    dotIndices (c :: s) = (if c = '.' then [0] else []) ++ (dotIndices s).map (· + 1) := by
  rw [dotIndices, List.length_cons, List.range_succ_eq_map, List.filter_cons, List.filter_map]
  split
  · rename_i h
    have hc : c = '.' := by simpa using h
    rw [if_pos hc]
    rfl
  · rename_i h
    have hc : c ≠ '.' := by simpa using h
    rw [if_neg hc]
    rfl

theorem fromName_cons_dot : fromName ('.' :: s) = [] :: (fromName s).map ('.' :: ·) := by
  rw [fromName, dotIndices_cons, if_pos rfl, fromName, List.map_append, List.map_append, List.map_map, List.map_map]
  rfl

theorem fromName_cons (hc : c ≠ '.') : fromName (c :: s) = (fromName s).map (c :: ·) := by
  rw [fromName, dotIndices_cons, if_neg hc, fromName, List.map_append, List.map_append, List.map_map, List.map_map]
  rfl

/-- The names of the parts are those of the beginnings of the path. -/
theorem fromName_eq (s : Str) : fromName s = (splitDots s).inits.tail.map joinDots := by
  induction s with
  | nil => rfl
  | cons c s ih =>
    obtain ⟨h, t, he⟩ := List.exists_cons_of_ne_nil (splitDots_ne_nil s)
    rw [he, List.inits_cons, List.tail_cons, List.map_map] at ih
    by_cases hc : c = '.'
    · rw [hc, fromName_cons_dot, splitDots_cons_dot, he, ih, List.inits_cons, List.tail_cons, List.map_map, List.map_map,
        List.inits_cons, List.map_cons, List.map_map]
      have hempty : joinDots [[]] = [] := List.intercalate_singleton
      exact congrArg₂ _ hempty.symm (List.map_congr_left fun q _ => (joinDots_nil_cons h q).symm)
    · rw [fromName_cons hc, splitDots_cons hc, he, ih, List.modifyHead_cons, List.inits_cons, List.tail_cons, List.map_map,
        List.map_map]
      exact List.map_congr_left fun q _ => List.intercalate_cons_cons_left.symm

/-- The names and segments on the way down a path from the node of a path. -/
def steps (pre : List Str) : List Str → List (Str × Str)
  | [] => []
  | n :: ns => (joinDots (pre ++ [n]), n) :: steps (pre ++ [n]) ns

theorem zip_inits (pre l : List Str) : (l.inits.tail.map fun q => joinDots (pre ++ q)).zip l = steps pre l := by
  induction l generalizing pre with
  | nil => rfl
  | cons n l ih =>
    obtain ⟨q, hq⟩ : ∃ q, l.inits = [] :: q := by cases l <;> exact ⟨_, rfl⟩
    have hcons : (n :: l).inits.tail = [n] :: (l.inits.tail.map (n :: ·)) := by
      rw [List.inits_cons, List.tail_cons, hq]
      rfl
    rw [steps, ← ih, hcons, List.map_cons, List.map_map, List.zip_cons_cons]
    refine congrArg _ (congrArg (List.zip · l) (List.map_congr_left fun p _ => ?_))
    show joinDots (pre ++ n :: p) = joinDots (pre ++ [n] ++ p)
    rw [List.append_assoc]
    rfl

theorem take_steps (pre ns : List Str) (n : Str) : (steps pre (ns ++ [n])).take ns.length = steps pre ns := by
  induction ns generalizing pre with
  | nil => rfl
  | cons m ns ih => exact congrArg _ (ih (pre ++ [m]))

/-- The loop of `from_leaves` goes down all but the last segment. -/
theorem addComponent_eq (componentId : Str → UInt64) (parts : Parts) (c : Component) {ns : List Str} {n : Str}
    (h : c.path = ns ++ [n]) : addComponent componentId parts c = insertLeaf componentId c n (steps [] ns) parts := by
  have hpath : splitDots c.name = ns ++ [n] := h
  have hnames : fromName c.name = (ns ++ [n]).inits.tail.map fun q => joinDots ([] ++ q) := by
    rw [fromName_eq, hpath]
    rfl
  have hlen : (fromName c.name).length - 1 = ns.length := by
    rw [hnames, List.length_map, List.length_tail, List.length_inits, List.length_append]
    rfl
  have hsteps : ((fromName c.name).zip (splitDots c.name)).take ((fromName c.name).length - 1) = steps [] ns := by
    rw [hlen, hpath, hnames, zip_inits, take_steps]
  have hlast : (splitDots c.name).getLastD [] = n := by rw [hpath]; simp
  show insertLeaf componentId c ((splitDots c.name).getLastD [])
    (((fromName c.name).zip (splitDots c.name)).take ((fromName c.name).length - 1)) parts = _
  rw [hsteps, hlast]

end

/-! ## What is found in a tree -/

/-- The node of a path. -/
def find (parts : Parts) : List Str → Option ComponentPart
  | [] => none
  | [n] => parts n
  | n :: m :: ns => (parts n).bind fun p => find p.children (m :: ns)

/-- A node without its children: its name, id and component. -/
def look (parts : Parts) (path : List Str) : Option (Str × UInt64 × Option Component) :=
  (find parts path).map fun p => (p.name, p.id, p.component)

section
variable {parts parts' : Parts}

theorem find_cons {n : Str} {ns : List Str} (h : ns ≠ []) :
    find parts (n :: ns) = (parts n).bind fun p => find p.children ns := by
  cases ns with
  | nil => exact absurd rfl h
  | cons m ns => rfl

theorem find_concat {q : List Str} (hq : q ≠ []) (n : Str) :
    find parts (q ++ [n]) = (find parts q).bind fun p => p.children n := by
  induction q generalizing parts with
  | nil => exact absurd rfl hq
  | cons m q ih =>
    cases q with
    | nil => rfl
    | cons m' q =>
      rw [List.cons_append, find_cons (by simp), find_cons (by simp), Option.bind_assoc]
      exact congrArg _ (funext fun p => ih (by simp))

theorem look_cons {n : Str} {ns : List Str} (h : ns ≠ []) :
    look parts (n :: ns) = (parts n).bind fun p => look p.children ns := by
  unfold look
  rw [find_cons h, Option.map_bind]
  rfl

/-- Two nodes with the same name, id and component, and the same below them. -/
def SameLook (p p' : ComponentPart) : Prop :=
  (p.name, p.id, p.component) = (p'.name, p'.id, p'.component) ∧ ∀ q, look p.children q = look p'.children q

theorem parts_ext_of (hp : ∀ n, ∀ p ∈ parts n, ∀ p', SameLook p p' → p = p')
    (h : ∀ q, look parts q = look parts' q) : parts = parts' := by
  funext n
  have hn : (parts n).map (fun p => (p.name, p.id, p.component)) = (parts' n).map fun p => (p.name, p.id, p.component) :=
    h [n]
  cases hc : parts n with
  | none =>
    rw [hc] at hn
    exact (Option.map_eq_none_iff.mp hn.symm).symm
  | some p =>
    rw [hc] at hn
    obtain ⟨p', hc', hhead⟩ := Option.map_eq_some_iff.mp hn.symm
    rw [hc']
    refine congrArg some (hp n p hc p' ⟨hhead.symm, fun q => ?_⟩)
    cases q with
    | nil => rfl
    | cons m q =>
      have hq := h (n :: m :: q)
      rw [look_cons (by simp), look_cons (by simp), hc, hc'] at hq
      exact hq

theorem part_ext (p : ComponentPart) : ∀ p', SameLook p p' → p = p' := by
  refine @ComponentPart.rec (fun p => ∀ p', SameLook p p' → p = p') (fun o => ∀ p ∈ o, ∀ p', SameLook p p' → p = p')
    (fun name id component children ih => ?_) (fun _ h => absurd h (by simp)) (fun p ih q hq => ?_) p
  · rintro ⟨name', id', component', children'⟩ ⟨hhead, hchildren⟩
    obtain ⟨rfl, hhead⟩ := Prod.mk.inj hhead
    obtain ⟨rfl, rfl⟩ := Prod.mk.inj hhead
    rw [show children = children' from parts_ext_of ih hchildren]
  · rw [← Option.some.inj hq]
    exact ih

/-- A tree is what is found in it. -/
theorem parts_ext (h : ∀ q, look parts q = look parts' q) : parts = parts' :=
  parts_ext_of (fun _ p _ => part_ext p) h

/-! ## One component -/

variable {componentId : Str → UInt64}

theorem look_update_ne {m n : Str} {o : Option ComponentPart} {ns : List Str} (h : m ≠ n) :
    look (Function.update parts n o) (m :: ns) = look parts (m :: ns) := by
  cases ns with
  | nil =>
    show (Function.update parts n o m).map _ = (parts m).map _
    rw [Function.update_of_ne h]
  | cons k ns => rw [look_cons (by simp), look_cons (by simp), Function.update_of_ne h]

theorem look_update_self {n : Str} {p : ComponentPart} {ns : List Str} (h : ns ≠ []) :
    look (Function.update parts n (some p)) (n :: ns) = look p.children ns := by
  rw [look_cons h, Function.update_self]
  rfl

theorem look_none (ns : List Str) : look (fun _ => none) ns = none := by
  cases ns with
  | nil => rfl
  | cons n ns => cases ns <;> rfl

/-- What inserting at a path changes: the leaf, the nodes above it that were missing, and all below it. -/
theorem look_insertLeaf (c : Component) (n : Str) (pre ns : List Str) {q : List Str} (hq : q ≠ []) :
    look (insertLeaf componentId c n (steps pre ns) parts) q =
      if q = ns ++ [n] then some (c.name, c.id, some c)
      else if ns ++ [n] <+: q then none
      else if q <+: ns then some ((look parts q).getD (joinDots (pre ++ q), componentId (joinDots (pre ++ q)), none))
      else look parts q := by
  induction ns generalizing pre parts q with
  | nil =>
    obtain ⟨m, q, rfl⟩ := List.exists_cons_of_ne_nil hq
    rw [steps, insertLeaf, List.nil_append]
    by_cases hm : m = n
    · subst hm
      cases q with
      | nil =>
        rw [if_pos rfl, look, find, Function.update_self]
        rfl
      | cons k q =>
        rw [if_neg (by simp), if_pos (List.cons_prefix_cons.mpr ⟨rfl, List.nil_prefix⟩), look_update_self (by simp), look_none]
    · have hpre : ¬ [n] <+: m :: q := fun h => hm (List.cons_prefix_cons.mp h).1.symm
      rw [if_neg (fun h => hm (List.cons.inj h).1), if_neg hpre, if_neg (by simp), look_update_ne hm]
  | cons m ns ih =>
    obtain ⟨k, q, rfl⟩ := List.exists_cons_of_ne_nil hq
    rw [steps, insertLeaf]
    by_cases hk : k = m
    · subst hk
      simp only [List.cons_append, List.cons.injEq, true_and, List.prefix_cons_inj]
      cases q with
      | nil =>
        rw [if_neg (by simp), if_neg (by simp), if_pos List.nil_prefix, look, find, Function.update_self, look, find]
        cases parts k <;> rfl
      | cons j q =>
        have hlook (d : ComponentPart) (hd : d.children = fun _ => none) :
            look ((parts k).getD d).children (j :: q) = look parts (k :: j :: q) := by
          rw [look_cons (List.cons_ne_nil j q)]
          cases parts k with
          | none => rw [Option.getD_none, hd, look_none]; rfl
          | some p => rfl
        rw [look_update_self (by simp), ih (pre ++ [k]) (by simp), List.append_assoc, hlook _ rfl]
        rfl
    · have hne : k :: q ≠ m :: ns ++ [n] := fun h => hk (List.cons.inj h).1
      have hpre : ¬ m :: ns ++ [n] <+: k :: q := fun h => hk (List.cons_prefix_cons.mp h).1.symm
      have hpre' : ¬ k :: q <+: m :: ns := fun h => hk (List.cons_prefix_cons.mp h).1
      rw [if_neg hne, if_neg hpre, if_neg hpre', look_update_ne hk]

/-- A node that is made on the way to a component. -/
def missing (componentId : Str → UInt64) (q : List Str) : Str × UInt64 × Option Component :=
  (joinDots q, componentId (joinDots q), none)

/-- What one component changes in the tree. -/
theorem look_addComponent (parts : Parts) (c : Component) {q : List Str} (hq : q ≠ []) :
    look (addComponent componentId parts c) q =
      if q = c.path then some (c.name, c.id, some c)
      else if c.path <+: q then none
      else if q <+: c.path then some ((look parts q).getD (missing componentId q))
      else look parts q := by
  obtain ⟨ns, n, h⟩ := (List.eq_nil_or_concat c.path).resolve_left (splitDots_ne_nil c.name)
  rw [List.concat_eq_append] at h
  rw [addComponent_eq componentId parts c h, look_insertLeaf c n [] ns hq, h]
  by_cases h1 : q = ns ++ [n]
  · rw [if_pos h1, if_pos h1]
  · have hpre : q <+: ns ++ [n] ↔ q <+: ns := by
      rw [List.prefix_concat_iff]
      exact or_iff_right h1
    simp only [if_neg h1, hpre]
    exact rfl

/-- Components whose paths go apart may come in any order. -/
theorem addComponent_comm (parts : Parts) {c d : Component} (hcd : ¬ c.path <+: d.path) (hdc : ¬ d.path <+: c.path) :
    addComponent componentId (addComponent componentId parts c) d =
      addComponent componentId (addComponent componentId parts d) c := by
  refine parts_ext fun q => ?_
  by_cases hq : q = []
  · rw [hq]
    rfl
  rw [look_addComponent _ d hq, look_addComponent _ c hq, look_addComponent _ c hq, look_addComponent _ d hq]
  by_cases hc : c.path <+: q
  · have h1 : ¬ d.path <+: q := fun h => by
      rcases List.prefix_or_prefix_of_prefix hc h with h | h
      · exact hcd h
      · exact hdc h
    have h2 : q ≠ d.path := fun h => h1 (h ▸ List.prefix_rfl)
    have h3 : ¬ q <+: d.path := fun h => hcd (hc.trans h)
    rw [if_neg h2, if_neg h1, if_neg h3, if_neg h2, if_neg h1, if_neg h3]
  · have h1 : q ≠ c.path := fun h => hc (h ▸ List.prefix_rfl)
    rw [if_neg h1, if_neg hc, if_neg h1, if_neg hc]
    by_cases hd : d.path <+: q
    · have h3 : ¬ q <+: c.path := fun h => hdc (hd.trans h)
      rw [if_neg h3, if_neg h3]
    · have h2 : q ≠ d.path := fun h => hd (h ▸ List.prefix_rfl)
      rw [if_neg h2, if_neg hd, if_neg h2, if_neg hd]
      by_cases h3 : q <+: c.path
      · rw [if_pos h3, if_pos h3]
        by_cases h4 : q <+: d.path
        · rw [if_pos h4, if_pos h4]
        · rw [if_neg h4, if_neg h4]
      · rw [if_neg h3, if_neg h3]

/-! ## All components -/

/-- The tree of `from_leaves`. -/
def treeOf (componentId : Str → UInt64) (components : List Component) : Parts :=
  components.foldl (addComponent componentId) fun _ => none

theorem treeOf_concat (components : List Component) (c : Component) :
    treeOf componentId (components ++ [c]) = addComponent componentId (treeOf componentId components) c := by
  unfold treeOf
  rw [List.foldl_append]
  rfl

/-- Each node has the name of its path, and a component stands at its own path. -/
theorem look_treeOf {components : List Component} {q : List Str} {name : Str} {id : UInt64} {o : Option Component}
    (h : look (treeOf componentId components) q = some (name, id, o)) :
    name = joinDots q ∧ ∀ c, o = some c → c ∈ components ∧ c.path = q := by
  induction components using List.reverseRecOn generalizing name id o with
  | nil =>
    replace h : look (fun _ => none) q = some (name, id, o) := h
    rw [look_none] at h
    exact absurd h (by simp)
  | append_singleton components d ih =>
    have hq : q ≠ [] := by
      rintro rfl
      exact absurd h (by simp [look, find])
    rw [treeOf_concat, look_addComponent _ d hq] at h
    have old (h : look (treeOf componentId components) q = some (name, id, o)) :
        name = joinDots q ∧ ∀ c, o = some c → c ∈ components ++ [d] ∧ c.path = q := by
      obtain ⟨hname, hc⟩ := ih h
      exact ⟨hname, fun c ho => ⟨List.mem_append_left _ (hc c ho).1, (hc c ho).2⟩⟩
    split at h
    · rename_i hqd
      obtain ⟨rfl, hrest⟩ := Prod.mk.inj (Option.some.inj h)
      obtain ⟨-, rfl⟩ := Prod.mk.inj hrest
      refine ⟨by rw [hqd]; exact (joinDots_splitDots d.name).symm, fun c hc => ?_⟩
      rw [← Option.some.inj hc]
      exact ⟨List.mem_append_right _ List.mem_cons_self, hqd.symm⟩
    · split at h
      · exact absurd h (by simp)
      · split at h
        · cases hl : look (treeOf componentId components) q with
          | none =>
            rw [hl] at h
            obtain ⟨rfl, hrest⟩ := Prod.mk.inj (Option.some.inj h)
            obtain ⟨-, rfl⟩ := Prod.mk.inj hrest
            exact ⟨rfl, fun c hc => absurd hc (by simp)⟩
          | some x =>
            rw [hl] at h
            exact old (by rw [hl]; exact h)
        · exact old h

theorem look_nil (parts : Parts) : look parts [] = none := rfl

/-- A component stands at each node or below it. -/
theorem exists_below {components : List Component} {q : List Str} {x : Str × UInt64 × Option Component}
    (h : look (treeOf componentId components) q = some x) :
    ∃ r y c, q <+: r ∧ look (treeOf componentId components) r = some y ∧ y.2.2 = some c := by
  induction components using List.reverseRecOn generalizing x with
  | nil =>
    replace h : look (fun _ => none) q = some x := h
    rw [look_none] at h
    exact absurd h (by simp)
  | append_singleton components d ih =>
    have hq : q ≠ [] := by
      rintro rfl
      rw [look_nil] at h
      exact absurd h (by simp)
    by_cases hd : q <+: d.path
    · have hd' : d.path ≠ [] := splitDots_ne_nil d.name
      exact ⟨d.path, _, d, hd, by rw [treeOf_concat, look_addComponent _ d hd', if_pos rfl], rfl⟩
    · rw [treeOf_concat, look_addComponent _ d hq, if_neg (fun he : q = d.path => hd (he ▸ List.prefix_rfl))] at h
      split at h
      · exact absurd h (by simp)
      · rename_i hdq
        obtain ⟨r, y, c, hqr, hr, hc⟩ := ih h
        refine ⟨r, y, c, hqr, ?_, hc⟩
        have hr' : r ≠ [] := fun he => hq (List.prefix_nil.mp (he ▸ hqr))
        have h1 : r ≠ d.path := fun he => hd (he ▸ hqr)
        have h2 : ¬ d.path <+: r := fun he => by
          rcases List.prefix_or_prefix_of_prefix hqr he with h | h
          · exact hd h
          · exact hdq h
        have h3 : ¬ r <+: d.path := fun he => hd (hqr.trans he)
        rw [treeOf_concat, look_addComponent _ d hr', if_neg h1, if_neg h2, if_neg h3, hr]

theorem find_of_look {parts : Parts} {q : List Str} {x : Str × UInt64 × Option Component} (h : look parts q = some x) :
    ∃ part, find parts q = some part ∧ part.component = x.2.2 := by
  obtain ⟨part, hf, rfl⟩ := Option.map_eq_some_iff.mp h
  exact ⟨part, hf, rfl⟩

/-- The first component on a path, from a node on. -/
theorem exists_first {q r : List Str} {part : ComponentPart} {c : Component} (hqr : q <+: r)
    (hf : find parts r = some part) (hc : part.component = some c) :
    ∃ r' part' c', q <+: r' ∧ find parts r' = some part' ∧ part'.component = some c' ∧
      ∀ p, q <+: p → p <+: r' → p ≠ r' → ∀ part'' ∈ find parts p, part''.component = none := by
  induction hn : r.length using Nat.strong_induction_on generalizing r part c with
  | _ n ih =>
    by_cases h : ∀ p, q <+: p → p <+: r → p ≠ r → ∀ part'' ∈ find parts p, part''.component = none
    · exact ⟨r, part, c, hqr, hf, hc, h⟩
    · simp only [not_forall] at h
      obtain ⟨p, hqp, hpr, hne, part₁, hf₁, hc₁⟩ := h
      obtain ⟨c₁, hc₁⟩ := Option.ne_none_iff_exists'.mp hc₁
      have hlt : p.length < n := by
        rw [← hn]
        exact Nat.lt_of_le_of_ne hpr.length_le fun he => hne (hpr.eq_of_length he)
      exact ih p.length hlt hqp hf₁ hc₁ rfl

end

end Metor.Proof.Eql
