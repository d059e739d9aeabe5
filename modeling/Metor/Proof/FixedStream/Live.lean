import Metor.Proof.FixedStream.Tables

/-!
# The components while a stream is sent

Each component stays valid through the steps of its `persist` task
(`Live.Good`, `good_step`), and a step begins its time series only where
`begins` says so (`isEmpty_step`). The steps for one record come to what
`push_buf` does (`steps_pushBuf`). A step of the database adds a component or
changes one (`db_cases`), so components keep their places and keys, and those
that are not empty stay so (`Grows`).
-/

namespace Metor.Proof.FixedStream

open Metor.Lib Metor.Impl.Proto Metor.Impl.Visitor Metor.Impl.FixedStream Metor.Proof.Visitor
open Metor.Impl hiding Component

variable {l l' : Live} {db db' : Db} {is : List Nat}

/-! ## One component -/

/-- What `persist` has in hand. -/
def Holds (l : Live) : Persist → Prop
  | .next => True
  | .push t value => IsI64 t ∧ IsValue l.component.schema value
  | .index t => IsI64 t ∧ ∃ head prev value data, Reachable l.component.schema (head :: prev) ∧
    IsValue l.component.schema value ∧ head.data.write 1 value = .ok data ∧
    l.component.timeSeries = { head with data := data } :: prev

structure Good (l : Live) : Prop where
  valid : l.component.Valid
  wal : ∀ r ∈ l.wal, IsI64 r.1 ∧ IsValue l.component.schema r.2
  persist : Holds l l.persist

/-- With another time series. -/
theorem valid_put (h : l.component.Valid) {list : TimeSeries} (hl : Reachable l.component.schema list) (persist : Persist) :
    (l.put list persist).component.Valid := { h with series := hl }

theorem good_next (h : Good l) : Good { l with persist := .next } := ⟨h.valid, h.wal, trivial⟩

theorem good_createNode (h : Good l) {t : Int} {value : Bytes} (ht : IsI64 t) (hv : IsValue l.component.schema value) :
    Good (l.createNode t value) := by
  rw [Live.createNode]
  split
  · exact good_next h
  · next node hn => exact ⟨valid_put h.valid (.createNode h.valid.series hv hn) _, h.wal, ht, hv⟩

/-- The index is written to the node whose data was: the two are `try_push_buf`. -/
theorem reachable_index {schema : ComponentSchema} {head : TimeSeriesNode} {prev : TimeSeries} {t : Int} {value : Bytes}
    {data : AppendLog Nat UInt8} {index : AppendLog Int Int} (h : Reachable schema (head :: prev)) (ht : IsI64 t)
    (hv : IsValue schema value) (hd : head.data.write 1 value = .ok data) (hi : head.index.write 8 [t] = .ok index) :
    Reachable schema ({ head with data := data, index := index } :: prev) := by
  have hpush := h.push ht hv
  simpa only [TimeSeries.tryPushBuf, hd, hi] using hpush

theorem good_step (h : Good l) (hs : l.step = some l') : Good l' := by
  have hp := h.persist
  rw [Live.step] at hs
  split at hs
  · split at hs
    · cases hs
    next t value wal hw =>
      cases hs
      have hr := h.wal (t, value) (by rw [hw]; exact List.mem_cons_self)
      exact ⟨h.valid, fun r hm => h.wal r (by rw [hw]; exact List.mem_cons_of_mem _ hm), hr⟩
  next t value hpc =>
    rw [hpc] at hp
    obtain ⟨ht, hv⟩ := hp
    split at hs
    · cases hs
      exact good_createNode h ht hv
    next head prev hl =>
      split at hs
      · cases hs
        exact good_createNode h ht hv
      · cases hs
        exact good_next h
      next data hd =>
        cases hs
        have hseries : Reachable l.component.schema (head :: prev) := hl ▸ h.valid.series
        exact ⟨valid_put h.valid (.pushData hseries hv hd) _, h.wal, ht, head, prev, value, data, hseries, hv, hd, rfl⟩
  next t hpc =>
    rw [hpc] at hp
    obtain ⟨ht, head, prev, value, data, hseries, hv, hd, hl⟩ := hp
    rw [hl] at hs
    dsimp only at hs
    split at hs
    · cases hs
      exact good_next h
    next index hi =>
      cases hs
      exact ⟨valid_put h.valid (reachable_index hseries ht hv hd hi) _, h.wal, trivial⟩

theorem sameKey_createNode (l : Live) (t : Int) (value : Bytes) : SameKey l.component (l.createNode t value).component := by
  rw [Live.createNode]
  split <;> exact ⟨rfl, rfl⟩

theorem sameKey_step (hs : l.step = some l') : SameKey l.component l'.component := by
  rw [Live.step] at hs
  repeat' split at hs
  all_goals cases hs
  all_goals first | exact sameKey_createNode l _ _ | exact ⟨rfl, rfl⟩

/-- Unless it begins one, a step leaves the time series empty or not as it is. -/
theorem isEmpty_step (hs : l.step = some l') (hb : l.begins = false) : l'.isEmpty = l.isEmpty := by
  rw [Live.step] at hs
  rw [Live.begins] at hb
  split at hs
  next hpc =>
    split at hs <;> cases hs
    rfl
  next t value hpc =>
    rw [hpc] at hb
    have hnode : (l.createNode t value).isEmpty = l.isEmpty := by
      rw [Live.createNode]
      split
      · rfl
      · exact hb.symm
    split at hs
    · cases hs
      exact hnode
    next head prev hl =>
      split at hs <;> cases hs
      · exact hnode
      · rfl
      · exact hb.symm
  next t hpc =>
    split at hs
    · cases hs
    next head prev hl =>
      have hempty : l.isEmpty = false := by rw [Live.isEmpty, hl]; rfl
      split at hs <;> cases hs
      · rfl
      · exact hempty.symm

theorem isEmpty_of_step (hs : l.step = some l') (hl : l.isEmpty = false) : l'.isEmpty = false := by
  have hb : l.begins = false := by
    rw [Live.begins]
    split
    · exact hl
    · rfl
  rw [isEmpty_step hs hb, hl]

/-- A step of a `persist` task. -/
def Steps (l l' : Live) : Prop := l.step = some l'

/-- Where `try_push_buf` finds no node with room, one step makes a node. -/
theorem steps_createNode {list : TimeSeries} {t : Int} {value : Bytes} (h : (list.tryPushBuf t value).1 = .ok false) :
    Steps (l.put list (.push t value)) ((l.put list (.push t value)).createNode t value) := by
  cases list with
  | nil => exact rfl
  | cons head prev =>
    rw [TimeSeries.tryPushBuf] at h
    cases hd : head.data.write 1 value with
    | error e =>
      simp only [hd] at h
      cases e with
      | mapOverflow => simp only [Steps, Live.step, Live.put, hd]
      | _ => cases h
    | ok data =>
      simp only [hd] at h
      split at h <;> cases h

/-- Otherwise `try_push_buf` is one step or two. -/
theorem steps_tryPushBuf {list : TimeSeries} {t : Int} {value : Bytes} (h : (list.tryPushBuf t value).1 ≠ .ok false) :
    Relation.ReflTransGen Steps (l.put list (.push t value)) (l.put (list.tryPushBuf t value).2 .next) := by
  cases list with
  | nil => exact absurd rfl h
  | cons head prev =>
    rw [TimeSeries.tryPushBuf] at h ⊢
    cases hd : head.data.write 1 value with
    | error e =>
      simp only [hd] at h ⊢
      cases e with
      | mapOverflow => exact absurd rfl h
      | _ => exact .single (by simp only [Steps, Live.step, Live.put, hd])
    | ok data =>
      have hdata : Steps (l.put (head :: prev) (.push t value)) (l.put ({ head with data := data } :: prev) (.index t)) := by
        simp only [Steps, Live.step, Live.put, hd]
      refine .head hdata (.single ?_)
      cases hi : head.index.write 8 [t] <;> simp only [Steps, Live.step, Live.put, hi]

/-- The steps of `persist` for a record come to what `push_buf` makes of the time series. -/
theorem steps_pushBuf (l : Live) (list : TimeSeries) (t : Int) (value : Bytes) :
    Relation.ReflTransGen Steps (l.put list (.push t value)) (l.put (list.pushBuf t value).2 .next) := by
  fun_induction TimeSeries.pushBuf list t value with
  | case1 list e list' he =>
    have hne : (list.tryPushBuf t value).1 ≠ .ok false := by simp [he]
    have htry := steps_tryPushBuf (l := l) hne
    rwa [he] at htry
  | case2 list list' he =>
    have hne : (list.tryPushBuf t value).1 ≠ .ok false := by simp [he]
    have htry := steps_tryPushBuf (l := l) hne
    rwa [he] at htry
  | case3 list list' he e hn =>
    have hstep := steps_createNode (l := l) (congrArg Prod.fst he)
    refine .single (hstep.trans (congrArg some ?_))
    show Live.createNode _ _ _ = _
    rw [Live.createNode, show (l.put list (.push t value)).component.timeSeries = list from rfl, hn]
    rfl
  | case4 list list' he node hn ih =>
    have hstep := steps_createNode (l := l) (congrArg Prod.fst he)
    refine .head (hstep.trans (congrArg some ?_)) ih
    rw [Live.createNode, show (l.put list (.push t value)).component.timeSeries = list from rfl, hn]
    rfl

/-! ## The database -/

/-- What a step of the database does to a component. -/
inductive Changes (act : DbAct) (i : Nat) (l : Live) : Live → Prop
  | pushBuf {t : Int} {value : Bytes} : IsI64 t → IsValue l.component.schema value → Changes act i l (l.pushBuf t value)
  | persist {l' : Live} : act = .persist i → l.step = some l' → Changes act i l l'

/-- A step of the database adds an empty component, or changes one. -/
theorem db_cases {act : DbAct} (h : db.step act = some db') :
    db'.components = db.components ∨
    (∃ id schema, id < 2 ^ 64 ∧ (∀ d ∈ schema.dim, d < 2 ^ 64) ∧
      db'.components = db.components ++ [Live.create id schema]) ∨
    ∃ i l l', db.components[i]? = some l ∧ Changes act i l l' ∧ db'.components = db.components.set i l' := by
  cases act with
  | insertField id schema =>
    rw [FixedStream.Db.step, Db.insertField] at h
    split at h
    next hlt =>
      split at h
      · split at h <;> cases h <;> exact .inl rfl
      · cases h
        exact .inr (.inl ⟨id, schema, hlt.1, hlt.2, rfl⟩)
    · cases h
  | startTable =>
    cases h
    exact .inl rfl
  | applyValue j i t buf room =>
    obtain ⟨sunk, _, h⟩ := Option.bind_eq_some_iff.mp h
    obtain ⟨l, hl, h⟩ := Option.bind_eq_some_iff.mp h
    split at h
    next ht =>
      split at h
      next view hview =>
        cases h
        cases room with
        | false => exact .inl rfl
        | true => exact .inr (.inr ⟨i, l, _, hl, .pushBuf ht ⟨buf, view, hview, rfl⟩, rfl⟩)
      · cases h
    · cases h
  | endTable j ok =>
    obtain ⟨sunk, _, rfl⟩ := Option.map_eq_some_iff.mp h
    refine .inl ?_
    dsimp only
    split <;> rfl
  | persist i =>
    obtain ⟨l, hl, h⟩ := Option.bind_eq_some_iff.mp h
    obtain ⟨l', hs, h⟩ := Option.bind_eq_some_iff.mp h
    cases h
    exact .inr (.inr ⟨i, l, l', hl, .persist rfl hs, rfl⟩)

theorem Changes.sameKey {act : DbAct} {i : Nat} (h : Changes act i l l') : SameKey l.component l'.component := by
  cases h with
  | pushBuf _ _ => exact ⟨rfl, rfl⟩
  | persist _ hs => exact sameKey_step hs

theorem Changes.isEmpty {act : DbAct} {i : Nat} (h : Changes act i l l') (hl : l.isEmpty = false) : l'.isEmpty = false := by
  cases h with
  | pushBuf _ _ => exact hl
  | persist _ hs => exact isEmpty_of_step hs hl

theorem good_pushBuf (h : Good l) {t : Int} {value : Bytes} (ht : IsI64 t) (hv : IsValue l.component.schema value) :
    Good (l.pushBuf t value) := by
  refine ⟨h.valid, fun r hr => ?_, h.persist⟩
  rcases List.mem_append.mp hr with hr | hr
  · exact h.wal r hr
  · rw [List.mem_singleton.mp hr]
    exact ⟨ht, hv⟩

theorem Changes.good {act : DbAct} {i : Nat} (h : Changes act i l l') (hg : Good l) : Good l' := by
  cases h with
  | pushBuf ht hv => exact good_pushBuf hg ht hv
  | persist _ hs => exact good_step hg hs

theorem good_create {id : Nat} {schema : ComponentSchema} (hid : id < 2 ^ 64) (hd : ∀ d ∈ schema.dim, d < 2 ^ 64) :
    Good (.create id schema) := ⟨⟨hid, hd, .create⟩, nofun, trivial⟩

theorem good_db {act : DbAct} (hg : ∀ l ∈ db.components, Good l) (h : db.step act = some db') :
    ∀ l ∈ db'.components, Good l := by
  rcases db_cases h with e | ⟨id, schema, hid, hd, e⟩ | ⟨i, l, l', hl, hc, e⟩
  · rw [e]
    exact hg
  · intro l hl
    rw [e] at hl
    rcases List.mem_append.mp hl with hl | hl
    · exact hg l hl
    · rw [List.mem_singleton.mp hl]
      exact good_create hid hd
  · intro l'' hl''
    rw [e] at hl''
    rcases List.mem_or_eq_of_mem_set hl'' with hm | rfl
    · exact hg l'' hm
    · exact hc.good (hg l (List.mem_of_getElem? hl))

/-- Components keep their places and their keys, and are not emptied. -/
def Grows (db db' : Db) : Prop :=
  ∀ (i : Nat) (l : Live), db.components[i]? = some l → ∃ l' : Live, db'.components[i]? = some l' ∧ SameKey l.component l'.component ∧
    (l.isEmpty = false → l'.isEmpty = false)

theorem grows_db {act : DbAct} (h : db.step act = some db') : Grows db db' := by
  intro k l hk
  rcases db_cases h with e | ⟨id, schema, _, _, e⟩ | ⟨i, l₀, l', hl, hc, e⟩
  · exact ⟨l, by rw [e]; exact hk, ⟨rfl, rfl⟩, id⟩
  · have hlt := (List.getElem?_eq_some_iff.mp hk).1
    exact ⟨l, by rw [e, List.getElem?_append_left hlt]; exact hk, ⟨rfl, rfl⟩, fun h => h⟩
  · by_cases hki : i = k
    · subst hki
      rw [hl] at hk
      cases hk
      have hlt := (List.getElem?_eq_some_iff.mp hl).1
      exact ⟨l', by rw [e, List.getElem?_set_self hlt], hc.sameKey, hc.isEmpty⟩
    · exact ⟨l, by rw [e, List.getElem?_set_ne hki]; exact hk, ⟨rfl, rfl⟩, id⟩

/-- Where no time series begins, the same components are not empty. -/
theorem isEmpty_db {act : DbAct} (h : db.step act = some db') {k : Nat} {l : Live} (hk : db.components[k]? = some l)
    (hb : act = .persist k → l.begins = false) :
    ∃ l', db'.components[k]? = some l' ∧ l'.isEmpty = l.isEmpty := by
  rcases db_cases h with e | ⟨id, schema, _, _, e⟩ | ⟨i, l₀, l', hl, hc, e⟩
  · exact ⟨l, by rw [e]; exact hk, rfl⟩
  · have hlt := (List.getElem?_eq_some_iff.mp hk).1
    exact ⟨l, by rw [e, List.getElem?_append_left hlt]; exact hk, rfl⟩
  · by_cases hki : i = k
    · subst hki
      rw [hl] at hk
      cases hk
      have hlt := (List.getElem?_eq_some_iff.mp hl).1
      refine ⟨l', by rw [e, List.getElem?_set_self hlt], ?_⟩
      cases hc with
      | pushBuf _ _ => rfl
      | persist ha hs => exact isEmpty_step hs (hb ha)
    · exact ⟨l, by rw [e, List.getElem?_set_ne hki]; exact hk, rfl⟩

/-! ## The components of a map -/

theorem view_cons {i : Nat} (h : db.components[i]? = some l) (is : List Nat) :
    db.view (i :: is) = l.component :: db.view is := by
  rw [Db.view, List.filterMap_cons, h]
  rfl

theorem filter_view (p : Component → Bool) (is : List Nat) : (db.view is).filter p = db.view (db.which p is) := by
  induction is with
  | nil => rfl
  | cons i is ih =>
    rw [Db.which, List.filter_cons]
    cases h : db.components[i]? with
    | none =>
      rw [Db.view, List.filterMap_cons, h]
      exact ih
    | some l =>
      rw [view_cons h, List.filter_cons, Option.map_some, Option.any_some, ih]
      split
      · rw [view_cons h]
        rfl
      · rfl

theorem length_view (h : ∀ i ∈ is, i < db.components.length) : (db.view is).length = is.length := by
  induction is with
  | nil => rfl
  | cons i is ih =>
    rw [view_cons (List.getElem?_eq_getElem (h i List.mem_cons_self)), List.length_cons, List.length_cons,
      ih fun j hj => h j (List.mem_cons_of_mem _ hj)]

theorem view_grows (h : Grows db db') (hl : ∀ i ∈ is, i < db.components.length) :
    List.Forall₂ SameKey (db.view is) (db'.view is) := by
  induction is with
  | nil => exact .nil
  | cons i is ih =>
    have hi := List.getElem?_eq_getElem (hl i List.mem_cons_self)
    obtain ⟨l', hl', hkey, _⟩ := h i _ hi
    rw [view_cons hi, view_cons hl']
    exact .cons hkey (ih fun j hj => hl j (List.mem_cons_of_mem _ hj))

/-- A vtable that was sent is one for the components it listed, whenever it is read. -/
theorem fieldsOf_view (h : Grows db db') (hl : ∀ i ∈ is, i < db.components.length) :
    fieldsOf (db'.view is) = fieldsOf (db.view is) := fieldsOf_congr (view_grows h hl)

theorem mem_which {p : Component → Bool} {i : Nat} :
    i ∈ db.which p is ↔ i ∈ is ∧ ∃ l, db.components[i]? = some l ∧ p l.component = true := by
  rw [Db.which, List.mem_filter]
  cases db.components[i]? <;> simp

end Metor.Proof.FixedStream
