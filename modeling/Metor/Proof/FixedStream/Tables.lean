import Metor.Proof.Visitor.Describes
import Metor.Spec.Visitor

/-!
# A table and a vtable made at different times

The fields of a vtable are those for the keys of the components it lists, and
keys never change (`fieldsOf_congr`). So a vtable reads a table when the
components it lists are those that were written, whenever it was made
(`decodes_of_valid`).
-/

namespace Metor.Proof.FixedStream

open Metor.Lib Metor.Impl.Proto Metor.Impl.Visitor Metor.Impl.FixedStream Metor.Proof.Visitor
open Metor.Impl hiding Component

variable {components : List Component} {t : Int} {p q table : LenPacket} {n : Nat}

/-! ## The samples of a table -/

/-- Components without a sample are passed over. -/
theorem populateTable_populated (p : LenPacket) :
    populateTable (populated t components) p t = populateTable components p t := by
  suffices ∀ acc, (populated t components).foldlM (populateEntity t) acc = components.foldlM (populateEntity t) acc from
    this (p, 0)
  induction components with
  | nil => exact fun _ => rfl
  | cons c cs ih =>
    intro acc
    rw [populated, List.filter_cons, List.foldlM_cons]
    cases hn : nearest c t with
    | none =>
      have hskip : populateEntity t acc c = some acc := by simp only [populateEntity, hn]
      rw [hskip]
      exact ih acc
    | some r =>
      show ((c :: populated t cs).foldlM _ _) = _
      rw [List.foldlM_cons]
      exact congrArg _ (funext ih)

theorem written_populated (p : LenPacket) : written t p (populated t components) = written t p components := by
  induction components generalizing p with
  | nil => rfl
  | cons c cs ih =>
    rw [populated, List.filter_cons]
    cases hn : nearest c t with
    | none =>
      show written t p (populated t cs) = _
      simp only [written, hn, ih]
    | some r =>
      show written t p (c :: populated t cs) = _
      simp only [written, hn, ih]

theorem count_foldlM {k : Nat} (h : components.foldlM (populateEntity t) (p, k) = some (table, n)) :
    n = k + (populated t components).length := by
  induction components generalizing p k with
  | nil => cases h; rfl
  | cons c cs ih =>
    rw [populated, List.filter_cons]
    rw [List.foldlM_cons] at h
    obtain ⟨⟨p', k'⟩, hstep, h⟩ := Option.bind_eq_some_iff.mp h
    have hk := ih h
    cases hn : nearest c t with
    | none =>
      simp only [populateEntity, hn] at hstep
      cases hstep
      exact hk
    | some r =>
      simp only [populateEntity, hn] at hstep
      obtain ⟨data, _, hstep⟩ := Option.bind_eq_some_iff.mp hstep
      cases hstep
      show n = k + ((populated t cs).length + 1)
      omega

/-- The count of fields is that of the components with a sample. -/
theorem count_populateTable (h : populateTable components p t = some (table, n)) :
    n = (populated t components).length := by
  simpa using count_foldlM h

theorem length_append (p : LenPacket) (bytes : Bytes) (len : Nat) :
    (p.append bytes len).inner.length = p.inner.length + bytes.length := by
  rw [length_inner, content_append, List.length_append, length_inner p, Nat.add_assoc]

theorem length_padForType (p : LenPacket) (ty : PrimType) :
    (p.padForType ty).inner.length = p.inner.length + ty.padding p.inner.length := by
  suffices ∀ n, ((List.range n).foldl (fun p _ => p.push 0) p).inner.length = p.inner.length + n from this _
  intro n
  induction n with
  | zero => rfl
  | succ n ih =>
    rw [List.range_succ, List.foldl_append, List.foldl_cons, List.foldl_nil, LenPacket.push, length_append, ih]
    rfl

/-- Where samples are written depends on the length of the packet only. -/
theorem written_congr (h : p.inner.length = q.inner.length) : written t p components = written t q components := by
  induction components generalizing p q with
  | nil => rfl
  | cons c cs ih =>
    rw [written, written]
    cases nearest c t with
    | none => exact ih h
    | some r =>
      have hs : (p.pushAligned 8 (i64Bytes r.timestamp)).inner.length = (q.pushAligned 8 (i64Bytes r.timestamp)).inner.length := by
        simp only [LenPacket.pushAligned, length_append, h]
      have hp : ((p.pushAligned 8 (i64Bytes r.timestamp)).padForType c.schema.primType).inner.length =
          ((q.pushAligned 8 (i64Bytes r.timestamp)).padForType c.schema.primType).inner.length := by
        rw [length_padForType, length_padForType, hs]
      dsimp only
      rw [hs, hp, ih]
      simp only [LenPacket.extendFromSlice, length_append, hp]

theorem written_clear (p q : LenPacket) : written t p.clear components = written t q.clear components := by
  refine written_congr ?_
  rw [length_inner, length_inner, (clear_spec p).2, (clear_spec q).2]

/-! ## The fields for components -/

/-- What does not change of a component. -/
def SameKey (c c' : Component) : Prop := c'.componentId = c.componentId ∧ c'.schema = c.schema

/-- The fields of a vtable that lists these components. -/
def fieldsOf (components : List Component) : List FieldBuilder := slotFields (slots 0 components) 0

theorem slotFields_congr {cs cs' : List Component} (h : List.Forall₂ SameKey cs cs') (offset n : Nat) :
    slotFields (slots offset cs') n = slotFields (slots offset cs) n := by
  induction h generalizing offset n with
  | nil => rfl
  | @cons c c' cs cs' hc _ ih =>
    have hfield : slotField (slotAt offset c') n = slotField (slotAt offset c) n := by
      simp only [slotField, slotAt, Component.asVtableOp, hc.1, hc.2]
    have hend : slotEnd offset c' = slotEnd offset c := by rw [slotEnd, slotEnd, hc.2]
    simp only [slotFields, slots, List.zipIdx_cons, List.map_cons, hend] at ih ⊢
    rw [ih, hfield]

theorem fieldsOf_congr {cs cs' : List Component} (h : List.Forall₂ SameKey cs cs') : fieldsOf cs' = fieldsOf cs :=
  slotFields_congr h 0 0

/-- The fields for the components that were written read the table. -/
theorem decodes_of_valid (hc : ∀ c ∈ components, c.Valid) (h : populateTable components p.clear t = some (table, n))
    (hsize : 4 + bodySize (populated t components) < 2 ^ 32) (hleaf : leafBytes (populated t components) < 2 ^ 32) :
    Decodes (fieldsOf (populated t components)) table (written t table.clear components) := by
  have hlisted : listed (populated t components) = populated t components := by
    rw [listed, List.filter_eq_self]
    exact fun c hc => isSome_listed (List.mem_filter.mp hc).2
  have hsampled : Impl.Visitor.Sampled (populated t components) t := by
    refine ⟨?_, by rw [hlisted]; exact hsize⟩
    rw [hlisted]
    exact fun c hc => nearest_isSome_iff.mp (List.mem_filter.mp hc).2
  have hvalid : ∀ c ∈ populated t components, c.Valid := fun c hm => hc c (List.mem_of_mem_filter hm)
  have hdescribes : Describes (populated t components) t p :=
    describes_of_sampled hvalid hsampled (by rw [hlisted]; exact hleaf)
  obtain ⟨table', body, hpop, hbody, hplace, hread⟩ := hdescribes
  rw [populateTable_populated, h] at hpop
  cases hpop
  have hfields : vtableFields (populated t components) = fieldsOf (populated t components) := by
    rw [vtableFields_eq_slotFields, hlisted, fieldsOf]
  rw [written_populated, written_clear p table, hfields] at hplace
  simp only [written_populated, written_clear p table] at hread
  have hlen := congrArg List.length hplace
  rw [List.length_map, List.length_map] at hlen
  refine ⟨body, hbody, fun k hk => ?_⟩
  have hk' : k < (written t table.clear components).length := by omega
  refine ⟨_, List.getElem_mem hk', ?_, fun dataAddr addr hd ha => ?_⟩
  · rw [← List.getElem?_map, hplace, List.getElem?_map, List.getElem?_eq_getElem hk']
    rfl
  · obtain ⟨fuel, hread⟩ := hread dataAddr addr hd ha
    refine ⟨fuel, fun fuel' hf => ?_⟩
    have hitems := hread fuel' hf
    rw [Visitor.vtable, hfields] at hitems
    rw [← List.getElem?_map, hitems, List.getElem?_map, List.getElem?_eq_getElem hk']
    rfl

end Metor.Proof.FixedStream
