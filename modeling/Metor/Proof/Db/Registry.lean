import Metor.Proof.Db.Inv
import Metor.Spec.Register

/-!
# The registry of a running database

A vtable is in the registry once every field of it has realized and its
component has been inserted; no step takes a component away or changes its
schema (`Keeps`), so the component of every field stays there with the schema
the vtable gives it (`run_registered`).
-/

namespace Metor.Proof.Db

open Metor.Lib Metor.Impl.Db Metor.Spec.Register

variable {B M : Type} {pc : Platform B M} {db db' : DB B M} {fuel : Nat} {res : Eval Error Unit}

/-! ## What the operations leave alone -/

/-- Metadata and files are all it touches. -/
theorem setComponentMetadata_frame (pc : Platform B M) (db : DB B M) (metadata : ComponentMetadata) :
    ∃ disk componentMetadata, (db.setComponentMetadata pc metadata).2 =
      { db with disk := disk, state.componentMetadata := componentMetadata } := by
  simp only [DB.setComponentMetadata]
  split
  · exact ⟨_, _, rfl⟩
  · split
    · exact ⟨_, _, rfl⟩
    · exact ⟨_, _, rfl⟩
    · split <;> exact ⟨_, _, rfl⟩

/-- Every component that was there is there, with its schema. -/
def Keeps (components components' : Finmap fun _ : UInt64 => Component) : Prop :=
  ∀ id component, components.lookup id = some component →
    ∃ component', components'.lookup id = some component' ∧ component'.schema = component.schema

theorem Keeps.rfl {components : Finmap fun _ : UInt64 => Component} : Keeps components components :=
  fun _ component h => ⟨component, h, Eq.refl _⟩

theorem Keeps.trans {c₁ c₂ c₃ : Finmap fun _ : UInt64 => Component} (h : Keeps c₁ c₂) (h' : Keeps c₂ c₃) : Keeps c₁ c₃ := by
  intro id component hc
  obtain ⟨component₂, hc₂, hs₂⟩ := h id component hc
  obtain ⟨component₃, hc₃, hs₃⟩ := h' id component₂ hc₂
  exact ⟨component₃, hc₃, hs₃.trans hs₂⟩

/-- A component is new, or has the schema of the one it replaces. -/
theorem keeps_insert {components : Finmap fun _ : UInt64 => Component} {id : UInt64} {component : Component}
    (h : ∀ old, components.lookup id = some old → component.schema = old.schema) :
    Keeps components (components.insert id component) := by
  intro id' old ho
  by_cases e : id' = id
  · subst e; exact ⟨component, Finmap.lookup_insert _, h old ho⟩
  · exact ⟨old, (Finmap.lookup_insert_of_ne _ e).trans ho, Eq.refl _⟩

theorem create_schema {disk disk' : Disk B} {id : UInt64} {schema : Metor.Impl.ComponentSchema} {component : Component}
    (h : Component.create pc disk id schema = .ok (component, disk')) : component.schema = schema := by
  simp only [Component.create] at h
  split at h
  · cases h
  · split at h
    · cases h
    · split at h <;> cases h
      rfl

/-- A component is added at most, and it is there if nothing failed. -/
theorem insertComponent_frame {id : UInt64} {schema : Metor.Impl.ComponentSchema}
    (h : db.insertComponent pc id schema = (res, db')) :
    (∃ disk componentMetadata components, db' = { db with
        disk := disk
        state.componentMetadata := componentMetadata
        state.components := components }) ∧
      Keeps db.state.components db'.state.components ∧
      (res = .ok () → ∃ component, db'.state.components.lookup id = some component ∧ component.schema = schema) := by
  rw [DB.insertComponent] at h
  split at h
  next component hl =>
    split at h
    next hs => cases h; exact ⟨⟨_, _, _, rfl⟩, .rfl, fun _ => ⟨component, hl, hs⟩⟩
    next => cases h; exact ⟨⟨_, _, _, rfl⟩, .rfl, by simp⟩
  next hl =>
    have hkeeps (component : Component) : Keeps db.state.components (db.state.components.insert id component) :=
      keeps_insert fun old ho => by rw [hl] at ho; cases ho
    split at h
    next => cases h; exact ⟨⟨_, _, _, rfl⟩, .rfl, by simp⟩
    next component disk hc =>
      have hnew : ∃ c, (db.state.components.insert id component).lookup id = some c ∧ c.schema = schema :=
        ⟨component, Finmap.lookup_insert _, create_schema hc⟩
      by_cases hid : id ∈ db.state.componentMetadata
      · simp only [if_pos hid] at h
        cases h
        exact ⟨⟨_, _, _, rfl⟩, hkeeps component, fun _ => hnew⟩
      · simp only [if_neg hid] at h
        obtain ⟨disk', metadata, hset⟩ :=
          setComponentMetadata_frame pc { db with disk := disk } ⟨id, toString id.toNat, ∅⟩
        split at h
        next db₁ heq =>
          rw [heq] at hset
          cases h
          cases hset
          exact ⟨⟨_, _, _, rfl⟩, hkeeps component, fun _ => hnew⟩
        next hne =>
          rw [h] at hset
          cases hset
          exact ⟨⟨_, _, _, rfl⟩, .rfl, fun hr => absurd (hr ▸ h) (hne _)⟩

theorem getOrInsertMsgLog_registry (db : DB B M) (id : UInt16) :
    (db.getOrInsertMsgLog id).2.state.components = db.state.components ∧
      (db.getOrInsertMsgLog id).2.state.vtableRegistry = db.state.vtableRegistry := by
  rw [DB.getOrInsertMsgLog]
  split <;> exact ⟨rfl, rfl⟩

/-! ## Vtables -/

theorem registers_mono {vtable : Metor.Impl.Proto.VTable} {field : Metor.Impl.Proto.Field}
    {components components' : Finmap fun _ : UInt64 => Component} (h : Registers components fuel vtable field)
    (hk : Keeps components components') : Registers components' fuel vtable field := by
  obtain ⟨realized, component, hr, hc, hs⟩ := h
  obtain ⟨component', hc', hs'⟩ := hk _ component hc
  exact ⟨realized, component', hr, hc', hs'.trans hs⟩

/-- Fields that are inserted have their components. -/
theorem insertFields_frame {vtable : Metor.Impl.Proto.VTable} {fields : List Metor.Impl.Proto.Field}
    (h : DB.insertFields pc fuel vtable fields db = (res, db')) :
    db'.state.vtableRegistry = db.state.vtableRegistry ∧
      db.vtableGen ≤ db'.vtableGen ∧
      Keeps db.state.components db'.state.components ∧
      (res = .ok () → ∀ field ∈ fields, Registers db'.state.components fuel vtable field) := by
  induction fields generalizing db with
  | nil => cases h; exact ⟨rfl, Nat.le_refl _, .rfl, by simp⟩
  | cons field fields ih =>
    rw [DB.insertFields] at h
    split at h
    · cases h; exact ⟨rfl, Nat.le_refl _, .rfl, by simp⟩
    · cases h; exact ⟨rfl, Nat.le_refl _, .rfl, by simp⟩
    next realized hr =>
      split at h
      next db₁ hins =>
        obtain ⟨⟨_, _, _, rfl⟩, hk, hnew⟩ := insertComponent_frame hins
        obtain ⟨component, hc, hs⟩ := hnew rfl
        obtain ⟨hreg, hgen, hk', hfields⟩ := ih h
        refine ⟨hreg, by dsimp only at hgen; omega, hk.trans hk', fun hres => List.forall_mem_cons.mpr ⟨?_, hfields hres⟩⟩
        exact registers_mono ⟨realized, component, hr, hc, hs⟩ hk'
      next hne =>
        obtain ⟨⟨_, _, _, rfl⟩, hk, -⟩ := insertComponent_frame h
        exact ⟨rfl, Nat.le_refl _, hk, fun hres => absurd (hres ▸ h) (hne _)⟩

theorem insertVTable_registers {id : UInt16} {vtable : Metor.Impl.Proto.VTable}
    (h : db.insertVTable pc fuel id vtable = (res, db')) :
    Keeps db.state.components db'.state.components ∧
      (db'.state.vtableRegistry = db.state.vtableRegistry ∨
        db'.state.vtableRegistry = db.state.vtableRegistry.insert id vtable ∧
          ∀ field ∈ vtable.fields, Registers db'.state.components fuel vtable field) ∧
      (res = .ok () → ∀ field ∈ vtable.fields, Registers db'.state.components fuel vtable field) := by
  rw [DB.insertVTable] at h
  split at h
  next db₁ hins =>
    obtain ⟨hreg, -, hk, hfields⟩ := insertFields_frame hins
    cases h
    exact ⟨hk, .inr ⟨by rw [← hreg], hfields rfl⟩, fun _ => hfields rfl⟩
  next =>
    obtain ⟨hreg, -, hk, hfields⟩ := insertFields_frame h
    exact ⟨hk, .inl hreg, hfields⟩

/-! ## Steps and runs -/

theorem sound_of_keeps {state state' : State M} (h : Sound state) (hreg : state'.vtableRegistry = state.vtableRegistry)
    (hk : Keeps state.components state'.components) : Sound state' := by
  intro id vtable hv
  obtain ⟨fuel, hf⟩ := h id vtable (hreg ▸ hv)
  exact ⟨fuel, fun field hfield => registers_mono (hf field hfield) hk⟩

theorem handlePacket_sound (h : Sound db.state) {req : Request M} (hp : handlePacket pc fuel db req = (res, db')) :
    Sound db'.state := by
  cases req with
  | setComponentMetadata metadata =>
    obtain ⟨disk, componentMetadata, hset⟩ := setComponentMetadata_frame pc db metadata
    rw [show db' = (db.setComponentMetadata pc metadata).2 from (congrArg Prod.snd hp).symm, hset]
    exact sound_of_keeps h rfl .rfl
  | vtableMsg id vtable =>
    obtain ⟨hk, hreg, -⟩ := insertVTable_registers hp
    rcases hreg with hreg | ⟨hreg, hfields⟩
    · exact sound_of_keeps h hreg hk
    · intro id' vtable' hv
      rw [hreg] at hv
      by_cases e : id' = id
      · rw [e, Finmap.lookup_insert] at hv
        cases hv
        exact ⟨fuel, hfields⟩
      · rw [Finmap.lookup_insert_of_ne _ e] at hv
        obtain ⟨fuel', hf⟩ := h id' vtable' hv
        exact ⟨fuel', fun field hfield => registers_mono (hf field hfield) hk⟩
  | table result sunk =>
    cases hp
    split <;> exact h
  | setMsgMetadata id metadata =>
    obtain ⟨hc, hreg⟩ := getOrInsertMsgLog_registry db id
    simp only [handlePacket, DB.setMsgMetadata] at hp
    generalize db.getOrInsertMsgLog id = got at hp hc hreg
    obtain ⟨log, db₁⟩ := got
    dsimp only at hp hc hreg
    have h₁ : Sound db₁.state := sound_of_keeps h hreg (hc ▸ .rfl)
    split at hp
    · cases hp; exact sound_of_keeps h₁ rfl .rfl
    · split at hp <;> cases hp <;> exact sound_of_keeps h₁ rfl .rfl
  | msg id result =>
    cases hp
    obtain ⟨hc, hreg⟩ := getOrInsertMsgLog_registry db id
    exact sound_of_keeps h hreg (show Keeps _ (db.getOrInsertMsgLog id).2.state.components from hc ▸ .rfl)
  | setDbConfig req =>
    simp only [handlePacket, DB.setDbConfig, DB.saveDbState] at hp
    split at hp <;> cases hp <;> exact sound_of_keeps h rfl .rfl

theorem step_sound (h : Sound db.state) {a : Action M} (hs : step pc db a = some db') : Sound db'.state := by
  cases a with
  | handle fuel req =>
    simp only [step, Option.ite_none_right_eq_some, Option.some.injEq] at hs
    obtain ⟨-, rfl⟩ := hs
    exact handlePacket_sound h rfl
  | persist id timestamp =>
    simp only [step, Option.bind_eq_bind, Option.bind_eq_some_iff] at hs
    obtain ⟨component, hc, disk, -, hs⟩ := hs
    cases hs
    exact sound_of_keeps h rfl (keeps_insert fun old ho => by rw [hc] at ho; cases ho; rfl)
  | persistMsg id timestamp =>
    simp only [step, Option.bind_eq_bind, Option.bind_eq_some_iff] at hs
    obtain ⟨log, -, disk, -, hs⟩ := hs
    cases hs
    exact sound_of_keeps h rfl .rfl

/-- A database that was created or opened has no vtables. -/
theorem started_registry {db₀ : DB B M} (h : Started pc db₀) : db₀.state.vtableRegistry = ∅ := by
  rcases h with ⟨disk, timeStep, h⟩ | ⟨disk, listing, h⟩
  · simp only [DB.withTimeStep, DB.saveDbState] at h
    split at h
    · cases h
    · split at h
      next heq =>
        cases h
        split at heq <;> cases heq
        rfl
      · cases h
  · obtain ⟨_, _, _, hs⟩ := open_state h
    rw [hs]
    rfl

theorem run_sound {db₀ : DB B M} (h₀ : Started pc db₀) (h : Run (step pc) (fun _ _ => True) db₀ db) : Sound db.state :=
  h.invariant (I := fun db => Sound db.state) (fun hi _ hs => step_sound hi hs) fun id vtable hv => by
    rw [started_registry h₀] at hv; cases hv

end Metor.Proof.Db
