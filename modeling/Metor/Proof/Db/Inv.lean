import Metor.Impl.Db
import Metor.Lib.Run

/-!
# The directory of a running database

`Stored` says what the directory holds for the state of memory: a directory
for each component that has metadata, with its metadata in a file, and the
schema of each component in another. Every request that is handled keeps it,
also one that ends with an error, and so do the tasks (`step_stored`).
-/

namespace Metor.Proof.Db

open Metor.Lib Metor.Impl.Db
open Metor.Impl (ComponentSchema)

variable {B M : Type} {pc : Platform B M}

/-! ## Names -/

theorem componentDir_inj {id id' : UInt64} (h : componentDir id = componentDir id') : id = id' := by
  have hp := congrArg (parseUnsigned (2 ^ 64)) (List.singleton_inj.mp h)
  rw [parseUnsigned_toString id.toNat_lt, parseUnsigned_toString id'.toNat_lt] at hp
  exact UInt64.toNat_inj.mp (Option.some.inj hp)

theorem toString_ne_msgs (n : Nat) : toString n ≠ "msgs" := toString_ne (t := n) 'm' (by decide) (by decide)

theorem toString_ne_db_state (n : Nat) : toString n ≠ "db_state" := toString_ne (t := n) 'b' (by decide) (by decide)

theorem toString_ne_metadata (t : Int) : toString t ≠ "metadata" := toString_ne 'm' (by decide) (by decide)

/-! ## Files -/

theorem read_eq_ok {α : Type} {codec : Codec B α} {disk : Disk B} {path : Path} {a : α} :
    codec.read disk path = .ok a ↔ ∃ b, disk path = some (.file (.bytes b)) ∧ codec.fromBytes b = some a := by
  cases h : disk path with
  | none => simp [Codec.read, FileSys.read, h]
  | some e =>
    rcases e with _ | (b | _)
    · simp [Codec.read, FileSys.read, h]
    · cases hb : codec.fromBytes b <;> simp [Codec.read, FileSys.read, h, hb]
    · simp [Codec.read, FileSys.read, h]

/-- What is written where nothing else was. -/
theorem write_eq {α : Type} {codec : Codec B α} {disk disk' : Disk B} {path : Path} {a : α}
    (h : codec.write disk path a = some disk') :
    disk' = Function.update disk path (some (.file (.bytes (codec.toAllocvec a)))) := FileSys.write_eq h

/-- A node adds its own directory and files only, in a directory that was there. -/
theorem createNode_eq {files : List String} {disk disk' : Disk B} {path : Path}
    (h : createNode files disk path = some disk') :
    (∀ q, q <+: path → ∀ c, disk q ≠ some (.file c)) ∧
      ∀ q, ¬(path <+: q ∧ path ≠ q) → disk' q = if q <+: path then some .dir else disk q := by
  simp only [createNode, Option.bind_eq_bind, Option.bind_eq_some_iff] at h
  obtain ⟨disk₁, h₁, h⟩ := h
  obtain ⟨hf, hd⟩ := FileSys.createDirAll_eq h₁
  refine ⟨hf, fun q hq => ?_⟩
  rw [← hd]
  clear hd h₁
  induction files generalizing disk₁ with
  | nil => cases h; rfl
  | cons file files ih =>
    obtain ⟨disk₂, h₂, h⟩ := Option.bind_eq_some_iff.mp h
    rw [ih _ h, (FileSys.createNew_eq h₂).2, Function.update_of_ne]
    rintro rfl
    exact hq ⟨List.prefix_append .., fun e => by simpa using congrArg List.length e⟩

/-! ## The invariant -/

/-- The file that holds a value. -/
def encoded {α : Type} (codec : Codec B α) (a : α) : Entry (Content B) := .file (.bytes (codec.toAllocvec a))

structure Stored (pc : Platform B M) (state : State M) (disk : Disk B) : Prop where
  root : disk [] = some .dir
  dbState : ∃ config, pc.dbConfig.read disk ["db_state"] = .ok config
  /-- The other directories are those of components with metadata. -/
  dirs : ∀ n, disk [n] = some .dir → n = "msgs" ∨ ∃ id ∈ state.componentMetadata, componentDir id = [n]
  dir : ∀ id ∈ state.componentMetadata, disk (componentDir id) = some .dir
  schema : ∀ id, disk (componentDir id ++ ["schema"]) =
    (state.components.lookup id).map fun c => encoded pc.schema c.schema
  metadata : ∀ id, disk (componentDir id ++ ["metadata"]) =
    (state.componentMetadata.lookup id).map (encoded pc.componentMetadata)
  /-- A component always gets metadata. -/
  registered : ∀ id ∈ state.components, id ∈ state.componentMetadata
  msgDirs : ∀ n, disk ["msgs", n] = none ∨ disk ["msgs", n] = some .dir ∧ ∃ id, msgDir id = ["msgs", n]
  msgMetadata : ∀ n, disk ["msgs", n, "metadata"] = none ∨
    ∃ metadata, pc.msgMetadata.read disk ["msgs", n, "metadata"] = .ok metadata

variable {state : State M} {disk disk' : Disk B}

namespace Stored

/-- Reading and the invariant's equations see one path at a time. -/
theorem read_congr {α : Type} {codec : Codec B α} {q : Path} (h : disk' q = disk q) :
    codec.read disk' q = codec.read disk q := by
  simp only [Codec.read, FileSys.read, h]

/-- The file of the configuration is written. -/
theorem writeConfig (hpc : pc.Lawful) (h : Stored pc state disk) {config : DbConfig}
    (hd : disk' = Function.update disk ["db_state"] (some (encoded pc.dbConfig config))) :
    Stored pc { state with dbConfig := config } disk' := by
  have hne : ∀ q, q ≠ ["db_state"] → disk' q = disk q := fun q hq => by rw [hd, Function.update_of_ne hq]
  have hself : disk' ["db_state"] = some (encoded pc.dbConfig config) := by rw [hd, Function.update_self]
  have hdir : ∀ id, componentDir id ≠ ["db_state"] := fun id e =>
    toString_ne_db_state _ (List.singleton_inj.mp e)
  constructor
  · rw [hne _ (by simp)]; exact h.root
  · exact ⟨config, read_eq_ok.mpr ⟨_, hself, hpc.dbConfig _⟩⟩
  · intro n hn
    by_cases e : n = "db_state"
    · subst e; rw [hself] at hn; cases hn
    · exact h.dirs n (by rwa [hne _ (by simpa using e)] at hn)
  · intro id hid; rw [hne _ (hdir id)]; exact h.dir id hid
  · intro id; rw [hne _ (by simp [componentDir])]; exact h.schema id
  · intro id; rw [hne _ (by simp [componentDir])]; exact h.metadata id
  · exact h.registered
  · intro n; rw [hne _ (by simp)]; exact h.msgDirs n
  · intro n; rw [read_congr (hne _ (by simp)), hne _ (by simp)]; exact h.msgMetadata n

/-- The directory of a component is made, and its metadata is written. -/
theorem writeMetadata (h : Stored pc state disk) {id : UInt64} {metadata : ComponentMetadata}
    (hd : ∀ q, disk' q = if q = componentDir id ++ ["metadata"] then some (encoded pc.componentMetadata metadata)
      else if q <+: componentDir id then some .dir else disk q) :
    Stored pc { state with componentMetadata := state.componentMetadata.insert id metadata } disk' := by
  have hne : ∀ q, q ≠ componentDir id ++ ["metadata"] → ¬q <+: componentDir id → disk' q = disk q :=
    fun q hq hp => by rw [hd, if_neg hq, if_neg hp]
  have hlong : ∀ q, 1 < q.length → ¬q <+: componentDir id := fun q hq hp =>
    absurd hp.length_le (Nat.not_le.mpr hq)
  have hmsgs : ∀ q : Path, "msgs" :: q ≠ componentDir id ++ ["metadata"] := fun q e =>
    toString_ne_msgs _ (List.cons.inj e).1.symm
  have hstate : disk' ["db_state"] = disk ["db_state"] := hne _ (by simp [componentDir])
    fun hp => toString_ne_db_state _ (List.singleton_inj.mp (hp.eq_of_length rfl)).symm
  have hdir : ∀ n, disk' [n] = if componentDir id = [n] then some .dir else disk [n] := by
    intro n
    rw [hd, if_neg (by simp [componentDir])]
    by_cases e : componentDir id = [n]
    · rw [if_pos (e ▸ List.prefix_rfl), if_pos e]
    · rw [if_neg fun hp => e (hp.eq_of_length rfl).symm, if_neg e]
  constructor
  · rw [hd, if_neg (by simp [componentDir]), if_pos (List.nil_prefix)]
  · simp only [read_congr hstate]; exact h.dbState
  · intro n hn
    rw [hdir] at hn
    split at hn
    next e => exact .inr ⟨id, Finmap.mem_insert.mpr (.inl rfl), e⟩
    next =>
      rcases h.dirs n hn with e | ⟨id', hid, e⟩
      · exact .inl e
      · exact .inr ⟨id', Finmap.mem_insert.mpr (.inr hid), e⟩
  · intro id' hid
    rw [componentDir, hdir]
    split
    · rfl
    next e => exact h.dir id' ((Finmap.mem_insert.mp hid).resolve_left fun e' => e (e' ▸ rfl))
  · intro id'
    rw [hne _ (by simp [componentDir]) (hlong _ (by simp [componentDir]))]
    exact h.schema id'
  · intro id'
    by_cases e : id' = id
    · subst e; rw [hd, if_pos rfl, Finmap.lookup_insert]; rfl
    · rw [hne _ (fun e' => e (componentDir_inj (List.append_cancel_right e'))) (hlong _ (by simp [componentDir])),
        Finmap.lookup_insert_of_ne _ e]
      exact h.metadata id'
  · exact fun id' hid => Finmap.mem_insert.mpr (.inr (h.registered id' hid))
  · intro n; rw [hne _ (hmsgs _) (hlong _ (by simp))]; exact h.msgDirs n
  · intro n
    have e := hne _ (hmsgs [n, "metadata"]) (hlong _ (by simp))
    rw [read_congr e, e]
    exact h.msgMetadata n

/-- The schema of a component is written. -/
theorem writeSchema (h : Stored pc state disk) {id : UInt64} (hid : id ∈ state.componentMetadata)
    {component : Component} (hd : disk' = Function.update disk (componentDir id ++ ["schema"])
      (some (encoded pc.schema component.schema))) :
    Stored pc { state with components := state.components.insert id component } disk' := by
  have hne : ∀ q, q ≠ componentDir id ++ ["schema"] → disk' q = disk q := fun q hq => by
    rw [hd, Function.update_of_ne hq]
  have hmsgs : ∀ q : Path, "msgs" :: q ≠ componentDir id ++ ["schema"] := fun q e =>
    toString_ne_msgs _ (List.cons.inj e).1.symm
  constructor
  · rw [hne _ (by simp)]; exact h.root
  · simp only [read_congr (hne ["db_state"] (by simp [componentDir]))]; exact h.dbState
  · intro n hn; exact h.dirs n (by rwa [hne _ (by simp [componentDir])] at hn)
  · intro id' hid; rw [hne _ (by simp [componentDir])]; exact h.dir id' hid
  · intro id'
    by_cases e : id' = id
    · subst e; rw [hd, Function.update_self, Finmap.lookup_insert]; rfl
    · rw [hne _ (fun e' => e (componentDir_inj (List.append_cancel_right e'))), Finmap.lookup_insert_of_ne _ e]
      exact h.schema id'
  · intro id'; rw [hne _ (by simp [componentDir])]; exact h.metadata id'
  · intro id' hid'
    rcases Finmap.mem_insert.mp hid' with rfl | hid'
    · exact hid
    · exact h.registered id' hid'
  · intro n; rw [hne _ (hmsgs _)]; exact h.msgDirs n
  · intro n
    rw [read_congr (hne _ (hmsgs _)), hne _ (hmsgs _)]
    exact h.msgMetadata n

/-- The directory of a message log is made, or one of its nodes below it. -/
theorem makeMsgDir (h : Stored pc state disk) {id : UInt16} {node : List String} (hnode : node ≠ ["metadata"])
    (hlen : node.length ≤ 1)
    (hd : ∀ q, q.length ≤ 3 → disk' q = if q <+: msgDir id ++ node then some .dir else disk q) :
    Stored pc state disk' := by
  have hne : ∀ q, q.length ≤ 3 → ¬q <+: msgDir id ++ node → disk' q = disk q := fun q hq hp => by
    rw [hd q hq, if_neg hp]
  have hhead : ∀ n (q : Path), n ≠ "msgs" → ¬n :: q <+: msgDir id ++ node := fun n q hn hp =>
    hn (List.cons_prefix_cons.mp hp).1
  have hcomp : ∀ id' q, ¬componentDir id' ++ q <+: msgDir id ++ node := fun id' q =>
    hhead _ q (toString_ne_msgs _)
  have hmsgs : ∀ n, ["msgs", n] <+: msgDir id ++ node → msgDir id = ["msgs", n] := fun n hp => by
    rw [(List.cons_prefix_cons.mp (List.cons_prefix_cons.mp hp).2).1]; rfl
  have hmetadata : ∀ n, ¬["msgs", n, "metadata"] <+: msgDir id ++ node := by
    intro n hp
    have hp := (List.cons_prefix_cons.mp (List.cons_prefix_cons.mp hp).2).2
    exact hnode (hp.eq_of_length (Nat.le_antisymm hp.length_le hlen)).symm
  have hstate := hne ["db_state"] (by simp) (hhead _ _ (by decide))
  constructor
  · rw [hd _ (by simp), if_pos List.nil_prefix]
  · simp only [read_congr hstate]; exact h.dbState
  · intro n hn
    by_cases e : n = "msgs"
    · exact .inl e
    · exact h.dirs n (by rwa [hne _ (by simp) (hhead _ _ e)] at hn)
  · intro id' hid
    rw [show disk' (componentDir id') = _ from hne _ (by simp [componentDir]) (hcomp id' [])]
    exact h.dir id' hid
  · intro id'
    rw [hne (componentDir id' ++ ["schema"]) (by simp [componentDir]) (hcomp _ _)]
    exact h.schema id'
  · intro id'
    rw [hne (componentDir id' ++ ["metadata"]) (by simp [componentDir]) (hcomp _ _)]
    exact h.metadata id'
  · exact h.registered
  · intro n
    rw [hd _ (by simp)]
    split
    next hp => exact .inr ⟨rfl, id, hmsgs n hp⟩
    next => exact h.msgDirs n
  · intro n
    have e := hne ["msgs", n, "metadata"] (by simp) (hmetadata n)
    rw [read_congr e, e]
    exact h.msgMetadata n

/-- The metadata of a message log are written. -/
theorem writeMsgMetadata (hpc : pc.Lawful) (h : Stored pc state disk) {id : UInt16} {metadata : M}
    (hd : disk' = Function.update disk (msgDir id ++ ["metadata"]) (some (encoded pc.msgMetadata metadata))) :
    Stored pc state disk' := by
  have hne : ∀ q, q ≠ msgDir id ++ ["metadata"] → disk' q = disk q := fun q hq => by
    rw [hd, Function.update_of_ne hq]
  constructor
  · rw [hne _ (by simp)]; exact h.root
  · simp only [read_congr (hne ["db_state"] (by simp [msgDir]))]; exact h.dbState
  · intro n hn; exact h.dirs n (by rwa [hne _ (by simp [msgDir])] at hn)
  · intro id' hid; rw [hne _ (by simp [componentDir, msgDir])]; exact h.dir id' hid
  · intro id'; rw [hne _ (by simp [componentDir, msgDir])]; exact h.schema id'
  · intro id'; rw [hne _ (by simp [componentDir, msgDir])]; exact h.metadata id'
  · exact h.registered
  · intro n; rw [hne _ (by simp [msgDir])]; exact h.msgDirs n
  · intro n
    by_cases e : ["msgs", n, "metadata"] = msgDir id ++ ["metadata"]
    · refine .inr ⟨metadata, read_eq_ok.mpr ⟨_, ?_, hpc.msgMetadata _⟩⟩
      rw [hd, e, Function.update_self]; rfl
    · rw [read_congr (hne _ e), hne _ e]; exact h.msgMetadata n

/-- A node of a component is made. -/
theorem makeNode (h : Stored pc state disk) {id : UInt64} (hid : id ∈ state.components) {node : String}
    (hok : ∀ q, q <+: componentDir id ++ [node] → ∀ c, disk q ≠ some (.file c))
    (hd : ∀ q, ¬(componentDir id ++ [node] <+: q ∧ componentDir id ++ [node] ≠ q) →
      disk' q = if q <+: componentDir id ++ [node] then some .dir else disk q) :
    Stored pc state disk' := by
  have hkeep : ∀ q, q.length ≤ 2 ∨ ¬componentDir id ++ [node] <+: q →
      (q <+: componentDir id ++ [node] → ∃ e, disk q = some e) → disk' q = disk q := by
    intro q hq hp
    rw [hd q fun ⟨h₁, h₂⟩ => hq.elim (fun hq => h₂ (h₁.eq_of_length (Nat.le_antisymm h₁.length_le hq)))
      fun hq => hq h₁]
    split
    next hp' =>
      obtain ⟨e, he⟩ := hp hp'
      cases e with
      | dir => exact he.symm
      | file c => exact absurd he (hok q hp' c)
    next => rfl
  have hhead : ∀ {n : String} {q : Path}, n :: q <+: componentDir id ++ [node] → componentDir id = [n] := fun hp => by
    rw [(List.cons_prefix_cons.mp hp).1]; rfl
  have hdir : ∀ n, disk' [n] = disk [n] := fun n => hkeep _ (.inl (by simp)) fun hp =>
    ⟨.dir, hhead hp ▸ h.dir id (h.registered id hid)⟩
  have hsub : ∀ id' file, (id ∈ state.components → ∃ e, disk (componentDir id ++ [file]) = some e) →
      disk' (componentDir id' ++ [file]) = disk (componentDir id' ++ [file]) := by
    intro id' file hfile
    refine hkeep _ (.inl (by simp [componentDir])) fun hp => ?_
    rw [← componentDir_inj (hhead hp)]
    exact hfile hid
  have hmsgs : ∀ q, disk' ("msgs" :: q) = disk ("msgs" :: q) := fun q =>
    hkeep _ (.inr fun hp => toString_ne_msgs _ (List.cons_prefix_cons.mp hp).1) fun hp =>
      absurd (List.singleton_inj.mp (hhead hp)) (toString_ne_msgs _)
  constructor
  · rw [hkeep _ (.inl (by simp)) fun _ => ⟨_, h.root⟩]; exact h.root
  · simp only [read_congr (hdir "db_state")]; exact h.dbState
  · intro n hn; exact h.dirs n (hdir n ▸ hn)
  · intro id' hid'; rw [componentDir, hdir]; exact h.dir id' hid'
  · intro id'
    rw [hsub id' _ fun hid => ?_]
    · exact h.schema id'
    · obtain ⟨c, hc⟩ := Finmap.mem_iff.mp hid
      exact ⟨_, by rw [h.schema, hc]; rfl⟩
  · intro id'
    rw [hsub id' _ fun hid => ?_]
    · exact h.metadata id'
    · obtain ⟨c, hc⟩ := Finmap.mem_iff.mp (h.registered id hid)
      exact ⟨_, by rw [h.metadata, hc]; rfl⟩
  · exact h.registered
  · intro n; rw [hmsgs]; exact h.msgDirs n
  · intro n; rw [read_congr (hmsgs _), hmsgs]; exact h.msgMetadata n

/-- A component whose schema stays is replaced. -/
theorem setComponent (h : Stored pc state disk) {id : UInt64} {component component' : Component}
    (hc : state.components.lookup id = some component) (hs : component'.schema = component.schema) :
    Stored pc { state with components := state.components.insert id component' } disk := by
  refine { h with schema := fun id' => ?_, registered := fun id' hid' => ?_ }
  · rw [h.schema]
    by_cases e : id' = id
    · subst e; rw [Finmap.lookup_insert, hc, Option.map_some, Option.map_some, hs]
    · rw [Finmap.lookup_insert_of_ne _ e]
  · rcases Finmap.mem_insert.mp hid' with rfl | hid'
    · exact h.registered _ (Finmap.mem_of_lookup_eq_some hc)
    · exact h.registered _ hid'

/-- Only the components and their metadata matter. -/
theorem of_eq {state' : State M} (h : Stored pc state disk) (hc : state'.components = state.components)
    (hm : state'.componentMetadata = state.componentMetadata) : Stored pc state' disk := by
  constructor
  · exact h.root
  · exact h.dbState
  · rw [hm]; exact h.dirs
  · rw [hm]; exact h.dir
  · rw [hc]; exact h.schema
  · rw [hm]; exact h.metadata
  · rw [hc, hm]; exact h.registered
  · exact h.msgDirs
  · exact h.msgMetadata

end Stored

/-! ## Requests -/

variable {db db' : DB B M} {res : Eval Error Unit}

theorem saveDbState_eq (h : db.saveDbState pc = (res, db')) (hr : Handled res) :
    db' = { db with
      disk := Function.update db.disk ["db_state"] (some (encoded pc.dbConfig db.state.dbConfig)) } := by
  rw [DB.saveDbState] at h
  split at h
  · cases h; exact hr.elim
  next disk hd => cases h; rw [write_eq hd]; rfl

theorem insert_of_lookup {α β : Type} [DecidableEq α] {m : Finmap fun _ : α => β} {a : α} {b : β}
    (h : m.lookup a = some b) : m.insert a b = m :=
  Finmap.ext_lookup fun a' => by
    by_cases e : a' = a
    · rw [e, Finmap.lookup_insert, h]
    · rw [Finmap.lookup_insert_of_ne _ e]

/-- The comparison with the metadata that is in the file, if there is one. -/
theorem unchanged_eq (hpc : pc.Lawful) {disk : Disk B} {path : Path} {old : Option ComponentMetadata}
    (h : disk path = old.map (encoded pc.componentMetadata)) (m : ComponentMetadata) :
    (if disk.exists path then (decide <| · = m) <$> pc.componentMetadata.read disk path else .ok false) =
      .ok (decide (old = some m)) := by
  cases old with
  | none => rw [if_neg (by simp [FileSys.exists, h])]; simp
  | some m₀ =>
    have hread : pc.componentMetadata.read disk path = .ok m₀ :=
      read_eq_ok.mpr ⟨_, by rw [h]; rfl, hpc.componentMetadata m₀⟩
    rw [if_pos (by simp [FileSys.exists, h]), hread]
    simp [Functor.map, Except.map]

/-- It is enough that the file of this component's metadata is up to date. -/
theorem setComponentMetadata_eq (hpc : pc.Lawful) {m : ComponentMetadata}
    (hm : db.disk (componentDir m.componentId ++ ["metadata"]) =
      (db.state.componentMetadata.lookup m.componentId).map (encoded pc.componentMetadata))
    (h : db.setComponentMetadata pc m = (res, db')) (hr : Handled res) :
    res = .ok () ∧
    db' = { db with
      disk := db'.disk
      state.componentMetadata := db.state.componentMetadata.insert m.componentId m } ∧
    ∀ q, db'.disk q = if q = componentDir m.componentId ++ ["metadata"] then some (encoded pc.componentMetadata m)
      else if q <+: componentDir m.componentId then some .dir else db.disk q := by
  simp only [DB.setComponentMetadata] at h
  split at h
  · cases h; exact hr.elim
  next disk hd =>
    obtain ⟨-, hd⟩ := FileSys.createDirAll_eq hd
    have hpath : disk (componentDir m.componentId ++ ["metadata"]) =
        (db.state.componentMetadata.lookup m.componentId).map (encoded pc.componentMetadata) := by
      rw [hd, if_neg fun hp => absurd hp.length_le (by simp [componentDir]), hm]
    rw [unchanged_eq hpc hpath] at h
    by_cases hl : db.state.componentMetadata.lookup m.componentId = some m
    · -- the same metadata again: only the directory is made
      rw [decide_eq_true hl] at h
      cases h
      refine ⟨rfl, by rw [insert_of_lookup hl], fun q => ?_⟩
      dsimp only
      split
      next e => rw [e, hpath, hl]; rfl
      next => exact hd q
    · rw [decide_eq_false hl] at h
      split at h
      next heq => cases heq
      next heq => cases heq
      next =>
        split at h
        · cases h; exact hr.elim
        next disk' hw =>
          cases h
          refine ⟨rfl, rfl, fun q => ?_⟩
          dsimp only
          rw [write_eq hw]
          split
          next e => rw [e, Function.update_self]; rfl
          next e => rw [Function.update_of_ne e, hd]

theorem create_eq {disk disk' : Disk B} {id : UInt64} {schema : ComponentSchema} {component : Component}
    (hs : disk (componentDir id ++ ["schema"]) = none)
    (h : Component.create pc disk id schema = .ok (component, disk')) :
    component = ⟨id, schema, []⟩ ∧
    ∀ q, disk' q = if q = componentDir id ++ ["schema"] then some (encoded pc.schema schema)
      else if q <+: componentDir id then some .dir else disk q := by
  simp only [Component.create] at h
  split at h
  · cases h
  next disk₁ hd =>
    obtain ⟨-, hd⟩ := FileSys.createDirAll_eq hd
    have hpath : disk₁ (componentDir id ++ ["schema"]) = none := by
      rw [hd, if_neg fun hp => absurd hp.length_le (by simp [componentDir]), hs]
    rw [if_neg (by simp [FileSys.exists, hpath])] at h
    split at h
    · cases h
    next disk₂ hw =>
      split at h
      · cases h
        refine ⟨rfl, fun q => ?_⟩
        rw [write_eq hw]
        split
        next e => rw [e, Function.update_self]; rfl
        next e => rw [Function.update_of_ne e, hd]
      · cases h

/-- It fails by an I/O error or a panic only. -/
theorem create_error {disk : Disk B} {id : UInt64} {schema : ComponentSchema} {e : Error}
    (h : Component.create pc disk id schema = .error e) : ¬Handled (.err e) := by
  simp only [Component.create] at h
  split at h
  · cases h; exact fun hr => hr
  · split at h
    · cases h; exact fun hr => hr
    · split at h <;> cases h
      exact fun hr => hr

theorem ne_of_prefix_componentDir {id : UInt64} {file : String} {q : Path} (h : q = componentDir id ++ [file]) :
    ¬q <+: componentDir id := by
  rintro hp
  rw [h] at hp
  exact absurd hp.length_le (by simp [componentDir])

/-- A component that has metadata already: its directory is there. -/
theorem stored_create {state : State M} {disk disk' : Disk B} (hi : Stored pc state disk) {id : UInt64}
    {schema : ComponentSchema} (hid : id ∈ state.componentMetadata)
    (hd : ∀ q, disk' q = if q = componentDir id ++ ["schema"] then some (encoded pc.schema schema)
      else if q <+: componentDir id then some .dir else disk q) :
    Stored pc { state with components := state.components.insert id ⟨id, schema, []⟩ } disk' := by
  refine hi.writeSchema hid (funext fun q => ?_)
  rw [hd, Function.update_apply]
  split
  · rfl
  next =>
    split
    next hp =>
      rcases Nat.eq_zero_or_pos q.length with hq | hq
      · rw [List.length_eq_zero_iff.mp hq, hi.root]
      · rw [hp.eq_of_length (Nat.le_antisymm hp.length_le hq), hi.dir id hid]
    next => rfl

theorem insertComponent_stored (hpc : pc.Lawful) (hi : Stored pc db.state db.disk) {id : UInt64}
    {schema : ComponentSchema} (h : db.insertComponent pc id schema = (res, db')) (hr : Handled res) :
    Stored pc db'.state db'.disk := by
  rw [DB.insertComponent] at h
  split at h
  · split at h <;> cases h <;> exact hi
  next hl =>
    split at h
    next e he => cases h; exact absurd hr (create_error he)
    next component disk hc =>
      obtain ⟨rfl, hd⟩ := create_eq (by rw [hi.schema, hl]; rfl) hc
      dsimp only at h
      by_cases hid : id ∈ db.state.componentMetadata
      · rw [if_pos hid] at h
        cases h
        exact stored_create hi hid hd
      · rw [if_neg hid] at h
        generalize hset : DB.setComponentMetadata pc { db with disk := disk } ⟨id, toString id.toNat, ∅⟩ = set at h
        obtain ⟨res₁, db₁⟩ := set
        have hr₁ : Handled res₁ := by
          cases res₁ with
          | ok => trivial
          | running => cases h; exact hr
          | err => cases h; exact hr
        have hm : disk (componentDir id ++ ["metadata"]) = none := by
          rw [hd, if_neg (by simp [componentDir]), if_neg (ne_of_prefix_componentDir rfl), hi.metadata,
            Finmap.lookup_eq_none.mpr hid]; rfl
        obtain ⟨rfl, hdb, hd₁⟩ := setComponentMetadata_eq hpc (hm.trans (by simp [Finmap.lookup_eq_none.mpr hid])) hset hr₁
        cases h
        let named : ComponentMetadata := ⟨id, toString id.toNat, ∅⟩
        have hw : Stored pc { db.state with
            componentMetadata := db.state.componentMetadata.insert id named } _ := hi.writeMetadata fun q => rfl
        refine (hw.writeSchema (Finmap.mem_insert.mpr (.inl rfl)) (funext fun q => ?_)).of_eq
          (by rw [hdb]) (by rw [hdb])
        rw [hd₁, Function.update_apply]
        dsimp only
        rw [hd]
        by_cases e : q = componentDir id ++ ["schema"]
        · rw [if_pos e, if_pos e, if_neg (by simp [e, componentDir]), if_neg (ne_of_prefix_componentDir e)]
        · rw [if_neg e, if_neg e]
          split
          · rfl
          · split <;> rfl

theorem insertFields_stored (hpc : pc.Lawful) {fuel : Nat} {vtable : Metor.Impl.Proto.VTable}
    {fields : List Metor.Impl.Proto.Field}
    (hi : Stored pc db.state db.disk) (h : DB.insertFields pc fuel vtable fields db = (res, db')) (hr : Handled res) :
    Stored pc db'.state db'.disk := by
  induction fields generalizing db with
  | nil => cases h; exact hi
  | cons field fields ih =>
    rw [DB.insertFields] at h
    split at h
    · cases h; exact hi
    · cases h; exact hi
    next realized _ =>
      generalize hins : db.insertComponent pc (.ofNat realized.componentId) ⟨realized.ty, realized.shape⟩ = ins at h
      obtain ⟨res₁, db₁⟩ := ins
      cases res₁ with
      | ok u =>
        have h₁ := insertComponent_stored hpc hi hins trivial
        have h₂ : Stored pc (DB.mk (db₁.vtableGen + 1) db₁.state db₁.recordingCell db₁.defaultStreamTimeStep
          db₁.disk).state db₁.disk := h₁
        exact ih h₂ h
      | running => cases h; exact hr.elim
      | err e => cases h; exact insertComponent_stored hpc hi hins hr

theorem getOrInsertMsgLog_eq (db : DB B M) (id : UInt16) :
    (db.getOrInsertMsgLog id).2.disk = db.disk ∧
    (db.getOrInsertMsgLog id).2.state.components = db.state.components ∧
    (db.getOrInsertMsgLog id).2.state.componentMetadata = db.state.componentMetadata := by
  rw [DB.getOrInsertMsgLog]
  split <;> exact ⟨rfl, rfl, rfl⟩

theorem setMsgMetadata_stored (hpc : pc.Lawful) (hi : Stored pc db.state db.disk) {id : UInt16} {metadata : M}
    (h : db.setMsgMetadata pc id metadata = (res, db')) (hr : Handled res) : Stored pc db'.state db'.disk := by
  obtain ⟨hdisk, hc, hm⟩ := getOrInsertMsgLog_eq db id
  simp only [DB.setMsgMetadata] at h
  generalize db.getOrInsertMsgLog id = got at h hdisk hc hm
  obtain ⟨log, db₁⟩ := got
  dsimp only at h hdisk hc hm
  split at h
  · cases h; exact hr.elim
  next disk₁ hd =>
    obtain ⟨-, hd⟩ := FileSys.createDirAll_eq hd
    split at h
    · cases h; exact hr.elim
    next disk₂ hw =>
      cases h
      have h₁ : Stored pc db.state disk₁ := by
        have hd : ∀ q, disk₁ q = if q <+: msgDir id ++ [] then some .dir else db.disk q := fun q => by
          rw [hd, hdisk, List.append_nil]
        exact hi.makeMsgDir (by simp) (by simp) fun q _ => hd q
      exact (h₁.writeMsgMetadata hpc (write_eq hw)).of_eq hc hm

theorem handlePacket_stored (hpc : pc.Lawful) (hi : Stored pc db.state db.disk) {fuel : Nat} {req : Request M}
    (h : handlePacket pc fuel db req = (res, db')) (hr : Handled res) : Stored pc db'.state db'.disk := by
  cases req with
  | setComponentMetadata metadata =>
    obtain ⟨-, hdb, hd⟩ := setComponentMetadata_eq hpc (hi.metadata _) h hr
    exact (hi.writeMetadata hd).of_eq (by rw [hdb]) (by rw [hdb])
  | vtableMsg id vtable =>
    simp only [handlePacket, DB.insertVTable] at h
    generalize hins : DB.insertFields pc fuel vtable vtable.fields db = ins at h
    obtain ⟨res₁, db₁⟩ := ins
    cases res₁ with
    | ok u => cases h; exact (insertFields_stored hpc hi hins trivial).of_eq rfl rfl
    | running => cases h; exact hr.elim
    | err e => cases h; exact insertFields_stored hpc hi hins hr
  | table result sunk =>
    cases h
    split <;> exact hi
  | setMsgMetadata id metadata => exact setMsgMetadata_stored hpc hi h hr
  | msg id result =>
    cases h
    obtain ⟨hdisk, hc, hm⟩ := getOrInsertMsgLog_eq db id
    exact (show Stored pc db.state (db.pushMsg id).disk from hdisk ▸ hi).of_eq hc hm
  | setDbConfig req =>
    simp only [handlePacket, DB.setDbConfig] at h
    rw [saveDbState_eq h hr]
    exact hi.writeConfig hpc rfl

/-! ## Steps and runs -/

theorem step_stored (hpc : pc.Lawful) (hi : Stored pc db.state db.disk) {a : Action M}
    (h : step pc db a = some db') : Stored pc db'.state db'.disk := by
  cases a with
  | handle fuel req =>
    simp only [step, Option.ite_none_right_eq_some, Option.some.injEq] at h
    obtain ⟨hr, rfl⟩ := h
    exact handlePacket_stored hpc hi rfl hr
  | persist id timestamp =>
    simp only [step, Option.bind_eq_bind, Option.bind_eq_some_iff] at h
    obtain ⟨component, hc, disk, hd, h⟩ := h
    cases h
    obtain ⟨hok, hd⟩ := createNode_eq hd
    exact (hi.makeNode (Finmap.mem_of_lookup_eq_some hc) hok hd).setComponent hc rfl
  | persistMsg id timestamp =>
    simp only [step, Option.bind_eq_bind, Option.bind_eq_some_iff] at h
    obtain ⟨log, hl, disk, hd, h⟩ := h
    cases h
    obtain ⟨-, hd⟩ := createNode_eq hd
    have hnode : [toString timestamp] ≠ ["metadata"] := by simpa using toString_ne_metadata timestamp
    refine (hi.makeMsgDir hnode (by simp) fun q hq => hd q ?_).of_eq rfl rfl
    rintro ⟨hp, hne⟩
    exact hne (hp.eq_of_length (Nat.le_antisymm hp.length_le (by simpa [msgDir] using hq)))

/-- A directory with nothing in it but the configuration. -/
theorem stored_new (hpc : pc.Lawful) {disk : Disk B} (hd : ∀ q, disk q = if q = [] then some .dir else none)
    {state : State M} (hc : state.components = ∅) (hm : state.componentMetadata = ∅) (config : DbConfig) :
    Stored pc state (Function.update disk ["db_state"] (some (encoded pc.dbConfig config))) := by
  have hne : ∀ q, q ≠ [] → q ≠ ["db_state"] →
      Function.update disk ["db_state"] (some (encoded pc.dbConfig config)) q = none := fun q h₁ h₂ => by
    rw [Function.update_of_ne h₂, hd, if_neg h₁]
  constructor
  · rw [Function.update_of_ne (by simp), hd, if_pos rfl]
  · exact ⟨_, read_eq_ok.mpr ⟨_, Function.update_self .., hpc.dbConfig _⟩⟩
  · intro n hn
    by_cases e : [n] = ["db_state"]
    · rw [e, Function.update_self] at hn; cases hn
    · rw [hne _ (by simp) e] at hn; cases hn
  · intro id hid; rw [hm] at hid; exact absurd hid Finmap.notMem_empty
  · intro id; rw [hne _ (by simp [componentDir]) (by simp [componentDir]), hc]; rfl
  · intro id; rw [hne _ (by simp [componentDir]) (by simp [componentDir]), hm]; rfl
  · intro id hid; rw [hc] at hid; exact absurd hid Finmap.notMem_empty
  · intro n; exact .inl (hne _ (by simp) (by simp))
  · intro n; exact .inl (hne _ (by simp) (by simp))

theorem withTimeStep_stored (hpc : pc.Lawful) {timeStep : Nat}
    (h : DB.withTimeStep pc .empty timeStep = .ok db) : Stored pc db.state db.disk := by
  simp only [DB.withTimeStep] at h
  split at h
  · cases h
  next disk hd =>
    obtain ⟨-, hd⟩ := FileSys.createDirAll_eq hd
    split at h
    next db₁ hs =>
      cases h
      rw [saveDbState_eq hs trivial]
      have hd : ∀ q, disk q = if q = [] then some .dir else none := fun q => by
        rw [hd]; simp only [List.prefix_nil, FileSys.empty]
      exact stored_new hpc hd rfl rfl _
    · cases h

/-- What is read back into the state; the rest of it is as in a new database. -/
theorem open_state {disk : Disk B} {listing : Path → List String} (h : DB.open pc disk listing = .ok db) :
    ∃ components componentMetadata msgLogs, db.state = { (State.default : State M) with
      components := components
      componentMetadata := componentMetadata
      msgLogs := msgLogs } := by
  rw [DB.open] at h
  cases hd : disk.isDir [] with
  | false => simp [hd, throw, throwThe, MonadExceptOf.throw, bind, Except.bind] at h
  | true =>
    cases he : (listing []).foldlM (openEntry pc disk listing) (∅, ∅) with
    | error e => simp [hd, he, bind, Except.bind] at h
    | ok acc =>
      have hok : ∀ logs : Except Error (Finmap fun _ : UInt16 => MsgLog M), (do
          let msgLogs ← logs
          let dbState ← pc.dbConfig.read disk ["db_state"]
          return (⟨0, { (State.default : State M) with
            components := acc.1
            componentMetadata := acc.2
            msgLogs := msgLogs }, dbState.recording, dbState.defaultStreamTimeStep % 2 ^ 64, disk⟩ : DB B M)) = .ok db →
          ∃ msgLogs, db.state = { (State.default : State M) with
            components := acc.1
            componentMetadata := acc.2
            msgLogs := msgLogs } := by
        intro logs h
        cases logs with
        | error e => simp [bind, Except.bind] at h
        | ok logs =>
          cases hc : pc.dbConfig.read disk ["db_state"] with
          | error e => simp [hc, bind, Except.bind] at h
          | ok config => simp only [hc, bind, Except.bind, pure, Except.pure] at h; cases h; exact ⟨logs, rfl⟩
      cases hm : disk.isDir ["msgs"] with
      | false => simp only [hd, he, hm] at h; exact ⟨_, _, hok (.ok ∅) h⟩
      | true => simp only [hd, he, hm] at h; exact ⟨_, _, hok _ h⟩

/-- The directory of a database that was created in a new directory. -/
theorem run_stored (hpc : pc.Lawful) {db₀ : DB B M} {timeStep : Nat}
    (h₀ : DB.withTimeStep pc .empty timeStep = .ok db₀) (h : Run (step pc) (fun _ _ => True) db₀ db) :
    Stored pc db.state db.disk :=
  h.invariant (I := fun db => Stored pc db.state db.disk) (fun hi _ hs => step_stored hpc hi hs)
    (withTimeStep_stored hpc h₀)

end Metor.Proof.Db
