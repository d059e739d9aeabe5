import Metor.Proof.Db.Inv

/-!
# Opening the directory again

`DB.open` succeeds on a directory just when every entry it looks at passes
(`open_ok_iff`). On the directory of a running database they all do, but for
two things (`open_succeeds_iff`): a component may have metadata and no schema,
when only its metadata was ever sent, and a WAL that could be allocated for
1024 elements, the product having wrapped, may be too long for 256.
-/

namespace Metor.Proof.Db

open Metor.Lib Metor.Impl.Db

variable {B M : Type} {pc : Platform B M}

/-- A loop whose rounds fail or not, whatever came before. -/
theorem foldlM_ok_iff {ε α β : Type} {f : β → α → Except ε β} {P : α → Prop} {xs : List α}
    (h : ∀ x ∈ xs, ∀ b, (∃ b', f b x = .ok b') ↔ P x) (b : β) :
    (∃ b', xs.foldlM f b = .ok b') ↔ ∀ x ∈ xs, P x := by
  induction xs generalizing b with
  | nil => exact ⟨fun _ x hx => absurd hx List.not_mem_nil, fun _ => ⟨b, rfl⟩⟩
  | cons x xs ih =>
    have hx := h x List.mem_cons_self b
    rw [List.forall_mem_cons, ← hx]
    cases hf : f b x with
    | error e => simp [List.foldlM_cons, hf, bind, Except.bind]
    | ok b₁ =>
      simp only [List.foldlM_cons, hf, bind, Except.bind]
      rw [ih (fun x hx => h x (List.mem_cons_of_mem _ hx)) b₁]
      exact ⟨fun h => ⟨⟨b₁, rfl⟩, h⟩, fun h => h.2⟩

variable {disk : Disk B} {listing : Path → List String} {n : String}

/-- What the first loop needs of a directory `n`. -/
def Opens (pc : Platform B M) (disk : Disk B) (n : String) : Prop :=
  (parseUnsigned (2 ^ 64) n).isSome ∧ (∃ metadata, pc.componentMetadata.read disk [n, "metadata"] = .ok metadata) ∧
    ∃ schema, pc.schema.read disk [n, "schema"] = .ok schema ∧ pc.allocates (schema.size * 256 % 2 ^ 64)

theorem openEntry_ok_iff (b : (Finmap fun _ : UInt64 => Component) × (Finmap fun _ : UInt64 => ComponentMetadata)) :
    (∃ b', openEntry pc disk listing b n = .ok b') ↔ (disk [n] = some .dir → n ≠ "msgs" → Opens pc disk n) := by
  simp only [openEntry]
  by_cases hn : (!disk.isDir [n] || decide (n = "msgs")) = true
  · rw [if_pos hn]
    refine ⟨fun _ hd hm => ?_, fun _ => ⟨_, rfl⟩⟩
    simp [FileSys.isDir_iff.mpr hd, hm] at hn
  · rw [if_neg hn]
    simp only [Bool.or_eq_true, Bool.not_eq_true', decide_eq_true_eq, not_or, Bool.not_eq_false,
      FileSys.isDir_iff] at hn
    rw [show (disk [n] = some .dir → n ≠ "msgs" → Opens pc disk n) ↔ Opens pc disk n from
      ⟨fun h => h hn.1 hn.2, fun h _ _ => h⟩, Opens]
    cases parseUnsigned (2 ^ 64) n with
    | none => simp
    | some id =>
      cases pc.schema.read disk [n, "schema"] with
      | error e => simp [bind, Except.bind]
      | ok schema =>
        cases pc.componentMetadata.read disk [n, "metadata"] with
        | error e => simp [bind, Except.bind]
        | ok metadata =>
          simp only [Component.open, bind, Except.bind]
          cases hc : pc.allocates (schema.size * 256 % 2 ^ 64) <;> simp [-Nat.reducePow, hc, pure, Except.pure]

theorem msgLog_open_ok_iff {path : Path} {names : List String} :
    (∃ log, MsgLog.open pc disk path names = .ok log) ↔ disk path = some .dir ∧
      (disk (path ++ ["metadata"]) = none ∨
        ∃ metadata, pc.msgMetadata.read disk (path ++ ["metadata"]) = .ok metadata) := by
  simp only [MsgLog.open, ← FileSys.isDir_iff]
  cases hex : disk.exists (path ++ ["metadata"]) with
  | false =>
    have hn : disk (path ++ ["metadata"]) = none := by simpa [FileSys.exists] using hex
    cases disk.isDir path <;> simp [hn, bind, Except.bind]
  | true =>
    have hn : disk (path ++ ["metadata"]) ≠ none := Option.isSome_iff_ne_none.mp hex
    cases pc.msgMetadata.read disk (path ++ ["metadata"]) <;> cases disk.isDir path <;>
      simp [hn, bind, Except.bind, Functor.map, Except.map]

/-- What the second loop needs of an entry `n` of `msgs`. -/
def MsgOpens (pc : Platform B M) (disk : Disk B) (n : String) : Prop :=
  (parseUnsigned (2 ^ 16) n).isSome ∧ disk ["msgs", n] = some .dir ∧
    (disk ["msgs", n, "metadata"] = none ∨
      ∃ metadata, pc.msgMetadata.read disk ["msgs", n, "metadata"] = .ok metadata)

theorem openMsgEntry_ok_iff (b : Finmap fun _ : UInt16 => MsgLog M) :
    (∃ b', openMsgEntry pc disk listing b n = .ok b') ↔ MsgOpens pc disk n := by
  have hlog : (∃ log, MsgLog.open pc disk ["msgs", n] (listing ["msgs", n]) = .ok log) ↔ _ := msgLog_open_ok_iff
  rw [openMsgEntry, MsgOpens]
  cases parseUnsigned (2 ^ 16) n with
  | none => simp
  | some id =>
    rw [show ["msgs", n, "metadata"] = ["msgs", n] ++ ["metadata"] from rfl, ← hlog]
    cases MsgLog.open pc disk ["msgs", n] (listing ["msgs", n]) <;> simp [bind, Except.bind, pure, Except.pure]

theorem open_ok_iff (hl : FileSys.Lists disk listing) :
    (∃ db : DB B M, DB.open pc disk listing = .ok db) ↔
      disk [] = some .dir ∧ (∀ n, disk [n] = some .dir → n ≠ "msgs" → Opens pc disk n) ∧
      (disk ["msgs"] = some .dir → ∀ n, (disk ["msgs", n]).isSome → MsgOpens pc disk n) ∧
      ∃ config, pc.dbConfig.read disk ["db_state"] = .ok config := by
  have hentries := foldlM_ok_iff (f := openEntry pc disk listing)
    (P := fun n => disk [n] = some .dir → n ≠ "msgs" → Opens pc disk n)
    (fun n (_ : n ∈ listing []) b => openEntry_ok_iff b) (∅, ∅)
  have hmsgs := foldlM_ok_iff (f := openMsgEntry pc disk listing) (P := MsgOpens pc disk)
    (fun n (_ : n ∈ listing ["msgs"]) b => openMsgEntry_ok_iff b) ∅
  have hroot : (∀ n ∈ listing [], disk [n] = some .dir → n ≠ "msgs" → Opens pc disk n) ↔
      ∀ n, disk [n] = some .dir → n ≠ "msgs" → Opens pc disk n :=
    ⟨fun h n hn => h n (hl.mem_iff.mpr (by simp [FileSys.exists, hn])) hn, fun h n _ => h n⟩
  have hsub : (∀ n ∈ listing ["msgs"], MsgOpens pc disk n) ↔
      ∀ n, (disk ["msgs", n]).isSome → MsgOpens pc disk n :=
    forall_congr' fun n => by rw [hl.mem_iff]; rfl
  rw [hroot] at hentries
  rw [hsub] at hmsgs
  rw [← hentries, ← hmsgs, ← FileSys.isDir_iff, ← FileSys.isDir_iff, DB.open]
  cases disk.isDir [] with
  | false => simp [throw, throwThe, MonadExceptOf.throw, bind, Except.bind]
  | true =>
    cases (listing []).foldlM (openEntry pc disk listing) (∅, ∅) with
    | error e => simp [bind, Except.bind]
    | ok acc =>
      cases disk.isDir ["msgs"] with
      | false => cases pc.dbConfig.read disk ["db_state"] <;> simp [bind, Except.bind, pure, Except.pure]
      | true =>
        cases (listing ["msgs"]).foldlM (openMsgEntry pc disk listing) ∅ <;>
          cases pc.dbConfig.read disk ["db_state"] <;> simp [bind, Except.bind, pure, Except.pure]

/-- A component that has metadata has a schema too, for which `Component::open` can allocate its WAL. -/
def Reopens (pc : Platform B M) (state : State M) : Prop :=
  (∀ id ∈ state.componentMetadata, id ∈ state.components) ∧
    ∀ id component, state.components.lookup id = some component →
      pc.allocates (component.schema.size * 256 % 2 ^ 64)

theorem Stored.metadata_read (hpc : pc.Lawful) {state : State M} (hi : Stored pc state disk) {id : UInt64}
    (hid : id ∈ state.componentMetadata) :
    ∃ metadata, pc.componentMetadata.read disk (componentDir id ++ ["metadata"]) = .ok metadata := by
  obtain ⟨metadata, hm⟩ := Finmap.mem_iff.mp hid
  exact ⟨metadata, read_eq_ok.mpr ⟨_, by rw [hi.metadata, hm]; rfl, hpc.componentMetadata _⟩⟩

theorem Stored.schema_read (hpc : pc.Lawful) {state : State M} (hi : Stored pc state disk) {id : UInt64}
    {schema : Metor.Impl.ComponentSchema} :
    pc.schema.read disk (componentDir id ++ ["schema"]) = .ok schema ↔
      (state.components.lookup id).map (·.schema) = some schema := by
  rw [read_eq_ok, hi.schema]
  cases state.components.lookup id with
  | none => simp
  | some component => simp [encoded, hpc.schema]

theorem Stored.opens_iff (hpc : pc.Lawful) {state : State M} (hi : Stored pc state disk) {id : UInt64}
    (hid : id ∈ state.componentMetadata) :
    Opens pc disk (toString id.toNat) ↔
      ∃ component, state.components.lookup id = some component ∧
        pc.allocates (component.schema.size * 256 % 2 ^ 64) := by
  have hm := hi.metadata_read hpc hid
  have hs : ∀ schema, pc.schema.read disk [toString id.toNat, "schema"] = .ok schema ↔ _ :=
    fun schema => hi.schema_read hpc
  simp only [Opens, hs, parseUnsigned_toString id.toNat_lt]
  constructor
  · rintro ⟨-, -, schema, h, ha⟩
    obtain ⟨component, hc, rfl⟩ := Option.map_eq_some_iff.mp h
    exact ⟨component, hc, ha⟩
  · rintro ⟨component, hc, ha⟩
    exact ⟨rfl, hm, component.schema, by rw [hc]; rfl, ha⟩

theorem stored_open_iff (hpc : pc.Lawful) {state : State M} (hi : Stored pc state disk)
    (hl : FileSys.Lists disk listing) :
    (∃ db : DB B M, DB.open pc disk listing = .ok db) ↔ Reopens pc state := by
  have hmsg : disk ["msgs"] = some .dir → ∀ n, (disk ["msgs", n]).isSome → MsgOpens pc disk n := by
    intro _ n hn
    obtain h | ⟨h, id, hid⟩ := hi.msgDirs n
    · rw [h] at hn; cases hn
    · have hname : n = toString id.toNat := (List.singleton_inj.mp (List.cons.inj hid).2).symm
      exact ⟨by rw [hname, parseUnsigned_toString id.toNat_lt]; rfl, h, hi.msgMetadata n⟩
  rw [open_ok_iff hl]
  constructor
  · rintro ⟨-, h, -, -⟩
    have hopens : ∀ id ∈ state.componentMetadata, ∃ component, state.components.lookup id = some component ∧
        pc.allocates (component.schema.size * 256 % 2 ^ 64) := fun id hid =>
      (hi.opens_iff hpc hid).mp (h _ (hi.dir id hid) (toString_ne_msgs _))
    refine ⟨fun id hid => ?_, fun id component hc => ?_⟩
    · obtain ⟨component, hc, -⟩ := hopens id hid
      exact Finmap.mem_of_lookup_eq_some hc
    · obtain ⟨component', hc', ha⟩ := hopens id (hi.registered id (Finmap.mem_of_lookup_eq_some hc))
      cases hc.symm.trans hc'
      exact ha
  · rintro ⟨hreg, ha⟩
    refine ⟨hi.root, fun n hn hne => ?_, hmsg, hi.dbState⟩
    obtain rfl | ⟨id, hid, hdir⟩ := hi.dirs n hn
    · exact absurd rfl hne
    · obtain ⟨component, hc⟩ := Finmap.mem_iff.mp (hreg id hid)
      rw [← List.singleton_inj.mp hdir]
      exact (hi.opens_iff hpc hid).mpr ⟨component, hc, ha id component hc⟩

/-! ## A postcard -/

/-- Values as they are. -/
inductive Encoded
  | schema (a : Metor.Impl.ComponentSchema)
  | componentMetadata (a : ComponentMetadata)
  | msgMetadata (a : String)
  | dbConfig (a : DbConfig)

/-- An address space has 47 bits. -/
def plain : Platform Encoded String where
  schema := ⟨.schema, fun | .schema a => some a | _ => none⟩
  componentMetadata := ⟨.componentMetadata, fun | .componentMetadata a => some a | _ => none⟩
  msgMetadata := ⟨.msgMetadata, fun | .msgMetadata a => some a | _ => none⟩
  dbConfig := ⟨.dbConfig, fun | .dbConfig a => some a | _ => none⟩
  allocates capacity := capacity < 2 ^ 47

theorem plain_lawful : plain.Lawful := ⟨fun _ => rfl, fun _ => rfl, fun _ => rfl, fun _ => rfl,
  fun _ h => Nat.lt_trans (of_decide_eq_true h) (by decide)⟩

/-! ## Runs -/

/-- `DB::create` in a new directory. -/
def created : DB Encoded String where
  vtableGen := 0
  state := { State.default with dbConfig := ⟨true, 8333333, ∅⟩ }
  recordingCell := true
  defaultStreamTimeStep := 8333333
  disk := .ofList [(["db_state"], .file (.bytes (.dbConfig ⟨true, 8333333, ∅⟩))), ([], .dir)]

theorem withTimeStep_created : DB.withTimeStep plain .empty 8333333 = .ok created := by
  rw [FileSys.empty_eq]
  simp +decide only [DB.withTimeStep, DB.saveDbState, Codec.write, FileSys.createDirAll_ofList,
    FileSys.write_ofList, ↓reduceIte]
  rfl

/-- A vtable with one field of an `f64` for component 7. -/
def vtable : Metor.Impl.Proto.VTable where
  ops := [.data 0 8, .component 0, .data 8 8, .data 16 8, .schema 2 3 1]
  fields := [⟨0, 8, 4⟩]
  data := ⟨0, i64Bytes 7 ++ i64Bytes 10 ++ i64Bytes 1⟩

def namedFiles : List (Path × Entry (Content Encoded)) :=
  [(["7", "metadata"], .file (.bytes (.componentMetadata ⟨7, "a", ∅⟩))), ([], .dir), (["7"], .dir),
    (["db_state"], .file (.bytes (.dbConfig ⟨true, 8333333, ∅⟩))), ([], .dir)]

/-- `created` after metadata for component 7 were sent. -/
def named : DB Encoded String where
  vtableGen := 0
  state := { created.state with componentMetadata := Finmap.singleton 7 ⟨7, "a", ∅⟩ }
  recordingCell := true
  defaultStreamTimeStep := 8333333
  disk := .ofList namedFiles

theorem step_named : step plain created (.handle 0 (.setComponentMetadata ⟨7, "a", ∅⟩)) = some named := by
  simp +decide only [step, handlePacket, DB.setComponentMetadata, created, Codec.write, FileSys.createDirAll_ofList,
    FileSys.write_ofList, ↓reduceIte]
  rfl

def insertedFiles : List (Path × Entry (Content Encoded)) :=
  (["7", "schema"], .file (.bytes (.schema ⟨.f64, [1]⟩))) :: ([], .dir) :: (["7"], .dir) :: namedFiles

/-- `named` after the vtable. -/
def inserted : DB Encoded String where
  vtableGen := 1
  state := { named.state with
    components := Finmap.singleton 7 ⟨7, ⟨.f64, [1]⟩, []⟩
    vtableRegistry := Finmap.singleton 1 vtable }
  recordingCell := true
  defaultStreamTimeStep := 8333333
  disk := .ofList insertedFiles

theorem insertComponent_named {schema : Metor.Impl.ComponentSchema} (h : plain.allocates (schema.size * 1024 % 2 ^ 64)) :
    named.insertComponent plain 7 schema = (.ok (), { named with
      disk := .ofList ((["7", "schema"], .file (.bytes (.schema schema))) :: ([], .dir) :: (["7"], .dir) :: namedFiles)
      state.components := Finmap.singleton 7 ⟨7, schema, []⟩ }) := by
  have hc : Component.create plain named.disk 7 schema = .ok (⟨7, schema, []⟩,
      .ofList ((["7", "schema"], .file (.bytes (.schema schema))) :: ([], .dir) :: (["7"], .dir) :: namedFiles)) := by
    simp +decide only [Component.create, named, Codec.write, FileSys.createDirAll_ofList, FileSys.write_ofList, h,
      ↓reduceIte]
    rfl
  rw [DB.insertComponent, show named.state.components.lookup 7 = none from rfl]
  simp only [hc]
  rfl

theorem step_inserted : step plain named (.handle 9 (.vtableMsg 1 vtable)) = some inserted := by
  have hr : vtable.realizeField none 9 ⟨0, 8, 4⟩ = .ok ⟨7, [1], .f64, 0, none, none⟩ := by decide +kernel
  have hi := insertComponent_named
    (show plain.allocates (Metor.Impl.ComponentSchema.size ⟨.f64, [1]⟩ * 1024 % 2 ^ 64) by decide)
  have hf : DB.insertFields plain 9 vtable vtable.fields named = (.ok (), { inserted with
      state.vtableRegistry := ∅ }) := by
    rw [show vtable.fields = [⟨0, 8, 4⟩] from rfl, DB.insertFields, hr]
    simp only [show UInt64.ofNat 7 = 7 from rfl, hi]
    rfl
  simp only [step, handlePacket, DB.insertVTable, hf]
  rfl

/-! ## Opening -/

/-- A running database can be opened again just when every component with metadata has been
inserted, and the WAL with which it is opened can be allocated. -/
theorem open_succeeds_iff (hpc : pc.Lawful) {db₀ db : DB B M} {timeStep : Nat}
    (h₀ : DB.withTimeStep pc .empty timeStep = .ok db₀) (h : Run (step pc) (fun _ _ => True) db₀ db)
    (hl : FileSys.Lists db.disk listing) :
    (∃ db' : DB B M, DB.open pc db.disk listing = .ok db') ↔ Reopens pc db.state :=
  stored_open_iff hpc (run_stored hpc h₀ h) hl

theorem open_succeeds_inserted :
    ∃ db' : DB Encoded String, DB.open plain inserted.disk (FileSys.namesIn insertedFiles) = .ok db' := by
  refine (open_succeeds_iff plain_lawful withTimeStep_created
    (.snoc (.snoc .refl trivial step_named) trivial step_inserted) (FileSys.lists_ofList _)).mpr ⟨?_, ?_⟩
  · intro id hid
    rw [show inserted.state.componentMetadata = Finmap.singleton 7 ⟨7, "a", ∅⟩ from rfl, Finmap.mem_singleton] at hid
    rw [hid]
    exact Finmap.mem_singleton 7 7 _ |>.mpr rfl
  · intro id component hc
    obtain rfl : id = 7 := (Finmap.mem_singleton id 7 _).mp (Finmap.mem_of_lookup_eq_some hc)
    cases hc
    decide

/-- Component 7 has metadata and no schema. -/
theorem named_not_opened : ¬ ∀ (db : DB Encoded String) (listing : Path → List String),
    Run (step plain) (fun _ _ => True) created db → FileSys.Lists db.disk listing →
      ∃ db' : DB Encoded String, DB.open plain db.disk listing = .ok db' := by
  intro h
  have hrun : Run (step plain) (fun _ _ => True) created named := .snoc .refl trivial step_named
  have hl := FileSys.lists_ofList namedFiles
  have hopen := (stored_open_iff plain_lawful (run_stored plain_lawful withTimeStep_created hrun) hl).mp
    (h named _ hrun hl)
  exact Finmap.notMem_empty (hopen.1 7 ((Finmap.mem_singleton 7 7 _).mpr rfl))

end Metor.Proof.Db
