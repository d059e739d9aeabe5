import Metor.Proof.Db.Registry
import Metor.Proof.Db.Reopen

/-!
# The configuration after a restart

`DB.open` reads the configuration from its file into `recording_cell` and
`default_stream_time_step`, and leaves that of the state at its default
(`open_dbConfig`), which the next `SetDbConfig` then writes. So a restart keeps
the configuration just when it is the default one, which the requests before
it determine (`config_survives_iff`).
-/

namespace Metor.Proof.Db

open Metor.Lib Metor.Impl.Db

variable {B M : Type} {pc : Platform B M}

/-- The steps of a list of `SetDbConfig` requests. -/
def setDbConfigs (reqs : List SetDbConfig) : List (Action M) := reqs.map fun req => .handle 0 (.setDbConfig req)

theorem setDbConfig_eq {db db' : DB B M} {req : SetDbConfig} {res : Eval Error Unit}
    (h : db.setDbConfig pc req = (res, db')) (hr : Handled res) :
    db'.state.dbConfig = db.state.dbConfig.update req ∧
      db'.disk ["db_state"] = some (encoded pc.dbConfig (db.state.dbConfig.update req)) := by
  rw [saveDbState_eq h hr]
  exact ⟨rfl, Function.update_self (f := db.disk) (["db_state"] : Path) _⟩

theorem exec_dbConfig {db db' : DB B M} {reqs : List SetDbConfig}
    (h : exec (step pc) (fun _ _ => True) db (setDbConfigs reqs) = some db') :
    db'.state.dbConfig = reqs.foldl DbConfig.update db.state.dbConfig := by
  induction reqs generalizing db with
  | nil => cases h; rfl
  | cons req reqs ih =>
    simp only [setDbConfigs, List.map_cons, exec, if_true, Option.bind_eq_some_iff] at h
    obtain ⟨db₁, hs, h⟩ := h
    simp only [step, Option.ite_none_right_eq_some, Option.some.injEq] at hs
    obtain ⟨hr, rfl⟩ := hs
    have hc : (handlePacket pc 0 db (.setDbConfig req)).2.state.dbConfig = db.state.dbConfig.update req :=
      (setDbConfig_eq rfl hr).1
    rw [ih h, List.foldl_cons, hc]

theorem open_dbConfig {disk : Disk B} {listing : Path → List String} {db : DB B M}
    (h : DB.open pc disk listing = .ok db) : db.state.dbConfig = .default := by
  obtain ⟨_, _, _, hs⟩ := open_state h
  rw [hs]
  rfl

/-- What the requests leave of the flag. -/
def lastRecording (recording : Bool) (reqs : List SetDbConfig) : Bool :=
  reqs.foldl (fun recording req => req.recording.getD recording) recording

theorem foldl_update (config : DbConfig) (reqs : List SetDbConfig) :
    reqs.foldl DbConfig.update config =
      ⟨lastRecording config.recording reqs, config.defaultStreamTimeStep,
        reqs.foldl (fun metadata req => req.metadata ∪ metadata) config.metadata⟩ := by
  induction reqs generalizing config with
  | nil => rfl
  | cons req reqs ih => rw [List.foldl_cons, ih]; rfl

theorem union_eq_empty {m m' : Metadata} : m ∪ m' = ∅ ↔ m = ∅ ∧ m' = ∅ := by
  constructor
  · intro h
    have : ∀ k, k ∉ m ∧ k ∉ m' := fun k => by
      rw [← not_or, ← Finmap.mem_union, h]; exact Finmap.notMem_empty
    exact ⟨Finmap.ext_lookup fun k => by rw [Finmap.lookup_eq_none.mpr (this k).1, Finmap.lookup_empty],
      Finmap.ext_lookup fun k => by rw [Finmap.lookup_eq_none.mpr (this k).2, Finmap.lookup_empty]⟩
  · rintro ⟨rfl, rfl⟩
    exact Finmap.empty_union

theorem foldl_union_eq_empty {m : Metadata} {reqs : List SetDbConfig} :
    reqs.foldl (fun metadata req => req.metadata ∪ metadata) m = ∅ ↔ m = ∅ ∧ ∀ req ∈ reqs, req.metadata = ∅ := by
  induction reqs generalizing m with
  | nil => simp
  | cons req reqs ih => rw [List.foldl_cons, ih, union_eq_empty, List.forall_mem_cons]; tauto

/-- The default configuration is left. -/
structure StaysDefault (config : DbConfig) (reqs : List SetDbConfig) : Prop where
  recording : lastRecording config.recording reqs = true
  timeStep : config.defaultStreamTimeStep = 10 * 1000 * 1000
  metadata : config.metadata = ∅
  requested : ∀ req ∈ reqs, req.metadata = ∅

theorem staysDefault_iff {config : DbConfig} {reqs : List SetDbConfig} :
    StaysDefault config reqs ↔ reqs.foldl DbConfig.update config = .default := by
  rw [foldl_update, DbConfig.default, DbConfig.mk.injEq, foldl_union_eq_empty]
  exact ⟨fun h => ⟨h.recording, h.timeStep, h.metadata, h.requested⟩, fun ⟨hr, ht, hm, hq⟩ => ⟨hr, ht, hm, hq⟩⟩

/-- What a restart has to keep: the configuration, and what the next request writes. -/
def Survives (pc : Platform B M) (config : DbConfig) (db : DB B M) : Prop :=
  db.state.dbConfig = config ∧ ∀ req db', db.setDbConfig pc req = (.ok (), db') →
    pc.dbConfig.read db'.disk ["db_state"] = .ok (config.update req)

theorem config_survives_iff (hpc : pc.Lawful) {db db₁ db' : DB B M} {reqs : List SetDbConfig}
    {listing : Path → List String}
    (h : exec (step pc) (fun _ _ => True) db (setDbConfigs reqs) = some db₁)
    (ho : DB.open pc db₁.disk listing = .ok db') :
    Survives pc db₁.state.dbConfig db' ↔ StaysDefault db.state.dbConfig reqs := by
  rw [staysDefault_iff, ← exec_dbConfig h]
  constructor
  · rintro ⟨hc, -⟩
    rw [← hc, open_dbConfig ho]
  · intro hd
    refine ⟨by rw [hd, open_dbConfig ho], fun req db₂ hs => ?_⟩
    have hw := (setDbConfig_eq hs trivial).2
    rw [open_dbConfig ho, ← hd] at hw
    exact read_eq_ok.mpr ⟨_, hw, hpc.dbConfig _⟩

/-- A listing of a directory with no components. -/
def onlyState (p : Path) : List String := if p = [] then ["db_state"] else []

/-- A database with the default time step. -/
def slow : DB Encoded String := { created with
  state := .default
  defaultStreamTimeStep := 10 * 1000 * 1000 }

def toggles : List SetDbConfig := [⟨some false, ∅⟩, ⟨some true, ∅⟩]

theorem config_survives_toggled : ∃ db₁ db' : DB Encoded String,
    exec (step plain) (fun _ _ => True) slow (setDbConfigs toggles) = some db₁ ∧
    DB.open plain db₁.disk onlyState = .ok db' ∧ Survives plain db₁.state.dbConfig db' := by
  have hs : StaysDefault slow.state.dbConfig toggles := by
    refine ⟨rfl, rfl, rfl, fun req hreq => ?_⟩
    rcases List.mem_pair.mp hreq with rfl | rfl <;> rfl
  have h : exec (step plain) (fun _ _ => True) slow (setDbConfigs toggles) = some _ := rfl
  refine ⟨_, _, h, rfl, ?_⟩
  exact (config_survives_iff plain_lawful h (show DB.open plain _ onlyState = .ok _ from rfl)).mpr hs

/-- One key of metadata, on a database as `DB::create` makes it. -/
theorem metadata_lost : ¬ ∀ (reqs : List SetDbConfig) (db₁ db' : DB Encoded String),
    exec (step plain) (fun _ _ => True) created (setDbConfigs reqs) = some db₁ →
      DB.open plain db₁.disk onlyState = .ok db' → Survives plain db₁.state.dbConfig db' := by
  intro h
  have hc := (h [⟨none, Finmap.singleton "a" "b"⟩] _ _ rfl rfl).1
  exact absurd (congrArg (fun config => config.metadata.lookup "a") hc) (by decide)

end Metor.Proof.Db

/-!
## Refused vtables

`insert_vtable` inserts the component of each field before it looks at the
next, and nothing takes it back: a refused vtable leaves the database as it
was just when its first field is refused (`refused_unchanged_iff`).
-/

namespace Metor.Proof.Db

open Metor.Lib Metor.Impl.Db Metor.Spec.Register

variable {B M : Type} {pc : Platform B M} {db db' : DB B M} {fuel : Nat} {e : Error}

/-! ## What fails -/

/-- Metadata are never refused: what fails is the file system. -/
theorem setComponentMetadata_not_refused {metadata : ComponentMetadata}
    (h : db.setComponentMetadata pc metadata = (.err e, db')) : ¬Refused e := by
  simp only [DB.setComponentMetadata] at h
  split at h
  · cases h; exact id
  · split at h
    next heq =>
      cases h
      split at heq
      · rw [Codec.read] at heq
        split at heq
        · cases heq; exact id
        · cases heq; exact id
        · split at heq <;> cases heq
          exact id
      · cases heq
    · cases h
    · split at h <;> cases h
      exact id

/-- A component is refused for its schema only, before anything is done. -/
theorem insertComponent_refused {id : UInt64} {schema : Metor.Impl.ComponentSchema}
    (h : db.insertComponent pc id schema = (.err e, db')) (he : Refused e) :
    db' = db ∧ ∃ component, db.state.components.lookup id = some component ∧ component.schema ≠ schema := by
  rw [DB.insertComponent] at h
  split at h
  next component hl =>
    split at h
    · cases h
    next hne => cases h; exact ⟨rfl, component, hl, hne⟩
  next =>
    split at h
    next hc =>
      cases h
      refine absurd ?_ (create_error hc)
      cases e <;> trivial
    next disk _ =>
      by_cases hid : id ∈ db.state.componentMetadata
      · simp only [if_pos hid] at h; cases h
      · simp only [if_neg hid] at h
        split at h
        · cases h
        · exact absurd he (setComponentMetadata_not_refused h)

/-- A refused vtable: the first field is refused and nothing has been done, or it has been counted. -/
theorem insertFields_refused {vtable : Metor.Impl.Proto.VTable} {field : Metor.Impl.Proto.Field}
    {fields : List Metor.Impl.Proto.Field}
    (h : DB.insertFields pc fuel vtable (field :: fields) db = (.err e, db')) (he : Refused e) :
    db' = db ∧ Fails db fuel vtable field ∨ ¬Fails db fuel vtable field ∧ db.vtableGen < db'.vtableGen := by
  rw [DB.insertFields] at h
  split at h
  · cases h
  next e' hr => cases h; exact .inl ⟨rfl, .inl ⟨e', hr⟩⟩
  next realized hr =>
    split at h
    next db₁ hins =>
      obtain ⟨⟨_, _, _, rfl⟩, -, -⟩ := insertComponent_frame hins
      obtain ⟨-, hgen, -, -⟩ := insertFields_frame h
      refine .inr ⟨?_, hgen⟩
      rintro (⟨e', hr'⟩ | ⟨realized', component, hr', hl, hne⟩)
      · rw [hr] at hr'; cases hr'
      · rw [hr] at hr'
        cases hr'
        rw [DB.insertComponent, hl] at hins
        simp only [if_neg hne] at hins
        cases hins
    next res hne =>
      obtain ⟨rfl, component, hl, hs⟩ := insertComponent_refused h he
      exact .inl ⟨rfl, .inr ⟨realized, component, hr, hl, hs⟩⟩

/-! ## Atomicity -/

/-- A refused vtable leaves everything as it was if and only if its first field is refused. -/
theorem refused_unchanged_iff {id : UInt16} {vtable : Metor.Impl.Proto.VTable}
    (h : db.insertVTable pc fuel id vtable = (.err e, db')) (he : Refused e) :
    Unchanged db db' ↔ FirstFails db fuel vtable := by
  rw [DB.insertVTable] at h
  split at h
  · cases h
  next hne =>
    unfold FirstFails
    generalize vtable.fields = fields at h hne ⊢
    cases fields with
    | nil => cases h
    | cons field fields =>
      simp only [List.head?_cons, Option.mem_some_iff, exists_eq_left']
      obtain ⟨rfl, hf⟩ | ⟨hf, hgen⟩ := insertFields_refused h he
      · exact iff_of_true ⟨rfl, rfl, rfl, rfl, rfl⟩ hf
      · exact iff_of_false (fun hu => absurd hu.vtableGen (Nat.ne_of_gt hgen)) hf

/-- `vtable` with an operation that is not there, for its first field. -/
def refused : Metor.Impl.Proto.VTable := { vtable with fields := [⟨8, 8, 9⟩, ⟨0, 8, 4⟩] }

/-- The same fields the other way round. -/
def halfRefused : Metor.Impl.Proto.VTable := { vtable with fields := [⟨0, 8, 4⟩, ⟨8, 8, 9⟩] }

theorem refused_unchanged_named : Unchanged named (named.insertVTable plain 9 2 refused).2 := by
  have hr : refused.realizeField none 9 ⟨8, 8, 9⟩ = .err .opRefNotFound := by decide +kernel
  have h : named.insertVTable plain 9 2 refused = (.err (.impeller .opRefNotFound), named) := by
    rw [DB.insertVTable, show refused.fields = [⟨8, 8, 9⟩, ⟨0, 8, 4⟩] from rfl, DB.insertFields, hr]
  rw [h]
  exact (refused_unchanged_iff h trivial).mpr ⟨⟨8, 8, 9⟩, rfl, .inl ⟨_, hr⟩⟩

/-- Component 7 is inserted before the second field is found not to realize. -/
theorem refused_changed : ¬ ∀ (db db' : DB Encoded String) (fuel : Nat) (id : UInt16)
    (vtable : Metor.Impl.Proto.VTable) (e : Error), db.insertVTable plain fuel id vtable = (.err e, db') → Refused e →
      Unchanged db db' := by
  intro h
  have hr₀ : halfRefused.realizeField none 9 ⟨0, 8, 4⟩ = .ok ⟨7, [1], .f64, 0, none, none⟩ := by decide +kernel
  have hr₁ : halfRefused.realizeField none 9 ⟨8, 8, 9⟩ = .err .opRefNotFound := by decide +kernel
  have hi := insertComponent_named
    (show plain.allocates (Metor.Impl.ComponentSchema.size ⟨.f64, [1]⟩ * 1024 % 2 ^ 64) by decide)
  have hs : named.insertVTable plain 9 2 halfRefused =
      (.err (.impeller .opRefNotFound), { inserted with state.vtableRegistry := ∅ }) := by
    rw [DB.insertVTable, show halfRefused.fields = [⟨0, 8, 4⟩, ⟨8, 8, 9⟩] from rfl]
    simp only [DB.insertFields, hr₀, hr₁, show UInt64.ofNat 7 = 7 from rfl, hi]
    rfl
  exact absurd (h _ _ 9 2 halfRefused _ hs trivial).vtableGen (by decide)

end Metor.Proof.Db
