import Mathlib.Data.List.Infix
import Mathlib.Data.List.Dedup
import Mathlib.Logic.Function.Basic

/-!
# A file system

What lies at each path below one directory, a path being the list of its
names; file contents are of any type. The operations are those of `std::fs`,
`none` standing for an I/O error. `createDirAll_eq`, `write_eq` and
`createNew_eq` say what each of them changes. A directory may be listed in any
order (`Lists`).
-/

namespace Metor.Lib

inductive Entry (β : Type) where
  | dir
  | file (content : β)
  deriving DecidableEq, Repr

abbrev Path := List String

abbrev FileSys (β : Type) := Path → Option (Entry β)

namespace FileSys

variable {β : Type} {fs fs' : FileSys β} {p q : Path} {c : β}

/-- Nothing, not even the directory itself. -/
def empty : FileSys β := fun _ => none

/-- `Path::exists` -/
def «exists» (fs : FileSys β) (p : Path) : Bool := (fs p).isSome

/-- `Path::is_dir` -/
def isDir (fs : FileSys β) (p : Path) : Bool :=
  match fs p with
  | some .dir => true
  | _ => false

def isFile (fs : FileSys β) (p : Path) : Bool :=
  match fs p with
  | some (.file _) => true
  | _ => false

/-- `std::fs::read` -/
def read (fs : FileSys β) (p : Path) : Option β :=
  match fs p with
  | some (.file c) => some c
  | _ => none

/-- `std::fs::create_dir_all`: fails when a directory on the way is a file. -/
def createDirAll (fs : FileSys β) (p : Path) : Option (FileSys β) :=
  if p.inits.any fs.isFile then none else some fun q => if q.isPrefixOf p then some .dir else fs q

/-- `std::fs::write`, which creates the file or replaces its contents. -/
def write (fs : FileSys β) (p : Path) (c : β) : Option (FileSys β) :=
  if fs.isDir p || !fs.isDir p.dropLast then none else some (Function.update fs p (some (.file c)))

/-- `OpenOptions::create_new` -/
def createNew (fs : FileSys β) (p : Path) (c : β) : Option (FileSys β) :=
  if fs.exists p then none else fs.write p c

/-- `listing` is what `std::fs::read_dir` may give for each directory, in its order. -/
structure Lists (fs : FileSys β) (listing : Path → List String) : Prop where
  nodup : ∀ p, (listing p).Nodup
  mem_iff : ∀ {p n}, n ∈ listing p ↔ fs.exists (p ++ [n])

/-- The file system with these entries, the first of each path. -/
def ofList (entries : List (Path × Entry β)) : FileSys β := fun p => entries.lookup p

/-- The names in a directory, in the order of the entries. -/
def namesIn (entries : List (Path × Entry β)) (p : Path) : List String :=
  ((entries.map Prod.fst).filterMap fun q => if q.dropLast = p then q.getLast? else none).dedup

theorem isDir_iff : fs.isDir p = true ↔ fs p = some .dir := by
  rw [isDir]
  split <;> simp_all

theorem isFile_iff : fs.isFile p = true ↔ ∃ c, fs p = some (.file c) := by
  rw [isFile]
  split <;> simp_all

theorem createDirAll_eq (h : fs.createDirAll p = some fs') :
    (∀ q, q <+: p → ∀ c, fs q ≠ some (.file c)) ∧ ∀ q, fs' q = if q <+: p then some .dir else fs q := by
  simp only [createDirAll, Option.ite_none_left_eq_some, Option.some.injEq, Bool.not_eq_true,
    List.any_eq_false, List.mem_inits] at h
  obtain ⟨hf, rfl⟩ := h
  refine ⟨fun q hq c hc => ?_, fun q => ?_⟩
  · exact Bool.false_ne_true ((hf q hq).symm.trans (isFile_iff.mpr ⟨c, hc⟩))
  · simp only [List.isPrefixOf_iff_prefix]

theorem write_eq (h : fs.write p c = some fs') : fs' = Function.update fs p (some (.file c)) := by
  simp only [write, Option.ite_none_left_eq_some, Option.some.injEq] at h
  exact h.2.symm

theorem createNew_eq (h : fs.createNew p c = some fs') :
    fs p = none ∧ fs' = Function.update fs p (some (.file c)) := by
  rw [createNew] at h
  split at h
  · cases h
  next he => exact ⟨by simpa [FileSys.exists] using he, write_eq h⟩

/-! ## File systems given by their entries -/

theorem empty_eq : (empty : FileSys β) = ofList [] := rfl

theorem lookup_dirs (ps : List Path) :
    (ps.map fun p => (p, (Entry.dir : Entry β))).lookup q = if q ∈ ps then some .dir else none := by
  induction ps with
  | nil => rfl
  | cons p ps ih =>
    rw [List.map_cons, List.lookup_cons, ih]
    by_cases h : q = p
    · simp [h]
    · simp [h, beq_false_of_ne h]

theorem createDirAll_ofList {entries : List (Path × Entry β)} :
    (ofList entries).createDirAll p = if p.inits.any (ofList entries).isFile then none
      else some (ofList (p.inits.map (·, .dir) ++ entries)) := by
  have : (fun q => if q.isPrefixOf p then some .dir else ofList entries q) =
      ofList (p.inits.map (·, .dir) ++ entries) := by
    funext q
    rw [ofList, ofList, List.lookup_append, lookup_dirs]
    simp only [List.isPrefixOf_iff_prefix, List.mem_inits]
    split <;> rfl
  rw [createDirAll, this]

theorem write_ofList {entries : List (Path × Entry β)} :
    (ofList entries).write p c = if (ofList entries).isDir p || !(ofList entries).isDir p.dropLast then none
      else some (ofList ((p, .file c) :: entries)) := by
  have : Function.update (ofList entries) p (some (.file c)) = ofList ((p, .file c) :: entries) := by
    funext q
    rw [Function.update_apply, ofList, ofList, List.lookup_cons]
    by_cases h : q = p
    · rw [if_pos h]; simp [h]
    · rw [if_neg h]; simp [beq_false_of_ne h]
  rw [write, this]

theorem name_eq_some {n : String} : (if q.dropLast = p then q.getLast? else none) = some n ↔ q = p ++ [n] := by
  rw [Option.ite_none_right_eq_some]
  constructor
  · rintro ⟨rfl, h⟩
    exact (List.dropLast_append_getLast? n h).symm
  · rintro rfl
    exact ⟨List.dropLast_concat, List.getLast?_concat⟩

/-- So a directory can always be listed. -/
theorem lists_ofList (entries : List (Path × Entry β)) : Lists (ofList entries) (namesIn entries) := by
  refine ⟨fun p => List.nodup_dedup _, fun {p n} => ?_⟩
  simp only [namesIn, List.mem_dedup, List.mem_filterMap, name_eq_some, exists_eq_right, FileSys.exists, ofList,
    List.lookup_isSome_iff]
  simp

end FileSys

end Metor.Lib
