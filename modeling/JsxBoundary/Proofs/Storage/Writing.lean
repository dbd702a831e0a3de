import JsxBoundary.Proofs.Storage.Trees
import JsxBoundary.Storage.Guarded

namespace JsxBoundary

open FileTree

variable {refusals : Refusals} {t t' : FileTree} {p base : Path} {place names : List String}

namespace Refusals

def ensured (refusals : Refusals) (t : FileTree) (p : Path) : Except StorageError Unit × FileTree :=
  (Storage.ensureDirectory p : Guarded refusals (Except StorageError Unit)).run t

/-- What comes of writing a file and making the directories that it lies in. -/
def stored (refusals : Refusals) (t : FileTree) (p : Path) (content : ByteArray) :
    Except StorageError Unit × FileTree :=
  (Storage.writeInside p content : Guarded refusals (Except StorageError Unit)).run t

theorem read_eq (refusals : Refusals) (t : FileTree) (p : Path) : refusals.read t p =
    match t.locate p with
    | .error problem => .error ⟨problem, p⟩
    | .ok place =>
      match t.get? place with
      | none => .error ⟨.notFound, p⟩
      | some .directory => .error ⟨.isADirectory, p⟩
      | some (.file content) =>
        match refusals .read place with
        | some problem => .error ⟨problem, p⟩
        | none => .ok content := by
  rw [Refusals.read, FileTree.read, Refusals.check]
  cases t.locate p with
  | error => rfl
  | ok place =>
      dsimp only
      rcases t.get? place with _ | _ | content
      · rfl
      · rfl
      · dsimp only
        cases refusals .read place <;> rfl

theorem makeDirectory_eq (refusals : Refusals) (t : FileTree) (p : Path) :
    refusals.makeDirectory t p =
      match t.locate p with
      | .error problem => .error ⟨problem, p⟩
      | .ok place =>
        match t.get? place with
        | some _ => .error ⟨.alreadyExists, p⟩
        | none =>
          match refusals .makeDirectory place with
          | some problem => .error ⟨problem, p⟩
          | none => .ok (t.insert place .directory) := by
  rw [Refusals.makeDirectory, FileTree.makeDirectory, Refusals.check]
  cases t.locate p with
  | error => rfl
  | ok place =>
      dsimp only
      cases t.get? place with
      | some => rfl
      | none =>
          dsimp only
          cases refusals .makeDirectory place <;> rfl

theorem run_ensureOne (refusals : Refusals) (t : FileTree) (p : Path) :
    (Storage.ensureOne p : Guarded refusals (Except StorageError Unit)).run t =
      match t.locate p with
      | .error problem => (.error ⟨problem, p⟩, t)
      | .ok place =>
        match t.get? place with
        | some .directory => (.ok (), t)
        | some (.file _) => (.error ⟨.alreadyExists, p⟩, t)
        | none =>
          match refusals .makeDirectory place with
          | some problem => (.error ⟨problem, p⟩, t)
          | none => (.ok (), t.insert place .directory) := by
  simp only [Storage.ensureOne, Guarded.run_bind, Guarded.run_makeDirectory, makeDirectory_eq]
  cases located : t.locate p with
  | error problem =>
      have lost : t.find? p = none := by simp [FileTree.find?, located]
      cases problem <;> simp [lost]
  | ok place =>
      cases found : t.get? place with
      | some e =>
          have kind : t.find? p = some e := by simp [FileTree.find?, located, found]
          cases e <;> simp [found, kind, Entry.kind]
      | none =>
          have lost : t.find? p = none := by simp [FileTree.find?, located, found]
          cases refused : refusals .makeDirectory place with
          | none => simp [found, refused]
          | some problem => cases problem <;> simp [found, lost, refused]

theorem ensured_of_leads (leads : t.Leads p place) : refusals.ensured t p = (.ok (), t) := by
  have own : (Storage.ensureOne p : Guarded refusals (Except StorageError Unit)).run t =
      (.ok (), t) := by
    rw [run_ensureOne, leads.located]
    simp only [leads.directory]
  rw [ensured, Storage.ensureDirectory]
  cases p.names.length with
  | zero => exact own
  | succ levels => rw [Storage.ensureWithin, Guarded.run_bind, own, Guarded.run_pure]

theorem ensured_eq (p : Path) (name : String) (t : FileTree) :
    refusals.ensured t (p.append [name]) =
      match (Storage.ensureOne (p.append [name]) : Guarded refusals _).run t with
      | (.ok (), t') => (.ok (), t')
      | (.error e, t') =>
        if e.problem == .notFound then
          match refusals.ensured t' p with
          | (.ok (), t'') => (Storage.ensureOne (p.append [name]) : Guarded refusals _).run t''
          | (.error e, t'') => (.error e, t'')
        else (.error e, t') := by
  have levels : (p.append [name]).names.length = p.names.length + 1 := by simp
  have parent : (p.append [name]).parent = p := by simp [Path.parent, Path.append]
  rw [ensured, Storage.ensureDirectory, levels, Storage.ensureWithin, Guarded.run_bind]
  generalize (Storage.ensureOne (p.append [name]) : Guarded refusals _).run t = first
  obtain ⟨_ | _, t'⟩ := first
  · dsimp only
    split
    · rw [Guarded.run_bind, parent]
      rw [show (Storage.ensureWithin p.names.length p : Guarded refusals _).run t' =
        refusals.ensured t' p from rfl]
      rcases refusals.ensured t' p with ⟨_ | _, t''⟩ <;> rfl
    · rfl
  · rfl

theorem ensured_of_blocked {name : String}
    (blocked : t.locate (p.append [name]) = .error .notADirectory) :
    refusals.ensured t (p.append [name]) = (.error ⟨.notADirectory, p.append [name]⟩, t) := by
  rw [ensured_eq, run_ensureOne, blocked]
  rfl

theorem run_ensureOne_error {e : StorageError} {t' : FileTree}
    (h : (Storage.ensureOne p : Guarded refusals (Except StorageError Unit)).run t = (.error e, t')) :
    t' = t := by
  rw [run_ensureOne] at h
  split at h
  · cases h
    rfl
  · split at h
    · cases h
    · cases h
      rfl
    · split at h <;> cases h
      rfl

theorem ensured_append {name : String}
    (pending : t.locate (p.append [name]) ≠ .error .notADirectory) :
    refusals.ensured t (p.append [name]) =
      match refusals.ensured t p with
      | (.ok (), t') => (Storage.ensureOne (p.append [name]) : Guarded refusals _).run t'
      | (.error e, t') => (.error e, t') := by
  rw [ensured_eq]
  cases located : t.locate (p.append [name]) with
  | error problem =>
      rcases locate_error located with rfl | rfl
      · rw [run_ensureOne, located]
        rfl
      · exact absurd located pending
  | ok place =>
      obtain ⟨_, leads⟩ := Leads.of_append located
      rw [ensured_of_leads leads]
      rcases first : (Storage.ensureOne (p.append [name]) : Guarded refusals _).run t with ⟨e | _, t'⟩
      · cases run_ensureOne_error first
        dsimp only
        rw [ensured_of_leads leads]
        dsimp only
        rw [first]
        split <;> rfl
      · exact first.symm

end Refusals

/-! ## What changes -/

/-- How an entry may change: directories are made where `ways` says and it is not refused, and files are
written where `files` says. -/
inductive Change (refusals : Refusals) (ways files : List String → Prop) (place : List String) :
    Option Entry → Option Entry → Prop
  | kept {e : Option Entry} : Change refusals ways files place e e
  | made (allowed : refusals .makeDirectory place = none) (way : ways place) :
      Change refusals ways files place none (some .directory)
  | written {e : Option Entry} {content : ByteArray} (free : e ≠ some .directory)
      (file : files place) : Change refusals ways files place e (some (.file content))

def Affects (refusals : Refusals) (ways files : List String → Prop) (t t' : FileTree) : Prop :=
  ∀ place, Change refusals ways files place (t.get? place) (t'.get? place)

namespace Affects

variable {ways files ways' files' : List String → Prop} {t'' : FileTree}

theorem refl (t : FileTree) : Affects refusals ways files t t :=
  fun _ => .kept

theorem mono (h : Affects refusals ways files t t') (more : ∀ q, ways q → ways' q)
    (more' : ∀ q, files q → files' q) : Affects refusals ways' files' t t' := by
  intro place
  have change := h place
  generalize t.get? place = a at change ⊢
  generalize t'.get? place = b at change ⊢
  cases change with
  | kept => exact .kept
  | made allowed way => exact .made allowed (more _ way)
  | written free file => exact .written free (more' _ file)

theorem trans (first : Affects refusals ways files t t') (second : Affects refusals ways files t' t'') :
    Affects refusals ways files t t'' := by
  intro place
  have first := first place
  have second := second place
  generalize t.get? place = a at first
  generalize t'.get? place = b at first second
  generalize t''.get? place = c at second
  cases second with
  | kept => exact first
  | made allowed way =>
      cases first with
      | kept => exact .made allowed way
  | written free file =>
      cases first with
      | kept => exact .written free file
      | made => exact absurd rfl free
      | written free' => exact .written free' file

theorem keeps (h : Affects refusals ways files t t') : t.Keeps t' := by
  intro names directory
  have change := h names
  rw [directory] at change
  generalize t'.get? names = e at change
  cases change with
  | kept => rfl
  | written free => exact absurd rfl free

theorem stays_file (h : Affects refusals ways files t t') {content : ByteArray}
    (found : t.get? place = some (.file content)) : ∃ content', t'.get? place = some (.file content') := by
  have change := h place
  rw [found] at change
  generalize t'.get? place = e at change
  cases change with
  | kept => exact ⟨content, rfl⟩
  | written => exact ⟨_, rfl⟩

theorem file_eq (h : Affects refusals ways files t t') {content : ByteArray}
    (found : t.get? place = some (.file content)) (file : ¬ files place) : t'.get? place = t.get? place := by
  have change := h place
  rw [found] at change ⊢
  generalize t'.get? place = e at change
  cases change with
  | kept => rfl
  | written _ there => exact absurd there file

theorem get?_eq (h : Affects refusals ways files t t') (way : ¬ ways place) (file : ¬ files place) :
    t'.get? place = t.get? place := by
  have change := h place
  generalize t.get? place = a at change
  generalize t'.get? place = b at change
  cases change with
  | kept => rfl
  | made _ there => exact absurd there way
  | written _ there => exact absurd there file

theorem directory {names : List String} {name : String} (free : t.get? (names ++ [name]) = none)
    (allowed : refusals .makeDirectory (names ++ [name]) = none) (way : ways (names ++ [name])) :
    Affects refusals ways files t (t.insert (names ++ [name]) .directory) := by
  intro place
  rw [get?_insert t _ _ _ (by simp)]
  split
  · rename_i same
    rw [same, free]
    exact .made allowed way
  · exact .kept

theorem file {names : List String} {name : String} {content : ByteArray}
    (free : t.get? (names ++ [name]) ≠ some .directory) (file : files (names ++ [name])) :
    Affects refusals ways files t (t.insert (names ++ [name]) (.file content)) := by
  intro place
  rw [get?_insert t _ _ _ (by simp)]
  split
  · rename_i same
    rw [same]
    exact .written free file
  · exact .kept

end Affects

def Way (place names : List String) (q : List String) : Prop :=
  ∃ front, front <+: names ∧ front ≠ [] ∧ q = place ++ front

namespace Way

variable {name : String} {q : List String}

theorem snoc (h : Way place names q) : Way place (names ++ [name]) q := by
  obtain ⟨front, early, some, rfl⟩ := h
  exact ⟨front, early.trans (List.prefix_append _ _), some, rfl⟩

theorem last : Way place (names ++ [name]) (place ++ (names ++ [name])) :=
  ⟨_, List.prefix_rfl, by simp, rfl⟩

theorem below (h : Way place names q) (name : String) : ∃ more, place ++ (names ++ [name]) = q ++ more ∧ more ≠ [] := by
  obtain ⟨front, ⟨back, rfl⟩, _, rfl⟩ := h
  exact ⟨back ++ [name], by simp, by simp⟩

theorem not_last : ¬ Way place names (place ++ (names ++ [name])) := by
  rintro ⟨front, early, _, same⟩
  have length := early.length_le
  rw [← List.append_cancel_left same, List.length_append, List.length_singleton] at length
  omega

end Way

theorem FileTree.Leads.plain (leads : t.Leads base place) : ".." ∉ place := by
  have located := leads.located
  unfold locate at located
  split at located
  · cases located
  · exact walk_plain (by simp) located

theorem Path.append_append (p : Path) (names names' : List String) :
    p.append (names ++ names') = (p.append names).append names' := by
  simp [Path.append]

/-- What has become of a tree in which the directories up to a path were to be made. -/
structure Ensured (refusals : Refusals) (t : FileTree) (base : Path) (place names : List String)
    (r : Except StorageError Unit × FileTree) : Prop where
  affects : Affects refusals (Way place names) (fun _ => False) t r.2
  tidy : r.2.Tidy
  leads : r.1 = .ok () → r.2.Leads (base.append names) (place ++ names)

theorem Ensured.failed {e : StorageError}
    (affects : Affects refusals (Way place names) (fun _ => False) t t') (tidy : t'.Tidy) :
    Ensured refusals t base place names (.error e, t') :=
  ⟨affects, tidy, fun done => by cases done⟩

theorem Ensured.extend {name : String} (made : Ensured refusals t base place names (.ok (), t'))
    (leads : t.Leads base place) (plain : ".." ∉ names ++ [name]) :
    Ensured refusals t base place (names ++ [name])
      ((Storage.ensureOne (base.append (names ++ [name])) : Guarded refusals _).run t') := by
  have widen : Affects refusals (Way place (names ++ [name])) (fun _ => False) t t' :=
    made.affects.mono (fun _ => Way.snoc) fun _ => id
  have inside := made.leads rfl
  have there := inside.append fun same : name = ".." => plain (by simp [same])
  rw [Refusals.run_ensureOne, there]
  dsimp only
  split
  · rename_i directory
    exact ⟨widen, made.tidy, fun _ => ⟨there, directory⟩⟩
  · exact .failed widen made.tidy
  · rename_i free
    split
    · exact .failed widen made.tidy
    · rename_i allowed
      have created : Affects refusals (Way place (names ++ [name])) (fun _ => False) t'
          (t'.insert (place ++ (names ++ [name])) .directory) := by
        have last : Way place (names ++ [name]) (place ++ (names ++ [name])) := .last
        rw [← List.append_assoc] at free allowed last ⊢
        exact .directory free allowed last
      refine ⟨widen.trans created, ?_, fun _ => ⟨locate_keep created.keeps there, ?_⟩⟩
      · rw [← List.append_assoc] at free ⊢
        refine made.tidy.insert ?_ inside.directory fun same => by rw [free] at same; cases same
        rw [List.append_assoc]
        exact fun member => (List.mem_append.1 member).elim leads.plain plain
      · rw [get?_insert _ _ _ _ (by simp), if_pos rfl]

theorem Refusals.ensured_spec (refusals : Refusals) (leads : t.Leads base place) (tidy : t.Tidy)
    (plain : ".." ∉ names) :
    Ensured refusals t base place names (refusals.ensured t (base.append names)) := by
  induction names using List.reverseRecOn with
  | nil =>
      have same : base.append [] = base := by simp [Path.append]
      rw [same, ensured_of_leads leads]
      exact ⟨.refl t, tidy, fun _ => by rw [same, List.append_nil]; exact leads⟩
  | append_singleton names name ih =>
      have first := ih fun member => plain (List.mem_append_left _ member)
      by_cases blocked : t.locate (base.append (names ++ [name])) = .error .notADirectory
      · rw [Path.append_append] at blocked ⊢
        rw [ensured_of_blocked blocked]
        exact .failed (.refl t) tidy
      · rw [Path.append_append] at blocked ⊢
        rw [ensured_append blocked]
        generalize refusals.ensured t (base.append names) = made at first ⊢
        obtain ⟨e | _, t'⟩ := made
        · exact .failed (first.affects.mono (fun _ => Way.snoc) fun _ => id) first.tidy
        · rw [← Path.append_append]
          exact first.extend leads plain

theorem Refusals.stored_append (p : Path) (name : String) (content : ByteArray) :
    refusals.stored t (p.append [name]) content =
      match refusals.ensured t p with
      | (.ok (), t') => refusals.write t' (p.append [name]) content
      | (.error e, t') => (.error e, t') := by
  have parent : (p.append [name]).parent = p := by simp [Path.parent, Path.append]
  rw [stored, Storage.writeInside, Guarded.run_bind, parent]
  rw [show (Storage.ensureDirectory p : Guarded refusals _).run t = refusals.ensured t p from rfl]
  rcases refusals.ensured t p with ⟨_ | _, t'⟩ <;> rfl

/-- What stands where a file could not be written: what was there, or as much of the content as there was when
writing it broke off. -/
inductive Spared (refusals : Refusals) (place : List String) (content : ByteArray) (before : Option Entry) :
    Option Entry → Prop
  | kept : Spared refusals place content before before
  | cut {kept : Nat} {problem : StorageProblem} (breaks : refusals.breaks place content = some (kept, problem)) :
      Spared refusals place content before (some (.file (content.extract 0 kept)))

structure Stored (refusals : Refusals) (t : FileTree) (place names : List String) (name : String)
    (content : ByteArray) (r : Except StorageError Unit × FileTree) : Prop where
  affects : Affects refusals (Way place names) (· = place ++ (names ++ [name])) t r.2
  tidy : r.2.Tidy
  written : r.1 = .ok () → r.2.get? (place ++ (names ++ [name])) = some (.file content)
  spared : ∀ e, r.1 = .error e → Spared refusals (place ++ (names ++ [name])) content
    (t.get? (place ++ (names ++ [name]))) (r.2.get? (place ++ (names ++ [name])))

theorem Stored.failed {name : String} {content : ByteArray} {e : StorageError}
    (affects : Affects refusals (Way place names) (· = place ++ (names ++ [name])) t t')
    (tidy : t'.Tidy)
    (target : t'.get? (place ++ (names ++ [name])) = t.get? (place ++ (names ++ [name]))) :
    Stored refusals t place names name content (.error e, t') :=
  ⟨affects, tidy, fun done => (by cases done), fun _ _ => target ▸ .kept⟩

theorem Refusals.stored_spec (refusals : Refusals) {name : String} (leads : t.Leads base place)
    (tidy : t.Tidy) (plain : ".." ∉ names ++ [name]) (content : ByteArray) :
    Stored refusals t place names name content
      (refusals.stored t (base.append (names ++ [name])) content) := by
  have made := refusals.ensured_spec leads tidy
    fun member => plain (List.mem_append_left _ member)
  have widen : Affects refusals (Way place names) (· = place ++ (names ++ [name])) t
      (refusals.ensured t (base.append names)).2 := made.affects.mono (fun _ => id) fun _ => False.elim
  have aside : ¬ Way place names (place ++ (names ++ [name])) := Way.not_last
  have target := made.affects.get?_eq aside id
  rw [Path.append_append, stored_append]
  generalize refusals.ensured t (base.append names) = result at made widen target ⊢
  obtain ⟨e | _, t'⟩ := result
  · exact .failed widen made.tidy target
  · have inside := made.leads rfl
    have there := inside.append fun same : name = ".." => plain (by simp [same])
    rw [Path.append_append] at there
    have filled (free : t'.get? (place ++ (names ++ [name])) ≠ some .directory) (content : ByteArray) :
        Affects refusals (Way place names) (· = place ++ (names ++ [name])) t
            (t'.insert (place ++ (names ++ [name])) (.file content)) ∧
          (t'.insert (place ++ (names ++ [name])) (.file content)).Tidy := by
      have free' : t'.get? (place ++ names ++ [name]) ≠ some .directory := by rwa [List.append_assoc]
      refine ⟨widen.trans ?_, ?_⟩
      · rw [← List.append_assoc]
        exact .file free' rfl
      · rw [← List.append_assoc]
        refine made.tidy.insert ?_ inside.directory free'
        rw [List.append_assoc]
        exact fun member => (List.mem_append.1 member).elim leads.plain plain
    dsimp only
    rw [Refusals.write, there]
    dsimp only
    split
    · exact .failed widen made.tidy target
    · rename_i free
      split
      · exact .failed widen made.tidy target
      · split
        · rename_i kept problem breaks
          obtain ⟨affects, tidied⟩ := filled free (content.extract 0 kept)
          refine ⟨affects, tidied, fun done => (by cases done), fun _ _ => ?_⟩
          rw [get?_insert _ _ _ _ (by simp), if_pos rfl]
          exact .cut breaks
        · obtain ⟨affects, tidied⟩ := filled free content
          refine ⟨affects, tidied, fun _ => ?_, fun _ failed => by cases failed⟩
          rw [get?_insert _ _ _ _ (by simp), if_pos rfl]

/-! ## What is found afterwards -/

theorem FileTree.Keeps.insert_file {content : ByteArray} (named : place ≠ [])
    (free : t.get? place ≠ some .directory) : t.Keeps (t.insert place (.file content)) := by
  intro names directory
  rw [get?_insert _ _ _ _ named]
  split
  · rename_i same
    rw [same] at directory
    exact absurd directory free
  · exact directory

namespace Refusals

variable {content : ByteArray}

theorem find?_of_write (h : refusals.write t p content = (.ok (), t')) :
    t'.find? p = some (.file content) := by
  rw [Refusals.write] at h
  split at h
  · cases h
  · rename_i place located
    split at h
    · cases h
    · rename_i free
      split at h
      · cases h
      · split at h
        · cases h
        · cases h
          have named : place ≠ [] := by
            rintro rfl
            exact free rfl
          rw [find?, locate_keep (.insert_file named free) located]
          dsimp only
          rw [get?_insert _ _ _ _ named, if_pos rfl]

theorem find?_of_stored (h : (refusals.stored t p content).1 = .ok ()) :
    (refusals.stored t p content).2.find? p = some (.file content) := by
  rw [stored, Storage.writeInside, Guarded.run_bind] at h ⊢
  generalize Guarded.run _ t = made at h ⊢
  obtain ⟨_ | _, u⟩ := made
  · cases h
  · exact find?_of_write (Prod.ext h rfl)

end Refusals

end JsxBoundary
