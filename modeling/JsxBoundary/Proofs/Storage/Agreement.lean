import JsxBoundary.Proofs.Storage.Writing

namespace JsxBoundary

open FileTree

variable {refusals : Refusals} {t t' : FileTree} {p base : Path} {place names : List String}
  {name : String}

/-- The second entry is of the kind of the first, or a directory that was free to be made there. -/
inductive Ahead (refusals : Refusals) (place : List String) : Option Entry → Option Entry → Prop
  | same {e e' : Option Entry} (kind : e'.map Entry.kind = e.map Entry.kind) : Ahead refusals place e e'
  | made (allowed : refusals .makeDirectory place = none) :
      Ahead refusals place none (some .directory)

theorem Ahead.file_iff {e e' : Option Entry} (ahead : Ahead refusals place e e') :
    (∃ content, e' = some (.file content)) ↔ ∃ content, e = some (.file content) := by
  cases ahead with
  | same kind => rcases e with _ | _ | _ <;> rcases e' with _ | _ | _ <;> simp_all [Entry.kind]
  | made => simp

theorem Refusals.ensureOne_agree (refusals : Refusals) {q : List String} (located : t.locate p = .ok place)
    (located' : t'.locate p = .ok place) (named : place ≠ [])
    (ahead : Ahead refusals place (t.get? place) (t'.get? place)) :
    let r := (Storage.ensureOne p : Guarded refusals (Except StorageError Unit)).run t
    let r' := (Storage.ensureOne p : Guarded refusals (Except StorageError Unit)).run t'
    r'.1 = r.1 ∧ (Ahead refusals q (t.get? q) (t'.get? q) →
      Ahead refusals q (r.2.get? q) (r'.2.get? q)) := by
  rw [run_ensureOne, run_ensureOne, located, located']
  dsimp only
  generalize found : t.get? place = e at ahead
  generalize found' : t'.get? place = e' at ahead
  cases ahead with
  | same kind =>
      rcases e with _ | _ | _ <;> rcases e' with _ | _ | _ <;> cases kind
      · dsimp only
        cases refusals .makeDirectory place with
        | some => exact ⟨rfl, id⟩
        | none =>
            refine ⟨rfl, fun ahead => ?_⟩
            rw [get?_insert _ _ _ _ named, get?_insert _ _ _ _ named]
            split
            · exact .same rfl
            · exact ahead
      · exact ⟨rfl, id⟩
      · exact ⟨rfl, id⟩
  | made allowed =>
      dsimp only
      rw [allowed]
      refine ⟨rfl, fun ahead => ?_⟩
      rw [get?_insert _ _ _ _ named]
      split
      · rename_i here
        rw [here, found']
        exact .same rfl
      · exact ahead

theorem FileTree.Tidy.blocked_iff {name : String} (tidy : t.Tidy) (leads : t.Leads base place)
    (plain : ".." ∉ names ++ [name]) :
    t.locate (base.append (names ++ [name])) = .error .notADirectory ↔
      ∃ q, Way place names q ∧ ∃ content, t.get? q = some (.file content) := by
  rw [leads.locate_append, tidy.walk_blocked_iff plain]
  constructor
  · rintro ⟨front, back, content, split, more, found⟩
    refine ⟨place ++ front, ⟨front, ?_, ?_, rfl⟩, content, found⟩
    · refine (List.prefix_concat_iff.1 ⟨back, split.symm⟩).resolve_left ?_
      rintro rfl
      exact more (List.self_eq_append_right.1 split)
    · rintro rfl
      rw [List.append_nil, leads.directory] at found
      cases found
  · rintro ⟨_, ⟨front, ⟨back, rfl⟩, _, rfl⟩, content, found⟩
    exact ⟨front, back ++ [name], content, by simp, by simp, found⟩

/-- Where the second tree is ahead of the first on the way, making a directory comes to the same in both,
and the second tree stays ahead wherever it was. -/
theorem Refusals.ensured_agree (leads : t.Leads base place) (leads' : t'.Leads base place)
    (tidy : t.Tidy) (tidy' : t'.Tidy) (plain : ".." ∉ names)
    (ahead : ∀ q, Way place names q → Ahead refusals q (t.get? q) (t'.get? q)) :
    let r := refusals.ensured t (base.append names)
    let r' := refusals.ensured t' (base.append names)
    r'.1 = r.1 ∧ ∀ q, Ahead refusals q (t.get? q) (t'.get? q) →
      Ahead refusals q (r.2.get? q) (r'.2.get? q) := by
  -- Along the way from the outside: the directories around the last one come to the same by induction.
  induction names using List.reverseRecOn with
  | nil =>
      have same : base.append [] = base := by simp [Path.append]
      rw [same, ensured_of_leads leads, ensured_of_leads leads']
      exact ⟨rfl, fun _ => id⟩
  | append_singleton names name ih =>
      have early : ".." ∉ names := fun member => plain (List.mem_append_left _ member)
      have other : name ≠ ".." := fun same => plain (by simp [same])
      have first := ih early fun q way => ahead q way.snoc
      have spec := refusals.ensured_spec leads tidy early
      have spec' := refusals.ensured_spec leads' tidy' early
      have blocked : t'.locate (base.append (names ++ [name])) = .error .notADirectory ↔
          t.locate (base.append (names ++ [name])) = .error .notADirectory := by
        rw [tidy.blocked_iff leads plain, tidy'.blocked_iff leads' plain]
        exact exists_congr fun q => and_congr_right fun way => (ahead q way.snoc).file_iff
      rw [Path.append_append] at blocked ⊢
      by_cases stopped : t.locate ((base.append names).append [name]) = .error .notADirectory
      · rw [ensured_of_blocked stopped, ensured_of_blocked (blocked.2 stopped)]
        exact ⟨rfl, fun _ => id⟩
      · rw [ensured_append stopped, ensured_append (mt blocked.1 stopped)]
        generalize refusals.ensured t (base.append names) = made at first spec ⊢
        generalize refusals.ensured t' (base.append names) = made' at first spec' ⊢
        obtain ⟨e | _, u⟩ := made <;> obtain ⟨e' | _, u'⟩ := made' <;> cases first.1
        · exact ⟨rfl, first.2⟩
        · have there := (spec.leads rfl).append other
          have there' := (spec'.leads rfl).append other
          rw [Path.append_append] at there there'
          have step := fun q => refusals.ensureOne_agree (q := q) there there' (by simp)
            (first.2 _ (ahead _ Way.last))
          exact ⟨(step []).1, fun q h => (step q).2 (first.2 q h)⟩

structure Ready (refusals : Refusals) (place names : List String) (name : String)
    (t t' : FileTree) : Prop where
  ways : ∀ q, Way place names q → Ahead refusals q (t.get? q) (t'.get? q)
  target : (t'.get? (place ++ (names ++ [name]))).map Entry.kind =
    (t.get? (place ++ (names ++ [name]))).map Entry.kind

theorem Ready.refl (refusals : Refusals) (place names : List String) (name : String) (t : FileTree) :
    Ready refusals place names name t t :=
  ⟨fun _ _ => .same rfl, rfl⟩

theorem Refusals.write_agree (refusals : Refusals) (located : t.locate p = .ok place)
    (located' : t'.locate p = .ok place) (named : place ≠ [])
    (kind : (t'.get? place).map Entry.kind = (t.get? place).map Entry.kind) (content : ByteArray) :
    let r := refusals.write t p content
    let r' := refusals.write t' p content
    r'.1 = r.1 ∧ (t'.get? place = t.get? place → r'.2.get? place = r.2.get? place) := by
  have filled (content : ByteArray) : (t'.insert place (.file content)).get? place =
      (t.insert place (.file content)).get? place := by
    rw [get?_insert _ _ _ _ named, get?_insert _ _ _ _ named, if_pos rfl, if_pos rfl]
  rw [Refusals.write, Refusals.write, located, located']
  dsimp only
  generalize found : t.get? place = e at kind
  generalize found' : t'.get? place = e' at kind
  have kept : e' = e → t'.get? place = t.get? place := fun same => found'.trans (same.trans found.symm)
  rcases e with _ | _ | _ <;> rcases e' with _ | _ | _ <;> cases kind
  · dsimp only
    cases refusals .write place with
    | some => exact ⟨rfl, kept⟩
    | none => cases refusals.breaks place content <;> exact ⟨rfl, fun _ => filled _⟩
  · exact ⟨rfl, kept⟩
  · dsimp only
    cases refusals .write place with
    | some => exact ⟨rfl, kept⟩
    | none => cases refusals.breaks place content <;> exact ⟨rfl, fun _ => filled _⟩

theorem Refusals.stored_agree (leads : t.Leads base place) (leads' : t'.Leads base place)
    (tidy : t.Tidy) (tidy' : t'.Tidy) (plain : ".." ∉ names ++ [name])
    (ready : Ready refusals place names name t t') (content : ByteArray) :
    let r := refusals.stored t (base.append (names ++ [name])) content
    let r' := refusals.stored t' (base.append (names ++ [name])) content
    r'.1 = r.1 ∧ (t'.get? (place ++ (names ++ [name])) = t.get? (place ++ (names ++ [name])) →
      r'.2.get? (place ++ (names ++ [name])) = r.2.get? (place ++ (names ++ [name]))) := by
  have early : ".." ∉ names := fun member => plain (List.mem_append_left _ member)
  have other : name ≠ ".." := fun same => plain (by simp [same])
  have first := ensured_agree leads leads' tidy tidy' early ready.ways
  have spec := refusals.ensured_spec leads tidy early
  have spec' := refusals.ensured_spec leads' tidy' early
  have target := ready.target
  rw [← spec.affects.get?_eq Way.not_last id, ← spec'.affects.get?_eq Way.not_last id] at target ⊢
  rw [Path.append_append, stored_append, stored_append]
  generalize refusals.ensured t (base.append names) = made at first spec target ⊢
  generalize refusals.ensured t' (base.append names) = made' at first spec' target ⊢
  obtain ⟨e | _, u⟩ := made <;> obtain ⟨e' | _, u'⟩ := made' <;> cases first.1
  · exact ⟨rfl, id⟩
  · have there := (spec.leads rfl).append other
    have there' := (spec'.leads rfl).append other
    rw [Path.append_append] at there there'
    exact refusals.write_agree there there' (by simp) target content

theorem Refusals.stored_ok_iff (leads : t.Leads base place) (tidy : t.Tidy) (plain : ".." ∉ names ++ [name])
    (content : ByteArray) :
    (refusals.stored t (base.append (names ++ [name])) content).1 = .ok () ↔
      (refusals.ensured t (base.append names)).1 = .ok () ∧
        t.get? (place ++ (names ++ [name])) ≠ some .directory ∧
        refusals .write (place ++ (names ++ [name])) = none ∧
        refusals.breaks (place ++ (names ++ [name])) content = none := by
  have other : name ≠ ".." := fun same => plain (by simp [same])
  have spec := refusals.ensured_spec leads tidy fun member => plain (List.mem_append_left _ member)
  have target : (refusals.ensured t (base.append names)).2.get? (place ++ (names ++ [name])) =
      t.get? (place ++ (names ++ [name])) := spec.affects.get?_eq Way.not_last id
  rw [← target, Path.append_append, stored_append]
  generalize refusals.ensured t (base.append names) = made at spec ⊢
  obtain ⟨e | _, u⟩ := made
  · simp
  · have there := (spec.leads rfl).append other
    rw [Path.append_append] at there
    dsimp only
    rw [Refusals.write, there]
    dsimp only
    rcases u.get? (place ++ (names ++ [name])) with _ | _ | _ <;> dsimp only <;>
      cases refusals .write (place ++ (names ++ [name])) <;>
        rcases refusals.breaks (place ++ (names ++ [name])) content with _ | ⟨kept, problem⟩ <;> simp

theorem Refusals.stored_away (leads : t.Leads base place) (tidy : t.Tidy)
    (plain : ".." ∉ names ++ [name]) (content : ByteArray) {q : List String}
    (away : q ≠ place ++ (names ++ [name])) :
    (refusals.stored t (base.append (names ++ [name])) content).2.get? q =
      (refusals.ensured t (base.append names)).2.get? q := by
  have other : name ≠ ".." := fun same => plain (by simp [same])
  have spec := refusals.ensured_spec leads tidy
    fun member => plain (List.mem_append_left _ member)
  rw [Path.append_append, stored_append]
  generalize refusals.ensured t (base.append names) = made at spec ⊢
  obtain ⟨e | _, u⟩ := made
  · rfl
  · have there := (spec.leads rfl).append other
    rw [Path.append_append] at there
    dsimp only
    rw [Refusals.write, there]
    dsimp only
    split
    · rfl
    · split
      · rfl
      · split <;> rw [get?_insert _ _ _ _ (by simp), if_neg away]

namespace Ready

theorem beside {sibling : String} (ready : Ready refusals place names name t t')
    (leads : t.Leads base place) (leads' : t'.Leads base place) (tidy : t.Tidy) (tidy' : t'.Tidy)
    (plain : ".." ∉ names ++ [sibling]) (apart : name ≠ sibling) (content : ByteArray) :
    Ready refusals place names name
      (refusals.stored t (base.append (names ++ [sibling])) content).2
      (refusals.stored t' (base.append (names ++ [sibling])) content).2 := by
  have early : ".." ∉ names := fun member => plain (List.mem_append_left _ member)
  have first := Refusals.ensured_agree leads leads' tidy tidy' early ready.ways
  have spec := refusals.ensured_spec leads tidy early
  have spec' := refusals.ensured_spec leads' tidy' early
  have away : place ++ (names ++ [name]) ≠ place ++ (names ++ [sibling]) := by simpa using apart
  refine ⟨fun q way => ?_, ?_⟩
  · have off : q ≠ place ++ (names ++ [sibling]) := by
      rintro rfl
      exact Way.not_last way
    rw [Refusals.stored_away leads tidy plain content off,
      Refusals.stored_away leads' tidy' plain content off]
    exact first.2 q (ready.ways q way)
  · rw [Refusals.stored_away leads tidy plain content away,
      Refusals.stored_away leads' tidy' plain content away,
      spec.affects.get?_eq Way.not_last id, spec'.affects.get?_eq Way.not_last id]
    exact ready.target

theorem affected {ways files : List String → Prop} {t'' : FileTree}
    (ready : Ready refusals place names name t t') (affects : Affects refusals ways files t' t'')
    (bare : ¬ ways (place ++ (names ++ [name]))) (free : ¬ files (place ++ (names ++ [name])))
    (clear : ∀ q, Way place names q → files q → t.get? q = none → ∀ content, t''.get? q ≠ some (.file content)) :
    Ready refusals place names name t t'' := by
  refine ⟨fun q way => ?_, by rw [affects.get?_eq bare free]; exact ready.target⟩
  have ahead := ready.ways q way
  have change := affects q
  have clear := clear q way
  generalize t.get? q = a at ahead clear ⊢
  generalize t'.get? q = b at ahead change
  generalize t''.get? q = c at change clear ⊢
  cases change with
  | kept => exact ahead
  | made allowed =>
      cases ahead with
      | same kind =>
          rcases a with _ | _ | _ <;> cases kind
          exact .made allowed
  | written open' file =>
      cases ahead with
      | made => exact absurd rfl open'
      | same kind =>
          rcases a with _ | _ | _
          · exact absurd rfl (clear file rfl _)
          · rcases b with _ | _ | _ <;> cases kind
            exact absurd rfl open'
          · exact .same rfl

end Ready

end JsxBoundary
