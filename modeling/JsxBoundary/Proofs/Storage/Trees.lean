import JsxBoundary.Storage.FileTree
import Mathlib.Data.List.Induction

namespace JsxBoundary

namespace FileTree

variable {t t' : FileTree} {place names rest : List String} {p base : Path} {e : Entry}

/-- Everything stored has one plain name in a directory of the tree. -/
structure Tidy (t : FileTree) : Prop where
  plain : ∀ names e, (names, e) ∈ t.entries → names ≠ [] ∧ ".." ∉ names
  distinct : (t.entries.map (·.1)).Nodup
  inside : ∀ names name, t.get? (names ++ [name]) ≠ none → t.get? names = some .directory

def Keeps (t t' : FileTree) : Prop :=
  ∀ names, t.get? names = some .directory → t'.get? names = some .directory

theorem Keeps.refl (t : FileTree) : t.Keeps t :=
  fun _ => id

theorem Keeps.trans {t'' : FileTree} (first : t.Keeps t') (second : t'.Keeps t'') : t.Keeps t'' :=
  fun names h => second names (first names h)

theorem get?_eq_lookup (h : names ≠ []) : t.get? names = t.entries.lookup names := by
  cases names with
  | nil => exact absurd rfl h
  | cons name names => rfl

theorem Tidy.mem_iff (tidy : t.Tidy) (h : names ≠ []) :
    (names, e) ∈ t.entries ↔ t.get? names = some e := by
  rw [get?_eq_lookup h, List.lookup_eq_some_iff]
  constructor
  · intro member
    obtain ⟨front, back, split⟩ := List.append_of_mem member
    refine ⟨front, back, split, fun entry early => ?_⟩
    have distinct := tidy.distinct
    rw [split, List.map_append, List.map_cons, List.nodup_append] at distinct
    rw [bne_iff_ne]
    exact (distinct.2.2 _ (List.mem_map_of_mem early) _ (.head _)).symm
  · rintro ⟨front, back, split, -⟩
    rw [split]
    simp

theorem Tidy.of_entries (distinct : (t.entries.map (·.1)).Nodup)
    (each : ∀ x ∈ t.entries, ∃ names name, x.1 = names ++ [name] ∧ ".." ∉ x.1 ∧
      t.get? names = some .directory) : t.Tidy := by
  refine ⟨fun names e member => ?_, distinct, fun names name h => ?_⟩
  · obtain ⟨above, name, rfl, plain, _⟩ := each _ member
    exact ⟨by simp, plain⟩
  · obtain ⟨e, found⟩ := Option.ne_none_iff_exists'.1 h
    rw [get?_eq_lookup (by simp), List.lookup_eq_some_iff] at found
    obtain ⟨front, back, split, _⟩ := found
    obtain ⟨above, last, same, _, directory⟩ := each (names ++ [name], e) (by simp [split])
    rwa [(List.append_inj' same rfl).1]

theorem Tidy.above (tidy : t.Tidy) (h : t.get? (names ++ rest) ≠ none) (below : rest ≠ []) :
    t.get? names = some .directory := by
  induction rest using List.reverseRecOn with
  | nil => exact absurd rfl below
  | append_singleton rest name ih =>
      rw [← List.append_assoc] at h
      have directory := tidy.inside _ _ h
      by_cases last : rest = []
      · rwa [last, List.append_nil] at directory
      · exact ih (by rw [directory]; nofun) last

theorem Tidy.below (tidy : t.Tidy) (closed : t.get? names ≠ some .directory) (below : rest ≠ []) :
    t.get? (names ++ rest) = none := by
  by_contra found
  exact closed (tidy.above found below)

theorem walk_append (place names names' : List String) :
    t.walk place (names ++ names') = (t.walk place names).bind (t.walk · names') := by
  induction names generalizing place with
  | nil => rfl
  | cons name names ih =>
      rw [List.cons_append, walk, walk]
      split
      · rfl
      · rfl
      · split
        · split
          · rfl
          · exact ih _
        · exact ih _

theorem walk_keep (keeps : t.Keeps t') (h : t.walk place names = .ok rest) :
    t'.walk place names = .ok rest := by
  induction names generalizing place with
  | nil => exact h
  | cons name names ih =>
      rw [walk] at h ⊢
      split at h
      · cases h
      · cases h
      · rename_i directory
        rw [keeps _ directory]
        dsimp only
        split
        · rename_i up
          rw [if_pos up] at h
          split
          · rename_i top
            rw [if_pos top] at h
            cases h
          · rename_i top
            rw [if_neg top] at h
            exact ih h
        · rename_i plain
          rw [if_neg plain] at h
          exact ih h

theorem locate_keep (keeps : t.Keeps t') (h : t.locate p = .ok place) : t'.locate p = .ok place := by
  unfold locate at h ⊢
  split
  · rename_i outside
    rw [if_pos outside] at h
    cases h
  · rename_i inside
    rw [if_neg inside] at h
    exact walk_keep keeps h

theorem walk_plain (plain : ".." ∉ place) (h : t.walk place names = .ok rest) : ".." ∉ rest := by
  induction names generalizing place with
  | nil =>
      cases h
      exact plain
  | cons name names ih =>
      rw [walk] at h
      split at h
      · cases h
      · cases h
      · split at h
        · split at h
          · cases h
          · exact ih (fun member => plain (List.dropLast_subset _ member)) h
        · rename_i other
          refine ih (fun member => ?_) h
          rcases List.mem_append.1 member with member | member
          · exact plain member
          · rw [List.mem_singleton.1 member] at other
            exact other (beq_self_eq_true _)

theorem walk_error {problem : StorageProblem} (h : t.walk place names = .error problem) :
    problem = .notFound ∨ problem = .notADirectory := by
  induction names generalizing place with
  | nil => cases h
  | cons name names ih =>
      rw [walk] at h
      split at h
      · cases h
        exact .inl rfl
      · cases h
        exact .inr rfl
      · split at h
        · split at h
          · cases h
            exact .inl rfl
          · exact ih h
        · exact ih h

theorem walk_snoc {name : String} (h : t.walk place (names ++ [name]) = .ok rest) :
    ∃ above, t.walk place names = .ok above ∧ t.get? above = some .directory := by
  rw [walk_append] at h
  cases walked : t.walk place names with
  | error => rw [walked] at h; cases h
  | ok above =>
      refine ⟨above, rfl, ?_⟩
      rw [walked] at h
      change t.walk above [name] = _ at h
      rw [walk] at h
      split at h
      · cases h
      · cases h
      · assumption

theorem locate_error {problem : StorageProblem} (h : t.locate p = .error problem) :
    problem = .notFound ∨ problem = .notADirectory := by
  unfold locate at h
  split at h
  · cases h
    exact .inl rfl
  · exact walk_error h

structure Leads (t : FileTree) (base : Path) (place : List String) : Prop where
  located : t.locate base = .ok place
  directory : t.get? place = some .directory

namespace Leads

theorem keep (leads : t.Leads base place) (keeps : t.Keeps t') : t'.Leads base place :=
  ⟨locate_keep keeps leads.located, keeps _ leads.directory⟩

theorem locate_append (leads : t.Leads base place) (names : List String) :
    t.locate (base.append names) = t.walk place names := by
  have located := leads.located
  unfold locate at located ⊢
  split at located
  · cases located
  · rename_i inside
    rw [Path.append, if_neg inside, walk_append, located]
    rfl

theorem of_append {name : String} (h : t.locate (p.append [name]) = .ok place) :
    ∃ above, t.Leads p above := by
  unfold locate at h
  split at h
  · cases h
  · rename_i inside
    obtain ⟨above, walked, directory⟩ := walk_snoc h
    refine ⟨above, ?_, directory⟩
    rw [locate]
    exact (if_neg inside).trans walked

theorem append {name : String} (leads : t.Leads (base.append names) (place ++ names))
    (plain : name ≠ "..") :
    t.locate (base.append (names ++ [name])) = .ok (place ++ (names ++ [name])) := by
  have same : base.append (names ++ [name]) = (base.append names).append [name] := by
    simp [Path.append]
  rw [same, leads.locate_append, walk, leads.directory, ← List.append_assoc]
  simp [plain, walk]

end Leads

theorem Tidy.walk_eq (tidy : t.Tidy) (plain : ".." ∉ names) (h : t.get? (place ++ names) ≠ none) :
    t.walk place names = .ok (place ++ names) := by
  induction names generalizing place with
  | nil => rw [List.append_nil]; rfl
  | cons name names ih =>
      have directory := tidy.above h (List.cons_ne_nil _ _)
      rw [List.mem_cons, not_or] at plain
      rw [walk, directory]
      have other : (name == "..") = false := beq_eq_false_iff_ne.2 (Ne.symm plain.1)
      simp only [other, Bool.false_eq_true, if_false]
      rw [List.append_cons] at h
      rw [ih plain.2 h, ← List.append_cons]

theorem Tidy.walk_blocked_iff (tidy : t.Tidy) (plain : ".." ∉ names) :
    t.walk place names = .error .notADirectory ↔
      ∃ front back content, names = front ++ back ∧ back ≠ [] ∧
        t.get? (place ++ front) = some (.file content) := by
  constructor
  · intro h
    induction names generalizing place with
    | nil => cases h
    | cons name names ih =>
        rw [List.mem_cons, not_or] at plain
        have other : (name == "..") = false := beq_eq_false_iff_ne.2 (Ne.symm plain.1)
        rw [walk] at h
        split at h
        · cases h
        · rename_i content found
          -- The file stands where the walk is now.
          exact ⟨[], name :: names, content, rfl, nofun, by rwa [List.append_nil]⟩
        · simp only [other, Bool.false_eq_true, if_false] at h
          obtain ⟨front, back, content, rfl, more, found⟩ := ih plain.2 h
          exact ⟨name :: front, back, content, rfl, more, by rwa [List.append_cons]⟩
  · rintro ⟨front, back, content, rfl, more, found⟩
    have way := tidy.walk_eq (fun member => plain (List.mem_append_left _ member))
      (show t.get? (place ++ front) ≠ none by rw [found]; nofun)
    rw [walk_append, way]
    cases back with
    | nil => exact absurd rfl more
    | cons name back =>
        change t.walk (place ++ front) (name :: back) = _
        rw [walk, found]

theorem mem_insertInto {entries : List (List String × Entry)} {x : List String × Entry}
    (member : x ∈ insertInto names e entries) : x = (names, e) ∨ x ∈ entries := by
  induction entries with
  | nil => exact .inl (List.mem_singleton.1 member)
  | cons other entries ih =>
      unfold insertInto at member
      split at member
      · exact (List.mem_cons.1 member).imp_right (.tail _)
      · rcases List.mem_cons.1 member with rfl | member
        · exact .inr (.head _)
        · exact (ih member).imp_right (.tail _)

theorem nodup_insertInto {entries : List (List String × Entry)}
    (distinct : (entries.map (·.1)).Nodup) : ((insertInto names e entries).map (·.1)).Nodup := by
  induction entries with
  | nil => simp [insertInto]
  | cons other entries ih =>
      rw [List.map_cons, List.nodup_cons] at distinct
      unfold insertInto
      split
      · rename_i same
        rw [List.map_cons, List.nodup_cons, ← same]
        exact distinct
      · rename_i apart
        rw [List.map_cons, List.nodup_cons]
        refine ⟨fun member => ?_, ih distinct.2⟩
        obtain ⟨x, member, same⟩ := List.mem_map.1 member
        rcases mem_insertInto member with rfl | member
        · exact apart same.symm
        · exact distinct.1 (same ▸ List.mem_map_of_mem member)

theorem Tidy.insert {name : String} (tidy : t.Tidy) (plain : ".." ∉ names ++ [name])
    (inside : t.get? names = some .directory) (free : t.get? (names ++ [name]) ≠ some .directory) :
    (t.insert (names ++ [name]) e).Tidy := by
  have full : names ++ [name] ≠ [] := by simp
  refine ⟨fun names' e' member => ?_, nodup_insertInto tidy.distinct, fun names' name' h => ?_⟩
  · rcases mem_insertInto member with same | member
    · cases same
      exact ⟨full, plain⟩
    · exact tidy.plain _ _ member
  · rw [get?_insert t _ _ e full] at h ⊢
    have directory : t.get? names' = some .directory := by
      split at h
      · rename_i same
        rwa [(List.append_inj' same rfl).1]
      · exact tidy.inside _ _ h
    split
    · rename_i same
      rw [same] at directory
      exact absurd directory free
    · exact directory

theorem Leads.filesBelow_eq (leads : t.Leads p place) :
    t.filesBelow p = t.entries.filterMap fun
      | (names, .file _) =>
        if place.isPrefixOf names then some (names.drop place.length) else none
      | (_, .directory) => none := by
  have located := leads.located
  unfold filesBelow
  generalize t.locate p = found at located ⊢
  cases located
  rfl

theorem Leads.mem_filesBelow (leads : t.Leads p place) :
    names ∈ t.filesBelow p ↔ ∃ content, (place ++ names, .file content) ∈ t.entries := by
  rw [leads.filesBelow_eq, List.mem_filterMap]
  constructor
  · rintro ⟨⟨full, _ | content⟩, member, h⟩
    · cases h
    · dsimp only at h
      split at h
      · rename_i early
        obtain ⟨below, rfl⟩ := List.isPrefixOf_iff_prefix.1 early
        rw [List.drop_left, Option.some.injEq] at h
        exact ⟨content, h ▸ member⟩
      · cases h
  · rintro ⟨content, member⟩
    exact ⟨_, member, by simp⟩

theorem Tidy.mem_filesBelow (tidy : t.Tidy) (leads : t.Leads p place) :
    names ∈ t.filesBelow p ↔ ∃ content, t.get? (place ++ names) = some (.file content) := by
  rw [leads.mem_filesBelow]
  constructor
  · rintro ⟨content, member⟩
    exact ⟨content, (tidy.mem_iff (tidy.plain _ _ member).1).1 member⟩
  · rintro ⟨content, found⟩
    refine ⟨content, (tidy.mem_iff ?_).2 found⟩
    intro root
    rw [root] at found
    cases found

theorem Tidy.nodup_filesBelow (tidy : t.Tidy) (leads : t.Leads p place) :
    (t.filesBelow p).Nodup := by
  have among : ((t.filesBelow p).map (place ++ ·)).Sublist (t.entries.map (·.1)) := by
    rw [leads.filesBelow_eq]
    induction t.entries with
    | nil => exact .slnil
    | cons entry entries ih =>
        obtain ⟨full, _ | content⟩ := entry
        · exact .cons _ ih
        · rw [List.filterMap_cons, List.map_cons]
          dsimp only
          split
          · exact .cons _ ih
          · rename_i below found
            split at found
            · rename_i early
              obtain ⟨names, rfl⟩ := List.isPrefixOf_iff_prefix.1 early
              rw [List.drop_left, Option.some.injEq] at found
              subst found
              exact .cons_cons _ ih
            · cases found
  exact List.Pairwise.of_map _ (fun _ _ apart same => apart (by rw [same]))
    (tidy.distinct.sublist among)

theorem Tidy.plain_filesBelow (tidy : t.Tidy) (leads : t.Leads p place) (h : names ∈ t.filesBelow p) :
    names ≠ [] ∧ ".." ∉ names := by
  obtain ⟨content, member⟩ := leads.mem_filesBelow.1 h
  refine ⟨?_, fun up => (tidy.plain _ _ member).2 (List.mem_append_right _ up)⟩
  rintro rfl
  obtain ⟨content, found⟩ := (tidy.mem_filesBelow leads).1 h
  rw [List.append_nil, leads.directory] at found
  cases found

end FileTree

end JsxBoundary
