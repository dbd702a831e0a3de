import Mathlib
import JsxBoundary.Proofs.Resolution

namespace JsxBoundary

/-! ## What the check finds -/

abbrev Complaint := Option Nat × OptionProblem

namespace Datum

def complaints {α : Type} (check : Datum → Except OptionProblem α) (d : Datum) : List Complaint :=
  match check d with
  | .ok _ => []
  | .error problem => [(none, problem)]

def listComplaints : Datum → List Complaint
  | .list items => (items.map asString).zipIdx.filterMap fun
    | (.error problem, i) => some (some i, problem)
    | (.ok _, _) => none
  | _ => [(none, .notAList)]

end Datum

namespace OptionName

def complaints : OptionName → Datum → List Complaint
  | componentName => Datum.complaints fun d => d.asString >>= Options.checkComponent
  | importSource | markerSuffix => Datum.complaints fun d => d.asString >>= Options.checkNotEmpty
  | allGet | wrapReactiveChildren => Datum.complaints Datum.asBoolean
  | methodNames | reactiveComponents | observerNames | wrapReactiveChildrenComponents =>
    Datum.listComplaints

theorem complaints_of_isList {name : OptionName} (list : name.isList = true) :
    name.complaints = Datum.listComplaints := by
  cases name <;> first | rfl | cases list

theorem defaultList?_stranger {key : String} (stranger : Stranger key) : defaultList? key = none := by
  have other (name : OptionName) : (name.key == key) = false := beq_eq_false_iff_ne.2 (stranger name).1.symm
  simp [defaultList?, other]

theorem key_ne_camelKey (a b : OptionName) : a.key ≠ b.camelKey := by
  have other := canonicalKey_ne_camelKey a.key b
  rwa [canonicalKey_key] at other

theorem canonicalKey_eq_key {key : String} {name : OptionName} (same : canonicalKey key = name.key) :
    key = name.key ∨ key = name.camelKey := by
  by_cases stranger : Stranger key
  · rw [canonicalKey_stranger stranger] at same
    exact .inl same
  · simp only [Stranger, not_forall, not_and_or, not_not] at stranger
    obtain ⟨other, rfl | rfl⟩ := stranger
    · rw [canonicalKey_key] at same
      exact .inl same
    · rw [canonicalKey_camelKey] at same
      exact .inr (key_injective same ▸ rfl)

/-- The errors of the table that are about the option. -/
def errors (name : OptionName) (t : Table) : List OptionError :=
  match name.find? t with
  | none => []
  | some (key, value) => (name.complaints value).map fun c => ⟨key, c.1, c.2⟩

end OptionName

namespace Options

def unknownErrors (t : Table) : List OptionError :=
  ((t.map Prod.fst).filter (isUnknown t)).map (⟨·, none, .unknownOption⟩)

/-- All that is wrong with a table. -/
def faults (t : Table) : List OptionError :=
  match ofTable t with
  | .ok _ => []
  | .error errors => errors

def Reports {α : Type} (check : Checked α) (found : List OptionError) : Prop :=
  ∀ errors, ∃ a, check errors = (a, errors ++ found)

namespace Reports

variable {α β : Type} {t : Table}

theorem pure (a : α) : Reports (Pure.pure a) [] := by
  intro errors
  exact ⟨a, by rw [List.append_nil]; rfl⟩

theorem bind {check : Checked α} {next : α → Checked β} {found more : List OptionError}
    (first : Reports check found) (second : ∀ a, Reports (next a) more) :
    Reports (check >>= next) (found ++ more) := by
  intro errors
  obtain ⟨a, ran⟩ := first errors
  obtain ⟨b, ran'⟩ := second a (errors ++ found)
  refine ⟨b, ?_⟩
  change next (check errors).1 (check errors).2 = _
  rw [ran, ran', List.append_assoc]

theorem checkOne {check : Datum → Except OptionProblem α} (name : OptionName)
    (own : name.complaints = Datum.complaints check) (default : α) :
    Reports (checkOne t name default check) (name.errors t) := by
  intro errors
  rw [Options.checkOne, OptionName.errors, own]
  cases name.find? t with
  | none => exact ⟨default, by simp⟩
  | some entry =>
      simp only [Datum.complaints]
      cases check entry.2 with
      | ok a => exact ⟨a, by simp⟩
      | error problem => exact ⟨default, by simp⟩

theorem checkList (name : OptionName) (own : name.complaints = Datum.listComplaints) (default : List String) :
    Reports (checkList t name default) (name.errors t) := by
  intro errors
  rw [Options.checkList, OptionName.errors, own]
  cases name.find? t with
  | none => exact ⟨default, by simp⟩
  | some entry =>
      obtain ⟨key, value⟩ := entry
      cases value with
      | list items =>
          refine ⟨(items.map Datum.asString).filterMap Except.toOption, ?_⟩
          simp only [Datum.listComplaints, List.map_filterMap]
          congr 3
          funext c
          obtain ⟨_ | _, i⟩ := c <;> rfl
      | _ => exact ⟨default, rfl⟩

end Reports

theorem ofTable_eq (t : Table) : ∃ options, ofTable t =
    verdict options (OptionName.all.flatMap (·.errors t) ++ unknownErrors t) := by
  unfold ofTable
  extract_lets text d checked
  have reports : Reports checked (OptionName.all.flatMap (·.errors t)) := by
    refine (Reports.checkOne .componentName rfl _).bind fun _ => ?_
    refine (Reports.checkOne .importSource rfl _).bind fun _ => ?_
    refine (Reports.checkOne .allGet rfl _).bind fun _ => ?_
    refine (Reports.checkList .methodNames rfl _).bind fun _ => ?_
    refine (Reports.checkOne .markerSuffix rfl _).bind fun _ => ?_
    refine (Reports.checkList .reactiveComponents rfl _).bind fun _ => ?_
    refine (Reports.checkList .observerNames rfl _).bind fun _ => ?_
    refine (Reports.checkOne .wrapReactiveChildren rfl _).bind fun _ => ?_
    refine (Reports.checkList .wrapReactiveChildrenComponents rfl _).bind fun _ => ?_
    exact Reports.pure _
  obtain ⟨options, ran⟩ := reports []
  refine ⟨options, ?_⟩
  rw [ran]
  rfl

theorem faults_eq (t : Table) : faults t = OptionName.all.flatMap (·.errors t) ++ unknownErrors t := by
  obtain ⟨options, outcome⟩ := ofTable_eq t
  rw [faults, outcome]
  cases OptionName.all.flatMap (·.errors t) ++ unknownErrors t <;> rfl

theorem faults_eq_nil_iff (t : Table) : faults t = [] ↔ ∃ options, ofTable t = .ok options := by
  obtain ⟨options, outcome⟩ := ofTable_eq t
  rw [faults_eq, outcome]
  cases OptionName.all.flatMap (·.errors t) ++ unknownErrors t with
  | nil => exact ⟨fun _ => ⟨options, rfl⟩, fun _ => rfl⟩
  | cons e es => exact ⟨nofun, nofun⟩

theorem mem_faults {t : Table} {e : OptionError} :
    e ∈ faults t ↔ (∃ name : OptionName, e ∈ name.errors t) ∨
      ∃ key ∈ t.map Prod.fst, isUnknown t key = true ∧ e = ⟨key, none, .unknownOption⟩ := by
  rw [faults_eq, List.mem_append, List.mem_flatMap, unknownErrors, List.mem_map]
  simp only [List.mem_filter, and_assoc, eq_comm (b := e), OptionName.mem_all, true_and]

end Options

/-! ## Lists -/

namespace Datum

variable {d base added merged : Datum} {items : List Datum}

def Texts (d : Datum) : Prop :=
  ∃ names : List String, d.items? = some (names.map .string)

theorem texts_of_items? (taken : d.items? = some items) :
    d.Texts ↔ ∀ item ∈ items, ∃ text, item = .string text := by
  have range := Set.ext_iff.1 (Set.range_list_map Datum.string) items
  simp only [Set.mem_range, Set.mem_ofPred_eq] at range
  rw [Texts, taken]
  simpa [eq_comm] using range

theorem asString_of_error {problem : OptionProblem} (h : d.asString = .error problem) :
    problem = .notAString := by
  cases d <;> cases h <;> rfl

theorem mem_listComplaints {c : Complaint} (member : c ∈ listComplaints (.list items)) :
    c.2 = .notAString ∧ ∃ item ∈ items, ∀ text, item ≠ .string text := by
  obtain ⟨⟨checked, i⟩, place, found⟩ := List.mem_filterMap.1 member
  obtain ⟨item, listed, rfl⟩ := List.mem_map.1 (List.fst_mem_of_mem_zipIdx place)
  cases read : item.asString with
  | ok text =>
      rw [read] at found
      cases found
  | error problem =>
      rw [read] at found
      cases found
      refine ⟨asString_of_error read, item, listed, ?_⟩
      rintro text rfl
      cases read

theorem listComplaints_list (items : List Datum) :
    listComplaints (.list items) = [] ↔ Texts (.list items) := by
  rw [texts_of_items? rfl]
  constructor
  · intro none item member
    rw [listComplaints, List.filterMap_eq_nil_iff] at none
    obtain ⟨i, place⟩ := List.mem_iff_getElem?.1 (List.mem_map_of_mem (f := asString) member)
    have read := none (item.asString, i) (by simpa [List.mem_zipIdx_iff_getElem?] using place)
    cases item with
    | string text => exact ⟨text, rfl⟩
    | _ => cases read
  · intro strings
    rw [List.eq_nil_iff_forall_not_mem]
    intro c member
    obtain ⟨_, item, listed, other⟩ := mem_listComplaints member
    obtain ⟨text, same⟩ := strings item listed
    exact other text same

theorem listComplaints_texts (d : Datum) :
    (∀ c ∈ listComplaints d, c.2 = .notAList ∧ d.items?.isSome = true) ↔ d.Texts := by
  cases d with
  | list items =>
      rw [← listComplaints_list, List.eq_nil_iff_forall_not_mem]
      refine forall₂_congr fun c member => ?_
      rw [(mem_listComplaints member).1]
      simp
  | string s =>
      have texts := (texts_of_items? (d := .string s) rfl).2 (List.forall_mem_map.2 fun c _ => ⟨_, rfl⟩)
      simpa [listComplaints, items?] using texts
  | table entries =>
      have texts := (texts_of_items? (d := .table entries) rfl).2 (List.forall_mem_map.2 fun e _ => ⟨_, rfl⟩)
      simpa [listComplaints, items?] using texts
  | _ => simp [listComplaints, items?, Texts]

/-! ## Adding to a list -/

theorem mem_distinct (values : List Datum) :
    (∀ d ∈ distinct values, d ∈ values) ∧
      ∀ d ∈ values, ∃ own ∈ distinct values, own = d ∨ own.isSame d = true := by
  induction values using List.reverseRecOn with
  | nil => exact ⟨nofun, nofun⟩
  | append_singleton values value ih =>
      obtain ⟨among, covers⟩ := ih
      have step : distinct (values ++ [value]) =
          if (distinct values).any (·.isSame value) then distinct values else distinct values ++ [value] := by
        rw [distinct, distinct, List.foldl_append]
        rfl
      rw [step]
      split
      · rename_i listed
        obtain ⟨own, kept, same⟩ := List.any_eq_true.1 listed
        refine ⟨fun d member => List.mem_append_left _ (among d member), fun d member => ?_⟩
        rcases List.mem_append.1 member with member | member
        · exact covers d member
        · cases List.mem_singleton.1 member
          exact ⟨own, kept, .inr same⟩
      · refine ⟨fun d member => ?_, fun d member => ?_⟩
        · rcases List.mem_append.1 member with member | member
          · exact List.mem_append_left _ (among d member)
          · exact List.mem_append_right _ member
        · rcases List.mem_append.1 member with member | member
          · obtain ⟨own, kept, same⟩ := covers d member
            exact ⟨own, List.mem_append_left _ kept, same⟩
          · exact ⟨d, List.mem_append_right _ member, .inl rfl⟩

theorem isSame_string {text : String} (same : isSame (.string text) d = true) : ∃ text', d = .string text' := by
  cases d with
  | string text' => exact ⟨text', rfl⟩
  | _ => simp [isSame, asInteger?] at same

theorem texts_distinct (values : List Datum) :
    Texts (.list (distinct values)) ↔ ∀ d ∈ values, ∃ text, d = .string text := by
  obtain ⟨among, covers⟩ := mem_distinct values
  rw [texts_of_items? rfl]
  refine ⟨fun strings d member => ?_, fun strings d member => strings d (among d member)⟩
  obtain ⟨own, kept, rfl | same⟩ := covers d member
  · exact strings own kept
  · obtain ⟨text, rfl⟩ := strings own kept
    exact isSame_string same

end Datum

namespace Options

open OptionName (canonicalKey defaultList?)

theorem mergeLists_texts (base : Datum) {added : Datum} (right : Strings added) :
    (base.Texts → ∃ merged, mergeLists base added = .ok merged) ∧
      ∀ merged, mergeLists base added = .ok merged →
        ∃ items, merged = .list items ∧ (Datum.Texts (.list items) ↔ base.Texts) := by
  obtain ⟨names, rfl⟩ := right
  have taken : (Datum.list (names.map .string)).items? = some (names.map .string) := rfl
  cases items : base.items? with
  | none =>
      have refused : mergeLists base (.list (names.map .string)) = .error .notAList := by
        simp only [mergeLists, items]
      rw [refused]
      constructor
      · rintro ⟨own, taken⟩
        cases items.symm.trans taken
      · intro merged run
        cases run
  | some own =>
      have texts : base.Texts ↔ ∀ d ∈ own ++ names.map Datum.string, ∃ text, d = .string text := by
        rw [Datum.texts_of_items? items]
        simp [or_imp, forall_and]
      simp only [mergeLists, items, taken]
      constructor
      · intro strings
        have plain : (own ++ names.map Datum.string).all Datum.isPlain = true := by
          rw [List.all_eq_true]
          intro d member
          obtain ⟨text, rfl⟩ := texts.1 strings d member
          rfl
        exact ⟨_, if_pos plain⟩
      · intro merged run
        split at run
        · cases run
          exact ⟨_, rfl, by rw [Datum.texts_distinct, texts]⟩
        · cases run

theorem texts_of_strings {value : Datum} (strings : Strings value) : value.Texts := by
  obtain ⟨names, rfl⟩ := strings
  exact ⟨names, rfl⟩

structure Extended (overrides t merged : Table) : Prop where
  others : ∀ key ∉ overrides.respelled.map Prod.fst, merged.get? key = t.get? key
  lists : ∀ key ∈ overrides.respelled.map Prod.fst, ∃ items, merged.get? key = some (.list items) ∧
    (Datum.Texts (.list items) ↔ ∀ base, t.get? key = some base → base.Texts)

/-- The overrides give lists of strings for options that hold lists. -/
def Extends (overrides : Table) : Prop :=
  ∀ e ∈ overrides, (defaultList? (canonicalKey e.1)).isSome = true ∧ Strings e.2

theorem override_extended {t : Table} {key : String} {value : Datum}
    (list : (defaultList? (canonicalKey key)).isSome = true) (strings : Strings value) :
    ((∀ base, t.get? (canonicalKey key) = some base → base.Texts) → ∃ merged, override t key value = .ok merged) ∧
      ∀ merged, override t key value = .ok merged → Extended [(key, value)] t merged := by
  obtain ⟨default, list⟩ := Option.isSome_iff_exists.1 list
  let base := (t.get? (canonicalKey key)).getD (.list (default.map .string))
  have based : base.Texts ↔ ∀ own, t.get? (canonicalKey key) = some own → own.Texts := by
    cases found : t.get? (canonicalKey key) with
    | none => simpa [base, found] using texts_of_strings ⟨default, rfl⟩
    | some own => simp [base, found]
  have run : override t key value = (mergeLists base value).map (t.insert (canonicalKey key)) := by
    obtain ⟨names, rfl⟩ := strings
    simp only [override, list]
    cases mergeLists base (.list (names.map .string)) <;> rfl
  obtain ⟨merges, result⟩ := mergeLists_texts base strings
  rw [run]
  constructor
  · intro texts
    obtain ⟨merged, ok⟩ := merges (based.2 texts)
    exact ⟨_, by rw [ok]; rfl⟩
  · intro merged ok
    cases found : mergeLists base value with
    | error fault => rw [found] at ok; cases ok
    | ok own =>
        rw [found] at ok
        cases ok
        obtain ⟨items, rfl, texts⟩ := result own found
        constructor
        · intro other absent
          rw [Table.get?_insert, if_neg fun same => absent (List.mem_singleton.2 same)]
        · intro other present
          cases List.mem_singleton.1 present
          exact ⟨items, by rw [Table.get?_insert, if_pos rfl], texts.trans based⟩

theorem Extended.cons {entry : String × Datum} {overrides t next merged : Table}
    (first : Extended [entry] t next) (rest : Extended overrides next merged) :
    Extended (entry :: overrides) t merged := by
  have split (key : String) : key ∈ (Table.respelled (entry :: overrides)).map Prod.fst ↔
      key ∈ (Table.respelled [entry]).map Prod.fst ∨ key ∈ overrides.respelled.map Prod.fst := by
    simp [Table.respelled]
  constructor
  · intro key absent
    rw [split, not_or] at absent
    rw [rest.others key absent.2, first.others key absent.1]
  · intro key present
    by_cases again : key ∈ overrides.respelled.map Prod.fst
    · obtain ⟨items, found, texts⟩ := rest.lists key again
      refine ⟨items, found, texts.trans ?_⟩
      by_cases own : key ∈ (Table.respelled [entry]).map Prod.fst
      · obtain ⟨items', found', texts'⟩ := first.lists key own
        simpa [found'] using texts'
      · rw [first.others key own]
    · obtain ⟨items, found, texts⟩ := first.lists key (((split key).1 present).resolve_right again)
      exact ⟨items, by rw [rest.others key again, found], texts⟩

/-- Overrides that add to lists go through if what they add to can be taken for lists of strings, and the
lists that come out are of strings only then. -/
theorem foldlM_extended {overrides t : Table} (adds : Extends overrides) :
    ((∀ key ∈ overrides.respelled.map Prod.fst, ∀ base, t.get? key = some base → base.Texts) →
        ∃ merged, overrides.foldlM (fun t (key, value) => override t key value) t = .ok merged) ∧
      ∀ merged, overrides.foldlM (fun t (key, value) => override t key value) t = .ok merged →
        Extended overrides t merged := by
  induction overrides generalizing t with
  | nil =>
      refine ⟨fun _ => ⟨t, rfl⟩, fun merged run => ?_⟩
      cases run
      exact ⟨fun _ _ => rfl, nofun⟩
  | cons entry overrides ih =>
      obtain ⟨key, value⟩ := entry
      obtain ⟨list, strings⟩ := adds _ (.head _)
      obtain ⟨goes, extended⟩ := override_extended (t := t) list strings
      have later (t : Table) := ih (t := t) fun e member => adds e (.tail _ member)
      simp only [List.foldlM_cons]
      constructor
      · intro texts
        obtain ⟨next, ok⟩ := goes (texts _ (.head _))
        have first := extended next ok
        obtain ⟨merged, run⟩ := (later next).1 fun other present base found => by
          by_cases own : other ∈ (Table.respelled [(key, value)]).map Prod.fst
          · obtain ⟨items, found', texts'⟩ := first.lists other own
            cases found.symm.trans found'
            cases List.mem_singleton.1 own
            exact texts'.2 (texts _ (.head _))
          · rw [first.others other own] at found
            exact texts other (.tail _ present) base found
        exact ⟨merged, by rw [ok]; exact run⟩
      · intro merged run
        cases ok : override t key value with
        | error fault => rw [ok] at run; cases run
        | ok next =>
            rw [ok] at run
            exact (extended next ok).cons ((later next).2 merged run)

/-! ## Tables in one spelling -/

theorem get?_canonical {t : Table} {key : String} (absent : ∀ e ∈ t, canonicalKey e.1 ≠ key) :
    (canonical t).get? key = none := by
  induction t using List.reverseRecOn with
  | nil => rfl
  | append_singleton t e ih =>
      have step : canonical (t ++ [e]) = (canonical t).insert (canonicalKey e.1) e.2 := by
        rw [canonical, canonical, List.foldl_append]
        rfl
      rw [step, Table.get?_insert, if_neg (absent e (List.mem_append_right _ (List.mem_singleton_self e))).symm]
      exact ih fun e member => absent e (List.mem_append_left _ member)

theorem canonical_plain (t : Table) (name : OptionName) : (canonical t).get? name.camelKey = none :=
  get?_canonical fun e _ => OptionName.canonicalKey_ne_camelKey e.1 name

theorem mem_faults_plain {t : Table} (plain : ∀ name : OptionName, t.get? name.camelKey = none) {e : OptionError} :
    e ∈ faults t ↔
      (∃ (name : OptionName) (value : Datum), t.get? name.key = some value ∧
        ∃ c ∈ name.complaints value, e = ⟨name.key, c.1, c.2⟩) ∨
      ∃ key, OptionName.Stranger key ∧ t.get? key ≠ none ∧ e = ⟨key, none, .unknownOption⟩ := by
  rw [mem_faults]
  refine or_congr (exists_congr fun name => ?_) (exists_congr fun key => ?_)
  · rw [OptionName.errors, find?_eq (plain name)]
    cases t.get? name.key with
    | none => simp
    | some value => simp [eq_comm]
  · rw [isUnknown_eq plain, decide_eq_true_iff, ne_eq, Table.get?_eq_none, not_not]
    tauto

/-- An error of a table that overrides mend: a string or a table stands for an option that holds a list, and
the overrides add to it. -/
def Mended (overrides t : Table) (e : OptionError) : Prop :=
  e.problem = .notAList ∧ e.key ∈ overrides.respelled.map Prod.fst ∧
    ∃ value, t.get? e.key = some value ∧ value.items?.isSome = true

theorem Extends.isList {overrides : Table} (adds : Extends overrides) {key : String}
    (present : key ∈ overrides.respelled.map Prod.fst) : ∃ name : OptionName, key = name.key ∧ name.isList = true := by
  obtain ⟨_, entry, rfl⟩ := List.mem_map.1 present
  obtain ⟨e, member, rfl⟩ := List.mem_map.1 entry
  have list := (adds e member).1
  rcases OptionName.canonicalKey_cases e.1 with ⟨name, same⟩ | ⟨same, stranger⟩
  · exact ⟨name, same, by rwa [OptionName.isList, ← same]⟩
  · rw [same, OptionName.defaultList?_stranger stranger] at list
    cases list

section

variable {overrides t merged : Table}

theorem texts_of_mended (adds : Extends overrides) (plain : ∀ name : OptionName, t.get? name.camelKey = none)
    (mended : ∀ e ∈ faults t, Mended overrides t e) :
    ∀ key ∈ overrides.respelled.map Prod.fst, ∀ base, t.get? key = some base → base.Texts := by
  intro key present base found
  obtain ⟨name, rfl, list⟩ := adds.isList present
  rw [← Datum.listComplaints_texts, ← OptionName.complaints_of_isList list]
  intro c member
  obtain ⟨problem, _, value, own, taken⟩ :=
    mended ⟨name.key, c.1, c.2⟩ ((mem_faults_plain plain).2 (.inl ⟨name, base, found, c, member, rfl⟩))
  cases found.symm.trans own
  exact ⟨problem, taken⟩

theorem Extended.plain (extended : Extended overrides t merged)
    (plain : ∀ name : OptionName, t.get? name.camelKey = none) (name : OptionName) :
    merged.get? name.camelKey = none := by
  rw [extended.others _ ?_, plain]
  intro present
  obtain ⟨_, entry, same⟩ := List.mem_map.1 present
  obtain ⟨e, _, rfl⟩ := List.mem_map.1 entry
  exact OptionName.canonicalKey_ne_camelKey e.1 name same

theorem Extended.faults_eq_nil_iff (extended : Extended overrides t merged) (adds : Extends overrides)
    (plain : ∀ name : OptionName, t.get? name.camelKey = none) :
    faults merged = [] ↔ ∀ e ∈ faults t, Mended overrides t e := by
  have unknown {key : String} (stranger : OptionName.Stranger key) :
      key ∉ overrides.respelled.map Prod.fst := by
    intro present
    obtain ⟨name, rfl, _⟩ := adds.isList present
    exact (stranger name).1 rfl
  rw [List.eq_nil_iff_forall_not_mem]
  simp only [mem_faults_plain plain, mem_faults_plain (extended.plain plain)]
  constructor
  · rintro none _ (⟨name, value, found, c, member, rfl⟩ | ⟨key, stranger, found, rfl⟩)
    · by_cases present : name.key ∈ overrides.respelled.map Prod.fst
      · obtain ⟨own, same, list⟩ := adds.isList present
        cases OptionName.key_injective same
        obtain ⟨items, found', texts⟩ := extended.lists _ present
        have strings : (Datum.list items).Texts := by
          rw [← Datum.listComplaints_list, ← OptionName.complaints_of_isList list,
            List.eq_nil_iff_forall_not_mem]
          exact fun c' member' => none _ (.inl ⟨name, _, found', c', member', rfl⟩)
        rw [OptionName.complaints_of_isList list] at member
        obtain ⟨problem, taken⟩ := (Datum.listComplaints_texts value).2 (texts.1 strings value found) c member
        exact ⟨problem, present, value, found, taken⟩
      · rw [← extended.others _ present] at found
        exact absurd (.inl ⟨name, value, found, c, member, rfl⟩) (none _)
    · rw [← extended.others _ (unknown stranger)] at found
      exact absurd (.inr ⟨key, stranger, found, rfl⟩) (none _)
  · rintro mended _ (⟨name, value, found, c, member, rfl⟩ | ⟨key, stranger, found, rfl⟩)
    · by_cases present : name.key ∈ overrides.respelled.map Prod.fst
      · obtain ⟨own, same, list⟩ := adds.isList present
        cases OptionName.key_injective same
        obtain ⟨items, found', texts⟩ := extended.lists _ present
        cases found.symm.trans found'
        have strings := texts.2 (texts_of_mended adds plain (by simpa only [mem_faults_plain plain]) _ present)
        rw [OptionName.complaints_of_isList list, (Datum.listComplaints_list items).2 strings] at member
        cases member
      · rw [extended.others _ present] at found
        exact present (mended _ (.inl ⟨name, value, found, c, member, rfl⟩)).2.1
    · rw [extended.others _ (unknown stranger)] at found
      cases (mended _ (.inr ⟨key, stranger, found, rfl⟩)).1

end

theorem merge_isOk_iff {configured overrides : Table} (adds : Extends overrides.given) :
    (∃ options, merge configured overrides = .ok options) ↔
      ∀ e ∈ faults (canonical configured), Mended overrides.given (canonical configured) e := by
  have plain := canonical_plain configured
  obtain ⟨goes, extended⟩ := foldlM_extended (t := canonical configured) adds
  rw [← foldlM_given] at goes extended
  cases run : overrides.foldlM (fun t (key, value) => override t key value) (canonical configured) with
  | error fault =>
      refine iff_of_false ?_ fun mended => ?_
      · rintro ⟨options, ok⟩
        rw [merge, run] at ok
        cases ok
      · obtain ⟨merged, ok⟩ := goes (texts_of_mended adds plain mended)
        cases run.symm.trans ok
  | ok merged =>
      rw [merge_eq configured overrides run, ← (extended merged run).faults_eq_nil_iff adds plain,
        faults_eq_nil_iff]
      cases ofTable merged <;> simp [Except.mapError]

/-- The error with the key in the one spelling. -/
def respell (e : OptionError) : OptionError :=
  { e with key := canonicalKey e.key }

theorem keys_respelled (t : Table) : t.respelled.map Prod.fst = (t.map Prod.fst).map canonicalKey := by
  rw [Table.respelled, List.map_map, List.map_map]
  rfl

section

variable {t : Table}

theorem isUnknown_iff {key : String} : isUnknown t key = true ↔
    OptionName.Stranger key ∨ ∃ name : OptionName, key = name.key ∧ (t.get? name.camelKey).isSome = true := by
  simp only [isUnknown, List.all_eq_true, Bool.and_eq_true, Bool.or_eq_true, bne_iff_ne]
  constructor
  · intro unknown
    refine or_iff_not_imp_left.2 fun known => ?_
    simp only [OptionName.Stranger, not_forall, not_and_or, not_not] at known
    obtain ⟨name, rfl | rfl⟩ := known
    · exact ⟨name, rfl, (unknown name name.mem_all).2.resolve_left (· rfl)⟩
    · exact absurd rfl (unknown name name.mem_all).1
  · rintro (stranger | ⟨name, rfl, camel⟩) other _
    · exact ⟨(stranger other).2, .inl (stranger other).1⟩
    · refine ⟨OptionName.key_ne_camelKey name other, or_iff_not_imp_left.2 fun same => ?_⟩
      rwa [OptionName.key_injective (not_not.1 same)] at camel

theorem find?_respelled (once : (t.respelled.map Prod.fst).Nodup) (name : OptionName) :
    name.find? t.respelled = (name.find? t).map fun e => (canonicalKey e.1, e.2) := by
  have apart : (t.map Prod.fst).Nodup := .of_map _ (keys_respelled t ▸ once)
  have listed {key : String} {value : Datum} (found : t.get? key = some value) :
      t.respelled.get? (canonicalKey key) = some value :=
    (Table.get?_eq_some once).2 (List.mem_map.2 ⟨_, (Table.get?_eq_some apart).1 found, rfl⟩)
  rw [find?_eq (canonical_eq once ▸ canonical_plain t name), OptionName.find?]
  cases camel : t.get? name.camelKey with
  | some value =>
      have found := listed camel
      rw [OptionName.canonicalKey_camelKey] at found
      simp [found, OptionName.canonicalKey_camelKey]
  | none =>
      cases snake : t.get? name.key with
      | some value =>
          have found := listed snake
          rw [OptionName.canonicalKey_key] at found
          simp [found, OptionName.canonicalKey_key]
      | none =>
          have absent : t.respelled.get? name.key = none := by
            rw [Table.get?_eq_none, keys_respelled, List.mem_map]
            rintro ⟨key, present, same⟩
            rcases OptionName.canonicalKey_eq_key same with rfl | rfl
            · exact Table.get?_eq_none.1 snake present
            · exact Table.get?_eq_none.1 camel present
          simp [absent]

theorem isUnknown_respelled (once : (t.respelled.map Prod.fst).Nodup) {key : String} (present : key ∈ t.map Prod.fst) :
    isUnknown t.respelled (canonicalKey key) = isUnknown t key := by
  rw [Bool.eq_iff_iff, isUnknown_eq (canonical_eq once ▸ canonical_plain t), decide_eq_true_iff, isUnknown_iff]
  constructor
  · intro stranger
    rcases OptionName.canonicalKey_cases key with ⟨name, same⟩ | ⟨_, own⟩
    · exact absurd same (stranger name).1
    · exact .inl own
  · rintro (stranger | ⟨name, rfl, camel⟩)
    · exact (OptionName.canonicalKey_stranger stranger).symm ▸ stranger
    · have listed : name.camelKey ∈ t.map Prod.fst := by
        rw [Option.isSome_iff_ne_none, ne_eq, Table.get?_eq_none, not_not] at camel
        exact camel
      have same : name.key = name.camelKey :=
        List.inj_on_of_nodup_map (keys_respelled t ▸ once) present listed
          (by rw [OptionName.canonicalKey_key, OptionName.canonicalKey_camelKey])
      exact absurd same (OptionName.key_ne_camelKey name name)

theorem faults_canonical (once : (t.respelled.map Prod.fst).Nodup) :
    faults (canonical t) = (faults t).map respell := by
  rw [canonical_eq once, faults_eq, faults_eq, List.map_append, List.map_flatMap]
  congr 1
  · apply List.flatMap_congr
    intro name _
    rw [OptionName.errors, OptionName.errors, find?_respelled once]
    cases name.find? t with
    | none => rfl
    | some entry => simp [respell, Function.comp_def]
  · rw [unknownErrors, unknownErrors, keys_respelled, List.filter_map, List.map_map, List.map_map]
    have same : (t.map Prod.fst).filter (isUnknown t.respelled ∘ canonicalKey) =
        (t.map Prod.fst).filter (isUnknown t) :=
      List.filter_congr fun key present => isUnknown_respelled once present
    rw [same]
    rfl

/-- If the keys differ but for their spelling, then some option is given in both of its spellings, and the
check does not know the one of them. -/
theorem exists_twice (once : (t.map Prod.fst).Nodup) (twice : ¬(t.respelled.map Prod.fst).Nodup) :
    ∃ name : OptionName, name.key ∈ t.map Prod.fst ∧ name.camelKey ∈ t.map Prod.fst ∧
      ⟨name.key, none, .unknownOption⟩ ∈ faults t := by
  obtain ⟨a, present, b, present', same, other⟩ : ∃ a ∈ t.map Prod.fst, ∃ b ∈ t.map Prod.fst,
      canonicalKey a = canonicalKey b ∧ a ≠ b := by
    by_contra none
    push Not at none
    exact twice (keys_respelled t ▸ once.map_on fun a present b present' same =>
      none a present b present' same)
  obtain ⟨name, key, camelKey⟩ : ∃ name : OptionName, name.key ∈ t.map Prod.fst ∧ name.camelKey ∈ t.map Prod.fst := by
    rcases OptionName.canonicalKey_cases a with ⟨name, own⟩ | ⟨own, stranger⟩
    · rcases OptionName.canonicalKey_eq_key own with rfl | rfl <;>
        rcases OptionName.canonicalKey_eq_key (same.symm.trans own) with rfl | rfl
      · exact absurd rfl other
      · exact ⟨name, present, present'⟩
      · exact ⟨name, present', present⟩
      · exact absurd rfl other
    · rcases OptionName.canonicalKey_cases b with ⟨name, own'⟩ | ⟨own', _⟩
      · exact absurd (own.symm.trans (same.trans own')) (stranger name).1
      · exact absurd (own.symm.trans (same.trans own')) other
  refine ⟨name, key, camelKey, mem_faults.2 (.inr ⟨_, key, isUnknown_iff.2 (.inr ⟨name, rfl, ?_⟩), rfl⟩)⟩
  rw [Option.isSome_iff_ne_none, ne_eq, Table.get?_eq_none, not_not]
  exact camelKey

end

/-! ## Loading -/

/-- Options are loaded for a caller who only adds to lists exactly if every fault of the file's table, taken
in one spelling, is mended: a string or a table stands for a list that the caller adds to. Where no option
is given in both spellings the faults are those of the table as it stands. Where one is, the table has a
fault that the table in one spelling need not have. -/
theorem load_rejects {configuration : Option ByteArray} {table overrides : Table}
    (read : configuration.elim (.ok []) configured = .ok table) (once : (table.map Prod.fst).Nodup)
    (adds : Extends overrides.given) :
    ((∃ options, load configuration overrides = .ok options) ↔
      ∀ e ∈ faults (canonical table), Mended overrides.given (canonical table) e) ∧
    ((table.respelled.map Prod.fst).Nodup → faults (canonical table) = (faults table).map respell) ∧
    (¬(table.respelled.map Prod.fst).Nodup →
      ∃ name : OptionName, name.key ∈ table.map Prod.fst ∧ name.camelKey ∈ table.map Prod.fst ∧
        ⟨name.key, none, .unknownOption⟩ ∈ faults table) := by
  rw [load_eq read]
  exact ⟨merge_isOk_iff adds, faults_canonical, exists_twice once⟩

def Sample.numbered : ByteArray :=
  "[tool.jsx_memo]\nobserverNames=[1]".toUTF8

def Sample.observers : Table :=
  [("observer_names", .list [.string "use"])]

theorem load_rejects_number :
    (some Sample.numbered).elim (.ok []) configured = .ok [("observerNames", .list [.integer 1])] ∧
      (([("observerNames", .list [.integer 1])] : Table).map Prod.fst).Nodup ∧
      Extends Sample.observers.given ∧
      ¬∃ options, load (some Sample.numbered) Sample.observers = .ok options := by
  have read : (some Sample.numbered).elim (.ok []) configured =
      .ok [("observerNames", .list [.integer 1])] := by cbv
  have once : (([("observerNames", .list [.integer 1])] : Table).map Prod.fst).Nodup := by simp
  have adds : Extends Sample.observers.given := by
    intro e member
    cases List.mem_singleton.1 member
    exact ⟨rfl, ["use"], rfl⟩
  refine ⟨read, once, adds, ?_⟩
  rw [(load_rejects read once adds).1]
  intro mended
  have fault : (⟨"observer_names", some 0, .notAString⟩ : OptionError) ∈
      faults (canonical [("observerNames", .list [.integer 1])]) := .head _
  cases (mended _ fault).1

def Sample.stringForList : ByteArray :=
  "[tool.jsx_memo]\nmethod_names=\"ab\"".toUTF8

def Sample.twice : ByteArray :=
  "[tool.jsx_memo]\nallGet=true\nall_get=false".toUTF8

/-- A string is taken for the list of its characters when a caller adds to it, and the later of two spellings
is taken for the option. The check refuses both tables. -/
theorem load_accepts_refused :
    (configured Sample.stringForList = .ok [("method_names", .string "ab")] ∧
      ofTable [("method_names", .string "ab")] = .error [⟨"method_names", none, .notAList⟩] ∧
      load (some Sample.stringForList) [("method_names", .list [.string "x"])] =
        .ok { methodNames := ["a", "b", "x"] }) ∧
    (configured Sample.twice = .ok [("allGet", .boolean true), ("all_get", .boolean false)] ∧
      ofTable [("allGet", .boolean true), ("all_get", .boolean false)] =
        .error [⟨"all_get", none, .unknownOption⟩] ∧
      load (some Sample.twice) [] = .ok {}) := by
  have read : configured Sample.stringForList = .ok [("method_names", .string "ab")] := by cbv
  have read' : configured Sample.twice = .ok [("allGet", .boolean true), ("all_get", .boolean false)] := by cbv
  refine ⟨⟨read, rfl, ?_⟩, read', rfl, ?_⟩
  · have found : (some Sample.stringForList).elim (.ok []) configured = _ := read
    rw [load_eq found]
    rfl
  · have found : (some Sample.twice).elim (.ok []) configured = _ := read'
    rw [load_eq found]
    rfl

end Options

end JsxBoundary
