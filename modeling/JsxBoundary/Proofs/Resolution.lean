import Mathlib
import JsxBoundary.Options.Load

namespace JsxBoundary

def Datum.isNull (d : Datum) : Bool :=
  d matches .null

/-! ## Tables with distinct keys -/

namespace Table

variable {t t' : Table} {key : String} {value : Datum}

theorem get?_cons (k : String) (v : Datum) (t : Table) (key : String) :
    get? ((k, v) :: t) key = if key = k then some v else get? t key := by
  simp only [get?, List.lookup_cons]
  by_cases same : key = k
  · simp [same]
  · rw [if_neg same, beq_eq_false_iff_ne.2 same]

theorem get?_eq_none : t.get? key = none ↔ key ∉ t.map Prod.fst := by
  induction t with
  | nil => simp [get?]
  | cons entry t ih =>
      rw [get?_cons entry.1 entry.2, List.map_cons, List.mem_cons]
      by_cases same : key = entry.1
      · simp [same]
      · rw [if_neg same, ih, or_iff_right same]

theorem get?_eq_some (once : (t.map Prod.fst).Nodup) : t.get? key = some value ↔ (key, value) ∈ t := by
  induction t with
  | nil => simp [get?]
  | cons entry t ih =>
      obtain ⟨k, v⟩ := entry
      rw [List.map_cons, List.nodup_cons] at once
      rw [get?_cons, List.mem_cons, Prod.mk.injEq]
      by_cases same : key = k
      · subst same
        have absent : (key, value) ∉ t := fun member => once.1 (List.mem_map.2 ⟨_, member, rfl⟩)
        simp [absent, eq_comm]
      · rw [if_neg same, ih once.2]
        simp [same]

theorem get?_congr (perm : t.Perm t') (once : (t.map Prod.fst).Nodup) : t.get? key = t'.get? key := by
  have once' : (t'.map Prod.fst).Nodup := (perm.map Prod.fst).nodup_iff.1 once
  apply Option.ext
  intro value
  rw [get?_eq_some once, get?_eq_some once', perm.mem_iff]

theorem get?_append (s t : Table) (key : String) : get? (s ++ t) key = (get? s key).or (get? t key) :=
  List.lookup_append

theorem get?_filter (t : Table) (p : String → Bool) (key : String) :
    get? (t.filter fun e => p e.1) key = if p key then t.get? key else none := by
  induction t with
  | nil => simp [get?]
  | cons entry t ih =>
      obtain ⟨k, v⟩ := entry
      rw [List.filter_cons, get?_cons]
      by_cases same : key = k
      · subst same
        cases chosen : p key <;> simp [chosen, get?_cons, ih]
      · cases chosen : p k <;> simp [same, get?_cons, ih]

theorem get?_map (t : Table) (f : String × Datum → Datum) (key : String) :
    get? (t.map fun e => (e.1, f e)) key = (t.get? key).map fun value => f (key, value) := by
  induction t with
  | nil => rfl
  | cons entry t ih =>
      rw [List.map_cons, get?_cons, get?_cons entry.1 entry.2, ih]
      by_cases same : key = entry.1
      · simp [same]
      · simp [same]

theorem insert_of_notMem (absent : key ∉ t.map Prod.fst) : t.insert key value = t ++ [(key, value)] := by
  induction t with
  | nil => rfl
  | cons entry t ih =>
      obtain ⟨k, v⟩ := entry
      simp only [List.map_cons, List.mem_cons, not_or] at absent
      rw [insert, if_neg (by simpa using fun same => absent.1 same.symm), ih absent.2]
      rfl

theorem keys_insert_of_mem (present : key ∈ t.map Prod.fst) :
    (t.insert key value).map Prod.fst = t.map Prod.fst := by
  induction t with
  | nil => cases present
  | cons entry t ih =>
      obtain ⟨k, v⟩ := entry
      rw [insert]
      split
      · rfl
      · rename_i other
        rcases List.mem_cons.1 present with rfl | present
        · simp at other
        · simp [ih present]

/-- The table with every option under its name. -/
def respelled (t : Table) : Table :=
  t.map fun e => (OptionName.canonicalKey e.1, e.2)

/-- The entries that give a value. -/
def given (t : Table) : Table :=
  t.filter fun e => !e.2.isNull

theorem respelled_cons (key : String) (value : Datum) (t : Table) :
    respelled ((key, value) :: t) = (OptionName.canonicalKey key, value) :: respelled t := rfl

end Table

namespace Datum

def names : Datum → List String
  | .list items => items.filterMap fun
    | .string s => some s
    | _ => none
  | _ => []

@[simp] theorem names_list (names : List String) : (Datum.list (names.map .string)).names = names := by
  simp [Datum.names, List.filterMap_map]

theorem distinct_strings (names : List String) :
    distinct (names.map .string) = names.eraseDups.map .string := by
  -- The fold runs over strings that are kept already and adds those of the rest that are not among them.
  have fold (kept names : List String) :
      (names.map Datum.string).foldl
          (fun kept d => if kept.any (·.isSame d) then kept else kept ++ [d]) (kept.map .string) =
        (kept ++ (names.filter (!kept.contains ·)).eraseDups).map .string := by
    induction names generalizing kept with
    | nil => simp
    | cons name names ih =>
        have same : (kept.map Datum.string).any (·.isSame (.string name)) = kept.contains name := by
          rw [List.any_map, List.contains_eq_any_beq]
          congr 1
          funext own
          exact Bool.beq_comm
        rw [List.map_cons, List.foldl_cons, same]
        by_cases listed : kept.contains name = true
        · rw [if_pos listed, ih, List.filter_cons_of_neg (by rw [listed]; simp)]
        · have more := ih (kept ++ [name])
          rw [List.map_append, List.map_singleton] at more
          rw [if_neg listed, more, List.filter_cons_of_pos (by simpa using listed), List.eraseDups_cons,
            List.filter_filter]
          simp [Bool.and_comm, beq_eq_decide]
  simpa [distinct] using fold [] names

end Datum

namespace OptionName

def default : OptionName → Datum
  | componentName => .string ({} : Options).componentName
  | importSource => .string ({} : Options).importSource
  | allGet => .boolean ({} : Options).allGet
  | methodNames => .list (({} : Options).methodNames.map .string)
  | markerSuffix => .string ({} : Options).markerSuffix
  | reactiveComponents => .list (({} : Options).reactiveComponents.map .string)
  | observerNames => .list (({} : Options).observerNames.map .string)
  | wrapReactiveChildren => .boolean ({} : Options).wrapReactiveChildren
  | wrapReactiveChildrenComponents => .list (({} : Options).wrapReactiveChildrenComponents.map .string)

def isList (name : OptionName) : Bool :=
  (defaultList? name.key).isSome

theorem default_of_defaultList? {name : OptionName} {names : List String}
    (list : defaultList? name.key = some names) : name.default = .list (names.map .string) := by
  cases name <;> cases list <;> rfl

theorem key_injective {a b : OptionName} (same : a.key = b.key) : a = b := by
  cases a <;> cases b <;> first | rfl | (simp [key] at same)

/-- The key names no option in either spelling. -/
def Stranger (key : String) : Prop :=
  ∀ name : OptionName, key ≠ name.key ∧ key ≠ name.camelKey

instance (key : String) : Decidable (Stranger key) :=
  decidable_of_iff (∀ name ∈ all, key ≠ name.key ∧ key ≠ name.camelKey)
    ⟨fun h name => h name name.mem_all, fun h name _ => h name⟩

theorem canonicalKey_camelKey (name : OptionName) : canonicalKey name.camelKey = name.key := by
  cases name <;> rfl

theorem canonicalKey_key (name : OptionName) : canonicalKey name.key = name.key := by
  cases name <;> rfl

theorem canonicalKey_stranger {key : String} (stranger : Stranger key) : canonicalKey key = key := by
  unfold canonicalKey
  split
  · rename_i name found
    have same : name.camelKey = key := by simpa using List.find?_some found
    exact absurd same.symm (stranger name).2
  · rfl

theorem canonicalKey_cases (key : String) :
    (∃ name : OptionName, canonicalKey key = name.key) ∨ canonicalKey key = key ∧ Stranger key := by
  by_cases stranger : Stranger key
  · exact .inr ⟨canonicalKey_stranger stranger, stranger⟩
  · simp only [Stranger, not_forall, not_and_or, not_not] at stranger
    obtain ⟨name, rfl | rfl⟩ := stranger
    · exact .inl ⟨name, canonicalKey_key name⟩
    · exact .inl ⟨name, canonicalKey_camelKey name⟩

theorem canonicalKey_ne_camelKey (key : String) (name : OptionName) : canonicalKey key ≠ name.camelKey := by
  rcases canonicalKey_cases key with ⟨other, same⟩ | ⟨same, stranger⟩
  · rw [same]
    cases other <;> cases name <;> decide
  · rw [same]
    exact (stranger name).2

end OptionName

/-! ## Merging -/

namespace Options

open OptionName (canonicalKey defaultList?)

def settle (key : String) (base : Option Datum) (value : Datum) : Datum :=
  match defaultList? key with
  | none => value
  | some names => .list (((base.getD (.list (names.map .string))).names ++ value.names).eraseDups.map .string)

theorem canonical_eq {t : Table} (once : (t.respelled.map Prod.fst).Nodup) : canonical t = t.respelled := by
  have fold (t merged : Table) (once : ((merged ++ t.respelled).map Prod.fst).Nodup) :
      t.foldl (fun merged e => merged.insert (canonicalKey e.1) e.2) merged = merged ++ t.respelled := by
    induction t generalizing merged with
    | nil => simp [Table.respelled]
    | cons entry t ih =>
        obtain ⟨key, value⟩ := entry
        rw [Table.respelled_cons, List.append_cons] at once ⊢
        have absent : canonicalKey key ∉ merged.map Prod.fst := by
          rw [List.append_assoc, List.map_append] at once
          exact fun present => (List.nodup_append.1 once).2.2 _ present _ (.head _) rfl
        rw [List.foldl_cons]
        dsimp only
        rw [Table.insert_of_notMem absent, ih _ once]
  simpa [canonical] using fold t [] (by simpa using once)

def Strings (value : Datum) : Prop :=
  ∃ names : List String, value = .list (names.map .string)

theorem mergeLists_strings {base added : Datum} (left : Strings base) (right : Strings added) :
    mergeLists base added = .ok (.list ((base.names ++ added.names).eraseDups.map .string)) := by
  obtain ⟨xs, rfl⟩ := left
  obtain ⟨ys, rfl⟩ := right
  have plain : ((xs ++ ys).map Datum.string).all Datum.isPlain = true := by
    simp [Datum.isPlain]
  simp only [mergeLists, Datum.items?, ← List.map_append]
  rw [if_pos plain, Datum.distinct_strings, Datum.names_list, Datum.names_list]

theorem override_eq {t : Table} {key : String} {value : Datum} (present : value.isNull = false)
    (lists : (defaultList? (canonicalKey key)).isSome = true →
      Strings value ∧ ∀ base, t.get? (canonicalKey key) = some base → Strings base) :
    override t key value =
      .ok (t.insert (canonicalKey key) (settle (canonicalKey key) (t.get? (canonicalKey key)) value)) := by
  unfold override settle
  split
  · cases present
  · cases list : defaultList? (canonicalKey key) with
    | none => simp only [list]; rfl
    | some names =>
        obtain ⟨right, left⟩ := lists (by rw [list]; rfl)
        have base : Strings ((t.get? (canonicalKey key)).getD (.list (names.map .string))) := by
          cases found : t.get? (canonicalKey key) with
          | none => exact ⟨names, rfl⟩
          | some base => exact left base found
        simp only [list, mergeLists_strings base right]
        rfl

/-- What a caller's values make of a table: each value is settled over what the table has under its key,
and keys that the table does not have come last, in order. -/
theorem foldlM_override {overrides t : Table} (once : (overrides.respelled.map Prod.fst).Nodup)
    (present : ∀ e ∈ overrides, e.2.isNull = false)
    (lists : ∀ e ∈ overrides, (defaultList? (canonicalKey e.1)).isSome = true →
      Strings e.2 ∧ ∀ base, t.get? (canonicalKey e.1) = some base → Strings base) :
    ∃ merged, overrides.foldlM (fun t (key, value) => override t key value) t = .ok merged ∧
      (∀ key, merged.get? key = match overrides.respelled.get? key with
        | some value => some (settle key (t.get? key) value)
        | none => t.get? key) ∧
      merged.map Prod.fst =
        t.map Prod.fst ++ (overrides.respelled.map Prod.fst).filter fun key => (t.get? key).isNone := by
  induction overrides generalizing t with
  | nil => exact ⟨t, rfl, fun key => rfl, by simp [Table.respelled]⟩
  | cons entry overrides ih =>
      obtain ⟨key, value⟩ := entry
      rw [Table.respelled_cons, List.map_cons] at once
      obtain ⟨absent, once⟩ := List.nodup_cons.1 once
      have step : override t key value = .ok (t.insert (canonicalKey key)
          (settle (canonicalKey key) (t.get? (canonicalKey key)) value)) :=
        override_eq (present _ (.head _)) (lists _ (.head _))
      -- Keys still to come differ from this one, so the table has for them what it had before.
      have other {own : String} (member : own ∈ (Table.respelled overrides).map Prod.fst) :
          own ≠ canonicalKey key := fun same => absent (same ▸ member)
      have kept (own : String) (ne : own ≠ canonicalKey key) : (t.insert (canonicalKey key)
          (settle (canonicalKey key) (t.get? (canonicalKey key)) value)).get? own = t.get? own := by
        rw [Table.get?_insert, if_neg ne]
      obtain ⟨merged, run, values, keys⟩ := ih once (fun e member => present e (.tail _ member))
        fun e member list => by
          rw [kept _ (other (List.mem_map.2 ⟨_, List.mem_map_of_mem member, rfl⟩))]
          exact lists e (.tail _ member) list
      refine ⟨merged, ?_, fun own => ?_, ?_⟩
      · rw [List.foldlM_cons]
        dsimp only
        rw [step]
        exact run
      · rw [values own, Table.respelled_cons, Table.get?_cons]
        by_cases same : own = canonicalKey key
        · subst same
          rw [if_pos rfl, Table.get?_eq_none.2 absent, Table.get?_insert, if_pos rfl]
        · rw [if_neg same, kept own same]
      · rw [keys, Table.respelled_cons, List.map_cons,
          List.filter_congr fun own member => by rw [kept own (other member)]]
        by_cases listed : canonicalKey key ∈ t.map Prod.fst
        · have held : (t.get? (canonicalKey key)).isNone = false := by
            rw [Option.isNone_eq_false_iff, Option.isSome_iff_ne_none, ne_eq, Table.get?_eq_none, not_not]
            exact listed
          rw [Table.keys_insert_of_mem listed, List.filter_cons_of_neg (by simp [held])]
        · have new : t.get? (canonicalKey key) = none := Table.get?_eq_none.2 listed
          rw [Table.insert_of_notMem listed, List.filter_cons_of_pos (by simp [new])]
          simp

theorem foldlM_given (overrides t : Table) :
    overrides.foldlM (fun t (key, value) => override t key value) t =
      overrides.given.foldlM (fun t (key, value) => override t key value) t := by
  induction overrides generalizing t with
  | nil => rfl
  | cons entry overrides ih =>
      obtain ⟨key, value⟩ := entry
      cases null : value.isNull with
      | true =>
          have skipped : override t key value = .ok t := by
            cases value <;> first | rfl | cases null
          have given : Table.given ((key, value) :: overrides) = Table.given overrides :=
            List.filter_cons_of_neg (by simp [null])
          rw [given, List.foldlM_cons, ← ih t]
          dsimp only
          rw [skipped]
          rfl
      | false =>
          have given : Table.given ((key, value) :: overrides) = (key, value) :: Table.given overrides :=
            List.filter_cons_of_pos (by simp [null])
          rw [given, List.foldlM_cons, List.foldlM_cons]
          congr 1
          funext t
          exact ih t

theorem merge_eq (configured overrides : Table) {merged : Table}
    (run : overrides.foldlM (fun t (key, value) => override t key value) (canonical configured) = .ok merged) :
    merge configured overrides = (ofTable merged).mapError .invalid := by
  unfold merge
  rw [run]
  simp only [bind, Except.bind]
  cases ofTable merged <;> rfl

/-! ## The record -/

/-- What an option comes to: the caller's value, or else the file's, or else the default. The items of a
caller's list come after those of the list that would stand otherwise, and first occurrences are kept. -/
def resolve (name : OptionName) (configured overrides : Table) : Datum :=
  let base := (configured.respelled.get? name.key).getD name.default
  match overrides.given.respelled.get? name.key with
  | none => base
  | some value =>
    if name.isList then .list ((base.names ++ value.names).eraseDups.map .string) else value

theorem settle_key (name : OptionName) (base : Option Datum) (value : Datum) :
    settle name.key base value = if name.isList then
      .list (((base.getD name.default).names ++ value.names).eraseDups.map .string) else value := by
  rw [settle, OptionName.isList]
  cases list : defaultList? name.key with
  | none => rfl
  | some names =>
      rw [OptionName.default_of_defaultList? list]
      rfl

def strangers (configured overrides : Table) : Table :=
  (configured.filter fun e => decide (OptionName.Stranger e.1)).map
      (fun e => (e.1, (overrides.given.get? e.1).getD e.2)) ++
    overrides.given.filter fun e => decide (OptionName.Stranger e.1) && (configured.get? e.1).isNone

/-- The record that the options of a file and of a caller come to. -/
def record (configured overrides : Table) : Table :=
  OptionName.all.map (fun name => (name.key, resolve name configured overrides)) ++
    strangers configured overrides

def Agree (name : OptionName) (t' t : Table) : Prop :=
  name.find? t' = name.find? t ∨ name.find? t' = none ∧ name.find? t = some (name.key, name.default)

theorem checkOne_congr {α : Type} {t t' : Table} {name : OptionName} (agree : Agree name t' t) (default : α)
    (check : Datum → Except OptionProblem α) (sound : check name.default = .ok default) :
    checkOne t' name default check = checkOne t name default check := by
  unfold checkOne
  rcases agree with same | ⟨absent, present⟩
  · rw [same]
  · funext errors
    simp only [absent, present, sound]

theorem checkList_congr {t t' : Table} {name : OptionName} (agree : Agree name t' t) (default : List String)
    (sound : name.default = .list (default.map .string)) :
    checkList t' name default = checkList t name default := by
  unfold checkList
  rcases agree with same | ⟨absent, present⟩
  · rw [same]
  · funext errors
    have read : (default.map Datum.string).map Datum.asString = default.map .ok := by simp [Datum.asString]
    have right : (default.map (Except.ok : String → Except OptionProblem String)).filterMap Except.toOption =
        default := by
      simp [List.filterMap_map, Function.comp_def, Except.toOption]
    simp only [absent, present, sound, read, right]
    refine Prod.ext rfl (List.self_eq_append_right.2 (List.filterMap_eq_nil_iff.2 ?_))
    rintro ⟨item, i⟩ member
    obtain ⟨text, _, rfl⟩ := List.mem_map.1 (List.fst_mem_of_mem_zipIdx member)
    rfl

def verdict (options : Options) : List OptionError → Except (List OptionError) Options
  | [] => .ok options
  | errors => .error errors

theorem exists_ofTable_eq (t : Table) : ∃ (options : Options) (errors : List OptionError), ∀ t',
    (∀ name, Agree name t' t) → ofTable t' = verdict options
      (errors ++ ((t'.map Prod.fst).filter (isUnknown t')).map (⟨·, none, .unknownOption⟩)) := by
  -- Both are what the checks leave when they run on `t`, and are found by unification.
  refine ⟨?options, ?errors, fun t' agree => ?outcome⟩
  case outcome =>
    have component := checkOne_congr (agree .componentName) ({} : Options).componentName
      (fun d => d.asString >>= checkComponent) rfl
    have source := checkOne_congr (agree .importSource) ({} : Options).importSource
      (fun d => d.asString >>= checkNotEmpty) rfl
    have suffix := checkOne_congr (agree .markerSuffix) ({} : Options).markerSuffix
      (fun d => d.asString >>= checkNotEmpty) rfl
    unfold ofTable
    dsimp only
    rw [component, source, suffix,
      checkOne_congr (agree .allGet) ({} : Options).allGet Datum.asBoolean rfl,
      checkOne_congr (agree .wrapReactiveChildren) ({} : Options).wrapReactiveChildren Datum.asBoolean rfl,
      checkList_congr (agree .methodNames) ({} : Options).methodNames rfl,
      checkList_congr (agree .reactiveComponents) ({} : Options).reactiveComponents rfl,
      checkList_congr (agree .observerNames) ({} : Options).observerNames rfl,
      checkList_congr (agree .wrapReactiveChildrenComponents) ({} : Options).wrapReactiveChildrenComponents rfl]
    rfl

/-! ## Keys of the record -/

section

variable {t configured overrides : Table} {key : String} {name : OptionName}

theorem isUnknown_eq (plain : ∀ name : OptionName, t.get? name.camelKey = none) (key : String) :
    isUnknown t key = decide (OptionName.Stranger key) := by
  rw [Bool.eq_iff_iff, decide_eq_true_iff, isUnknown, List.all_eq_true]
  simp only [plain, Option.isSome_none, Bool.or_false, Bool.and_eq_true, bne_iff_ne]
  exact ⟨fun h name => (h name name.mem_all).symm, fun h name _ => (h name).symm⟩

theorem find?_eq (plain : t.get? name.camelKey = none) : name.find? t = (t.get? name.key).map (name.key, ·) := by
  rw [OptionName.find?, plain]

theorem keys_strangers_of_respelled (t : Table) (p : String → Bool) :
    (t.respelled.map Prod.fst).filter (fun key => decide (OptionName.Stranger key) && p key) =
      (t.filter fun e => decide (OptionName.Stranger e.1) && p e.1).map Prod.fst := by
  induction t with
  | nil => rfl
  | cons entry t ih =>
      obtain ⟨key, value⟩ := entry
      rw [Table.respelled_cons, List.map_cons]
      by_cases stranger : OptionName.Stranger key
      · rw [OptionName.canonicalKey_stranger stranger]
        cases chosen : p key with
        | true => rw [List.filter_cons_of_pos (by simp [stranger, chosen]),
            List.filter_cons_of_pos (by simp [stranger, chosen]), ih, List.map_cons]
        | false => rw [List.filter_cons_of_neg (by simp [chosen]), List.filter_cons_of_neg (by simp [chosen]), ih]
      · have known : ¬OptionName.Stranger (canonicalKey key) := by
          rcases OptionName.canonicalKey_cases key with ⟨name, same⟩ | ⟨_, own⟩
          · exact fun other => (other name).1 same
          · exact absurd own stranger
        rw [List.filter_cons_of_neg (by simp [known]), List.filter_cons_of_neg (by simp [stranger]), ih]

theorem get?_respelled (stranger : OptionName.Stranger key) (t : Table) : t.respelled.get? key = t.get? key := by
  induction t with
  | nil => rfl
  | cons entry t ih =>
      obtain ⟨own, value⟩ := entry
      rw [Table.respelled_cons, Table.get?_cons, Table.get?_cons, ih]
      have same : key = canonicalKey own ↔ key = own := by
        rcases OptionName.canonicalKey_cases own with ⟨name, known⟩ | ⟨same, _⟩
        · refine iff_of_false (fun same => (stranger name).1 (same.trans known)) ?_
          rintro rfl
          exact (stranger name).1 (OptionName.canonicalKey_stranger stranger ▸ known)
        · rw [same]
      simp only [same]

theorem keys_strangers (configured overrides : Table) : (strangers configured overrides).map Prod.fst =
    (configured.respelled.map Prod.fst).filter (fun key => decide (OptionName.Stranger key)) ++
      (overrides.given.respelled.map Prod.fst).filter (fun key =>
        decide (OptionName.Stranger key) && (configured.respelled.get? key).isNone) := by
  have file := keys_strangers_of_respelled configured fun _ => true
  simp only [Bool.and_true] at file
  rw [strangers, List.map_append, List.map_map, file, keys_strangers_of_respelled]
  congr 2
  apply List.filter_congr
  intro e _
  by_cases stranger : OptionName.Stranger e.1
  · rw [get?_respelled stranger]
  · simp [stranger]

theorem get?_names (t : Table) (f : OptionName → Datum) (name : OptionName) :
    Table.get? (OptionName.all.map (fun name => (name.key, f name)) ++ t) name.key = some (f name) := by
  have keys : (OptionName.all.map fun name => (name.key, f name)).map Prod.fst =
      OptionName.all.map OptionName.key := by
    simp
  have once : ((OptionName.all.map fun name => (name.key, f name)).map Prod.fst).Nodup := by
    rw [keys]
    decide
  rw [Table.get?_append, (Table.get?_eq_some once).2 (List.mem_map_of_mem name.mem_all), Option.some_or]

theorem get?_names_of_ne (other : ∀ name : OptionName, key ≠ name.key) (t : Table) (f : OptionName → Datum) :
    Table.get? (OptionName.all.map (fun name => (name.key, f name)) ++ t) key = t.get? key := by
  have absent : key ∉ (OptionName.all.map fun name => (name.key, f name)).map Prod.fst := by
    simpa using fun name _ => (other name).symm
  rw [Table.get?_append, Table.get?_eq_none.2 absent, Option.none_or]

theorem stranger_of_mem_strangers (member : key ∈ (strangers configured overrides).map Prod.fst) :
    OptionName.Stranger key := by
  rw [keys_strangers, List.mem_append, List.mem_filter, List.mem_filter] at member
  rcases member with ⟨_, stranger⟩ | ⟨_, stranger⟩
  · exact of_decide_eq_true stranger
  · exact of_decide_eq_true (Bool.and_eq_true_iff.1 stranger).1

theorem record_plain (configured overrides : Table) (name : OptionName) :
    (record configured overrides).get? name.camelKey = none := by
  have other (own : OptionName) : name.camelKey ≠ own.key := by
    cases name <;> cases own <;> decide
  rw [record, get?_names_of_ne other, Table.get?_eq_none]
  exact fun member => (stranger_of_mem_strangers member name).2 rfl

theorem keys_record_unknown (configured overrides : Table) :
    ((record configured overrides).map Prod.fst).filter (isUnknown (record configured overrides)) =
      (strangers configured overrides).map Prod.fst := by
  have unknown : isUnknown (record configured overrides) = fun key => decide (OptionName.Stranger key) :=
    funext (isUnknown_eq (record_plain configured overrides))
  rw [unknown, record, List.map_append, List.filter_append]
  have none : ((OptionName.all.map fun name => (name.key, resolve name configured overrides)).map Prod.fst).filter
      (fun key => decide (OptionName.Stranger key)) = [] := by
    rw [List.filter_eq_nil_iff]
    intro key member
    obtain ⟨name, _, rfl⟩ : ∃ name ∈ OptionName.all, name.key = key := by simpa using member
    exact fun stranger => (of_decide_eq_true stranger name).1 rfl
  rw [none, List.nil_append, List.filter_eq_self]
  exact fun key member => decide_eq_true (stranger_of_mem_strangers member)

theorem get?_record_stranger (stranger : OptionName.Stranger key) (configured overrides : Table) :
    (record configured overrides).get? key = (overrides.given.get? key).or (configured.get? key) := by
  have last := Table.get?_filter overrides.given
    (fun key => decide (OptionName.Stranger key) && (configured.get? key).isNone) key
  have first := Table.get?_filter configured (fun key => decide (OptionName.Stranger key)) key
  rw [record, get?_names_of_ne fun name => (stranger name).1, strangers, Table.get?_append, Table.get?_map,
    first, last]
  cases configured.get? key <;> cases given : overrides.given.get? key <;> simp [stranger, given]

theorem find?_record (configured overrides : Table) (name : OptionName) :
    name.find? (record configured overrides) = some (name.key, resolve name configured overrides) := by
  rw [find?_eq (record_plain configured overrides name), record, get?_names]
  rfl

end

/-- Each key is given once, each option under one of its spellings, and what should be lists of strings are
such lists. -/
structure Clear (t : Table) : Prop where
  once : (t.respelled.map Prod.fst).Nodup
  lists : ∀ e ∈ t, (defaultList? (canonicalKey e.1)).isSome = true → Strings e.2

theorem merge_record {configured overrides : Table} (clear : Clear configured) (clear' : Clear overrides.given) :
    merge configured overrides = (ofTable (record configured overrides)).mapError .invalid := by
  have based (key : String) (list : (defaultList? key).isSome = true) (base : Datum)
      (found : configured.respelled.get? key = some base) : Strings base := by
    obtain ⟨e, member, same⟩ := List.mem_map.1 ((Table.get?_eq_some clear.once).1 found)
    cases same
    exact clear.lists e member list
  obtain ⟨merged, run, values, keys⟩ := foldlM_override (t := configured.respelled) clear'.once
    (fun e member => by simpa using (List.mem_filter.1 member).2)
    fun e member list => ⟨clear'.lists e member list, based _ list⟩
  rw [← canonical_eq clear.once, ← foldlM_given] at run
  rw [merge_eq configured overrides run]
  have plain (name : OptionName) : merged.get? name.camelKey = none := by
    rw [Table.get?_eq_none, keys, List.mem_append, List.mem_filter]
    rintro (member | ⟨member, _⟩)
    all_goals
      obtain ⟨_, entry, same⟩ := List.mem_map.1 member
      obtain ⟨e, _, rfl⟩ := List.mem_map.1 entry
      exact OptionName.canonicalKey_ne_camelKey e.1 name same
  have agree (name : OptionName) : Agree name merged (record configured overrides) := by
    rw [Agree, find?_record, find?_eq (plain name), values name.key, resolve]
    cases overrides.given.respelled.get? name.key with
    | some value =>
        left
        simp only [settle_key, Option.map_some]
    | none =>
        cases configured.respelled.get? name.key with
        | some value => exact .inl rfl
        | none => exact .inr ⟨rfl, rfl⟩
  have unknown : (merged.map Prod.fst).filter (isUnknown merged) =
      (strangers configured overrides).map Prod.fst := by
    rw [funext (isUnknown_eq plain), keys, keys_strangers, List.filter_append, List.filter_filter]
  obtain ⟨options, errors, outcome⟩ := exists_ofTable_eq (record configured overrides)
  rw [outcome merged agree, outcome _ fun _ => .inl rfl, keys_record_unknown, unknown]

/-! ## Order and spelling -/

/-- The same options, or the same errors in some order. -/
def SameOutcome : Except LoadFault Options → Except LoadFault Options → Prop
  | .ok options, .ok options' => options = options'
  | .error (.invalid errors), .error (.invalid errors') => errors.Perm errors'
  | _, _ => False

theorem verdict_sameOutcome (options : Options) {errors errors' : List OptionError} (perm : errors.Perm errors') :
    SameOutcome ((verdict options errors).mapError .invalid) ((verdict options errors').mapError .invalid) := by
  match errors, errors' with
  | [], [] => rfl
  | _ :: _, _ :: _ => exact perm
  | [], _ :: _ | _ :: _, [] => simp at perm

section

variable {configured configured' overrides overrides' : Table}

theorem respelled_given (t : Table) : t.given.respelled = t.respelled.filter fun e => !e.2.isNull := by
  rw [Table.respelled, Table.respelled, List.filter_map]
  rfl

theorem Clear.of_perm (clear : Clear configured) (perm : configured.respelled.Perm configured'.respelled) :
    Clear configured' := by
  refine ⟨(perm.map Prod.fst).nodup_iff.1 clear.once, fun e member list => ?_⟩
  obtain ⟨own, listed, same⟩ := List.mem_map.1 (perm.mem_iff.2 (List.mem_map_of_mem member))
  obtain ⟨key, value⟩ := Prod.mk.injEq .. ▸ same
  rw [← value]
  exact clear.lists own listed (key ▸ list)

theorem record_sameOutcome (clear : Clear configured) (clear' : Clear overrides.given)
    (perm : configured.respelled.Perm configured'.respelled)
    (perm' : overrides.given.respelled.Perm overrides'.given.respelled) :
    SameOutcome ((ofTable (record configured overrides)).mapError .invalid)
      ((ofTable (record configured' overrides')).mapError .invalid) := by
  obtain ⟨options, errors, outcome⟩ := exists_ofTable_eq (record configured overrides)
  have agree (name : OptionName) : Agree name (record configured' overrides') (record configured overrides) := by
    rw [Agree, find?_record, find?_record, resolve, resolve, Table.get?_congr perm clear.once,
      Table.get?_congr perm' clear'.once]
    exact .inl rfl
  rw [outcome _ fun _ => .inl rfl, outcome _ agree, keys_record_unknown, keys_record_unknown]
  apply verdict_sameOutcome
  refine .append_left _ (.map _ ?_)
  rw [keys_strangers, keys_strangers]
  refine ((perm.map _).filter _).append ?_
  simp only [Table.get?_congr perm clear.once]
  exact (perm'.map _).filter _

end

theorem load_eq {configuration : Option ByteArray} {table : Table}
    (read : configuration.elim (.ok []) configured = .ok table) (overrides : Table) :
    load configuration overrides = merge table overrides := by
  cases configuration with
  | none =>
      cases read
      rfl
  | some content =>
      have found : configured content = .ok table := read
      rw [load]
      simp only [found]
      rfl

theorem record_stranger {table overrides : Table} {key : String} (stranger : OptionName.Stranger key)
    (present : key ∈ table.map Prod.fst ∨ key ∈ overrides.given.map Prod.fst) :
    ∃ errors, (ofTable (record table overrides)).mapError .invalid = .error (LoadFault.invalid errors) ∧
      ⟨key, none, .unknownOption⟩ ∈ errors := by
  have listed : key ∈ (strangers table overrides).map Prod.fst := by
    have held : (record table overrides).get? key ≠ none := by
      rw [get?_record_stranger stranger, ne_eq, Option.or_eq_none_iff, Table.get?_eq_none, Table.get?_eq_none]
      tauto
    rw [record, get?_names_of_ne fun name => (stranger name).1, ne_eq, Table.get?_eq_none, not_not] at held
    exact held
  obtain ⟨options, errors, outcome⟩ := exists_ofTable_eq (record table overrides)
  have whole := outcome _ fun _ => .inl rfl
  rw [keys_record_unknown] at whole
  have member : (⟨key, none, .unknownOption⟩ : OptionError) ∈
      errors ++ ((strangers table overrides).map Prod.fst).map (⟨·, none, .unknownOption⟩) :=
    List.mem_append_right _ (List.mem_map_of_mem (f := fun key => (⟨key, none, .unknownOption⟩ : OptionError)) listed)
  refine ⟨_, ?_, member⟩
  rw [whole]
  obtain ⟨first, rest, shape⟩ := List.exists_cons_of_ne_nil (List.ne_nil_of_mem member)
  rw [shape]
  rfl

/-- What is loaded is the outcome of checking the record of the file's options and the caller's. Keys that
name no option are kept in it, and make the check fail. Neither the order of the keys nor their spelling
matters. -/
theorem load_resolves {configuration : Option ByteArray} {table overrides : Table}
    (read : configuration.elim (.ok []) configured = .ok table) (clear : Clear table)
    (clear' : Clear overrides.given) :
    load configuration overrides = (ofTable (record table overrides)).mapError .invalid ∧
    (∀ key, OptionName.Stranger key →
      (record table overrides).get? key = (overrides.given.get? key).or (table.get? key)) ∧
    (∀ key, OptionName.Stranger key → key ∈ table.map Prod.fst ∨ key ∈ overrides.given.map Prod.fst →
      ∃ errors, load configuration overrides = .error (.invalid errors) ∧
        ⟨key, none, .unknownOption⟩ ∈ errors) ∧
    (∀ configuration' table' overrides', configuration'.elim (.ok []) configured = .ok table' →
      table.respelled.Perm table'.respelled → overrides.respelled.Perm overrides'.respelled →
      SameOutcome (load configuration overrides) (load configuration' overrides')) := by
  have loaded : load configuration overrides = (ofTable (record table overrides)).mapError .invalid := by
    rw [load_eq read, merge_record clear clear']
  refine ⟨loaded, fun key stranger => get?_record_stranger stranger table overrides,
    fun key stranger present => loaded ▸ record_stranger stranger present, ?_⟩
  intro configuration' table' overrides' read' perm perm'
  have given : overrides.given.respelled.Perm overrides'.given.respelled := by
    rw [respelled_given, respelled_given]
    exact perm'.filter _
  rw [loaded, load_eq read', merge_record (clear.of_perm perm) (clear'.of_perm given)]
  exact record_sameOutcome clear clear' perm given

def Sample.configuration : ByteArray :=
  "[tool.jsx_memo]\nallGet=true".toUTF8

def Sample.table : Table :=
  [("allGet", .boolean true)]

def Sample.overrides : Table :=
  [("methodNames", .null), ("method_names", .list [.string "use", .string "get"]),
    ("componentName", .string "Box")]

/-- The record that both come to. -/
def Sample.record : Table :=
  [("component_name", .string "Box"), ("import_source", .string "@legendapp/state/react"),
    ("all_get", .boolean true), ("method_names", .list [.string "get", .string "use"]),
    ("marker_suffix", .string "$"), ("reactive_components", .list []), ("observer_names", .list []),
    ("wrap_reactive_children", .boolean true), ("wrap_reactive_children_components", .list [])]

theorem load_resolves_box :
    (some Sample.configuration).elim (.ok []) configured = .ok Sample.table ∧ Clear Sample.table ∧
      Clear Sample.overrides.given ∧
      load (some Sample.configuration) Sample.overrides =
        .ok { componentName := "Box", allGet := true, methodNames := ["get", "use"] } := by
  have read : (some Sample.configuration).elim (.ok []) configured = .ok Sample.table := by cbv
  have clear : Clear Sample.table := by
    refine ⟨by decide, fun e member list => ?_⟩
    cases List.mem_singleton.1 member
    cases list
  have clear' : Clear Sample.overrides.given := by
    refine ⟨by decide, fun e member list => ?_⟩
    obtain rfl | rfl : e = ("method_names", .list [.string "use", .string "get"]) ∨
        e = ("componentName", .string "Box") := by
      simpa [Table.given, Sample.overrides, Datum.isNull] using member
    · exact ⟨["use", "get"], rfl⟩
    · cases list
  have loaded := (load_resolves read clear clear').1
  have entries : record Sample.table Sample.overrides = Sample.record := rfl
  have checked : ofTable Sample.record =
      .ok { componentName := "Box", allGet := true, methodNames := ["get", "use"] } := rfl
  rw [entries, checked] at loaded
  exact ⟨read, clear, clear', loaded⟩

end Options

end JsxBoundary
