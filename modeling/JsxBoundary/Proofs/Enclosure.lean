import JsxBoundary.Proofs.Enlargement
import JsxBoundary.Proofs.Relocation

/-!
# Functions that enclose the nodes of a rewritten tree

Every node of a tree that is no container and no blank text goes somewhere when the tree is rewritten
(`Rewrites.relocates`). There is one way of going for each choice that the rewrite has: a node stays above its
children (`Relocates.children`), gives way to a boundary around what it holds or around itself
(`Relocates.boundary`), or has its content put into a function (`Relocates.deferral`).

What waits for a value can do so only in the function that encloses it. `wrapReads_keeps_enclosers` says when
that is the same function as before. It need not be (`await_enclosed`).
-/

namespace JsxBoundary

namespace Node

variable {s : Settings} {n m c e body body' : Node} {place : List Nat}

def Relocates (s : Settings) (n m : Node) : Prop :=
  ∃ moved, Relocation s n m moved

theorem Relocates.refl (n : Node) : Relocates s n n := by
  refine ⟨fun path place => path = place ∧ (n.get? path).isSome = true, ?_, fun path c found _ _ => ?_, ?_,
    fun place f there _ => .inl ⟨place, rfl, ?_⟩⟩
  · rintro path _ ⟨rfl, inside⟩
    obtain ⟨c, found⟩ := Option.isSome_iff_exists.1 inside
    exact ⟨c, c, found, found, .refl c⟩
  · exact ⟨path, rfl, by simp [found]⟩
  · rintro path _ path' _ ⟨rfl, _⟩ ⟨rfl, _⟩
    rfl
  · simp [there]

inductive Stays (before after : List Node) : Joint → Prop
  | mk {i : Nat} {c c' : Node} (here : before[i]? = some c) (there : after[i]? = some c') :
      Stays before after ⟨[i], [i], c, c'⟩

theorem Stays.eq {before after : List Node} {l l' : Joint} (mine : Stays before after l)
    (mine' : Stays before after l') (above : l.path <+: l'.path ∨ l.place <+: l'.place) : l = l' := by
  cases mine with
  | mk here there =>
    cases mine' with
    | mk here' there' =>
      simp only [List.cons_prefix_cons, List.prefix_rfl, and_true, or_self] at above
      subst above
      cases here.symm.trans here'
      cases there.symm.trans there'
      rfl

theorem Relocates.children {cs : List Node} (each : Pointwise (Relocates s) n.children cs) :
    Relocates s n (n.withChildren cs) := by
  have same := n.children_withChildren each.length
  have joints : Joints s n (n.withChildren cs) true (Stays n.children cs) fun _ _ => False := by
    refine ⟨?_, fun _ _ mine mine' above => mine.eq mine' (.inl above),
      fun _ _ mine mine' above => mine.eq mine' (.inr above), ?_, fun _ => .inl ⟨cs, each.length, rfl⟩,
      fun path c found _ _ => ?_, nofun, nofun, nofun, fun place f there _ => ?_⟩
    · rintro _ ⟨here, there⟩
      simp [here, same, there]
    · rintro _ _ ⟨_, _⟩
      simp
    · cases path with
      | nil => exact .inl ⟨rfl, rfl⟩
      | cons i path =>
          rw [get?_cons, Option.bind_eq_some_iff] at found
          obtain ⟨a, here, _⟩ := found
          have bound := (List.getElem?_eq_some_iff.1 here).1
          exact .inr ⟨_, .mk here (List.getElem?_eq_getElem (each.length ▸ bound)), by simp⟩
    · cases place with
      | nil => exact .inl ⟨rfl, rfl⟩
      | cons i place =>
          rw [get?_cons, same, Option.bind_eq_some_iff] at there
          obtain ⟨a, there, _⟩ := there
          have bound := (List.getElem?_eq_some_iff.1 there).1
          exact .inr (.inl ⟨_, .mk (List.getElem?_eq_getElem (each.length ▸ bound)) there, by simp⟩)
  refine joints.relocation ?_
  rintro _ ⟨here, there⟩
  exact each.each _ _ _ here there

/-! ## Functions in containers -/

theorem children_thunk (body : Node) (source : Option Node) :
    ∃ layout, (body.thunk source).children = [mk (.arrow body none) layout] := by
  obtain ⟨layout, form⟩ := form_thunk body source
  exact ⟨layout, by rw [children, form]; rfl⟩

theorem get?_thunk (body : Node) (source : Option Node) (place : List Nat) :
    (body.thunk source).get? (0 :: 0 :: place) = body.get? place := by
  obtain ⟨layout, children⟩ := children_thunk body source
  rw [get?_cons, children]
  rfl

theorem arrow_thunk (body : Node) (source : Option Node) :
    ∃ f body' : Node, (body.thunk source).get? [0] = some f ∧ f.form = .arrow body' none := by
  obtain ⟨layout, children⟩ := children_thunk body source
  exact ⟨_, body, by rw [get?_cons, children]; rfl, rfl⟩

theorem function_thunk {source : Option Node} {f : Node} (there : (body.thunk source).get? place = some f)
    (function : f.isFunction = true) : place = [0] ∨ ∃ rest, place = 0 :: 0 :: rest ∧ body.get? rest = some f := by
  obtain ⟨layout, children⟩ := children_thunk body source
  obtain ⟨layout', form⟩ := form_thunk body source
  match place with
  | [] =>
      cases there
      rw [isFunction, form] at function
      cases function
  | [0] => exact .inl rfl
  | 0 :: 0 :: rest => exact .inr ⟨rest, rfl, get?_thunk body source rest ▸ there⟩
  | (i + 1) :: _ => simp [children] at there
  | 0 :: (i + 1) :: _ =>
      rw [get?_cons, children] at there
      simp [Node.children, Form.children] at there

theorem not_function_of_tag {form : Form Node} (name : String) {f : Node}
    (children : form.children = [fresh (.identifier name)]) (plain : form.isFunction = false)
    (there : (fresh form).get? place = some f) : f.isFunction = false := by
  have same : (fresh form).children = [fresh (.identifier name)] := children
  match place with
  | [] =>
      cases there
      exact plain
  | [0] =>
      rw [get?_cons, same] at there
      cases there
      rfl
  | (i + 1) :: _ => simp [same] at there
  | 0 :: i :: _ =>
      rw [get?_cons, same] at there
      cases there

theorem Relocates.boundary (front : List Nat) {k : Cover} {component : String} {source : Option Node}
    (found : n.get? front = some e) (asked : k.Asked s n) (covers : ∀ path, k.Covers (front ++ path))
    (only : ∀ path c, n.get? path = some c → c.contained? = none → front <+: path) (inner : Relocates s e body) :
    Relocates s n (body.boundary component source) := by
  have children := children_boundary component body source
  have joints : Joints s n (body.boundary component source) false (· = ⟨front, [1, 0, 0], e, body⟩)
      fun place k' => place = [1, 0] ∧ k' = k := by
    refine ⟨?_, ?_, ?_, nofun, nofun, fun path c found free _ => ?_, ?_, ?_, nofun,
      fun place f there function => .inr ?_⟩
    · rintro _ rfl
      refine ⟨found, ?_⟩
      rw [get?_cons, children]
      exact get?_thunk body source []
    · rintro _ _ rfl rfl _
      rfl
    · rintro _ _ rfl rfl _
      rfl
    · exact .inr ⟨_, rfl, only path c found free⟩
    · rintro _ _ ⟨rfl, rfl⟩
      refine ⟨asked, ?_⟩
      rw [get?_cons, children]
      exact arrow_thunk body source
    · rintro _ _ ⟨rfl, rfl⟩ _ rfl
      exact .inl ⟨by simp, nofun, covers⟩
    · match place with
      | [] =>
          cases there
          cases function
      | 0 :: rest =>
          rw [get?_cons, children] at there
          rw [not_function_of_tag component rfl rfl there] at function
          cases function
      | 1 :: rest =>
          rw [get?_cons, children] at there
          rcases function_thunk there function with rfl | ⟨rest, rfl, _⟩
          · exact .inr ⟨k, rfl, rfl⟩
          · exact .inl ⟨_, rfl, by simp⟩
      | 2 :: rest =>
          rw [get?_cons, children] at there
          rw [not_function_of_tag component rfl rfl there] at function
          cases function
      | (i + 3) :: _ => simp [children] at there
  refine joints.relocation ?_
  rintro _ rfl
  exact inner

theorem prefix_of_held {path : List Nat} (held : n.form = .container e) (found : n.get? path = some c)
    (free : c.contained? = none) : [0] <+: path := by
  have inside : n.children = [e] := by
    rw [Node.children, held]
    rfl
  rcases path with _ | ⟨_ | i, path⟩
  · cases found
    simp [contained?, held] at free
  · simp
  · simp [inside] at found

/-! ## Deferred children -/

theorem mem_keptPlaces {content : List Node} {i : Nat} :
    (c, i) ∈ Origin.keptPlaces content ↔ ∃ j, i = j + 1 ∧ content[j]? = some c ∧ c.isBlankText = false := by
  simp only [Origin.keptPlaces, List.mem_filter, List.mem_zipIdx_iff_le_and_getElem?_sub, Bool.not_eq_true']
  constructor
  · rintro ⟨⟨first, found⟩, shown⟩
    exact ⟨i - 1, by omega, found, shown⟩
  · rintro ⟨j, rfl, found, shown⟩
    exact ⟨⟨by omega, by simpa using found⟩, shown⟩

theorem nodup_keptPlaces (content : List Node) : ((Origin.keptPlaces content).map (·.2)).Nodup := by
  have numbers : ((content.zipIdx 1).map (·.2)).Nodup := by
    rw [List.zipIdx_map_snd]
    exact List.nodup_range' ..
  exact numbers.sublist (List.filter_sublist.map _)

theorem childless_of_isBlankText (h : c.isBlankText = true) : c.children = [] := by
  obtain ⟨form, layout⟩ := c
  cases form <;> first | rfl | cases h

theorem mem_keptPlaces_of_below {content : List Node} {i : Nat} (inside : i < content.length) {rest : List Nat}
    (found : content[i].get? rest = some c) (visible : c.isBlankText = false) :
    (content[i], i + 1) ∈ Origin.keptPlaces content := by
  refine mem_keptPlaces.2 ⟨i, rfl, List.getElem?_eq_getElem inside, ?_⟩
  cases blank : content[i].isBlankText with
  | false => rfl
  | true =>
      cases rest with
      | nil =>
          cases found
          exact blank.symm.trans visible
      | cons => simp [childless_of_isBlankText blank] at found

structure Inlay (s : Settings) (n : Node) (content : List Node) (body : Node) (joint : Joint → Prop) : Prop where
  found : ∀ l, joint l → n.get? l.path = some l.before ∧ body.get? l.place = some l.after
  apart : ∀ l l', joint l → joint l' → l.path <+: l'.path → l = l'
  apart' : ∀ l l', joint l → joint l' → l.place <+: l'.place → l = l'
  within : ∀ l, joint l → ∃ i rest, l.path = (i + 1) :: rest ∧ i < content.length
  cover : ∀ i rest c, i < content.length → n.get? ((i + 1) :: rest) = some c → c.contained? = none →
    c.isBlankText = false → ∃ l, joint l ∧ l.path <+: (i + 1) :: rest
  functions : ∀ place f, body.get? place = some f → f.isFunction = true → ∃ l, joint l ∧ l.place <+: place
  each : ∀ l, joint l → Relocates s l.before l.after

theorem get?_content {opening : Node} {content : List Node} {closing : Option Node}
    (form : n.form = .element (some opening) content closing) {i : Nat} (inside : i < content.length)
    (rest : List Nat) : n.get? ((i + 1) :: rest) = content[i].get? rest := by
  rw [get?_cons, Node.children, form]
  simp [Form.children, List.getElem?_append_left inside, List.getElem?_eq_getElem inside]

theorem Inlay.lone {opening a : Node} {content : List Node} {closing : Option Node} {i : Nat} (front : List Nat)
    (form : n.form = .element (some opening) content closing) (kept : Origin.keptPlaces content = [(a, i)])
    (found : a.get? front = some e)
    (only : ∀ path c, a.get? path = some c → c.contained? = none → front <+: path) (inner : Relocates s e body) :
    Inlay s n content body fun l => l = ⟨i :: front, [], e, body⟩ := by
  obtain ⟨j, rfl, here, shown⟩ := mem_keptPlaces.1 (kept ▸ List.mem_singleton_self (a, i))
  obtain ⟨inside, rfl⟩ := List.getElem?_eq_some_iff.1 here
  refine ⟨?_, ?_, ?_, ?_, fun i rest c bound found' free visible => ?_, fun place f there _ => ?_, ?_⟩
  · rintro _ rfl
    exact ⟨(get?_content form inside front).trans found, rfl⟩
  · rintro _ _ rfl rfl _
    rfl
  · rintro _ _ rfl rfl _
    rfl
  · rintro _ rfl
    exact ⟨j, front, rfl, inside⟩
  · rw [get?_content form bound] at found'
    have listed := mem_keptPlaces_of_below bound found' visible
    rw [kept, List.mem_singleton, Prod.mk.injEq] at listed
    obtain ⟨same, index⟩ := listed
    cases index
    exact ⟨_, rfl, (List.prefix_cons_inj _).2 (only rest c found' free)⟩
  · exact ⟨_, rfl, List.nil_prefix⟩
  · rintro _ rfl
    exact inner

/-- The kept child with the number and what became of it, which has that number in the fragment. -/
inductive KeptAt (content kept : List Node) : Joint → Prop
  | mk {k i : Nat} {c c' : Node} (before : (Origin.keptPlaces content)[k]? = some (c, i))
      (after : kept[k]? = some c') : KeptAt content kept ⟨[i], [k], c, c'⟩

theorem KeptAt.eq {content kept : List Node} {l l' : Joint} (mine : KeptAt content kept l)
    (mine' : KeptAt content kept l') (above : l.path <+: l'.path ∨ l.place <+: l'.place) : l = l' := by
  cases mine with
  | @mk k i c d before after =>
    cases mine' with
    | @mk k' i' c' d' before' after' =>
      simp only [List.cons_prefix_cons, List.prefix_rfl, and_true] at above
      have same : k = k' := by
        rcases above with rfl | same
        · have bound : k < ((Origin.keptPlaces content).map (·.2)).length := by
            simpa using (List.getElem?_eq_some_iff.1 before).1
          refine (List.getElem?_inj bound (nodup_keptPlaces content)).1 ?_
          simp [before, before']
        · exact same
      subst same
      cases before.symm.trans before'
      cases after.symm.trans after'
      rfl

theorem Inlay.several {opening : Node} {content kept : List Node} {closing : Option Node}
    (form : n.form = .element (some opening) content closing) (children : body.children = kept)
    (plain : body.isFunction = false) (each : Pointwise (Relocates s) (keptContent content) kept) :
    Inlay s n content body (KeptAt content kept) := by
  have same := keptContent_eq_map content 1
  rw [← Origin.keptPlaces] at same
  have count : kept.length = (Origin.keptPlaces content).length := by
    rw [each.length, same, List.length_map]
  refine ⟨?_, fun _ _ mine mine' above => mine.eq mine' (.inl above),
    fun _ _ mine mine' above => mine.eq mine' (.inr above), ?_,
    fun i rest c bound found' free visible => ?_, fun place f there function => ?_, ?_⟩
  · rintro _ ⟨before, after⟩
    obtain ⟨j, rfl, here, _⟩ := mem_keptPlaces.1 (List.mem_of_getElem? before)
    obtain ⟨inside, rfl⟩ := List.getElem?_eq_some_iff.1 here
    refine ⟨get?_content form inside [], ?_⟩
    rw [get?_cons, children, after]
    rfl
  · rintro _ ⟨before, _⟩
    obtain ⟨j, rfl, here, _⟩ := mem_keptPlaces.1 (List.mem_of_getElem? before)
    exact ⟨j, [], rfl, (List.getElem?_eq_some_iff.1 here).1⟩
  · rw [get?_content form bound] at found'
    obtain ⟨k, inside, there⟩ := List.getElem_of_mem (mem_keptPlaces_of_below bound found' visible)
    have before : (Origin.keptPlaces content)[k]? = some (content[i], i + 1) :=
      there ▸ List.getElem?_eq_getElem inside
    exact ⟨_, .mk before (List.getElem?_eq_getElem (count ▸ inside)), by simp⟩
  · cases place with
    | nil =>
        cases there
        rw [plain] at function
        cases function
    | cons k place =>
        rw [get?_cons, children, Option.bind_eq_some_iff] at there
        obtain ⟨a, after, _⟩ := there
        have inside : k < (Origin.keptPlaces content).length := count ▸ (List.getElem?_eq_some_iff.1 after).1
        exact ⟨_, .mk (List.getElem?_eq_getElem inside) after, by simp⟩
  · rintro _ ⟨before, after⟩
    refine each.each _ _ _ ?_ after
    rw [same, List.getElem?_map, before]
    rfl

inductive TagsAround (opening opening' : Node) (count : Nat) (closing rest : List Node) (inner : Joint → Prop) :
    Joint → Prop
  | opening : TagsAround opening opening' count closing rest inner ⟨[0], [0], opening, opening'⟩
  | content {l : Joint} (mine : inner l) :
      TagsAround opening opening' count closing rest inner ⟨l.path, 1 :: 0 :: 0 :: l.place, l.before, l.after⟩
  | closing {k : Nat} {c c' : Node} (before : closing[k]? = some c) (after : rest[k]? = some c') :
      TagsAround opening opening' count closing rest inner ⟨[count + 1 + k], [k + 2], c, c'⟩

namespace TagsAround

variable {opening opening' : Node} {content closing rest : List Node} {inner : Joint → Prop} {l l' : Joint}

theorem apart (inlay : Inlay s n content body inner)
    (mine : TagsAround opening opening' content.length closing rest inner l)
    (mine' : TagsAround opening opening' content.length closing rest inner l') (above : l.path <+: l'.path) :
    l = l' := by
  cases mine with
  | opening =>
      cases mine' with
      | opening => rfl
      | content mine' =>
          obtain ⟨i, rest, path, _⟩ := inlay.within _ mine'
          simp [path] at above
      | closing => simp at above; omega
  | content mine =>
      obtain ⟨i, rest, path, inside⟩ := inlay.within _ mine
      cases mine' with
      | opening => simp [path] at above
      | content mine' => rw [inlay.apart _ _ mine mine' above]
      | closing => simp [path] at above; omega
  | closing here after =>
      cases mine' with
      | opening => simp at above
      | content mine' =>
          obtain ⟨i, rest, path, inside⟩ := inlay.within _ mine'
          simp [path] at above
          omega
      | closing here' after' =>
          simp only [List.cons_prefix_cons, Nat.add_left_cancel_iff] at above
          obtain ⟨rfl, _⟩ := above
          cases here.symm.trans here'
          cases after.symm.trans after'
          rfl

theorem apart' (inlay : Inlay s n content body inner)
    (mine : TagsAround opening opening' content.length closing rest inner l)
    (mine' : TagsAround opening opening' content.length closing rest inner l') (above : l.place <+: l'.place) :
    l = l' := by
  cases mine with
  | opening =>
      cases mine' with
      | opening => rfl
      | content | closing => simp at above
  | content mine =>
      cases mine' with
      | opening | closing => simp at above
      | content mine' =>
          simp only [List.cons_prefix_cons, true_and] at above
          rw [inlay.apart' _ _ mine mine' above]
  | closing here after =>
      cases mine' with
      | opening | content => simp at above
      | closing here' after' =>
          simp only [List.cons_prefix_cons, Nat.add_right_cancel_iff] at above
          obtain ⟨rfl, _⟩ := above
          cases here.symm.trans here'
          cases after.symm.trans after'
          rfl

theorem path_ne_nil (inlay : Inlay s n content body inner)
    (mine : TagsAround opening opening' content.length closing rest inner l) : l.path ≠ [] ∧ l.place ≠ [] := by
  cases mine with
  | opening | closing => simp
  | content mine =>
      obtain ⟨i, rest, path, _⟩ := inlay.within _ mine
      simp [path]

theorem around (inlay : Inlay s n content body inner)
    (mine : TagsAround opening opening' content.length closing rest inner l) :
    [1, 0] <+: l.place ∧ [1, 0] ≠ l.place ∧
        (∀ path, (Cover.content [] content.length).Covers (l.path ++ path)) ∨
      ¬[1, 0] <+: l.place ∧ ¬l.place <+: [1, 0] ∧
        ∀ path, ¬(Cover.content [] content.length).Covers (l.path ++ path) := by
  cases mine with
  | opening => exact .inr ⟨by simp, by simp, by simp [Cover.Covers]⟩
  | closing => exact .inr ⟨by simp, by simp, by simp [Cover.Covers]; omega⟩
  | content mine =>
      obtain ⟨i, rest, path, inside⟩ := inlay.within _ mine
      refine .inl ⟨by simp, by simp, fun rest' => ⟨i, rest ++ rest', ?_, inside⟩⟩
      simp [path]

theorem getElem?_closing {closing : Option Node} (form : n.form = .element (some opening) content closing)
    (k : Nat) : n.children[content.length + 1 + k]? = closing.toList[k]? := by
  have children : n.children = opening :: (content ++ closing.toList) := by
    rw [Node.children, form]
    rfl
  rw [children, Nat.add_right_comm, List.getElem?_cons_succ, List.getElem?_append_right (Nat.le_add_right ..)]
  simp

section

variable {closing source : Option Node} {path : List Nat} {f : Node}

theorem found (inlay : Inlay s n content body inner) (form : n.form = .element (some opening) content closing)
    (children : m.children = opening' :: body.thunk source :: rest)
    (mine : TagsAround opening opening' content.length closing.toList rest inner l) :
    n.get? l.path = some l.before ∧ m.get? l.place = some l.after := by
  cases mine with
  | opening =>
      have first : n.children[0]? = some opening := by simp [Node.children, form, Form.children]
      simp [first, children]
  | content mine =>
      refine ⟨(inlay.found _ mine).1, ?_⟩
      rw [get?_cons, children]
      exact (get?_thunk body source _).trans (inlay.found _ mine).2
  | closing here after => simp [getElem?_closing form, here, children, after]

theorem cover (inlay : Inlay s n content body inner) (form : n.form = .element (some opening) content closing)
    (length : rest.length = closing.toList.length) (found : n.get? path = some c) (free : c.contained? = none)
    (visible : c.isBlankText = false) :
    path = [] ∨ ∃ l, TagsAround opening opening' content.length closing.toList rest inner l ∧ l.path <+: path := by
  rcases path with _ | ⟨_ | i, path⟩
  · exact .inl rfl
  · exact .inr ⟨_, .opening, by simp⟩
  · right
    by_cases inside : i < content.length
    · obtain ⟨l, mine, above⟩ := inlay.cover i path c inside found free visible
      exact ⟨_, .content mine, above⟩
    · obtain ⟨k, rfl⟩ := Nat.exists_eq_add_of_le (Nat.le_of_not_lt inside)
      rw [get?_cons, Nat.add_right_comm, getElem?_closing form, Option.bind_eq_some_iff] at found
      obtain ⟨d, here, _⟩ := found
      have bound := (List.getElem?_eq_some_iff.1 here).1
      refine ⟨_, .closing here (List.getElem?_eq_getElem (length ▸ bound)), ?_⟩
      rw [Nat.add_right_comm]
      simp

theorem functions (inlay : Inlay s n content body inner)
    (children : m.children = opening' :: body.thunk source :: rest) (length : rest.length = closing.toList.length)
    (there : m.get? place = some f) (function : f.isFunction = true) :
    place = [] ∨ (∃ l, TagsAround opening opening' content.length closing.toList rest inner l ∧
      l.place <+: place) ∨ place = [1, 0] := by
  rcases place with _ | ⟨_ | _ | k, place⟩
  · exact .inl rfl
  · exact .inr (.inl ⟨_, .opening, by simp⟩)
  · right
    rw [get?_cons, children] at there
    rcases function_thunk there function with rfl | ⟨place, rfl, found⟩
    · exact .inr rfl
    · obtain ⟨l, mine, above⟩ := inlay.functions place f found function
      exact .inl ⟨_, .content mine, by simpa using above⟩
  · rw [get?_cons, children, Option.bind_eq_some_iff] at there
    obtain ⟨d, after, _⟩ := there
    have after : rest[k]? = some d := after
    have bound := (List.getElem?_eq_some_iff.1 after).1
    exact .inr (.inl ⟨_, .closing (List.getElem?_eq_getElem (length ▸ bound)) after, by simp⟩)

end

end TagsAround

theorem Relocates.deferred {opening opening' : Node} {content rest : List Node} {closing source : Option Node}
    {inner : Joint → Prop} (form : n.form = .element (some opening) content closing)
    (asked : (Cover.content [] content.length).Asked s n) (element : m.isElement = true)
    (children : m.children = opening' :: body.thunk source :: rest) (opens : Relocates s opening opening')
    (closes : Pointwise (Relocates s) closing.toList rest) (inlay : Inlay s n content body inner) :
    Relocates s n m := by
  have own : n.isElement = true := by simp [isElement, form]
  have joints : Joints s n m true (TagsAround opening opening' content.length closing.toList rest inner)
      fun place k => place = [1, 0] ∧ k = .content [] content.length := by
    refine ⟨fun _ => TagsAround.found inlay form children, fun _ _ => TagsAround.apart inlay,
      fun _ _ => TagsAround.apart' inlay, fun _ _ => TagsAround.path_ne_nil inlay, fun _ => .inr ⟨own, element⟩,
      fun path c found free visible => ?_, ?_, ?_, fun _ => ?_, fun place f there function => ?_⟩
    · exact (TagsAround.cover inlay form closes.length found free visible).imp_left (⟨rfl, ·⟩)
    · rintro _ _ ⟨rfl, rfl⟩
      refine ⟨asked, ?_⟩
      rw [get?_cons, children]
      exact arrow_thunk body source
    · rintro _ _ ⟨rfl, rfl⟩ l mine
      exact mine.around inlay
    · rintro _ _ ⟨rfl, rfl⟩
      simp [Cover.Covers]
    · rcases TagsAround.functions inlay children closes.length there function with rfl | below | rfl
      · exact .inl ⟨rfl, rfl⟩
      · exact .inr (.inl below)
      · exact .inr (.inr ⟨_, rfl, rfl⟩)
  refine joints.relocation fun l mine => ?_
  cases mine with
  | opening => exact opens
  | @content l mine => exact inlay.each l mine
  | closing here after => exact closes.each _ _ _ here after

theorem Relocates.deferral {opening opening' : Node} {content rest : List Node} {closing source : Option Node}
    (form : n.form = .element (some opening) content closing) (deferred : (n.deferral? s).isSome = true)
    (chosen : deferredBody? (keptContent content) (n.keptFragment content) = some body)
    (element : m.isElement = true) (children : m.children = opening' :: body'.thunk source :: rest)
    (opens : Relocates s opening opening') (closes : Pointwise (Relocates s) closing.toList rest)
    (alone : ∀ c ∈ content, body = c ∨ c.form = .container body → Relocates s body body')
    (several : body = n.keptFragment content → ∃ kept', body' = body.withChildren kept' ∧
      Pointwise (Relocates s) (keptContent content) kept') : Relocates s n m := by
  have asked : (Cover.content [] content.length).Asked s n := .content rfl form deferred
  have places := keptContent_eq_map content 1
  rw [← Origin.keptPlaces] at places
  have lone : ∀ {c : Node}, keptContent content = [c] →
      c ∈ content ∧ ∃ i, Origin.keptPlaces content = [(c, i)] := by
    intro c kept
    have member : c ∈ keptContent content := kept ▸ List.mem_singleton_self c
    rw [places, List.map_eq_singleton_iff] at kept
    obtain ⟨⟨c, i⟩, alone, rfl⟩ := kept
    exact ⟨(List.mem_filter.1 member).1, i, alone⟩
  rcases deferredBody?_some chosen with ⟨c, kept, _, rfl⟩ | ⟨c, kept, held, _⟩ | ⟨_, rfl⟩
  · obtain ⟨member, i, alone'⟩ := lone kept
    exact .deferred form asked element children opens closes
      (.lone [] form alone' rfl (fun _ _ _ _ => List.nil_prefix) (alone body member (.inl rfl)))
  · obtain ⟨member, i, alone'⟩ := lone kept
    have inside : c.children = [body] := by
      rw [Node.children, held]
      rfl
    exact .deferred form asked element children opens closes
      (.lone [0] form alone' (by simp [inside]) (fun _ _ => prefix_of_held held)
        (alone c member (.inr held)))
  · obtain ⟨kept', rfl, each⟩ := several rfl
    refine .deferred form asked element children opens closes (.several form ?_ ?_ each)
    · exact children_withChildren _ each.length
    · rw [isFunction_withChildren]
      rfl

theorem Relocates.deferral_refl (deferred : n.deferral? s = some m) : Relocates s n m := by
  obtain ⟨opening, content, closing, body, form, _, _, _, chosen, rfl⟩ :=
    deferChildren?_some (deferral?_some deferred)
  have same : ∀ cs : List Node, Pointwise (Relocates s) cs cs := fun cs =>
    ⟨rfl, fun i a b before after => by cases before.symm.trans after; exact .refl a⟩
  exact .deferral form (by simp [deferred]) chosen rfl rfl (.refl opening) (same _) (fun _ _ _ => .refl body)
    fun fragment => ⟨keptContent content, by rw [fragment]; rfl, same _⟩

theorem Relocates.deferral_onward {d : Node} {ancestors : Ancestors} {results : List (Node × List Action)}
    (below : ∀ c, sizeOf c < sizeOf n → ∀ ancestors m log, Rewrites s ancestors c m log → Relocates s c m)
    (deferred : n.deferral? s = some d)
    (derived : Pointwise (fun a r => Rewrites s ancestors a r.1 r.2) d.children results) :
    Relocates s n (d.withChildren (results.map (·.1))) := by
  obtain ⟨opening, content, closing, body, form, _, _, _, chosen, rfl⟩ :=
    deferChildren?_some (deferral?_some deferred)
  have length := derived.length
  have listed : n.children = opening :: (content ++ closing.toList) := by
    rw [Node.children, form]
    rfl
  have under : ∀ c ∈ n.children, ∀ ancestors m log, Rewrites s ancestors c m log → Relocates s c m :=
    fun c member => below c (sizeOf_lt_of_mem_children member)
  obtain ⟨⟨opening', log⟩, results, rfl, first, derived⟩ := derived.of_cons
  change Pointwise _ (body.thunk _ :: closing.toList) results at derived
  obtain ⟨⟨_, log'⟩, results, rfl, second, third⟩ := derived.of_cons
  obtain ⟨_, body', inner, rfl⟩ := second.of_thunk
  refine .deferral form (by simp [deferred]) chosen (by rw [isElement_withChildren]; rfl)
    (children_withChildren _ (by simpa using length)) (under opening (by simp [listed]) _ _ _ first) ?_
    (fun c member held => ?_) fun fragment => ?_
  · have pairs := third.mono (S := fun a r => Relocates s a r.1) fun c r member _ rewrites =>
      under c (by simp [listed, Option.mem_toList.1 member]) _ _ _ rewrites
    exact pairs.map_right fun _ _ relocates => relocates
  · have outer : sizeOf c < sizeOf n := sizeOf_lt_of_mem_children (by simp [listed, member])
    -- The body is a child of the element or what a container among the children holds.
    rcases held with rfl | held
    · exact below body outer _ _ _ inner
    · have smaller : sizeOf body < sizeOf c :=
        sizeOf_lt_of_mem_children (by simp [Node.children, held, Form.children])
      exact below body (Nat.lt_trans smaller outer) _ _ _ inner
  · subst fragment
    obtain ⟨results, rfl, _, derived⟩ := inner.of_kept fun c chosen => chosen.of_other rfl rfl
    have pairs := derived.mono (S := fun a r => Relocates s a r.1) fun c r member _ rewrites =>
      under c (by simp [listed, (List.mem_filter.1 member).1]) _ _ _ rewrites
    exact ⟨_, rfl, pairs.map_right fun _ _ relocates => relocates⟩

theorem Rewrites.relocates_of_below {ancestors : Ancestors} {log : List Action}
    (below : ∀ c, sizeOf c < sizeOf n → ∀ ancestors m log, Rewrites s ancestors c m log → Relocates s c m)
    (h : Rewrites s ancestors n m log) : Relocates s n m := by
  have kept : ∀ {ancestors : Ancestors} {results : List (Node × List Action)},
      Pointwise (fun a r => Rewrites s ancestors a r.1 r.2) n.children results →
        Relocates s n (n.withChildren (results.map (·.1))) := by
    intro ancestors results derived
    have pairs := derived.mono (S := fun a r => Relocates s a r.1) fun c r member _ rewrites =>
      below c (sizeOf_lt_of_mem_children member) _ _ _ rewrites
    exact .children (pairs.map_right fun _ _ relocates => relocates)
  cases h with
  | stop chosen stays =>
      cases chosen with
      | whole element deferring opening _ reads =>
          refine .boundary [] rfl (.element rfl opening reads) (fun _ => List.nil_prefix)
            (fun _ _ _ _ => List.nil_prefix) ?_
          cases deferring with
          | stays => exact .refl n
          | deferred made => exact .deferral_refl made
      | other | container | boundary | element => cases stays
  | @onward _ _ c results chosen descends length each =>
      have derived : Pointwise (fun a r => Rewrites s (c.node :: ancestors) a r.1 r.2) c.node.children
          results := ⟨length, each⟩
      cases chosen with
      | other | container => exact kept derived
      | @boundary e before after held _ _ reads =>
          have inside : n.children = [e] := by
            rw [Node.children, held]
            rfl
          rw [children_boundary] at derived
          obtain ⟨⟨_, log⟩, ⟨_, log'⟩, ⟨_, log''⟩, rfl, first, second, third⟩ := derived.of_triple
          obtain ⟨rfl, rfl⟩ := first.of_tag rfl rfl rfl
          obtain ⟨_, e', inner, rfl⟩ := second.of_thunk
          obtain ⟨rfl, rfl⟩ := third.of_tag rfl rfl rfl
          change Relocates s n (e'.boundary s.componentName (some n))
          exact .boundary [0] (by simp [inside]) (.expression rfl held reads)
            (fun _ => ⟨List.nil_prefix, by simp⟩) (fun _ _ => prefix_of_held held)
            (below e (sizeOf_lt_of_mem_children (by simp [inside])) _ _ _ inner)
      | element _ deferring =>
          cases deferring with
          | stays => exact kept derived
          | deferred made => exact .deferral_onward below made derived
      | whole => cases descends

theorem Rewrites.relocates {ancestors : Ancestors} {n m : Node} {log : List Action}
    (h : Rewrites s ancestors n m log) : Relocates s n m :=
  h.relocates_of_below fun _ _smaller _ _ _ inner => inner.relocates
termination_by sizeOf n
decreasing_by exact _smaller

end Node

/-! ## Modules -/

/-- The node stops the function that encloses it until a value is there, or has it hand over a value. -/
def Node.suspends (n : Node) : Bool :=
  match n.form with
  | .generic kind _ => kind == "await_expression" || kind == "yield_expression"
  | _ => false

/-- Whatever suspends a function of a parsed module goes somewhere when boundaries are inserted. It keeps the
function that encloses it, unless it is in what a function is put around and that function is not; then the
function that is put there encloses it. -/
theorem wrapReads_keeps_enclosers (o : Options) {source : String} {root : Concrete} {n : Node}
    (read : root.toProgram source = .ok n) :
    let r := (Pass.wrapReads (.ofOptions o)).run n ⟨{}, none⟩
    r.2.fault = none ∧ ∃ moved, Relocation (.ofOptions o) n r.1 moved ∧
      ∀ path c, n.get? path = some c → c.suspends = true →
        ∃ place cs, (∀ place', moved path place' ↔ place' = place) ∧
          r.1.get? place = some (c.withChildren cs) ∧
          (Option.Rel moved (n.encloser? path) (r.1.encloser? place) ↔
            ¬Relocation.Between (.ofOptions o) n r.1 moved path) ∧
          (Relocation.Between (.ofOptions o) n r.1 moved path →
            ∃ f k, r.1.encloser? place = some f ∧ Inserted (.ofOptions o) n r.1 moved f k ∧ k.Covers path) := by
  intro r
  have parsed := Concrete.toProgram_parsed read
  obtain ⟨body, _, form, _⟩ := parsed.body
  have done : r.2.fault = none := Node.rewriteRoot_finishes parsed.printable form rfl
  obtain ⟨log, rewrites, _⟩ := Node.rewriteRoot_derives rfl done
  obtain ⟨moved, relocation⟩ := rewrites.relocates
  refine ⟨done, moved, relocation, fun path c found suspends => ?_⟩
  obtain ⟨form, layout⟩ := c
  have plain : (Node.mk form layout).contained? = none ∧ (Node.mk form layout).isBlankText = false ∧
      (Node.mk form layout).isElement = false := by
    cases form <;> first | exact ⟨rfl, rfl, rfl⟩ | cases suspends
  obtain ⟨place, moves⟩ := relocation.total path _ found plain.1 plain.2.1
  obtain ⟨_, c', found', there, like⟩ := relocation.kept path place moves
  cases found.symm.trans found'
  rcases like with ⟨cs, _, rfl⟩ | ⟨element, _⟩
  · refine ⟨place, cs, fun place' => ⟨relocation.unique moves, ?_⟩, there, relocation.encloser_kept_iff moves,
      relocation.encloser_inserted moves⟩
    rintro rfl
    exact moves
  · rw [plain.2.2] at element
    cases element

namespace Awaited

open Concrete Sample

def source : String := "<>\x7b(await a$.get())\x7d</>"

def object : Concrete :=
  part "identifier" 10 12 (some "object") []

def property : Concrete :=
  part "property_identifier" 13 16 (some "property") []

def access : Concrete :=
  part "member_expression" 10 16 (some "function") [object, property]

def call : Concrete :=
  part "call_expression" 10 18 none [access, part "arguments" 16 18 (some "arguments") []]

def waiting : Concrete :=
  part "await_expression" 4 18 none [call]

def grouped : Concrete :=
  part "parenthesized_expression" 3 19 none [waiting]

def content : Concrete :=
  part "jsx_expression" 2 20 none [grouped]

def markup : Concrete :=
  part "jsx_element" 0 23 none [part "jsx_opening_element" 0 2 (some "open_tag") [], content,
    part "jsx_closing_element" 20 23 (some "close_tag") []]

def statement : Concrete :=
  part "expression_statement" 0 23 none [markup]

/-- What the grammar makes of the text. -/
def tree : Concrete :=
  part "program" 0 23 none [statement]

def objectNode : Node :=
  .mk (.identifier "a$") (some [.text "a$"])

def propertyNode : Node :=
  .mk (.identifier "get") (some [.text "get"])

def accessNode : Node :=
  .mk (.member objectNode propertyNode false false) (some [.child 0, .text ".", .child 1])

def callNode : Node :=
  .mk (.call accessNode [] false) (some [.child 0, .text "()"])

def waitingNode : Node :=
  .mk (.generic "await_expression" [callNode]) (some [.text "await ", .child 0])

def groupedNode : Node :=
  .mk (.parens waitingNode) (some [.text "(", .child 0, .text ")"])

def contentNode : Node :=
  .mk (.container groupedNode) (some [.text "\x7b", .child 0, .text "\x7d"])

def fragmentNode (content : Node) : Node :=
  .mk (.fragment [content]) (some [.text "<>", .child 0, .text "</>"])

def module (content : Node) : Node :=
  .mk (.program [.mk (.generic "expression_statement" [fragmentNode content]) (some [.child 0])])
    (some [.child 0])

theorem toNode_grouped : toNode source.toUTF8 .plain grouped = .ok groupedNode := by
  have left : toNode source.toUTF8 .plain object = .ok objectNode :=
    toNode_of (p := .leaf (.identifier "a$")) rfl rfl rfl
  have right : toNode source.toUTF8 .plain property = .ok propertyNode :=
    toNode_of (p := .leaf (.identifier "get")) rfl rfl rfl
  have callee : toNode source.toUTF8 .plain access = .ok accessNode :=
    toNode_of (p := .member access "property" false) rfl (mapM_cons_ok left (mapM_cons_ok right rfl))
      ((layout_of_sorted (by decide)).trans rfl)
  have called : toNode source.toUTF8 .plain call = .ok callNode :=
    toNode_of (p := .call call) rfl (mapM_cons_ok callee rfl) ((layout_of_sorted (by decide)).trans rfl)
  have waits : toNode source.toUTF8 .plain waiting = .ok waitingNode :=
    toNode_of (p := .generic waiting) rfl (mapM_cons_ok called rfl) ((layout_of_sorted (by decide)).trans rfl)
  exact toNode_of (p := .parens grouped) rfl (mapM_cons_ok waits rfl)
    ((layout_of_sorted (by decide)).trans rfl)

theorem toProgram_tree : tree.toProgram source = .ok (module contentNode) := by
  have held : toNode source.toUTF8 .content content = .ok contentNode :=
    toNode_of (p := .container content) rfl (mapM_cons_ok toNode_grouped rfl)
      ((layout_of_sorted (by decide)).trans rfl)
  have fragment : toNode source.toUTF8 .plain markup = .ok (fragmentNode contentNode) :=
    toNode_of (p := .element markup) rfl (mapM_cons_ok held rfl) ((layout_of_sorted (by decide)).trans rfl)
  have whole : toNode source.toUTF8 .plain statement =
      .ok (.mk (.generic "expression_statement" [fragmentNode contentNode]) (some [.child 0])) :=
    toNode_of (p := .generic statement) rfl (mapM_cons_ok fragment rfl)
      ((layout_of_sorted (by decide)).trans rfl)
  exact toProgram_of rfl (mapM_cons_ok whole rfl) ((layout_of_sorted (by decide)).trans rfl)

theorem wrapReads_module : ((Pass.wrapReads (.ofOptions {})).run (module contentNode) ⟨{}, none⟩).1 =
    module (groupedNode.boundary "Memo" (some contentNode)) := by cbv

theorem suspends_wrapped {place : List Nat} {c : Node}
    (found : (module (groupedNode.boundary "Memo" (some contentNode))).get? place = some c)
    (suspends : c.suspends = true) : place = [0, 0, 0, 1, 0, 0, 0] := by
  match place with
  | [] | [0] | [0, 0] | [0, 0, 0] | [0, 0, 0, 0] | [0, 0, 0, 0, 0] | [0, 0, 0, 1] | [0, 0, 0, 1, 0]
  | [0, 0, 0, 1, 0, 0] | [0, 0, 0, 2] | [0, 0, 0, 2, 0] | [0, 0, 0, 1, 0, 0, 0, 0]
  | [0, 0, 0, 1, 0, 0, 0, 0, 0] | [0, 0, 0, 1, 0, 0, 0, 0, 0, 0] | [0, 0, 0, 1, 0, 0, 0, 0, 0, 1] =>
      cases found
      cases suspends
  | [0, 0, 0, 1, 0, 0, 0] => rfl
  | (_ + 1) :: _ | 0 :: (_ + 1) :: _ | 0 :: 0 :: (_ + 1) :: _ | 0 :: 0 :: 0 :: (_ + 3) :: _
  | 0 :: 0 :: 0 :: 0 :: (_ + 1) :: _ | 0 :: 0 :: 0 :: 0 :: 0 :: _ :: _ | 0 :: 0 :: 0 :: 1 :: (_ + 1) :: _
  | 0 :: 0 :: 0 :: 1 :: 0 :: (_ + 1) :: _ | 0 :: 0 :: 0 :: 1 :: 0 :: 0 :: (_ + 1) :: _
  | 0 :: 0 :: 0 :: 2 :: (_ + 1) :: _ | 0 :: 0 :: 0 :: 2 :: 0 :: _ :: _
  | 0 :: 0 :: 0 :: 1 :: 0 :: 0 :: 0 :: (_ + 1) :: _ | 0 :: 0 :: 0 :: 1 :: 0 :: 0 :: 0 :: 0 :: (_ + 1) :: _
  | 0 :: 0 :: 0 :: 1 :: 0 :: 0 :: 0 :: 0 :: 0 :: (_ + 2) :: _
  | 0 :: 0 :: 0 :: 1 :: 0 :: 0 :: 0 :: 0 :: 0 :: 0 :: _ :: _
  | 0 :: 0 :: 0 :: 1 :: 0 :: 0 :: 0 :: 0 :: 0 :: 1 :: _ :: _ => cases found

end Awaited

/-- Outside any function before, what waits for a value in `<>{(await a$.get())}</>` is inside the inserted
function afterwards. -/
theorem await_enclosed :
    Awaited.tree.toProgram Awaited.source = .ok (Awaited.module Awaited.contentNode) ∧
      (Awaited.module Awaited.contentNode).get? [0, 0, 0, 0, 0] = some Awaited.waitingNode ∧
      Awaited.waitingNode.suspends = true ∧
      (Awaited.module Awaited.contentNode).encloser? [0, 0, 0, 0, 0] = none ∧
      let m := ((Pass.wrapReads (.ofOptions {})).run (Awaited.module Awaited.contentNode) ⟨{}, none⟩).1
      (∃ f body, m.get? [0, 0, 0, 1, 0] = some f ∧ f.form = .arrow body none) ∧
        ∀ place c, m.get? place = some c → c.suspends = true → m.encloser? place = some [0, 0, 0, 1, 0] := by
  refine ⟨Awaited.toProgram_tree, rfl, by decide, rfl, ?_⟩
  rw [Awaited.wrapReads_module]
  refine ⟨⟨_, _, rfl, rfl⟩, fun place c found suspends => ?_⟩
  rw [Awaited.suspends_wrapped found suspends]
  rfl

theorem wrapReads_keeps_await_or_wraps :
    Awaited.tree.toProgram Awaited.source = .ok (Awaited.module Awaited.contentNode) ∧
      let n := Awaited.module Awaited.contentNode
      let r := (Pass.wrapReads (.ofOptions {})).run n ⟨{}, none⟩
      r.2.fault = none ∧ ∃ moved, Relocation (.ofOptions {}) n r.1 moved ∧
        ∃ place cs, (∀ place', moved [0, 0, 0, 0, 0] place' ↔ place' = place) ∧
          r.1.get? place = some (Awaited.waitingNode.withChildren cs) ∧
          (Option.Rel moved (n.encloser? [0, 0, 0, 0, 0]) (r.1.encloser? place) ↔
            ¬Relocation.Between (.ofOptions {}) n r.1 moved [0, 0, 0, 0, 0]) := by
  obtain ⟨done, moved, relocation, each⟩ := wrapReads_keeps_enclosers {} Awaited.toProgram_tree
  obtain ⟨place, cs, unique, there, kept, _⟩ := each [0, 0, 0, 0, 0] Awaited.waitingNode rfl (by decide)
  exact ⟨Awaited.toProgram_tree, done, moved, relocation, place, cs, unique, there, kept⟩

end JsxBoundary
