import JsxBoundary.Proofs.Origins

namespace JsxBoundary

namespace Node

def EnclosedBy (n : Node) (path place : List Nat) : Prop :=
  place <+: path ∧ place ≠ path ∧ ∃ f, n.get? place = some f ∧ f.isFunction = true

/-- The place of the innermost function that encloses the node at the path. -/
def encloser? : Node → List Nat → Option (List Nat)
  | _, [] => none
  | n, i :: path =>
    match n.children[i]?.bind (·.encloser? path) with
    | some place => some (i :: place)
    | none => if n.isFunction then some [] else none

section

variable {n c : Node} {path place : List Nat} {i : Nat}

theorem enclosedBy_cons (child : n.children[i]? = some c) :
    n.EnclosedBy (i :: path) (i :: place) ↔ c.EnclosedBy path place := by
  simp [EnclosedBy, child]

theorem EnclosedBy.cases (h : n.EnclosedBy (i :: path) place) :
    place = [] ∧ n.isFunction = true ∨
      ∃ c place', place = i :: place' ∧ n.children[i]? = some c ∧ c.EnclosedBy path place' := by
  obtain ⟨above, differ, f, found, function⟩ := h
  cases place with
  | nil =>
      cases found
      exact .inl ⟨rfl, function⟩
  | cons j place =>
      obtain ⟨rfl, below⟩ := List.cons_prefix_cons.1 above
      rw [get?_cons, Option.bind_eq_some_iff] at found
      obtain ⟨c, child, found⟩ := found
      exact .inr ⟨c, place, rfl, child, below, by simpa using differ, f, found, function⟩

theorem encloser?_eq_none (h : n.encloser? path = none) (place : List Nat) : ¬n.EnclosedBy path place := by
  induction path generalizing n place with
  | nil => exact fun enclosed => enclosed.2.1 (List.prefix_nil.1 enclosed.1)
  | cons i path ih =>
      intro enclosed
      rw [encloser?] at h
      split at h
      · cases h
      · rename_i none
        split at h
        · cases h
        · rename_i other
          obtain ⟨_, function⟩ | ⟨c, place', _, child, enclosed⟩ := enclosed.cases
          · exact other function
          · rw [child] at none
            exact ih none place' enclosed

theorem encloser?_eq_some (h : n.encloser? path = some place) :
    n.EnclosedBy path place ∧ ∀ place', n.EnclosedBy path place' → place' <+: place := by
  induction path generalizing n place with
  | nil => cases h
  | cons i path ih =>
      rw [encloser?] at h
      split at h
      · rename_i inner found
        cases h
        obtain ⟨c, child, found⟩ := Option.bind_eq_some_iff.1 found
        obtain ⟨enclosed, innermost⟩ := ih found
        refine ⟨(enclosedBy_cons child).2 enclosed, fun place' other => ?_⟩
        obtain ⟨rfl, _⟩ | ⟨c', place', rfl, child', other⟩ := other.cases
        · exact List.nil_prefix
        · cases child.symm.trans child'
          exact (List.prefix_cons_inj i).2 (innermost place' other)
      · rename_i none
        split at h
        · rename_i function
          cases h
          refine ⟨⟨List.nil_prefix, nofun, n, rfl, function⟩, fun place' other => ?_⟩
          obtain ⟨rfl, _⟩ | ⟨c, place', _, child, other⟩ := other.cases
          · exact List.prefix_refl []
          · rw [child] at none
            exact absurd other (encloser?_eq_none none place')
        · cases h

theorem encloser?_of (enclosed : n.EnclosedBy path place)
    (innermost : ∀ place', n.EnclosedBy path place' → place' <+: place) : n.encloser? path = some place := by
  cases found : n.encloser? path with
  | none => exact absurd enclosed (encloser?_eq_none found place)
  | some place' =>
      obtain ⟨enclosed', innermost'⟩ := encloser?_eq_some found
      have before := innermost place' enclosed'
      exact congrArg some (before.eq_of_length_le (innermost' place enclosed).length_le)

end

end Node

/-- What a function is put around: the expression of the container, the element, or the content of the element
at the place. -/
inductive Cover where
  | expression (place : List Nat)
  | element (place : List Nat)
  | content (place : List Nat) (count : Nat)

namespace Cover

/-- The path leads into the part. -/
def Covers : Cover → List Nat → Prop
  | expression place, path => place <+: path ∧ place ≠ path
  | element place, path => place <+: path
  | content place count, path => ∃ i rest, path = place ++ (i + 1) :: rest ∧ i < count

def under (front : List Nat) : Cover → Cover
  | expression place => expression (front ++ place)
  | element place => element (front ++ place)
  | content place count => content (front ++ place) count

/-- The container holds a read, the element has an attribute that reads, or its children are deferred. -/
inductive Asked (s : Settings) (n : Node) : Cover → Prop
  | expression {place : List Nat} {c e : Node} (found : n.get? place = some c) (held : c.form = .container e)
      (reads : e.containsRead s.policy = true) : Asked s n (.expression place)
  | element {place : List Nat} {c : Node} {tag : OpeningTag} (found : n.get? place = some c)
      (opening : c.openingTag? = some tag) (reads : tag.hasReadingAttribute s.policy = true) :
      Asked s n (.element place)
  | content {place : List Nat} {c opening : Node} {content : List Node} {closing : Option Node}
      (found : n.get? place = some c) (form : c.form = .element (some opening) content closing)
      (deferred : (c.deferral? s).isSome = true) : Asked s n (.content place content.length)

section

variable {s : Settings} {n c : Node} {k : Cover} {front path : List Nat}

theorem covers_under : (k.under front).Covers (front ++ path) ↔ k.Covers path := by
  cases k with
  | expression | element => simp [under, Covers]
  | content place count => simp [under, Covers, List.append_assoc]

theorem prefix_of_covers_under (h : (k.under front).Covers path) : front <+: path := by
  cases k with
  | expression place => exact (List.prefix_append front place).trans h.1
  | element place => exact (List.prefix_append front place).trans h
  | content place count =>
      obtain ⟨i, rest, rfl, _⟩ := h
      rw [List.append_assoc]
      exact List.prefix_append front _

theorem Asked.under (h : k.Asked s c) (found : n.get? front = some c) : (k.under front).Asked s n := by
  have below : ∀ {place : List Nat} {d : Node}, c.get? place = some d → n.get? (front ++ place) = some d := by
    intro place d inner
    rw [Node.get?_append, found]
    exact inner
  cases h with
  | expression found' held reads => exact .expression (below found') held reads
  | element found' opening reads => exact .element (below found') opening reads
  | content found' form deferred => exact .content (below found') form deferred

end

end Cover

def Node.Like (c c' : Node) : Prop :=
  (∃ cs, cs.length = c.children.length ∧ c' = c.withChildren cs) ∨ c.isElement = true ∧ c'.isElement = true

/-- At the place there is a function that was put around this part of the tree. -/
structure Inserted (s : Settings) (n m : Node) (moved : List Nat → List Nat → Prop) (place : List Nat)
    (k : Cover) : Prop where
  asked : k.Asked s n
  new : ∀ path, ¬moved path place
  arrow : ∃ f body, m.get? place = some f ∧ f.form = .arrow body none
  extent : ∀ path place', moved path place' → (place <+: place' ↔ k.Covers path)

/-- The nodes of `n` are at these places in `m`. Containers may give way to what they hold, and blank text may
be gone. -/
structure Relocation (s : Settings) (n m : Node) (moved : List Nat → List Nat → Prop) : Prop where
  kept : ∀ path place, moved path place →
    ∃ c c', n.get? path = some c ∧ m.get? place = some c' ∧ c.Like c'
  total : ∀ path c, n.get? path = some c → c.contained? = none → c.isBlankText = false →
    ∃ place, moved path place
  order : ∀ path place path' place', moved path place → moved path' place' →
    (path <+: path' ↔ place <+: place')
  functions : ∀ place f, m.get? place = some f → f.isFunction = true →
    (∃ path, moved path place) ∨ ∃ k, Inserted s n m moved place k

namespace Node

variable {c c' : Node}

theorem Like.refl (c : Node) : c.Like c :=
  .inl ⟨c.children, rfl, by simp⟩

theorem Like.isFunction (h : c.Like c') : c'.isFunction = c.isFunction := by
  rcases h with ⟨cs, _, rfl⟩ | ⟨element, element'⟩
  · simp
  · obtain ⟨_, _, _, _, rfl⟩ := eq_mk_of_isElement element
    obtain ⟨_, _, _, _, rfl⟩ := eq_mk_of_isElement element'
    rfl

end Node

theorem Inserted.enclosedBy {s : Settings} {n m : Node} {moved : List Nat → List Nat → Prop}
    {path place f : List Nat} {k : Cover} (h : Inserted s n m moved f k) (own : moved path place)
    (covers : k.Covers path) : m.EnclosedBy place f := by
  obtain ⟨c, body, there, form⟩ := h.arrow
  refine ⟨(h.extent _ _ own).2 covers, fun same => ?_, c, there, ?_⟩
  · exact h.new path (same ▸ own)
  · rw [Node.isFunction, form]
    rfl

namespace Relocation

variable {s : Settings} {n m : Node} {moved : List Nat → List Nat → Prop} {path place path' place' : List Nat}

theorem unique (h : Relocation s n m moved) (first : moved path place) (second : moved path place') :
    place' = place := by
  have before := (h.order _ _ _ _ first second).1 (List.prefix_refl path)
  have after := (h.order _ _ _ _ second first).1 (List.prefix_refl path)
  exact after.eq_of_length_le before.length_le

theorem enclosedBy (h : Relocation s n m moved) (own : moved path place) {f : List Nat}
    (enclosed : n.EnclosedBy path f) : ∃ f', moved f f' ∧ m.EnclosedBy place f' := by
  obtain ⟨above, differ, c, found, function⟩ := enclosed
  obtain ⟨form, layout⟩ := c
  have lasting : (Node.mk form layout).contained? = none ∧ (Node.mk form layout).isBlankText = false := by
    cases form <;> first | exact ⟨rfl, rfl⟩ | cases function
  obtain ⟨f', moves⟩ := h.total f _ found lasting.1 lasting.2
  obtain ⟨_, c', found', there, like⟩ := h.kept f f' moves
  cases found.symm.trans found'
  refine ⟨f', moves, (h.order _ _ _ _ moves own).1 above, fun same => ?_, c', there, like.isFunction ▸ function⟩
  have below := (h.order _ _ _ _ own moves).2 (same ▸ List.prefix_refl _)
  exact differ (above.eq_of_length_le below.length_le)

theorem of_enclosedBy (h : Relocation s n m moved) (own : moved path place) {f f' : List Nat} (moves : moved f f')
    (enclosed : m.EnclosedBy place f') : n.EnclosedBy path f := by
  obtain ⟨above, differ, c', there, function⟩ := enclosed
  obtain ⟨c, _, found, there', like⟩ := h.kept f f' moves
  cases there.symm.trans there'
  refine ⟨(h.order _ _ _ _ moves own).2 above, fun same => ?_, c, found, like.isFunction ▸ function⟩
  subst same
  exact differ (h.unique own moves)

/-- Some function was put around a part of the tree that has the node in it, and not the function that encloses
the node. -/
def Between (s : Settings) (n m : Node) (moved : List Nat → List Nat → Prop) (path : List Nat) : Prop :=
  ∃ place k, Inserted s n m moved place k ∧ k.Covers path ∧ ∀ f ∈ n.encloser? path, ¬k.Covers f

theorem encloser_kept (h : Relocation s n m moved) (own : moved path place) {f f' : List Nat} (moves : moved f f')
    (innermost : m.encloser? place = some f') : n.encloser? path = some f := by
  obtain ⟨enclosed, inner⟩ := Node.encloser?_eq_some innermost
  refine Node.encloser?_of (h.of_enclosedBy own moves enclosed) fun g other => ?_
  obtain ⟨g', moves', enclosed'⟩ := h.enclosedBy own other
  exact (h.order _ _ _ _ moves' moves).2 (inner g' enclosed')

theorem encloser_kept_iff (h : Relocation s n m moved) (own : moved path place) :
    Option.Rel moved (n.encloser? path) (m.encloser? place) ↔ ¬Between s n m moved path := by
  constructor
  · rintro same ⟨f', k, inserted, covers, outside⟩
    have enclosed := inserted.enclosedBy own covers
    generalize before : n.encloser? path = o at same outside
    generalize after : m.encloser? place = o' at same
    cases same with
    | none => exact Node.encloser?_eq_none after f' enclosed
    | some moves =>
        have above := (Node.encloser?_eq_some after).2 f' enclosed
        exact outside _ rfl ((inserted.extent _ _ moves).1 above)
  · intro clear
    cases after : m.encloser? place with
    | none =>
        cases before : n.encloser? path with
        | none => exact .none
        | some f =>
            obtain ⟨f', _, enclosed⟩ := h.enclosedBy own (Node.encloser?_eq_some before).1
            exact absurd enclosed (Node.encloser?_eq_none after f')
    | some f' =>
        obtain ⟨enclosed, innermost⟩ := Node.encloser?_eq_some after
        obtain ⟨above, _, c', there, function⟩ := enclosed
        rcases h.functions f' c' there function with ⟨f, moves⟩ | ⟨k, inserted⟩
        · rw [h.encloser_kept own moves after]
          exact .some moves
        · refine absurd ⟨f', k, inserted, (inserted.extent _ _ own).1 above, fun g before covers => ?_⟩ clear
          obtain ⟨g', moves, enclosed⟩ := h.enclosedBy own (Node.encloser?_eq_some before).1
          have below := (inserted.extent _ _ moves).2 covers
          have same := below.eq_of_length_le (innermost g' enclosed).length_le
          exact inserted.new g (same ▸ moves)

theorem encloser_inserted (h : Relocation s n m moved) (own : moved path place)
    (between : Between s n m moved path) :
    ∃ f' k, m.encloser? place = some f' ∧ Inserted s n m moved f' k ∧ k.Covers path := by
  cases after : m.encloser? place with
  | none =>
      obtain ⟨f', k, inserted, covers, _⟩ := between
      exact absurd (inserted.enclosedBy own covers) (Node.encloser?_eq_none after f')
  | some f' =>
      obtain ⟨above, _, c', there, function⟩ := (Node.encloser?_eq_some after).1
      rcases h.functions f' c' there function with ⟨f, moves⟩ | ⟨k, inserted⟩
      · have kept : Option.Rel moved (n.encloser? path) (m.encloser? place) := by
          rw [after, h.encloser_kept own moves after]
          exact .some moves
        exact absurd between ((h.encloser_kept_iff own).1 kept)
      · exact ⟨f', k, rfl, inserted, (inserted.extent _ _ own).1 above⟩

end Relocation

structure Joint where
  path : List Nat
  place : List Nat
  before : Node
  after : Node

/-- The joints of two trees lie apart in both. If `root`, the tree itself goes on as the other one. Functions
are put around some of the joints. -/
structure Joints (s : Settings) (n m : Node) (root : Bool) (joint : Joint → Prop)
    (function : List Nat → Cover → Prop) : Prop where
  found : ∀ l, joint l → n.get? l.path = some l.before ∧ m.get? l.place = some l.after
  apart : ∀ l l', joint l → joint l' → l.path <+: l'.path → l = l'
  apart' : ∀ l l', joint l → joint l' → l.place <+: l'.place → l = l'
  below : root = true → ∀ l, joint l → l.path ≠ [] ∧ l.place ≠ []
  like : root = true → n.Like m
  cover : ∀ path c, n.get? path = some c → c.contained? = none → c.isBlankText = false →
    root = true ∧ path = [] ∨ ∃ l, joint l ∧ l.path <+: path
  asked : ∀ place k, function place k → k.Asked s n ∧ ∃ f body, m.get? place = some f ∧ f.form = .arrow body none
  around : ∀ place k, function place k → ∀ l, joint l →
    place <+: l.place ∧ place ≠ l.place ∧ (∀ path, k.Covers (l.path ++ path)) ∨
      ¬place <+: l.place ∧ ¬l.place <+: place ∧ ∀ path, ¬k.Covers (l.path ++ path)
  outside : root = true → ∀ place k, function place k → place ≠ [] ∧ ¬k.Covers []
  functions : ∀ place f, m.get? place = some f → f.isFunction = true →
    root = true ∧ place = [] ∨ (∃ l, joint l ∧ l.place <+: place) ∨ ∃ k, function place k

namespace Joints

variable {s : Settings} {n m : Node} {root : Bool} {joint : Joint → Prop} {function : List Nat → Cover → Prop}
  {moved : Joint → List Nat → List Nat → Prop} {l l' : Joint}

def Moves (root : Bool) (joint : Joint → Prop) (moved : Joint → List Nat → List Nat → Prop)
    (path place : List Nat) : Prop :=
  root = true ∧ path = [] ∧ place = [] ∨ ∃ l, joint l ∧ ∃ path' place',
    moved l path' place' ∧ path = l.path ++ path' ∧ place = l.place ++ place'

theorem eq_of_paths (h : Joints s n m root joint function) (mine : joint l) (mine' : joint l')
    {path path' : List Nat} (above : l.path ++ path <+: l'.path ++ path') : l = l' := by
  rcases List.prefix_or_prefix_of_prefix ((List.prefix_append l.path path).trans above)
    (List.prefix_append l'.path path') with first | first
  · exact h.apart l l' mine mine' first
  · exact (h.apart l' l mine' mine first).symm

theorem eq_of_places (h : Joints s n m root joint function) (mine : joint l) (mine' : joint l')
    {place place' : List Nat} (above : l.place ++ place <+: l'.place ++ place') : l = l' := by
  rcases List.prefix_or_prefix_of_prefix ((List.prefix_append l.place place).trans above)
    (List.prefix_append l'.place place') with first | first
  · exact h.apart' l l' mine mine' first
  · exact (h.apart' l' l mine' mine first).symm

theorem inserted_below (h : Joints s n m root joint function) (mine : joint l) {place : List Nat} {k : Cover}
    (inserted : Inserted s l.before l.after (moved l) place k) :
    Inserted s n m (Moves root joint moved) (l.place ++ place) (k.under l.path) := by
  obtain ⟨here, here'⟩ := h.found l mine
  refine ⟨inserted.asked.under here, ?_, ?_, ?_⟩
  · rintro _ (⟨top, _, same⟩ | ⟨l', mine', path', place', moves, rfl, same⟩)
    · exact (h.below top l mine).2 (List.append_eq_nil_iff.1 same).1
    · have above : l.place ++ place <+: l'.place ++ place' := by rw [same]
      cases h.eq_of_places mine mine' above
      exact inserted.new path' (List.append_cancel_left same ▸ moves)
  · obtain ⟨f, body, there, form⟩ := inserted.arrow
    refine ⟨f, body, ?_, form⟩
    rw [Node.get?_append, here']
    exact there
  · rintro _ _ (⟨top, rfl, rfl⟩ | ⟨l', mine', path', place', moves, rfl, rfl⟩)
    · obtain ⟨path, place⟩ := h.below top l mine
      constructor
      · intro above
        exact absurd (List.append_eq_nil_iff.1 (List.prefix_nil.1 above)).1 place
      · intro covers
        exact absurd (List.prefix_nil.1 (Cover.prefix_of_covers_under covers)) path
    · constructor
      · intro above
        cases h.eq_of_places mine mine' above
        rw [List.prefix_append_right_inj] at above
        exact Cover.covers_under.2 ((inserted.extent _ _ moves).1 above)
      · intro covers
        have above := Cover.prefix_of_covers_under covers
        have same := h.eq_of_paths mine mine' ((List.append_nil l.path).symm ▸ above)
        cases same
        rw [List.prefix_append_right_inj]
        exact (inserted.extent _ _ moves).2 (Cover.covers_under.1 covers)

theorem inserted_here (h : Joints s n m root joint function) {place : List Nat} {k : Cover}
    (put : function place k) : Inserted s n m (Moves root joint moved) place k := by
  refine ⟨(h.asked place k put).1, ?_, (h.asked place k put).2, ?_⟩
  · rintro _ (⟨top, _, rfl⟩ | ⟨l, mine, path, rest, _, rfl, rfl⟩)
    · exact (h.outside top _ k put).1 rfl
    · rcases h.around _ k put l mine with ⟨above, differ, _⟩ | ⟨_, clear, _⟩
      · exact differ (above.eq_of_length_le (List.prefix_append l.place rest).length_le)
      · exact clear (List.prefix_append l.place rest)
  · rintro _ _ (⟨top, rfl, rfl⟩ | ⟨l, mine, path, rest, _, rfl, rfl⟩)
    · obtain ⟨below, uncovered⟩ := h.outside top place k put
      simp [below, uncovered]
    · rcases h.around place k put l mine with ⟨above, _, covers⟩ | ⟨before, after, uncovered⟩
      · simp [above.trans (List.prefix_append l.place rest), covers]
      · refine iff_of_false (fun above => ?_) (uncovered path)
        rcases List.prefix_or_prefix_of_prefix above (List.prefix_append l.place rest) with first | first
        · exact before first
        · exact after first

theorem relocation (h : Joints s n m root joint function)
    (each : ∀ l, joint l → ∃ moved, Relocation s l.before l.after moved) : ∃ moved, Relocation s n m moved := by
  choose! moved parts using each
  refine ⟨Moves root joint moved, ?_, ?_, ?_, ?_⟩
  · rintro _ _ (⟨top, rfl, rfl⟩ | ⟨l, mine, path, place, moves, rfl, rfl⟩)
    · exact ⟨n, m, rfl, rfl, h.like top⟩
    · obtain ⟨c, c', found, there, like⟩ := (parts l mine).kept path place moves
      obtain ⟨here, here'⟩ := h.found l mine
      refine ⟨c, c', ?_, ?_, like⟩
      · rw [Node.get?_append, here]
        exact found
      · rw [Node.get?_append, here']
        exact there
  · intro path c found free shown
    obtain ⟨top, rfl⟩ | ⟨l, mine, rest, rfl⟩ := h.cover path c found free shown
    · exact ⟨[], .inl ⟨top, rfl, rfl⟩⟩
    · rw [Node.get?_append, (h.found l mine).1] at found
      obtain ⟨place, moves⟩ := (parts l mine).total rest c found free shown
      exact ⟨_, .inr ⟨l, mine, rest, place, moves, rfl, rfl⟩⟩
  · rintro _ _ _ _ (⟨top, rfl, rfl⟩ | ⟨l, mine, path, place, moves, rfl, rfl⟩)
      (⟨top', rfl, rfl⟩ | ⟨l', mine', path', place', moves', rfl, rfl⟩)
    · simp
    · simp
    · obtain ⟨path, place⟩ := h.below top' l mine
      simp [path, place]
    · constructor
      · intro above
        cases h.eq_of_paths mine mine' above
        rw [List.prefix_append_right_inj] at above ⊢
        exact ((parts l mine).order _ _ _ _ moves moves').1 above
      · intro above
        cases h.eq_of_places mine mine' above
        rw [List.prefix_append_right_inj] at above ⊢
        exact ((parts l mine).order _ _ _ _ moves moves').2 above
  · intro place f there function
    obtain ⟨top, rfl⟩ | ⟨l, mine, rest, rfl⟩ | ⟨k, put⟩ := h.functions place f there function
    · exact .inl ⟨[], .inl ⟨top, rfl, rfl⟩⟩
    · rw [Node.get?_append, (h.found l mine).2] at there
      rcases (parts l mine).functions rest f there function with ⟨path, moves⟩ | ⟨k, inserted⟩
      · exact .inl ⟨_, .inr ⟨l, mine, path, rest, moves, rfl, rfl⟩⟩
      · exact .inr ⟨_, h.inserted_below mine inserted⟩
    · exact .inr ⟨k, h.inserted_here put⟩

end Joints

end JsxBoundary
