import JsxBoundary.Proofs.ReadPaths
import JsxBoundary.Search

namespace JsxBoundary.Node

/-- The identifier `name` is reached through parentheses and accesses only, in any order. -/
inductive RootedAt : Node → String → Prop
  | identifier {n : Node} {name : String} (form : n.form = .identifier name) : RootedAt n name
  | parens {n expression : Node} {name : String} (form : n.form = .parens expression)
      (inner : RootedAt expression name) : RootedAt n name
  | member {n object property : Node} {computed optional : Bool} {name : String}
      (form : n.form = .member object property computed optional) (inner : RootedAt object name) :
      RootedAt n name

inductive Strips : Node → Node → Prop
  | bare {n : Node} (bare : ∀ expression, n.form ≠ .parens expression) : Strips n n
  | parens {n expression inner : Node} (form : n.form = .parens expression) (strips : Strips expression inner) :
      Strips n inner

/-- The node is a read: a call without arguments of a dotted access to a configured method, on a root
whose name carries the suffix unless every root counts. -/
inductive ReadCall (policy : ReadPolicy) : Node → Prop
  | call {n callee access object property : Node} {optional chained : Bool} {method : String}
      (call : n.form = .call callee [] optional) (strips : Strips callee access)
      (member : access.form = .member object property false chained)
      (named : property.form = .identifier method) (configured : method ∈ policy.methodNames)
      (root : policy.allReads = false → ∃ name front, RootedAt object name ∧ name = front ++ policy.suffix) :
      ReadCall policy n

/-- The trees differ only inside function literals: where one has a function literal the other has one,
and elsewhere they are the same construct over pairs of children that differ only so. -/
inductive AlikeOutside : Node → Node → Prop
  | functions {m n : Node} (left : m.isFunction = true) (right : n.isFunction = true) : AlikeOutside m n
  | construct {m n : Node} (pairs : Form (Node × Node)) (left : m.form = pairs.map Prod.fst)
      (right : n.form = pairs.map Prod.snd) (children : ∀ q ∈ pairs.children, AlikeOutside q.1 q.2) :
      AlikeOutside m n

variable {policy : ReadPolicy} {m n : Node}

theorem strips_iff {inner : Node} : Strips n inner ↔ n.unwrapParens = inner := by
  constructor
  · intro h
    induction h with
    | @bare n bare =>
        obtain ⟨form, layout⟩ := n
        rw [unwrapParens]
        rintro expression layout ⟨⟩
        exact bare expression rfl
    | @parens n expression inner form _ ih =>
        obtain ⟨_, layout⟩ := n
        cases form
        exact ih
  · rintro rfl
    fun_induction unwrapParens n with
    | case1 expression layout ih => exact .parens rfl ih
    | case2 n bare =>
        apply Strips.bare
        intro expression form
        obtain ⟨_, layout⟩ := n
        cases form
        exact bare expression layout rfl

theorem identifier?_iff {name : String} : n.identifier? = some name ↔ n.form = .identifier name := by
  rw [identifier?]
  cases n.form <;> simp

theorem rootName?_iff {name : String} : n.rootName? = some name ↔ RootedAt n name := by
  constructor
  · intro h
    fun_induction rootName? n with
    | case1 expression layout ih => exact .parens rfl (ih h)
    | case2 object property computed optional layout ih => exact .member rfl (ih h)
    | case3 root layout =>
        cases h
        exact .identifier rfl
    | case4 => cases h
  · intro h
    induction h with
    | @identifier n name form =>
        obtain ⟨_, layout⟩ := n
        cases form
        rfl
    | @parens n expression name form _ ih | @member n expression property computed optional name form _ ih =>
        obtain ⟨_, layout⟩ := n
        cases form
        exact ih

theorem marks_iff {name : String} : policy.marks name = true ↔ ∃ front, name = front ++ policy.suffix := by
  rw [ReadPolicy.marks, List.isSuffixOf_iff_suffix]
  constructor
  · rintro ⟨front, h⟩
    exact ⟨String.ofList front, String.toList_injective (by simp [h])⟩
  · rintro ⟨front, rfl⟩
    exact ⟨front.toList, by simp⟩

theorem isRead_iff : n.isRead policy = true ↔ ReadCall policy n := by
  have rooted (object : Node) : (policy.allReads || object.rootName?.any policy.marks) = true ↔
      (policy.allReads = false → ∃ name front, RootedAt object name ∧ name = front ++ policy.suffix) := by
    simp only [Bool.or_eq_true, Option.any_eq_true, rootName?_iff, marks_iff]
    cases policy.allReads <;> simp
  constructor
  · intro h
    unfold isRead at h
    split at h
    · rename_i callee optional call
      split at h
      · rename_i object property chained member
        obtain ⟨named, root⟩ := Bool.and_eq_true_iff.1 h
        obtain ⟨method, property_eq, configured⟩ := (Option.any_eq_true _ _).1 named
        exact .call call (strips_iff.2 rfl) member (identifier?_iff.1 property_eq) (by simpa using configured)
          ((rooted object).1 root)
      · cases h
    · cases h
  · rintro ⟨call, strips, member, named, configured, root⟩
    simp only [isRead, call, strips_iff.1 strips, member, identifier?_iff.2 named, Option.any_some,
      Bool.and_eq_true]
    exact ⟨by simpa using configured, (rooted _).2 root⟩

theorem any_containsRead_of_round {stack left : List Node} (h : searchRound policy stack = .inr left) :
    stack.any (containsRead policy) = left.any (containsRead policy) := by
  fun_cases searchRound policy stack with
  | case1 | case3 => simp [searchRound, *] at h
  | case2 n rest isFunction =>
      obtain rfl : rest = left := by simpa [searchRound, isFunction] using h
      simp [containsRead_eq policy n, isFunction]
  | case4 n rest noFunction noRead =>
      obtain rfl : n.children ++ rest = left := by simpa [searchRound, noFunction, noRead] using h
      simp [containsRead_eq policy n, noFunction, noRead]

theorem any_containsRead_of_answer {stack : List Node} {answer : Bool}
    (h : searchRound policy stack = .inl answer) : stack.any (containsRead policy) = answer := by
  fun_cases searchRound policy stack with
  | case1 =>
      cases h
      rfl
  | case2 | case4 => simp [searchRound, *] at h
  | case3 n rest noFunction reads =>
      obtain rfl : true = answer := by simpa [searchRound, noFunction, reads] using h
      simp [containsRead_eq policy n, noFunction, reads]

theorem searchRead_eq_any (stack : List Node) :
    searchRead policy stack = stack.any (containsRead policy) := by
  fun_induction searchRead policy stack with
  | case1 stack answer found => exact (any_containsRead_of_answer found).symm
  | case2 stack left round ih => exact ih.trans (any_containsRead_of_round round).symm

theorem unwrapParens_of_bare (bare : ∀ expression, n.form ≠ .parens expression) : n.unwrapParens = n :=
  strips_iff.1 (.bare bare)

theorem unwrapParens_of_parens {expression : Node} (form : n.form = .parens expression) :
    n.unwrapParens = expression.unwrapParens :=
  strips_iff.1 (.parens form (strips_iff.2 rfl))

theorem form_of_isFunction (h : n.isFunction = true) :
    (∃ body params, n.form = .arrow body params) ∨ ∃ kind parts, n.form = .function kind parts := by
  cases form : n.form with
  | arrow body params => exact .inl ⟨body, params, rfl⟩
  | function kind parts => exact .inr ⟨kind, parts, rfl⟩
  | _ => simp [Node.isFunction, form, Form.isFunction] at h

theorem plain_of_isFunction (h : n.isFunction = true) :
    n.identifier? = none ∧ n.rootName? = none ∧ n.unwrapParens = n ∧ ∀ policy, n.isRead policy = false := by
  obtain ⟨_, _⟩ := n
  obtain ⟨body, params, form⟩ | ⟨kind, parts, form⟩ := form_of_isFunction h
  all_goals
    cases form
    exact ⟨rfl, rfl, rfl, fun _ => rfl⟩

namespace AlikeOutside

theorem refl (n : Node) : AlikeOutside n n := by
  induction n using inductionOnChildren with
  | step n ih =>
      have once (f : Node × Node → Node) (first : ∀ c, f (c, c) = c) :
          n.form = (n.form.map fun c => (c, c)).map f := by
        calc n.form = n.form.map id := (Form.map_id _).symm
          _ = n.form.map (f ∘ fun c => (c, c)) := Form.map_congr fun c _ => (first c).symm
          _ = (n.form.map fun c => (c, c)).map f := (Form.map_map _ _ _).symm
      refine .construct (n.form.map fun c => (c, c)) (once _ fun _ => rfl) (once _ fun _ => rfl) ?_
      intro pair member
      rw [Form.children_map] at member
      obtain ⟨c, child, rfl⟩ := List.mem_map.1 member
      exact ih c child

theorem isFunction (h : AlikeOutside m n) : m.isFunction = n.isFunction := by
  cases h with
  | functions left right => rw [left, right]
  | construct pairs left right _ =>
      rw [Node.isFunction, Node.isFunction, left, right]
      cases pairs <;> rfl

theorem identifier? (h : AlikeOutside m n) : m.identifier? = n.identifier? := by
  cases h with
  | functions left right => rw [(plain_of_isFunction left).1, (plain_of_isFunction right).1]
  | construct pairs left right _ =>
      rw [Node.identifier?, Node.identifier?, left, right]
      cases pairs <;> rfl

theorem unwrapParens (h : AlikeOutside m n) : AlikeOutside m.unwrapParens n.unwrapParens := by
  induction h with
  | functions left right =>
      rw [(plain_of_isFunction left).2.2.1, (plain_of_isFunction right).2.2.1]
      exact .functions left right
  | @construct m n pairs left right children ih =>
      cases pairs with
      | parens pair =>
          rw [unwrapParens_of_parens left, unwrapParens_of_parens right]
          exact ih pair (List.mem_singleton_self pair)
      | _ =>
          rw [unwrapParens_of_bare (by simp [left, Form.map]), unwrapParens_of_bare (by simp [right, Form.map])]
          exact .construct _ left right children

theorem rootName? (h : AlikeOutside m n) : m.rootName? = n.rootName? := by
  induction h with
  | functions left right => rw [(plain_of_isFunction left).2.1, (plain_of_isFunction right).2.1]
  | @construct m n pairs left right children ih =>
      obtain ⟨_, _⟩ := m
      obtain ⟨_, _⟩ := n
      cases left
      cases right
      cases pairs with
      | parens pair => exact ih pair (List.mem_singleton_self pair)
      | member object property computed optional => exact ih object List.mem_cons_self
      | _ => rfl

theorem isRead (h : AlikeOutside m n) : m.isRead policy = n.isRead policy := by
  cases h with
  | functions left right => rw [(plain_of_isFunction left).2.2.2 policy, (plain_of_isFunction right).2.2.2 policy]
  | construct pairs left right children =>
      rw [Node.isRead, Node.isRead, left, right]
      cases pairs with
      | call callee arguments optional =>
          cases arguments with
          | cons argument arguments => rfl
          | nil =>
              -- Only what the parentheses of the callee leave is looked at further, if it is an access.
              simp only [Form.map, List.map_nil]
              cases (children callee List.mem_cons_self).unwrapParens with
              | functions left right =>
                  rcases form_of_isFunction left with ⟨_, _, left⟩ | ⟨_, _, left⟩ <;>
                    rcases form_of_isFunction right with ⟨_, _, right⟩ | ⟨_, _, right⟩ <;>
                      rw [left, right]
              | construct access left right children =>
                  rw [left, right]
                  cases access with
                  | member object property computed optional =>
                      have named := (children property (by simp [Form.children])).identifier?
                      have rooted := (children object (by simp [Form.children])).rootName?
                      cases computed
                      · simp only [Form.map, named, rooted]
                      · rfl
                  | _ => rfl
      | _ => rfl

theorem containsRead (h : AlikeOutside m n) : m.containsRead policy = n.containsRead policy := by
  induction h with
  | functions left right => rw [containsRead_eq, containsRead_eq, left, right]; rfl
  | @construct m n pairs left right children ih =>
      have alike : AlikeOutside m n := .construct pairs left right children
      have answers : m.children.map (Node.containsRead policy) = n.children.map (Node.containsRead policy) := by
        rw [Node.children, Node.children, left, right, Form.children_map, Form.children_map, List.map_map,
          List.map_map]
        exact List.map_congr_left ih
      have below : m.children.any (Node.containsRead policy) = n.children.any (Node.containsRead policy) := by
        simpa [List.any_map] using congrArg (List.any · id) answers
      rw [containsRead_eq policy m, containsRead_eq policy n, alike.isFunction, alike.isRead, below]

end AlikeOutside

/-- Where a read is found and where not: a tree contains a read exactly if a path through the children
meets no function literal and ends in a read, the search with a stack finds out whether it does, what is
inside function literals does not matter, and a call with arguments is no read. -/
theorem containsRead_exact (policy : ReadPolicy) (n : Node) :
    (n.containsRead policy = true ↔
      ∃ path r, n.get? path = some r ∧ ReadCall policy r ∧
        ∀ above a, above <+: path → n.get? above = some a → a.isFunction = false) ∧
    searchRead policy [n] = n.containsRead policy ∧
    (∀ m, AlikeOutside n m → n.containsRead policy = m.containsRead policy) ∧
    (∀ callee argument arguments optional, n.form = .call callee (argument :: arguments) optional →
      n.isRead policy = false) := by
  refine ⟨?_, ?_, fun m alike => alike.containsRead, ?_⟩
  · rw [containsRead_iff]
    constructor
    · rintro ⟨path, ⟨r, found, reads⟩, direct⟩
      exact ⟨path, r, found, isRead_iff.1 reads, direct⟩
    · rintro ⟨path, r, found, call, direct⟩
      exact ⟨path, ⟨r, found, isRead_iff.2 call⟩, direct⟩
  · rw [searchRead_eq_any, List.any_cons, List.any_nil, Bool.or_false]
  · intro callee argument arguments optional call
    rw [isRead, call]

theorem containsRead_exact_handlers :
    let read := fresh (.call (fresh (.member (fresh (.member (fresh (.identifier "user$")) (fresh (.identifier "name"))
      false false)) (fresh (.identifier "get")) false false)) [] false)
    let mapped (body : Node) := fresh (.call (fresh (.member (fresh (.identifier "items")) (fresh (.identifier "map"))
      false false)) [fresh (.arrow body none)] false)
    (mapped read).containsRead {} = (mapped (fresh (.identifier "row"))).containsRead {} ∧
      (mapped read).isRead {} = false := by
  intro read mapped
  obtain ⟨_, _, alike, arguments⟩ := containsRead_exact {} (mapped read)
  refine ⟨alike _ (.construct (.call (_, _) [(_, _)] false) rfl rfl ?_), arguments _ _ _ _ rfl⟩
  intro pair member
  obtain rfl | rfl : pair = (_, _) ∨ pair = (_, _) := by simpa [Form.children] using member
  · exact .refl _
  · exact .functions rfl rfl

end JsxBoundary.Node
