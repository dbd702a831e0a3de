import JsxBoundary.Proofs.Constructs

/-!
# Plans that lose no constructs

What the reading of a concrete node leaves as text may hold constructs, and they are lost. `Sparing` says of a
node that this does not happen, `Tidy` that the parts of its tags are what their places say. Then the slots of
its plan are its spots, and the form is that of the construct (`plan_keeps`).
-/

namespace JsxBoundary.Concrete

/-! ## What is asked of a concrete tree -/

def besides (n : Concrete) (names : List String) : List Concrete :=
  names.foldl (fun cs name => cs.eraseP (·.info.field == some name)) n.children

/-- The fields that an access, a call or an arrow function is read from. One without the fields that it
needs is a generic construct. -/
def operands (n : Concrete) : List String :=
  let known (names : List String) : List String :=
    if names.all fun name => (n.field? name).isSome then names else []
  match n.kind with
  | "member_expression" => known ["object", "property"]
  | "subscript_expression" => known ["object", "index"]
  | "call_expression" => if n.construct? = some .call then ["function", "arguments"] else []
  | "arrow_function" =>
    if (n.field? "parameters").isSome then known ["parameters", "body"]
    else if (n.field? "parameter").isSome then known ["parameter", "body"]
    else known ["body"]
  | _ => []

def isWhole (n : Concrete) : Bool :=
  identifierKinds.contains n.kind || textKinds.contains n.kind || n.kind == "import_statement"

def isAttr (n : Concrete) : Bool :=
  n.info.named && (n.kind == "jsx_attribute" || n.kind == "jsx_expression")

/-- The opening tag holds constructs in its name and its attributes only, and in nothing if it has no name. A
child that is taken for the name, being of its kind and over its range, is no attribute. -/
structure SparingTag (tag : Concrete) : Prop where
  besides : ∀ c ∈ tag.besides ["name"], c.isAttr = false → c.Bare
  taken : ∀ name ∈ tag.field? "name", ∀ c ∈ tag.besides ["name"], c.sameAs name = true → c.Bare
  nameless : tag.field? "name" = none → ∀ c ∈ tag.children, c.Bare

/-- What the reading leaves of the node as text holds no constructs. -/
structure Sparing (n : Concrete) : Prop where
  tokens : ∀ c ∈ n.children, c.info.named = false → c.Bare
  comments : ∀ c ∈ n.children, c.kind = "comment" → c.Bare
  whole : n.isWhole = true → ∀ c ∈ n.children, c.Bare
  operands : n.operands ≠ [] → ∀ c ∈ n.besides n.operands, c.Bare
  braces : n.kind = "jsx_expression" ∨ n.kind = "spread_element" → n.parts.length ≤ 1
  attr : n.kind = "jsx_attribute" → n.parts.length ≤ 2 ∧ ∀ name ∈ n.parts.head?, name.Bare
  selfClosing : n.kind = "jsx_self_closing_element" → n.SparingTag
  element : n.kind = "jsx_element" → ∃ opening, (Plan.elementTags n).1 = some opening ∧ opening.SparingTag ∧
    ∀ closing ∈ (Plan.elementTags n).2, (∀ c ∈ closing.besides ["name"], c.Bare) ∧
      (opening.field? "name" = none → ∀ c ∈ closing.children, c.Bare)
  -- A child of the kind of a tag and over its range is taken for the tag.
  taken : n.kind = "jsx_element" → ∀ opening closing others, Plan.elementTags n = (some opening, closing) →
    n.children.Perm (opening :: (closing.toList ++ others)) →
      ∀ c ∈ others, (c.sameAs opening || closing.any c.sameAs) = true → c.Bare

def TidyTag (tag : Concrete) : Prop :=
  ∀ name ∈ tag.field? "name", name.construct? = none

/-- The names of tags are no constructs, nor are the tags of an element, which are two children of it. -/
structure Tidy (n : Concrete) : Prop where
  selfClosing : n.kind = "jsx_self_closing_element" → n.TidyTag
  tags : n.kind = "jsx_element" → ∀ tag, (Plan.elementTags n).1 = some tag ∨ (Plan.elementTags n).2 = some tag →
    tag.TidyTag ∧ tag.construct? = none
  apart : n.kind = "jsx_element" → ∀ opening closing, Plan.elementTags n = (some opening, some closing) →
    ∃ others, n.children.Perm (opening :: closing :: others)

def Role.Fits (n : Concrete) : Role → Prop
  | .tagName => n.construct? = none
  | .opening _ => n.SparingTag ∧ n.TidyTag
  | .closing => (∀ c ∈ n.besides ["name"], c.Bare) ∧ n.TidyTag ∧ n.construct? = none
  | .attr => n.isAttr = true
  | _ => True

/-! ## Spots of a node -/

def constructKinds : List String :=
  ["jsx_element", "jsx_fragment", "jsx_self_closing_element", "call_expression"]

theorem identifierKinds_apart : ∀ kind ∈ identifierKinds, kind ∉ constructKinds := by decide

theorem functionKinds_apart : ∀ kind ∈ functionKinds, kind ∉ constructKinds := by decide

theorem textKinds_apart : ∀ kind ∈ textKinds, kind ∉ constructKinds := by decide

section

variable {n c d : Concrete}

theorem construct?_eq_none (other : n.kind ∉ constructKinds) : n.construct? = none := by
  unfold construct?
  split <;> simp_all [constructKinds]

theorem construct?_call (kind : n.kind = "call_expression") :
    n.construct? = if (n.field? "function").isSome && (n.field? "arguments").any (·.kind == "arguments")
      then some .call else none := by
  unfold construct?
  rw [kind]
  rfl

theorem construct?_element (kind : n.kind = "jsx_element") :
    n.construct? = some (if (Plan.elementTags n).1.any fun opening => (opening.field? "name").isNone
      then .fragment else .element) := by
  unfold construct?
  rw [kind]
  rfl

theorem perm_cons_eraseP {α : Type} {q : α → Bool} {as : List α} {a : α} (found : as.find? q = some a) :
    as.Perm (a :: as.eraseP q) := by
  induction as with
  | nil => cases found
  | cons b as ih =>
      rw [List.find?_cons] at found
      cases own : q b with
      | true =>
          rw [own] at found
          cases found
          rw [List.eraseP_cons_of_pos own]
      | false =>
          rw [own] at found
          rw [List.eraseP_cons_of_neg (by simp [own])]
          exact ((ih found).cons b).trans (.swap a b _)

theorem find?_eraseP {α : Type} {q q' : α → Bool} (apart : ∀ a, q' a = true → q a = false) (as : List α) :
    (as.eraseP q').find? q = as.find? q := by
  induction as with
  | nil => rfl
  | cons a as ih =>
      cases own : q' a with
      | true => rw [List.eraseP_cons_of_pos own, List.find?_cons, apart a own]
      | false =>
          rw [List.eraseP_cons_of_neg (by simp [own]), List.find?_cons, List.find?_cons, ih]

theorem perm_besides {name : String} (found : n.field? name = some c) :
    n.children.Perm (c :: n.besides [name]) :=
  perm_cons_eraseP found

theorem perm_besides_pair {name name' : String} (ne : name ≠ name') (found : n.field? name = some c)
    (found' : n.field? name' = some d) : n.children.Perm (c :: d :: n.besides [name, name']) := by
  have still : (n.besides [name]).find? (·.info.field == some name') = some d := by
    refine (find?_eraseP (fun a own => ?_) n.children).trans found'
    rw [beq_iff_eq] at own
    simp [own, ne]
  exact (perm_besides found).trans ((perm_cons_eraseP still).cons c)

theorem perm_filter_of_perm {α : Type} {as front others : List α} (q : α → Bool)
    (split : as.Perm (front ++ others)) (outside : ∀ a ∈ front, q a = false) :
    as.Perm (front ++ as.filter q ++ others.filter (!q ·)) := by
  have own : (as.filter q).Perm (others.filter q) := by
    have all := split.filter q
    have none : front.filter q = [] := List.filter_eq_nil_iff.2 fun a member => by simp [outside a member]
    rwa [List.filter_append, none, List.nil_append] at all
  calc as
    _ |>.Perm (front ++ others) := split
    _ |>.Perm (front ++ (others.filter q ++ others.filter (!q ·))) :=
      (List.filter_append_perm q others).symm.append_left front
    _ |>.Perm (front ++ (as.filter q ++ others.filter (!q ·))) := (own.symm.append_right _).append_left front
    _ |>.Perm (front ++ as.filter q ++ others.filter (!q ·)) := by rw [List.append_assoc]

theorem SpotsAt.of_bare (bare : ∀ c ∈ n.children, Bare c) : SpotsAt n [] :=
  .of_perm (List.Perm.refl n.children) bare

theorem SpotsAt.drop {nodes : List Concrete} (h : SpotsAt n (c :: nodes)) (bare : c.Bare) : SpotsAt n nodes :=
  h.through (bare [] c rfl) (.of_bare fun _ => bare.child)

theorem SpotsAt.drops {nodes nodes' : List Concrete} (h : SpotsAt n (nodes ++ nodes'))
    (bare : ∀ c ∈ nodes, c.Bare) : SpotsAt n nodes' := by
  induction nodes with
  | nil => exact h
  | cons c nodes ih => exact ih (h.drop (bare c (.head _))) fun d member => bare d (.tail _ member)

theorem Sparing.named (h : Sparing n) : SpotsAt n n.named := by
  refine .of_perm (List.filter_append_perm (·.info.named) n.children).symm fun c member => ?_
  obtain ⟨member, unnamed⟩ := List.mem_filter.1 member
  exact h.tokens c member (by simpa using unnamed)

theorem parts_eq (n : Concrete) : n.parts = n.children.filter fun c => c.kind != "comment" && c.info.named := by
  rw [parts, named, List.filter_filter]

theorem Sparing.bare_of_not_part (h : Sparing n) (member : c ∈ n.children)
    (other : (c.kind != "comment" && c.info.named) = false) : Bare c := by
  rw [Bool.and_eq_false_iff] at other
  rcases other with comment | unnamed
  · exact h.comments c member (by simpa using comment)
  · exact h.tokens c member unnamed

theorem Sparing.parts (h : Sparing n) : SpotsAt n n.parts := by
  rw [parts_eq]
  refine .of_perm (List.filter_append_perm _ n.children).symm fun c member => ?_
  obtain ⟨member, other⟩ := List.mem_filter.1 member
  exact h.bare_of_not_part member (by rwa [Bool.not_eq_true'] at other)

end

/-! ## One lemma for each plan -/

/-- The slots are the spots of the node, they can be read in their roles, opening tags are no constructs, and
the form is that of the construct. -/
structure Plan.Keeps (n : Concrete) (p : Plan) (k : Option Construct) : Prop where
  spots : SpotsAt n (p.slots.map Slot.node)
  fits : ∀ slot ∈ p.slots, slot.role.Fits slot.node
  tags : ∀ slot ∈ p.slots, slot.role.isOpening = true → slot.node.construct? = none
  construct : ∀ nodes, nodes.length = p.slots.length → (p.form nodes).construct? = k

section

variable {n : Concrete} {bytes : ByteArray} {role : Role}

theorem fits_slotsFrom {index : Nat} {cs : List Concrete} (fits : ∀ c ∈ cs, role.Fits c) :
    ∀ slot ∈ slotsFrom role index cs, slot.role.Fits slot.node := by
  intro slot member
  obtain ⟨i, bound, rfl⟩ := List.mem_mapIdx.1 member
  exact fits _ (List.getElem_mem bound)

theorem role_slotsFrom {index : Nat} {cs : List Concrete} {slot : Slot} (member : slot ∈ slotsFrom role index cs) :
    slot.role = role := by
  obtain ⟨i, bound, rfl⟩ := List.mem_mapIdx.1 member
  rfl

theorem slotsFrom_keeps {cs : List Concrete} {form : List Node → Form Node} {whole : Bool} {k : Option Construct}
    {index : Nat} (spots : SpotsAt n cs) (fits : ∀ c ∈ cs, role.Fits c) (plain : role.isOpening = false)
    (construct : ∀ nodes, nodes.length = cs.length → (form nodes).construct? = k) :
    (Plan.mk (slotsFrom role index cs) form whole).Keeps n k := by
  refine ⟨?_, fits_slotsFrom fits, fun slot member opens => ?_, fun nodes length => ?_⟩
  · rwa [map_node_slotsFrom]
  · rw [role_slotsFrom member, plain] at opens
    cases opens
  · exact construct nodes (length.trans (length_slotsFrom ..))

theorem leaf_keeps {form : Form Node} (spots : SpotsAt n []) (own : form.construct? = none) :
    (Plan.leaf form).Keeps n none :=
  ⟨spots, nofun, nofun, fun _ _ => own⟩

theorem single_keeps {inner : Concrete} {form : Node → Form Node} (spots : SpotsAt n [inner])
    (fits : role.Fits inner) (plain : role.isOpening = false)
    (construct : ∀ node, (form node).construct? = none) :
    (Plan.single n role inner form).Keeps n none := by
  change (Plan.mk (slotsFrom role 0 [inner]) (Plan.single n role inner form).form false).Keeps n none
  refine slotsFrom_keeps spots (by simpa using fits) plain fun nodes length => ?_
  obtain ⟨node, rfl⟩ := List.length_eq_one_iff.1 length
  exact construct node

theorem generic_keeps (sparing : Sparing n) : (Plan.generic n).Keeps n none :=
  slotsFrom_keeps sparing.named (fun _ _ => trivial) rfl fun _ _ => rfl

theorem function_keeps (sparing : Sparing n) : (Plan.function n).Keeps n none :=
  slotsFrom_keeps sparing.named (fun _ _ => trivial) rfl fun _ _ => rfl

theorem member_keeps (sparing : Sparing n) {field : String} (computed : Bool) (ne : "object" ≠ field)
    (operands : (n.field? "object").isSome = true → (n.field? field).isSome = true →
      n.operands = ["object", field]) : (Plan.member n field computed).Keeps n none := by
  unfold Plan.member
  split
  · rename_i object property ho hp
    have known := operands (by simp [ho]) (by simp [hp])
    refine slotsFrom_keeps (.of_perm (perm_besides_pair ne ho hp) ?_) (fun _ _ => trivial) rfl
      fun nodes length => ?_
    · rw [← known]
      exact sparing.operands (by simp [known])
    · obtain ⟨_, _, rfl⟩ := List.length_eq_two.1 length
      rfl
  · exact generic_keeps sparing

theorem call_keeps (sparing : ∀ c, Occurs n c → Sparing c) (kind : n.kind = "call_expression") :
    (Plan.call n).Keeps n n.construct? := by
  have own := construct?_call kind
  unfold Plan.call
  split
  · rename_i callee arguments hc ha
    split
    · rename_i proper
      have call : n.construct? = some .call := by simp [own, hc, ha, proper]
      have known : n.operands = ["function", "arguments"] := by
        unfold operands
        rw [kind]
        exact if_pos call
      have inner : arguments.construct? = none :=
        construct?_eq_none (by rw [beq_iff_eq.1 proper]; decide)
      have outer : SpotsAt n [arguments, callee] := by
        refine .of_perm ((perm_besides_pair (by decide) hc ha).trans (.swap _ _ _)) ?_
        rw [← known]
        exact (sparing n .root).operands (by simp [known])
      have given := (sparing arguments (.of_child (mem_children_of_field? ha))).parts
      refine slotsFrom_keeps ((outer.through inner given).perm List.perm_append_comm) (fun _ _ => trivial) rfl
        fun nodes length => ?_
      obtain ⟨_, _, rfl⟩ := List.exists_cons_of_length_eq_add_one length
      exact call.symm
    · rename_i tagged
      rw [own, if_neg (by simp [hc, ha, tagged])]
      exact generic_keeps (sparing n .root)
  · rename_i incomplete
    have none : n.construct? = none := by
      rw [own, if_neg]
      intro both
      rw [Bool.and_eq_true, Option.isSome_iff_exists, Option.any_eq_true] at both
      obtain ⟨⟨callee, hc⟩, arguments, ha, _⟩ := both
      exact incomplete callee arguments hc ha
    rw [none]
    exact generic_keeps (sparing n .root)

theorem arrow_keeps (sparing : Sparing n) (kind : n.kind = "arrow_function") :
    (Plan.arrow n).Keeps n none := by
  unfold Plan.arrow
  split
  · rename_i body params hb hp
    have known : ∃ name, name ≠ "body" ∧ n.field? name = some params ∧ n.operands = [name, "body"] := by
      simp only [Option.orElse_eq_orElse, Option.orElse_eq_or, Option.or_eq_some_iff] at hp
      rcases hp with hp | ⟨none, hp⟩
      · exact ⟨"parameters", by decide, hp, by unfold operands; rw [kind]; simp [hp, hb]⟩
      · exact ⟨"parameter", by decide, hp, by unfold operands; rw [kind]; simp [none, hp, hb]⟩
    obtain ⟨name, ne, first, known⟩ := known
    refine ⟨?_, fun slot member => ?_, fun slot member => ?_, fun nodes length => ?_⟩
    · refine .of_perm (perm_besides_pair ne first hb) ?_
      rw [← known]
      exact sparing.operands (by simp [known])
    · simp only [List.mem_cons, List.not_mem_nil, or_false] at member
      rcases member with rfl | rfl <;> trivial
    · simp only [List.mem_cons, List.not_mem_nil, or_false] at member
      rcases member with rfl | rfl <;> nofun
    · obtain ⟨_, _, rfl⟩ := List.length_eq_two.1 length
      rfl
  · rename_i body hb hp
    have known : n.operands = ["body"] := by
      simp only [Option.orElse_eq_orElse, Option.orElse_eq_or, Option.or_eq_none_iff] at hp
      unfold operands
      rw [kind]
      simp [hp.1, hp.2, hb]
    refine single_keeps (.of_perm (perm_besides hb) ?_) trivial rfl fun _ => rfl
    rw [← known]
    exact sparing.operands (by simp [known])
  · exact generic_keeps sparing

theorem parens_keeps (sparing : Sparing n) : (Plan.parens n).Keeps n none := by
  unfold Plan.parens
  split
  · rename_i inner parts
    exact single_keeps (parts ▸ sparing.parts) trivial rfl fun _ => rfl
  · exact generic_keeps sparing

theorem fragment_keeps {content : List Concrete} (spots : SpotsAt n content) :
    (Plan.fragment content).Keeps n (some .fragment) :=
  slotsFrom_keeps spots (fun _ _ => trivial) rfl fun _ _ => rfl

theorem container_keeps (sparing : Sparing n) (kind : n.kind = "jsx_expression") :
    (Plan.container n).Keeps n none := by
  have spots := sparing.parts
  have one := sparing.braces (.inl kind)
  unfold Plan.container
  split
  · rename_i parts
    exact leaf_keeps (parts ▸ spots) rfl
  · rename_i inner rest parts
    rw [parts] at spots one
    have last : rest = [] := by simpa using one
    subst last
    exact single_keeps spots trivial rfl fun _ => rfl

theorem attr_keeps (sparing : Sparing n) (kind : n.kind = "jsx_attribute") {p : Plan}
    (planned : Plan.attr bytes n = .ok p) : p.Keeps n none := by
  obtain ⟨two, bare⟩ := sparing.attr kind
  obtain ⟨name, _, planned⟩ := bind_eq_ok planned
  have spots := sparing.parts
  split at planned <;> cases planned
  · rename_i first value rest parts
    rw [parts] at spots two bare
    have last : rest = [] := by simpa using two
    subst last
    exact single_keeps (spots.drop (bare first rfl)) trivial rfl fun _ => rfl
  · rename_i short
    refine leaf_keeps ?_ rfl
    match parts : n.parts with
    | [] => exact parts ▸ spots
    | [first] =>
      rw [parts] at spots bare
      exact spots.drop (bare first rfl)
    | first :: value :: rest => exact absurd parts (short first value rest)

theorem spreadAttr_keeps (sparing : ∀ c, Occurs n c → Sparing c) (kind : n.kind = "jsx_expression") :
    (Plan.spreadAttr n).Keeps n none := by
  have spots := (sparing n .root).parts
  have one := (sparing n .root).braces (.inl kind)
  unfold Plan.spreadAttr
  split
  · rename_i spread rest parts
    rw [parts] at spots one
    have last : rest = [] := by simpa using one
    subst last
    split
    · rename_i argument rest own parts'
      have own : spread.kind = "spread_element" := beq_iff_eq.1 own
      have inside := sparing spread (.of_child (mem_children_of_mem_parts (parts ▸ List.mem_singleton_self _)))
      have spots' := inside.parts
      have one' := inside.braces (.inr own)
      rw [parts'] at spots' one'
      have last : rest = [] := by simpa using one'
      subst last
      have other : spread.construct? = none := construct?_eq_none (by rw [own]; decide)
      exact single_keeps (spots.through other spots') trivial rfl fun _ => rfl
    · exact generic_keeps (sparing n .root)
  · exact generic_keeps (sparing n .root)

theorem opening_keeps (sparing : SparingTag n) (tidy : TidyTag n) {selfClosing : Bool} {p : Plan}
    (planned : Plan.opening n selfClosing = .ok p) : p.Keeps n none := by
  unfold Plan.opening at planned
  split at planned <;> cases planned
  rename_i name found
  let attributes := n.named.filter fun c =>
    !c.sameAs name && (c.kind == "jsx_attribute" || c.kind == "jsx_expression")
  have split := perm_filter_of_perm
    (fun c => !c.sameAs name && (c.kind == "jsx_attribute" || c.kind == "jsx_expression") && c.info.named)
    (show n.children.Perm ([name] ++ n.besides ["name"]) from perm_besides found) (by simp [sameAs_self])
  have same : attributes = n.children.filter _ := List.filter_filter
  refine ⟨?_, fun slot member => ?_, fun slot member opens => ?_, fun nodes length => ?_⟩
  · rw [List.map_cons, map_node_slotsFrom]
    refine .of_perm (same ▸ split) fun c member => ?_
    obtain ⟨member, other⟩ := List.mem_filter.1 member
    cases other' : c.sameAs name with
    | true => exact sparing.taken name found c member other'
    | false =>
        refine sparing.besides c member ?_
        rw [other', Bool.not_eq_true'] at other
        rw [isAttr, Bool.and_comm]
        exact other
  · rcases List.mem_cons.1 member with rfl | member
    · exact tidy name found
    · refine fits_slotsFrom (fun c member => ?_) slot member
      obtain ⟨member, attr⟩ := List.mem_filter.1 member
      rw [Role.Fits, isAttr, (List.mem_filter.1 member).2]
      exact (Bool.and_eq_true_iff.1 attr).2
  · rcases List.mem_cons.1 member with rfl | member
    · cases opens
    · rw [role_slotsFrom member] at opens
      cases opens
  · obtain ⟨_, _, rfl⟩ := List.exists_cons_of_length_eq_add_one length
    rfl

theorem closing_keeps (besides : ∀ c ∈ n.besides ["name"], c.Bare) (tidy : TidyTag n) :
    (Plan.closing n).Keeps n none := by
  unfold Plan.closing
  split
  · rename_i nameless
    refine leaf_keeps (.of_bare fun c member => besides c ?_) rfl
    have same : n.besides ["name"] = n.children :=
      List.eraseP_of_forall_not (by simpa [field?] using nameless)
    rwa [same]
  · rename_i name found
    exact single_keeps (.of_perm (perm_besides found) besides) (tidy name found) rfl fun _ => rfl

theorem element_spots (sparing : Sparing n) {opening : Concrete} {closing : Option Concrete}
    {others : List Concrete} (split : n.children.Perm (opening :: (closing.toList ++ others)))
    (once : ∀ c ∈ others, (c.sameAs opening || closing.any c.sameAs) = true → c.Bare) :
    SpotsAt n (opening :: (closing.toList ++
      n.parts.filter fun c => !c.sameAs opening && !closing.any c.sameAs)) := by
  let between (c : Concrete) : Bool :=
    !c.sameAs opening && !closing.any c.sameAs && (c.kind != "comment" && c.info.named)
  have outside : ∀ c ∈ opening :: closing.toList, between c = false := by
    intro c member
    rcases List.mem_cons.1 member with rfl | member
    · simp [between, sameAs_self]
    · simp [between, Option.mem_toList.1 member, sameAs_self]
  rw [parts_eq, List.filter_filter]
  refine .of_perm (perm_filter_of_perm between split outside) fun c member => ?_
  obtain ⟨member, other⟩ := List.mem_filter.1 member
  rw [Bool.not_eq_true', Bool.and_eq_false_iff, ← Bool.not_or, Bool.not_eq_false'] at other
  rcases other with other | other
  · exact once c member other
  · exact sparing.bare_of_not_part (split.mem_iff.2 (by simp [member])) other

theorem Tidy.split (tidy : Tidy n) (kind : n.kind = "jsx_element") {opening : Concrete}
    {closing : Option Concrete} (tags : Plan.elementTags n = (some opening, closing)) :
    ∃ others, n.children.Perm (opening :: (closing.toList ++ others)) := by
  cases closing with
  | some closing => exact tidy.apart kind opening closing tags
  | none =>
      have member : opening ∈ n.children := mem_children_of_elementTags (.inl (by rw [tags]))
      obtain ⟨before, after, children⟩ := List.append_of_mem member
      exact ⟨before ++ after, children ▸ List.perm_middle⟩

theorem element_keeps (sparing : Sparing n) (tidy : Tidy n) (kind : n.kind = "jsx_element") :
    (Plan.element n).Keeps n n.construct? := by
  obtain ⟨opening, tag, sparingTag, sparingLast⟩ := sparing.element kind
  obtain ⟨closing, tags⟩ : ∃ closing, Plan.elementTags n = (some opening, closing) := ⟨_, Prod.ext tag rfl⟩
  have own := construct?_element kind
  have first : opening.TidyTag ∧ opening.construct? = none := tidy.tags kind opening (.inl tag)
  have last : ∀ c ∈ closing.toList, c.TidyTag ∧ c.construct? = none := fun c member =>
    tidy.tags kind c (.inr (by rw [tags]; exact Option.mem_toList.1 member))
  obtain ⟨others, split⟩ := tidy.split kind tags
  have spots := element_spots sparing split (sparing.taken kind opening closing others tags split)
  rw [tags] at own sparingLast
  unfold Plan.element
  rw [tags]
  dsimp only at spots ⊢
  generalize n.parts.filter _ = content at spots ⊢
  cases nameless : opening.field? "name" with
  | none =>
      have fragment : n.construct? = some .fragment := by rw [own]; simp [nameless]
      rw [fragment]
      have bare : ∀ c ∈ closing.toList, c.Bare := fun c member =>
        .of_children (last c member).2 ((sparingLast c (Option.mem_toList.1 member)).2 nameless)
      have inner := spots.drop (.of_children first.2 (sparingTag.nameless nameless))
      exact fragment_keeps (inner.drops bare)
  | some name =>
      have element : n.construct? = some .element := by rw [own]; simp [nameless]
      rw [element]
      have each : ∀ slot ∈ elementSlots opening content closing,
          slot.role.Fits slot.node ∧ (slot.role.isOpening = true → slot.node.construct? = none) := by
        intro slot member
        simp only [elementSlots, List.mem_cons, List.mem_append] at member
        rcases member with rfl | member | member
        · exact ⟨⟨sparingTag, first.1⟩, fun _ => first.2⟩
        · rw [role_slotsFrom member]
          exact ⟨trivial, fun opens => by cases opens⟩
        · refine ⟨fits_slotsFrom (fun c tag => ?_) slot member, fun opens => ?_⟩
          · exact ⟨(sparingLast c (Option.mem_toList.1 tag)).1, last c tag⟩
          · rw [role_slotsFrom member] at opens
            cases opens
      refine ⟨?_, fun slot member => (each slot member).1, fun slot member => (each slot member).2,
        fun nodes length => ?_⟩
      · exact map_node_elementSlots opening content closing ▸ spots.perm (List.perm_append_comm.cons opening)
      · obtain ⟨_, _, rfl⟩ := List.exists_cons_of_length_eq_add_one length
        rfl

theorem import_keeps (spots : SpotsAt n []) {path : Concrete} {p : Plan}
    (planned : importPlan bytes n path = .ok p) : p.Keeps n none := by
  unfold importPlan at planned
  obtain ⟨path, _, planned⟩ := bind_eq_ok planned
  obtain ⟨b, _, planned⟩ := bind_eq_ok planned
  cases planned
  exact leaf_keeps spots rfl

theorem plainPlan_keeps (sparing : ∀ c, Occurs n c → Sparing c) (tidy : Tidy n) {p : Plan}
    (planned : plainPlan bytes n = .ok p) :
    p.Keeps n n.construct? ∨ n.kind = "jsx_self_closing_element" ∧ p = Plan.selfClosing n := by
  have own := sparing n .root
  have whole : n.isWhole = true → SpotsAt n [] := fun kind => .of_bare (own.whole kind)
  have other : ∀ {q : Plan}, n.kind ∉ constructKinds → q.Keeps n none → q.Keeps n n.construct? :=
    fun kind keeps => construct?_eq_none kind ▸ keeps
  unfold plainPlan at planned
  split at planned
  · rename_i kind
    obtain ⟨name, _, planned⟩ := bind_eq_ok planned
    cases planned
    exact .inl (other (identifierKinds_apart _ (List.contains_iff_mem.1 kind))
      (leaf_keeps (whole (by rw [isWhole, kind]; rfl)) rfl))
  split at planned
  · rename_i kind
    cases planned
    exact .inl (other (functionKinds_apart _ (List.contains_iff_mem.1 kind)) (function_keeps own))
  split at planned
  · rename_i kind
    have apart : n.kind ∉ constructKinds := by rw [kind]; decide
    split at planned
    · exact .inl (other apart (import_keeps (whole (by simp [isWhole, kind])) planned))
    · cases planned
      exact .inl (other apart (generic_keeps own))
  all_goals cases planned
  · rename_i kind
    refine .inl (other (by rw [kind]; decide) (member_keeps own false (by decide) fun first second => ?_))
    unfold operands
    rw [kind]
    simp [first, second]
  · rename_i kind
    refine .inl (other (by rw [kind]; decide) (member_keeps own true (by decide) fun first second => ?_))
    unfold operands
    rw [kind]
    simp [first, second]
  · rename_i kind
    exact .inl (call_keeps sparing kind)
  · rename_i kind
    exact .inl (other (by rw [kind]; decide) (arrow_keeps own kind))
  · rename_i kind
    exact .inl (other (by rw [kind]; decide) (parens_keeps own))
  · rename_i kind
    exact .inl (element_keeps own tidy kind)
  · rename_i kind
    have fragment : n.construct? = some .fragment := by unfold construct?; rw [kind]; rfl
    exact .inl (fragment ▸ fragment_keeps own.parts)
  · rename_i kind
    exact .inr ⟨kind, rfl⟩
  · exact .inl (other (by simp_all [constructKinds]) (generic_keeps own))

theorem plan_keeps (sparing : ∀ c, Occurs n c → Sparing c) (tidy : Tidy n) (fits : role.Fits n) {p : Plan}
    (planned : plan bytes role n = .ok p) :
    p.Keeps n (if role.isOpening then none else n.construct?) ∨
      role.isOpening = false ∧ n.kind = "jsx_self_closing_element" ∧ p = Plan.selfClosing n := by
  have own := sparing n .root
  have plain : plainPlan bytes n = .ok p → p.Keeps n n.construct? ∨
      n.kind = "jsx_self_closing_element" ∧ p = Plan.selfClosing n := plainPlan_keeps sparing tidy
  have braces : n.kind = "jsx_expression" → n.construct? = none :=
    fun kind => construct?_eq_none (by rw [kind]; decide)
  cases role with
  | plain => simpa [Role.isOpening] using plain planned
  | opening selfClosing => exact .inl (opening_keeps fits.1 fits.2 planned)
  | closing =>
      cases planned
      simp only [Role.isOpening, Bool.false_eq_true, if_false]
      rw [fits.2.2]
      exact .inl (closing_keeps fits.1 fits.2.1)
  | content =>
      simp only [Role.isOpening, Bool.false_eq_true, if_false, true_and]
      simp only [plan] at planned
      split at planned
      · rename_i kind
        obtain ⟨value, _, planned⟩ := bind_eq_ok planned
        cases planned
        rw [construct?_eq_none (textKinds_apart _ (List.contains_iff_mem.1 kind))]
        exact .inl (leaf_keeps (.of_bare (own.whole (by rw [isWhole, kind, Bool.or_true]; rfl))) rfl)
      split at planned
      · rename_i kind
        rw [braces (beq_iff_eq.1 kind)]
        split at planned <;> cases planned
        · exact .inl (generic_keeps own)
        · exact .inl (container_keeps own (beq_iff_eq.1 kind))
      · exact plain planned
  | tagName =>
      simp only [Role.isOpening, Bool.false_eq_true, if_false, true_and]
      simp only [plan] at planned
      split at planned
      · exact plain planned
      · cases planned
        have none : n.construct? = none := fits
        rw [none]
        exact .inl (generic_keeps own)
  | attr =>
      simp only [Role.isOpening, Bool.false_eq_true, if_false, true_and]
      simp only [plan] at planned
      have kinds : n.info.named = true ∧ (n.kind = "jsx_attribute" ∨ n.kind = "jsx_expression") := by
        simpa [Role.Fits, isAttr] using fits
      split at planned
      · rename_i kind
        have kind := beq_iff_eq.1 kind
        rw [construct?_eq_none (by rw [kind]; decide)]
        exact .inl (attr_keeps own kind planned)
      · rename_i other
        have kind := kinds.2.resolve_left (by simpa using other)
        cases planned
        rw [braces kind]
        exact .inl (spreadAttr_keeps sparing kind)
  | value =>
      simp only [Role.isOpening, Bool.false_eq_true, if_false, true_and]
      simp only [plan] at planned
      split at planned
      · rename_i kind
        cases planned
        rw [braces (beq_iff_eq.1 kind)]
        exact .inl (container_keeps own (beq_iff_eq.1 kind))
      · exact plain planned

end

end JsxBoundary.Concrete
