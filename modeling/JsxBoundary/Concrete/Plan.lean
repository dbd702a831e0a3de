import JsxBoundary.Concrete.Basic
import JsxBoundary.Tree.Node
import JsxBoundary.Fault

/-!
# Plans

For each construct `Concrete.plan` says how a concrete node becomes a node: which concrete nodes fill
its slots, in which role each is read, and which form the results make. A construct that lacks a part
it needs is kept as a generic one.

A slot is smaller than the node it belongs to, or is the opening tag that a self-closing element
consists of (`Concrete.below_of_mem_slots`).
-/

namespace JsxBoundary.Concrete

def slice (source : ByteArray) (start stop : Nat) : Except Fault String :=
  match String.fromUTF8? (source.extract start stop) with
  | some text => .ok text
  | none => .error .splitCharacter

def text (source : ByteArray) (n : Concrete) : Except Fault String :=
  slice source n.start n.stop

def unquoted (source : ByteArray) (n : Concrete) : Except Fault String := do
  let quoted ← n.text source
  return String.ofList (quoted.toList.dropLast.drop 1)

inductive Role where
  | plain
  | content
  | tagName
  | opening (selfClosing : Bool)
  | closing
  | attr
  | value
  deriving DecidableEq

structure Slot where
  role : Role
  node : Concrete
  index : Nat

structure Plan where
  slots : List Slot
  form : List Node → Form Node
  whole : Bool := false

def slotsFrom (role : Role) (index : Nat) (nodes : List Concrete) : List Slot :=
  nodes.mapIdx fun i n => ⟨role, n, index + i⟩

def identifierKinds : List String :=
  ["identifier", "property_identifier", "shorthand_property_identifier",
    "private_property_identifier"]

def functionKinds : List String :=
  ["function_expression", "function", "function_declaration", "generator_function",
    "generator_function_declaration", "method_definition"]

def textKinds : List String :=
  ["jsx_text", "html_character_reference"]

namespace Plan

def generic (n : Concrete) : Plan where
  slots := slotsFrom .plain 0 n.named
  form := .generic n.kind

def leaf (form : Form Node) : Plan where
  slots := []
  form _ := form
  whole := true

def single (n : Concrete) (role : Role) (inner : Concrete) (form : Node → Form Node) : Plan where
  slots := [⟨role, inner, 0⟩]
  form := fun
    | node :: _ => form node
    | [] => .generic n.kind []

def function (n : Concrete) : Plan where
  slots := slotsFrom .plain 0 n.named
  form := .function n.kind

def member (n : Concrete) (propertyField : String) (computed : Bool) : Plan :=
  match n.field? "object", n.field? propertyField with
  | some object, some property =>
    let optional := n.children.any fun c => c.kind == "optional_chain" || c.kind == "?."
    { slots := slotsFrom .plain 0 [object, property]
      form := fun
        | [object, property] => .member object property computed optional
        | nodes => .generic n.kind nodes }
  | _, _ => generic n

def call (n : Concrete) : Plan :=
  match n.field? "function", n.field? "arguments" with
  | some callee, some arguments =>
    if arguments.kind == "arguments" then
      let optional := n.children.any fun c => c.kind == "optional_chain" || c.kind == "?."
      { slots := slotsFrom .plain 0 (callee :: arguments.parts)
        form := fun
          | callee :: arguments => .call callee arguments optional
          | [] => .generic n.kind [] }
    else generic n
  | _, _ => generic n

/-- An arrow function. Its parameters are read before its body, which is the first child. -/
def arrow (n : Concrete) : Plan :=
  match n.field? "body", n.field? "parameters" <|> n.field? "parameter" with
  | some body, some params =>
    { slots := [⟨.plain, params, 1⟩, ⟨.plain, body, 0⟩]
      form := fun
        | [params, body] => .arrow body (some params)
        | nodes => .generic n.kind nodes }
  | some body, none =>
    single n .plain body (.arrow · none)
  | none, _ => generic n

def parens (n : Concrete) : Plan :=
  match n.parts with
  | [inner] => single n .plain inner .parens
  | _ => generic n

def fragment (content : List Concrete) : Plan where
  slots := slotsFrom .content 0 content
  form := .fragment

def elementTags (n : Concrete) : Option Concrete × Option Concrete :=
  (n.field? "open_tag" <|> n.named.find? (·.kind == "jsx_opening_element"),
    n.field? "close_tag" <|> n.named.find? (·.kind == "jsx_closing_element"))

def element (n : Concrete) : Plan :=
  match elementTags n with
  | (none, _) => generic n
  | (some opening, closing) =>
    let content := n.parts.filter fun c => !c.sameAs opening && !closing.any c.sameAs
    if (opening.field? "name").isNone then fragment content else
    { slots := ⟨.opening false, opening, 0⟩ :: slotsFrom .content 1 content
        ++ slotsFrom .closing (content.length + 1) closing.toList
      form := fun
        | opening :: nodes =>
          .element (some opening) (nodes.take content.length) nodes[content.length]?
        | [] => .generic n.kind [] }

def selfClosing (n : Concrete) : Plan :=
  single n (.opening true) n fun opening => .element (some opening) [] none

/-- `{expression}`; without an expression there is an empty slot that the text does not show. -/
def container (n : Concrete) : Plan :=
  match n.parts with
  | [] => leaf (.container (.mk .emptyExpression (some [])))
  | inner :: _ => single n .plain inner .container

def opening (n : Concrete) (selfClosing : Bool) : Except Fault Plan :=
  match n.field? "name" with
  | none => .error .missingPart
  | some name =>
    let attributes := n.named.filter fun c =>
      !c.sameAs name && (c.kind == "jsx_attribute" || c.kind == "jsx_expression")
    .ok
      { slots := ⟨.tagName, name, 0⟩ :: slotsFrom .attr 1 attributes
        form := fun
          | name :: attributes => .openingTag name attributes selfClosing
          | [] => .generic n.kind [] }

def closing (n : Concrete) : Plan :=
  match n.field? "name" with
  | none => leaf (.closingTag (.fresh (.identifier "")))
  | some name => single n .tagName name .closingTag

def attr (source : ByteArray) (n : Concrete) : Except Fault Plan := do
  let name ← (n.parts.head?.map (text source)).getD (.ok "")
  match n.parts with
  | _ :: value :: _ => return single n .value value fun value => .attr name (some value)
  | _ => return leaf (.attr name none)

def spreadAttr (n : Concrete) : Plan :=
  match n.parts with
  | spread :: _ =>
    match spread.kind == "spread_element", spread.parts with
    | true, argument :: _ => single n .plain argument .spreadAttr
    | _, _ => generic n
  | [] => generic n

end Plan

def specifier? (source : ByteArray) (n : Concrete) : Except Fault (Option Node) :=
  match n.kind == "import_specifier", n.field? "name" with
  | true, some name => do
    let imported ← if name.kind == "string" then name.unquoted source else name.text source
    let binding ← ((n.field? "alias").map (text source)).getD (.ok imported)
    let whole ← n.text source
    return some (.mk (.importSpecifier imported binding) (some [.text whole]))
  | _, _ => .ok none

/-- What an import clause binds so far: the named bindings, the default one and the namespace. -/
structure Bindings where
  specifiers : List Node := []
  defaultName? : Option String := none
  namespaceName? : Option String := none

def Bindings.add (source : ByteArray) (b : Bindings) (part : Concrete) : Except Fault Bindings :=
  match part.kind with
  | "identifier" => return { b with defaultName? := some (← part.text source) }
  | "namespace_import" =>
    match part.named.find? (·.kind == "identifier") with
    | some name => return { b with namespaceName? := some (← name.text source) }
    | none => .ok b
  | "named_imports" => do
    let specifiers ← part.named.mapM (specifier? source)
    return { b with specifiers := b.specifiers ++ specifiers.flatMap Option.toList }
  | _ => .ok b

def importPlan (source : ByteArray) (n path : Concrete) : Except Fault Plan := do
  let path ← path.unquoted source
  let clause := n.named.find? (·.kind == "import_clause")
  let b ← (clause.elim [] named).foldlM (Bindings.add source) {}
  return Plan.leaf (.importDecl path b.specifiers b.defaultName? b.namespaceName?)

def plainPlan (source : ByteArray) (n : Concrete) : Except Fault Plan :=
  if identifierKinds.contains n.kind then
    return Plan.leaf (.identifier (← n.text source))
  else if functionKinds.contains n.kind then return Plan.function n
  else match n.kind with
  | "import_statement" =>
    match n.field? "source" with
    | some path => importPlan source n path
    | none => return Plan.generic n
  | "member_expression" => return Plan.member n "property" false
  | "subscript_expression" => return Plan.member n "index" true
  | "call_expression" => return Plan.call n
  | "arrow_function" => return Plan.arrow n
  | "parenthesized_expression" => return Plan.parens n
  | "jsx_element" => return Plan.element n
  | "jsx_fragment" => return Plan.fragment n.parts
  | "jsx_self_closing_element" => return Plan.selfClosing n
  | _ => return Plan.generic n

def plan (source : ByteArray) (role : Role) (n : Concrete) : Except Fault Plan :=
  match role with
  | .plain => plainPlan source n
  | .content =>
    if textKinds.contains n.kind then return Plan.leaf (.text (← n.text source))
    else if n.kind == "jsx_expression" then
      if n.parts.head?.any (·.kind == "spread_element") then return Plan.generic n
      else return Plan.container n
    else plainPlan source n
  | .tagName =>
    if n.kind == "identifier" || n.kind == "member_expression" then plainPlan source n
    else return Plan.generic n
  | .opening selfClosing => Plan.opening n selfClosing
  | .closing => return Plan.closing n
  | .attr =>
    if n.kind == "jsx_attribute" then Plan.attr source n else return Plan.spreadAttr n
  | .value => if n.kind == "jsx_expression" then return Plan.container n else plainPlan source n

def Role.rank : Role → Nat
  | .opening _ => 0
  | _ => 1

def Slot.Below (slot : Slot) (n : Concrete) (role : Role) : Prop :=
  sizeOf slot.node < sizeOf n ∨ slot.node = n ∧ slot.role.rank < role.rank

theorem below_of_mem_slotsFrom {n : Concrete} {role role' : Role} {index : Nat}
    {nodes : List Concrete} {slot : Slot} (hn : ∀ c ∈ nodes, sizeOf c < sizeOf n)
    (h : slot ∈ slotsFrom role' index nodes) : slot.Below n role := by
  obtain ⟨i, hi, rfl⟩ := List.mem_mapIdx.1 h
  exact .inl (hn _ (List.getElem_mem hi))

theorem below_of_mem_single {n inner : Concrete} {role role' : Role} {form : Node → Form Node}
    {slot : Slot} (hn : sizeOf inner < sizeOf n)
    (h : slot ∈ (Plan.single n role' inner form).slots) : slot.Below n role := by
  cases List.mem_singleton.1 h
  exact .inl hn

theorem below_of_mem_generic {n : Concrete} {role : Role} {slot : Slot}
    (h : slot ∈ (Plan.generic n).slots) : slot.Below n role :=
  below_of_mem_slotsFrom
    (fun _ hc => sizeOf_lt_of_mem_children (mem_children_of_mem_named hc)) h

theorem sizeOf_lt_of_field? {n c : Concrete} {name : String} (h : n.field? name = some c) :
    sizeOf c < sizeOf n :=
  sizeOf_lt_of_mem_children (mem_children_of_field? h)

theorem sizeOf_lt_of_mem_parts {n c : Concrete} (h : c ∈ n.parts) : sizeOf c < sizeOf n :=
  sizeOf_lt_of_mem_children (mem_children_of_mem_parts h)

theorem mem_children_of_elementTags {n c : Concrete}
    (h : (Plan.elementTags n).1 = some c ∨ (Plan.elementTags n).2 = some c) : c ∈ n.children := by
  simp only [Plan.elementTags, Option.orElse_eq_orElse, Option.orElse_eq_or,
    Option.or_eq_some_iff] at h
  rcases h with (h | ⟨_, h⟩) | (h | ⟨_, h⟩)
  · exact mem_children_of_field? h
  · exact mem_children_of_mem_named (List.mem_of_find?_eq_some h)
  · exact mem_children_of_field? h
  · exact mem_children_of_mem_named (List.mem_of_find?_eq_some h)

theorem below_of_mem_member {n : Concrete} {role : Role} {field : String} {computed : Bool}
    {slot : Slot} (h : slot ∈ (Plan.member n field computed).slots) : slot.Below n role := by
  unfold Plan.member at h
  split at h
  · rename_i object property ho hp
    refine below_of_mem_slotsFrom (fun c hc => ?_) h
    simp only [List.mem_cons, List.not_mem_nil, or_false] at hc
    rcases hc with rfl | rfl
    · exact sizeOf_lt_of_field? ho
    · exact sizeOf_lt_of_field? hp
  · exact below_of_mem_generic h

theorem below_of_mem_call {n : Concrete} {role : Role} {slot : Slot}
    (h : slot ∈ (Plan.call n).slots) : slot.Below n role := by
  unfold Plan.call at h
  split at h
  · rename_i callee arguments hc ha
    split at h
    · refine below_of_mem_slotsFrom (fun c hm => ?_) h
      rcases List.mem_cons.1 hm with rfl | hm
      · exact sizeOf_lt_of_field? hc
      · exact Nat.lt_trans (sizeOf_lt_of_mem_parts hm) (sizeOf_lt_of_field? ha)
    · exact below_of_mem_generic h
  · exact below_of_mem_generic h

theorem below_of_mem_arrow {n : Concrete} {role : Role} {slot : Slot}
    (h : slot ∈ (Plan.arrow n).slots) : slot.Below n role := by
  unfold Plan.arrow at h
  split at h
  · rename_i body params hb hp
    have hp : sizeOf params < sizeOf n := by
      simp only [Option.orElse_eq_orElse, Option.orElse_eq_or, Option.or_eq_some_iff] at hp
      rcases hp with hp | ⟨_, hp⟩ <;> exact sizeOf_lt_of_field? hp
    simp only [List.mem_cons, List.not_mem_nil, or_false] at h
    rcases h with rfl | rfl
    · exact .inl hp
    · exact .inl (sizeOf_lt_of_field? hb)
  · rename_i hb _
    exact below_of_mem_single (sizeOf_lt_of_field? hb) h
  · exact below_of_mem_generic h

theorem below_of_mem_parens {n : Concrete} {role : Role} {slot : Slot}
    (h : slot ∈ (Plan.parens n).slots) : slot.Below n role := by
  unfold Plan.parens at h
  split at h
  · rename_i hp
    exact below_of_mem_single (sizeOf_lt_of_mem_parts (hp ▸ List.mem_cons_self)) h
  · exact below_of_mem_generic h

theorem below_of_mem_container {n : Concrete} {role : Role} {slot : Slot}
    (h : slot ∈ (Plan.container n).slots) : slot.Below n role := by
  unfold Plan.container at h
  split at h
  · cases h
  · rename_i hp
    exact below_of_mem_single (sizeOf_lt_of_mem_parts (hp ▸ List.mem_cons_self)) h

theorem below_of_mem_element {n : Concrete} {role : Role} {slot : Slot}
    (h : slot ∈ (Plan.element n).slots) : slot.Below n role := by
  unfold Plan.element at h
  split at h
  · exact below_of_mem_generic h
  · rename_i opening closing ht
    have content : ∀ c ∈ n.parts.filter fun c => !c.sameAs opening && !closing.any c.sameAs,
        sizeOf c < sizeOf n := fun c hc => sizeOf_lt_of_mem_parts (List.mem_filter.1 hc).1
    dsimp only at h
    split at h
    · exact below_of_mem_slotsFrom content h
    · simp only [List.cons_append, List.mem_cons, List.mem_append] at h
      rcases h with rfl | h | h
      · exact .inl (sizeOf_lt_of_mem_children (mem_children_of_elementTags (.inl (by rw [ht]))))
      · exact below_of_mem_slotsFrom content h
      · refine below_of_mem_slotsFrom (fun c hc => ?_) h
        exact sizeOf_lt_of_mem_children (mem_children_of_elementTags (.inr (by rw [ht]; simpa using hc)))

theorem below_of_mem_opening {n : Concrete} {role : Role} {selfClosing : Bool} {p : Plan}
    {slot : Slot} (hp : Plan.opening n selfClosing = .ok p) (h : slot ∈ p.slots) :
    slot.Below n role := by
  unfold Plan.opening at hp
  split at hp <;> cases hp
  rename_i hn
  rcases List.mem_cons.1 h with rfl | h
  · exact .inl (sizeOf_lt_of_field? hn)
  · exact below_of_mem_slotsFrom (fun c hc => sizeOf_lt_of_mem_children
      (mem_children_of_mem_named (List.mem_filter.1 hc).1)) h

theorem below_of_mem_closing {n : Concrete} {role : Role} {slot : Slot}
    (h : slot ∈ (Plan.closing n).slots) : slot.Below n role := by
  unfold Plan.closing at h
  split at h
  · cases h
  · rename_i hn
    exact below_of_mem_single (sizeOf_lt_of_field? hn) h

theorem below_of_mem_attr {source : ByteArray} {n : Concrete} {role : Role} {p : Plan}
    {slot : Slot} (hp : Plan.attr source n = .ok p) (h : slot ∈ p.slots) : slot.Below n role := by
  simp only [Plan.attr, bind, Except.bind] at hp
  split at hp
  · cases hp
  · split at hp <;> cases hp
    · rename_i hs
      exact below_of_mem_single (sizeOf_lt_of_mem_parts (hs ▸ by simp)) h
    · cases h

theorem below_of_mem_spreadAttr {n : Concrete} {role : Role} {slot : Slot}
    (h : slot ∈ (Plan.spreadAttr n).slots) : slot.Below n role := by
  unfold Plan.spreadAttr at h
  split at h
  · rename_i spread _ hs
    have hs : sizeOf spread < sizeOf n := sizeOf_lt_of_mem_parts (hs ▸ List.mem_cons_self)
    split at h
    · rename_i argument _ _ ha
      have : sizeOf argument < sizeOf spread :=
        sizeOf_lt_of_mem_parts (ha ▸ List.mem_cons_self)
      exact below_of_mem_single (Nat.lt_trans this hs) h
    · exact below_of_mem_generic h
  · exact below_of_mem_generic h

theorem slots_of_importPlan {source : ByteArray} {n path : Concrete} {p : Plan}
    (hp : importPlan source n path = .ok p) : p.slots = [] := by
  simp only [importPlan, bind, Except.bind] at hp
  split at hp
  · cases hp
  · split at hp <;> cases hp
    rfl

theorem below_of_mem_plainPlan {source : ByteArray} {n : Concrete} {p : Plan} {slot : Slot}
    {role : Role} (hr : 0 < role.rank) (hp : plainPlan source n = .ok p) (h : slot ∈ p.slots) :
    slot.Below n role := by
  unfold plainPlan at hp
  split at hp
  · simp only [bind, Except.bind] at hp
    split at hp <;> cases hp
    cases h
  split at hp
  · cases hp
    exact below_of_mem_generic h
  split at hp
  · split at hp
    · rw [slots_of_importPlan hp] at h
      cases h
    · cases hp
      exact below_of_mem_generic h
  all_goals cases hp
  · exact below_of_mem_member h
  · exact below_of_mem_member h
  · exact below_of_mem_call h
  · exact below_of_mem_arrow h
  · exact below_of_mem_parens h
  · exact below_of_mem_element h
  · exact below_of_mem_slotsFrom (fun _ hc => sizeOf_lt_of_mem_parts hc) h
  · cases List.mem_singleton.1 h
    exact .inr ⟨rfl, hr⟩
  · exact below_of_mem_generic h

theorem below_of_mem_slots {source : ByteArray} {role : Role} {n : Concrete} {p : Plan}
    {slot : Slot} (h : plan source role n = .ok p) (hs : slot ∈ p.slots) : slot.Below n role := by
  cases role with
  | plain => exact below_of_mem_plainPlan Nat.one_pos h hs
  | opening selfClosing => exact below_of_mem_opening h hs
  | closing => cases h; exact below_of_mem_closing hs
  | content =>
    simp only [plan] at h
    split at h
    · simp only [bind, Except.bind] at h
      split at h <;> cases h
      cases hs
    split at h
    · split at h <;> cases h
      · exact below_of_mem_generic hs
      · exact below_of_mem_container hs
    · exact below_of_mem_plainPlan Nat.one_pos h hs
  | tagName =>
    simp only [plan] at h
    split at h
    · exact below_of_mem_plainPlan Nat.one_pos h hs
    · cases h; exact below_of_mem_generic hs
  | attr =>
    simp only [plan] at h
    split at h
    · exact below_of_mem_attr h hs
    · cases h; exact below_of_mem_spreadAttr hs
  | value =>
    simp only [plan] at h
    split at h
    · cases h; exact below_of_mem_container hs
    · exact below_of_mem_plainPlan Nat.one_pos h hs

end JsxBoundary.Concrete
