import JsxBoundary.Proofs.RewriteText
import JsxBoundary.Proofs.Suppression

namespace JsxBoundary

inductive Origin where
  | given (path : List Nat)
  | made (children : List Origin)

namespace Origin

def child : Origin → Nat → Origin
  | given path, i => given (path ++ [i])
  | made children, i => children[i]?.getD (made [])

def tag : Origin :=
  made [made []]

/-- The origin of the container `{() => body}`. -/
def thunk (body : Origin) : Origin :=
  made [made [body]]

/-- The origin of `<component>{() => expression}</component>`. -/
def boundary (expression : Origin) : Origin :=
  made [tag, expression.thunk, tag]

def keptPlaces (content : List Node) : List (Node × Nat) :=
  (content.zipIdx 1).filter (!·.1.isBlankText)

def deferredBody (content : List Node) (path : List Nat) : Origin :=
  match keptPlaces content with
  | [(c, i)] => if c.isElement then given (path ++ [i]) else given (path ++ [i] ++ [0])
  | kept => made (kept.map fun (_, i) => given (path ++ [i]))

def deferral (content : List Node) (closing : Option Node) (path : List Nat) : Origin :=
  made (given (path ++ [0]) :: (deferredBody content path).thunk ::
    closing.toList.map fun _ => given (path ++ [content.length + 1]))

def onward (s : Settings) (n : Node) (inserted : Bool) : Origin → Origin
  | given path =>
    match n.form with
    | .container _ => if inserted then boundary (given (path ++ [0])) else given path
    | .element _ content closing =>
      if (n.deferral? s).isSome then deferral content closing path else given path
    | _ => given path
  | made children => made children

end Origin

namespace Node

variable {s : Settings} {root n m : Node} {ancestors : Ancestors} {log : List Action} {c : Choice}
  {origin : Origin} {path : List Nat} {i : Nat}

theorem get?_append (n : Node) (path rest : List Nat) :
    n.get? (path ++ rest) = (n.get? path).bind (·.get? rest) := by
  induction path generalizing n with
  | nil => rfl
  | cons i path ih =>
      rw [List.cons_append, get?_cons, get?_cons, Option.bind_assoc]
      exact Option.bind_congr fun c _ => ih c

structure Inert (n : Node) : Prop where
  element : n.isElement = false
  container : ∀ e, n.form = .container e → e.isFunction = true

inductive Traced (root : Node) : Origin → Node → Prop
  | given {path : List Nat} {n : Node} (found : root.get? path = some n) : Traced root (.given path) n
  | made {children : List Origin} {n : Node} (inert : n.Inert)
      (length : children.length = n.children.length)
      (each : ∀ (i : Nat) (a : Node) (origin : Origin), n.children[i]? = some a →
        children[i]? = some origin → Traced root origin a) : Traced root (.made children) n

namespace Traced

theorem of_children {children : List Origin} (inert : n.Inert)
    (below : Pointwise (fun a origin => Traced root origin a) n.children children) :
    Traced root (.made children) n :=
  .made inert below.length below.each

theorem child (traced : Traced root origin n) {a : Node} (found : n.children[i]? = some a) :
    Traced root (origin.child i) a := by
  cases traced with
  | given at' =>
      refine .given ?_
      rw [get?_append, at', Option.bind_some, get?_cons, found]
      rfl
  | made inert length each =>
      have bound : i < n.children.length := (List.getElem?_eq_some_iff.1 found).1
      have there := List.getElem?_eq_getElem (length ▸ bound)
      rw [Origin.child, there]
      exact each i a _ found there

theorem tag {form : Form Node} {name : String} (children : form.children = [fresh (.identifier name)])
    (plain : (fresh form).isElement = false) (free : (fresh form).contained? = none) :
    Traced root .tag (fresh form) := by
  refine .of_children ⟨plain, fun e held => ?_⟩ ?_
  · rw [contained?, held] at free
    cases free
  · rw [show (fresh form).children = [fresh (.identifier name)] from children]
    exact .cons (.of_children ⟨rfl, fun _ held => by cases held⟩ .nil) .nil

theorem thunk {body : Node} (traced : Traced root origin body) (source : Option Node) :
    Traced root origin.thunk (body.thunk source) := by
  obtain ⟨layout, form⟩ := form_thunk body source
  have arrow : Traced root (.made [origin]) (mk (.arrow body none) layout) :=
    .of_children ⟨rfl, fun _ held => by cases held⟩ (.cons traced .nil)
  refine .of_children ⟨by simp [isElement, form], fun e held => ?_⟩ ?_
  · rw [form] at held
    cases held
    rfl
  · rw [children, form]
    exact .cons arrow .nil

end Traced

theorem keptContent_eq_map (content : List Node) (start : Nat) :
    keptContent content = ((content.zipIdx start).filter (!·.1.isBlankText)).map (·.1) := by
  induction content generalizing start with
  | nil => rfl
  | cons c content ih =>
      rw [keptContent_cons, List.zipIdx_cons, List.filter_cons, ih (start + 1)]
      cases c.isBlankText <;> rfl

theorem child_of_keptPlaces {opening : Node} {content : List Node} {closing : Option Node}
    (form : n.form = .element (some opening) content closing) {a : Node}
    (member : (a, i) ∈ Origin.keptPlaces content) : n.children[i]? = some a := by
  have listed := (List.mem_filter.1 member).1
  rw [List.mem_zipIdx_iff_le_and_getElem?_sub] at listed
  obtain ⟨first, found⟩ := listed
  obtain ⟨j, rfl⟩ : ∃ j, i = j + 1 := ⟨i - 1, by omega⟩
  rw [Nat.add_sub_cancel] at found
  have bound : j < content.length := (List.getElem?_eq_some_iff.1 found).1
  rw [children, form]
  simp [Form.children, List.getElem?_append_left bound, found]

theorem container_of_deferredBody {c body fragment : Node} (plain : c.isElement = false)
    (made : deferredBody? [c] fragment = some body) : c.form = .container body := by
  obtain ⟨form, layout⟩ := c
  cases form with
  | element => cases plain
  | container e =>
      simp only [deferredBody?, form_mk] at made
      split at made <;> cases made
      rfl
  | _ => cases made

theorem deferredBody?_several {kept : List Node} (several : ∀ c, kept ≠ [c]) (fragment : Node) :
    deferredBody? kept fragment = some fragment := by
  unfold deferredBody?
  split
  · exact absurd rfl (several _)
  · rfl

namespace Traced

theorem deferredBody {opening body : Node} {content : List Node} {closing : Option Node}
    (found : root.get? path = some n) (form : n.form = .element (some opening) content closing)
    (made : deferredBody? (keptContent content) (n.keptFragment content) = some body) :
    Traced root (.deferredBody content path) body := by
  have kept := keptContent_eq_map content 1
  rw [← Origin.keptPlaces] at kept
  have places : ∀ a i, (a, i) ∈ Origin.keptPlaces content → Traced root (.given (path ++ [i])) a :=
    fun a i member => (given found).child (child_of_keptPlaces form member)
  unfold Origin.deferredBody
  split
  · rename_i c i lone
    have here := places c i (by rw [lone]; exact .head _)
    rw [kept, lone, List.map_singleton] at made
    split
    · rename_i element
      obtain ⟨_, _, _, _, rfl⟩ := eq_mk_of_isElement element
      cases made
      exact here
    · rename_i plain
      have held := container_of_deferredBody (Bool.eq_false_iff.2 plain) made
      exact here.child (i := 0) (by simp [children, held, Form.children])
  · rename_i several
    rw [deferredBody?_several fun c same => ?_] at made
    · cases made
      refine of_children ⟨rfl, fun _ held => by cases held⟩ ⟨?_, fun j a origin found found' => ?_⟩
      · simp [keptFragment, children, Form.children, kept]
      · change (keptContent content)[j]? = some a at found
        rw [kept, List.getElem?_map, Option.map_eq_some_iff] at found
        obtain ⟨⟨a, i⟩, listed, rfl⟩ := found
        rw [List.getElem?_map, listed] at found'
        cases found'
        exact places a i (List.mem_of_getElem? listed)
    · rw [kept, List.map_eq_singleton_iff] at same
      obtain ⟨⟨c, i⟩, lone, _⟩ := same
      exact several c i lone

end Traced

def Descends (root : Node) (origin : Origin) (n : Node) : Prop :=
  ∀ (i : Nat) (a : Node), n.children[i]? = some a → Traced root (origin.child i) a

namespace Descends

theorem of_children {origins : List Origin}
    (below : Pointwise (fun a origin => Traced root origin a) n.children origins) :
    Descends root (.made origins) n := by
  intro i a found
  have bound : i < n.children.length := (List.getElem?_eq_some_iff.1 found).1
  have there := List.getElem?_eq_getElem (below.length ▸ bound)
  rw [Origin.child, there]
  exact below.each i a _ found there

theorem boundary {e : Node} (traced : Traced root origin e) (component : String)
    (source : Option Node) : Descends root origin.boundary (e.boundary component source) := by
  refine of_children ?_
  rw [children_boundary]
  exact .cons (.tag rfl rfl rfl) (.cons (traced.thunk source) (.cons (.tag rfl rfl rfl) .nil))

theorem deferral {opening body : Node} {content : List Node} {closing : Option Node}
    (found : root.get? path = some n) (form : n.form = .element (some opening) content closing)
    (made : deferredBody? (keptContent content) (n.keptFragment content) = some body)
    (source : Option Node) : Descends root (.deferral content closing path)
      (fresh (.element (some opening) [body.thunk source] closing)) := by
  have below := fun i a (there : n.children[i]? = some a) => (Traced.given found).child there
  have children : n.children = opening :: content ++ closing.toList := by
    rw [Node.children, form]
    rfl
  refine of_children (.cons (below 0 opening (by rw [children]; rfl))
    (.cons ((Traced.deferredBody found form made).thunk source) ?_))
  cases closing with
  | none => exact .nil
  | some c => exact .cons (below (content.length + 1) c (by simp [children])) .nil

end Descends

theorem Chosen.of_inert (chosen : Chosen s ancestors n c) (inert : n.Inert) :
    c = ⟨n, false, true, []⟩ := by
  cases held : n.contained? with
  | none => exact chosen.of_other inert.element held
  | some e =>
      have form : n.form = .container e := by
        unfold contained? at held
        split at held
        · cases held
          assumption
        · cases held
      exact chosen.of_quiet form (containsRead_of_isFunction (inert.container e form))

theorem Chosen.descends (chosen : Chosen s ancestors n c) (traced : Traced root origin n)
    (onward : c.descend = true) : Descends root (origin.onward s n c.inserted) c.node := by
  cases traced with
  | made inert length each =>
      cases chosen.of_inert inert
      exact fun i a => (Traced.made inert length each).child
  | @given path _ found =>
      have below : Descends root (.given path) n := fun i a => (Traced.given found).child
      cases chosen with
      | other element contained =>
          have same : (Origin.given path).onward s n false = .given path := by
            obtain ⟨form, layout⟩ := n
            cases form with
            | element => cases element
            | _ => rfl
          rwa [same]
      | container held =>
          simp only [Origin.onward, held]
          exact below
      | boundary held =>
          simp only [Origin.onward, held, if_true]
          exact .boundary (below 0 _ (by simp [children, held, Form.children])) _ _
      | element element deferring =>
          obtain ⟨opening, content, closing, layout, rfl⟩ := eq_mk_of_isElement element
          cases deferring with
          | stays pending =>
              simp only [Origin.onward, form_mk, pending]
              exact below
          | deferred made =>
              obtain ⟨_, _, _, body, form, _, _, _, body?, rfl⟩ :=
                deferChildren?_some (deferral?_some made)
              cases form
              simp only [Origin.onward, form_mk, made, Option.isSome_some, if_true]
              exact .deferral found rfl body? _
      | whole => cases onward

end Node

/-- A boundary, and where in the given tree the node stands that it was made for. -/
structure Wrapping where
  place : List Nat
  action : Action

/-- At the place there is a container or an element, and the boundary is the one around it. -/
inductive Wrapping.Around (s : Settings) (root : Node) : Wrapping → Prop
  | container {place : List Nat} {n e : Node} {before after : String} (found : root.get? place = some n)
      (held : n.form = .container e) (hb : n.print = .ok before)
      (ha : (e.boundary s.componentName (some n)).print = .ok after) :
      Around s root ⟨place, .boundary n.typeName before after⟩
  | element {place : List Nat} {n m : Node} {before after : String} (found : root.get? place = some n)
      (element : n.isElement = true) (start : n.MayDefer s m) (hb : m.print = .ok before)
      (ha : (m.boundary s.componentName none).print = .ok after) :
      Around s root ⟨place, .boundary m.typeName before after⟩

def Origin.wrappings (actions : List Action) : Origin → List Wrapping
  | given path => (actions.filter Action.isBoundary).map (Wrapping.mk path)
  | made _ => []

namespace Node

variable {s : Settings} {root n m : Node} {ancestors : Ancestors} {log : List Action} {c : Choice}
  {origin : Origin}

/-- The rewrite of `n`, which is of this origin, puts these nodes of the given tree behind boundaries. -/
inductive Wraps (s : Settings) (root : Node) : Ancestors → Node → Origin → List Wrapping → Prop
  | stop {ancestors : Ancestors} {n : Node} {origin : Origin} {c : Choice}
      (traced : Traced root origin n) (chosen : Chosen s ancestors n c) (stays : c.descend = false) :
      Wraps s root ancestors n origin (origin.wrappings c.actions)
  | onward {ancestors : Ancestors} {n : Node} {origin : Origin} {c : Choice}
      {results : List (List Wrapping)} (traced : Traced root origin n)
      (chosen : Chosen s ancestors n c) (descends : c.descend = true)
      (length : results.length = c.node.children.length)
      (each : ∀ (i : Nat) (a : Node) (r : List Wrapping), c.node.children[i]? = some a →
        results[i]? = some r →
        Wraps s root (c.node :: ancestors) a ((origin.onward s n c.inserted).child i) r) :
      Wraps s root ancestors n origin (origin.wrappings c.actions ++ results.flatten)

theorem Chosen.wrappings (chosen : Chosen s ancestors n c) (traced : Traced root origin n) :
    (origin.wrappings c.actions).map (·.action) = c.actions.filter Action.isBoundary := by
  cases traced with
  | given => exact (List.map_map ..).trans (List.map_id _)
  | made inert =>
      cases chosen.of_inert inert
      rfl

theorem Chosen.wrappings_around (chosen : Chosen s ancestors n c) (traced : Traced root origin n)
    {x : Wrapping} (member : x ∈ origin.wrappings c.actions) : x.Around s root := by
  cases traced with
  | made => cases member
  | given found =>
      obtain ⟨action, listed, rfl⟩ := List.mem_map.1 member
      cases chosen with
      | other | container => cases listed
      | boundary held _ _ _ before after =>
          cases List.mem_singleton.1 listed
          exact .container found held before after
      | element _ deferring =>
          rw [deferring.noBoundary] at listed
          cases listed
      | whole element deferring _ _ _ before after =>
          rw [deferring.filter_append] at listed
          cases List.mem_singleton.1 listed
          exact .element found element deferring.mayDefer before after

theorem Rewrites.wraps (rewrites : Rewrites s ancestors n m log) (traced : Traced root origin n) :
    ∃ wrappings, Wraps s root ancestors n origin wrappings ∧
      wrappings.map (·.action) = log.filter Action.isBoundary := by
  induction rewrites generalizing origin with
  | stop chosen stays => exact ⟨_, .stop traced chosen stays, chosen.wrappings traced⟩
  | @onward ancestors n c results chosen descends length each ih =>
      have below : ∀ i : Fin results.length, ∃ wrappings,
          (∀ a, c.node.children[i.1]? = some a → Wraps s root (c.node :: ancestors) a
            ((origin.onward s n c.inserted).child i) wrappings) ∧
          wrappings.map (·.action) = results[i].2.filter Action.isBoundary := by
        intro i
        have bound : i.1 < c.node.children.length := length ▸ i.2
        have found := List.getElem?_eq_getElem bound
        obtain ⟨wrappings, wraps, actions⟩ := ih i _ _ found (List.getElem?_eq_getElem i.2)
          (chosen.descends traced descends i _ found)
        refine ⟨wrappings, fun a found' => ?_, actions⟩
        cases found.symm.trans found'
        exact wraps
      choose f wraps actions using below
      refine ⟨origin.wrappings c.actions ++ (List.ofFn f).flatten,
        .onward traced chosen descends (by simp [length]) ?_, ?_⟩
      · intro i a r found found'
        obtain ⟨bound, rfl⟩ := List.getElem?_eq_some_iff.1 found'
        rw [List.getElem_ofFn]
        exact wraps ⟨i, by simpa using bound⟩ a found
      · rw [List.map_append, List.filter_append, chosen.wrappings traced, List.map_flatten,
          List.map_ofFn, List.filter_flatMap, List.flatMap_def]
        congr 2
        exact List.ext_getElem (by simp) fun i _ _ => by simp [actions]

theorem Wraps.around {wrappings : List Wrapping} (wraps : Wraps s root ancestors n origin wrappings) :
    ∀ x ∈ wrappings, x.Around s root := by
  induction wraps with
  | stop traced chosen => exact fun x => chosen.wrappings_around traced
  | @onward ancestors n origin c results traced chosen _ length _ ih =>
      intro x member
      rcases List.mem_append.1 member with own | below
      · exact chosen.wrappings_around traced own
      · obtain ⟨r, listed, member⟩ := List.mem_flatten.1 below
        obtain ⟨i, bound, rfl⟩ := List.getElem_of_mem listed
        have bound' : i < c.node.children.length := length ▸ bound
        exact ih i _ _ (List.getElem?_eq_getElem bound') (List.getElem?_eq_getElem bound) x member

end Node

end JsxBoundary
