import JsxBoundary.Proofs.Assembly

namespace JsxBoundary

/-- What the rewrite looks for. -/
inductive Construct where
  | element
  | fragment
  | call
  deriving DecidableEq

def Form.construct? {α : Type} : Form α → Option Construct
  | .element _ _ _ => some .element
  | .fragment _ => some .fragment
  | .call _ _ _ => some .call
  | _ => none

def Node.construct? (n : Node) : Option Construct :=
  n.form.construct?

namespace Concrete

/-- The node at the end of a path of child numbers. -/
def get? : Concrete → List Nat → Option Concrete
  | n, [] => some n
  | n, i :: path => n.children[i]?.bind (·.get? path)

/-- The construct that the node stands for. An element whose opening tag has no name is a fragment; a call
has its arguments in parentheses. -/
def construct? (n : Concrete) : Option Construct :=
  match n.kind with
  | "jsx_element" =>
    some (if (Plan.elementTags n).1.any fun opening => (opening.field? "name").isNone then .fragment
      else .element)
  | "jsx_fragment" => some .fragment
  | "jsx_self_closing_element" => some .element
  | "call_expression" =>
    if (n.field? "function").isSome && (n.field? "arguments").any (·.kind == "arguments") then some .call
    else none
  | _ => none

def Bare (n : Concrete) : Prop :=
  ∀ path c, n.get? path = some c → c.construct? = none

section

variable {n c : Concrete} {path path' : List Nat} {i : Nat}

theorem get?_cons (n : Concrete) (i : Nat) (path : List Nat) :
    n.get? (i :: path) = n.children[i]?.bind (·.get? path) := rfl

theorem get?_append (n : Concrete) (path path' : List Nat) :
    n.get? (path ++ path') = (n.get? path).bind (·.get? path') := by
  induction path generalizing n with
  | nil => rfl
  | cons i path ih =>
      rw [List.cons_append, get?_cons, get?_cons]
      cases n.children[i]? with
      | none => rfl
      | some c => exact ih c

theorem Bare.child (h : Bare n) (member : c ∈ n.children) : Bare c := by
  intro path d found
  obtain ⟨i, bound, rfl⟩ := List.getElem_of_mem member
  exact h (i :: path) d (by rw [get?_cons, List.getElem?_eq_getElem bound]; exact found)

theorem Bare.of_children (own : n.construct? = none) (below : ∀ c ∈ n.children, Bare c) : Bare n := by
  intro path c found
  cases path with
  | nil =>
      cases found
      exact own
  | cons i path =>
      rw [get?_cons, Option.bind_eq_some_iff] at found
      obtain ⟨d, here, found⟩ := found
      exact below d (List.mem_of_getElem? here) path c found

end

/-- Nodes below the node with their paths. They lie apart, and every construct below the node is one of
them or below one. -/
structure Spots (n : Concrete) (spots : List (Concrete × List Nat)) : Prop where
  found : ∀ s ∈ spots, n.get? s.2 = some s.1
  proper : ∀ s ∈ spots, s.2 ≠ []
  apart : spots.Pairwise fun s t => ¬s.2 <+: t.2 ∧ ¬t.2 <+: s.2
  cover : ∀ path c, n.get? path = some c → c.construct? ≠ none → path ≠ [] → ∃ s ∈ spots, s.2 <+: path

def SpotsAt (n : Concrete) (nodes : List Concrete) : Prop :=
  ∃ spots, Spots n spots ∧ spots.map (·.1) = nodes

theorem exists_perm_of_map_perm {α β : Type} {f : α → β} {as : List α} {bs : List β}
    (h : (as.map f).Perm bs) : ∃ as', as.Perm as' ∧ as'.map f = bs := by
  generalize same : as.map f = images at h
  induction h generalizing as with
  | nil => exact ⟨[], by simpa using same, rfl⟩
  | cons b _ ih =>
      obtain ⟨a, as, rfl, rfl, rest⟩ := List.map_eq_cons_iff.1 same
      obtain ⟨as', perm, rfl⟩ := ih rest
      exact ⟨a :: as', perm.cons a, rfl⟩
  | swap b b' bs =>
      obtain ⟨a', as, rfl, rfl, rest⟩ := List.map_eq_cons_iff.1 same
      obtain ⟨a, as, rfl, rfl, rfl⟩ := List.map_eq_cons_iff.1 rest
      exact ⟨a :: a' :: as, .swap a a' as, rfl⟩
  | trans _ _ first second =>
      obtain ⟨as', perm, same⟩ := first same
      obtain ⟨as'', perm', same⟩ := second same
      exact ⟨as'', perm.trans perm', same⟩

section

variable {n c : Concrete} {nodes nodes' rest : List Concrete}

theorem SpotsAt.perm (h : SpotsAt n nodes) (perm : nodes.Perm nodes') : SpotsAt n nodes' := by
  obtain ⟨spots, own, rfl⟩ := h
  obtain ⟨spots', same, rfl⟩ := exists_perm_of_map_perm perm
  refine ⟨spots', ⟨fun s member => own.found s (same.mem_iff.2 member),
    fun s member => own.proper s (same.mem_iff.2 member), ?_, fun path c found some below => ?_⟩, rfl⟩
  · exact (same.pairwise_iff fun apart => ⟨apart.2, apart.1⟩).1 own.apart
  · obtain ⟨s, member, above⟩ := own.cover path c found some below
    exact ⟨s, same.mem_iff.1 member, above⟩

theorem SpotsAt.of_perm (split : n.children.Perm (nodes ++ rest)) (bare : ∀ c ∈ rest, Bare c) :
    SpotsAt n nodes := by
  have lift : (n.children.zipIdx.map (·.1)).Perm (nodes ++ rest) := by
    rwa [List.zipIdx_map_fst]
  obtain ⟨indexed, perm, same⟩ := exists_perm_of_map_perm lift
  obtain ⟨front, back, rfl, rfl, rfl⟩ := List.map_eq_append_iff.1 same
  have numbers : ((front ++ back).map (·.2)).Nodup := by
    rw [← (perm.map (·.2)).nodup_iff, List.zipIdx_map_snd]
    exact List.nodup_range' ..
  have located : ∀ x ∈ front ++ back, n.children[x.2]? = some x.1 := by
    intro x member
    exact List.mem_zipIdx_iff_getElem?.1 (perm.mem_iff.2 member)
  refine ⟨front.map fun x => (x.1, [x.2]), ⟨fun s member => ?_, fun s member => ?_, ?_,
    fun path c found some below => ?_⟩, by simp⟩
  · obtain ⟨x, listed, rfl⟩ := List.mem_map.1 member
    simp [get?, located x (List.mem_append_left _ listed)]
  · obtain ⟨x, _, rfl⟩ := List.mem_map.1 member
    simp
  · rw [List.map_append] at numbers
    have distinct := List.pairwise_map.1 (List.nodup_append.1 numbers).1
    refine List.pairwise_map.2 (distinct.imp fun differ => ?_)
    simp [differ, Ne.symm differ]
  · obtain ⟨i, path, rfl⟩ := List.exists_cons_of_ne_nil below
    rw [get?_cons, Option.bind_eq_some_iff] at found
    obtain ⟨d, here, found⟩ := found
    have listed : (d, i) ∈ front ++ back :=
      perm.mem_iff.1 (List.mem_zipIdx_iff_getElem?.2 here)
    rcases List.mem_append.1 listed with kept | raw
    · exact ⟨(d, [i]), List.mem_map.2 ⟨_, kept, rfl⟩, by simp⟩
    · exact absurd (bare d (List.mem_map.2 ⟨_, raw, rfl⟩) path c found) some

theorem SpotsAt.through {inner : List Concrete} (h : SpotsAt n (c :: nodes)) (own : c.construct? = none)
    (below : SpotsAt c inner) : SpotsAt n (inner ++ nodes) := by
  obtain ⟨spots, outer, same⟩ := h
  obtain ⟨⟨c, path⟩, others, rfl, rfl, rfl⟩ := List.map_eq_cons_iff.1 same
  obtain ⟨spots, under, rfl⟩ := below
  have here : n.get? path = some c := outer.found _ (.head _)
  obtain ⟨clear, apart⟩ := List.pairwise_cons.1 outer.apart
  refine ⟨spots.map (fun s => (s.1, path ++ s.2)) ++ others, ⟨fun s member => ?_, fun s member => ?_,
    List.pairwise_append.2 ⟨?_, apart, fun s member t other => ?_⟩, fun path' d found some proper => ?_⟩,
    by simp⟩
  · rcases List.mem_append.1 member with member | member
    · obtain ⟨s, listed, rfl⟩ := List.mem_map.1 member
      rw [get?_append, here]
      exact under.found s listed
    · exact outer.found s (.tail _ member)
  · rcases List.mem_append.1 member with member | member
    · obtain ⟨s, listed, rfl⟩ := List.mem_map.1 member
      exact List.append_ne_nil_of_right_ne_nil _ (under.proper s listed)
    · exact outer.proper s (.tail _ member)
  · refine List.pairwise_map.2 (under.apart.imp fun apart => ?_)
    simpa only [List.prefix_append_right_inj] using apart
  · obtain ⟨s, _, rfl⟩ := List.mem_map.1 member
    have split := clear t other
    refine ⟨fun above => split.1 ((List.prefix_append path s.2).trans above), fun above => ?_⟩
    rcases List.prefix_or_prefix_of_prefix above (List.prefix_append path s.2) with above | above
    · exact split.2 above
    · exact split.1 above
  · obtain ⟨s, member, above⟩ := outer.cover path' d found some proper
    rcases List.mem_cons.1 member with rfl | member
    · obtain ⟨rest, rfl⟩ := above
      rw [get?_append, here] at found
      have further : rest ≠ [] := by
        rintro rfl
        cases found
        exact some own
      obtain ⟨s, member, above⟩ := under.cover rest d found some further
      refine ⟨_, List.mem_append_left _ (List.mem_map_of_mem member), ?_⟩
      exact (List.prefix_append_right_inj path).2 above
    · exact ⟨s, List.mem_append_right _ member, above⟩

end

/-- The paths to the constructs of a concrete tree and to those of the tree that was read, in pairs. The
concrete node at the top takes part only if `own`. -/
structure Pairing (bytes : ByteArray) (n : Concrete) (m : Node) (own : Bool)
    (pair : List Nat → List Nat → Prop) : Prop where
  read : ∀ path place, pair path place → ∃ c node k role, n.get? path = some c ∧
    m.get? place = some node ∧ c.construct? = some k ∧ node.construct? = some k ∧
    toNode bytes role c = .ok node
  below : own = false → ∀ path place, pair path place → path ≠ []
  total : ∀ path c, n.get? path = some c → c.construct? ≠ none → own = true ∨ path ≠ [] →
    ∃ place, pair path place
  onto : ∀ place node, m.get? place = some node → node.construct? ≠ none → ∃ path, pair path place
  order : ∀ path place path' place', pair path place → pair path' place' →
    (path <+: path' ↔ place <+: place')

structure Limb where
  path : List Nat
  index : Nat
  concrete : Concrete
  node : Node
  own : Bool

/-- The limbs of a concrete node and of the node that it was read as. They lie apart in both, and every
construct is below some limb. -/
structure Limbs (n : Concrete) (m : Node) (limb : Limb → Prop) : Prop where
  found : ∀ l, limb l → n.get? l.path = some l.concrete ∧ m.children[l.index]? = some l.node
  proper : ∀ l, limb l → l.path ≠ []
  apart : ∀ l l', limb l → limb l' → l.path <+: l'.path → l = l'
  once : ∀ l l', limb l → limb l' → l.index = l'.index → l = l'
  cover : ∀ path c, n.get? path = some c → c.construct? ≠ none → path ≠ [] → ∃ l, limb l ∧ l.path <+: path
  all : ∀ i c, m.children[i]? = some c →
    (c.children = [] ∧ c.construct? = none) ∨ ∃ l, limb l ∧ l.index = i
  tags : ∀ l, limb l → l.own = false → l.concrete.construct? = none

section

variable {bytes : ByteArray} {n : Concrete} {m : Node} {own : Bool} {limb : Limb → Prop}
  {pair : Limb → List Nat → List Nat → Prop}

namespace Limbs

/-- Below each limb the constructs pair as those of the limb do. The nodes at the top pair if the concrete one
takes part and is a construct. -/
def Pairs (n : Concrete) (own : Bool) (limb : Limb → Prop) (pair : Limb → List Nat → List Nat → Prop)
    (path place : List Nat) : Prop :=
  own = true ∧ n.construct? ≠ none ∧ path = [] ∧ place = [] ∨
    ∃ l, limb l ∧ ∃ path' place', pair l path' place' ∧ path = l.path ++ path' ∧ place = l.index :: place'

theorem eq_of_paths (limbs : Limbs n m limb) {l l' : Limb} (mine : limb l) (mine' : limb l')
    {path path' : List Nat} (above : l.path ++ path <+: l'.path ++ path') : l = l' := by
  rcases List.prefix_or_prefix_of_prefix ((List.prefix_append l.path path).trans above)
    (List.prefix_append l'.path path') with first | first
  · exact limbs.apart l l' mine mine' first
  · exact (limbs.apart l' l mine' mine first).symm

theorem pairs_total (limbs : Limbs n m limb)
    (pairing : ∀ l, limb l → Pairing bytes l.concrete l.node l.own (pair l)) {path : List Nat} {c : Concrete}
    (found : n.get? path = some c) (some : c.construct? ≠ none) (counted : own = true ∨ path ≠ []) :
    ∃ place, Pairs n own limb pair path place := by
  by_cases top : path = []
  · subst top
    cases found
    exact ⟨[], .inl ⟨counted.resolve_right (· rfl), some, rfl, rfl⟩⟩
  · obtain ⟨l, mine, rest, rfl⟩ := limbs.cover path c found some top
    rw [get?_append, (limbs.found l mine).1] at found
    have included : l.own = true ∨ rest ≠ [] := by
      cases uncounted : l.own with
      | true => exact .inl rfl
      | false =>
          right
          rintro rfl
          cases found
          exact some (limbs.tags l mine uncounted)
    obtain ⟨place, paired⟩ := (pairing l mine).total rest c found some included
    exact ⟨_, .inr ⟨l, mine, rest, place, paired, rfl, rfl⟩⟩

theorem pairs_onto (limbs : Limbs n m limb) (same : own = true → n.construct? = m.construct?)
    (silent : own = false → m.construct? = none)
    (pairing : ∀ l, limb l → Pairing bytes l.concrete l.node l.own (pair l)) {place : List Nat} {node : Node}
    (found : m.get? place = some node) (some : node.construct? ≠ none) :
    ∃ path, Pairs n own limb pair path place := by
  cases place with
  | nil =>
      cases found
      cases counted : own with
      | false => exact absurd (silent counted) some
      | true => exact ⟨[], .inl ⟨rfl, same counted ▸ some, rfl, rfl⟩⟩
  | cons i place =>
      rw [Node.get?_cons, Option.bind_eq_some_iff] at found
      obtain ⟨c, child, found⟩ := found
      rcases limbs.all i c child with ⟨childless, none⟩ | ⟨l, mine, rfl⟩
      · cases place with
        | nil =>
            cases found
            exact absurd none some
        | cons j place => simp [childless] at found
      · cases child.symm.trans (limbs.found l mine).2
        obtain ⟨path, paired⟩ := (pairing l mine).onto place node found some
        exact ⟨_, .inr ⟨l, mine, path, place, paired, rfl, rfl⟩⟩

theorem pairs_order (limbs : Limbs n m limb)
    (pairing : ∀ l, limb l → Pairing bytes l.concrete l.node l.own (pair l)) {path place path' place' : List Nat}
    (first : Pairs n own limb pair path place) (second : Pairs n own limb pair path' place') :
    path <+: path' ↔ place <+: place' := by
  rcases first with ⟨_, _, rfl, rfl⟩ | ⟨l, mine, path, place, paired, rfl, rfl⟩
  · simp
  rcases second with ⟨_, _, rfl, rfl⟩ | ⟨l', mine', path', place', paired', rfl, rfl⟩
  · simp [limbs.proper l mine]
  constructor
  · intro above
    cases limbs.eq_of_paths mine mine' above
    rw [List.prefix_append_right_inj] at above
    exact (List.prefix_cons_inj _).2 (((pairing l mine).order _ _ _ _ paired paired').1 above)
  · intro above
    obtain ⟨index, rest⟩ := List.cons_prefix_cons.1 above
    cases limbs.once l l' mine mine' index
    rw [List.prefix_append_right_inj]
    exact ((pairing l mine).order _ _ _ _ paired paired').2 rest

theorem pairing (limbs : Limbs n m limb) (same : own = true → n.construct? = m.construct?)
    (read : own = true → ∃ role, toNode bytes role n = .ok m) (silent : own = false → m.construct? = none)
    (each : ∀ l, limb l → ∃ pair, Pairing bytes l.concrete l.node l.own pair) :
    ∃ pair, Pairing bytes n m own pair := by
  choose! pair pairing using each
  refine ⟨Pairs n own limb pair, ?_, ?_, fun _ _ => limbs.pairs_total pairing,
    fun _ _ => limbs.pairs_onto same silent pairing, fun _ _ _ _ => limbs.pairs_order pairing⟩
  · rintro _ _ (⟨counted, some, rfl, rfl⟩ | ⟨l, mine, path, place, paired, rfl, rfl⟩)
    · obtain ⟨k, construct⟩ := Option.ne_none_iff_exists'.1 some
      obtain ⟨role, made⟩ := read counted
      exact ⟨n, m, k, role, rfl, rfl, construct, same counted ▸ construct, made⟩
    · obtain ⟨c, node, k, role, found, shown, rest⟩ := (pairing l mine).read path place paired
      obtain ⟨here, child⟩ := limbs.found l mine
      exact ⟨c, node, k, role, by rw [get?_append, here]; exact found,
        by rw [Node.get?_cons, child]; exact shown, rest⟩
  · rintro uncounted _ _ (⟨counted, _⟩ | ⟨l, mine, path, place, _, rfl, rfl⟩)
    · rw [uncounted] at counted
      cases counted
    · exact List.append_ne_nil_of_left_ne_nil (limbs.proper l mine) _

end Limbs

theorem Pairing.selfClosing {o : Node} {role : Role} {pair : List Nat → List Nat → Prop}
    (opening : Pairing bytes n o false pair) (form : m.form = .element (some o) [] none)
    (construct : n.construct? = some .element) (read : toNode bytes role n = .ok m) :
    ∃ pair, Pairing bytes n m true pair := by
  have children : m.children = [o] := by simp [Node.children, form, Form.children]
  have own : m.construct? = some .element := by simp [Node.construct?, form, Form.construct?]
  refine ⟨fun path place => path = [] ∧ place = [] ∨ ∃ place', place = 0 :: place' ∧ pair path place',
    ?_, fun uncounted => absurd uncounted (by simp), ?_, ?_, ?_⟩
  · rintro path _ (⟨rfl, rfl⟩ | ⟨place, rfl, paired⟩)
    · exact ⟨n, m, .element, role, rfl, rfl, construct, own, read⟩
    · obtain ⟨c, node, k, role, found, shown, rest⟩ := opening.read path place paired
      exact ⟨c, node, k, role, found, by rw [Node.get?_cons, children]; exact shown, rest⟩
  · intro path c found some _
    by_cases top : path = []
    · exact ⟨[], .inl ⟨top, rfl⟩⟩
    · obtain ⟨place, paired⟩ := opening.total path c found some (.inr top)
      exact ⟨_, .inr ⟨place, rfl, paired⟩⟩
  · intro place node found some
    rcases place with _ | ⟨_ | i, place⟩
    · exact ⟨[], .inl ⟨rfl, rfl⟩⟩
    · rw [Node.get?_cons, children] at found
      obtain ⟨path, paired⟩ := opening.onto place node found some
      exact ⟨path, .inr ⟨place, rfl, paired⟩⟩
    · simp [children] at found
  · rintro path _ path' _ (⟨rfl, rfl⟩ | ⟨place, rfl, paired⟩) (⟨rfl, rfl⟩ | ⟨place', rfl, paired'⟩)
    · simp
    · simp
    · simp [opening.below rfl _ _ paired]
    · rw [List.prefix_cons_inj]
      exact opening.order _ _ _ _ paired paired'

end

theorem Plan.Supplied.bare {m : Node} (h : Supplied m) : m.children = [] ∧ m.construct? = none := by
  cases h <;> exact ⟨rfl, rfl⟩

inductive LimbAt (p : Plan) (spots : List (Concrete × List Nat)) (nodes : List Node) : Nat → Limb → Prop
  | mk {i : Nat} {slot : Slot} {s : Concrete × List Nat} {node : Node} (here : p.slots[i]? = some slot)
      (there : spots[i]? = some s) (result : nodes[i]? = some node) :
      LimbAt p spots nodes i ⟨s.2, slot.index, slot.node, node, !slot.role.isOpening⟩

section

variable {n : Concrete} {m : Node} {p : Plan} {spots : List (Concrete × List Nat)} {nodes : List Node}
  {i i' : Nat} {l l' : Limb}

namespace LimbAt

theorem unique (h : LimbAt p spots nodes i l) (h' : LimbAt p spots nodes i l') : l = l' := by
  cases h with
  | mk here there result =>
    cases h' with
    | mk here' there' result' =>
      cases here.symm.trans here'
      cases there.symm.trans there'
      cases result.symm.trans result'
      rfl

theorem eq_of_prefix (own : Spots n spots) (h : LimbAt p spots nodes i l) (h' : LimbAt p spots nodes i' l')
    (above : l.path <+: l'.path) : l = l' := by
  have apart := List.pairwise_iff_getElem.1 own.apart
  rcases Nat.lt_trichotomy i i' with lt | rfl | gt
  · obtain ⟨_, there, _⟩ := h
    obtain ⟨_, there', _⟩ := h'
    obtain ⟨bound, rfl⟩ := List.getElem?_eq_some_iff.1 there
    obtain ⟨bound', rfl⟩ := List.getElem?_eq_some_iff.1 there'
    exact absurd above (apart i i' bound bound' lt).1
  · exact h.unique h'
  · obtain ⟨_, there, _⟩ := h
    obtain ⟨_, there', _⟩ := h'
    obtain ⟨bound, rfl⟩ := List.getElem?_eq_some_iff.1 there
    obtain ⟨bound', rfl⟩ := List.getElem?_eq_some_iff.1 there'
    exact absurd above (apart i' i bound' bound gt).2

theorem eq_of_index (numbered : p.Numbered) (h : LimbAt p spots nodes i l) (h' : LimbAt p spots nodes i' l')
    (index : l.index = l'.index) : l = l' := by
  have equal : i = i' := by
    obtain ⟨here, _, _⟩ := h
    obtain ⟨here', _, _⟩ := h'
    have bound : i < (p.slots.map Slot.index).length := by
      simpa using (List.getElem?_eq_some_iff.1 here).1
    refine (List.getElem?_inj bound numbered.once).1 ?_
    simp only [List.getElem?_map, here, here', Option.map_some]
    exact congrArg some index
  subst equal
  exact h.unique h'

end LimbAt

theorem Plan.Fills.limbs (fills : p.Fills) (numbered : p.Numbered) (length : nodes.length = p.slots.length)
    (count : spots.length = p.slots.length) {c : Node} (found : (p.form nodes).children[i]? = some c) :
    (c.children = [] ∧ c.construct? = none) ∨ ∃ l, (∃ j, LimbAt p spots nodes j l) ∧ l.index = i := by
  rcases fills.uses with ⟨_, perm⟩ | ⟨_, none, supplied⟩
  · right
    have listed := perm nodes length
    have range := numbered.range nodes length (listed.length_eq.trans length)
    have inside : i < p.slots.length := by
      rw [← length, ← listed.length_eq]
      exact (List.getElem?_eq_some_iff.1 found).1
    obtain ⟨slot, member, rfl⟩ := List.mem_map.1 (range.mem_iff.2 (List.mem_range.2 inside))
    obtain ⟨j, bound, rfl⟩ := List.getElem_of_mem member
    exact ⟨_, ⟨j, .mk (List.getElem?_eq_getElem bound) (List.getElem?_eq_getElem (count ▸ bound))
      (List.getElem?_eq_getElem (length ▸ bound))⟩, rfl⟩
  · rw [none] at length
    cases List.eq_nil_of_length_eq_zero length
    exact .inl (supplied c (List.mem_of_getElem? found)).1.bare

theorem exists_limbs (numbered : p.Numbered) (fills : p.Fills) (length : nodes.length = p.slots.length)
    (form : m.form = p.form nodes) (spots : SpotsAt n (p.slots.map Slot.node))
    (tags : ∀ slot ∈ p.slots, slot.role.isOpening = true → slot.node.construct? = none) :
    ∃ limb, Limbs n m limb ∧ ∀ l, limb l → ∃ (i : Nat) (slot : Slot), p.slots[i]? = some slot ∧
      nodes[i]? = some l.node ∧ l.concrete = slot.node ∧ l.own = !slot.role.isOpening := by
  obtain ⟨spots, own, same⟩ := spots
  have count : spots.length = p.slots.length := by simpa using congrArg List.length same
  have children : m.children = (p.form nodes).children := by rw [Node.children, form]
  refine ⟨fun l => ∃ i, LimbAt p spots nodes i l, ⟨?_, ?_, ?_, ?_, ?_, fun i c found => ?_, ?_⟩, ?_⟩
  · rintro _ ⟨i, ⟨here, there, result⟩⟩
    have concrete := congrArg (·[i]?) same
    simp only [List.getElem?_map, there, here, Option.map_some, Option.some.injEq] at concrete
    refine ⟨?_, ?_⟩
    · rw [← concrete]
      exact own.found _ (List.mem_of_getElem? there)
    · rw [children]
      exact numbered.places nodes length i _ _ here result
  · rintro _ ⟨i, ⟨here, there, result⟩⟩
    exact own.proper _ (List.mem_of_getElem? there)
  · rintro l l' ⟨i, h⟩ ⟨i', h'⟩ above
    exact h.eq_of_prefix own h' above
  · rintro l l' ⟨i, h⟩ ⟨i', h'⟩ index
    exact h.eq_of_index numbered h' index
  · intro path c found some proper
    obtain ⟨s, member, above⟩ := own.cover path c found some proper
    obtain ⟨i, bound, rfl⟩ := List.getElem_of_mem member
    have bound' : i < p.slots.length := count ▸ bound
    exact ⟨_, ⟨i, .mk (List.getElem?_eq_getElem bound') (List.getElem?_eq_getElem bound)
      (List.getElem?_eq_getElem (length ▸ bound'))⟩, above⟩
  · exact fills.limbs numbered length count (children ▸ found)
  · rintro _ ⟨i, ⟨here, there, result⟩⟩ uncounted
    exact tags _ (List.mem_of_getElem? here) (by simpa using uncounted)
  · rintro _ ⟨i, ⟨here, there, result⟩⟩
    exact ⟨i, _, here, result, rfl, rfl⟩

end

end Concrete

end JsxBoundary
