import JsxBoundary.Proofs.Derivation
import JsxBoundary.Proofs.InPlace.Decision

namespace JsxBoundary.InPlace

variable {s : Settings} {h h' : Heap} {w w' : Walk} {entries : List Ref} {ancestors : Ancestors}

namespace Machine

def Leads (s : Settings) (σ τ : Machine) : Prop :=
  ∃ k, (visit s)^[k] σ = τ

namespace Leads

variable {σ τ υ : Machine}

theorem refl (σ : Machine) : Leads s σ σ :=
  ⟨0, rfl⟩

theorem trans (first : Leads s σ τ) (second : Leads s τ υ) : Leads s σ υ := by
  obtain ⟨k, rfl⟩ := first
  obtain ⟨l, rfl⟩ := second
  exact ⟨l + k, Function.iterate_add_apply _ _ _ _⟩

theorem turn (σ : Machine) : Leads s σ (visit s σ) :=
  ⟨1, rfl⟩

end Leads

def Ends (s : Settings) (h : Heap) (stack rest : List Entry) (w : Walk) (h' : Heap) (w' : Walk) : Prop :=
  ∃ left, Leads s ⟨h, stack ++ rest, w⟩ ⟨h', left, w'⟩ ∧ (w'.fault = none → left = rest)

end Machine

open Machine

/-- Besides the objects in `S` and the parent, what was there stays; the parent has `new` for `old`. -/
structure Heap.Swaps (h h' : Heap) (parent old new : Ref) (S : Finset Ref) : Prop where
  grown : h.length ≤ h'.length
  keeps : h.Keeps h'
  above : h'[parent]? = h[parent]?.map (Object.map fun x => if x = old then new else x)
  others : ∀ x : Nat, x < h.length → x ∉ S → x ≠ parent → h'[x]? = h[x]?

def Simulates (s : Settings) (n : Node) : Prop :=
  ∀ (rest : List Entry) (p : Progress) {h r parent S entries ancestors form}, Heap.Holds h r n S → parent ∉ S →
    Heap.form? h parent = some form → r ∈ form.children → Heap.Sees h entries ancestors →
    ∃ h' new T, Ends s h [⟨r, some parent, entries⟩] rest ⟨p, none⟩ h' (n.rewrite s ancestors ⟨p, none⟩).2 ∧
      Heap.Holds h' new (n.rewrite s ancestors ⟨p, none⟩).1 T ∧ (∀ x ∈ T, x ∈ S ∨ h.length ≤ x) ∧
      Heap.Swaps h h' parent r new S

theorem Heap.Swaps.holds {c old new : Ref} {o : Object} {area : Ref → Finset Ref} {m : Node}
    {T : Finset Ref} (swaps : h.Swaps h' c old new (area old)) (layer : h.Layer c o area)
    (child : old ∈ o.form.children) (made : Heap.Holds h' new m T)
    (within : ∀ x ∈ T, x ∈ area old ∨ h.length ≤ x) :
    Heap.Holds h' c ((o.toNode h.tree).withChildren (o.form.children.map (Function.update h.tree old m)))
      (insert c (o.refs.toFinset.biUnion (Function.update area old T))) := by
  have listed : old ∈ o.refs := Object.mem_refs.2 (.inl child)
  have bound : c < h.length := (List.getElem?_eq_some_iff.1 layer.found).1
  refine layer.swapped child (by rw [swaps.above, layer.found]; rfl) made within
    (fun member => (within c member).elim (layer.own old listed) (Nat.not_le.2 bound))
    fun d part ne => ⟨(layer.below d part).frame fun x member => swaps.others x
      ((layer.below d part).lt_of_mem x member)
      (Finset.disjoint_left.1 (layer.apart d part old listed ne) member)
      (fun same => layer.own d part (same ▸ member)), layer.own d part⟩

theorem map_replace {α β : Type} {f g : α → β} {a : α} {as bs : List α} (once : (as ++ a :: bs).Nodup)
    (same : ∀ x, x ≠ a → g x = f x) : (as ++ a :: bs).map g = (as.map f ++ [g a]) ++ bs.map f := by
  have still : ∀ x ∈ as ++ bs, g x = f x := by
    intro x member
    refine same x fun equal => ?_
    exact (List.nodup_middle.1 once).notMem (equal ▸ member)
  rw [List.map_append, List.map_cons,
    List.map_congr_left fun x member => still x (List.mem_append_left _ member),
    List.map_congr_left fun x member => still x (List.mem_append_right _ member)]
  simp

/-- Part of the way through the children of an object: `done` have been visited and hold `before`, and
`pending` still hold `ns`. -/
structure Heap.Midway (h : Heap) (c : Ref) (N : Node) (S : Finset Ref) (done pending : List Ref)
    (before ns : List Node) : Prop where
  holds : h.Holds c N S
  refs : (h.form? c).map Form.children = some (done ++ pending)
  nodes : N.children = before ++ ns
  length : done.length = before.length

namespace Heap.Midway

variable {c r : Ref} {n : Node} {N : Node} {S : Finset Ref} {done pending : List Ref} {before ns : List Node}

theorem start {form : Form Ref} (holds : h.Holds c N S) (found : h.form? c = some form) :
    h.Midway c N S [] form.children [] N.children :=
  ⟨holds, congrArg _ found, rfl, rfl⟩

theorem layer (midway : h.Midway c N S done pending before ns) :
    ∃ o area, h.Layer c o area ∧ N = o.toNode h.tree ∧ S = insert c (o.refs.toFinset.biUnion area) ∧
      o.form.children = done ++ pending ∧ done.map h.tree = before ∧ pending.map h.tree = ns := by
  obtain ⟨o, area, layer, rfl, rfl⟩ := midway.holds.layer
  have refs : o.form.children = done ++ pending := by
    have listed := midway.refs
    rw [Heap.form?_eq layer.found] at listed
    exact Option.some.inj listed
  have images := (o.children_toNode h.tree).symm.trans midway.nodes
  rw [refs, List.map_append] at images
  obtain ⟨visited, waiting⟩ := List.append_inj images (by rw [List.length_map, midway.length])
  exact ⟨o, area, layer, rfl, rfl, refs, visited, waiting⟩

theorem pending_nil (midway : h.Midway c N S done pending before []) : pending = [] := by
  obtain ⟨_, _, _, _, _, _, _, waiting⟩ := midway.layer
  exact List.map_eq_nil_iff.1 waiting

theorem pending_cons (midway : h.Midway c N S done pending before (n :: ns)) :
    ∃ r rest, pending = r :: rest := by
  obtain ⟨_, _, _, _, _, _, _, waiting⟩ := midway.layer
  obtain ⟨r, rest, split, _⟩ := List.map_eq_cons_iff.1 waiting
  exact ⟨r, rest, split⟩

theorem next (midway : h.Midway c N S done (r :: pending) before (n :: ns)) :
    ∃ A form, h.Holds r n A ∧ A ⊆ S ∧ c ∈ S ∧ c ∉ A ∧ h.form? c = some form ∧ r ∈ form.children ∧
      ∀ {h₁ new m T}, h.Swaps h₁ c r new A → h₁.Holds new m T → (∀ x ∈ T, x ∈ A ∨ h.length ≤ x) →
        ∃ U, h₁.Midway c (N.withChildren (before ++ m :: ns)) U (done ++ [new]) pending (before ++ [m]) ns ∧
          ∀ x ∈ U, x ∈ S ∨ h.length ≤ x := by
  obtain ⟨o, area, layer, rfl, rfl, refs, visited, waiting⟩ := midway.layer
  obtain ⟨rfl, rfl⟩ : h.tree r = n ∧ pending.map h.tree = ns := by simpa using waiting
  have child : r ∈ o.form.children := by simp [refs]
  have listed : r ∈ o.refs := Object.mem_refs.2 (.inl child)
  have once : (done ++ r :: pending).Nodup := by
    rw [← refs]
    exact (List.nodup_append.1 layer.once).1
  refine ⟨area r, o.form, layer.below r listed, Heap.area_subset c area listed,
    Finset.mem_insert_self _ _, layer.own r listed, Heap.form?_eq layer.found, child, ?_⟩
  intro h₁ new m T swaps made within
  have holds := swaps.holds layer child made within
  have children : o.form.children.map (Function.update h.tree r m) = before ++ m :: pending.map h.tree := by
    rw [refs, map_replace once fun d ne => Function.update_of_ne ne m h.tree, Function.update_self, visited,
      List.append_assoc, List.singleton_append]
  rw [children] at holds
  refine ⟨_, ⟨holds, ?_, ?_, by simp [midway.length]⟩, fun x member => ?_⟩
  · have replaced := map_replace (f := id) (g := fun x => if x = r then new else x) once
      fun d ne => if_neg ne
    rw [Heap.form?, swaps.above, layer.found]
    show some (o.form.map fun x => if x = r then new else x).children = _
    rw [Form.children_map, refs, replaced, if_pos rfl, List.map_id, List.map_id]
  · rw [Node.children_withChildren _ (by rw [← children, List.length_map, Object.children_toNode,
      List.length_map]), List.append_assoc, List.singleton_append]
  · rcases Heap.mem_swapped listed within member with rfl | new | kept
    · exact .inl (Finset.mem_insert_self _ _)
    · exact .inr new
    · exact .inl kept

end Heap.Midway

theorem children_simulate (rest : List Entry) {c : Ref} {N : Node} {S : Finset Ref}
    {done pending : List Ref} {before ns : List Node} (each : ∀ n ∈ ns, Simulates s n)
    (midway : h.Midway c N S done pending before ns) (sees : h.Sees entries ancestors)
    (running : w.fault = none) :
    ∃ h' T, Ends s h (pending.map (⟨·, some c, entries⟩)) rest w h'
        ((ns.mapM (Node.rewrite s ancestors)).run w).2 ∧
      Heap.Holds h' c (N.withChildren (before ++ ((ns.mapM (Node.rewrite s ancestors)).run w).1)) T ∧
      (∀ x ∈ T, x ∈ S ∨ h.length ≤ x) ∧ h.length ≤ h'.length ∧ h.Keeps h' ∧
      ∀ x : Nat, x < h.length → x ∉ S → h'[x]? = h[x]? := by
  -- The heap changes with each child, so everything but the settings and the ancestors is general.
  induction ns generalizing h done pending before N S w with
  | nil =>
      cases midway.pending_nil
      have nodes := midway.nodes
      refine ⟨h, S, ⟨rest, .refl _, fun _ => rfl⟩, ?_, fun x => .inl, Nat.le_refl _, .refl h, fun _ _ _ => rfl⟩
      show h.Holds c (N.withChildren (before ++ [])) S
      rw [← nodes, Node.withChildren_children]
      exact midway.holds
  | cons n ns ih =>
      obtain ⟨r, pending, rfl⟩ := midway.pending_cons
      obtain ⟨A, form, below, part, top, own, found, child, swapped⟩ := midway.next
      obtain ⟨p, fault⟩ := w
      cases running
      obtain ⟨h₁, new, T, ⟨left, leads, ended⟩, made, within, swaps⟩ :=
        each n (.head _) (pending.map (⟨·, some c, entries⟩) ++ rest) p below own found child sees
      rw [Walk.mapM_cons]
      generalize n.rewrite s ancestors ⟨p, none⟩ = first at leads ended made ⊢
      obtain ⟨m, w₁⟩ := first
      dsimp only at leads ended made ⊢
      obtain ⟨U, midway₁, bounds⟩ := swapped swaps made within
      have others : ∀ x : Nat, x < h.length → x ∉ S → h₁[x]? = h[x]? := by
        intro x old outside
        exact swaps.others x old (fun member => outside (part member)) fun same => outside (same ▸ top)
      cases stopped : w₁.fault with
      | some fault =>
          -- the fault stays, so the other children keep their nodes
          rw [Node.mapM_rewrite_stopped (by simp [stopped])]
          refine ⟨h₁, U, ⟨left, leads, fun running => ?_⟩, midway₁.holds, bounds, swaps.grown, swaps.keeps,
            others⟩
          rw [stopped] at running
          cases running
      | none =>
          obtain ⟨h₂, T₂, ⟨left₂, leads₂, ended₂⟩, holds₂, within₂, grown₂, keeps₂, others₂⟩ :=
            ih (fun n member => each n (.tail _ member)) midway₁ (sees.keeps swaps.keeps) stopped
          rw [Node.withChildren_withChildren _ (by simp [midway.nodes]) (by
            rw [List.length_append, Walk.length_mapM, midway.nodes]
            simp
            omega), List.append_assoc] at holds₂
          refine ⟨h₂, T₂, ⟨left₂, ?_, ended₂⟩, holds₂, fun x member => ?_, swaps.grown.trans grown₂,
            swaps.keeps.trans keeps₂, fun x old outside => ?_⟩
          · rw [ended stopped] at leads
            exact leads.trans leads₂
          · rcases within₂ x member with part | new
            · exact bounds x part
            · exact .inr (swaps.grown.trans new)
          · rw [others₂ x (Nat.lt_of_lt_of_le old swaps.grown) fun member => ?_, others x old outside]
            exact (bounds x member).elim outside (Nat.not_le.2 old)

section

variable {r c parent : Ref} {n : Node} {S : Finset Ref}

theorem Heap.Swaps.of_longer (longer : h <+: h') (bound : parent < h.length) :
    h.Swaps h' parent r r S := by
  have old : ∀ x : Nat, x < h.length → h'[x]? = h[x]? := by
    obtain ⟨more, rfl⟩ := longer
    exact fun x bound => List.getElem?_append_left bound
  have same : (fun x => if x = r then r else x) = id := by
    funext x
    by_cases own : x = r
    · rw [if_pos own, own]
      rfl
    · rw [if_neg own]
      rfl
  refine ⟨longer.length_le, .of_longer longer, ?_, fun x bound _ _ => old x bound⟩
  rw [same, old parent bound, List.getElem?_eq_getElem bound]
  simp

theorem Settles.installs (entries : List Ref) {h₁ : Heap} {d : Decision n} {form : Form Ref}
    (settles : Settles h r n S h₁ c d)
    (holds : h.Holds r n S) (longer : h <+: h₁) (outside : parent ∉ S)
    (found : h.form? parent = some form) (child : r ∈ form.children) :
    ∃ h₂ T, install h₁ ⟨r, some parent, entries⟩ c = .ok h₂ ∧ Heap.Holds h₂ c d.node T ∧
      (∀ x ∈ T, x ∈ S ∨ h.length ≤ x) ∧ h.Swaps h₂ parent r c S ∧
      (d.descend = true → ∀ x ∈ T, x ≠ c → x ∈ S.erase r ∨ h.length ≤ x ∧ h₂.isScaffold x = true) := by
  obtain ⟨o, here, rfl⟩ := Option.map_eq_some_iff.1 found
  have bound : parent < h.length := (List.getElem?_eq_some_iff.1 here).1
  cases settles with
  | stays node =>
      rw [node]
      exact ⟨h₁, S, if_pos rfl, holds.extend longer, fun x => .inl, .of_longer longer bound,
        fun _ x inside other => .inl (Finset.mem_erase.2 ⟨other, inside⟩)⟩
  | gives _ gains gone markup inner =>
      have fresh : c ≠ r := by
        rintro rfl
        exact Nat.not_le.2 (holds.lt_of_mem c holds.self_mem) gains.fresh
      have before := Heap.Swaps.of_longer (r := r) (S := S) longer bound
      have there : h₁[parent]? = some o := by
        obtain ⟨more, rfl⟩ := longer
        exact (List.getElem?_append_left bound).trans here
      have replaced : install h₁ ⟨r, some parent, entries⟩ c =
          .ok (h₁.set parent (o.map fun x => if x = r then c else x)) := by
        rw [install, if_neg fresh]
        dsimp only
        rw [Heap.replaceChild, there, Option.filter_some, if_pos (by simpa using child)]
      obtain ⟨T, made, within⟩ := gains.holds
      have keeps : h₁.Keeps (h₁.set parent (o.map fun x => if x = r then c else x)) :=
        .of_set there rfl ((holds.extend longer).isMarkup.trans gone) (made.isMarkup.trans markup)
      refine ⟨_, T, replaced, made.frame fun x member => ?_, within, ?_, fun going x member other => ?_⟩
      · refine List.getElem?_set_ne fun same => ?_
        rcases within x member with old | new
        · exact outside (same ▸ old)
        · exact Nat.not_le.2 bound (same ▸ new)
      · refine ⟨?_, before.keeps.trans keeps, ?_, fun x old apart other => ?_⟩
        · rw [List.length_set]
          exact longer.length_le
        · rw [here, List.getElem?_set_self (Nat.lt_of_lt_of_le bound longer.length_le)]
          rfl
        · rw [List.getElem?_set_ne (Ne.symm other), before.others x old apart other]
      · obtain ⟨gains', frames⟩ := inner going
        obtain ⟨T', made', within'⟩ := gains'.holds
        obtain ⟨_, rfl⟩ := made.unique made'
        refine (within' x member).imp_right fun new => ⟨new, ?_⟩
        obtain ⟨n, A, part, _⟩ := made.part member
        have alike := part.alike 2
        rw [(keeps 2 x n alike).isScaffold, ← alike.isScaffold]
        exact frames.others x new (made.lt_of_mem x member) other

end

theorem simulates (s : Settings) (n : Node) : Simulates s n := by
  intro rest p h r parent S entries ancestors form holds outside found child sees
  have agrees := edit_mirrors (s := s) holds sees p
  have bound : parent < h.length := by
    obtain ⟨o, here, _⟩ := Option.map_eq_some_iff.1 found
    exact (List.getElem?_eq_some_iff.1 here).1
  rw [Node.rewrite_eq, if_neg (by simp)]
  generalize (n.decide s ancestors).runFrom p = outcome at agrees ⊢
  generalize edited : (edit s entries r).runFrom ⟨h, p⟩ = result at agrees
  cases agrees with
  | @error fault h₁ q longer =>
      have turn : visit s ⟨h, [⟨r, some parent, entries⟩] ++ rest, ⟨p, none⟩⟩ = ⟨h₁, rest, ⟨q, some fault⟩⟩ := by
        simp [visit, edited]
      exact ⟨h₁, r, S, ⟨rest, turn ▸ .turn _, fun _ => rfl⟩, holds.extend longer, fun x => .inl,
        .of_longer longer bound⟩
  | @ok a d h₁ q longer related =>
      obtain ⟨c, go⟩ := a
      obtain ⟨rfl, settles⟩ := related
      obtain ⟨h₂, T, installed, holds₂, within, swaps, _⟩ :=
        settles.installs entries holds longer outside found child
      obtain ⟨o, area, layer, node, _⟩ := holds₂.layer
      have found₂ := Heap.form?_eq layer.found
      have turn : visit s ⟨h, [⟨r, some parent, entries⟩] ++ rest, ⟨p, none⟩⟩ =
          ⟨h₂, (if d.descend then o.form.children.map (⟨·, some c, c :: entries⟩) else []) ++ rest,
            ⟨q, none⟩⟩ := by
        simp only [visit, List.cons_append, List.nil_append, edited, installed, Heap.children, found₂]
        cases d.descend <;> rfl
      dsimp only
      by_cases descends : d.descend = true
      · rw [if_pos descends] at turn ⊢
        obtain ⟨h₃, T₃, ⟨left, leads, ended⟩, holds₃, within₃, grown, keeps, others⟩ :=
          children_simulate (w := ⟨q, none⟩) rest (fun m member => simulates s m)
            (.start holds₂ found₂) (.cons (holds₂.alike 3) (sees.keeps swaps.keeps)) rfl
        have above : parent ∉ T := fun member =>
          (within parent member).elim outside (Nat.not_le.2 bound)
        refine ⟨h₃, c, T₃, ⟨left, .trans (turn ▸ .turn _) leads, ended⟩, holds₃, fun x member => ?_,
          swaps.grown.trans grown, swaps.keeps.trans keeps, ?_, fun x old apart other => ?_⟩
        · rcases within₃ x member with part | new
          · exact within x part
          · exact .inr (swaps.grown.trans new)
        · rw [others parent (Nat.lt_of_lt_of_le bound swaps.grown) above, swaps.above]
        · have clear : x ∉ T := fun member => (within x member).elim apart (Nat.not_le.2 old)
          rw [others x (Nat.lt_of_lt_of_le old swaps.grown) clear, swaps.others x old apart other]
      · rw [if_neg descends, List.nil_append] at turn
        rw [if_neg descends]
        exact ⟨h₂, c, T, ⟨rest, turn ▸ .turn _, fun _ => rfl⟩, holds₂, within, swaps⟩
termination_by n.weight
decreasing_by exact d.lighter ‹_› _ ‹_›

theorem start_simulates (s : Settings) {r : Ref} {m : Node} {S : Finset Ref} (holds : h.Holds r m S)
    (p : Progress) :
    ∃ h' T, Ends s h [⟨r, none, []⟩] [] ⟨p, none⟩ h' (m.rewriteRoot s ⟨p, none⟩).2 ∧
      Heap.Holds h' r (m.rewriteRoot s ⟨p, none⟩).1 T := by
  have agrees := edit_mirrors (s := s) holds .nil p
  rw [Node.rewriteRoot]
  generalize decided : (m.decide s []).runFrom p = outcome at agrees ⊢
  generalize edited : (edit s [] r).runFrom ⟨h, p⟩ = result at agrees
  cases agrees with
  | @error fault h₁ q longer =>
      have turn : visit s ⟨h, [⟨r, none, []⟩] ++ [], ⟨p, none⟩⟩ = ⟨h₁, [], ⟨q, some fault⟩⟩ := by
        simp [visit, edited]
      exact ⟨h₁, S, ⟨[], turn ▸ .turn _, fun _ => rfl⟩, holds.extend longer⟩
  | @ok a d h₁ q longer related =>
      obtain ⟨c, go⟩ := a
      obtain ⟨rfl, settles⟩ := related
      have held := holds.extend longer
      dsimp only
      cases settles with
      | gives replaced gains =>
          rw [if_pos replaced]
          have fresh : c ≠ r := by
            rintro rfl
            exact Nat.not_le.2 (holds.lt_of_mem c holds.self_mem) gains.fresh
          have turn : visit s ⟨h, [⟨r, none, []⟩] ++ [], ⟨p, none⟩⟩ = ⟨h₁, [], ⟨q, some .rootReplaced⟩⟩ := by
            simp [visit, edited, install, fresh]
          exact ⟨h₁, S, ⟨[], turn ▸ .turn _, fun _ => rfl⟩, held⟩
      | stays node replaced =>
          rw [if_neg (by simp [replaced]), Node.rewrite_eq, if_neg (by simp), decided]
          dsimp only
          obtain ⟨o, area, layer, whole, _⟩ := held.layer
          have found := Heap.form?_eq layer.found
          have turn : visit s ⟨h, [⟨c, none, []⟩] ++ [], ⟨p, none⟩⟩ =
              ⟨h₁, (if d.descend then o.form.children.map (⟨·, some c, [c]⟩) else []) ++ [], ⟨q, none⟩⟩ := by
            simp only [visit, List.append_nil, edited, install, if_true, Heap.children, found]
            cases d.descend <;> rfl
          by_cases descends : d.descend = true
          · rw [if_pos descends] at turn ⊢
            rw [node]
            obtain ⟨h₂, T, ⟨left, leads, ended⟩, holds₂, _⟩ :=
              children_simulate (w := ⟨q, none⟩) [] (fun m _ => simulates s m)
                (.start held found) (.cons (held.alike 3) .nil) rfl
            exact ⟨h₂, T, ⟨left, .trans (turn ▸ .turn _) leads, ended⟩, holds₂⟩
          · rw [if_neg descends] at turn ⊢
            rw [node]
            exact ⟨h₁, S, ⟨[], turn ▸ .turn _, fun _ => rfl⟩, held⟩

end JsxBoundary.InPlace
