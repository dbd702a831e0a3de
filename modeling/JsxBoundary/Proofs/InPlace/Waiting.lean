import JsxBoundary.Proofs.InPlace.Refinement
import JsxBoundary.Proofs.InPlace.Upkeep

namespace JsxBoundary.InPlace

variable {h h' : Heap} {root p old new : Ref} {N n m : Node} {S A T : Finset Ref}

namespace Heap.Holds

theorem child_subset {o : Object} {c : Ref} (holds : h.Holds p N S) (found : h[p]? = some o)
    (listed : c ∈ o.refs) (below : h.Holds c n A) : A ⊆ S ∧ p ∉ A := by
  obtain ⟨o', area, layer, rfl, rfl⟩ := holds.layer
  cases found.symm.trans layer.found
  obtain ⟨_, rfl⟩ := (layer.below c listed).unique below
  exact ⟨area_subset p area listed, layer.own c listed⟩

theorem deepen {o : Object} (holds : h.Holds root N S) (inside : p ∈ S) (found : h[p]? = some o)
    (child : old ∈ o.form.children) (below : h.Holds old n A) (swaps : h.Swaps h' p old new A)
    (made : h'.Holds new m T) (within : ∀ x ∈ T, x ∈ A ∨ h.length ≤ x) :
    ∃ N' U, h'.Holds root N' U ∧ (∀ x ∈ U, x ∈ S ∨ h.length ≤ x) ∧ T ⊆ U ∧ ∀ x ∈ S, x ∉ A → x ∈ U := by
  have listed : old ∈ o.refs := Object.mem_refs.2 (.inl child)
  induction holds with
  | @intro r o' tree area here once shown parts apart own ih =>
      have layer : h.Layer r o' area :=
        ⟨here, once, shown, fun c member => (parts c member).tree_eq.symm ▸ parts c member, apart, own⟩
      have bound : (r : Nat) < h.length := (List.getElem?_eq_some_iff.1 here).1
      by_cases top : p = r
      · subst top
        cases found.symm.trans here
        obtain ⟨rfl, rfl⟩ := (parts old listed).unique below
        refine ⟨_, _, swaps.holds layer child made within, fun x member => ?_,
          fun x member => mem_swapped_new listed member,
          fun x member out => mem_swapped_kept member fun gone => absurd gone out⟩
        rcases mem_swapped listed within member with rfl | fresh | kept
        · exact .inl (Finset.mem_insert_self _ _)
        · exact .inr fresh
        · exact .inl kept
      · -- The parent lies below one child, and everything beside that child stays.
        obtain ⟨c, part, deep⟩ := (mem_area.1 inside).resolve_left top
        obtain ⟨N', U, holds, bounds, fresh, kept⟩ := ih c part deep
        obtain ⟨_, P, parent, upto⟩ := (parts c part).part deep
        have inner : A ⊆ area c := (parent.child_subset found listed below).1.trans upto
        have stays : h'[r]? = some o' := by
          rw [swaps.others r bound (fun member => own c part (inner member)) (Ne.symm top), here]
        obtain ⟨n, whole⟩ := layer.renew part stays holds bounds fun d member ne => by
          refine (layer.below d member).frame fun x inside => ?_
          have other := Finset.disjoint_left.1 (apart d member c part ne) inside
          exact swaps.others x ((parts d member).lt_of_mem x inside) (fun gone => other (inner gone))
            fun same => other (same ▸ deep)
        refine ⟨n, _, whole, fun x member => ?_, fun x member => mem_swapped_new part (fresh member),
          fun x member out => mem_swapped_kept member fun old => kept x old out⟩
        rcases mem_swapped part bounds member with rfl | new | old
        · exact .inl (Finset.mem_insert_self _ _)
        · exact .inr new
        · exact .inl old

end Heap.Holds

/-- The stack of a traversal that goes on: each waiting object is made of objects of its own, and its
parent has it as a child. No ancestor of one is part of another. -/
structure Heap.Waiting (h : Heap) (root : Ref) (stack : List Entry) (S : Finset Ref) (area : Ref → Finset Ref) :
    Prop where
  whole : ∃ N, h.Holds root N S
  below : ∀ e ∈ stack, ∃ n, h.Holds e.node n (area e.node)
  part : ∀ e ∈ stack, area e.node ⊆ S
  apart : stack.Pairwise fun e f => Disjoint (area e.node) (area f.node)
  parents : ∀ e ∈ stack, ∀ p ∈ e.parent, p ∈ e.ancestors ∧ e.node ∈ h.children p
  above : ∀ e ∈ stack, ∀ a ∈ e.ancestors, a ∈ S ∧ ∀ f ∈ stack, a ∉ area f.node

namespace Heap.Waiting

variable {e : Entry} {rest stack : List Entry} {area : Ref → Finset Ref} {c : Ref}

theorem start (holds : h.Holds root N S) : h.Waiting root [⟨root, none, []⟩] S fun _ => S := by
  refine ⟨⟨N, holds⟩, fun e member => ?_, fun _ _ => subset_rfl, List.pairwise_singleton _ _,
    fun e member => ?_, fun e member => ?_⟩ <;> cases List.mem_singleton.1 member
  · exact ⟨N, holds⟩
  · exact nofun
  · exact nofun

theorem lt_length (waiting : h.Waiting root stack S area) (x : Nat) (inside : x ∈ S) : x < h.length := by
  obtain ⟨N, holds⟩ := waiting.whole
  exact holds.lt_of_mem x inside

theorem present (waiting : h.Waiting root stack S area) : ∀ e ∈ stack, (e.node : Nat) < h.length ∧
    ∀ parent : Nat, parent ∈ e.parent → parent < h.length := by
  intro e member
  obtain ⟨n, holds⟩ := waiting.below e member
  refine ⟨holds.lt_of_mem _ holds.self_mem, fun parent own => ?_⟩
  exact waiting.lt_length _ (waiting.above e member parent (waiting.parents e member parent own).1).1

theorem sees (waiting : h.Waiting root stack S area) (member : e ∈ stack) :
    h.Sees e.ancestors (e.ancestors.map h.tree) := by
  obtain ⟨N, holds⟩ := waiting.whole
  have each := fun a inside => (waiting.above e member a inside).1
  generalize e.ancestors = ancestors at each
  induction ancestors with
  | nil => exact .nil
  | cons a ancestors ih =>
      obtain ⟨n, A, below, _⟩ := holds.part (each a (.head _))
      refine .cons ?_ (ih fun b inside => each b (.tail _ inside))
      rw [below.tree_eq]
      exact below.alike 3

theorem drop {h' : Heap} (waiting : h.Waiting root (e :: rest) S area) (longer : h <+: h') :
    h'.Waiting root rest S area := by
  obtain ⟨N, holds⟩ := waiting.whole
  refine ⟨⟨N, holds.extend longer⟩, fun f member => ?_, fun f member => waiting.part f (.tail _ member),
    (List.pairwise_cons.1 waiting.apart).2, fun f member p own => ?_, fun f member a inside => ?_⟩
  · obtain ⟨n, below⟩ := waiting.below f (.tail _ member)
    exact ⟨n, below.extend longer⟩
  · obtain ⟨above, child⟩ := waiting.parents f (.tail _ member) p own
    refine ⟨above, ?_⟩
    unfold Heap.children at child ⊢
    cases found : h.form? p with
    | none =>
        rw [found] at child
        cases child
    | some form =>
        rw [found] at child
        rwa [form?_of_longer longer found]
  · obtain ⟨top, clear⟩ := waiting.above f (.tail _ member) a inside
    exact ⟨top, fun g other => clear g (.tail _ other)⟩

theorem push (waiting : h.Waiting root rest S area) (holds : h.Holds c m T) (part : T ⊆ S)
    (clear : ∀ f ∈ rest, Disjoint T (area f.node)) (ancestors : List Ref)
    (above : ∀ a ∈ ancestors, a ∈ S ∧ a ∉ T ∧ ∀ f ∈ rest, a ∉ area f.node)
    (free : ∀ f ∈ rest, ∀ a ∈ f.ancestors, a ∉ T) :
    ∃ area, h.Waiting root ((h.children c).map (⟨·, some c, c :: ancestors⟩) ++ rest) S area := by
  obtain ⟨o, inner, layer, rfl, rfl⟩ := holds.layer
  have listed : h.children c = o.form.children := by simp [Heap.children, form?_eq layer.found]
  have child : ∀ d ∈ o.form.children, d ∈ o.refs := fun d member => Object.mem_refs.2 (.inl member)
  have sub : ∀ d ∈ o.form.children, inner d ⊆ insert c (o.refs.toFinset.biUnion inner) :=
    fun d member => area_subset c inner (child d member)
  generalize insert c (o.refs.toFinset.biUnion inner) = T at *
  have own : ∀ d ∈ o.form.children, d ∈ T :=
    fun d member => sub d member (layer.below d (child d member)).self_mem
  have other : ∀ f ∈ rest, f.node ∉ T := by
    intro f member inside
    obtain ⟨n, below⟩ := waiting.below f member
    exact Finset.disjoint_left.1 (clear f member) inside below.self_mem
  have entries : ∀ e ∈ (h.children c).map (⟨·, some c, c :: ancestors⟩) ++ rest,
      (∃ d ∈ o.form.children, e = ⟨d, some c, c :: ancestors⟩) ∨ e ∈ rest := by
    intro e member
    rcases List.mem_append.1 member with member | member
    · obtain ⟨d, inside, rfl⟩ := List.mem_map.1 member
      exact .inl ⟨d, listed ▸ inside, rfl⟩
    · exact .inr member
  refine ⟨fun x => if x ∈ T then inner x else area x, waiting.whole, fun e member => ?_, fun e member => ?_, ?_,
    fun e member p own => ?_, fun e member a inside => ?_⟩
  · rcases entries e member with ⟨d, inside, rfl⟩ | member
    · exact ⟨_, by simpa only [own d inside, if_true] using layer.below d (child d inside)⟩
    · simpa only [other e member, if_false] using waiting.below e member
  · rcases entries e member with ⟨d, inside, rfl⟩ | member
    · simpa only [own d inside, if_true] using (sub d inside).trans part
    · simpa only [other e member, if_false] using waiting.part e member
  · refine List.pairwise_append.2 ⟨?_, ?_, fun e member f waits => ?_⟩
    · rw [listed, List.pairwise_map]
      have once : o.form.children.Nodup := (List.nodup_append.1 layer.once).1
      refine once.imp_of_mem fun {d e} hd he ne => ?_
      simpa only [own d hd, own e he, if_true] using layer.apart d (child d hd) e (child e he) ne
    · refine waiting.apart.imp_of_mem fun {e f} he hf disjoint => ?_
      simpa only [other e he, other f hf, if_false] using disjoint
    · obtain ⟨d, inside, rfl⟩ := List.mem_map.1 member
      rw [listed] at inside
      simp only [own d inside, other f waits, if_true, if_false]
      exact Finset.disjoint_of_subset_left (sub d inside) (clear f waits)
  · rcases entries e member with ⟨d, inside, rfl⟩ | member
    · cases Option.mem_some_iff.1 own
      exact ⟨.head _, listed ▸ inside⟩
    · exact waiting.parents e member p own
  · have top : a ∈ S ∧ (∀ d ∈ o.form.children, a ∉ inner d) ∧ ∀ f ∈ rest, a ∉ area f.node := by
      rcases entries e member with ⟨d, _, rfl⟩ | member
      · rcases List.mem_cons.1 inside with rfl | inside
        · exact ⟨part holds.self_mem, fun d member => layer.own d (child d member),
            fun f member => Finset.disjoint_left.1 (clear f member) holds.self_mem⟩
        · obtain ⟨top, out, far⟩ := above a inside
          exact ⟨top, fun d member inside => out (sub d member inside), far⟩
      · obtain ⟨top, far⟩ := waiting.above e member a inside
        exact ⟨top, fun d inner inside' => free e member a inside (sub d inner inside'), far⟩
    obtain ⟨top, below, beside⟩ := top
    refine ⟨top, fun f waits => ?_⟩
    rcases entries f waits with ⟨d, inside, rfl⟩ | waits
    · simpa only [own d inside, if_true] using below d inside
    · simpa only [other f waits, if_false] using beside f waits

theorem swap (waiting : h.Waiting root (e :: rest) S area) (own : e.parent = some p)
    (swaps : h.Swaps h' p e.node c (area e.node)) (made : h'.Holds c m T)
    (within : ∀ x ∈ T, x ∈ area e.node ∨ h.length ≤ x) :
    ∃ U, h'.Waiting root rest U area ∧ T ⊆ U ∧ ∀ x ∈ S, x ∉ area e.node → x ∈ U := by
  obtain ⟨N, holds⟩ := waiting.whole
  obtain ⟨n, below⟩ := waiting.below e (.head _)
  obtain ⟨above, child⟩ := waiting.parents e (.head _) p own
  obtain ⟨inside, outside⟩ := waiting.above e (.head _) p above
  obtain ⟨beside, apart⟩ := List.pairwise_cons.1 waiting.apart
  obtain ⟨o, found⟩ : ∃ o, h[p]? = some o := ⟨_, List.getElem?_eq_getElem (waiting.lt_length p inside)⟩
  have listed : h.children p = o.form.children := by simp [Heap.children, form?_eq found]
  rw [listed] at child
  obtain ⟨N', U, holds', _, fresh, kept⟩ := holds.deepen inside found child below swaps made within
  refine ⟨U, ⟨⟨N', holds'⟩, fun f member => ?_, fun f member x part => ?_, apart, fun f member q has => ?_,
    fun f member a inner => ?_⟩, fresh, kept⟩
  · obtain ⟨n, below⟩ := waiting.below f (.tail _ member)
    refine ⟨n, below.frame fun x part => swaps.others x (below.lt_of_mem x part) ?_ ?_⟩
    · exact Finset.disjoint_right.1 (beside f member) part
    · exact fun same => outside f (.tail _ member) (same ▸ part)
  · exact kept x (waiting.part f (.tail _ member) part) (Finset.disjoint_right.1 (beside f member) part)
  · obtain ⟨above', child'⟩ := waiting.parents f (.tail _ member) q has
    obtain ⟨inside', outside'⟩ := waiting.above f (.tail _ member) q above'
    refine ⟨above', ?_⟩
    -- The parent has changed, but only where the other child was.
    by_cases same : q = p
    · subst same
      obtain ⟨n', below'⟩ := waiting.below f (.tail _ member)
      have other : f.node ≠ e.node := fun same =>
        Finset.disjoint_left.1 (beside f member) (same ▸ below.self_mem) below'.self_mem
      have changed : h'.children q = o.form.children.map fun x => if x = e.node then c else x := by
        rw [Heap.children, Heap.form?, swaps.above, found]
        exact Form.children_map _ _
      rw [changed]
      rw [listed] at child'
      exact List.mem_map.2 ⟨f.node, child', if_neg other⟩
    · have stays := swaps.others q (waiting.lt_length q inside') (outside' e (.head _)) same
      rwa [Heap.children, Heap.form?, stays]
  · obtain ⟨top, clear⟩ := waiting.above f (.tail _ member) a inner
    exact ⟨kept a top (clear e (.head _)), fun g other => clear g (.tail _ other)⟩

theorem descend {U : Finset Ref} (waiting : h.Waiting root (e :: rest) S area)
    (after : h'.Waiting root rest U area) (made : h'.Holds c m T) (part : T ⊆ U)
    (within : ∀ x ∈ T, x ∈ area e.node ∨ h.length ≤ x) (kept : ∀ x ∈ S, x ∉ area e.node → x ∈ U) (go : Bool) :
    ∃ area, h'.Waiting root ((if go then h'.children c else []).map (⟨·, some c, c :: e.ancestors⟩) ++ rest) U
      area := by
  cases go with
  | false => exact ⟨area, after⟩
  | true =>
      obtain ⟨beside, _⟩ := List.pairwise_cons.1 waiting.apart
      -- What has come is made of what stood there and of new objects, so it meets nothing else of the tree.
      have outside : ∀ x ∈ S, x ∉ area e.node → x ∉ T := fun x inside other member =>
        (within x member).elim other (Nat.not_le.2 (waiting.lt_length x inside))
      refine after.push made part (fun f member => ?_) e.ancestors (fun a inside => ?_)
        fun f member a inside => ?_
      · refine Finset.disjoint_right.2 fun x inner => outside x (waiting.part f (.tail _ member) inner) ?_
        exact Finset.disjoint_right.1 (beside f member) inner
      · obtain ⟨top, clear⟩ := waiting.above e (.head _) a inside
        exact ⟨kept a top (clear e (.head _)), outside a top (clear e (.head _)),
          fun f member => clear f (.tail _ member)⟩
      · obtain ⟨top, clear⟩ := waiting.above f (.tail _ member) a inside
        exact outside a top (clear e (.head _))

end Heap.Waiting

namespace Machine

/-- The object that the next turn visits, if there is one left and no fault has occurred. -/
def next? (σ : Machine) : Option Entry :=
  if σ.walk.fault.isSome then none else σ.stack.head?

def Pending (σ : Machine) (x : Ref) : Prop :=
  ∃ e ∈ σ.stack, ∃ n A, σ.heap.Holds e.node n A ∧ x ∈ A

/-- From one state to the other the visited object is done, and what joins the objects that are still to be
visited is new scaffolding. -/
structure Passes (σ τ : Machine) : Prop where
  grown : σ.heap.length ≤ τ.heap.length
  keeps : σ.heap.Keeps τ.heap
  pending : ∀ x, τ.Pending x → σ.Pending x ∧ (∀ e ∈ σ.next?, x ≠ e.node) ∨
    σ.heap.length ≤ x ∧ τ.heap.isScaffold x = true

namespace Passes

variable {w w' : Walk} {e : Entry} {rest : List Entry} {area : Ref → Finset Ref} {U : Finset Ref} {c : Ref}

theorem halted {σ : Machine} (none : σ.next? = none) : σ.Passes σ := by
  refine ⟨Nat.le_refl _, .refl _, fun x pending => .inl ⟨pending, fun e next => ?_⟩⟩
  rw [none] at next
  cases next

theorem eq_of_mem_next? {f : Entry} (next : f ∈ next? ⟨h, e :: rest, w⟩) : f = e := by
  unfold next? at next
  split at next
  · cases next
  · exact (Option.some.inj next).symm

theorem drop (waiting : h.Waiting root (e :: rest) S area) (grown : h.length ≤ h'.length) (keeps : h.Keeps h')
    (after : h'.Waiting root rest U area) : Passes ⟨h, e :: rest, w⟩ ⟨h', rest, w'⟩ := by
  refine ⟨grown, keeps, fun x ⟨f, member, n, A, holds, inside⟩ => .inl ?_⟩
  obtain ⟨_, below⟩ := after.below f member
  obtain ⟨_, rfl⟩ := below.unique holds
  obtain ⟨_, before⟩ := waiting.below f (.tail _ member)
  obtain ⟨_, own⟩ := waiting.below e (.head _)
  refine ⟨⟨f, .tail _ member, _, _, before, inside⟩, fun e' next same => ?_⟩
  cases eq_of_mem_next? next
  obtain ⟨beside, _⟩ := List.pairwise_cons.1 waiting.apart
  exact Finset.disjoint_left.1 (beside f member) (same ▸ own.self_mem) inside

theorem descend (waiting : h.Waiting root (e :: rest) S area) (grown : h.length ≤ h'.length) (keeps : h.Keeps h')
    (after : h'.Waiting root rest U area) (made : h'.Holds c m T) (go : Bool)
    (inner : go = true → ∀ x ∈ T, x ≠ c →
      x ∈ (area e.node).erase e.node ∨ h.length ≤ x ∧ h'.isScaffold x = true) :
    Passes ⟨h, e :: rest, w⟩
      ⟨h', (if go then h'.children c else []).map (⟨·, some c, c :: e.ancestors⟩) ++ rest, w'⟩ := by
  have others : Passes ⟨h, e :: rest, w⟩ ⟨h', rest, w'⟩ := drop waiting grown keeps after
  refine ⟨grown, keeps, fun x ⟨f, member, n, A, holds, inside⟩ => ?_⟩
  rcases List.mem_append.1 member with member | member
  · obtain ⟨d, child, rfl⟩ := List.mem_map.1 member
    cases go with
    | false => cases child
    | true =>
        obtain ⟨o, _, layer, _, _⟩ := made.layer
        have listed : d ∈ o.refs := by
          rw [if_pos rfl, Heap.children, Heap.form?_eq layer.found] at child
          exact Object.mem_refs.2 (.inl child)
        obtain ⟨within, outside⟩ := made.child_subset layer.found listed holds
        have other : x ≠ c := fun same => outside (same ▸ inside)
        refine (inner rfl x (within inside) other).imp_left fun part => ?_
        obtain ⟨_, own⟩ := waiting.below e (.head _)
        obtain ⟨apart, part⟩ := Finset.mem_erase.1 part
        refine ⟨⟨e, .head _, _, _, own, part⟩, fun e' next => ?_⟩
        cases eq_of_mem_next? next
        exact apart
  · exact others.pending x ⟨f, member, n, A, holds, inside⟩

end Passes

variable {s : Settings} {σ : Machine} {area : Ref → Finset Ref}

theorem visit_waiting (waiting : σ.heap.Waiting root σ.stack S area) :
    σ.Passes (visit s σ) ∧ ∃ U area, (visit s σ).heap.Waiting root (visit s σ).stack U area := by
  obtain ⟨h, stack, p, fault⟩ := σ
  cases fault with
  | some fault => exact ⟨.halted rfl, S, area, waiting⟩
  | none =>
      cases stack with
      | nil => exact ⟨.halted rfl, S, area, waiting⟩
      | cons e rest =>
          dsimp only at waiting
          obtain ⟨n, holds⟩ := waiting.below e (.head _)
          have agrees := edit_mirrors (s := s) holds (waiting.sees (.head _)) p
          generalize (n.decide s _).runFrom p = outcome at agrees
          generalize edited : (edit s e.ancestors e.node).runFrom ⟨h, p⟩ = result at agrees
          unfold visit
          simp only [edited]
          cases agrees with
          | error longer =>
              have after := waiting.drop longer
              exact ⟨.drop waiting longer.length_le (.of_longer longer) after, S, area, after⟩
          | @ok a d h₁ q longer related =>
              obtain ⟨c, go⟩ := a
              obtain ⟨rfl, settles⟩ := related
              obtain ⟨r, parent, ancestors⟩ := e
              dsimp only at *
              cases parent with
              | none =>
                  cases settles with
                  | gives replaced gains =>
                      -- The root has no parent to be replaced in.
                      have fresh : c ≠ r := by
                        rintro rfl
                        exact Nat.not_le.2 (holds.lt_of_mem c holds.self_mem) gains.fresh
                      rw [install, if_neg fresh]
                      have after := waiting.drop longer
                      exact ⟨.drop waiting longer.length_le (.of_longer longer) after, S, area, after⟩
                  | stays node =>
                      rw [install, if_pos rfl]
                      have after := waiting.drop longer
                      have held := holds.extend longer
                      obtain ⟨area', pushed⟩ := waiting.descend after held (waiting.part _ (.head _))
                        (fun x => .inl) (fun x inside _ => inside) d.descend
                      exact ⟨.descend waiting longer.length_le (.of_longer longer) after held d.descend
                        fun _ x inside other => .inl (Finset.mem_erase.2 ⟨other, inside⟩), S, area', pushed⟩
              | some parent =>
                  obtain ⟨above, child⟩ := waiting.parents _ (.head _) parent rfl
                  obtain ⟨inside, outside⟩ := waiting.above _ (.head _) parent above
                  have found := Heap.form?_eq (List.getElem?_eq_getElem (waiting.lt_length parent inside))
                  rw [Heap.children, found] at child
                  obtain ⟨h₂, T, installed, made, within, swaps, inner⟩ :=
                    settles.installs ancestors holds longer (outside _ (.head _)) found child
                  rw [installed]
                  obtain ⟨U, after, part, kept⟩ := waiting.swap rfl swaps made within
                  obtain ⟨area', pushed⟩ := waiting.descend after made part within kept d.descend
                  exact ⟨.descend waiting swaps.grown swaps.keeps after made d.descend inner, U, area', pushed⟩

theorem iterate_waiting (s : Settings) {read : Nat} (holds : h.Holds root N S) (tidy : h.Tidy read)
    (p : Progress) (k : Nat) :
    ((visit s)^[k] (start h root ⟨p, none⟩)).heap.Tidy read ∧
      h.Keeps ((visit s)^[k] (start h root ⟨p, none⟩)).heap ∧
      ∃ U area, ((visit s)^[k] (start h root ⟨p, none⟩)).heap.Waiting root
        ((visit s)^[k] (start h root ⟨p, none⟩)).stack U area := by
  induction k with
  | zero => exact ⟨tidy, .refl h, S, _, .start holds⟩
  | succ k ih =>
      obtain ⟨tidy, keeps, U, area, waiting⟩ := ih
      obtain ⟨passes, after⟩ := visit_waiting (s := s) waiting
      rw [Function.iterate_succ_apply']
      exact ⟨visit_tidy tidy waiting.present, keeps.trans passes.keeps, after⟩

end Machine

end JsxBoundary.InPlace
