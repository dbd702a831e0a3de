import JsxBoundary.InPlace.Reading
import JsxBoundary.Proofs.InPlace.Building

namespace JsxBoundary

def Piece.index? {α : Type} : Piece α → Option Nat
  | .child i => some i
  | _ => none

namespace InPlace

def Heap.Spans (h : Heap) (r : Ref) (start stop : Nat) : Prop :=
  ∃ T, h.Holds r (h.tree r) T ∧ ∀ x : Nat, x ∈ T → start ≤ x ∧ x < stop

inductive Heap.Rows (h : Heap) : Nat → List Ref → Nat → Prop
  | nil (start : Nat) : Rows h start [] start
  | cons {start middle stop : Nat} {c : Ref} {cs : List Ref} (first : h.Spans c start middle)
      (rest : Rows h middle cs stop) : Rows h start (c :: cs) stop

namespace Heap

variable {h h' : Heap} {r : Ref} {o : Object} {start stop : Nat} {cs : List Ref}

theorem Spans.lt {r : Nat} (spans : h.Spans r start stop) : start ≤ r ∧ r < stop := by
  obtain ⟨T, holds, within⟩ := spans
  exact within r holds.self_mem

theorem Spans.extend (spans : h.Spans r start stop) (longer : h <+: h') : h'.Spans r start stop := by
  obtain ⟨T, holds, within⟩ := spans
  have still := holds.extend longer
  refine ⟨T, ?_, within⟩
  rw [still.tree_eq]
  exact still

namespace Rows

theorem extend (rows : h.Rows start cs stop) (longer : h <+: h') : h'.Rows start cs stop := by
  induction rows with
  | nil start => exact .nil start
  | cons first rest ih => exact .cons (first.extend longer) ih

theorem le (rows : h.Rows start cs stop) : start ≤ stop := by
  induction rows with
  | nil start => exact Nat.le_refl start
  | cons first rest ih => exact (Nat.le_of_lt (Nat.lt_of_le_of_lt first.lt.1 first.lt.2)).trans ih

theorem bounds (rows : h.Rows start cs stop) : ∀ c : Nat, c ∈ cs → start ≤ c ∧ c < stop := by
  induction rows with
  | nil start => exact nofun
  | cons first rest ih =>
      intro c member
      have own := first.lt
      have upper := rest.le
      rcases List.mem_cons.1 member with rfl | member
      · exact ⟨own.1, Nat.lt_of_lt_of_le own.2 upper⟩
      · have := ih c member
        omega

theorem nodup (rows : h.Rows start cs stop) : cs.Nodup := by
  induction rows with
  | nil start => exact .nil
  | cons first rest ih =>
      refine List.nodup_cons.2 ⟨fun member => ?_, ih⟩
      exact Nat.not_le.2 first.lt.2 (rest.bounds _ member).1

theorem parts (rows : h.Rows start cs stop) : ∃ parts : List (Ref × Finset Ref),
    cs = parts.map (·.1) ∧ (∀ p ∈ parts, h.Holds p.1 (h.tree p.1) p.2) ∧
      (parts.Pairwise fun p q => Disjoint p.2 q.2) ∧
      ∀ p ∈ parts, ∀ x : Nat, x ∈ p.2 → start ≤ x ∧ x < stop := by
  induction rows with
  | nil start => exact ⟨[], rfl, nofun, .nil, nofun⟩
  | @cons start middle stop c cs first rest ih =>
      obtain ⟨T, holds, within⟩ := first
      obtain ⟨parts, rfl, below, apart, bounds⟩ := ih
      have lower : start ≤ middle := by
        have := within c holds.self_mem
        omega
      have upper := rest.le
      refine ⟨(c, T) :: parts, rfl, ?_, ?_, ?_⟩
      · rw [List.forall_mem_cons]
        exact ⟨holds, below⟩
      · refine List.pairwise_cons.2 ⟨fun p member => ?_, apart⟩
        refine Finset.disjoint_left.2 fun x left right => ?_
        have := within x left
        have := bounds p member x right
        omega
      · rw [List.forall_mem_cons]
        refine ⟨fun x member => ?_, fun p part x member => ?_⟩
        · have := within x member
          omega
        · have := bounds p part x member
          omega

theorem holds {r : Nat} (rows : h.Rows start o.refs stop) (found : h[r]? = some o) (shown : o.marked.Nodup)
    (outside : r < start ∨ stop ≤ r) :
    ∃ T, h.Holds r (o.toNode h.tree) T ∧ ∀ x : Nat, x ∈ T → x = r ∨ start ≤ x ∧ x < stop := by
  obtain ⟨parts, listed, below, apart, bounds⟩ := rows.parts
  obtain ⟨T, holds, within⟩ := Holds.of_parts parts found listed shown
    (fun p member => ⟨_, below p member⟩) apart fun p member own => by
      have := bounds p member r own
      omega
  refine ⟨T, holds, fun x member => ?_⟩
  rcases within x member with same | ⟨p, part, inside⟩
  · exact .inl same
  · exact .inr (bounds p part x inside)

theorem spans (found : h[r]? = some o) (rows : h.Rows (r + 1) o.refs stop) (shown : o.marked.Nodup) :
    h.Spans r r stop := by
  obtain ⟨T, holds, within⟩ := rows.holds found shown (.inl (Nat.lt_succ_self r))
  have upper := rows.le
  refine ⟨T, ?_, fun x member => ?_⟩
  · rw [holds.tree_eq]
    exact holds
  · rcases within x member with rfl | bounds <;> omega

end Rows

end Heap

/-- The layout shows each of so many children at most once and nothing that is no child. -/
structure ShowsOnce (count : Nat) (pieces : List (Piece Node)) : Prop where
  once : (pieces.filterMap Piece.index?).Nodup
  inside : ∀ i, .child i ∈ pieces → i < count
  closed : ∀ m, .loose m ∉ pieces

inductive Unshared : Node → Prop
  | node {n : Node} (shows : ∀ pieces, n.layout = some pieces → ShowsOnce n.children.length pieces)
      (below : ∀ c ∈ n.children, Unshared c) : Unshared n

section

variable {refs : List Ref} {pieces : List (Piece Node)}

theorem ShowsOnce.toPiece_ofPiece (shows : ShowsOnce refs.length pieces) (unique : refs.Nodup)
    (tree : Ref → Node) : (pieces.map (Mark.ofPiece refs)).map (Mark.toPiece refs tree) = pieces := by
  rw [List.map_map]
  refine (List.map_congr_left fun piece member => ?_).trans (List.map_id pieces)
  cases piece with
  | text value => rfl
  | loose m => exact absurd member (shows.closed m)
  | child i =>
      have bound := shows.inside i member
      have place := unique.idxOf_getElem i bound
      simp [Mark.ofPiece, Mark.toPiece, bound, place]

theorem ShowsOnce.refs_ofPiece (shows : ShowsOnce refs.length pieces) (unique : refs.Nodup) :
    (Mark.refs (pieces.map (Mark.ofPiece refs))).Nodup ∧
      ∀ r ∈ Mark.refs (pieces.map (Mark.ofPiece refs)), r ∈ refs := by
  have marks : Mark.refs (pieces.map (Mark.ofPiece refs)) =
      (pieces.filterMap Piece.index?).map fun i => refs[i]?.getD 0 := by
    rw [Mark.refs, List.filterMap_map, List.map_filterMap]
    refine List.filterMap_congr fun piece member => ?_
    cases piece with
    | text value => rfl
    | child i => rfl
    | loose m => exact absurd member (shows.closed m)
  have bound : ∀ i ∈ pieces.filterMap Piece.index?, i < refs.length := by
    intro i member
    obtain ⟨piece, member, index⟩ := List.mem_filterMap.1 member
    cases piece <;> cases index
    exact shows.inside i member
  rw [marks]
  refine ⟨shows.once.map_on fun i hi j hj same => ?_, fun r member => ?_⟩
  · rw [List.getElem?_eq_getElem (bound i hi), List.getElem?_eq_getElem (bound j hj)] at same
    exact (unique.getElem_inj_iff).1 same
  · obtain ⟨i, hi, rfl⟩ := List.mem_map.1 member
    rw [List.getElem?_eq_getElem (bound i hi)]
    exact List.getElem_mem _

theorem Unshared.exists_object {n : Node} (unshared : Unshared n) {tree : Ref → Node}
    (unique : refs.Nodup) (images : refs.map tree = n.children) :
    ∃ o : Object, o.refs = refs ∧ o.marked.Nodup ∧ o.toNode tree = n := by
  obtain ⟨shows, _⟩ := unshared
  obtain ⟨form, rfl, same⟩ := Form.exists_map_eq images.symm
  obtain ⟨form', layout⟩ := n
  obtain rfl : form.map tree = form' := same
  have count : (form.map tree).children.length = form.children.length := by
    rw [Form.children_map, List.length_map]
  have closed : ∀ o : Object, o.form = form → (∀ r ∈ o.marked, r ∈ form.children) → o.refs = form.children := by
    rintro o rfl listed
    have none : o.loose = [] := by
      rw [Object.loose, List.filter_eq_nil_iff]
      intro r member
      simpa using listed r member
    rw [Object.refs, none, List.append_nil]
  cases layout with
  | none => exact ⟨⟨form, none⟩, closed _ rfl fun r member => (by cases member), .nil, rfl⟩
  | some pieces =>
      have shows := shows pieces rfl
      rw [Node.children, Node.form_mk, count] at shows
      obtain ⟨once, listed⟩ := shows.refs_ofPiece unique
      refine ⟨⟨form, some (pieces.map (Mark.ofPiece form.children))⟩, closed _ rfl listed, once, ?_⟩
      exact congrArg (fun pieces => Node.mk (form.map tree) (some pieces)) (shows.toPiece_ofPiece unique tree)

end

theorem exists_rows {ns : List Node}
    (each : ∀ n ∈ ns, ∀ h : Heap, ∃ (h' : Heap) (r : Ref), h <+: h' ∧ h'.Spans r h.length h'.length ∧ h'.tree r = n)
    (h : Heap) : ∃ (h' : Heap) (refs : List Ref), h <+: h' ∧ h'.Rows h.length refs h'.length ∧
      refs.map h'.tree = ns := by
  induction ns generalizing h with
  | nil => exact ⟨h, [], List.prefix_refl h, .nil _, rfl⟩
  | cons n ns ih =>
      obtain ⟨h₁, r, longer, spans, rfl⟩ := each n (.head _) h
      obtain ⟨h₂, refs, longer', rows, rfl⟩ := ih (fun n member => each n (.tail _ member)) h₁
      refine ⟨h₂, r :: refs, longer.trans longer', .cons (spans.extend longer') rows, ?_⟩
      obtain ⟨T, holds, _⟩ := spans
      rw [List.map_cons, (holds.extend longer').tree_eq]

theorem exists_holds {n : Node} (unshared : Unshared n) (h : Heap) :
    ∃ (h' : Heap) (r : Ref), h <+: h' ∧ h'.Spans r h.length h'.length ∧ h'.tree r = n := by
  induction unshared generalizing h with
  | @node n shows below ih =>
      obtain ⟨h₁, refs, longer, rows, images⟩ := exists_rows (fun c member h => ih c member h) h
      obtain ⟨o, rfl, once, rfl⟩ := (Unshared.node shows below).exists_object rows.nodup images
      have stands : h₁ <+: h₁ ++ [o] := List.prefix_append h₁ [o]
      obtain ⟨T, holds, within⟩ := (rows.extend stands).holds (h₁.getElem?_concat o) once (.inr (Nat.le_refl _))
      have trees : o.toNode (h₁ ++ [o] : Heap).tree = o.toNode h₁.tree := by
        obtain ⟨parts, refs, each, _⟩ := rows.parts
        refine Object.toNode_congr fun c listed => ?_
        rw [refs] at listed
        obtain ⟨p, part, rfl⟩ := List.mem_map.1 listed
        exact ((each p part).extend stands).tree_eq
      refine ⟨h₁ ++ [o], h₁.length, longer.trans stands, ⟨T, ?_, fun x member => ?_⟩, holds.tree_eq.trans trees⟩
      · rw [holds.tree_eq]
        exact holds
      · have grown := longer.length_le
        rw [List.length_append]
        rcases within x member with rfl | bounds
        · exact ⟨grown, Nat.lt_succ_self _⟩
        · exact ⟨bounds.1, Nat.lt_succ_of_lt bounds.2⟩

end InPlace

end JsxBoundary
