import JsxBoundary.InPlace.Import
import JsxBoundary.Proofs.Pipeline
import JsxBoundary.Proofs.InPlace.Upkeep

namespace JsxBoundary.InPlace

variable {h h₁ : Heap} {root new : Ref} {marks : List Mark} {body : List Ref} {index read : Nat}
  {t u : Ref → Node}

theorem idxOf_of_getElem? {cs : List Ref} {i : Nat} {c : Ref} (once : cs.Nodup) (found : cs[i]? = some c) :
    cs.idxOf c = i := by
  obtain ⟨bound, rfl⟩ := List.getElem?_eq_some_iff.1 found
  exact once.idxOf_getElem i bound

theorem nodup_insertIdx (once : body.Nodup) (fresh : new ∉ body) (inside : index ≤ body.length) :
    (body.insertIdx index new).Nodup :=
  (List.perm_insertIdx new body inside).nodup_iff.2 (List.nodup_cons.2 ⟨fresh, once⟩)

theorem idxOf_insertIdx {c : Ref} (once : body.Nodup) (fresh : new ∉ body) (inside : index ≤ body.length)
    (member : c ∈ body) :
    (body.insertIdx index new).idxOf c = if index ≤ body.idxOf c then body.idxOf c + 1 else body.idxOf c := by
  have found : body[body.idxOf c]? = some c := List.getElem?_idxOf member
  apply idxOf_of_getElem? (nodup_insertIdx once fresh inside)
  split
  · rwa [List.getElem?_insertIdx_of_gt (by omega), Nat.add_sub_cancel]
  · rwa [List.getElem?_insertIdx_of_lt (by omega)]

namespace Mark

theorem shifted_toPiece (once : body.Nodup) (fresh : new ∉ body) (inside : index ≤ body.length)
    (unseen : .node new ∉ marks) (same : ∀ c, c ≠ new → u c = t c) :
    Import.shifted index (marks.map (toPiece body t)) = marks.map (toPiece (body.insertIdx index new) u) := by
  rw [Import.shifted, List.map_map]
  refine List.map_congr_left fun mark listed => ?_
  cases mark with
  | text value => rfl
  | node c =>
      have other : c ≠ new := by
        rintro rfl
        exact unseen listed
      have either : c ∈ body.insertIdx index new ↔ c ∈ body := by
        rw [List.mem_insertIdx inside]
        exact or_iff_right other
      by_cases member : c ∈ body
      · simp only [Function.comp_apply, toPiece, if_pos member, if_pos (either.2 member)]
        rw [idxOf_insertIdx once fresh inside member]
      · simp only [Function.comp_apply, toPiece, if_neg member, if_neg fun own => member (either.1 own)]
        rw [same c other]

theorem pieceIndex?_toPiece {i : Nat} (once : body.Nodup) (bound : i < body.length) :
    Import.pieceIndex? (marks.map (toPiece body t)) i = marks.findIdx? (· == .node body[i]) := by
  rw [Import.pieceIndex?, List.findIdx?_map]
  congr 1
  funext mark
  have shows := toPiece_shows t (List.getElem_mem bound) mark
  rwa [once.idxOf_getElem i bound] at shows

theorem splice_toPiece (once : body.Nodup) (fresh : new ∉ body) (inside : index ≤ body.length)
    (unseen : .node new ∉ marks) (same : ∀ c, c ≠ new → u c = t c) :
    Import.splice (marks.map (toPiece body t)) index body.length =
      (splice marks body index new).map (·.map (toPiece (body.insertIdx index new) u)) := by
  have listed : new ∈ body.insertIdx index new := (List.mem_insertIdx inside).2 (.inl rfl)
  have first : (body.insertIdx index new).idxOf new = index := by
    apply idxOf_of_getElem? (nodup_insertIdx once fresh inside)
    rw [List.getElem?_insertIdx_self, if_pos inside]
  have shows : toPiece (body.insertIdx index new) u (.node new) = .child index := by
    rw [toPiece, if_pos listed, first]
  have put : ∀ (place : Nat) (line : List Mark),
      Import.shifted index ((marks.map (toPiece body t)).take place) ++ line.map (toPiece (body.insertIdx index new) u) ++
        Import.shifted index ((marks.map (toPiece body t)).drop place) =
      (marks.take place ++ line ++ marks.drop place).map (toPiece (body.insertIdx index new) u) := by
    intro place line
    rw [← List.map_take, ← List.map_drop,
      shifted_toPiece once fresh inside (fun member => unseen (List.mem_of_mem_take member)) same,
      shifted_toPiece once fresh inside (fun member => unseen (List.mem_of_mem_drop member)) same,
      List.map_append, List.map_append]
  unfold Import.splice splice
  dsimp only
  by_cases before : index < body.length
  · rw [if_pos before, if_pos before, pieceIndex?_toPiece once before, List.getElem?_eq_getElem before,
      Option.bind_some, Option.map_map]
    congr 1
    funext place
    have line := put place [.node new, .text "\n"]
    rw [List.map_cons, shows] at line
    exact line
  · rw [if_neg before, if_neg before]
    by_cases last : 0 < index
    · have bound : index - 1 < body.length := by omega
      rw [if_pos last, if_pos last, pieceIndex?_toPiece once bound, List.getElem?_eq_getElem bound,
        Option.bind_some, Option.map_map]
      congr 1
      funext place
      have line := put (place + 1) [.text "\n", .node new]
      rw [List.map_cons, List.map_singleton, shows] at line
      exact line
    · rw [if_neg last, if_neg last]
      have line := put 0 [.node new, .text "\n"]
      rw [List.map_cons, shows] at line
      exact congrArg some line

theorem exists_splice (new : Ref) (inside : index ≤ body.length) (shown : ∀ c ∈ body, .node c ∈ marks) :
    ∃ marks', splice marks body index new = some marks' ∧ (refs marks').Perm (new :: refs marks) := by
  have put : ∀ (place : Nat) (line : List Mark), refs line = [new] →
      (refs (marks.take place ++ line ++ marks.drop place)).Perm (new :: refs marks) := by
    intro place line one
    have whole : refs marks = refs (marks.take place) ++ refs (marks.drop place) := by
      rw [refs, refs, refs, ← List.filterMap_append, List.take_append_drop]
    rw [whole, refs, List.filterMap_append, List.filterMap_append]
    have middle : (refs (marks.take place) ++ new :: refs (marks.drop place)).Perm
        (new :: (refs (marks.take place) ++ refs (marks.drop place))) := List.perm_middle
    rw [← List.singleton_append, ← one, ← List.append_assoc] at middle
    exact middle
  have find : ∀ {i}, (bound : i < body.length) → ∃ place, marks.findIdx? (· == .node body[i]) = some place := by
    intro i bound
    rw [← Option.isSome_iff_exists, List.findIdx?_isSome, List.any_eq_true]
    exact ⟨_, shown _ (List.getElem_mem bound), by simp⟩
  unfold splice
  dsimp only
  split
  · rename_i before
    obtain ⟨place, found⟩ := find before
    rw [List.getElem?_eq_getElem before, Option.bind_some, found]
    exact ⟨_, rfl, put place _ rfl⟩
  · split
    · have bound : index - 1 < body.length := by omega
      obtain ⟨place, found⟩ := find bound
      rw [List.getElem?_eq_getElem bound, Option.bind_some, found]
      exact ⟨_, rfl, put (place + 1) _ rfl⟩
    · exact ⟨_, rfl, put 0 _ rfl⟩

end Mark

namespace Build

theorem namedImport_gains (name source : String) : h.Gains (namedImport name source h).2 ∅
    (namedImport name source h).1 (Node.namedImport name source) :=
  (Heap.gains_leaf (.importSpecifier name name) rfl).trans fun _ holds => by
    have gains := Heap.gains_single (.importDecl source [h.length] none none) holds rfl
    simp only [Form.map, List.map_cons, List.map_nil, holds.tree_eq] at gains
    exact gains

theorem namedImport_tidies (name source : String) (tidy : h.Tidy read) :
    Tidies read h (namedImport name source) fun _ _ => True := by
  unfold namedImport
  refine .bind (.leaf tidy rfl rfl) fun h₁ specifier _ tidy₁ added => ?_
  refine .mono (.around tidy₁ rfl added.2 rfl) ?_
  exact fun _ _ _ _ => trivial

end Build

theorem Object.toNode_insertIdx {m : Node} (index : Nat) (own : ∀ c ∈ body, c ≠ new)
    (layout : Option (List Mark)) :
    Object.toNode (Function.update t new m) ⟨.program (body.insertIdx index new), layout⟩ =
      .mk (.program ((body.map t).insertIdx index m))
        (layout.map (·.map (Mark.toPiece (body.insertIdx index new) (Function.update t new m)))) := by
  have statements : (body.map t).insertIdx index m =
      (body.insertIdx index new).map (Function.update t new m) := by
    rw [List.map_insertIdx, Function.update_self,
      List.map_congr_left fun c member => Function.update_of_ne (own c member) _ _]
  rw [statements]
  rfl

namespace Heap

variable {o p : Object} {area : Ref → Finset Ref} {n : Node} {A : Finset Ref}

theorem Layer.adopt (layer : h.Layer root o area) (gains : h.Gains h₁ ∅ new n) (once : p.refs.Nodup)
    (shown : p.marked.Nodup) (listed : ∀ c ∈ p.refs, c = new ∨ c ∈ o.refs) :
    ∃ T, Holds (h₁.set root p) root (p.toNode (Function.update h.tree new n)) T := by
  obtain ⟨T, made, within⟩ := gains.holds
  have grown := gains.longer.length_le
  have bound : root < h.length := (List.getElem?_eq_some_iff.1 layer.found).1
  have there : (h₁.set root p)[root]? = some p := List.getElem?_set_self (Nat.lt_of_lt_of_le bound grown)
  have fresh : ∀ x : Nat, x ∈ T → h.length ≤ x := fun x member =>
    (within x member).resolve_left (Finset.notMem_empty x)
  have old : ∀ c ∈ o.refs, c ≠ new := by
    rintro c member rfl
    exact Nat.not_le.2 ((layer.below c member).lt_of_mem c (layer.below c member).self_mem) gains.fresh
  have clear : ∀ c ∈ o.refs, Disjoint T (area c) := fun c member =>
    Finset.disjoint_left.2 fun x left right =>
      Nat.not_le.2 ((layer.below c member).lt_of_mem x right) (fresh x left)
  refine ⟨insert root (p.refs.toFinset.biUnion (Function.update area new T)),
    .intro there once shown (fun c member => ?_) (fun c hc d hd ne => ?_) fun c member => ?_⟩
  · rcases listed c member with rfl | kept
    · rw [Function.update_self, Function.update_self]
      refine made.frame fun x inside => List.getElem?_set_ne ?_
      exact fun same => Nat.not_le.2 bound (same ▸ fresh x inside)
    · rw [Function.update_of_ne (old c kept), Function.update_of_ne (old c kept)]
      refine ((layer.below c kept).extend gains.longer).frame fun x inside => List.getElem?_set_ne ?_
      exact fun same => layer.own c kept (same ▸ inside)
  · rcases listed c hc with rfl | first <;> rcases listed d hd with rfl | second
    · exact absurd rfl ne
    · simpa [old d second] using clear d second
    · simpa [old c first] using (clear c first).symm
    · simpa [old c first, old d second] using layer.apart c first d second ne
  · rcases listed c member with rfl | kept
    · rw [Function.update_self]
      exact fun inside => Nat.not_le.2 bound (fresh root inside)
    · rw [Function.update_of_ne (old c kept)]
      exact layer.own c kept

section

variable {layout layout' : Option (List Mark)}

theorem Layer.insertStatement (layer : h.Layer root ⟨.program body, layout⟩ area) (tidy : h.Tidy read)
    (gains : h.Gains h₁ ∅ new n) (tidy₁ : h₁.Tidy read) (added : new < h₁.length) (inside : index ≤ body.length)
    (shown : (Object.marked ⟨.program (body.insertIdx index new), layout'⟩).Nodup)
    (seen : ∀ c ∈ Object.marked ⟨.program (body.insertIdx index new), layout'⟩, c = new ∨
      c ∈ Object.marked ⟨.program body, layout⟩)
    (kept : ∀ marks', layout' = some marks' → .node new ∈ marks' ∧
      ∃ marks, layout = some marks ∧ ∀ c, .node c ∈ marks → .node c ∈ marks') :
    (∃ T, Holds (h₁.set root ⟨.program (body.insertIdx index new), layout'⟩) root
        (Object.toNode (Function.update h.tree new n) ⟨.program (body.insertIdx index new), layout'⟩) T) ∧
      Heap.Tidy read (h₁.set root ⟨.program (body.insertIdx index new), layout'⟩) := by
  have before := tidy.objects root _ layer.found
  have children : ∀ c, c ∈ body.insertIdx index new ↔ c = new ∨ c ∈ body := fun c => List.mem_insertIdx inside
  have fresh : ∀ c ∈ Object.refs ⟨.program body, layout⟩, (c : Nat) < h.length := before.inside
  have bound : ∀ c : Nat, c = new ∨ c ∈ Object.refs ⟨.program body, layout⟩ → c < h₁.length := by
    rintro c (rfl | old)
    · exact added
    · exact Nat.lt_of_lt_of_le (fresh c old) gains.longer.length_le
  have closed : Object.loose ⟨.program (body.insertIdx index new), layout'⟩ = [] := by
    apply List.eq_nil_iff_forall_not_mem.2
    intro c loose
    obtain ⟨mark, outside⟩ := Object.mem_loose.1 loose
    rcases seen c mark with rfl | mark
    · exact outside ((children c).2 (.inl rfl))
    · have other : c ∉ body := fun own => outside ((children c).2 (.inr own))
      obtain ⟨_, ⟨content, form⟩, _⟩ := tidy.loose root _ layer.found c (Object.mem_loose.2 ⟨mark, other⟩)
      cases form
  have once : (body.insertIdx index new).Nodup := by
    refine nodup_insertIdx before.once (fun own => ?_) inside
    exact Nat.not_le.2 (fresh new (Object.mem_refs.2 (.inl own))) gains.fresh
  have refs : Object.refs ⟨.program (body.insertIdx index new), layout'⟩ = body.insertIdx index new := by
    rw [Object.refs, closed, List.append_nil]
    rfl
  have listed : ∀ c ∈ Object.refs ⟨.program (body.insertIdx index new), layout'⟩, c = new ∨
      c ∈ Object.refs ⟨.program body, layout⟩ := by
    rw [refs]
    exact fun c member => ((children c).1 member).imp_right fun own => Object.mem_refs.2 (.inl own)
  have there : h₁[root]? = some ⟨.program body, layout⟩ := by
    obtain ⟨more, rfl⟩ := gains.longer
    exact (List.getElem?_append_left (List.getElem?_eq_some_iff.1 layer.found).1).trans layer.found
  refine ⟨layer.adopt gains (by rw [refs]; exact once) shown listed,
    tidy₁.set there (fun leaf => by cases leaf) ?_ ?_ (fun _ form => by cases form)
      fun _ _ _ _ _ _ form => by cases form⟩
  · refine ⟨fun c member => ?_, once, shown, fun marks' written c child => .inl ?_,
      fun _ _ _ _ form => by cases form⟩
    · rw [List.length_set]
      exact bound c (listed c member)
    · obtain ⟨shows, marks, layout, rest⟩ := kept marks' written
      rcases (children c).1 child with rfl | own
      · exact shows
      · rcases before.complete marks layout c own with shown | ⟨form, _, omits⟩
        · exact rest c shown
        · cases omits
  · rw [closed]
    intro c member
    cases member

end

theorem splices {layout : List Mark} (before : Object.Tidy h ⟨.program body, some layout⟩)
    (fresh : ∀ c ∈ Object.refs ⟨.program body, some layout⟩, c ≠ new) (inside : index ≤ body.length) (n : Node) :
    ∃ marks, Mark.splice layout body index new = some marks ∧
      Import.splice (layout.map (Mark.toPiece body h.tree)) index body.length =
        some (marks.map (Mark.toPiece (body.insertIdx index new) (Function.update h.tree new n))) ∧
      (Mark.refs marks).Perm (new :: Mark.refs layout) := by
  have shown : ∀ c ∈ body, .node c ∈ layout := by
    intro c member
    rcases before.complete layout rfl c member with shown | ⟨_, _, omits⟩
    · exact shown
    · cases omits
  have unseen : .node new ∉ layout := fun member =>
    fresh new (Object.mem_refs.2 (.inr (Mark.mem_refs.2 member))) rfl
  have absent : new ∉ body := fun member => fresh new (Object.mem_refs.2 (.inl member)) rfl
  have once : body.Nodup := before.once
  obtain ⟨marks, spliced, perm⟩ := Mark.exists_splice new inside shown
  have pieces := Mark.splice_toPiece once absent inside unseen fun c other =>
    Function.update_of_ne other n h.tree
  rw [spliced] at pieces
  exact ⟨marks, spliced, pieces, perm⟩

theorem injectImport_tidy (name source : String) {m : Node} {S : Finset Ref} {statements : List Node}
    (holds : h.Holds root m S) (tidy : h.Tidy read) (form : m.form = .program statements) :
    h.injectImport name source root = .ok none ∧ m.injectImport name source = .ok none ∨
      ∃ h' m' T, h.injectImport name source root = .ok (some h') ∧
        m.injectImport name source = .ok (some m') ∧ h'.Holds root m' T ∧ h'.Tidy read := by
  obtain ⟨⟨form', layout⟩, area, layer, rfl, rfl⟩ := holds.layer
  obtain ⟨body, rfl, rfl⟩ : ∃ body, form' = .program body ∧ statements = body.map h.tree := by
    cases form' <;> cases form
    exact ⟨_, rfl, rfl⟩
  have before := tidy.objects root _ layer.found
  have found : Node.body? (Object.toNode h.tree ⟨.program body, layout⟩) = some (body.map h.tree) := rfl
  have asked : Node.importsName name source (Object.toNode h.tree ⟨.program body, layout⟩) =
      (body.map h.tree).any (Node.importsNameFrom name source) := rfl
  unfold Heap.injectImport Node.injectImport
  rw [layer.found, found, asked]
  dsimp only
  by_cases present : (body.map h.tree).any (Node.importsNameFrom name source) = true
  · rw [if_pos present, if_pos present]
    exact .inl ⟨rfl, rfl⟩
  · rw [if_neg present, if_neg present]
    right
    have gains := Build.namedImport_gains (h := h) name source
    obtain ⟨_, tidy₁, _⟩ := Build.namedImport_tidies name source tidy
    generalize Build.namedImport name source h = made at gains tidy₁
    obtain ⟨new, h₁⟩ := made
    dsimp only at gains tidy₁ ⊢
    have inside : Import.insertionIndex (body.map h.tree) ≤ body.length := by
      simpa using Import.insertionIndex_le (body.map h.tree)
    generalize Import.insertionIndex (body.map h.tree) = index at inside
    have added : new < h₁.length := by
      obtain ⟨T, made, _⟩ := gains.holds
      exact made.lt_of_mem new made.self_mem
    have fresh : ∀ c ∈ Object.refs ⟨.program body, layout⟩, c ≠ new := by
      rintro c listed rfl
      exact Nat.not_le.2 (before.inside c listed) gains.fresh
    have own : ∀ c ∈ body, c ≠ new := fun c member => fresh c (Object.mem_refs.2 (.inl member))
    have node := Object.toNode_insertIdx (t := h.tree) (m := Node.namedImport name source) index own
    cases layout with
    | none =>
        obtain ⟨⟨T, holds'⟩, tidy'⟩ :
            _ ∧ Heap.Tidy read (h₁.set root ⟨.program (body.insertIdx index new), none⟩) :=
          layer.insertStatement tidy gains tidy₁ added inside .nil (fun c member => by cases member)
            fun marks same => by cases same
        exact ⟨_, _, T, rfl, by rw [node]; rfl, holds', tidy'⟩
    | some marks =>
        obtain ⟨marks', spliced, pieces, perm⟩ :=
          splices before fresh inside (Node.namedImport name source)
        have listed : ∀ c, .node c ∈ marks' ↔ c = new ∨ .node c ∈ marks := by
          intro c
          rw [← Mark.mem_refs, ← Mark.mem_refs, perm.mem_iff, List.mem_cons]
        obtain ⟨⟨T, holds'⟩, tidy'⟩ :
            _ ∧ Heap.Tidy read (h₁.set root ⟨.program (body.insertIdx index new), some marks'⟩) := by
          refine layer.insertStatement tidy gains tidy₁ added inside ?_ (fun c member => ?_) fun _ same => ?_
          · refine perm.nodup_iff.2 (List.nodup_cons.2 ⟨?_, before.shown⟩)
            exact fun member => fresh new (Object.mem_refs.2 (.inr member)) rfl
          · exact ((listed c).1 (Mark.mem_refs.1 member)).imp_right Mark.mem_refs.2
          · cases same
            exact ⟨(listed new).2 (.inl rfl), marks, rfl, fun c member => (listed c).2 (.inr member)⟩
        refine ⟨_, _, T, by dsimp only; rw [spliced], ?_, holds', tidy'⟩
        have written : Node.layout (Object.toNode h.tree ⟨.program body, some marks⟩) =
            some (marks.map (Mark.toPiece body h.tree)) := rfl
        rw [node, List.length_map, written]
        dsimp only
        rw [pieces]
        rfl

end Heap

end JsxBoundary.InPlace
