import JsxBoundary.Proofs.ImportText
import JsxBoundary.Proofs.Reading

namespace JsxBoundary

namespace Concrete

variable {source : ByteArray} {cursor stop : Nat} {slot : Slot} {before after : List Slot}

theorem Lined.of_append (h : Lined stop cursor (before ++ slot :: after)) :
    Lined slot.node.start cursor before ∧ slot.node.start < slot.node.stop ∧
      Lined stop slot.node.stop after := by
  induction before generalizing cursor with
  | nil =>
      cases h with
      | cons first nonempty tail => exact ⟨.nil first, nonempty, tail⟩
  | cons other before ih =>
      cases h with
      | cons first nonempty tail =>
          obtain ⟨front, own, back⟩ := ih tail
          exact ⟨.cons first nonempty front, own, back⟩

theorem pieces_append_eq_ok {ps : List (Piece Node)}
    (h : pieces source cursor stop (before ++ slot :: after) = .ok ps) :
    ∃ front back, pieces source cursor slot.node.start before = .ok front ∧
      pieces source slot.node.stop stop after = .ok back ∧ ps = front ++ .child slot.index :: back := by
  induction before generalizing cursor ps with
  | nil => exact pieces_cons_eq_ok h
  | cons other before ih =>
      obtain ⟨gap, rest, first, cut, rfl⟩ := pieces_cons_eq_ok h
      obtain ⟨front, back, own, last, rfl⟩ := ih cut
      exact ⟨gap ++ .child other.index :: front, back, by rw [pieces, first, own]; rfl, last, by simp⟩

theorem mem_of_child_mem_pieces {slots : List Slot} {ps : List (Piece Node)} {i : Nat}
    (h : pieces source cursor stop slots = .ok ps) (member : .child i ∈ ps) :
    ∃ slot ∈ slots, slot.index = i := by
  have absent : ∀ {a b : Nat} {ps : List (Piece Node)}, gap source a b = .ok ps → .child i ∉ ps := by
    intro a b ps cut
    obtain ⟨t, _, rfl | ⟨rfl, _⟩⟩ := gap_eq_ok cut <;> simp
  induction slots generalizing cursor ps with
  | nil => exact absurd member (absent h)
  | cons slot slots ih =>
      obtain ⟨front, back, first, rest, rfl⟩ := pieces_cons_eq_ok h
      rcases List.mem_append.1 member with member | member
      · exact absurd member (absent first)
      · cases member with
        | head => exact ⟨slot, .head _, rfl⟩
        | tail _ member =>
            obtain ⟨own, listed, same⟩ := ih rest member
            exact ⟨own, .tail _ listed, same⟩

theorem pieces_append_prints (all : List Node) {ps : List (Piece Node)}
    (h : pieces source cursor stop (before ++ slot :: after) = .ok ps)
    (lined : Lined stop cursor (before ++ slot :: after))
    (shown : ∀ s ∈ before ++ slot :: after, ∃ c u, all[s.index]? = some c ∧ c.print = .ok u ∧
      Spells source s.node.start s.node.stop u) :
    ∃ front back a u b, ps = front ++ .child slot.index :: back ∧
      (∀ i, .child i ∈ front → ∃ s ∈ before, s.index = i) ∧
      Spells source cursor slot.node.start a ∧ Prints (front.flatMap (Part.ofPiece all)) a ∧
      Spells source slot.node.start slot.node.stop u ∧
      Prints ([.child slot.index].flatMap (Part.ofPiece all)) u ∧
      Spells source slot.node.stop stop b ∧ Prints (back.flatMap (Part.ofPiece all)) b := by
  obtain ⟨front, back, first, last, rfl⟩ := pieces_append_eq_ok h
  obtain ⟨left, nonempty, right⟩ := lined.of_append
  obtain ⟨a, spelled, prints⟩ := pieces_prints all first left fun s member =>
    shown s (List.mem_append_left _ member)
  obtain ⟨b, spelled', prints'⟩ := pieces_prints all last right fun s member =>
    shown s (List.mem_append_right _ (.tail _ member))
  obtain ⟨c, u, found, printed, own⟩ := shown slot (List.mem_append_right _ (.head _))
  refine ⟨front, back, a, u, b, rfl, fun i => mem_of_child_mem_pieces first, spelled, prints, own, ?_,
    spelled', prints'⟩
  rw [List.flatMap_cons, List.flatMap_nil, Part.ofPiece, found]
  exact .single printed

theorem slotsFrom_append (role : Role) (index : Nat) (cs ds : List Concrete) :
    slotsFrom role index (cs ++ ds) = slotsFrom role index cs ++ slotsFrom role (index + cs.length) ds := by
  unfold slotsFrom
  rw [List.mapIdx_append]
  congr 2
  funext i c
  rw [Nat.add_comm i, Nat.add_assoc]

theorem slotsFrom_cons (role : Role) (index : Nat) (c : Concrete) (cs : List Concrete) :
    slotsFrom role index (c :: cs) = ⟨role, c, index⟩ :: slotsFrom role (index + 1) cs := by
  unfold slotsFrom
  rw [List.mapIdx_cons]
  congr 2
  funext i c
  rw [Nat.add_comm i, Nat.add_assoc]

end Concrete

namespace Import

open Concrete (Spells)

/-- The offset at which the line of an import goes that becomes statement number `index`. -/
def cut (statements : List Concrete) (index : Nat) : Nat :=
  match statements[index]? with
  | some c => c.start
  | none => (statements.getLast?.map Concrete.stop).getD 0

def broken (line : String) (index count : Nat) : String :=
  if index < count ∨ index = 0 then line ++ "\n" else "\n" ++ line

section

variable {statements : List Concrete} {index : Nat} {c : Concrete}
  (ordered : statements.Pairwise fun a b => a.stop ≤ b.start)
  (nonempty : ∀ c ∈ statements, c.start < c.stop)

include ordered nonempty

theorem stop_le_cut (member : c ∈ statements.take index) : c.stop ≤ cut statements index := by
  unfold cut
  split
  · rename_i d here
    obtain ⟨inside, rfl⟩ := List.getElem?_eq_some_iff.1 here
    rw [← List.take_append_drop index statements, List.drop_eq_getElem_cons inside,
      List.pairwise_append] at ordered
    exact ordered.2.2 c member _ (.head _)
  · rename_i none
    rw [List.take_of_length_le (List.getElem?_eq_none_iff.1 none)] at member
    obtain ⟨above, last, rfl⟩ := (List.eq_nil_or_concat statements).resolve_left
      (List.ne_nil_of_mem member)
    rw [List.concat_eq_append] at ordered nonempty member ⊢
    have own := nonempty last (List.mem_append_right _ (.head _))
    rw [List.getLast?_concat]
    rcases List.mem_append.1 member with earlier | same
    · have before := (List.pairwise_append.1 ordered).2.2 c earlier last (.head _)
      exact Nat.le_trans before (Nat.le_of_lt own)
    · cases List.mem_singleton.1 same
      exact Nat.le_refl _

theorem cut_le_start (member : c ∈ statements.drop index) : cut statements index ≤ c.start := by
  have inside : index < statements.length := by
    by_contra beyond
    rw [List.drop_of_length_le (by omega)] at member
    cases member
  rw [cut, List.getElem?_eq_getElem inside]
  rw [List.drop_eq_getElem_cons inside] at member
  rcases List.mem_cons.1 member with rfl | later
  · exact Nat.le_refl _
  · rw [← List.take_append_drop index statements, List.drop_eq_getElem_cons inside,
      List.pairwise_append, List.pairwise_cons] at ordered
    have before := ordered.2.1.1 c later
    have own := nonempty _ (List.getElem_mem inside)
    exact Nat.le_trans (Nat.le_of_lt own) before

end

theorem pieceIndex?_append {front back : List (Piece Node)} {i : Nat} (first : .child i ∉ front) :
    pieceIndex? (front ++ .child i :: back) i = some front.length := by
  have absent : pieceIndex? front i = none := by
    rw [pieceIndex?, List.findIdx?_eq_none_iff]
    intro piece member
    cases piece with
    | text value => rfl
    | loose n => rfl
    | child j =>
        refine beq_eq_false_iff_ne.2 fun same => first ?_
        exact same ▸ member
  unfold pieceIndex? at absent ⊢
  rw [List.findIdx?_append, absent]
  simp [List.findIdx?_cons]

theorem splice_above {front back : List (Piece Node)} {index count : Nat} (first : .child index ∉ front)
    (before : index < count) :
    splice (front ++ .child index :: back) index count =
      some (shifted index front ++ [.child index, .text "\n"] ++ shifted index (.child index :: back)) := by
  simp [splice, before, pieceIndex?_append first]

theorem splice_below {front back : List (Piece Node)} {index : Nat} (first : .child index ∉ front) :
    splice (front ++ .child index :: back) (index + 1) (index + 1) =
      some (shifted (index + 1) (front ++ [.child index]) ++ [.text "\n", .child (index + 1)] ++
        shifted (index + 1) back) := by
  simp [splice, pieceIndex?_append first, List.take_append, List.drop_append, List.take_of_length_le,
    List.drop_of_length_le]

end Import

namespace Concrete

variable {source : String} {root : Concrete}

theorem statements_sorted (nests : Nests source root) :
    (slotsFrom .plain 0 root.named).Pairwise fun a b => a.node.start ≤ b.node.start := by
  have ordered : root.named.Pairwise fun a b => a.start ≤ b.start := by
    refine (nests.ordered.sublist root.named_sublist).imp_of_mem fun {a b} member _ before => ?_
    have nonempty := nests.nonempty a (mem_children_of_mem_named member)
    omega
  rwa [← map_node_slotsFrom .plain 0 root.named, List.pairwise_map] at ordered

theorem statements_lined (nests : Nests source root) :
    Lined source.toUTF8.size 0 (slotsFrom .plain 0 root.named) := by
  have within : Within root root.named := .of_sublist nests root.named_sublist
  have size : root.stop ≤ source.toUTF8.size := nests.stop.le_utf8ByteSize
  refine lined_of_sorted (Nat.zero_le _) (statements_sorted nests) ?_ fun slot member => ?_
  · have apart := within.apart
    rwa [← map_node_slotsFrom .plain 0 root.named, List.pairwise_map] at apart
  · have listed := List.mem_map_of_mem (f := Slot.node) member
    rw [map_node_slotsFrom] at listed
    have inside := within.inside slot.node listed
    exact ⟨Nat.zero_le _, inside.2.1, Nat.le_trans inside.2.2 size⟩

/-- The layout is the source text cut at the statements, and these print as what lies there. -/
structure Laid (source : String) (statements : List Concrete) (body : List Node) (ps : List (Piece Node)) :
    Prop where
  length : body.length = statements.length
  lined : Lined source.toUTF8.size 0 (slotsFrom .plain 0 statements)
  cut : pieces source.toUTF8 0 source.toUTF8.size (slotsFrom .plain 0 statements) = .ok ps
  shown : ∀ slot ∈ slotsFrom .plain 0 statements, ∃ n u, body[slot.index]? = some n ∧ n.print = .ok u ∧
    Spells source.toUTF8 slot.node.start slot.node.stop u

theorem toProgram_laid {m : Node} (nested : Nested source root) (read : toProgram source root = .ok m) :
    ∃ body ps, m = .mk (.program body) (some ps) ∧
      Pointwise (fun c n => toNode source.toUTF8 .plain c = .ok n) root.named body ∧
      Laid source root.named body ps := by
  obtain ⟨body, ps, rfl, results, cut⟩ := toProgram_eq_ok read
  have nests := nested root .root
  rw [layout_of_sorted (statements_sorted nests)] at cut
  refine ⟨body, ps, rfl, results, results.length, statements_lined nests, cut, fun slot member => ?_⟩
  obtain ⟨i, inside, rfl⟩ := List.mem_mapIdx.1 member
  have bound : i < body.length := results.length ▸ inside
  have listed := mem_children_of_mem_named (List.getElem_mem inside)
  have own := results.each i _ _ (List.getElem?_eq_getElem inside) (List.getElem?_eq_getElem bound)
  obtain ⟨u, printed, spelled⟩ := toNode_restores (nested.of_occurs (.of_child listed))
    (nests.nonempty _ listed) own
  exact ⟨body[i], u, by simp [bound], printed, spelled⟩

section

variable {above below : List Concrete} {c : Concrete} {statements : List Concrete} {body : List Node}
  {ps : List (Piece Node)}

theorem Laid.split (laid : Laid source (above ++ c :: below) body ps) :
    ∃ front back a u b, ps = front ++ .child above.length :: back ∧ .child above.length ∉ front ∧
      Spells source.toUTF8 0 c.start a ∧ Prints (front.flatMap (Part.ofPiece body)) a ∧
      Spells source.toUTF8 c.start source.toUTF8.size (u ++ b) ∧
      Spells source.toUTF8 0 c.stop (a ++ u) ∧
      Prints ([.child above.length].flatMap (Part.ofPiece body)) u ∧
      Spells source.toUTF8 c.stop source.toUTF8.size b ∧ Prints (back.flatMap (Part.ofPiece body)) b := by
  obtain ⟨_, lined, cut, shown⟩ := laid
  rw [slotsFrom_append, slotsFrom_cons, Nat.zero_add] at cut lined shown
  obtain ⟨front, back, a, u, b, rfl, listed, spelled, prints, own, prints', spelled', prints''⟩ :=
    pieces_append_prints body cut lined shown
  obtain ⟨left, nonempty, right⟩ := lined.of_append
  have within := Nat.le_of_lt nonempty
  refine ⟨front, back, a, u, b, rfl, fun member => ?_, spelled, prints, own.append spelled' within right.le,
    spelled.append own left.le within, prints', spelled', prints''⟩
  obtain ⟨s, slot, same⟩ := listed _ member
  obtain ⟨i, inside, rfl⟩ := List.mem_mapIdx.1 slot
  dsimp only at same
  omega

theorem Laid.splice {new : Node} {line : String} {index : Nat} (laid : Laid source statements body ps)
    (inside : index ≤ body.length) (printed : new.print = .ok line) :
    ∃ ps' before after, Import.splice ps index body.length = some ps' ∧
      Spells source.toUTF8 0 (Import.cut statements index) before ∧
      Spells source.toUTF8 (Import.cut statements index) source.toUTF8.size after ∧
      Prints (ps'.flatMap (Part.ofPiece (body.insertIdx index new)))
        (before ++ Import.broken line index statements.length ++ after) := by
  have here : (body.insertIdx index new)[index]? = some new := by
    rw [List.getElem?_insertIdx_self, if_pos inside]
  have length := laid.length
  by_cases first : index < statements.length
  · -- The line goes above a statement.
    obtain ⟨above, c, below, rfl, rfl⟩ : ∃ above c below, statements = above ++ c :: below ∧
        above.length = index :=
      ⟨statements.take index, statements[index], statements.drop (index + 1),
        by rw [← List.drop_eq_getElem_cons first, List.take_append_drop], by simp; omega⟩
    obtain ⟨front, back, a, u, b, rfl, unseen, spelled, prints, spelled', _, prints', _, prints''⟩ := laid.split
    have offset : Import.cut (above ++ c :: below) above.length = c.start := by simp [Import.cut]
    refine ⟨_, a, u ++ b, Import.splice_above unseen (length ▸ first), ?_, ?_, ?_⟩
    · rwa [offset]
    · rwa [offset]
    · rw [Import.broken, if_pos (.inl first)]
      have rest := prints'.append prints''
      rw [← List.flatMap_append] at rest
      exact Import.put_prints prints (Import.lineAbove_prints here printed) rest
  · have last : index = statements.length := by omega
    subst last
    rcases List.eq_nil_or_concat statements with rfl | ⟨above, c, rfl⟩
    · -- There are no statements.
      obtain ⟨t, spelled, prints⟩ := pieces_prints body laid.cut laid.lined laid.shown
      cases List.eq_nil_of_length_eq_zero length
      exact ⟨_, "", t, rfl, .empty (Nat.le_refl _), spelled,
        Import.put_prints (.nil : Prints ([].flatMap _) "") (Import.lineAbove_prints here printed) prints⟩
    · -- The line goes below the last statement.
      rw [List.concat_eq_append] at *
      obtain ⟨front, back, a, u, b, rfl, unseen, _, prints, _, spelled, prints', spelled', prints''⟩ :=
        laid.split
      have size : (above ++ [c]).length = above.length + 1 := by simp
      have offset : Import.cut (above ++ [c]) (above.length + 1) = c.stop := by simp [Import.cut]
      rw [length, size]
      rw [size] at here
      refine ⟨_, a ++ u, b, Import.splice_below unseen, ?_, ?_, ?_⟩
      · rwa [offset]
      · rwa [offset]
      · rw [Import.broken, if_neg (by omega)]
        have whole := prints.append prints'
        rw [← List.flatMap_append] at whole
        exact Import.put_prints whole (Import.lineBelow_prints here printed) prints''

end

theorem injectImport_placed {m : Node} {name path : String} (nested : Nested source root)
    (read : toProgram source root = .ok m) (absent : m.importsName name path = false) :
    ∃ body m' before after, m.form = .program body ∧
      Pointwise (fun c n => toNode source.toUTF8 .plain c = .ok n) root.named body ∧
      m.injectImport name path = .ok (some m') ∧
      m'.form = .program (body.insertIdx (Import.insertionIndex body) (Node.namedImport name path)) ∧
      Spells source.toUTF8 0 (Import.cut root.named (Import.insertionIndex body)) before ∧
      Spells source.toUTF8 (Import.cut root.named (Import.insertionIndex body)) source.toUTF8.size after ∧
      m'.print = .ok (before ++
        Import.broken (Import.statement name path) (Import.insertionIndex body) root.named.length ++
        after) := by
  obtain ⟨body, ps, rfl, results, laid⟩ := toProgram_laid nested read
  obtain ⟨ps', before, after, spliced, front, back, prints⟩ :=
    laid.splice (Import.insertionIndex_le body) (Node.print_namedImport name path)
  refine ⟨body, .mk (.program (body.insertIdx _ _)) (some ps'), before, after, rfl, results, ?_, rfl, front,
    back, Node.print_ok_iff.2 ⟨_, rfl, prints⟩⟩
  unfold Node.injectImport
  rw [absent]
  simp only [Node.body?, Node.form_mk, Node.layout_mk, spliced]
  rfl

end Concrete

end JsxBoundary
