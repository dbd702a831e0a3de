import JsxBoundary.Proofs.Printing
import JsxBoundary.Proofs.Replacement

namespace JsxBoundary

namespace Node

/-- The pieces show the nodes in order, numbered from `i` on, with blank text between them. -/
inductive Shows : Nat → List Node → List (Piece Node) → Prop
  | nil {i : Nat} : Shows i [] []
  | text {i : Nat} {cs : List Node} {pieces : List (Piece Node)} {value : String}
      (blank : Text.isBlank value = true) (tail : Shows i cs pieces) :
      Shows i cs (.text value :: pieces)
  | child {i : Nat} {c : Node} {cs : List Node} {pieces : List (Piece Node)}
      (tail : Shows (i + 1) cs pieces) : Shows i (c :: cs) (.child i :: pieces)

namespace Shows

variable {i : Nat} {cs ds : List Node} {pieces : List (Piece Node)}

theorem append {front back : List (Piece Node)} (first : Shows i cs front)
    (second : Shows (i + cs.length) ds back) : Shows i (cs ++ ds) (front ++ back) := by
  induction first with
  | nil => exact second
  | text blank _ ih => exact .text blank (ih second)
  | child _ ih =>
      refine .child (ih ?_)
      rwa [List.length_cons, Nat.add_comm _ 1, ← Nat.add_assoc] at second

theorem of_append (h : Shows i (cs ++ ds) pieces) :
    ∃ front back, pieces = front ++ back ∧ Shows i cs front ∧ Shows (i + cs.length) ds back := by
  generalize same : cs ++ ds = nodes at h
  induction h generalizing cs with
  | nil =>
      obtain ⟨rfl, rfl⟩ := List.append_eq_nil_iff.1 same
      exact ⟨[], [], rfl, .nil, .nil⟩
  | text blank _ ih =>
      obtain ⟨front, back, rfl, first, second⟩ := ih same
      exact ⟨_ :: front, back, rfl, .text blank first, second⟩
  | @child i c nodes pieces tail ih =>
      cases cs with
      | nil =>
          cases same
          exact ⟨[], .child i :: pieces, rfl, .nil, .child tail⟩
      | cons d cs =>
          injection same with head rest
          subst head
          obtain ⟨front, back, rfl, first, second⟩ := ih rest
          refine ⟨_ :: front, back, rfl, .child first, ?_⟩
          rw [List.length_cons, Nat.add_comm cs.length 1, ← Nat.add_assoc]
          exact second

theorem of_cons {c : Node} (h : Shows i (c :: cs) pieces) :
    ∃ front back, pieces = front ++ .child i :: back ∧ Shows i [] front ∧ Shows (i + 1) cs back := by
  generalize same : c :: cs = nodes at h
  induction h with
  | nil => cases same
  | text blank _ ih =>
      obtain ⟨front, back, rfl, first, second⟩ := ih same
      exact ⟨_ :: front, back, rfl, .text blank first, second⟩
  | @child i d nodes pieces tail =>
      cases same
      exact ⟨[], pieces, rfl, .nil, tail⟩

theorem range (h : Shows i cs pieces) {j : Nat} (member : .child j ∈ pieces) :
    i ≤ j ∧ j < i + cs.length := by
  induction h with
  | nil => cases member
  | text _ _ ih =>
      cases member with
      | tail _ member => exact ih member
  | child _ ih =>
      cases member with
      | head => simp
      | tail _ member =>
          have below := ih member
          rw [List.length_cons]
          omega

end Shows

def Literal (n : Node) : Prop :=
  ∀ value, n.form = .text value → n.print = .ok value

theorem Literal.isBlank {c : Node} {u : String} (literal : Literal c) (blank : c.isBlankText = true)
    (printed : c.print = .ok u) : Text.isBlank u = true := by
  unfold isBlankText at blank
  split at blank
  · rename_i value form
    rw [literal value form] at printed
    cases printed
    exact blank
  · cases blank

theorem keptContent_cons (c : Node) (cs : List Node) :
    keptContent (c :: cs) = if c.isBlankText then keptContent cs else c :: keptContent cs := by
  unfold keptContent
  cases blank : c.isBlankText <;> simp [blank]

theorem keptContent_append (cs ds : List Node) :
    keptContent (cs ++ ds) = keptContent cs ++ keptContent ds :=
  List.filter_append ..

theorem keptPiece_child {all content : List Node} {k : Nat} {c : Node} (found : content[k]? = some c) :
    keptPiece all content (.child (k + 1)) =
      if c.isBlankText then [.loose c] else [.child (keptContent (content.take k)).length] := by
  rw [keptPiece, found]

namespace Shows

variable {i : Nat} {cs all : List Node} {pieces : List (Piece Node)} {t : String}

theorem of_child {c : Node} (placed : ∀ j d, (c :: cs)[j]? = some d → all[i + j]? = some d)
    (printed : Prints ((Piece.child i :: pieces).flatMap (Part.ofPiece all)) t) :
    ∃ a b, c.print = .ok a ∧ Prints (pieces.flatMap (Part.ofPiece all)) b ∧ t = a ++ b ∧
      ∀ j d, cs[j]? = some d → all[i + 1 + j]? = some d := by
  have here : all[i]? = some c := placed 0 c rfl
  have shown : (Piece.child i :: pieces).flatMap (Part.ofPiece all) =
      .node c :: pieces.flatMap (Part.ofPiece all) := by
    rw [List.flatMap_cons, Part.ofPiece, here]
    rfl
  rw [shown] at printed
  obtain ⟨a, b, head, tail, rfl⟩ := printed.of_cons
  refine ⟨a, b, head, tail, rfl, fun j d found => ?_⟩
  rw [Nat.add_assoc, Nat.add_comm 1 j]
  exact placed (j + 1) d found

theorem isBlank (h : Shows i cs pieces) (placed : ∀ j d, cs[j]? = some d → all[i + j]? = some d)
    (literal : ∀ c ∈ cs, Literal c) (kept : keptContent cs = [])
    (printed : Prints (pieces.flatMap (Part.ofPiece all)) t) : Text.isBlank t = true := by
  induction h generalizing t with
  | nil =>
      cases printed
      rfl
  | text blank _ ih =>
      obtain ⟨a, b, head, tail, rfl⟩ := printed.of_cons
      cases head
      rw [Text.isBlank_append, blank]
      exact ih placed literal kept tail
  | @child i c cs pieces _ ih =>
      obtain ⟨a, b, head, tail, rfl, placed⟩ := of_child placed printed
      rw [keptContent_cons] at kept
      split at kept
      · rename_i blankChild
        rw [Text.isBlank_append, (literal c (.head _)).isBlank blankChild head]
        exact ih placed (fun c member => literal c (.tail _ member)) kept tail
      · cases kept

theorem lone {c : Node} (h : Shows i cs pieces)
    (placed : ∀ j d, cs[j]? = some d → all[i + j]? = some d) (literal : ∀ c ∈ cs, Literal c)
    (kept : keptContent cs = [c]) (printed : Prints (pieces.flatMap (Part.ofPiece all)) t) :
    ∃ before u after, c.print = .ok u ∧ t = before ++ u ++ after ∧
      Text.isBlank before = true ∧ Text.isBlank after = true := by
  induction h generalizing t with
  | nil => cases kept
  | @text i cs pieces value blank _ ih =>
      obtain ⟨a, b, head, tail, rfl⟩ := printed.of_cons
      cases head
      obtain ⟨before, u, after, inner, rfl, front, back⟩ := ih placed literal kept tail
      refine ⟨value ++ before, u, after, inner, by simp [String.append_assoc], ?_, back⟩
      rw [Text.isBlank_append, blank, front]
      rfl
  | @child i d cs pieces rest ih =>
      obtain ⟨a, b, head, tail, rfl, placed⟩ := of_child placed printed
      have literalTail : ∀ c ∈ cs, Literal c := fun c member => literal c (.tail _ member)
      rw [keptContent_cons] at kept
      split at kept
      · rename_i blankChild
        obtain ⟨before, u, after, inner, rfl, front, back⟩ := ih placed literalTail kept tail
        refine ⟨a ++ before, u, after, inner, by simp [String.append_assoc], ?_, back⟩
        rw [Text.isBlank_append, (literal d (.head _)).isBlank blankChild head, front]
        rfl
      · injection kept with same others
        subst same
        have blank := rest.isBlank placed literalTail others tail
        exact ⟨"", a, b, head, by simp, rfl, blank⟩

theorem edits_kept {component : String} {deferred : Bool} {content before kept : List Node}
    (h : Shows i cs pieces) (placed : ∀ j d, cs[j]? = some d → all[i + j]? = some d)
    (split : content = before ++ cs) (count : i = before.length + 1)
    (edits : Pointwise (Node.Edits component deferred) (keptContent content) kept) :
    Pointwise (Part.Edits component deferred) (pieces.flatMap (Part.ofPiece all))
      ((pieces.flatMap (keptPiece all content)).flatMap (Part.ofPiece kept)) := by
  -- `before` is the content shown so far; a kept child's new number counts the kept ones in it.
  induction h generalizing before with
  | nil => exact .nil
  | text _ _ ih => exact .cons (.text _) (ih placed split count)
  | @child i c cs pieces _ ih =>
      subst count
      have here : all[before.length + 1]? = some c := placed 0 c rfl
      have found : content[before.length]? = some c := by simp [split]
      have taken : content.take before.length = before := by simp [split]
      have onward : content = (before ++ [c]) ++ cs := by simp [split]
      have rest := ih (fun j d found => by
          have next := placed (j + 1) d found
          rwa [Nat.add_comm j 1, ← Nat.add_assoc] at next) onward (by simp)
      have own : Pointwise (Part.Edits component deferred)
          (Part.ofPiece all (.child (before.length + 1)))
          ((keptPiece all content (.child (before.length + 1))).flatMap (Part.ofPiece kept)) := by
        rw [Part.ofPiece, here, keptPiece_child found, taken]
        by_cases blankChild : c.isBlankText = true
        · rw [if_pos blankChild]
          exact .cons (.node (.refl c)) .nil
        · rw [if_neg blankChild]
          have inside : (keptContent content)[(keptContent before).length]? = some c := by
            rw [split, keptContent_append, keptContent_cons, if_neg blankChild]
            simp
          have bound : (keptContent before).length < kept.length := by
            rw [edits.length]
            exact (List.getElem?_eq_some_iff.1 inside).1
          have shown := List.getElem?_eq_getElem bound
          rw [List.flatMap_singleton, Part.ofPiece, shown]
          exact .cons (.node (edits.each _ _ _ inside shown)) .nil
      rw [List.flatMap_cons, List.flatMap_cons, List.flatMap_append]
      exact own.append rest

end Shows

inductive BodyEdits (component : String) (deferred : Bool) (n : Node) (content : List Node) :
    List Node → Node → Prop
  | element {c body : Node} (element : c.isElement = true) (edits : c.Edits component deferred body) :
      BodyEdits component deferred n content [c] body
  | container {c e body : Node} {pieces : List (Piece Node)} (held : c.form = .container e)
      (layout : c.layout = some pieces) (shown : pieces.any Piece.isFirstChild = true)
      (edits : e.Edits component deferred body) : BodyEdits component deferred n content [c] body
  | fragment {kept kept' : List Node} (several : loneContainer? kept = none)
      (edits : Pointwise (Node.Edits component deferred) kept kept') :
      BodyEdits component deferred n content kept ((n.keptFragment content).withChildren kept')

structure Framed (n opening : Node) (content : List Node) (closing : Node)
    (pieces : List (Piece Node)) : Prop where
  form : n.form = .element (some opening) content (some closing)
  layout : n.layout = some pieces
  shown : Shows 0 (opening :: (content ++ [closing])) pieces

def isNumbered (i : Nat) : Piece Node → Bool
  | .child j => j == i
  | _ => false

theorem findIdx?_split {α : Type} {p : α → Bool} {xs ys : List α} {y : α} (before : ∀ x ∈ xs, p x = false)
    (here : p y = true) : (xs ++ y :: ys).findIdx? p = some xs.length := by
  rw [List.findIdx?_append, List.findIdx?_eq_none_iff.2 before, List.findIdx?_cons, here]
  simp

theorem innerPieces_of_findIdx? {n opening closing : Node} {content : List Node} {pieces : List (Piece Node)}
    {i j : Nat} (form : n.form = .element (some opening) content (some closing))
    (layout : n.layout = some pieces) (start : pieces.findIdx? (isNumbered 0) = some i)
    (stop : pieces.findIdx? (isNumbered (content.length + 1)) = some j) :
    n.innerPieces = some ((pieces.take j).drop (i + 1)) := by
  have found : ((pieces.findIdx? (isNumbered 0)).bind fun start =>
      (pieces.findIdx? (isNumbered (content.length + 1))).bind fun stop =>
        some ((pieces.take stop).drop (start + 1))) = some ((pieces.take j).drop (i + 1)) := by
    rw [start, stop]
    rfl
  unfold innerPieces
  simp only [form, layout]
  exact found

namespace Framed

variable {n opening closing : Node} {content : List Node} {pieces : List (Piece Node)}

theorem innerPieces (h : Framed n opening content closing pieces) {front inner back : List (Piece Node)}
    (split : pieces = front ++ .child 0 :: (inner ++ .child (content.length + 1) :: back))
    (ahead : Shows 0 [] front) (within : Shows 1 content inner) : n.innerPieces = some inner := by
  have first : pieces.findIdx? (isNumbered 0) = some front.length := by
    rw [split]
    refine findIdx?_split (fun piece member => ?_) rfl
    cases piece with
    | child j => exact absurd (ahead.range member).2 (by simp)
    | text | loose => rfl
  have last : pieces.findIdx? (isNumbered (content.length + 1)) =
      some (front.length + 1 + inner.length) := by
    have shape : pieces = (front ++ .child 0 :: inner) ++ .child (content.length + 1) :: back := by
      simp [split]
    rw [shape, findIdx?_split (fun piece member => ?_) (by simp [isNumbered])]
    · simp [Nat.add_assoc, Nat.add_comm 1]
    · cases piece with
      | text | loose => rfl
      | child j =>
          rcases List.mem_append.1 member with member | member
          · exact absurd (ahead.range member).2 (by simp)
          · cases member with
            | head => simp [isNumbered]
            | tail _ member =>
                have below := (within.range member).2
                simp only [isNumbered, beq_eq_false_iff_ne]
                omega
  have between : (pieces.take (front.length + 1 + inner.length)).drop (front.length + 1) = inner := by
    have shape : pieces = (front ++ [.child 0]) ++ (inner ++ .child (content.length + 1) :: back) := by
      simp [split]
    have length : front.length + 1 = (front ++ [Piece.child 0]).length := by simp
    rw [shape, length, List.take_length_add_append, List.drop_left, List.take_left]
  rw [innerPieces_of_findIdx? h.form h.layout first last, between]

theorem split (h : Framed n opening content closing pieces) :
    ∃ front inner back, pieces = front ++ .child 0 :: (inner ++ .child (content.length + 1) :: back) ∧
      Shows 0 [] front ∧ Shows 1 content inner ∧ Shows (content.length + 2) [] back := by
  obtain ⟨front, rest, split, ahead, shown⟩ := h.shown.of_cons
  obtain ⟨inner, last, rfl, within, shown⟩ := shown.of_append
  obtain ⟨between, back, rfl, blank, behind⟩ := shown.of_cons
  have whole := within.append blank
  rw [List.append_nil] at whole
  rw [Nat.add_comm (0 + 1) content.length] at split behind
  exact ⟨front, inner ++ between, back, by simpa using split, ahead, whole, behind⟩

theorem edits_inner (h : Framed n opening content closing pieces) {component : String} {body : Node}
    {inner : List (Piece Node)} {t : String} (shown : Shows 1 content inner)
    (within : n.innerPieces = some inner) (literal : ∀ c ∈ content, Literal c)
    (edits : BodyEdits component true n content (keptContent content) body)
    (printed : Prints (inner.flatMap (Part.ofPiece n.children)) t) :
    ∃ before u after v, t = before ++ u ++ after ∧
      (∀ t ∈ [before, after], Text.isBlank t = true) ∧
      (body.thunk (loneContainer? (keptContent content))).print = .ok v ∧
      TextEnlargement component true u v := by
  have children : n.children = opening :: (content ++ [closing]) := by
    simp [Node.children, h.form, Form.children]
  have placed : ∀ j d, content[j]? = some d → n.children[1 + j]? = some d := by
    intro j d found
    have bound := (List.getElem?_eq_some_iff.1 found).1
    rw [children, Nat.add_comm, List.getElem?_cons_succ, List.getElem?_append_left bound]
    exact found
  generalize kept : keptContent content = nodes at edits
  cases edits with
  | @element c body element edits =>
      obtain ⟨before, u, after, own, rfl, front, back⟩ := shown.lone placed literal kept printed
      have none : c.contained? = none := by
        obtain ⟨_, _, _, _, rfl⟩ := eq_mk_of_isElement element
        rfl
      have bare : ((loneContainer? [c]).bind Node.layout).filter (·.any Piece.isFirstChild) = .none := by
        simp [loneContainer?, none]
      obtain ⟨v, printed', edited⟩ := edits.thunk bare u own
      exact ⟨before, u, after, v, rfl, by simp [front, back], printed', edited⟩
  | @container c e body own held layout first edits =>
      obtain ⟨before, u, after, alone, rfl, front, back⟩ := shown.lone placed literal kept printed
      have lone : loneContainer? [c] = some c := by simp [loneContainer?, contained?, held]
      obtain ⟨v, printed', edited⟩ := edits.thunkOf held layout first u alone
      rw [lone]
      exact ⟨before, u, after, v, rfl, by simp [front, back], printed', edited⟩
  -- The fragment takes over the pieces between the tags, so all text between them stays.
  | @fragment _ kept' several edits =>
      have pairs := shown.edits_kept placed (show content = [] ++ content from rfl) rfl (kept ▸ edits)
      obtain ⟨t', prints, edited⟩ := printed.edits pairs
      have whole : ((n.keptFragment content).withChildren kept').print = .ok ("<>" ++ t' ++ "</>") := by
        rw [keptFragment, within, withChildren_mk, print_ok_iff]
        refine ⟨_, rfl, ?_⟩
        simp only [List.cons_append, List.flatMap_cons, List.flatMap_append]
        exact (Prints.text "<>" (prints.append (.text "</>" .nil))).of_toList (by simp)
      have bare : ((loneContainer? nodes).bind Node.layout).filter (·.any Piece.isFirstChild) = none := by
        simp [several]
      obtain ⟨v, printed', edited⟩ := (TextEdit.fragment edited).thunk whole bare
      exact ⟨"", t, "", v, by simp, by simp [Text.isBlank], printed', edited⟩

theorem edits_deferred (h : Framed n opening content closing pieces) {component : String}
    {opening' closing' body name : Node} {attributes : List Node} (literal : ∀ c ∈ content, Literal c)
    (tag : opening'.form = .openingTag name attributes false)
    (opens : opening.Edits component true opening') (closes : closing.Edits component true closing')
    (edits : BodyEdits component true n content (keptContent content) body) :
    n.Enlarges component true
      (fresh (.element (some opening') [body.thunk (loneContainer? (keptContent content))]
        (some closing'))) := by
  obtain ⟨front, inner, back, split, ahead, shown, behind⟩ := h.split
  have within := h.innerPieces split ahead shown
  have children : n.children = opening :: (content ++ [closing]) := by
    simp [Node.children, h.form, Form.children]
  have first : n.children[0]? = some opening := by rw [children]; rfl
  have last : n.children[content.length + 1]? = some closing := by rw [children]; simp
  intro t printed
  obtain ⟨ps, parts, prints⟩ := print_ok_iff.1 printed
  simp only [Node.parts, h.layout, split] at parts
  cases parts
  simp only [List.flatMap_append, List.flatMap_cons, Part.ofPiece, first, last, Option.map_some,
    Option.toList_some, List.cons_append, List.nil_append] at prints
  obtain ⟨f, _, blank, afterFront, rfl⟩ := prints.of_append
  obtain ⟨o, _, ownOpening, afterOpening, rfl⟩ := afterFront.of_cons
  obtain ⟨i, _, printedInner, afterInner, rfl⟩ := afterOpening.of_append
  obtain ⟨c, b, ownClosing, blank', rfl⟩ := afterInner.of_cons
  have blankFront := ahead.isBlank (fun j d found => by cases found) (fun c member => by cases member)
    rfl blank
  have blankBack := behind.isBlank (fun j d found => by cases found) (fun c member => by cases member)
    rfl blank'
  obtain ⟨o', writtenOpening, editedOpening⟩ := opens o ownOpening
  obtain ⟨c', writtenClosing, editedClosing⟩ := closes c ownClosing
  obtain ⟨before, u, after, v, rfl, blankInner, writtenInner, editedInner⟩ :=
    h.edits_inner shown within literal edits printedInner
  refine ⟨o' ++ v ++ c', ?_, ?_⟩
  · rw [print_ok_iff]
    refine ⟨[.node opening', .node _, .node closing'], ?_,
      (Prints.node writtenOpening (.node writtenInner (.node writtenClosing .nil))).of_toList (by simp)⟩
    simp [Node.parts, Form.parts, tag]
  · have blank : ∀ t ∈ [f, before, after, b], Text.isBlank t = true := by
      simpa [blankFront, blankBack] using blankInner
    have around := TextEnlargement.deferral blank editedOpening editedInner (of_print_thunk writtenInner)
      editedClosing
    have same : f ++ (o ++ (before ++ u ++ after ++ (c ++ b))) =
        f ++ (o ++ (before ++ u ++ after) ++ c) ++ b := by
      simp only [String.append_assoc]
    rw [same]
    exact around

end Framed

end Node

end JsxBoundary
