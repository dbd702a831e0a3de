import JsxBoundary.Proofs.Prologue
import JsxBoundary.Tsx.Cursor

namespace JsxBoundary

namespace Tsx

def isLineBreak (c : Char) : Bool :=
  isLineEnd c || c == '\r'

def isInlineSpace (c : Char) : Bool :=
  isSpace c && !isLineBreak c

def endsLine (text : List Char) : Bool :=
  (text.dropWhile isInlineSpace).head?.all isLineBreak

def trimLine (text : List Char) : List Char :=
  text.rdropWhile isInlineSpace

def EndsWithBreak (text : List Char) : Prop :=
  ∃ c, text.getLast? = some c ∧ isLineBreak c = true

theorem isSpace_of_isLineBreak {c : Char} (h : isLineBreak c = true) : isSpace c = true := by
  simp only [isLineBreak, isLineEnd, Bool.or_eq_true, beq_iff_eq] at h
  rcases h with ((rfl | rfl) | rfl) | rfl <;> rfl

theorem endsLine_append_eq_false {spaces rest : List Char} (inline : ∀ c ∈ spaces, isInlineSpace c = true)
    {c : Char} (code : rest.head? = some c) (solid : isSpace c = false) : endsLine (spaces ++ rest) = false := by
  obtain ⟨more, rfl⟩ := List.head?_eq_some_iff.1 code
  have shown : isInlineSpace c = false := by simp [isInlineSpace, solid]
  have breaks : isLineBreak c = false := by
    refine Bool.eq_false_iff.2 fun breaks => ?_
    rw [isSpace_of_isLineBreak breaks] at solid
    cases solid
  rw [endsLine, List.dropWhile_append_of_pos inline, List.dropWhile_cons, shown]
  simp [breaks]

theorem trimLine_append (text : List Char) {spaces : List Char} (blank : ∀ c ∈ spaces, isSpace c = true) :
    EndsWithBreak (trimLine (text ++ spaces)) ∨
      (∀ c ∈ spaces, isInlineSpace c = true) ∧ trimLine (text ++ spaces) = trimLine text := by
  unfold trimLine
  induction spaces using List.reverseRecOn with
  | nil => exact .inr ⟨by simp, by rw [List.append_nil]⟩
  | append_singleton spaces c ih =>
      rw [← List.append_assoc]
      cases inline : isInlineSpace c with
      | true =>
          rw [List.rdropWhile_concat_pos _ _ _ inline]
          refine (ih fun d member => blank d (List.mem_append_left _ member)).imp_right ?_
          rintro ⟨all, same⟩
          refine ⟨fun d member => ?_, same⟩
          rcases List.mem_append.1 member with earlier | last
          · exact all d earlier
          · cases List.mem_singleton.1 last
            exact inline
      | false =>
          rw [List.rdropWhile_concat_neg _ _ _ (by simp [inline])]
          refine .inl ⟨c, by simp, ?_⟩
          have space := blank c (by simp)
          simpa [isInlineSpace, space] using inline

theorem trimLine_of_semicolon {text : List Char} (ends : text.getLast? = some ';') : trimLine text = text := by
  obtain ⟨front, rfl⟩ := List.getLast?_eq_some_iff.1 ends
  exact List.rdropWhile_concat_neg _ _ _ (by decide)

end Tsx

theorem Import.last_is_prologue {statements : List Concrete} (positive : 0 < place statements) :
    ∃ c, statements[place statements - 1]? = some c ∧ (c.isHashBang = true ∨ c.isBareDirective = true) := by
  have taken := take_place statements
  have own := @of_mem_take_place statements
  have code := List.rdropWhile_last_not Concrete.isComment (Concrete.barePrologue statements)
  unfold place at positive taken own ⊢
  generalize (Concrete.barePrologue statements).rdropWhile Concrete.isComment = kept at positive taken own code ⊢
  obtain ⟨above, c, rfl⟩ := (List.eq_nil_or_concat kept).resolve_left (List.ne_nil_of_length_pos positive)
  rw [List.concat_eq_append] at *
  have here : statements[(above ++ [c]).length - 1]? = some c := by
    rw [← List.getElem?_take_of_lt (Nat.sub_lt positive Nat.one_pos), taken]
    simp
  have prose := own (c := c) (by rw [taken]; simp)
  have comment : c.isComment = false := by simpa using code (by simp)
  exact ⟨c, here, by simpa [comment] using prose⟩

namespace Concrete

open Tsx (isSpace isLineBreak isInlineSpace endsLine trimLine EndsWithBreak)

/-- What the grammar says of the text of a module's statements. Between the statements there is white
space only, and none of them begins with it; an expression as a statement ends with a semicolon or, like
the hash-bang line, with its line. -/
structure Punctuated (source : String) (root : Concrete) : Prop where
  nested : Nested source root
  blank : ∀ a b t, (∀ c ∈ root.named, c.stop ≤ a ∨ b ≤ c.start) → Spells source.toUTF8 a b t →
    ∀ x ∈ t.toList, isSpace x = true
  begins : ∀ c ∈ root.named, ∀ t, Spells source.toUTF8 c.start c.stop t →
    ∀ x, t.toList.head? = some x → isSpace x = false
  ends : ∀ c ∈ root.named, c.kind = "expression_statement" ∨ c.kind = "hash_bang_line" →
    ∀ t rest, Spells source.toUTF8 c.start c.stop t → Spells source.toUTF8 c.stop source.toUTF8.size rest →
      t.toList.getLast? = some ';' ∨ endsLine rest.toList = true

/-- The text comes to the end of its line, or to the semicolon at the end of a statement, but for white
space on the last line. -/
inductive Clear (source : String) (c : Option Concrete) (text : String) : Prop
  | start (h : trimLine text.toList = [])
  | line (h : EndsWithBreak (trimLine text.toList))
  | statement {d : Concrete} {front : String} (here : c = some d) (spelled : Spells source.toUTF8 0 d.stop front)
      (trimmed : trimLine text.toList = front.toList) (ends : front.toList.getLast? = some ';')

section

variable {source : String} {root : Concrete}

theorem Punctuated.between (h : Punctuated source root) {above below : List Concrete} {c d : Concrete} {g : String}
    (named : root.named = above ++ c :: d :: below) (spelled : Spells source.toUTF8 c.stop d.start g) :
    ∀ x ∈ g.toList, isSpace x = true := by
  have nests := h.nested root .root
  have nonempty : ∀ e ∈ root.named, e.start < e.stop := fun e member =>
    nests.nonempty e (mem_children_of_mem_named member)
  have ordered := nests.ordered.sublist root.named_sublist
  rw [named] at ordered nonempty
  obtain ⟨_, later, earlier⟩ := List.pairwise_append.1 ordered
  obtain ⟨_, later⟩ := List.pairwise_cons.1 later
  obtain ⟨last, _⟩ := List.pairwise_cons.1 later
  refine h.blank _ _ g (fun e member => ?_) spelled
  rw [named, List.mem_append, List.mem_cons, List.mem_cons] at member
  rcases member with front | rfl | rfl | back
  · have before := earlier e front c (.head _)
    have own := nonempty c (by simp)
    exact .inl (by omega)
  · exact .inl (Nat.le_refl _)
  · exact .inr (Nat.le_refl _)
  · have after := last e back
    have own := nonempty d (by simp)
    exact .inr (by omega)

theorem getLast?_of_spells {c : Concrete} {front t : String} (nests : Nests source c) (nonempty : c.start < c.stop)
    (spelled : Spells source.toUTF8 0 c.stop front) (own : Spells source.toUTF8 c.start c.stop t) :
    front.toList.getLast? = t.toList.getLast? := by
  obtain ⟨u, before⟩ := spells_of_isValid String.Pos.Raw.isValid_zero nests.start (Nat.zero_le _)
  have same := spelled.inj (before.append own (Nat.zero_le _) (Nat.le_of_lt nonempty))
  have full := ne_nil_of_spells nests.stop nonempty own
  rw [same, String.toList_append, List.getLast?_append_of_ne_nil _ full]

theorem Punctuated.clear_between (h : Punctuated source root) {above below : List Concrete} {c d : Concrete}
    {before : String} (named : root.named = above ++ c :: d :: below)
    (kind : c.kind = "expression_statement" ∨ c.kind = "hash_bang_line")
    (spelled : Spells source.toUTF8 0 d.start before) : Clear source (some c) before := by
  have nests := h.nested root .root
  have member : c ∈ root.named := by simp [named]
  have member' : d ∈ root.named := by simp [named]
  have nonempty := nests.nonempty c (mem_children_of_mem_named member)
  have nonempty' := nests.nonempty d (mem_children_of_mem_named member')
  have inner := h.nested c (.of_child (mem_children_of_mem_named member))
  have inner' := h.nested d (.of_child (mem_children_of_mem_named member'))
  have apart : c.stop ≤ d.start := by
    have ordered := nests.ordered.sublist root.named_sublist
    rw [named] at ordered
    exact (List.pairwise_cons.1 (List.pairwise_append.1 ordered).2.1).1 d (.head _)
  obtain ⟨front, upTo⟩ := spells_of_isValid String.Pos.Raw.isValid_zero inner.stop (Nat.zero_le _)
  obtain ⟨gap, between⟩ := spells_of_isValid inner.stop inner'.start apart
  obtain ⟨own, text⟩ := spells_of_isValid inner.start inner.stop (Nat.le_of_lt nonempty)
  obtain ⟨next, text'⟩ := spells_of_isValid inner'.start inner'.stop (Nat.le_of_lt nonempty')
  have size : d.stop ≤ source.toUTF8.size := inner'.stop.le_utf8ByteSize
  obtain ⟨rest, toEnd⟩ := spells_of_isValid inner'.stop String.Pos.Raw.isValid_rawEndPos size
  cases spelled.inj (upTo.append between (Nat.zero_le _) apart)
  rcases Tsx.trimLine_append front.toList (h.between named between) with breaks | ⟨inline, same⟩
  · exact .line (by rwa [String.toList_append])
  · -- On its last line a statement has a semicolon at its end, or nothing follows it.
    have ends : front.toList.getLast? = some ';' := by
      rw [getLast?_of_spells inner nonempty upTo text]
      have after := between.append (text'.append toEnd (Nat.le_of_lt nonempty') size) apart
        (Nat.le_trans (Nat.le_of_lt nonempty') size)
      refine (h.ends c member kind own _ text after).resolve_right ?_
      obtain ⟨x, more, begins⟩ := List.exists_cons_of_ne_nil (ne_nil_of_spells inner'.stop nonempty' text')
      have solid := h.begins d member' next text' x (by rw [begins]; rfl)
      rw [String.toList_append, String.toList_append, Tsx.endsLine_append_eq_false inline
        (c := x) (by rw [begins]; rfl) solid]
      exact Bool.false_ne_true
    refine .statement rfl upTo ?_ ends
    rw [String.toList_append, same, Tsx.trimLine_of_semicolon ends]

theorem Punctuated.clear_cut (h : Punctuated source root) {before : String}
    (spelled : Spells source.toUTF8 0 (Import.cut root.named (Import.place root.named)) before)
    (inside : Import.place root.named < root.named.length ∨ Import.place root.named = 0) :
    Clear source root.named[Import.place root.named - 1]? before := by
  have last := @Import.last_is_prologue root.named
  generalize Import.place root.named = index at spelled inside last ⊢
  cases index with
  | zero =>
      have nests := h.nested root .root
      have blank := h.blank 0 _ before (fun c member =>
        .inr (Import.cut_le_start (nests.ordered.sublist root.named_sublist)
          (fun e member => nests.nonempty e (mem_children_of_mem_named member)) (by simpa using member))) spelled
      rcases Tsx.trimLine_append [] blank with breaks | ⟨_, none⟩
      · exact .line breaks
      · exact .start none
  | succ k =>
      obtain ⟨c, here, prologue⟩ := last (Nat.succ_pos k)
      rw [Nat.add_sub_cancel] at here ⊢
      have bound : k + 1 < root.named.length := inside.resolve_right (Nat.succ_ne_zero k)
      have kind : c.kind = "expression_statement" ∨ c.kind = "hash_bang_line" := by
        rcases prologue with script | directive
        · exact .inr (beq_iff_eq.1 script)
        · unfold isBareDirective at directive
          rw [Bool.and_eq_true, beq_iff_eq] at directive
          exact .inl directive.1
      have named : root.named = root.named.take k ++ c :: root.named[k + 1] :: root.named.drop (k + 2) := by
        obtain ⟨_, rfl⟩ := List.getElem?_eq_some_iff.1 here
        rw [← List.drop_eq_getElem_cons, ← List.drop_eq_getElem_cons, List.take_append_drop]
      rw [Import.cut, List.getElem?_eq_getElem bound] at spelled
      rw [here]
      exact h.clear_between named kind spelled

theorem Clear.of_break (c : Option Concrete) (text : String) : Clear source c (text ++ "\n") := by
  refine .line ?_
  rw [String.toList_append]
  have blank : ∀ c ∈ "\n".toList, isSpace c = true := by
    intro c member
    cases List.mem_singleton.1 member
    rfl
  rcases Tsx.trimLine_append text.toList blank with breaks | ⟨inline, _⟩
  · exact breaks
  · exact absurd (inline '\n' (.head _)) (by decide)

/-- The import does not run into the text around it. The text before it, but for white space on its last
line, is nothing, ends with a line break or ends with the semicolon of the statement before the import;
and a line break follows the import, or nothing but white space. -/
theorem injectImport_own_line {m : Node} {name path : String} (punctuated : Punctuated source root)
    (read : toProgram source root = .ok m) (absent : m.importsName name path = false) :
    ∃ m' above below before after, m.injectImport name path = .ok (some m') ∧
      Spells source.toUTF8 0 (Import.cut root.named (Import.place root.named)) above ∧
      Spells source.toUTF8 (Import.cut root.named (Import.place root.named)) source.toUTF8.size below ∧
      ((before, after) = (above, "\n" ++ below) ∨ (before, after) = (above ++ "\n", below)) ∧
      m'.print = .ok (before ++ Import.statement name path ++ after) ∧
      Clear source root.named[Import.place root.named - 1]? before ∧
      ((∃ c, after.toList.head? = some c ∧ isLineBreak c = true) ∨ ∀ c ∈ after.toList, isSpace c = true) := by
  obtain ⟨body, m', above, below, form, results, made, form', front, back, printed⟩ :=
    injectImport_placed punctuated.nested read absent
  rw [Import.insertionIndex_eq_place results] at front back printed
  unfold Import.broken at printed
  split at printed
  · rename_i first
    refine ⟨m', above, below, above, "\n" ++ below, made, front, back, .inl rfl, ?_,
      punctuated.clear_cut front first, .inl ⟨'\n', by simp, rfl⟩⟩
    rw [printed]
    simp only [String.append_assoc]
  · rename_i last
    refine ⟨m', above, below, above ++ "\n", below, made, front, back, .inr rfl, ?_, .of_break _ _, .inr ?_⟩
    · rw [printed]
      simp only [String.append_assoc]
    · have nests := punctuated.nested root .root
      refine punctuated.blank _ _ below (fun c member => .inl ?_) back
      refine Import.stop_le_cut (nests.ordered.sublist root.named_sublist)
        (fun e member => nests.nonempty e (mem_children_of_mem_named member)) ?_
      rwa [List.take_of_length_le (by omega)]

end

namespace Remark

open Sample (part)

def source : String := "\"a\"; /* c */"

def literal : Concrete :=
  part "string" 0 3 none [part "string_fragment" 1 2 none []]

def directive : Concrete :=
  part "expression_statement" 0 4 none [literal]

def comment : Concrete :=
  part "comment" 5 12 none []

def tree : Concrete :=
  part "program" 0 12 none [directive, comment]

def literalNode : Node :=
  .mk (.generic "string" [.mk (.generic "string_fragment" []) (some [.text "a"])])
    (some [.text "\"", .child 0, .text "\""])

def module : Node :=
  .mk (.program [.mk (.generic "expression_statement" [literalNode]) (some [.child 0, .text ";"]),
    .mk (.generic "comment" []) (some [.text "/* c */"])]) (some [.child 0, .text " ", .child 1])

theorem nested_tree : Nested source tree := by
  refine .of_nodes [tree, directive, comment, literal, part "string_fragment" 1 2 none []]
    (.head _) ?_ (by decide) (by decide)
  simp [tree, directive, comment, literal, part, children]

theorem toProgram_tree : tree.toProgram source = .ok module := by
  have fragment : toNode source.toUTF8 .plain (part "string_fragment" 1 2 none []) = _ :=
    toNode_of rfl rfl ((layout_of_sorted (by decide)).trans rfl)
  have text : toNode source.toUTF8 .plain literal = .ok literalNode :=
    toNode_of (p := .generic literal) rfl (mapM_cons_ok fragment rfl) ((layout_of_sorted (by decide)).trans rfl)
  have first : toNode source.toUTF8 .plain directive = _ :=
    toNode_of (p := .generic directive) rfl (mapM_cons_ok text rfl) ((layout_of_sorted (by decide)).trans rfl)
  have second : toNode source.toUTF8 .plain comment = _ :=
    toNode_of (p := .generic comment) rfl rfl ((layout_of_sorted (by decide)).trans rfl)
  exact toProgram_of rfl (mapM_cons_ok first (mapM_cons_ok second rfl)) ((layout_of_sorted (by decide)).trans rfl)

theorem punctuated_tree : Punctuated source tree := by
  have listed : tree.named = [directive, comment] := rfl
  have named : ∀ c ∈ tree.named, c = directive ∨ c = comment := by simp [listed]
  have code : Spells source.toUTF8 directive.start directive.stop "\"a\";" := rfl
  have prose : Spells source.toUTF8 comment.start comment.stop "/* c */" := rfl
  refine ⟨nested_tree, fun a b t apart spelled => ?_, fun c member t spelled x first => ?_,
    fun c member kind t rest spelled _ => .inl ?_⟩
  · -- The only text outside the two is the blank between them.
    have above : 4 ≤ a ∨ b ≤ 0 := apart directive (by simp [listed])
    have below : 12 ≤ a ∨ b ≤ 5 := apart comment (by simp [listed])
    have size : source.toUTF8.size = 12 := rfl
    have space : Spells source.toUTF8 4 5 " " := rfl
    have outside : t = "" ∨ t = " " := by
      by_cases only : a = 4 ∧ b = 5
      · obtain ⟨rfl, rfl⟩ := only
        exact .inr (spelled.inj space)
      · have none : source.toUTF8.extract a b = ByteArray.empty :=
          ByteArray.extract_eq_empty_iff.2 (by omega)
        exact .inl (String.toByteArray_inj.1 (spelled.trans none))
    rcases outside with rfl | rfl
    · simp
    · intro x member
      cases List.mem_singleton.1 member
      rfl
  · rcases named c member with rfl | rfl
    · cases spelled.inj code
      cases first
      rfl
    · cases spelled.inj prose
      cases first
      rfl
  · rcases named c member with rfl | rfl
    · cases spelled.inj code
      rfl
    · exact absurd kind (by decide)

end Remark

theorem injectImport_own_line_remark :
    Punctuated Remark.source Remark.tree ∧ toProgram Remark.source Remark.tree = .ok Remark.module ∧
      Remark.module.importsName "Memo" "state" = false ∧ Import.place Remark.tree.named = 1 ∧
      ∃ m' before after, Remark.module.injectImport "Memo" "state" = .ok (some m') ∧
        m'.print = .ok (before ++ Import.statement "Memo" "state" ++ after) ∧
        Clear Remark.source (some Remark.directive) before ∧
        ((∃ c, after.toList.head? = some c ∧ isLineBreak c = true) ∨ ∀ c ∈ after.toList, isSpace c = true) := by
  have absent : Remark.module.importsName "Memo" "state" = false := by cbv
  obtain ⟨m', _, _, before, after, made, _, _, _, printed, clear, followed⟩ :=
    injectImport_own_line Remark.punctuated_tree Remark.toProgram_tree absent
  exact ⟨Remark.punctuated_tree, Remark.toProgram_tree, absent, by decide, m', before, after, made, printed, clear,
    followed⟩

end Concrete

end JsxBoundary
