import Mathlib.Data.List.DropRight
import JsxBoundary.Proofs.Placement
import JsxBoundary.Proofs.ThunkText

namespace JsxBoundary

namespace Concrete

def isHashBang (c : Concrete) : Bool :=
  c.kind == "hash_bang_line"

/-- A comment between statements. -/
def isComment (c : Concrete) : Bool :=
  c.kind == "comment"

/-- A statement that consists of one string literal, comments aside. -/
def isDirective (c : Concrete) : Bool :=
  c.kind == "expression_statement" && c.parts.map kind == ["string"]

/-- A directive without a comment in it. -/
def isBareDirective (c : Concrete) : Bool :=
  c.kind == "expression_statement" && c.named.map kind == ["string"]

/-- The hash-bang line and the directives at the start, with the comments around them. -/
def prologue (statements : List Concrete) : List Concrete :=
  statements.takeWhile fun c => c.isHashBang || c.isDirective || c.isComment

def barePrologue (statements : List Concrete) : List Concrete :=
  statements.takeWhile fun c => c.isHashBang || c.isBareDirective || c.isComment

theorem isDirective_of_isBareDirective {c : Concrete} (bare : c.isBareDirective = true) :
    c.isDirective = true := by
  unfold isBareDirective at bare
  unfold isDirective
  rw [Bool.and_eq_true, beq_iff_eq, beq_iff_eq] at bare ⊢
  obtain ⟨d, only, kind⟩ := List.map_eq_singleton_iff.1 bare.2
  refine ⟨bare.1, ?_⟩
  rw [parts, only]
  simp [kind]

theorem barePrologue_eq (statements : List Concrete) : barePrologue statements =
    (prologue statements).takeWhile fun c => c.isHashBang || c.isBareDirective || c.isComment := by
  unfold barePrologue prologue
  rw [List.takeWhile_takeWhile]
  congr 1
  funext c
  cases bare : c.isBareDirective with
  | false => cases c.isHashBang <;> cases c.isComment <;> simp
  | true => simp [isDirective_of_isBareDirective bare]

theorem not_isComment_of_isDirective {c : Concrete} (directive : c.isDirective = true) :
    c.isHashBang = false ∧ c.isComment = false := by
  unfold isDirective at directive
  rw [Bool.and_eq_true, beq_iff_eq] at directive
  simp [isHashBang, isComment, directive.1]

section

variable {bytes : ByteArray} {role : Role} {c : Concrete} {n : Node}

theorem kind_of_generic {kind : String} {nodes : List Node} (h : toNode bytes role c = .ok n)
    (form : n.form = .generic kind nodes) : kind = c.kind := by
  obtain ⟨p, results, pieces, planned, _, _, rfl⟩ := toNode_eq_ok h
  rw [Node.form_mk] at form
  rcases (plan_made planned).kept with rfl | kept
  · unfold Plan.container at form
    split at form
    · cases form
    · cases results with
      | nil =>
          cases form
          rfl
      | cons => cases form
  · have own := kept results
    rw [form] at own
    exact own

def prologueKinds : List String :=
  ["expression_statement", "string", "comment", "hash_bang_line"]

theorem plan_of_prologueKind (listed : c.kind ∈ prologueKinds) : plan bytes .plain c = .ok (.generic c) := by
  have kinds : c.kind = "expression_statement" ∨ c.kind = "string" ∨ c.kind = "comment" ∨
      c.kind = "hash_bang_line" := by simpa [prologueKinds] using listed
  unfold plan plainPlan
  rcases kinds with kind | kind | kind | kind <;>
    simp [kind, identifierKinds, functionKinds, pure, Except.pure]

theorem toNode_isKind {kind : String} (h : toNode bytes .plain c = .ok n) (listed : kind ∈ prologueKinds) :
    n.isKind kind = (c.kind == kind) := by
  rw [Bool.eq_iff_iff, beq_iff_eq]
  constructor
  · intro own
    unfold Node.isKind at own
    split at own
    · rename_i form
      exact (kind_of_generic h form).symm.trans (beq_iff_eq.1 own)
    · cases own
  · rintro rfl
    obtain ⟨p, nodes, pieces, planned, _, _, rfl⟩ := toNode_eq_ok h
    cases (plan_of_prologueKind listed).symm.trans planned
    exact beq_self_eq_true c.kind

theorem isKind_of_isDirective (h : n.isDirective = true) : n.isKind "expression_statement" = true := by
  unfold Node.isDirective at h
  split at h
  · rename_i form
    simp [Node.isKind, form]
  · cases h

theorem toNode_isDirective (h : toNode bytes .plain c = .ok n) : n.isDirective = c.isBareDirective := by
  have kind : n.isKind "expression_statement" = _ := toNode_isKind h (by decide)
  by_cases statement : c.kind = "expression_statement"
  · obtain ⟨p, nodes, pieces, planned, results, _, rfl⟩ := toNode_eq_ok h
    cases (plan_of_prologueKind (by rw [statement]; decide)).symm.trans planned
    have form : (Plan.generic c).form nodes = .generic "expression_statement" nodes :=
      congrArg (Form.generic · nodes) statement
    have length : nodes.length = c.named.length := results.length.trans (length_slotsFrom ..)
    unfold Node.isDirective isBareDirective
    rw [Node.form_mk, form, statement]
    match nodes, named : c.named with
    | [], [] => rfl
    | [content], [d] =>
        have read : toNode bytes .plain d = .ok content := by
          have slots : (Plan.generic c).slots = [⟨.plain, d, 0⟩] := by simp [Plan.generic, named, slotsFrom]
          rw [slots] at results
          exact results.head
        simpa using toNode_isKind read (by decide : "string" ∈ prologueKinds)
    | _ :: _ :: _, _ :: _ :: _ => simp
    | [], _ :: _ | _ :: _, [] | [_], _ :: _ :: _ | _ :: _ :: _, [_] => simp [named] at length
  · have other : c.isBareDirective = false := by simp [isBareDirective, statement]
    rw [other, Bool.eq_false_iff]
    intro directive
    rw [isKind_of_isDirective directive] at kind
    exact statement (beq_iff_eq.1 kind.symm)

end

end Concrete

namespace Import

open Concrete (barePrologue prologue)

/-- The number of statements above the import: the bare prologue without the comments at its end. -/
def place (statements : List Concrete) : Nat :=
  ((barePrologue statements).rdropWhile Concrete.isComment).length

theorem insertionIndex_eq_place {bytes : ByteArray} {statements : List Concrete} {body : List Node}
    (read : Pointwise (fun c n => Concrete.toNode bytes .plain c = .ok n) statements body) :
    insertionIndex body = place statements := by
  have marked : body.map (fun n => (n.isHashBang || n.isDirective || n.isComment, n.isComment)) =
      statements.map fun c => (c.isHashBang || c.isBareDirective || c.isComment, c.isComment) := by
    refine List.ext_getElem (by simp [read.length]) fun i inside inside' => ?_
    rw [List.length_map] at inside inside'
    have own := read.each i _ _ (List.getElem?_eq_getElem inside') (List.getElem?_eq_getElem inside)
    have hashBang : body[i].isHashBang = statements[i].isHashBang :=
      Concrete.toNode_isKind own (by decide)
    have comment : body[i].isComment = statements[i].isComment := Concrete.toNode_isKind own (by decide)
    simp [hashBang, comment, Concrete.toNode_isDirective own]
  -- The place is found by these two marks of each statement alone.
  have byMarks : ∀ {α : Type} (f : α → Bool × Bool) (l : List α),
      ((l.takeWhile fun a => (f a).1).reverse.dropWhile fun a => (f a).2).length =
        (((l.map f).takeWhile (·.1)).reverse.dropWhile (·.2)).length := by
    intro α f l
    rw [List.takeWhile_map, ← List.map_reverse, List.dropWhile_map, List.length_map]
    rfl
  unfold insertionIndex place barePrologue List.rdropWhile
  rw [List.length_reverse]
  have here := byMarks (fun n : Node => (n.isHashBang || n.isDirective || n.isComment, n.isComment)) body
  rw [marked, ← byMarks] at here
  exact here

variable {statements : List Concrete} {c : Concrete}

theorem take_place (statements : List Concrete) :
    statements.take (place statements) = (barePrologue statements).rdropWhile Concrete.isComment := by
  have front : (barePrologue statements).rdropWhile Concrete.isComment <+: statements :=
    (List.rdropWhile_prefix _ _).trans (List.takeWhile_prefix _)
  exact (List.prefix_iff_eq_take.1 front).symm

theorem place_le (statements : List Concrete) : place statements ≤ (barePrologue statements).length :=
  (List.rdropWhile_prefix _ _).length_le

theorem of_mem_take_place (member : c ∈ statements.take (place statements)) :
    c.isHashBang = true ∨ c.isBareDirective = true ∨ c.isComment = true := by
  rw [take_place] at member
  have own := List.mem_takeWhile_imp ((List.rdropWhile_prefix _ _).subset member)
  simpa [or_assoc] using own

theorem mem_take_place (member : c ∈ barePrologue statements) (code : c.isComment = false) :
    c ∈ statements.take (place statements) := by
  rw [take_place]
  rw [← List.rdropWhile_append_rtakeWhile (p := Concrete.isComment) (l := barePrologue statements)] at member
  rcases List.mem_append.1 member with kept | last
  · exact kept
  · rw [List.mem_rtakeWhile_imp last] at code
    cases code

/-- The hash-bang line and the bare directives stand above the offset, all other statements below it. -/
structure Sided (statements : List Concrete) (offset : Nat) : Prop where
  apart : ∀ c ∈ statements, c.stop ≤ offset ∨ offset ≤ c.start
  above : ∀ c ∈ statements, c.stop ≤ offset →
    c.isHashBang = true ∨ c.isBareDirective = true ∨ c.isComment = true
  kept : ∀ c ∈ barePrologue statements, c.isComment = false → c.stop ≤ offset
  below : ∀ c ∈ statements.drop (barePrologue statements).length, offset ≤ c.start

theorem sided_cut (ordered : statements.Pairwise fun a b => a.stop ≤ b.start)
    (nonempty : ∀ c ∈ statements, c.start < c.stop) : Sided statements (cut statements (place statements)) := by
  have sides : ∀ c ∈ statements, c ∈ statements.take (place statements) ∨
      c ∈ statements.drop (place statements) := by
    intro c member
    rw [← List.take_append_drop (place statements) statements] at member
    exact List.mem_append.1 member
  refine ⟨fun c member => ?_, fun c member ends => ?_, fun c member code => ?_, fun c member => ?_⟩
  · exact (sides c member).imp (stop_le_cut ordered nonempty) (cut_le_start ordered nonempty)
  · rcases sides c member with upper | lower
    · exact of_mem_take_place upper
    · have begins := cut_le_start ordered nonempty lower
      have own := nonempty c member
      omega
  · exact stop_le_cut ordered nonempty (mem_take_place member code)
  · refine cut_le_start ordered nonempty (List.mem_of_mem_drop (i := (barePrologue statements).length -
      place statements) ?_)
    rwa [List.drop_drop, Nat.add_sub_cancel' (place_le statements)]

theorem Sided.prologue_iff {offset : Nat} (sided : Sided statements offset) :
    (∀ c ∈ prologue statements, c.isComment = false → c.stop ≤ offset) ↔
      ∀ c ∈ prologue statements, c.isDirective = true → c.isBareDirective = true := by
  constructor
  · intro kept c member directive
    obtain ⟨other, code⟩ := Concrete.not_isComment_of_isDirective directive
    have own := sided.above c ((List.takeWhile_prefix _).subset member) (kept c member code)
    simpa [other, code] using own
  · intro bare c member
    have whole : barePrologue statements = prologue statements := by
      rw [Concrete.barePrologue_eq, List.takeWhile_eq_self_iff]
      intro d listed
      have own := List.mem_takeWhile_imp listed
      simp only [Bool.or_eq_true] at own ⊢
      exact own.imp_left (Or.imp_right (bare d listed))
    exact sided.kept c (whole ▸ member)

end Import

namespace Concrete

/-- In a module that lacks the import, the line of the import goes below the hash-bang line and the bare
directives of the prologue and above all other statements. So no directive of the prologue comes after
it exactly if none has a comment in it. -/
theorem injectImport_keeps_prologue {source : String} {root : Concrete} {m : Node} {name path : String}
    (nested : Nested source root) (read : toProgram source root = .ok m)
    (absent : m.importsName name path = false) :
    ∃ body m' offset before after line, m.form = .program body ∧
      Pointwise (fun c n => toNode source.toUTF8 .plain c = .ok n) root.named body ∧
      m.injectImport name path = .ok (some m') ∧
      m'.form = .program (body.insertIdx (Import.place root.named) (Node.namedImport name path)) ∧
      Spells source.toUTF8 0 offset before ∧ Spells source.toUTF8 offset source.toUTF8.size after ∧
      (line = Import.statement name path ++ "\n" ∨ line = "\n" ++ Import.statement name path) ∧
      m'.print = .ok (before ++ line ++ after) ∧ Import.Sided root.named offset ∧
      ((∀ c ∈ prologue root.named, c.isComment = false → c.stop ≤ offset) ↔
        ∀ c ∈ prologue root.named, c.isDirective = true → c.isBareDirective = true) := by
  have nests := nested root .root
  have sided := Import.sided_cut (nests.ordered.sublist root.named_sublist) fun c member =>
    nests.nonempty c (mem_children_of_mem_named member)
  obtain ⟨body, m', before, after, form, results, made, form', front, back, printed⟩ :=
    injectImport_placed nested read absent
  rw [Import.insertionIndex_eq_place results] at form' front back printed
  refine ⟨body, m', _, before, after, _, form, results, made, form', front, back, ?_, printed, sided,
    sided.prologue_iff⟩
  unfold Import.broken
  split
  · exact .inl rfl
  · exact .inr rfl

namespace Script

open Sample (part)

def literal : Concrete :=
  part "string" 0 12 none [part "string_fragment" 1 11 none []]

def source : String := "\"use client\";\nx;"

/-- What the grammar makes of the text. -/
def tree : Concrete :=
  part "program" 0 16 none [part "expression_statement" 0 13 none [literal],
    part "expression_statement" 14 16 none [part "identifier" 14 15 none []]]

def commented : String := "\"use client\" /* c */;\nx;"

def commentedTree : Concrete :=
  part "program" 0 24 none [part "expression_statement" 0 21 none [literal, part "comment" 13 20 none []],
    part "expression_statement" 22 24 none [part "identifier" 22 23 none []]]

def literalNode : Node :=
  .mk (.generic "string" [.mk (.generic "string_fragment" []) (some [.text "use client"])])
    (some [.text "\"", .child 0, .text "\""])

def callNode : Node :=
  .mk (.generic "expression_statement" [.mk (.identifier "x") (some [.text "x"])])
    (some [.child 0, .text ";"])

def module : Node :=
  .mk (.program [.mk (.generic "expression_statement" [literalNode]) (some [.child 0, .text ";"]), callNode])
    (some [.child 0, .text "\n", .child 1])

def commentedNode : Node :=
  .mk (.generic "expression_statement"
      [literalNode, .mk (.generic "comment" []) (some [.text "/* c */"])])
    (some [.child 0, .text " ", .child 1, .text ";"])

def commentedModule : Node :=
  .mk (.program [commentedNode, callNode]) (some [.child 0, .text "\n", .child 1])

def displaced : Node :=
  .mk (.program [Node.namedImport "Memo" "state", commentedNode, callNode])
    (some [.child 0, .text "\n", .child 1, .text "\n", .child 2])

theorem nested_tree : Nested source tree := by
  refine .of_nodes (tree :: tree.children ++ [literal, part "string_fragment" 1 11 none [],
    part "identifier" 14 15 none []]) (.head _) ?_ (by decide) (by decide)
  simp [tree, literal, part, children]

theorem nested_commentedTree : Nested commented commentedTree := by
  refine .of_nodes (commentedTree :: commentedTree.children ++ [literal,
    part "string_fragment" 1 11 none [], part "comment" 13 20 none [], part "identifier" 22 23 none []])
    (.head _) ?_ (by decide) (by decide)
  simp [commentedTree, literal, part, children]

theorem toProgram_tree : tree.toProgram source = .ok module := by
  have fragment : toNode source.toUTF8 .plain (part "string_fragment" 1 11 none []) = _ :=
    toNode_of rfl rfl ((layout_of_sorted (by decide)).trans rfl)
  have text : toNode source.toUTF8 .plain literal = .ok literalNode :=
    toNode_of (p := .generic literal) rfl (mapM_cons_ok fragment rfl) ((layout_of_sorted (by decide)).trans rfl)
  have directive : toNode source.toUTF8 .plain (part "expression_statement" 0 13 none [literal]) = _ :=
    toNode_of rfl (mapM_cons_ok text rfl) ((layout_of_sorted (by decide)).trans rfl)
  have name : toNode source.toUTF8 .plain (part "identifier" 14 15 none []) = _ :=
    toNode_of (p := .leaf (.identifier "x")) rfl rfl rfl
  have other : toNode source.toUTF8 .plain
      (part "expression_statement" 14 16 none [part "identifier" 14 15 none []]) = _ :=
    toNode_of rfl (mapM_cons_ok name rfl) ((layout_of_sorted (by decide)).trans rfl)
  exact toProgram_of rfl (mapM_cons_ok directive (mapM_cons_ok other rfl))
    ((layout_of_sorted (by decide)).trans rfl)

theorem toProgram_commentedTree : commentedTree.toProgram commented = .ok commentedModule := by
  have fragment : toNode commented.toUTF8 .plain (part "string_fragment" 1 11 none []) = _ :=
    toNode_of rfl rfl ((layout_of_sorted (by decide)).trans rfl)
  have text : toNode commented.toUTF8 .plain literal = .ok literalNode :=
    toNode_of (p := .generic literal) rfl (mapM_cons_ok fragment rfl) ((layout_of_sorted (by decide)).trans rfl)
  have comment : toNode commented.toUTF8 .plain (part "comment" 13 20 none []) = _ :=
    toNode_of rfl rfl ((layout_of_sorted (by decide)).trans rfl)
  have directive : toNode commented.toUTF8 .plain
      (part "expression_statement" 0 21 none [literal, part "comment" 13 20 none []]) = _ :=
    toNode_of rfl (mapM_cons_ok text (mapM_cons_ok comment rfl)) ((layout_of_sorted (by decide)).trans rfl)
  have name : toNode commented.toUTF8 .plain (part "identifier" 22 23 none []) = _ :=
    toNode_of (p := .leaf (.identifier "x")) rfl rfl rfl
  have other : toNode commented.toUTF8 .plain
      (part "expression_statement" 22 24 none [part "identifier" 22 23 none []]) = _ :=
    toNode_of rfl (mapM_cons_ok name rfl) ((layout_of_sorted (by decide)).trans rfl)
  exact toProgram_of rfl (mapM_cons_ok directive (mapM_cons_ok other rfl))
    ((layout_of_sorted (by decide)).trans rfl)

end Script

theorem injectImport_keeps_useClient :
    Nested Script.source Script.tree ∧ toProgram Script.source Script.tree = .ok Script.module ∧
      Script.module.importsName "Memo" "state" = false ∧ Import.place Script.tree.named = 1 ∧
      ∃ m' offset before after line, Script.module.injectImport "Memo" "state" = .ok (some m') ∧
        Spells Script.source.toUTF8 0 offset before ∧ m'.print = .ok (before ++ line ++ after) ∧
        Import.Sided Script.tree.named offset ∧
        ∀ c ∈ prologue Script.tree.named, c.isComment = false → c.stop ≤ offset := by
  have absent : Script.module.importsName "Memo" "state" = false := by cbv
  have bare : ∀ c ∈ prologue Script.tree.named, c.isDirective = true → c.isBareDirective = true := by decide
  obtain ⟨_, m', offset, before, after, line, _, _, made, _, front, _, _, printed, sided, whole⟩ :=
    injectImport_keeps_prologue Script.nested_tree Script.toProgram_tree absent
  exact ⟨Script.nested_tree, Script.toProgram_tree, absent, by decide, m', offset, before, after, line, made,
    front, printed, sided, whole.2 bare⟩

/-- A directive with a comment before its semicolon is a directive of the prologue. The import comes to
stand above it. -/
theorem commented_directive_below :
    Nested Script.commented Script.commentedTree ∧
      toProgram Script.commented Script.commentedTree = .ok Script.commentedModule ∧
      Script.commentedModule.importsName "Memo" "state" = false ∧
      (prologue Script.commentedTree.named).map isDirective = [true] ∧
      Script.commentedModule.injectImport "Memo" "state" = .ok (some Script.displaced) ∧
      Script.displaced.print =
        .ok "import \x7b Memo \x7d from \"state\";\n\"use client\" /* c */;\nx;" := by
  have made : Script.commentedModule.injectImport "Memo" "state" = .ok (some Script.displaced) := rfl
  exact ⟨Script.nested_commentedTree, Script.toProgram_commentedTree, by cbv, by decide, made, by cbv⟩

end Concrete

end JsxBoundary
