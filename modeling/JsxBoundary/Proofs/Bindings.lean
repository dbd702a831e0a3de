import JsxBoundary.Proofs.Preservation

namespace JsxBoundary

namespace Import

inductive Target where
  | defaultExport
  | allExports
  | named (exported : String)
  deriving DecidableEq

/-- A name of the importing module and what it stands for. -/
structure Binding where
  name : String
  target : Target
  source : String
  deriving DecidableEq

/-- The name under which boundaries use the wrapper, bound to the wrapper. -/
def Binding.own (name source : String) : Binding :=
  ⟨name, .named name, source⟩

def bindingsOf (name : String) (bs : List Binding) : List Binding :=
  bs.filter (·.name == name)

theorem bindingsOf_eq_nil {name : String} {bs : List Binding} :
    bindingsOf name bs = [] ↔ ∀ b ∈ bs, b.name ≠ name := by
  simp [bindingsOf, List.filter_eq_nil_iff]

theorem bindingsOf_eq_singleton {b : Binding} {bs : List Binding} (once : (bs.map (·.name)).Nodup) :
    bindingsOf b.name bs = [b] ↔ b ∈ bs := by
  constructor
  · intro only
    have member : b ∈ bindingsOf b.name bs := only ▸ List.mem_singleton_self b
    exact (List.mem_filter.1 member).1
  · intro member
    induction bs with
    | nil => cases member
    | cons c bs ih =>
        obtain ⟨absent, once⟩ := List.nodup_cons.1 once
        rcases List.mem_cons.1 member with rfl | member
        · have rest : bindingsOf b.name bs = [] := bindingsOf_eq_nil.2 fun d inside same =>
            absent (List.mem_map.2 ⟨d, inside, same⟩)
          simp only [bindingsOf] at rest
          simp [bindingsOf, rest]
        · have other : c.name ≠ b.name := fun same => absent (List.mem_map.2 ⟨b, member, same.symm⟩)
          have rest := ih once member
          simp only [bindingsOf] at rest
          simp [bindingsOf, other, rest]

theorem bindingsOf_added {b : Binding} {bs cs : List Binding} (added : cs.Perm (b :: bs)) :
    bindingsOf b.name cs = [b] ↔ ∀ c ∈ bs, c.name ≠ b.name := by
  have bound : (bindingsOf b.name cs).Perm (b :: bindingsOf b.name bs) := by
    have filtered := added.filter fun c => c.name == b.name
    rwa [List.filter_cons, if_pos (beq_self_eq_true b.name)] at filtered
  rw [← bindingsOf_eq_nil]
  constructor
  · intro only
    rw [only] at bound
    simpa using bound.length_eq
  · intro none
    rw [none] at bound
    exact List.perm_singleton.1 bound

end Import

open Import (Binding)

namespace Node

def specifiedBinding? (source : String) (n : Node) : Option Binding :=
  match n.form with
  | .importSpecifier exported name => some ⟨name, .named exported, source⟩
  | _ => none

def importBindings (n : Node) : List Binding :=
  match n.form with
  | .importDecl source specifiers default? whole? =>
    default?.toList.map (⟨·, .defaultExport, source⟩) ++ whole?.toList.map (⟨·, .allExports, source⟩) ++
      specifiers.filterMap (specifiedBinding? source)
  | _ => []

/-- The names that the imports of a module bind. -/
def bindings (root : Node) : List Binding :=
  (root.body?.getD []).flatMap importBindings

variable {n m root root' : Node} {name source : String}

theorem specifiedBinding?_eq_some {b : Binding} : n.specifiedBinding? source = some b ↔
    ∃ exported name, n.form = .importSpecifier exported name ∧ b = ⟨name, .named exported, source⟩ := by
  unfold specifiedBinding?
  split
  · rename_i exported name form
    simp only [form, Option.some.injEq, Form.importSpecifier.injEq]
    constructor
    · rintro rfl
      exact ⟨exported, name, ⟨rfl, rfl⟩, rfl⟩
    · rintro ⟨_, _, ⟨rfl, rfl⟩, rfl⟩
      rfl
  · rename_i other
    simp only [reduceCtorEq, false_iff]
    rintro ⟨exported, name, form, _⟩
    exact other exported name form

theorem importsNameFrom_iff : n.importsNameFrom name source = true ↔
    ∃ b ∈ n.importBindings, b.target = .named name ∧ b.source = source := by
  obtain ⟨form, layout⟩ := n
  cases form with
  | importDecl path specifiers default? whole? =>
      simp only [importsNameFrom, importBindings, form_mk, Bool.and_eq_true, beq_iff_eq, List.any_eq_true]
      constructor
      · rintro ⟨rfl, c, member, named⟩
        split at named
        · rename_i exported name' form
          obtain rfl := eq_of_beq named
          refine ⟨⟨name', .named exported, path⟩, List.mem_append_right _ ?_, rfl, rfl⟩
          exact List.mem_filterMap.2 ⟨c, member, specifiedBinding?_eq_some.2 ⟨_, _, form, rfl⟩⟩
        · cases named
      · rintro ⟨b, listed, target, rfl⟩
        rcases List.mem_append.1 listed with listed | listed
        · rcases List.mem_append.1 listed with listed | listed <;>
            · obtain ⟨_, _, rfl⟩ := List.mem_map.1 listed
              cases target
        · obtain ⟨c, member, found⟩ := List.mem_filterMap.1 listed
          obtain ⟨_, _, form, rfl⟩ := specifiedBinding?_eq_some.1 found
          cases target
          exact ⟨rfl, c, member, by simp [form]⟩
  | _ => simp [importsNameFrom, importBindings]

theorem importsName_iff : root.importsName name source = true ↔
    ∃ b ∈ root.bindings, b.target = .named name ∧ b.source = source := by
  unfold importsName bindings
  cases root.body? with
  | none => simp
  | some body =>
      simp only [Option.any_some, Option.getD_some, List.any_eq_true, List.mem_flatMap, importsNameFrom_iff]
      constructor
      · rintro ⟨n, member, b, own, target, from'⟩
        exact ⟨b, ⟨n, member, own⟩, target, from'⟩
      · rintro ⟨b, ⟨n, member, own⟩, target, from'⟩
        exact ⟨n, member, b, own, target, from'⟩

theorem importBindings_of_isImport (plain : n.isImport = false) : n.importBindings = [] := by
  obtain ⟨form, layout⟩ := n
  cases form <;> first | rfl | cases plain

theorem Exchange.importBindings {policy : ReadPolicy} (h : Exchange policy n m)
    (specifiers : n.isImport = true → ∀ c ∈ n.children, c.isSpecifier = true) :
    m.importBindings = n.importBindings := by
  rcases h.paired with paired | ⟨gone, element⟩
  · obtain ⟨form, layout⟩ := n
    obtain ⟨form', layout'⟩ := m
    simp only [form_mk] at paired
    cases paired with
    | importDecl path default? whole? related =>
        have same := related.mono fun a b member _ exchange =>
          exchange.eq_of_isSpecifier (specifiers rfl a member)
        rw [same.eq]
        rfl
    | _ => rfl
  · rw [importBindings_of_isImport (isImport_of_isElement element), importBindings_of_isImport]
    obtain ⟨form, layout⟩ := n
    cases form <;> first | rfl | cases gone

theorem Rewrites.bindings {s : Settings} {ancestors : Ancestors} {log : List Action} {body : List Node}
    (h : Rewrites s ancestors root m log) (form : root.form = .program body) (printable : root.Printable) :
    m.bindings = root.bindings := by
  have below : ∀ c ∈ body, c.Printable := fun c member =>
    printable.child (by simp [isImport, form]) (by simpa [children, form, Form.children] using member)
  rcases h.exchange.paired with paired | ⟨gone, _⟩
  · rw [form] at paired
    generalize form' : m.form = f at paired
    cases paired with
    | program related =>
        have same := (related.mono fun a b member _ exchange =>
          exchange.importBindings (below a member).specifier).map_eq
        simp only [Node.bindings, body?, form, form', Option.getD_some, List.flatMap_def, same]
  · simp [isMarkup, form] at gone

theorem bindings_injectImport (made : root.injectImport name source = .ok (some root')) :
    root.importsName name source = false ∧ root'.bindings.Perm (.own name source :: root.bindings) := by
  obtain ⟨absent, body, body', form, form', statements⟩ := injectImport_some made
  refine ⟨absent, ?_⟩
  simp only [bindings, body?, form, form', Option.getD_some]
  exact statements.flatMap_right importBindings

theorem importsName_of_injectImport (found : root.injectImport name source = .ok none) :
    root.importsName name source = true := by
  unfold injectImport at found
  split at found
  · cases found
  · split at found
    · assumption
    · dsimp only at found
      split at found
      · cases found
      · split at found <;> cases found

end Node

theorem bindings_transformed {o : Options} {m : Node} (parsed : Concrete.Parsed m)
    (wrapped : 0 < (transformed o m).2.progress.rewriteCount) :
    (m.importsName o.componentName o.importSource = true ∧
      (transformed o m).1.bindings = m.bindings) ∨
    (m.importsName o.componentName o.importSource = false ∧
      (transformed o m).1.bindings.Perm (.own o.componentName o.importSource :: m.bindings)) := by
  have done : (transformed o m).2.fault = none := (runAll_parsed (s := .ofOptions o) parsed rfl).1
  obtain ⟨body, _, form, _⟩ := parsed.body
  obtain ⟨rewritten, log, imports, rewrites, import', count, _⟩ := transformed_ok done
  have kept := rewrites.bindings form parsed.printable
  have needed : log.any Action.isBoundary = true := by
    rw [count, List.countP_pos_iff] at wrapped
    exact List.any_eq_true.2 wrapped
  have same : rewritten.importsName o.componentName o.importSource =
      m.importsName o.componentName o.importSource := by
    rw [Bool.eq_iff_iff, Node.importsName_iff, Node.importsName_iff, kept]
  generalize (transformed o m).1 = result at import' ⊢
  -- The import step sees the rewritten module, which imports what the module imports.
  cases import' with
  | skipped idle =>
      rw [needed] at idle
      cases idle
  | present _ found => exact .inl ⟨same ▸ Node.importsName_of_injectImport found, kept⟩
  | injected _ made =>
      obtain ⟨absent, added⟩ := Node.bindings_injectImport made
      rw [kept] at added
      exact .inr ⟨same ▸ absent, added⟩

/-- Where a module binds each name at most once, its wrapped form binds the wrapper's name once and to the
wrapper if and only if the module binds that name to nothing else and imports the wrapper, if at all, under that
name too. -/
theorem transformed_binds_wrapper (o : Options) {source : String} {root : Concrete} {m : Node}
    (read : root.toProgram source = .ok m) (once : (m.bindings.map (·.name)).Nodup)
    (wrapped : 0 < (transformed o m).2.progress.rewriteCount) :
    let own := Binding.own o.componentName o.importSource
    (transformed o m).1.bindings.Perm
        (if m.importsName o.componentName o.importSource then m.bindings else own :: m.bindings) ∧
      (Import.bindingsOf o.componentName (transformed o m).1.bindings = [own] ↔
        (m.importsName o.componentName o.importSource = true → own ∈ m.bindings) ∧
          ∀ b ∈ m.bindings, b.name = o.componentName → b = own) := by
  intro own
  rcases bindings_transformed (Concrete.toProgram_parsed read) wrapped with
    ⟨present, same⟩ | ⟨absent, added⟩
  · rw [present, same, if_pos rfl]
    refine ⟨.refl _, (Import.bindingsOf_eq_singleton (b := own) once).trans ⟨fun member => ?_, fun h => h.1 rfl⟩⟩
    exact ⟨fun _ => member, fun b inside name => List.inj_on_of_nodup_map once inside member name⟩
  · rw [absent, if_neg (by simp)]
    refine ⟨added, ?_⟩
    have missing : own ∉ m.bindings := fun member => by
      have present := Node.importsName_iff.2 ⟨own, member, rfl, rfl⟩
      exact Bool.false_ne_true (absent.symm.trans present)
    refine (Import.bindingsOf_added (b := own) added).trans ⟨fun free => ?_, fun h b inside name => ?_⟩
    · exact ⟨nofun, fun b inside name => absurd name (free b inside)⟩
    · exact missing (h.2 b inside name ▸ inside)

namespace Aliased

open Concrete
open Sample (part)

def source : String :=
  "import \x7b Memo as M, Show \x7d from \"@legendapp/state/react\";<>\x7bx$.get()\x7d</>"

def path : Concrete :=
  part "string" 32 56 (some "source") []

def specifiers : Concrete :=
  part "named_imports" 7 26 none
    [part "import_specifier" 9 18 none
        [part "identifier" 9 13 (some "name") [], part "identifier" 17 18 (some "alias") []],
      part "import_specifier" 20 24 none [part "identifier" 20 24 (some "name") []]]

def statement : Concrete :=
  part "import_statement" 0 57 none [part "import_clause" 7 26 none [specifiers], path]

def object : Concrete :=
  part "identifier" 60 62 (some "object") []

def property : Concrete :=
  part "property_identifier" 63 66 (some "property") []

def access : Concrete :=
  part "member_expression" 60 66 (some "function") [object, property]

def call : Concrete :=
  part "call_expression" 60 68 none [access, part "arguments" 66 68 (some "arguments") []]

def content : Concrete :=
  part "jsx_expression" 59 69 none [call]

def markup : Concrete :=
  part "jsx_element" 57 72 none [part "jsx_opening_element" 57 59 (some "open_tag") [], content,
    part "jsx_closing_element" 69 72 (some "close_tag") []]

def last : Concrete :=
  part "expression_statement" 57 72 none [markup]

/-- What the grammar makes of the text. -/
def tree : Concrete :=
  part "program" 0 72 none [statement, last]

def statementNode : Node :=
  .mk (.importDecl "@legendapp/state/react"
      [.mk (.importSpecifier "Memo" "M") (some [.text "Memo as M"]),
        .mk (.importSpecifier "Show" "Show") (some [.text "Show"])] none none)
    (some [.text "import \x7b Memo as M, Show \x7d from \"@legendapp/state/react\";"])

def accessNode : Node :=
  .mk (.member (.mk (.identifier "x$") (some [.text "x$"]))
    (.mk (.identifier "get") (some [.text "get"])) false false) (some [.child 0, .text ".", .child 1])

def contentNode : Node :=
  .mk (.container (.mk (.call accessNode [] false) (some [.child 0, .text "()"])))
    (some [.text "\x7b", .child 0, .text "\x7d"])

def lastNode : Node :=
  .mk (.generic "expression_statement"
    [.mk (.fragment [contentNode]) (some [.text "<>", .child 0, .text "</>"])]) (some [.child 0])

def module : Node :=
  .mk (.program [statementNode, lastNode]) (some [.child 0, .child 1])

theorem toNode_statement : toNode source.toUTF8 .plain statement = .ok statementNode := by
  have planned : importPlan source.toUTF8 statement path = .ok (.leaf statementNode.form) := by cbv
  exact toNode_of (p := .leaf statementNode.form) planned rfl (by cbv)

theorem toNode_access : toNode source.toUTF8 .plain access = .ok accessNode := by
  have left : toNode source.toUTF8 .plain object = .ok (.mk (.identifier "x$") (some [.text "x$"])) :=
    toNode_of (p := .leaf (.identifier "x$")) rfl rfl rfl
  have right : toNode source.toUTF8 .plain property =
      .ok (.mk (.identifier "get") (some [.text "get"])) :=
    toNode_of (p := .leaf (.identifier "get")) rfl rfl rfl
  exact toNode_of (p := .member access "property" false) rfl
    (mapM_cons_ok left (mapM_cons_ok right rfl)) ((layout_of_sorted (by decide)).trans rfl)

theorem toNode_content : toNode source.toUTF8 .content content = .ok contentNode := by
  have inner : toNode source.toUTF8 .plain call =
      .ok (.mk (.call accessNode [] false) (some [.child 0, .text "()"])) :=
    toNode_of (p := .call call) rfl (mapM_cons_ok toNode_access rfl)
      ((layout_of_sorted (by decide)).trans rfl)
  exact toNode_of (p := .container content) rfl (mapM_cons_ok inner rfl)
    ((layout_of_sorted (by decide)).trans rfl)

theorem toProgram_tree : tree.toProgram source = .ok module := by
  have inner : toNode source.toUTF8 .plain markup =
      .ok (.mk (.fragment [contentNode]) (some [.text "<>", .child 0, .text "</>"])) :=
    toNode_of (p := .element markup) rfl (mapM_cons_ok toNode_content rfl)
      ((layout_of_sorted (by decide)).trans rfl)
  have second : toNode source.toUTF8 .plain last = .ok lastNode :=
    toNode_of (p := .generic last) rfl (mapM_cons_ok inner rfl)
      ((layout_of_sorted (by decide)).trans rfl)
  exact toProgram_of rfl (mapM_cons_ok toNode_statement (mapM_cons_ok second rfl))
    ((layout_of_sorted (by decide)).trans rfl)

end Aliased

theorem transformed_binds_show :
    Aliased.tree.toProgram Aliased.source = .ok Aliased.module ∧
      (Aliased.module.bindings.map (·.name)).Nodup ∧
      0 < (transformed { componentName := "Show" } Aliased.module).2.progress.rewriteCount ∧
      Import.bindingsOf "Show" (transformed { componentName := "Show" } Aliased.module).1.bindings =
        [.own "Show" "@legendapp/state/react"] := by
  have once : (Aliased.module.bindings.map (·.name)).Nodup := by decide
  have count : (transformed { componentName := "Show" } Aliased.module).2.progress.rewriteCount = 1 := by
    cbv
  have wrapped : 0 < (transformed { componentName := "Show" } Aliased.module).2.progress.rewriteCount := by
    rw [count]
    exact Nat.one_pos
  refine ⟨Aliased.toProgram_tree, once, wrapped,
    (transformed_binds_wrapper { componentName := "Show" } Aliased.toProgram_tree once wrapped).2.2 ?_⟩
  decide

/-- The wrapper that is imported under another name only stays unbound, and a name that is bound to something
else is bound twice. -/
theorem wrapper_unbound_or_bound_twice :
    Aliased.tree.toProgram Aliased.source = .ok Aliased.module ∧
      (Aliased.module.bindings.map (·.name)).Nodup ∧
      (0 < (transformed {} Aliased.module).2.progress.rewriteCount ∧
        Import.bindingsOf "Memo" (transformed {} Aliased.module).1.bindings = []) ∧
      let o : Options := { componentName := "Show", importSource := "solid-js" }
      0 < (transformed o Aliased.module).2.progress.rewriteCount ∧
        (Import.bindingsOf "Show" (transformed o Aliased.module).1.bindings).length = 2 := by
  have count : (transformed {} Aliased.module).2.progress.rewriteCount = 1 := by cbv
  refine ⟨Aliased.toProgram_tree, by decide, ⟨?_, by cbv⟩, ?_⟩
  · rw [count]
    exact Nat.one_pos
  · intro o
    have parsed := Concrete.toProgram_parsed Aliased.toProgram_tree
    have first : (JsxBoundary.wrapped o Aliased.module).2.progress.rewriteCount = 1 := by cbv
    have again : 0 < (transformed o Aliased.module).2.progress.rewriteCount := by
      rw [rewriteCount_transformed (runAll_parsed (s := .ofOptions o) parsed rfl).1, first]
      exact Nat.one_pos
    refine ⟨again, ?_⟩
    rcases bindings_transformed parsed again with ⟨present, _⟩ | ⟨_, added⟩
    · exact absurd present (by decide)
    · exact (added.filter (·.name == "Show")).length_eq

end JsxBoundary
