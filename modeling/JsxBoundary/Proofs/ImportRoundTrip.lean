import JsxBoundary.Proofs.ImportReading
import JsxBoundary.Proofs.Reading

namespace JsxBoundary

namespace Concrete

/-- The node is an import statement that binds the name by itself, of the module that stands in quotes. -/
structure Imports (bytes : ByteArray) (name path : String) (n : Concrete) : Prop where
  kind : n.kind = "import_statement"
  path : ∃ literal quote quote', n.field? "source" = some literal ∧
    literal.text bytes = .ok (String.singleton quote ++ path ++ String.singleton quote')
  name : ∃ clause part specifier own, n.named.find? (·.kind == "import_clause") = some clause ∧
    part ∈ clause.named ∧ part.kind = "named_imports" ∧ specifier ∈ part.named ∧
    specifier.kind = "import_specifier" ∧ specifier.field? "name" = some own ∧ own.kind ≠ "string" ∧
    own.text bytes = .ok name

section

variable {bytes : ByteArray} {name path : String} {n : Concrete}

theorem unquoted_of_text {quote quote' : Char}
    (text : n.text bytes = .ok (String.singleton quote ++ path ++ String.singleton quote')) :
    n.unquoted bytes = .ok path := by
  have inner : String.ofList (quote :: (path.toList ++ [quote'])).dropLast.tail = path := by
    rw [← List.cons_append, List.dropLast_concat]
    simp
  unfold unquoted
  rw [text]
  simp [bind, Except.bind, pure, Except.pure, inner]

theorem specifier?_imports {specifier own : Concrete} {found : Option Node}
    (kind : specifier.kind = "import_specifier") (field : specifier.field? "name" = some own)
    (plain : own.kind ≠ "string") (text : own.text bytes = .ok name)
    (read : specifier? bytes specifier = .ok found) :
    ∃ m binding, found = some m ∧ m.form = .importSpecifier name binding := by
  unfold specifier? at read
  simp only [kind, field, beq_self_eq_true, beq_false_of_ne plain, Bool.false_eq_true, if_false] at read
  obtain ⟨imported, first, read⟩ := bind_eq_ok read
  cases text.symm.trans first
  obtain ⟨binding, _, read⟩ := bind_eq_ok read
  obtain ⟨whole, _, read⟩ := bind_eq_ok read
  cases read
  exact ⟨_, binding, rfl, rfl⟩

def Bindings.Has (name : String) (b : Bindings) : Prop :=
  ∃ m ∈ b.specifiers, ∃ binding, m.form = .importSpecifier name binding

theorem Bindings.Has.add {part : Concrete} {b b' : Bindings} (added : b.add bytes part = .ok b')
    (has : b.Has name) : b'.Has name := by
  obtain ⟨m, member, form⟩ := has
  unfold Bindings.add at added
  split at added
  · obtain ⟨_, _, added⟩ := bind_eq_ok added
    cases added
    exact ⟨m, member, form⟩
  · split at added
    · obtain ⟨_, _, added⟩ := bind_eq_ok added
      cases added
      exact ⟨m, member, form⟩
    · cases added
      exact ⟨m, member, form⟩
  · obtain ⟨_, _, added⟩ := bind_eq_ok added
    cases added
    exact ⟨m, List.mem_append_left _ member, form⟩
  · cases added
    exact ⟨m, member, form⟩

theorem Bindings.has_of_add {part specifier own : Concrete} {b b' : Bindings} (kind : part.kind = "named_imports")
    (member : specifier ∈ part.named) (kind' : specifier.kind = "import_specifier")
    (field : specifier.field? "name" = some own) (plain : own.kind ≠ "string") (text : own.text bytes = .ok name)
    (added : b.add bytes part = .ok b') : b'.Has name := by
  unfold Bindings.add at added
  rw [kind] at added
  obtain ⟨found, read, added⟩ := bind_eq_ok added
  cases added
  obtain ⟨m?, listed, own⟩ := (mapM_eq_ok read).exists_right member
  obtain ⟨m, binding, rfl, form⟩ := specifier?_imports kind' field plain text own
  refine ⟨m, List.mem_append_right _ ?_, binding, form⟩
  exact List.mem_flatMap.2 ⟨_, listed, by simp⟩

theorem Imports.toNode {m : Node} (imports : n.Imports bytes name path) (read : toNode bytes .plain n = .ok m) :
    m.importsNameFrom name path = true := by
  obtain ⟨kind, ⟨literal, quote, quote', source, text⟩,
    clause, part, specifier, own, found, listed, kind', member, kind'', field, plain, named⟩ := imports
  obtain ⟨p, nodes, pieces, planned, _, _, rfl⟩ := toNode_eq_ok read
  have planned : importPlan bytes n literal = .ok p := by
    simpa [plan, plainPlan, kind, identifierKinds, functionKinds, source] using planned
  obtain ⟨_, unquoted, planned⟩ := bind_eq_ok planned
  cases (unquoted_of_text text).symm.trans unquoted
  obtain ⟨b, bound, planned⟩ := bind_eq_ok planned
  cases planned
  rw [found] at bound
  obtain ⟨before, after, parts⟩ := List.append_of_mem listed
  have has : b.Has name := by
    change clause.named.foldlM _ _ = _ at bound
    rw [parts, List.foldlM_append] at bound
    obtain ⟨_, _, bound⟩ := bind_eq_ok bound
    rw [List.foldlM_cons] at bound
    obtain ⟨_, added, rest⟩ := bind_eq_ok bound
    exact foldlM_keeps (fun _ _ _ added has => has.add added) rest
      (Bindings.has_of_add kind' member kind'' field plain named added)
  obtain ⟨m, listed, binding, form⟩ := has
  simp only [Node.importsNameFrom, Node.form_mk, Plan.leaf, beq_self_eq_true, Bool.true_and, List.any_eq_true]
  exact ⟨m, listed, by simp [form]⟩

theorem Imports.toProgram {source : String} {root : Concrete} {m : Node} (member : n ∈ root.named)
    (imports : n.Imports source.toUTF8 name path) (read : root.toProgram source = .ok m) :
    m.importsName name path = true := by
  obtain ⟨body, pieces, rfl, results, _⟩ := toProgram_eq_ok read
  obtain ⟨statement, listed, own⟩ := results.exists_right member
  exact List.any_eq_true.2 ⟨statement, listed, imports.toNode own⟩

end

open Tsx.Parser (importTree importModule importName importPath importClauseOf importNames ownName)

section

variable (name path front back : String)

theorem text_importName : (importName name (front.utf8ByteSize + 9)).text
    (front ++ Import.statement name path ++ back).toUTF8 = .ok name := by
  have first : "import \x7b ".utf8ByteSize = 9 := rfl
  refine slice_eq_ok_iff.2 (.of_append (front ++ "import \x7b ") (" \x7d from \"" ++ path ++ "\";" ++ back) ?_ ?_ rfl)
  · simp only [Import.statement, String.append_assoc]
  · rw [String.utf8ByteSize_append, first]
    rfl

theorem text_importPath : (importPath path (front.utf8ByteSize + name.utf8ByteSize + 17)).text
    (front ++ Import.statement name path ++ back).toUTF8 =
      .ok (String.singleton '"' ++ path ++ String.singleton '"') := by
  have first : "import \x7b ".utf8ByteSize = 9 := rfl
  have second : " \x7d from ".utf8ByteSize = 8 := rfl
  have quote : String.singleton '"' = "\"" := rfl
  have one : "\"".utf8ByteSize = 1 := rfl
  have opens : " \x7d from \"" = " \x7d from " ++ "\"" := rfl
  have closes : "\";" = "\"" ++ ";" := rfl
  refine slice_eq_ok_iff.2 (.of_append (front ++ "import \x7b " ++ name ++ " \x7d from ") (";" ++ back) ?_ ?_ ?_)
  · simp only [Import.statement, opens, closes, quote, String.append_assoc]
  · simp only [String.utf8ByteSize_append, first, second, importPath, start, info]
    omega
  · simp only [String.utf8ByteSize_append, quote, one, importPath, start, stop, info]
    omega

theorem text_importTree : (importTree name path front.utf8ByteSize).text
    (front ++ Import.statement name path ++ back).toUTF8 = .ok (Import.statement name path) := by
  refine slice_eq_ok_iff.2 (.of_append front back rfl rfl ?_)
  rw [Tsx.utf8ByteSize_statement]
  simp only [importTree, start, stop, info]
  omega

theorem imports_importTree : (importTree name path front.utf8ByteSize).Imports
    (front ++ Import.statement name path ++ back).toUTF8 name path :=
  have plain : "identifier" ≠ "string" := by decide
  { kind := rfl
    path := ⟨_, '"', '"', rfl, text_importPath name path front back⟩
    name := ⟨_, _, _, _, rfl, .head _, rfl, .head _, rfl, rfl, plain, text_importName name path front back⟩ }

def importedNode : Node :=
  .mk (.importDecl path [.mk (.importSpecifier name name) (some [.text name])] none none)
    (some [.text (Import.statement name path)])

theorem specifier?_importName {bytes : ByteArray} {offset : Nat}
    (own : (importName name offset).text bytes = .ok name) :
    specifier? bytes (importName name offset) =
      .ok (some (.mk (.importSpecifier name name) (some [.text name]))) := by
  have kind : (importName name offset).kind = "import_specifier" := rfl
  have field : (importName name offset).field? "name" = some (ownName name offset) := rfl
  have none : (importName name offset).field? "alias" = none := rfl
  have plain : ((ownName name offset).kind == "string") = false := rfl
  have own' : (ownName name offset).text bytes = .ok name := own
  simp only [specifier?, kind, field, none, plain, own, own', beq_self_eq_true]
  rfl

theorem toNode_importTree : toNode (front ++ Import.statement name path ++ back).toUTF8 .plain
    (importTree name path front.utf8ByteSize) = .ok (importedNode name path) := by
  have own := specifier?_importName name (text_importName name path front back)
  have literal := unquoted_of_text (text_importPath name path front back)
  have whole := text_importTree name path front back
  generalize (front ++ Import.statement name path ++ back).toUTF8 = bytes at own literal whole
  have listed : (importNames name (front.utf8ByteSize + 7)).named.mapM (specifier? bytes) = .ok _ :=
    mapM_cons_ok own rfl
  have bound : ({} : Bindings).add bytes (importNames name (front.utf8ByteSize + 7)) =
      .ok { specifiers := [.mk (.importSpecifier name name) (some [.text name])] } := by
    have kind : (importNames name (front.utf8ByteSize + 7)).kind = "named_imports" := rfl
    simp only [Bindings.add, kind, listed]
    rfl
  have planned : importPlan bytes (importTree name path front.utf8ByteSize)
      (importPath path (front.utf8ByteSize + name.utf8ByteSize + 17)) = .ok (.leaf (importedNode name path).form) := by
    have clause : (importTree name path front.utf8ByteSize).named.find? (·.kind == "import_clause") =
        some (importClauseOf name (front.utf8ByteSize + 7)) := rfl
    have parts : (importClauseOf name (front.utf8ByteSize + 7)).named =
        [importNames name (front.utf8ByteSize + 7)] := rfl
    simp only [importPlan, literal, clause, Option.elim_some, parts, List.foldlM_cons, bound]
    rfl
  refine toNode_of (p := .leaf (importedNode name path).form) planned rfl ?_
  simp only [Plan.leaf, if_true, whole]
  rfl

theorem toProgram_importModule : (importModule name path).toProgram (Import.statement name path) =
    .ok (.mk (.program [importedNode name path]) (some [.child 0])) := by
  have node := toNode_importTree name path "" ""
  rw [String.empty_append, String.append_empty] at node
  refine toProgram_of rfl (mapM_cons_ok node rfl) ((layout_of_sorted (List.pairwise_singleton _ _)).trans ?_)
  have size : (Import.statement name path).toUTF8.size = (importTree name path 0).stop := by
    rw [String.toUTF8_eq_toByteArray, String.size_toByteArray, Tsx.utf8ByteSize_statement]
    simp only [importTree, stop, info]
    omega
  rw [size]
  change (do
    let before ← gap (Import.statement name path).toUTF8 0 0
    let after ← gap (Import.statement name path).toUTF8 (importTree name path 0).stop (importTree name path 0).stop
    return before ++ .child 0 :: after : Except Fault (List (Piece Node))) = _
  rw [gap, if_neg (Nat.lt_irrefl _), gap, if_neg (Nat.lt_irrefl _)]
  rfl

end

/-- What is read where the import statement stands is an import that binds the name of the module. -/
structure ReadsBack (name path : String) : Prop where
  /-- Wherever the statement stands in a text, it is read as one import statement, up to its end. -/
  statement : ∀ read front back, ∃ n, Tsx.Parser.statement read
      (.clear (front ++ Import.statement name path ++ back).utf8ByteSize front.utf8ByteSize
        (Import.statement name path ++ back).toList) =
      some (n, .clear (front ++ Import.statement name path ++ back).utf8ByteSize
        (front ++ Import.statement name path).utf8ByteSize back.toList) ∧
    n.Imports (front ++ Import.statement name path ++ back).toUTF8 name path ∧
    toNode (front ++ Import.statement name path ++ back).toUTF8 .plain n = .ok (importedNode name path)
  module : ∃ m, Tsx.read (Import.statement name path) = .ok m ∧ m.importsName name path = true

theorem ReadsBack.of_quotable {name path : String} (plain : Options.isPlainName name = true)
    (fits : Tsx.quotable path.toList = true) : ReadsBack name path where
  statement read front back := by
    refine ⟨importTree name path front.utf8ByteSize, ?_, imports_importTree .., toNode_importTree ..⟩
    have inside : front.utf8ByteSize + name.utf8ByteSize + path.utf8ByteSize + 20 ≤
        (front ++ Import.statement name path ++ back).utf8ByteSize := by
      simp only [String.utf8ByteSize_append, Tsx.utf8ByteSize_statement]
      omega
    have stop : front.utf8ByteSize + name.utf8ByteSize + path.utf8ByteSize + 20 =
        (front ++ Import.statement name path).utf8ByteSize := by
      rw [String.utf8ByteSize_append, Tsx.utf8ByteSize_statement]
      omega
    rw [String.toList_append, Tsx.toList_statement_append, Tsx.Parser.statement_of plain fits inside, stop]
  module := by
    refine ⟨.mk (.program [importedNode name path]) (some [.child 0]), ?_, ?_⟩
    · rw [Tsx.read, Tsx.parse?_statement plain fits]
      exact toProgram_importModule name path
    · simp [Node.importsName, Node.body?, Node.importsNameFrom, importedNode]

end Concrete

namespace Options

theorem checkOne_fst {α : Type} {P : α → Prop} {t : Table} {name : OptionName} {default : α}
    {check : Datum → Except OptionProblem α} (own : P default) (passed : ∀ d a, check d = .ok a → P a)
    (errors : List OptionError) : P (checkOne t name default check errors).1 := by
  unfold checkOne
  split
  · exact own
  · split
    · rename_i a checked
      exact passed _ a checked
    · exact own

theorem checkComponent_plain {given name : String} (h : checkComponent given = .ok name) :
    isPlainName name = true := by
  unfold checkComponent at h
  dsimp only at h
  split at h
  · rename_i plain
    cases h
    exact plain
  · cases h

theorem isPlainName_of_ofTable {t : Table} {o : Options} (accepted : ofTable t = .ok o) :
    isPlainName o.componentName = true := by
  unfold ofTable at accepted
  dsimp only at accepted
  split at accepted
  rename_i options errors ran
  split at accepted
  · cases accepted
    rw [← congrArg (·.1.componentName) ran]
    refine checkOne_fst (P := fun name => isPlainName name = true) (by decide) (fun d name passed => ?_) []
    cases d with
    | string given =>
        simp only [Datum.asString, bind, Except.bind] at passed
        exact checkComponent_plain passed
    | _ => cases passed
  · cases accepted

end Options

namespace Concrete

/-- The import that accepted options ask for, printed and read. Its module stands in quotes as one
literal exactly if it is quotable, and then the statement reads back as the import that it was. Where
a literal is the module in quotes, the import is recognized whatever module it stands in. -/
theorem namedImport_reads_back {t : Table} {o : Options} (accepted : Options.ofTable t = .ok o) :
    (Node.namedImport o.componentName o.importSource).print =
        .ok (Import.statement o.componentName o.importSource) ∧
      (∀ more, Tsx.Parser.quotedRest '"' (o.importSource.toList ++ '"' :: more) =
        some (o.importSource.toList ++ ['"']) ↔ Tsx.quotable o.importSource.toList = true) ∧
      (Tsx.quotable o.importSource.toList = true → ReadsBack o.componentName o.importSource) ∧
      ∀ (source : String) (root n : Concrete) (m : Node), n ∈ root.named →
        n.Imports source.toUTF8 o.componentName o.importSource → root.toProgram source = .ok m →
        m.importsName o.componentName o.importSource = true :=
  ⟨Node.print_namedImport .., fun more => Tsx.Parser.quotedRest_iff _ more,
    .of_quotable (Options.isPlainName_of_ofTable accepted), fun _ _ _ _ member imports read =>
      imports.toProgram member read⟩

theorem namedImport_reads_back_state : ∃ o, Options.ofTable [("importSource", .string "state")] = .ok o ∧
    o.importSource = "state" ∧ ReadsBack o.componentName "state" := by
  have accepted : Options.ofTable [("importSource", .string "state")] = .ok { importSource := "state" } := rfl
  exact ⟨_, accepted, rfl, (namedImport_reads_back accepted).2.2.1 (by decide)⟩

namespace Unquotable

open Tsx Tsx.Parser Tsx.Cursor

def path : String := "a\";//b"

def remark : Concrete :=
  .mk { kind := "comment", start := 25, stop := 30 } []

/-- The grammar takes the line for the import of another module with a comment behind it. -/
def tree : Concrete :=
  .mk { kind := "program", start := 0, stop := 30 } [importTree "Memo" "a" 0, remark]

def body : List Node :=
  [importedNode "Memo" "a", .mk (.generic "comment" []) (some [.text "//b\";"])]

def module : Node :=
  .mk (.program body) (some [.child 0, .child 1])

theorem parse?_statement : parse? (Import.statement "Memo" path) = some tree := by
  have start : Cursor.ofString (Import.statement "Memo" path) =
      clear 30 0 (importChars "Memo" "a" "//b\";".toList) := rfl
  obtain ⟨bound, positive⟩ : ∃ bound, 32 * ((Import.statement "Memo" path).length + 1) = bound + 1 :=
    Nat.exists_eq_succ_of_ne_zero (by omega)
  have first : statement (reader bound) (clear 30 0 (importChars "Memo" "a" "//b\";".toList)) =
      some (importTree "Memo" "a" 0, clear 30 25 "//b\";".toList) := statement_of rfl rfl (by decide)
  have one : Parser.gap (clear 30 25 "//b\";".toList) = some (.lineComment, ⟨[], 30, 30, [remark]⟩) := rfl
  have passed : trivia (clear 30 25 "//b\";".toList) = some (false, ⟨[], 30, 30, [remark]⟩) :=
    bind_of (many_cons one (by decide) (many_none rfl))
  have last : statement (reader bound) (clear 30 25 "//b\";".toList) = none :=
    (bind_of (bind_of passed)).trans ((bind_of (a := none) rfl).trans rfl)
  have statements : many (statement (reader bound)) (clear 30 0 (importChars "Memo" "a" "//b\";".toList)) =
      some ([importTree "Memo" "a" 0], clear 30 25 "//b\";".toList) :=
    many_cons first (by decide) (many_none last)
  have whole : finish "program" 0 [importTree "Memo" "a" 0] ⟨[], 30, 30, [remark]⟩ =
      some (tree, clear 30 30 []) := by
    have sorted : [importTree "Memo" "a" 0, remark].Pairwise fun a b => decide (a.start ≤ b.start) = true := by
      decide
    exact congrArg (fun all => some (mk { kind := "program", start := 0, stop := 30 } all, clear 30 30 []))
      (List.mergeSort_of_pairwise sorted)
  have read : Parser.module (reader (bound + 1)) (clear 30 0 (importChars "Memo" "a" "//b\";".toList)) =
      some (tree, clear 30 30 []) := by
    refine (bind_of (maybe_none (hashBang_none "Memo" "a"))).trans ?_
    refine (bind_of statements).trans ?_
    refine (bind_of passed).trans ?_
    exact (bind_of (a := none) rfl).trans ((bind_of (check_of rfl)).trans whole)
  rw [parse?, positive, start, read]
  rfl

theorem toProgram_tree : tree.toProgram (Import.statement "Memo" path) = .ok module := by
  have own := toNode_importTree "Memo" "a" "" "//b\";"
  have comment : toNode (Import.statement "Memo" path).toUTF8 .plain remark = _ :=
    toNode_of rfl rfl ((layout_of_sorted (by decide)).trans rfl)
  exact toProgram_of rfl (mapM_cons_ok own (mapM_cons_ok comment rfl)) ((layout_of_sorted (by decide)).trans rfl)

end Unquotable

/-- With a quote in its path the import is accepted but not found again. The next run adds it once more. -/
theorem unquotable_import_twice :
    Options.ofTable [("importSource", .string Unquotable.path)] = .ok { importSource := Unquotable.path } ∧
      Tsx.quotable Unquotable.path.toList = false ∧
      Tsx.read (Import.statement "Memo" Unquotable.path) = .ok Unquotable.module ∧
      Unquotable.module.importsName "Memo" Unquotable.path = false ∧
      ∃ m, Unquotable.module.injectImport "Memo" Unquotable.path = .ok (some m) ∧
        m.form = .program (Node.namedImport "Memo" Unquotable.path :: Unquotable.body) := by
  have read : Tsx.read (Import.statement "Memo" Unquotable.path) = .ok Unquotable.module := by
    rw [Tsx.read, Unquotable.parse?_statement]
    exact Unquotable.toProgram_tree
  exact ⟨rfl, by decide, read, by decide, _, rfl, rfl⟩

end Concrete

end JsxBoundary
