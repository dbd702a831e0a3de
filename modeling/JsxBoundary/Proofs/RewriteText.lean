import JsxBoundary.Proofs.DeferralText

namespace JsxBoundary

namespace Node

structure Shape (n : Node) (pieces : List (Piece Node)) : Prop where
  bare : ∀ m, .loose m ∉ pieces
  literal : Literal n
  container : ∀ e, n.form = .container e → e.isEmptyExpression = false →
    pieces.any Piece.isFirstChild = true
  element : ∀ opening content closing, n.form = .element opening content closing →
    ∃ o name attributes selfClosing, opening = some o ∧
      o.form = .openingTag name attributes selfClosing ∧
      (selfClosing = false → ∃ c, closing = some c ∧ Framed n o content c pieces)

theorem Shape.of_other {n : Node} {pieces : List (Piece Node)} (bare : ∀ m, .loose m ∉ pieces)
    (text : ∀ value, n.form ≠ .text value) (container : ∀ e, n.form ≠ .container e)
    (element : ∀ opening content closing, n.form ≠ .element opening content closing) :
    Shape n pieces :=
  ⟨bare, fun value form => absurd form (text value), fun e form => absurd form (container e),
    fun opening content closing form => absurd form (element opening content closing)⟩

/-- A tree whose nodes have layouts of this shape. Only a name that is not shown may have none. -/
inductive Readable : Node → Prop
  | name (value : String) : Readable (fresh (.identifier value))
  | node {n : Node} {pieces : List (Piece Node)} (layout : n.layout = some pieces) (shape : Shape n pieces)
      (below : ∀ c ∈ n.children, Readable c) : Readable n

namespace Readable

variable {n : Node}

theorem child (h : Readable n) {c : Node} (member : c ∈ n.children) : Readable c := by
  cases h with
  | name => cases member
  | node _ _ below => exact below c member

theorem literal (h : Readable n) : Literal n := by
  cases h with
  | name =>
      intro value form
      cases form
  | node _ shape _ => exact shape.literal

theorem container {e : Node} (h : Readable n) (held : n.form = .container e)
    (full : e.isEmptyExpression = false) :
    ∃ pieces, n.layout = some pieces ∧ pieces.any Piece.isFirstChild = true := by
  cases h with
  | name => cases held
  | node layout shape _ => exact ⟨_, layout, shape.container e held full⟩

theorem element {opening closing : Option Node} {content : List Node} (h : Readable n)
    (form : n.form = .element opening content closing) :
    ∃ o name attributes selfClosing, opening = some o ∧
      o.form = .openingTag name attributes selfClosing ∧
      (selfClosing = false → ∃ c pieces, closing = some c ∧ Framed n o content c pieces) := by
  cases h with
  | name => cases form
  | node _ shape _ =>
      obtain ⟨o, name, attributes, selfClosing, opens, tag, framed⟩ := shape.element _ _ _ form
      refine ⟨o, name, attributes, selfClosing, opens, tag, fun pair => ?_⟩
      obtain ⟨c, closes, framed⟩ := framed pair
      exact ⟨c, _, closes, framed⟩

theorem prints (h : Readable n) : ∃ t, n.print = .ok t := by
  induction h with
  | name value => exact ⟨_, print_ok_iff.2 ⟨_, rfl, .text value .nil⟩⟩
  | @node n pieces layout shape _ ih =>
      have each : ∀ pieces : List (Piece Node), (∀ m, .loose m ∉ pieces) →
          ∃ t, Prints (pieces.flatMap (Part.ofPiece n.children)) t := by
        intro pieces bare
        induction pieces with
        | nil => exact ⟨"", .nil⟩
        | cons piece pieces rest =>
            obtain ⟨t, prints⟩ := rest fun m member => bare m (.tail _ member)
            cases piece with
            | text value => exact ⟨_, .text value prints⟩
            | loose m => exact absurd (.head _) (bare m)
            | child i =>
                rw [List.flatMap_cons, Part.ofPiece]
                cases found : n.children[i]? with
                | none => exact ⟨t, prints⟩
                | some c =>
                    obtain ⟨u, printed⟩ := ih c (List.mem_of_getElem? found)
                    exact ⟨_, .node printed prints⟩
      obtain ⟨t, prints⟩ := each pieces shape.bare
      exact ⟨t, print_ok_iff.2 ⟨_, by rw [parts, layout], prints⟩⟩

end Readable

variable {s : Settings} {ancestors : Ancestors}

theorem Chosen.of_other {n : Node} {c : Choice} (h : Chosen s ancestors n c)
    (he : n.isElement = false) (hc : n.contained? = none) : c = ⟨n, false, true, []⟩ := by
  cases h with
  | other | container => rfl
  | boundary hn => simp [contained?, hn] at hc
  | element he' | whole he' => rw [he] at he'; cases he'

theorem Chosen.of_quiet {n e : Node} {c : Choice} (h : Chosen s ancestors n c)
    (held : n.form = .container e) (quiet : e.containsRead s.policy = false) :
    c = ⟨n, false, true, []⟩ := by
  have he : n.isElement = false := by simp [isElement, held]
  cases h with
  | other | container => rfl
  | boundary hn _ _ hr =>
      rw [held] at hn
      cases hn
      rw [quiet] at hr
      cases hr
  | element he' | whole he' => rw [he] at he'; cases he'

theorem Rewrites.of_kept {n m : Node} {log : List Action} (h : Rewrites s ancestors n m log)
    (kept : ∀ c, Chosen s ancestors n c → c = ⟨n, false, true, []⟩) :
    ∃ results : List (Node × List Action), m = n.withChildren (results.map (·.1)) ∧
      log = results.flatMap (·.2) ∧
      Pointwise (fun a r => Rewrites s (n :: ancestors) a r.1 r.2) n.children results := by
  cases h with
  | stop chosen stays =>
      rw [kept _ chosen] at stays
      cases stays
  | onward chosen _ length each =>
      cases kept _ chosen
      exact ⟨_, rfl, rfl, length, each⟩

theorem Rewrites.of_identifier {name : String} {m : Node} {log : List Action}
    (h : Rewrites s ancestors (fresh (.identifier name)) m log) :
    m = fresh (.identifier name) ∧ log = [] := by
  obtain ⟨results, rfl, rfl, derived⟩ := h.of_kept fun c chosen => chosen.of_other rfl rfl
  cases derived.of_nil
  exact ⟨rfl, rfl⟩

theorem Rewrites.of_tag {n m : Node} {name : String} {log : List Action} (h : Rewrites s ancestors n m log)
    (element : n.isElement = false) (contained : n.contained? = none)
    (named : n.children = [fresh (.identifier name)]) : m = n ∧ log = [] := by
  obtain ⟨results, rfl, rfl, derived⟩ := h.of_kept fun c chosen => chosen.of_other element contained
  rw [named] at derived
  obtain ⟨⟨name', log⟩, rfl, own⟩ := derived.of_single
  obtain ⟨rfl, rfl⟩ := own.of_identifier
  refine ⟨?_, rfl⟩
  rw [List.map_singleton, ← named, withChildren_children]

theorem Exchange.needsBodyParens {policy : ReadPolicy} {n m : Node} (h : Exchange policy n m) :
    m.needsBodyParens = n.needsBodyParens := by
  rcases h.paired with paired | ⟨gone, element⟩
  · obtain ⟨form, layout⟩ := n
    obtain ⟨form', layout'⟩ := m
    simp only [form_mk] at paired
    cases paired <;> rfl
  · obtain ⟨_, _, _, _, rfl⟩ := eq_mk_of_isElement element
    obtain ⟨form, layout⟩ := n
    cases form <;> first | rfl | cases gone

theorem Rewrites.of_thunk {body m : Node} {source : Option Node} {log : List Action}
    (h : Rewrites s ancestors (body.thunk source) m log) :
    ∃ ancestors' body', Rewrites s ancestors' body body' log ∧ m = body'.thunk source := by
  have arrows : ∀ {ancestors : Ancestors} {layout : Option (List (Piece Node))} {k : Node}
      {log : List Action}, Rewrites s ancestors (mk (.arrow body none) layout) k log →
      ∃ ancestors' body', Rewrites s ancestors' body body' log ∧ k = mk (.arrow body' none) layout := by
    intro ancestors layout k log h
    obtain ⟨results, rfl, rfl, derived⟩ := h.of_kept fun c chosen => chosen.of_other rfl rfl
    obtain ⟨⟨body', log⟩, rfl, own⟩ := derived.of_single
    exact ⟨_, body', by simpa using own, rfl⟩
  obtain ⟨layout, form⟩ := form_thunk body source
  have quiet : (mk (.arrow body none) layout).containsRead s.policy = false :=
    containsRead_of_isFunction rfl
  obtain ⟨results, rfl, rfl, derived⟩ := h.of_kept fun c chosen => chosen.of_quiet form quiet
  rw [children, form] at derived
  obtain ⟨⟨k, log⟩, rfl, own⟩ := derived.of_single
  obtain ⟨ancestors', body', inner, rfl⟩ := arrows own
  refine ⟨ancestors', body', by simpa using inner, ?_⟩
  have parens := inner.exchange.needsBodyParens
  unfold thunk at form ⊢
  split at form
  · cases form
    rw [parens]
    rfl
  · cases form
    rfl

theorem Edits.mono {component : String} {deferred more : Bool} {n m : Node}
    (h : n.Edits component deferred m) (le : deferred = true → more = true) :
    n.Edits component more m := by
  intro t printed
  obtain ⟨t', printed', edited⟩ := h t printed
  exact ⟨t', printed', edited.mono le⟩

theorem Readable.edits_children {component : String} {deferred : Bool} {n : Node} {cs : List Node}
    (h : Readable n) (edits : Pointwise (Node.Edits component deferred) n.children cs) :
    n.Edits component deferred (n.withChildren cs) := by
  cases h with
  | name =>
      cases edits.of_nil
      exact .refl _
  | node layout _ _ => exact .withChildren layout edits

theorem deferredBody?_some {kept : List Node} {fragment body : Node}
    (h : deferredBody? kept fragment = some body) :
    (∃ c, kept = [c] ∧ c.isElement = true ∧ body = c) ∨
      (∃ c, kept = [c] ∧ c.form = .container body ∧ body.isEmptyExpression = false) ∨
      loneContainer? kept = none ∧ body = fragment := by
  unfold deferredBody? at h
  split at h
  · rename_i c
    split at h
    · rename_i form
      cases h
      exact .inl ⟨_, rfl, by simp [isElement, form], rfl⟩
    · rename_i e form
      split at h
      · cases h
      · rename_i full
        cases h
        exact .inr (.inl ⟨c, rfl, form, by simpa using full⟩)
    · cases h
  · rename_i lone
    cases h
    refine .inr (.inr ⟨?_, rfl⟩)
    unfold loneContainer?
    split
    · rename_i c
      exact absurd rfl (lone c)
    · rfl

theorem BodyEdits.of_body {component : String} {n body body' : Node} {content : List Node}
    (readable : ∀ c ∈ content, Readable c)
    (chosen : deferredBody? (keptContent content) (n.keptFragment content) = some body)
    (alone : ∀ c ∈ content, Readable body → body = c ∨ body ∈ c.children →
      body.Edits component true body')
    (several : body = n.keptFragment content → ∃ kept', body' = body.withChildren kept' ∧
      Pointwise (Node.Edits component true) (keptContent content) kept') :
    BodyEdits component true n content (keptContent content) body' := by
  have listed : ∀ c ∈ keptContent content, c ∈ content := fun c member => (List.mem_filter.1 member).1
  generalize keptContent content = kept at chosen several listed
  rcases deferredBody?_some chosen with ⟨c, rfl, element, rfl⟩ | ⟨c, rfl, form, full⟩ | ⟨lone, rfl⟩
  · have member := listed body (.head _)
    exact .element element (alone body member (readable body member) (.inl rfl))
  · have member := listed c (.head _)
    have inside : body ∈ c.children := by simp [children, form, Form.children]
    obtain ⟨pieces, layout, shown⟩ := (readable c member).container form full
    exact .container form layout shown
      (alone c member ((readable c member).child inside) (.inr inside))
  · obtain ⟨kept', rfl, edits⟩ := several rfl
    exact .fragment lone edits

/-- An element whose children are deferred has an opening tag, content and a closing tag, and edits of
these make an enlargement of it. -/
theorem Readable.edits_deferral {n d : Node} (h : Readable n) (made : n.deferChildren? = some d)
    (component : String) :
    ∃ opening content closing body, d = fresh (.element (some opening)
        [body.thunk (loneContainer? (keptContent content))] (some closing)) ∧
      n.children = opening :: (content ++ [closing]) ∧
      (∃ name attributes, opening.form = .openingTag name attributes false) ∧
      deferredBody? (keptContent content) (n.keptFragment content) = some body ∧
      ∀ opening' closing' body' : Node,
        (∃ name attributes, opening'.form = .openingTag name attributes false) →
        opening.Edits component true opening' → closing.Edits component true closing' →
        BodyEdits component true n content (keptContent content) body' →
        n.Enlarges component true (fresh (.element (some opening')
          [body'.thunk (loneContainer? (keptContent content))] (some closing'))) := by
  obtain ⟨opening, content, closing, body, form, ⟨name, attributes, tag, _⟩, _, _, chosen, rfl⟩ :=
    deferChildren?_some made
  obtain ⟨_, _, _, selfClosing, same, tag', framed⟩ := h.element form
  cases same
  rw [tag] at tag'
  cases tag'
  obtain ⟨closing, pieces, rfl, laid⟩ := framed rfl
  have listed : n.children = opening :: (content ++ [closing]) := by
    simp [children, form, Form.children]
  have literal : ∀ c ∈ content, Literal c := by
    intro c member
    exact (h.child (by simp [listed, member])).literal
  refine ⟨opening, content, closing, body, rfl, listed, ⟨name, attributes, tag⟩, chosen, ?_⟩
  intro opening' closing' body' tagged opens closes edits
  obtain ⟨_, _, tag'⟩ := tagged
  exact laid.edits_deferred literal tag' opens closes edits

theorem Readable.edits_deferChildren {n d : Node} (h : Readable n) (made : n.deferChildren? = some d)
    (component : String) : n.Edits component true d := by
  obtain ⟨opening, content, closing, body, rfl, listed, tag, chosen, edits⟩ :=
    h.edits_deferral made component
  refine (edits opening closing body tag (.refl _) (.refl _) (.of_body ?_ chosen ?_ ?_)).edits
  · intro c member
    exact h.child (by simp [listed, member])
  · intro _ _ _ _
    exact .refl _
  · intro same
    refine ⟨keptContent content, ?_, .same fun _ _ => .refl _⟩
    rw [same]
    exact (withChildren_children _).symm

theorem Deferring.edits {n d : Node} {actions : List Action} (h : Deferring s n d actions)
    (readable : Readable n) : n.Edits s.componentName (actions.any Action.isDeferral) d := by
  cases h with
  | stays => exact .refl n
  | deferred made => exact readable.edits_deferChildren (deferral?_some made) _

theorem Exchange.openingTag {policy : ReadPolicy} {n m name : Node} {attributes : List Node}
    {selfClosing : Bool} (h : Exchange policy n m)
    (form : n.form = .openingTag name attributes selfClosing) :
    ∃ name' attributes', m.form = .openingTag name' attributes' selfClosing := by
  rcases h.paired with paired | ⟨gone, _⟩
  · rw [form] at paired
    cases form' : m.form with
    | openingTag name' attributes' selfClosing' =>
        rw [form'] at paired
        cases paired with
        | openingTag => exact ⟨_, _, rfl⟩
    | _ => rw [form'] at paired; cases paired
  · simp [isMarkup, form] at gone

theorem isEmptyExpression_of_containsRead {policy : ReadPolicy} {e : Node}
    (h : e.containsRead policy = true) : e.isEmptyExpression = false := by
  obtain ⟨form, layout⟩ := e
  cases form with
  | emptyExpression => simp [containsRead_eq, isRead, children, Form.children] at h
  | _ => rfl

theorem edits_results {children : List Node} {results : List (Node × List Action)}
    (below : ∀ c ∈ children, ∀ m log, Rewrites s ancestors c m log →
      c.Edits s.componentName (log.any Action.isDeferral) m)
    (derived : Pointwise (fun a r => Rewrites s ancestors a r.1 r.2) children results) :
    Pointwise (Node.Edits s.componentName ((results.flatMap (·.2)).any Action.isDeferral)) children
      (results.map (·.1)) := by
  have pairs := derived.mono (S := fun a r => a.Edits s.componentName
      ((results.flatMap (·.2)).any Action.isDeferral) r.1) fun c r member listed rewrites => by
    refine (below c member r.1 r.2 rewrites).mono fun deferral => ?_
    rw [List.any_flatMap, List.any_eq_true]
    exact ⟨r, listed, deferral⟩
  exact pairs.map_right fun _ _ edits => edits

theorem Readable.edits_deferred_of_below {n d : Node} {results : List (Node × List Action)}
    (readable : Readable n)
    (below : ∀ c, sizeOf c < sizeOf n → Readable c → ∀ ancestors m log, Rewrites s ancestors c m log →
      c.Edits s.componentName (log.any Action.isDeferral) m)
    (made : n.deferChildren? = some d)
    (derived : Pointwise (fun a r => Rewrites s ancestors a r.1 r.2) d.children results) :
    n.Enlarges s.componentName true (d.withChildren (results.map (·.1))) := by
  have under : ∀ c ∈ n.children, ∀ ancestors m log, Rewrites s ancestors c m log →
      c.Edits s.componentName true m := by
    intro c member ancestors m log h
    exact (below c (sizeOf_lt_of_mem_children member) (readable.child member) _ _ _ h).mono fun _ => rfl
  obtain ⟨opening, content, closing, body, rfl, listed, tag, chosen, edits⟩ :=
    readable.edits_deferral made s.componentName
  have content' : ∀ c ∈ content, c ∈ n.children := fun c member => by simp [listed, member]
  obtain ⟨⟨opening', log⟩, ⟨_, log'⟩, ⟨closing', log''⟩, rfl, first, second, third⟩ := derived.of_triple
  obtain ⟨_, body', inner, rfl⟩ := second.of_thunk
  obtain ⟨_, _, form⟩ := tag
  refine edits opening' closing' body' (first.exchange.openingTag form) ?_ ?_
    (.of_body (fun c member => readable.child (content' c member)) chosen ?_ ?_)
  · exact under opening (by simp [listed]) _ _ _ first
  · exact under closing (by simp [listed]) _ _ _ third
  · intro c member own place
    -- The body is a child of the element or what a container among the children holds.
    have smaller : sizeOf body < sizeOf n := by
      have outer := sizeOf_lt_of_mem_children (content' c member)
      rcases place with rfl | inside
      · exact outer
      · exact Nat.lt_trans (sizeOf_lt_of_mem_children inside) outer
    exact (below body smaller own _ _ _ inner).mono fun _ => rfl
  · intro same
    subst same
    obtain ⟨results, rfl, _, derived⟩ := inner.of_kept fun c chosen => chosen.of_other rfl rfl
    have pairs := derived.mono (S := fun a r => a.Edits s.componentName true r.1)
      fun c r member _ rewrites => under c (content' c (List.mem_filter.1 member).1) _ _ _ rewrites
    exact ⟨_, rfl, pairs.map_right fun _ _ edits => edits⟩

theorem Rewrites.edits_of_below {n m : Node} {log : List Action} (readable : Readable n)
    (below : ∀ c, sizeOf c < sizeOf n → Readable c → ∀ ancestors m log, Rewrites s ancestors c m log →
      c.Edits s.componentName (log.any Action.isDeferral) m)
    (h : Rewrites s ancestors n m log) : n.Edits s.componentName (log.any Action.isDeferral) m := by
  have under : ∀ c ∈ n.children, ∀ ancestors m log, Rewrites s ancestors c m log →
      c.Edits s.componentName (log.any Action.isDeferral) m :=
    fun c member => below c (sizeOf_lt_of_mem_children member) (readable.child member)
  cases h with
  | stop chosen stays =>
      cases chosen with
      | @whole d actions tag before after he hd =>
          have edits : n.Edits s.componentName (actions.any Action.isDeferral) (d.thunk none) :=
            ((hd.edits readable).thunk rfl).edits
          simpa [Action.isDeferral] using edits.boundary.edits
      | other | container | boundary | element => cases stays
  | @onward _ _ c results chosen descends length each =>
      have derived : Pointwise (fun a r => Rewrites s (c.node :: ancestors) a r.1 r.2) c.node.children
          results := ⟨length, each⟩
      cases chosen with
      | other | container =>
          apply readable.edits_children
          exact edits_results (fun c member => under c member _) derived
      | @boundary e before after held _ _ reads =>
          rw [children_boundary] at derived
          obtain ⟨⟨_, log⟩, ⟨_, log'⟩, ⟨_, log''⟩, rfl, first, second, third⟩ := derived.of_triple
          obtain ⟨rfl, rfl⟩ := first.of_tag rfl rfl rfl
          obtain ⟨_, e', inner, rfl⟩ := second.of_thunk
          obtain ⟨rfl, rfl⟩ := third.of_tag rfl rfl rfl
          -- The container's own text goes on around the function, so it is the container that is edited.
          have inside : e ∈ n.children := by simp [children, held, Form.children]
          obtain ⟨pieces, layout, shown⟩ :=
            readable.container held (isEmptyExpression_of_containsRead reads)
          have edits := ((under e inside _ _ _ inner).thunkOf held layout shown).edits
          change n.Edits _ _ (e'.boundary s.componentName (some n))
          simpa [Action.isDeferral] using edits.boundary.edits
      | element he hd =>
          cases hd with
          | stays =>
              apply readable.edits_children
              exact edits_results (fun c member => under c member _) derived
          | @deferred d tag before after made =>
              have edits := readable.edits_deferred_of_below below (deferral?_some made) derived
              simpa [Action.isDeferral] using edits.edits
      | whole => cases descends

theorem Rewrites.edits {ancestors : Ancestors} {n m : Node} {log : List Action}
    (h : Rewrites s ancestors n m log) (readable : Readable n) :
    n.Edits s.componentName (log.any Action.isDeferral) m :=
  h.edits_of_below readable fun _ _smaller own _ _ _ inner => inner.edits own
termination_by sizeOf n
decreasing_by exact _smaller

end Node

end JsxBoundary
